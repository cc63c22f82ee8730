import CloudyNeigh.LocalStore
import Mathlib.Data.List.Basic

/-!
# Compare-and-swap on the local store

In a run that keeps to `Careful` the files of a key have increasing modification
times, so a generation names one of them. A call that holds the lock and has seen
a file finds it unchanged when it renames.
-/
namespace CloudyNeigh.LocalStore
open RecordIO Transition

/-- The `n`-th change of the key published `f`. -/
def State.At (s : State) (n : ℕ) (f : File) (writer : ℕ) : Prop :=
  0 < n ∧ s.changes[n - 1]? = some (.publish f writer)

/-- The call published the file `f` with its own data. -/
def State.Published (s : State) (id : ℕ) (c : Call) (f : File) : Prop :=
  s.At c.seen f id ∧ f.data = c.data

/-- A `Put` with `GenerationMatch` published right after the file that it names. -/
def State.Swapped (s : State) (c : Call) : Prop :=
  c.cond.Absent = false → c.cond.GenerationMatch ≠ [] →
    ∃ f w, s.At (c.seen - 1) f w ∧ f.generation = c.cond.GenerationMatch

/-- The file that the call saw passed its check. -/
def Call.Matches (c : Call) (prev : Option File) : Prop :=
  c.cond.GenerationMatch ≠ [] → ∃ f, prev = some f ∧ f.generation = c.cond.GenerationMatch

/-- What is known at each point of a call. -/
def Call.Ok (s : State) (id : ℕ) (c : Call) : Prop :=
  match c.pc with
  | .absentTime | .link _ => c.cond.Absent = true
  | .linkStat => c.cond.Absent = true ∧ c.seen = s.changes.length ∧ ∃ f, s.Published id c f
  | .putAdvance f => s.file = some f
  | .putTime prev => c.Matches prev ∧
      ∀ f, prev = some f → s.file = some f ∧ f.modTime ≤ s.last c.process
  | .putRename prev t => c.Matches prev ∧ ∀ f, prev = some f → s.file = some f ∧ f.modTime < t
  | .putRenameStat => c.seen = s.changes.length ∧ (∃ f, s.Published id c f) ∧ s.Swapped c
  | .getStat f => ∃ w, s.At c.seen f w
  | .putReturned g => (∃ f, s.Published id c f ∧ f.generation = g) ∧ s.Swapped c
  | .getReturned g data => ∃ f w, s.At c.seen f w ∧ f.generation = g ∧ f.data = data
  | _ => True

structure Own (s : State) (id : ℕ) (c : Call) : Prop where
  lock : c.pc.locked = true → s.lock = some id
  linked : c.pc = .linkStat → id ∈ s.linked
  ok : c.Ok s id

structure Inv (s : State) : Prop where
  increasing : s.files.Pairwise fun f g => f.modTime < g.modTime
  own : ∀ id c, s.calls id = some c → Own s id c

section History
variable {s t : State}

lemma at_of_file {f : File} (h : s.file = some f) : ∃ w, s.At s.changes.length f w := by
  obtain ⟨ch, hch, hf⟩ := Option.bind_eq_some_iff.mp h
  rw [List.getLast?_eq_getElem?] at hch
  cases ch with
  | publish f' w =>
    cases hf
    refine ⟨w, ?_, hch⟩
    by_contra hz
    rw [Nat.eq_zero_of_not_pos hz] at hch
    have : s.changes = [] := List.eq_nil_of_length_eq_zero (Nat.eq_zero_of_not_pos hz)
    simp [this] at hch
  | remove w => cases hf

lemma file_of_at {f : File} {w : ℕ} (h : s.At s.changes.length f w) : s.file = some f := by
  unfold State.file
  rw [List.getLast?_eq_getElem?, h.2]
  rfl

lemma State.At.mono {n w : ℕ} {f : File} (h : s.At n f w) (hp : s.changes <+: t.changes) :
    t.At n f w := by
  obtain ⟨rest, hr⟩ := hp
  have hlt : n - 1 < s.changes.length := (List.getElem?_eq_some_iff.mp h.2).1
  exact ⟨h.1, by rw [← hr, List.getElem?_append_left hlt, h.2]⟩

lemma State.At.mem {n w : ℕ} {f : File} (h : s.At n f w) : f ∈ s.files :=
  List.mem_filterMap.mpr ⟨_, List.mem_of_getElem? h.2, rfl⟩

lemma State.Published.mono {id : ℕ} {c : Call} {f : File} (h : s.Published id c f)
    (hp : s.changes <+: t.changes) : t.Published id c f :=
  ⟨h.1.mono hp, h.2⟩

lemma State.Swapped.mono {c : Call} (h : s.Swapped c) (hp : s.changes <+: t.changes) :
    t.Swapped c := by
  intro ha hg
  obtain ⟨f, w, hf, hgen⟩ := h ha hg
  exact ⟨f, w, hf.mono hp, hgen⟩

end History

/-- What a step of call `id` leaves to the other calls. -/
structure Frame (s t : State) (id : ℕ) : Prop where
  last : ∀ p, s.last p ≤ t.last p
  lock : ∀ j ≠ id, s.lock = some j → t.lock = some j
  linked : ∀ j ≠ id, j ∈ s.linked → j ∈ t.linked
  changes : t.changes = s.changes ∨ ∃ ch, t.changes = s.changes ++ [ch] ∧ s.linked = [] ∧
    (s.lock = some id ∨ s.file = none) ∧ ∀ f, ch.file = some f → s.After f.modTime

/-- One step of call `id`. -/
structure Effect (s t : State) (id : ℕ) : Prop extends Frame s t id where
  others : ∀ j ≠ id, t.calls j = s.calls j
  own : ∀ c, t.calls id = some c → Own t id c

section Effect
variable {s t : State} {id : ℕ}

lemma Frame.grows (h : Frame s t id) : s.changes <+: t.changes := by
  rcases h.changes with he | ⟨ch, he, -⟩
  · rw [he]
  · exact ⟨[ch], he.symm⟩

/-- A file that the holder of the lock has seen stays. -/
lemma Frame.changes_locked (h : Frame s t id) {j : ℕ} (hj : j ≠ id) (hl : s.lock = some j)
    {f : File} (hf : s.file = some f) : t.changes = s.changes := by
  rcases h.changes with he | ⟨ch, -, -, hlock | hnone, -⟩
  · exact he
  · rw [hl] at hlock
    exact absurd (Option.some.inj hlock) hj
  · rw [hf] at hnone
    cases hnone

lemma Frame.file_locked (h : Frame s t id) {j : ℕ} (hj : j ≠ id) (hl : s.lock = some j)
    {f : File} (hf : s.file = some f) : t.file = some f := by
  unfold State.file at hf ⊢
  rw [h.changes_locked hj hl hf, hf]

/-- What is known of one call survives a step of another one. -/
lemma Own.frame {j : ℕ} {c : Call} (ho : Own s j c) (h : Frame s t id) (hj : j ≠ id) :
    Own t j c := by
  obtain ⟨hlock, hlinked, hok⟩ := ho
  refine ⟨fun hl => h.lock j hj (hlock hl), fun hl => h.linked j hj (hlinked hl), ?_⟩
  have hg := h.grows
  unfold Call.Ok at hok ⊢
  cases hpc : c.pc with
  | absentTime | link => simpa [hpc] using hok
  | linkStat =>
    simp only [hpc] at hok ⊢
    obtain ⟨ha, hseen, f, hf⟩ := hok
    have hsame : t.changes = s.changes := by
      rcases h.changes with he | ⟨ch, -, hnone, -⟩
      · exact he
      · have := hlinked hpc
        rw [hnone] at this
        cases this
    exact ⟨ha, by rw [hsame, hseen], f, hf.mono hg⟩
  | putAdvance f =>
    simp only [hpc] at hok ⊢
    exact h.file_locked hj (hlock (by rw [hpc]; rfl)) hok
  | putTime prev =>
    simp only [hpc] at hok ⊢
    refine ⟨hok.1, fun f hf => ?_⟩
    obtain ⟨hfile, hle⟩ := hok.2 f hf
    exact ⟨h.file_locked hj (hlock (by rw [hpc]; rfl)) hfile, hle.trans (h.last _)⟩
  | putRename prev n =>
    simp only [hpc] at hok ⊢
    refine ⟨hok.1, fun f hf => ?_⟩
    obtain ⟨hfile, hlt⟩ := hok.2 f hf
    exact ⟨h.file_locked hj (hlock (by rw [hpc]; rfl)) hfile, hlt⟩
  | putRenameStat =>
    simp only [hpc] at hok ⊢
    obtain ⟨hseen, ⟨f, hf⟩, hsw⟩ := hok
    have hfile : s.file = some f := file_of_at (hseen ▸ hf.1)
    have hsame := h.changes_locked hj (hlock (by rw [hpc]; rfl)) hfile
    exact ⟨by rw [hsame, hseen], ⟨f, hf.mono hg⟩, hsw.mono hg⟩
  | getStat f =>
    simp only [hpc] at hok ⊢
    obtain ⟨w, hw⟩ := hok
    exact ⟨w, hw.mono hg⟩
  | putReturned g =>
    simp only [hpc] at hok ⊢
    obtain ⟨⟨f, hf, hgen⟩, hsw⟩ := hok
    exact ⟨⟨f, hf.mono hg, hgen⟩, hsw.mono hg⟩
  | getReturned g data =>
    simp only [hpc] at hok ⊢
    obtain ⟨f, w, hf, hrest⟩ := hok
    exact ⟨f, w, hf.mono hg, hrest⟩
  | putLock | putStat | getOpen | deleteLock | deleteStat | deleteRemove | deleteAdvance
  | deleteReturned | failed => trivial

lemma Frame.increasing (h : Frame s t id)
    (hi : s.files.Pairwise fun f g => f.modTime < g.modTime) :
    t.files.Pairwise fun f g => f.modTime < g.modTime := by
  unfold State.files at hi ⊢
  rcases h.changes with he | ⟨ch, he, -, -, hafter⟩
  · rwa [he]
  · rw [he, List.filterMap_append]
    refine List.pairwise_append.mpr ⟨hi, ?_, ?_⟩
    · cases hf : ch.file <;> simp [hf]
    · intro f hf g hg
      have hg' : ch.file = some g := by simpa using hg
      exact hafter g hg' f hf

theorem Effect.inv (h : Effect s t id) (hi : Inv s) : Inv t := by
  refine ⟨h.increasing hi.increasing, fun j c hc => ?_⟩
  by_cases hj : j = id
  · subst hj
    exact h.own c hc
  · rw [h.others j hj] at hc
    exact (hi.own j c hc).frame h.toFrame hj

end Effect

section Times
lemma nextLocalModTime_gt {last : ℤ} (now : ℤ) (h : last < maxInt64) : last < nextLocalModTime last now := by
  unfold nextLocalModTime
  split
  · rw [if_neg (by omega)]
    omega
  · omega

lemma le_advanceLocalModTime (last ns : ℤ) :
    last ≤ advanceLocalModTime last ns ∧ ns ≤ advanceLocalModTime last ns := by
  unfold advanceLocalModTime
  split <;> omega

end Times

/-- A step of call `id` that changes nothing on the key, up to the record of the call. -/
structure Quiet (s s' : State) (id : ℕ) : Prop where
  changes : s'.changes = s.changes
  last : ∀ p, s.last p ≤ s'.last p
  lock : ∀ j ≠ id, s.lock = some j → s'.lock = some j
  linked : s'.linked = s.linked
  calls : s'.calls = s.calls

section Quiet
variable {s s' : State} {id : ℕ} {c : Call}

lemma Quiet.refl (s : State) (id : ℕ) : Quiet s s id :=
  ⟨rfl, fun _ => le_refl _, fun _ _ h => h, rfl, rfl⟩

lemma Quiet.setLast (id : ℕ) {p : ℕ} {n : ℤ} (h : s.last p ≤ n) : Quiet s (s.setLast p n) id := by
  refine ⟨rfl, fun q => ?_, fun _ _ h => h, rfl, rfl⟩
  by_cases hq : q = p
  · subst hq
    simpa [State.setLast] using h
  · simp [State.setLast, hq]

lemma Quiet.acquire (h : s.lock = none) : Quiet s { s with lock := some id } id :=
  ⟨rfl, fun _ => le_refl _, fun _ _ hl => (by rw [h] at hl; cases hl), rfl, rfl⟩

lemma Quiet.goto (h : Quiet s s' id) (own : Own (s'.goto id c) id c) :
    Effect s (s'.goto id c) id where
  others j hj := by simp [State.goto, hj, h.calls]
  last := h.last
  lock := h.lock
  linked j _ hm := by simpa [State.goto, h.linked] using hm
  changes := .inl h.changes
  own d hd := by
    simp only [State.goto, Function.update_self, Option.some.injEq] at hd
    exact hd ▸ own

lemma Quiet.finish (h : Quiet s s' id) (hend : c.pc.ended = true) (ok : c.Ok s' id) :
    Effect s (s'.finish id c) id where
  others j hj := by simp [State.finish, hj, h.calls]
  last := h.last
  lock j hj hl := by
    have hl' := h.lock j hj hl
    have hne : s'.lock ≠ some id := by
      rw [hl']
      simpa using hj
    simpa [State.finish, hne] using hl'
  linked j hj hm := by
    rw [← h.linked] at hm
    simpa [State.finish, hj] using hm
  changes := .inl h.changes
  own d hd := by
    simp only [State.finish, Function.update_self, Option.some.injEq] at hd
    subst hd
    refine ⟨fun hl => ?_, fun hl => ?_, ok⟩
    · cases hpc : c.pc <;> simp [hpc, Pc.ended, Pc.locked] at hend hl
    · rw [hl] at hend
      cases hend

lemma Quiet.fail (h : Quiet s s' id) : Effect s (s'.finish id { c with pc := .failed }) id :=
  h.finish rfl trivial

/-- The check after `os.Stat`, when the call holds the lock. -/
lemma Quiet.afterStat (h : Quiet s s' id) {prev : Option File} (hl : s'.lock = some id)
    (hprev : ∀ f, prev = some f → s'.file = some f ∧ f.modTime ≤ s'.last c.process) :
    Effect s (s'.afterStat id c prev) id := by
  unfold State.afterStat
  split
  · exact h.fail
  · rename_i hmatch
    refine h.goto ⟨fun _ => hl, fun hpc => (by cases hpc), ?_, hprev⟩
    intro hne
    cases prev with
    | none => simp at hmatch; exact absurd hmatch hne
    | some f =>
      refine ⟨f, rfl, ?_⟩
      by_contra hg
      exact hmatch ⟨hne, by simpa using hg⟩

end Quiet

section Publish
variable {s : State} {id : ℕ} {c : Call}

lemma at_change (ch : List Change) (f : File) (w : ℕ) :
    (ch ++ [Change.publish f w])[ch.length + 1 - 1]? = some (.publish f w) := by
  simp

/-- The step in which a file takes effect. -/
lemma publish_effect {t : State} {f : File} {c' : Call} (hch : t.changes = s.changes ++ [.publish f id])
    (hlast : t.last = s.last) (hlock : t.lock = s.lock) (hlinked : ∀ j ∈ s.linked, j ∈ t.linked)
    (hcalls : t.calls = Function.update s.calls id (some c')) (hnone : s.linked = [])
    (hexcl : s.lock = some id ∨ s.file = none) (hafter : s.After f.modTime) (own : Own t id c') :
    Effect s t id where
  others j hj := by rw [hcalls, Function.update_of_ne hj]
  last p := by rw [hlast]
  lock j _ hl := by rw [hlock, hl]
  linked j _ hm := hlinked j hm
  changes := .inr ⟨_, hch, hnone, hexcl, fun g hg => by cases hg; exact hafter⟩
  own d hd := by
    rw [hcalls, Function.update_self] at hd
    cases hd
    exact own

/-- A time later than the present file is later than all earlier ones. -/
lemma Inv.after (hi : Inv s) {f : File} {n : ℤ} (hf : s.file = some f) (hn : f.modTime < n) :
    s.After n := by
  obtain ⟨ch, hch, hcf⟩ := Option.bind_eq_some_iff.mp hf
  obtain ⟨front, hfront⟩ := List.getLast?_eq_some_iff.mp hch
  have hfiles : s.files = front.filterMap Change.file ++ [f] := by
    rw [State.files, hfront, List.filterMap_append]
    simp [hcf]
  have hinc := hi.increasing
  intro g hg
  rw [hfiles] at hg hinc
  rcases List.mem_append.mp hg with hold | hnew
  · exact ((List.pairwise_append.mp hinc).2.2 g hold f (by simp)).trans hn
  · rw [List.mem_singleton.mp hnew]
    exact hn

end Publish

section Step
variable {s t : State} {id : ℕ} {c : Call} {o : Outcome}

lemma link_effect (ho : Own s id c) {n : ℤ} (hpc : c.pc = .link n) (hnone : s.file = none)
    (hafter : s.After n) (hlinked : s.linked = []) :
    Effect s (({ s with linked := id :: s.linked }.change (.publish ⟨c.data, n⟩ id)).goto id
      { c with pc := .linkStat, seen := s.changes.length + 1 }) id := by
  have hok := ho.ok
  rw [Call.Ok, hpc] at hok
  refine publish_effect rfl rfl rfl (fun j hj => List.mem_cons_of_mem id hj) rfl hlinked
    (.inr hnone) hafter ⟨fun hl => (by cases hl), fun _ => List.mem_cons_self, hok, ?_, ?_⟩
  · simp [State.goto, State.change]
  · exact ⟨⟨c.data, n⟩, ⟨Nat.succ_pos _, at_change _ _ _⟩, rfl⟩

lemma rename_effect (hi : Inv s) (ho : Own s id c) {prev : Option File} {n : ℤ}
    (hpc : c.pc = .putRename prev n) (hafter : prev = none → s.After n) (hlinked : s.linked = []) :
    Effect s ((s.change (.publish ⟨c.data, n⟩ id)).goto id
      { c with pc := .putRenameStat, seen := s.changes.length + 1 }) id := by
  have hok := ho.ok
  rw [Call.Ok, hpc] at hok
  obtain ⟨hmatch, hprev⟩ := hok
  have hlock : s.lock = some id := ho.lock (by rw [hpc]; rfl)
  have hlater : s.After n := by
    cases hp : prev with
    | none => exact hafter hp
    | some f =>
      obtain ⟨hf, hlt⟩ := hprev f hp
      exact hi.after hf hlt
  refine publish_effect rfl rfl rfl (fun j hj => hj) rfl hlinked (.inl hlock) hlater
    ⟨fun _ => hlock, fun hl => (by cases hl), ?_, ?_, ?_⟩
  · simp [State.goto, State.change]
  · exact ⟨⟨c.data, n⟩, ⟨Nat.succ_pos _, at_change _ _ _⟩, rfl⟩
  · -- the file that passed the check is the last one before this
    intro _ hg
    obtain ⟨f, hf, hgen⟩ := hmatch hg
    obtain ⟨w, hw⟩ := at_of_file (hprev f hf).1
    exact ⟨f, w, hw.mono (List.prefix_append _ _), hgen⟩

lemma remove_effect (ho : Own s id c) {f : File} (hpc : c.pc = .deleteRemove f)
    (hlinked : s.linked = []) :
    Effect s ((s.change (.remove id)).goto id { c with pc := .deleteAdvance f }) id where
  others j hj := by simp [State.goto, State.change, hj]
  last _ := le_refl _
  lock _ _ hl := hl
  linked _ _ hm := hm
  changes := .inr ⟨_, rfl, hlinked, .inl (ho.lock (by rw [hpc]; rfl)), fun _ hf => by cases hf⟩
  own d hd := by
    simp only [State.goto, Function.update_self, Option.some.injEq] at hd
    subst hd
    exact ⟨fun _ => ho.lock (by rw [hpc]; rfl), fun hl => (by cases hl), trivial⟩

/-- The `Stat` of a call that has just published finds its own file. -/
lemma stat_effect (hseen : c.seen = s.changes.length)
    (hpub : ∃ f, s.Published id c f) (hsw : s.Swapped c) {f : File} (hf : s.file = some f) :
    Effect s (s.finish id { c with pc := .putReturned f.generation }) id := by
  refine (Quiet.refl s id).finish rfl ⟨⟨f, ?_, rfl⟩, hsw⟩
  obtain ⟨g, hg⟩ := hpub
  have hfile := file_of_at (hseen ▸ hg.1)
  rw [hf] at hfile
  cases hfile
  exact hg

theorem stepCall_effect (hi : Inv s) (hc : s.calls id = some c) (hcare : c.Careful s o)
    (h : stepCall s id c o = some t) : Effect s t id := by
  have ho := hi.own id c hc
  have hq := Quiet.refl s id
  have hok := ho.ok
  unfold Call.Careful at hcare
  unfold stepCall at h
  split at h
  case h_1 now hpc =>
    rw [Call.Ok, hpc] at hok
    simp only [hpc] at hcare
    split at h <;> cases h
    have hgt := nextLocalModTime_gt now hcare
    exact (Quiet.setLast id hgt.le).goto ⟨fun hl => (by cases hl), fun hl => (by cases hl), hok⟩
  case h_2 n hpc =>
    simp only [hpc] at hcare
    split at h <;> cases h
    · exact hq.fail
    · obtain ⟨hafter, hl⟩ := hcare ‹_›
      exact link_effect ho hpc ‹_› hafter hl
  case h_3 hpc =>
    rw [Call.Ok, hpc] at hok
    obtain ⟨habs, hseen, hpub⟩ := hok
    split at h <;> cases h
    · refine stat_effect hseen hpub (fun hf => ?_) ‹_›
      rw [habs] at hf
      cases hf
    · exact hq.fail
  case h_4 hpc =>
    split at h <;> cases h
    exact (Quiet.acquire ‹_›).goto ⟨fun _ => rfl, fun hl => (by cases hl), trivial⟩
  case h_5 hpc =>
    have hlock : s.lock = some id := ho.lock (by rw [hpc]; rfl)
    split at h <;> cases h
    · exact hq.goto ⟨fun _ => hlock, fun hl => (by cases hl), ‹_›⟩
    · exact hq.afterStat hlock fun f hf => by cases hf
  case h_6 prev hpc =>
    rw [Call.Ok, hpc] at hok
    have hlock : s.lock = some id := ho.lock (by rw [hpc]; rfl)
    cases h
    have hadv := le_advanceLocalModTime (s.last c.process) prev.modTime
    refine (Quiet.setLast id hadv.1).afterStat hlock fun f hf => ?_
    cases hf
    exact ⟨hok, by simpa [State.setLast] using hadv.2⟩
  case h_7 prev now hpc =>
    rw [Call.Ok, hpc] at hok
    simp only [hpc] at hcare
    have hlock : s.lock = some id := ho.lock (by rw [hpc]; rfl)
    split at h <;> cases h
    have hgt := nextLocalModTime_gt now hcare
    refine (Quiet.setLast id hgt.le).goto ⟨fun _ => hlock, fun hl => (by cases hl), hok.1, ?_⟩
    intro f hf
    obtain ⟨hfile, hle⟩ := hok.2 f hf
    exact ⟨hfile, lt_of_le_of_lt hle hgt⟩
  case h_8 prev n hpc =>
    simp only [hpc] at hcare
    cases h
    cases prev with
    | none => exact rename_effect hi ho hpc (fun _ => hcare.1) hcare.2
    | some f => exact rename_effect hi ho hpc (fun hn => by cases hn) hcare
  case h_9 hpc =>
    rw [Call.Ok, hpc] at hok
    obtain ⟨hseen, hpub, hsw⟩ := hok
    split at h <;> cases h
    · exact stat_effect hseen hpub hsw ‹_›
    · exact hq.fail
  case h_10 hpc =>
    split at h <;> cases h
    · exact hq.goto ⟨fun hl => (by cases hl), fun hl => (by cases hl), at_of_file ‹_›⟩
    · exact hq.fail
  case h_11 f hpc =>
    rw [Call.Ok, hpc] at hok
    cases h
    obtain ⟨w, hw⟩ := hok
    exact hq.finish rfl ⟨f, w, hw, rfl, rfl⟩
  case h_12 hpc =>
    split at h <;> cases h
    exact (Quiet.acquire ‹_›).goto ⟨fun _ => rfl, fun hl => (by cases hl), trivial⟩
  case h_13 hpc =>
    have hlock : s.lock = some id := ho.lock (by rw [hpc]; rfl)
    split at h <;> cases h
    · exact hq.goto ⟨fun _ => hlock, fun hl => (by cases hl), trivial⟩
    · exact hq.fail
  case h_14 f hpc =>
    simp only [hpc] at hcare
    split at h <;> cases h
    · exact remove_effect ho hpc hcare
    · exact hq.fail
  case h_15 f hpc =>
    cases h
    have hadv := le_advanceLocalModTime (s.last c.process) f.modTime
    exact (Quiet.setLast id hadv.1).finish rfl trivial
  case h_16 =>
    split at h <;> cases h
    exact hq.fail
  case h_17 => cases h

lemma begin_effect {c : Call} (hl : c.pc.locked = false) (hk : c.pc ≠ .linkStat)
    (hok : ∀ s : State, c.Ok s id) (h : s.begin id c = some t) : Effect s t id := by
  unfold State.begin at h
  split at h <;> cases h
  refine (Quiet.refl s id).goto ⟨fun hl' => ?_, fun hk' => absurd hk' hk, hok _⟩
  rw [hl] at hl'
  cases hl'

lemma putStart_ok (id process : ℕ) (data : Bytes) (cond : Condition) :
    (putStart cond).locked = false ∧ putStart cond ≠ .linkStat ∧
      ∀ s : State, (Call.mk process data cond (putStart cond) 0).Ok s id := by
  unfold putStart
  split
  · exact ⟨rfl, by simp, fun _ => trivial⟩
  · split
    · exact ⟨rfl, by simp, fun _ => ‹_›⟩
    · exact ⟨rfl, by simp, fun _ => trivial⟩

/-- A call on another key only raises a counter. -/
lemma otherKey_inv (hi : Inv s) {p : ℕ} {n : ℤ} (h : s.last p ≤ n) : Inv (s.setLast p n) := by
  refine ⟨hi.increasing, fun j c hc => ?_⟩
  have hq := Quiet.setLast (j + 1) h
  exact (hi.own j c hc).frame ⟨hq.last, hq.lock, fun _ _ hm => hm, .inl rfl⟩ (by omega)

theorem inv_step (hi : Inv s) {a : Action} (hcare : Careful s a) (h : step s a = some t) : Inv t := by
  cases a with
  | Put id process data cond =>
    obtain ⟨hl, hk, hok⟩ := putStart_ok id process data cond
    exact (begin_effect hl hk hok h).inv hi
  | Get id => exact (begin_effect (c := { pc := .getOpen }) rfl (by simp) (fun _ => trivial) h).inv hi
  | Delete id process =>
    exact (begin_effect (c := { process := process, pc := .deleteLock }) rfl (by simp)
      (fun _ => trivial) h).inv hi
  | step id o =>
    simp only [step] at h
    split at h
    · cases h
    · rename_i c hc
      exact (stepCall_effect hi hc (hcare c hc) h).inv hi
  | otherKey p n =>
    simp only [step] at h
    split at h <;> cases h
    exact otherKey_inv hi (le_advanceLocalModTime _ _).1

theorem inv_run (h : machine.Run Careful machine.init s) : Inv s := by
  refine Machine.Run.preserves (P := Inv) (fun s a t hs hc hst => inv_step hs hc hst) h ?_
  refine ⟨by simp [machine, State.files], fun id c hc => ?_⟩
  cases hc

end Step

section Unique
variable {s : State}

/-- The files of a key differ in their generations. -/
lemma Inv.file_unique (hi : Inv s) {f g : File} (hf : f ∈ s.files) (hg : g ∈ s.files)
    (h : f.generation = g.generation) : f = g := by
  obtain ⟨htime, -⟩ := localGeneration_injective h
  obtain ⟨i, hlti, rfl⟩ := List.mem_iff_getElem.mp hf
  obtain ⟨j, hltj, rfl⟩ := List.mem_iff_getElem.mp hg
  have hinc := List.pairwise_iff_getElem.mp hi.increasing
  rcases lt_trichotomy i j with hij | rfl | hij
  · have := hinc i j hlti hltj hij
    omega
  · rfl
  · have := hinc j i hltj hlti hij
    omega

/-- A generation was published by one change only. -/
lemma Inv.at_unique (hi : Inv s) {m n v w : ℕ} {f g : File} (hf : s.At m f v) (hg : s.At n g w)
    (h : f.generation = g.generation) : m = n := by
  obtain ⟨hm, hfm⟩ := hf
  obtain ⟨hn, hgn⟩ := hg
  obtain ⟨htime, -⟩ := localGeneration_injective h
  have hlt : ∀ {i j : ℕ} {a b : File} {v w : ℕ}, i < j →
      s.changes[i]? = some (.publish a v) → s.changes[j]? = some (.publish b w) →
      a.modTime < b.modTime := by
    intro i j a b v w hij ha hb
    obtain ⟨hi', ha'⟩ := List.getElem?_eq_some_iff.mp ha
    obtain ⟨hj', hb'⟩ := List.getElem?_eq_some_iff.mp hb
    have hp := List.pairwise_filterMap.mp hi.increasing
    have hpair := List.pairwise_iff_getElem.mp hp i j hi' hj' hij
    exact hpair a (by rw [ha']; rfl) b (by rw [hb']; rfl)
  rcases lt_trichotomy (m - 1) (n - 1) with hmn | hmn | hmn
  · have := hlt hmn hfm hgn
    omega
  · omega
  · have := hlt hmn hgn hfm
    omega

end Unique

/-- The file with this generation, among all that the key has had, has this data. -/
def State.Identifies (s : State) (g data : Bytes) : Prop :=
  (∃ f ∈ s.files, f.generation = g) ∧ ∀ f ∈ s.files, f.generation = g → f.data = data

lemma Inv.identifies {s : State} (hi : Inv s) {f : File} (hf : f ∈ s.files) :
    s.Identifies f.generation f.data :=
  ⟨⟨f, hf, rfl⟩, fun g hg h => by rw [hi.file_unique hg hf h]⟩

/-- The call has returned the generation `g` to its caller. -/
def Call.gave (c : Call) (g : Bytes) : Prop :=
  c.pc = .putReturned g ∨ ∃ data, c.pc = .getReturned g data

lemma Inv.gave_at {s : State} (hi : Inv s) {id : ℕ} {c : Call} {g : Bytes}
    (hc : s.calls id = some c) (h : c.gave g) : ∃ f w, s.At c.seen f w ∧ f.generation = g := by
  have hok := (hi.own id c hc).ok
  rcases h with hpc | ⟨data, hpc⟩
  · rw [Call.Ok, hpc] at hok
    obtain ⟨⟨f, hf, hgen⟩, -⟩ := hok
    exact ⟨f, id, hf.1, hgen⟩
  · rw [Call.Ok, hpc] at hok
    obtain ⟨f, w, hf, hgen, -⟩ := hok
    exact ⟨f, w, hf, hgen⟩

/-- Generations returned by `Put` and `Get` name the bytes that were written or
read. A `Put` with `GenerationMatch` that succeeds is the next change of the key
after the file whose generation the caller had got. -/
theorem local_cas_loses_no_update {s : State} (hs : machine.Run Careful machine.init s) :
    (∀ id c g, s.calls id = some c → c.pc = .putReturned g → s.Identifies g c.data) ∧
    (∀ id c g data, s.calls id = some c → c.pc = .getReturned g data → s.Identifies g data) ∧
    ∀ id c g id' d, s.calls id = some c → c.pc = .putReturned g → c.cond.Absent = false →
      c.cond.GenerationMatch ≠ [] → s.calls id' = some d → d.gave c.cond.GenerationMatch →
      c.seen = d.seen + 1 ∧ ∃ f, s.changes[d.seen]? = some (.publish f id) ∧ f.data = c.data := by
  have hi := inv_run hs
  refine ⟨?_, ?_, ?_⟩
  · intro id c g hc hpc
    have hok := (hi.own id c hc).ok
    rw [Call.Ok, hpc] at hok
    obtain ⟨⟨f, hf, rfl⟩, -⟩ := hok
    exact hf.2 ▸ hi.identifies hf.1.mem
  · intro id c g data hc hpc
    have hok := (hi.own id c hc).ok
    rw [Call.Ok, hpc] at hok
    obtain ⟨f, w, hf, rfl, rfl⟩ := hok
    exact hi.identifies hf.mem
  · intro id c g id' d hc hpc habs hne hd hgave
    have hok := (hi.own id c hc).ok
    rw [Call.Ok, hpc] at hok
    obtain ⟨⟨f, hf, -⟩, hsw⟩ := hok
    obtain ⟨p, v, hp, hpgen⟩ := hsw habs hne
    obtain ⟨q, w, hq, hqgen⟩ := hi.gave_at hd hgave
    have hseen := hi.at_unique hp hq (hpgen.trans hqgen.symm)
    have hpos := hf.1.1
    have hnext : c.seen = d.seen + 1 := by
      have := hp.1
      omega
    exact ⟨hnext, f, by simpa [hnext] using hf.1.2, hf.2⟩

-- a file is created, read, and replaced by a process with a slow clock
def swapScript : List Action :=
  [.Put 0 0 [1] ⟨true, []⟩, .step 0 (.now 10), .step 0 .ok, .step 0 .ok, .Get 1, .step 1 .ok,
   .step 1 .ok, .Put 2 1 [2] ⟨false, localGeneration 10 1⟩, .step 2 .ok, .step 2 .ok, .step 2 .ok,
   .step 2 (.now 5), .step 2 .ok, .step 2 .ok]

set_option maxRecDepth 4000 in
theorem local_cas_loses_no_update_slow_clock : ∃ s : State,
    machine.Run Careful machine.init s ∧ ∃ c d : Call, s.calls 2 = some c ∧ c.pc = .putReturned (localGeneration 11 1) ∧ s.calls 1 = some d ∧
      c.seen = d.seen + 1 := by
  obtain ⟨s, hr, c, hc, d, hd, hpc, habs, hgen, hget⟩ := Machine.exec_exists machine Careful
    machine.init swapScript (fun s => ∃ c ∈ s.calls 2, ∃ d ∈ s.calls 1,
      c.pc = .putReturned (localGeneration 11 1) ∧ c.cond.Absent = false ∧
      c.cond.GenerationMatch = localGeneration 10 1 ∧
      d.pc = .getReturned (localGeneration 10 1) [1]) (by decide +kernel)
  have hne : c.cond.GenerationMatch ≠ [] := by
    rw [hgen]
    decide +kernel
  have hgave : d.gave c.cond.GenerationMatch := by
    rw [hgen]
    exact .inr ⟨_, hget⟩
  exact ⟨s, hr, c, d, hc, hpc, hd,
    ((local_cas_loses_no_update hr).2.2 2 c _ 1 d hc hpc habs hne hd hgave).1⟩

-- another `Put` takes effect between the `Link` and the `Stat` of call 0
def overtakenScript : List Action :=
  [.Put 0 0 [1] ⟨true, []⟩, .step 0 (.now 10), .step 0 .ok, .Put 1 1 [2] {}, .step 1 .ok,
   .step 1 .ok, .step 1 .ok, .step 1 (.now 20), .step 1 .ok, .step 1 .ok, .step 0 .ok]

-- one process deletes the file, another one creates it again at the same time of its clock
def recreatedScript : List Action :=
  [.Put 0 0 [1] ⟨true, []⟩, .step 0 (.now 10), .step 0 .ok, .step 0 .ok, .Delete 1 1, .step 1 .ok,
   .step 1 .ok, .step 1 .ok, .step 1 .ok, .Put 2 2 [2] ⟨true, []⟩, .step 2 (.now 10), .step 2 .ok,
   .step 2 .ok, .Put 3 0 [3] ⟨false, localGeneration 10 1⟩, .step 3 .ok, .step 3 .ok, .step 3 .ok,
   .step 3 (.now 30), .step 3 .ok, .step 3 .ok]

set_option maxRecDepth 4000 in
/-- `Put` returns the generation of another call's bytes; and a `Put` with the
generation of an earlier one succeeds after a `Delete` and another `Put`. -/
theorem local_cas_loses_update :
    (∃ s, machine.Reachable s ∧ ∃ c g, s.calls 0 = some c ∧ c.pc = .putReturned g ∧
      ¬ s.Identifies g c.data) ∧
    ∃ s, machine.Reachable s ∧ ∃ c d g, s.calls 3 = some c ∧ s.calls 0 = some d ∧
      c.pc = .putReturned g ∧ c.cond.Absent = false ∧ d.pc = .putReturned c.cond.GenerationMatch ∧
      c.seen = d.seen + 3 := by
  constructor
  · obtain ⟨s, hr, c, hc, hpc, hdata, hfile⟩ := Machine.exec_exists machine anyStep machine.init
      overtakenScript (fun s => ∃ c ∈ s.calls 0, c.pc = .putReturned (localGeneration 20 1) ∧
        c.data = [1] ∧ ⟨[2], 20⟩ ∈ s.files) (by decide +kernel)
    refine ⟨s, hr, c, _, hc, hpc, fun hid => ?_⟩
    have := hid.2 _ hfile rfl
    rw [hdata] at this
    cases this
  · obtain ⟨s, hr, c, hc, d, hd, hpc, habs, hdpc, hseen⟩ := Machine.exec_exists machine anyStep
      machine.init recreatedScript (fun s => ∃ c ∈ s.calls 3, ∃ d ∈ s.calls 0,
        c.pc = .putReturned (localGeneration 30 1) ∧ c.cond.Absent = false ∧
        d.pc = .putReturned c.cond.GenerationMatch ∧ c.seen = d.seen + 3) (by decide +kernel)
    exact ⟨s, hr, c, d, _, hc, hd, hpc, habs, hdpc, hseen⟩

end CloudyNeigh.LocalStore
