import CloudyNeigh.IngestEffects

/-!
# Where checkpoints come from

A checkpoint is a number up to which some process or manifest takes the log to
be done. One step makes a new one only in a few ways; every invariant about
checkpoints is a case distinction over these.
-/
namespace CloudyNeigh.Ingest
open RecordIO Storage LogStream Naming SlashPath Transition Versioned

variable {S : Setup} {st st' : Store} {s t : Sys} {a : Action}

/-- The last entry that the flusher is through with. -/
def FlusherPc.position : FlusherPc → Option ℕ
  | .off => none
  | .initList => none
  | .initRead _ min => min
  | .read seq => some (seq - 1)
  | .upload j => some (j.seq - 1)
  | .manifestRead j => some (j.seq - 1)
  | .manifestWrite j _ _ => some (j.seq - 1)
  | .addRead j _ => some (j.seq - 1)
  | .addWrite j _ _ _ => some (j.seq - 1)

/-- The checkpoint of a manifest whose branch is being registered. -/
def FlusherPc.held (S : Setup) : FlusherPc → Option (Path × ℕ)
  | .addRead j checkpoint => some (S.scope.ManifestKey j.branch, checkpoint)
  | .addWrite j checkpoint _ _ => some (S.scope.ManifestKey j.branch, checkpoint)
  | _ => none

/-- The checkpoints of a flusher, with the manifest that one was read from if its
branch is not known to be registered. -/
inductive Flusher.Carries (S : Setup) (f : Flusher) : Option Path → ℕ → Prop
  | position (c : ℕ) (h : f.pc.position = some c) : Flusher.Carries S f none c
  | memory (b : String) (c : ℕ) (h : f.checkpoints b = some c) : Flusher.Carries S f none c
  | held (key : Path) (c : ℕ) (h : f.pc.held S = some (key, c)) :
      Flusher.Carries S f (some key) c

inductive Sys.Carries (S : Setup) (s : Sys) : Option Path → ℕ → Prop
  | manifest (key : Path) (m : BranchManifest) (gen : ℕ)
      (cell : s.store.manifests.cell key = some (m, gen)) :
      Sys.Carries S s (some key) m.checkpointSeq
  | flusher (i : ℕ) (who : Option Path) (c : ℕ) (h : (s.flushers i).Carries S who c) :
      Sys.Carries S s who c
  | copy (k : ℕ) (m : BranchManifest)
      (pc : (s.forks k).pc = .readTarget m ∨ (s.forks k).pc = .writeTarget m) :
      Sys.Carries S s (some (S.scope.ManifestKey (s.forks k).source)) m.checkpointSeq

section FlusherOrigin

/-- Where a checkpoint of a flusher comes from. -/
inductive Flusher.Origin (S : Setup) (st st' : Store) (f : Flusher) : Option Path → ℕ → Prop
  | old (who : Option Path) (c c' : ℕ) (h : f.Carries S who c') (le : c ≤ c') :
      Flusher.Origin S st st' f who c
  | zero : Flusher.Origin S st st' f none 0
  | manifest (key : Path) (m : BranchManifest) (gen : ℕ)
      (cell : st.manifests.cell key = some (m, gen)) :
      Flusher.Origin S st st' f (some key) m.checkpointSeq
  | found (b : String) (todo : List String) (min : Option ℕ) (m : BranchManifest) (gen c : ℕ)
      (pc : f.pc = .initRead (b :: todo) min)
      (cell : st.manifests.cell (S.scope.ManifestKey b) = some (m, gen))
      (le : c ≤ m.checkpointSeq) : Flusher.Origin S st st' f none c
  | passed (seq : ℕ) (e : Entry) (pc : f.pc = .read seq)
      (entry : entryAt S st.wal seq = some e)
      (skip : ∀ b ms, e = .mutations b ms → f.checkpoints.covers b seq = true) :
      Flusher.Origin S st st' f none seq
  | written (j : Job) (m : BranchManifest) (gen : ℕ) (pos : f.pc.position = some (j.seq - 1))
      (job : j.Ok S st.wal)
      (cell : st'.manifests.cell (S.scope.ManifestKey j.branch) = some (flushed m j, gen)) :
      Flusher.Origin S st st' f (some (S.scope.ManifestKey j.branch)) j.seq
  | registered (j : Job) (c c' : ℕ)
      (held : f.pc.held S = some (S.scope.ManifestKey j.branch, c')) (le : c ≤ c')
      (job : j.Ok S st.wal) (mem : j.branch ∈ st'.readBranchCatalog.1) :
      Flusher.Origin S st st' f none c

variable {f f' : Flusher} {who : Option Path} {c : ℕ}

/-- A move that takes up no new checkpoint. -/
lemma Flusher.Origin.keep (h : f'.Carries S who c) (hmem : f'.checkpoints = f.checkpoints)
    (hpos : ∀ c, f'.pc.position = some c → f.pc.position = some c)
    (hheld : ∀ p, f'.pc.held S = some p → f.pc.held S = some p) :
    Flusher.Origin S st st' f who c := by
  cases h with
  | position c h => exact .old none c c (.position c (hpos c h)) le_rfl
  | memory b c h => exact .old none c c (.memory b c (hmem ▸ h)) le_rfl
  | held key c h => exact .old (some key) c c (.held key c (hheld _ h)) le_rfl

lemma initNext_position {todo : List String} {min : Option ℕ} {c : ℕ}
    (h : (initNext todo min).position = some c) : min = some c ∨ c = 0 := by
  cases todo with
  | nil =>
    have hc : min.getD 0 = c := by simpa [initNext, FlusherPc.position] using h
    cases min with
    | none => exact .inr hc.symm
    | some x => exact .inl (congrArg some hc)
  | cons b bs => exact .inl h

lemma initNext_held (todo : List String) (min : Option ℕ) : (initNext todo min).held S = none := by
  cases todo <;> rfl

lemma lowerCheckpoint_le (min : Option ℕ) (c : ℕ) : lowerCheckpoint min c ≤ c := by
  cases min with
  | none => exact le_rfl
  | some x =>
    simp only [lowerCheckpoint]
    split <;> omega

/-- A failing call gives up what it held and keeps its position or starts over. -/
lemma Flusher.fail_origin (cancelled : Bool) (h : (f.fail cancelled).Carries S who c) :
    Flusher.Origin S st st' f who c := by
  refine Flusher.Origin.keep h ?_ ?_ ?_
  · unfold Flusher.fail
    split <;> rfl
  · intro c hc
    unfold Flusher.fail at hc
    split at hc
    · generalize f.pc = pc at hc ⊢
      cases pc with
      | off => cases hc
      | initList => cases hc
      | initRead todo min => cases hc
      | read seq => exact hc
      | upload j => exact hc
      | manifestRead j => exact hc
      | manifestWrite j m gen => exact hc
      | addRead j checkpoint => exact hc
      | addWrite j checkpoint branches gen => exact hc
    · cases hc
  · intro p hp
    unfold Flusher.fail at hp
    split at hp
    · generalize f.pc = pc at hp ⊢
      cases pc <;> cases hp
    · cases hp

lemma Flusher.finish_origin {j : Job} {checkpoint : ℕ}
    (hheld : f.pc.held S = some (S.scope.ManifestKey j.branch, checkpoint))
    (hjob : j.Ok S st.wal) (hle : j.seq ≤ checkpoint)
    (hmem : j.branch ∈ st'.readBranchCatalog.1)
    (h : (f.finish j checkpoint).Carries S who c) : Flusher.Origin S st st' f who c := by
  cases h with
  | position c hc =>
    have hseq : j.seq = c := by simpa [Flusher.finish, FlusherPc.position] using hc
    exact .registered j c checkpoint hheld (hseq ▸ hle) hjob hmem
  | memory b c hc =>
    by_cases hb : b = j.branch
    · have hck : checkpoint = c := by simpa [Flusher.finish, hb] using hc
      exact .registered j c checkpoint hheld hck.ge hjob hmem
    · exact .old none c c (.memory b c (by simpa [Flusher.finish, hb] using hc)) le_rfl
  | held key c hc => cases hc

theorem Flusher.Move.origin (h : Flusher.Move S st f f' st') (hok : f.pc.Ok S st)
    (hc : f'.Carries S who c) : Flusher.Origin S st st' f who c := by
  cases h with
  | fail cancelled on => exact Flusher.fail_origin cancelled hc
  | commitFail cancelled _ on write => exact Flusher.fail_origin cancelled hc
  | list pc =>
    cases hc with
    | position c h =>
      rcases initNext_position h with h | rfl
      · cases h
      · exact .zero
    | memory b c h => exact .old none c c (.memory b c h) le_rfl
    | held key c h => exact absurd h (by simp [initNext_held])
  | missing b todo min pc cell =>
    cases hc with
    | position c h =>
      rcases initNext_position h with h | rfl
      · exact .old none c c (.position c (by rw [pc]; exact h)) le_rfl
      · exact .zero
    | memory b c h => exact .old none c c (.memory b c h) le_rfl
    | held key c h => exact absurd h (by simp [initNext_held])
  | found b todo min m gen pc cell =>
    cases hc with
    | position c h =>
      rcases initNext_position h with h | rfl
      · have hlow : lowerCheckpoint min m.checkpointSeq = c := Option.some.inj h
        exact .found b todo min m gen c pc cell (hlow ▸ lowerCheckpoint_le min _)
      · exact .zero
    | memory b' c h =>
      by_cases hb : b' = b
      · have hck : m.checkpointSeq = c := by simpa [hb] using h
        exact .found b todo min m gen c pc cell hck.ge
      · exact .old none c c (.memory b' c (by simpa [hb] using h)) le_rfl
    | held key c h => exact absurd h (by simp [initNext_held])
  | wait seq pc => exact .keep hc rfl (fun _ h => h) (fun _ h => h)
  | halt seq pc => exact .keep hc rfl (fun _ h => nomatch h) (fun _ h => nomatch h)
  | skip seq b ms pc entry covered =>
    have hpass : Flusher.Origin S st st f none seq := by
      refine .passed seq _ pc entry fun b' ms' he => ?_
      cases he
      exact covered
    cases hc with
    | position c h =>
      have hseq : seq = c := by simpa [FlusherPc.position] using h
      exact hseq ▸ hpass
    | memory b c h => exact .old none c c (.memory b c h) le_rfl
    | held key c h => cases h
  | event seq evt pc entry =>
    have hpass : Flusher.Origin S st st f none seq := .passed seq _ pc entry fun _ _ he => nomatch he
    cases hc with
    | position c h =>
      have hseq : seq = c := by simpa [FlusherPc.position] using h
      exact hseq ▸ hpass
    | memory b c h =>
      dsimp only at h
      split at h
      · exact .old none c c (.memory b c h) le_rfl
      · by_cases hb : b = evt.branch
        · have hseq : seq = c := by simpa [hb] using h
          exact hseq ▸ hpass
        · exact .old none c c (.memory b c (by simpa [hb] using h)) le_rfl
    | held key c h => cases h
  | encode seq b ms data pc entry seg =>
    exact .keep hc rfl (fun _ h => by rw [pc]; exact h) (fun _ h => nomatch h)
  | upload j pc => exact .keep hc rfl (fun _ h => by rw [pc]; exact h) (fun _ h => nomatch h)
  | already j m gen pc cell le =>
    cases hc with
    | position c h => exact .old none c c (.position c (by rw [pc]; exact h)) le_rfl
    | memory b c h => exact .old none c c (.memory b c h) le_rfl
    | held key c h =>
      cases h
      exact .manifest _ m gen cell
  | prepare j m gen pc cell absent lt =>
    exact .keep hc rfl (fun _ h => by rw [pc]; exact h) (fun _ h => nomatch h)
  | written j m gen _ pc write =>
    cases hc with
    | position c h => exact .old none c c (.position c (by rw [pc]; exact h)) le_rfl
    | memory b c h => exact .old none c c (.memory b c h) le_rfl
    | held key c h =>
      cases h
      have hw := Flusher.commit_write write
      rw [pc] at hok hw
      cases hw
      exact .written j m _ (by rw [pc]; rfl) hok.1 Cells.put_self
  | conflict j m gen pc =>
    exact .keep hc rfl (fun _ h => by rw [pc]; exact h) (fun _ h => nomatch h)
  | registered j checkpoint pc mem =>
    rw [pc] at hok
    exact Flusher.finish_origin (by rw [pc]; rfl) hok.1 hok.2 mem hc
  | addPrepare j checkpoint pc notMem =>
    exact .keep hc rfl (fun _ h => by rw [pc]; exact h) (fun _ h => by rw [pc]; exact h)
  | added j checkpoint branches gen _ pc write =>
    have hw := Flusher.commit_write write
    rw [pc] at hok hw
    refine Flusher.finish_origin (by rw [pc]; rfl) hok.1 hok.2.1 ?_ hc
    cases hw
    simp [Store.readBranchCatalog]
  | addConflict j checkpoint branches gen pc =>
    exact .keep hc rfl (fun _ h => by rw [pc]; exact h) (fun _ h => by rw [pc]; exact h)

end FlusherOrigin

/-- Where a checkpoint of the system comes from. -/
inductive Sys.Origin (S : Setup) (s : Sys) (a : Action) (t : Sys) : Option Path → ℕ → Prop
  | old (who : Option Path) (c c' : ℕ) (h : s.Carries S who c') (le : c ≤ c') :
      Sys.Origin S s a t who c
  | zero : Sys.Origin S s a t none 0
  | found (i : ℕ) (o : Outcome) (b : String) (todo : List String) (min : Option ℕ)
      (m : BranchManifest) (gen c : ℕ) (act : a = .flush i o)
      (pc : (s.flushers i).pc = .initRead (b :: todo) min)
      (cell : s.store.manifests.cell (S.scope.ManifestKey b) = some (m, gen))
      (le : c ≤ m.checkpointSeq) : Sys.Origin S s a t none c
  | passed (seq : ℕ) (e : Entry) (pos : s.Carries S none (seq - 1))
      (entry : entryAt S s.store.wal seq = some e)
      (skip : ∀ b ms, e = .mutations b ms → ∃ c, s.Carries S none c ∧ seq ≤ c) :
      Sys.Origin S s a t none seq
  | written (j : Job) (m : BranchManifest) (gen : ℕ) (pos : s.Carries S none (j.seq - 1))
      (job : j.Ok S s.store.wal)
      (cell : t.store.manifests.cell (S.scope.ManifestKey j.branch) = some (flushed m j, gen)) :
      Sys.Origin S s a t (some (S.scope.ManifestKey j.branch)) j.seq
  | registered (j : Job) (c c' : ℕ)
      (held : s.Carries S (some (S.scope.ManifestKey j.branch)) c') (le : c ≤ c')
      (job : j.Ok S s.store.wal) (mem : j.branch ∈ t.store.readBranchCatalog.1) :
      Sys.Origin S s a t none c
  | copied (k : ℕ) (o : Outcome) (m : BranchManifest) (act : a = .fork k o)
      (pc : (s.forks k).pc = .writeTarget m) :
      Sys.Origin S s a t (some (S.scope.ManifestKey (s.forks k).target)) m.checkpointSeq

section SysOrigin
variable {who : Option Path} {c : ℕ}

lemma Sys.Effect.origin (h : Sys.Effect S s a t) (hi : Inflight S s) {key : Path}
    {m : BranchManifest} {gen : ℕ} (hcell : t.store.manifests.cell key = some (m, gen)) :
    Sys.Origin S s a t (some key) m.checkpointSeq := by
  have hsame : t.store.manifests = s.store.manifests →
      Sys.Origin S s a t (some key) m.checkpointSeq := by
    intro hm
    exact .old _ _ _ (.manifest key m gen (hm ▸ hcell)) le_rfl
  cases h with
  | quiet store record => exact hsame (by rw [store])
  | log entry store record => exact hsame (by rw [store])
  | segment manifests catalog wal record => exact hsame manifests
  | register b store record => exact hsame (by rw [store])
  | remove k o act commits pc store record => exact hsame (by rw [store])
  | flush i j g pc store record =>
    have hok := hi.flushers i
    rw [pc] at hok
    by_cases hk : key = S.scope.ManifestKey j.branch
    · subst hk
      have hpos : s.Carries S none (j.seq - 1) := .flusher i _ _ (.position _ (by rw [pc]; rfl))
      have hput := hcell
      rw [store, Cells.put_self] at hput
      cases hput
      exact .written j _ _ hpos hok.1 hcell
    · refine .old _ _ _ (.manifest key m gen ?_) le_rfl
      rwa [store, Cells.put_ne hk] at hcell
  | copy k m' act pc absent store birth forked lost =>
    obtain ⟨o, ho⟩ := act
    by_cases hk : key = S.scope.ManifestKey (s.forks k).target
    · subst hk
      rw [store, Cells.put_self] at hcell
      cases hcell
      exact .copied k o m ho pc
    · refine .old _ _ _ (.manifest key m gen ?_) le_rfl
      rwa [store, Cells.put_ne hk] at hcell
  | delete k o act commits pc store forked absent present =>
    by_cases hk : key = S.scope.ManifestKey (s.forks k).target
    · rw [store, hk, Cells.delete_self] at hcell
      cases hcell
    · refine .old _ _ _ (.manifest key m gen ?_) le_rfl
      rwa [store, Cells.delete_ne hk] at hcell

lemma Flusher.Origin.sys {i : ℕ} {o : Outcome}
    (hc : Flusher.Origin S s.store t.store (s.flushers i) who c) :
    Sys.Origin S s (.flush i o) t who c := by
  cases hc with
  | old who c c' h le => exact .old who c c' (.flusher i who c' h) le
  | zero => exact .zero
  | manifest key m gen cell => exact .old _ _ _ (.manifest key m gen cell) le_rfl
  | found b todo min m gen c pc cell le => exact .found i o b todo min m gen c rfl pc cell le
  | passed seq e pc entry skip =>
    refine .passed _ e (.flusher i _ _ (.position _ (by rw [pc]; rfl))) entry fun b ms he => ?_
    obtain ⟨c, hb, hle⟩ := (Option.any_eq_true ..).mp (skip b ms he)
    exact ⟨c, .flusher i _ _ (.memory b c hb), by simpa using hle⟩
  | written j m gen pos job cell =>
    exact .written j m gen (.flusher i _ _ (.position _ pos)) job cell
  | registered j c c' held le job mem =>
    exact .registered j c c' (.flusher i _ _ (.held _ _ held)) le job mem

/-- The manifest that a call is about to copy was read from its source. -/
lemma ForkCall.Move.origin {k : ℕ} {k' : ForkCall} {o : Outcome} {m : BranchManifest}
    (h : ForkCall.Move S s.store (s.forks k) k' st)
    (hpc : k'.pc = .readTarget m ∨ k'.pc = .writeTarget m) :
    Sys.Origin S s (.fork k o) t (some (S.scope.ManifestKey k'.source)) m.checkpointSeq := by
  have herr : ∀ pc : ForkPc, ¬ (pc.onError = .readTarget m ∨ pc.onError = .writeTarget m) := by
    intro pc
    cases pc <;> simp [ForkPc.onError]
  cases h with
  | error on => exact absurd hpc (herr _)
  | commitError _ on write => exact absurd hpc (herr _)
  | copied m' gen pc cell =>
    have hm : m' = m := by simpa using hpc
    exact .old _ _ _ (.manifest _ m gen (hm ▸ cell)) le_rfl
  | absent m' pc =>
    have hm : m' = m := by simpa using hpc
    exact .old _ _ _ (.copy k m (.inl (hm ▸ pc))) le_rfl
  | giveUp on => simp at hpc
  | written m _ pc write => simp at hpc
  | registered pc mem => simp at hpc
  | addPrepare pc => simp at hpc
  | added branches gen _ pc write => simp at hpc
  | addConflict branches gen pc => simp at hpc
  | appended _ pc write => simp at hpc
  | deleted _ pc write => simp at hpc
  | removePrepare pc mem => simp at hpc
  | removed branches gen _ pc write => simp at hpc
  | removeConflict branches gen pc => simp at hpc

lemma flusher_unchanged {i : ℕ} (h : t.flushers i = s.flushers i)
    (hc : (t.flushers i).Carries S who c) : Sys.Origin S s a t who c :=
  .old who c c (.flusher i who c (h ▸ hc)) le_rfl

lemma fork_unchanged {k : ℕ} {m : BranchManifest} (h : t.forks k = s.forks k)
    (hpc : (t.forks k).pc = .readTarget m ∨ (t.forks k).pc = .writeTarget m) :
    Sys.Origin S s a t (some (S.scope.ManifestKey (t.forks k).source)) m.checkpointSeq := by
  rw [h] at hpc ⊢
  exact .old _ _ _ (.copy k m hpc) le_rfl

/-- Every checkpoint after a step has one of the listed origins. -/
theorem Sys.Change.origin (h : Sys.Change S s a t) (hi : Inflight S s)
    (hc : t.Carries S who c) : Sys.Origin S s a t who c := by
  have heff := h.effect hi
  cases hc with
  | manifest key m gen cell => exact heff.origin hi cell
  | flusher i who c hc =>
    cases h with
    | start i' =>
      by_cases hi' : i = i'
      · subst hi'
        simp only [Function.update_self] at hc
        cases hc with
        | position c h => cases h
        | memory b c h => cases h
        | held key c h => cases h
      · exact flusher_unchanged (Function.update_of_ne hi' ..) hc
    | crash i' =>
      by_cases hi' : i = i'
      · subst hi'
        simp only [Function.update_self] at hc
        cases hc with
        | position c h => cases h
        | memory b c h => cases h
        | held key c h => cases h
      · exact flusher_unchanged (Function.update_of_ne hi' ..) hc
    | flush i' o f st move =>
      by_cases hi' : i = i'
      · subst hi'
        simp only [Function.update_self] at hc
        exact Flusher.Origin.sys (move.origin (hi.flushers i) hc)
      · exact flusher_unchanged (Function.update_of_ne hi' ..) hc
    | append entry ok => exact flusher_unchanged rfl hc
    | call k source target idle vs vt => exact flusher_unchanged rfl hc
    | fork k o k' st move commit =>
      exact flusher_unchanged (congrFun (record_flushers s _ st) i) hc
    | abandon k on => exact flusher_unchanged rfl hc
  | copy k m pc =>
    cases h with
    | append entry ok => exact fork_unchanged rfl pc
    | start i => exact fork_unchanged rfl pc
    | crash i => exact fork_unchanged rfl pc
    | flush i o f st move => exact fork_unchanged rfl pc
    | call k' source target idle vs vt =>
      by_cases hk : k = k'
      · subst hk
        simp at pc
      · exact fork_unchanged (Function.update_of_ne hk ..) pc
    | fork k' o c st move commit =>
      by_cases hk : k = k'
      · subst hk
        simp only [Function.update_self] at pc ⊢
        exact move.origin pc
      · exact fork_unchanged (Function.update_of_ne hk ..) pc
    | abandon k' on =>
      by_cases hk : k = k'
      · subst hk
        simp at pc
      · exact fork_unchanged (Function.update_of_ne hk ..) pc

end SysOrigin

end CloudyNeigh.Ingest
