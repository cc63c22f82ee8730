import CloudyNeigh.QueryLoaderPass

/-!
# Runs of one loader

A history of manifest versions that only grows, and any number of concurrent
`Sync` calls. A call reads some version that exists, possibly an old one, and
later runs its locked part for it; the lock makes that part one step.
-/
namespace CloudyNeigh.Query
open RecordIO Replay Storage Transition VectorFormat

structure Version where
  manifest : BranchManifest
  gen : String
  deriving DecidableEq, Repr

inductive SyncPc
  | idle
  | holding (version : ℕ)
  | returned (version : Option ℕ) (loaded : ℕ) (err : Option SyncErr)
  deriving DecidableEq, Repr

/-- `reads` is a ghost: the versions that calls have read so far. -/
structure SyncState where
  versions : List Version
  loader : Loader
  calls : ℕ → SyncPc
  reads : List ℕ

inductive SyncAction
  | publish (v : Version)
  | readManifest (c i : ℕ)
  | readMissing (c : ℕ)
  | readFails (c : ℕ)
  | locked (c : ℕ) (faults : List Fault)
  deriving DecidableEq, Repr

def SyncState.setCall (s : SyncState) (c : ℕ) (pc : SyncPc) : SyncState :=
  { s with calls := Function.update s.calls c pc }

/-- The segments of the latest version. -/
def SyncState.refs (s : SyncState) : List SegmentRef :=
  match s.versions.getLast? with
  | some v => v.manifest.segments
  | none => []

section
variable (A : Arith) (D : Decoder) (segs : Bytes → Option Bytes) (k : Kernels)

def syncStep (s : SyncState) : SyncAction → Option SyncState
  | .publish v =>
    -- each version extends the one before and has a generation of its own
    if v.gen ≠ "" ∧ v.gen ∉ s.versions.map Version.gen ∧ s.refs <+: v.manifest.segments then
      some { s with versions := s.versions ++ [v] }
    else none
  | .readManifest c i =>
    if s.calls c = .idle ∧ i < s.versions.length then
      some { s.setCall c (.holding i) with reads := i :: s.reads }
    else none
  | .readMissing c =>
    if s.calls c = .idle then some (s.setCall c (.returned none 0 none)) else none
  | .readFails c =>
    if s.calls c = .idle then some (s.setCall c (.returned none 0 (some .readManifest))) else none
  | .locked c faults =>
    match s.calls c with
    | .holding i =>
      match s.versions[i]? with
      | some v =>
        let out := s.loader.syncLocked A D segs v.manifest v.gen faults
        some ({ s with loader := out.1 }.setCall c (.returned (some i) out.2.1 out.2.2))
      | none => none
    | _ => none

def syncMachine : Machine SyncState SyncAction where
  init := ⟨[], ⟨0, "", NewTable k⟩, fun _ => .idle, []⟩
  step := syncStep A D segs

end

structure History (s : SyncState) : Prop where
  gens : (s.versions.map Version.gen).Nodup
  gen_ne : ∀ v ∈ s.versions, v.gen ≠ ""
  grows : s.versions.Pairwise fun u v => u.manifest.segments <+: v.manifest.segments
  holding : ∀ c i, s.calls c = .holding i → i ∈ s.reads
  reads : ∀ i ∈ s.reads, i < s.versions.length

section
variable {A : Arith} {D : Decoder} {segs : Bytes → Option Bytes} {k : Kernels}
  {s t : SyncState}

lemma History.le_refs (h : History s) {v : Version} (hv : v ∈ s.versions) :
    v.manifest.segments <+: s.refs := by
  unfold SyncState.refs
  cases hl : s.versions.getLast? with
  | none =>
    rw [List.getLast?_eq_none_iff.mp hl] at hv
    cases hv
  | some u =>
    obtain ⟨pre, hpre⟩ := List.getLast?_eq_some_iff.mp hl
    have hg := h.grows
    rw [hpre] at hg hv
    rcases List.mem_append.mp hv with hm | hm
    · exact (List.pairwise_append.mp hg).2.2 v hm u (by simp)
    · have he : v = u := List.mem_singleton.mp hm
      subst he
      exact List.prefix_rfl

/-- A later version is at least as long. -/
lemma History.length_le (h : History s) {i j : ℕ} {u v : Version} (hij : j ≤ i)
    (hu : s.versions[j]? = some u) (hv : s.versions[i]? = some v) :
    u.manifest.segments.length ≤ v.manifest.segments.length := by
  obtain ⟨hj, rfl⟩ := List.getElem?_eq_some_iff.mp hu
  obtain ⟨hi, rfl⟩ := List.getElem?_eq_some_iff.mp hv
  rcases Nat.lt_or_eq_of_le hij with hlt | rfl
  · exact (List.pairwise_iff_getElem.mp h.grows j i hj hi hlt).length_le
  · exact le_rfl

/-- Generations identify versions. -/
lemma History.gen_inj (h : History s) {u v : Version} (hu : u ∈ s.versions)
    (hv : v ∈ s.versions) (hg : u.gen = v.gen) : u = v :=
  List.inj_on_of_nodup_map h.gens hu hv hg

lemma refs_publish (v : Version) :
    { s with versions := s.versions ++ [v] }.refs = v.manifest.segments := by
  simp [SyncState.refs]

lemma History.publish (h : History s) {v : Version} (hne : v.gen ≠ "")
    (hfresh : v.gen ∉ s.versions.map Version.gen) (hext : s.refs <+: v.manifest.segments) :
    History { s with versions := s.versions ++ [v] } := by
  refine ⟨?_, ?_, ?_, h.holding, ?_⟩
  · rw [List.map_append]
    refine List.nodup_append.mpr ⟨h.gens, by simp, ?_⟩
    rintro a ha b hb rfl
    rw [List.map_singleton, List.mem_singleton] at hb
    exact hfresh (hb ▸ ha)
  · intro u hu
    rcases List.mem_append.mp hu with hu | hu
    · exact h.gen_ne u hu
    · rwa [List.mem_singleton.mp hu]
  · refine List.pairwise_append.mpr ⟨h.grows, by simp, ?_⟩
    intro u hu w hw
    rw [List.mem_singleton.mp hw]
    exact (h.le_refs hu).trans hext
  · intro i hi
    have := h.reads i hi
    simp only [List.length_append]
    omega

lemma History.read (h : History s) {c i : ℕ} (hi : i < s.versions.length) :
    History { s.setCall c (.holding i) with reads := i :: s.reads } := by
  refine ⟨h.gens, h.gen_ne, h.grows, ?_, ?_⟩
  · intro d j hd
    by_cases hdc : d = c
    · subst hdc
      simp only [SyncState.setCall, Function.update_self, SyncPc.holding.injEq] at hd
      subst hd
      exact List.mem_cons_self
    · simp only [SyncState.setCall, Function.update_of_ne hdc] at hd
      exact List.mem_cons_of_mem _ (h.holding d j hd)
  · intro j hj
    rcases List.mem_cons.mp hj with rfl | hj
    · exact hi
    · exact h.reads j hj

lemma History.finish (h : History s) {c : ℕ} {pc : SyncPc} (hpc : ∀ i, pc ≠ .holding i)
    (l : Loader) : History ({ s with loader := l }.setCall c pc) := by
  refine ⟨h.gens, h.gen_ne, h.grows, ?_, h.reads⟩
  intro d j hd
  by_cases hdc : d = c
  · subst hdc
    simp only [SyncState.setCall, Function.update_self] at hd
    exact absurd hd (hpc j)
  · simp only [SyncState.setCall, Function.update_of_ne hdc] at hd
    exact h.holding d j hd

end

/-- `qs` is the part of the next segment that the published table holds. It belongs
to a version that has been read, and `lastGen` names a version that is loaded. -/
structure SyncInv (A : Arith) (D : Decoder) (segs : Bytes → Option Bytes) (k : Kernels)
    (s : SyncState) (qs : List DocumentMutation) : Prop where
  hist : History s
  holds : Holds A D segs k s.refs s.loader qs
  bound : (s.loader.applied = 0 ∧ qs = []) ∨ ∃ j ∈ s.reads, ∃ v, s.versions[j]? = some v ∧
    s.loader.applied ≤ v.manifest.segments.length ∧
    (qs = [] ∨ s.loader.applied < v.manifest.segments.length)
  lastGen : s.loader.lastGen = "" ∨ ∃ v ∈ s.versions, v.gen = s.loader.lastGen ∧
    v.manifest.segments.length ≤ s.loader.applied

section
variable {A : Arith} {D : Decoder} {segs : Bytes → Option Bytes} {k : Kernels}
  {s t : SyncState} {qs : List DocumentMutation}

lemma SyncInv.publish (h : SyncInv A D segs k s qs) {v : Version} (hne : v.gen ≠ "")
    (hfresh : v.gen ∉ s.versions.map Version.gen) (hext : s.refs <+: v.manifest.segments) :
    SyncInv A D segs k { s with versions := s.versions ++ [v] } qs := by
  refine ⟨h.hist.publish hne hfresh hext, ?_, ?_, ?_⟩
  · rw [refs_publish]
    exact h.holds.extend hext
  · rcases h.bound with h0 | ⟨j, hj, u, hu, hrest⟩
    · exact Or.inl h0
    · refine Or.inr ⟨j, hj, u, ?_, hrest⟩
      rw [List.getElem?_append_left (List.getElem?_eq_some_iff.mp hu).1, hu]
  · rcases h.lastGen with h0 | ⟨u, hu, hrest⟩
    · exact Or.inl h0
    · exact Or.inr ⟨u, List.mem_append_left _ hu, hrest⟩

/-- The locked part keeps the invariant, however it ends. -/
lemma SyncInv.locked (h : SyncInv A D segs k s qs) {c i : ℕ} (hc : s.calls c = .holding i)
    {v : Version} (hv : s.versions[i]? = some v) {p : Pass} {l : Loader} {e : Option SyncErr}
    {qs' : List DocumentMutation} (hh : Holds A D segs k s.refs l qs')
    (he : Ends p s.loader v.manifest v.gen qs l e qs') {pc : SyncPc}
    (hpc : ∀ i, pc ≠ .holding i) :
    SyncInv A D segs k ({ s with loader := l }.setCall c pc) qs' := by
  have hread := h.hist.holding c i hc
  have hmem := List.mem_of_getElem? hv
  refine ⟨h.hist.finish hpc l, hh, ?_, ?_⟩
  · cases he with
    | shortcut | unchanged | caughtUp => exact h.bound
    | clean grows all stamp => exact Or.inr ⟨i, hread, v, hv, all.le, Or.inl rfl⟩
    | stopped e grows short => exact Or.inr ⟨i, hread, v, hv, short.le, Or.inr short⟩
  · cases he with
    | shortcut | unchanged => exact h.lastGen
    | caughtUp all => exact Or.inr ⟨v, hmem, rfl, all.ge⟩
    | clean grows all stamp => exact Or.inr ⟨v, hmem, stamp.symm, all.ge⟩
    | stopped e grows short stamp =>
      rcases h.lastGen with h0 | ⟨u, hu, hg, hl⟩
      · exact Or.inl (stamp.trans h0)
      · exact Or.inr ⟨u, hu, hg.trans stamp.symm, hl.trans grows⟩

lemma syncStep_locked {c : ℕ} {faults : List Fault}
    (h : syncStep A D segs s (.locked c faults) = some t) :
    ∃ i v, s.calls c = .holding i ∧ s.versions[i]? = some v ∧
      t = { s with loader := (s.loader.syncLocked A D segs v.manifest v.gen faults).1 }.setCall c
        (.returned (some i) (s.loader.syncLocked A D segs v.manifest v.gen faults).2.1
          (s.loader.syncLocked A D segs v.manifest v.gen faults).2.2) := by
  simp only [syncStep] at h
  split at h
  · rename_i i hc
    split at h
    · rename_i v hv
      cases h
      exact ⟨i, v, hc, hv, rfl⟩
    · cases h
  · cases h

lemma SyncInv.step_locked (h : SyncInv A D segs k s qs) {c : ℕ} {faults : List Fault}
    (hst : syncStep A D segs s (.locked c faults) = some t) :
    ∃ i v n e qs', s.calls c = .holding i ∧ s.versions[i]? = some v ∧
      t.calls c = .returned (some i) n e ∧ SyncInv A D segs k t qs' ∧
      Ends (s.loader.pass A D segs v.manifest faults) s.loader v.manifest v.gen qs t.loader e
        qs' := by
  obtain ⟨i, v, hc, hv, rfl⟩ := syncStep_locked hst
  have hle := h.hist.le_refs (List.mem_of_getElem? hv)
  obtain ⟨qs', hh, he⟩ := syncLocked_ends h.holds hle v.gen faults
  exact ⟨i, v, _, _, qs', hc, hv, Function.update_self .., h.locked hc hv hh he (by simp), he⟩

/-- Every other step leaves the loader alone. -/
lemma SyncInv.step_other (h : SyncInv A D segs k s qs) {a : SyncAction}
    (ha : ∀ c faults, a ≠ .locked c faults) (hst : syncStep A D segs s a = some t) :
    t.loader = s.loader ∧ SyncInv A D segs k t qs := by
  cases a with
  | publish v =>
    simp only [syncStep] at hst
    split at hst
    · rename_i hg
      cases hst
      exact ⟨rfl, h.publish hg.1 hg.2.1 hg.2.2⟩
    · cases hst
  | readManifest c i =>
    simp only [syncStep] at hst
    split at hst
    · rename_i hg
      cases hst
      refine ⟨rfl, h.hist.read hg.2, h.holds, ?_, h.lastGen⟩
      rcases h.bound with h0 | ⟨j, hj, hrest⟩
      · exact Or.inl h0
      · exact Or.inr ⟨j, List.mem_cons_of_mem _ hj, hrest⟩
    · cases hst
  | readMissing c | readFails c =>
    simp only [syncStep] at hst
    split at hst
    · cases hst
      exact ⟨rfl, h.hist.finish (by simp) s.loader, h.holds, h.bound, h.lastGen⟩
    · cases hst
  | locked c faults => exact absurd rfl (ha c faults)

/-- One step, with what is published after it. -/
theorem SyncInv.step (h : SyncInv A D segs k s qs) {a : SyncAction}
    (hst : syncStep A D segs s a = some t) :
    ∃ qs', SyncInv A D segs k t qs' ∧ s.loader.applied ≤ t.loader.applied := by
  by_cases ha : ∃ c faults, a = .locked c faults
  · obtain ⟨c, faults, rfl⟩ := ha
    obtain ⟨i, v, n, e, qs', -, -, -, ht, he⟩ := h.step_locked hst
    exact ⟨qs', ht, he.applied_le⟩
  · push Not at ha
    obtain ⟨hl, ht⟩ := h.step_other ha hst
    exact ⟨qs, ht, hl ▸ le_rfl⟩

lemma syncInv_init : SyncInv A D segs k (syncMachine A D segs k).init [] := by
  refine ⟨⟨by simp [syncMachine], by simp [syncMachine], by simp [syncMachine],
    by simp [syncMachine], by simp [syncMachine]⟩, ⟨Nat.zero_le _, ?_, Or.inl rfl⟩,
    Or.inl ⟨rfl, rfl⟩, Or.inl rfl⟩
  exact ⟨View.empty, View.empty, ⟨[], rfl, rfl⟩, rfl, newTable_represents k⟩

theorem syncInv_reachable (h : (syncMachine A D segs k).Reachable s) :
    ∃ qs, SyncInv A D segs k s qs := by
  refine Machine.Reachable.invariant (P := fun s => ∃ qs, SyncInv A D segs k s qs)
    ⟨[], syncInv_init⟩ ?_ h
  rintro s a t ⟨qs, hi⟩ hst
  obtain ⟨qs', ht, -⟩ := hi.step hst
  exact ⟨qs', ht⟩

end

section Demo

/-! A store with two segments, one put of `a` and one of `b` and then `a` again, for
the concrete runs below. -/

def demoArith : Arith := ⟨fun a _ => a, fun a _ => a, fun a _ => a, id⟩

def demoKernels : Kernels := { Dot := fun _ _ => F32.zero, L2 := fun _ _ => F32.zero }

def demoId (b : Bytes) : Option String :=
  if b = [1] then some "a" else if b = [2] then some "b" else none

def demoDecoder : Decoder where
  mutation b := (demoId b).map fun id => ⟨"main", id, .put, b⟩
  record b := (demoId b).map fun id => ⟨id, ∅, ∅⟩
  record_noNil := by
    intro b r h
    obtain ⟨id, -, rfl⟩ := Option.map_eq_some_iff.mp h
    exact ⟨by simp, by simp [NoNil]⟩

def demoSegs (id : Bytes) : Option Bytes :=
  if id = [1] then some (encode [[1]]) else if id = [2] then some (encode [[2], [1]]) else none

def demoVersion : Version := ⟨⟨2, 1, [⟨[1], 1, 0⟩, ⟨[2], 2, 0⟩]⟩, "g1"⟩

abbrev demoMachine : Machine SyncState SyncAction :=
  syncMachine demoArith demoDecoder demoSegs demoKernels

/-- The context of the first call is cancelled inside the second segment. -/
def cancelScript : List SyncAction :=
  [.publish demoVersion, .readManifest 0 0, .locked 0 [.none, .read 1]]

end Demo

end CloudyNeigh.Query
