import CloudyNeigh.IngestCoverage

/-!
# Rollbacks

`Fork` rolls back with two store calls that have no precondition: it deletes the
manifest of its target and takes the target out of the catalog. This module says
what the manifests of a branch keep as long as these calls only find what the
`Fork` itself has written.
-/
namespace CloudyNeigh.Ingest
open RecordIO Storage LogStream Naming SlashPath Transition Versioned

variable {S : Setup} {s t : Sys} {a : Action} {b : String}

section Growth

/-- A later version of a manifest: new segments stand behind the old ones. -/
structure Grows (m m' : BranchManifest) : Prop where
  segments : m.segments <+: m'.segments
  checkpoint : m.checkpointSeq ≤ m'.checkpointSeq

lemma Grows.refl (m : BranchManifest) : Grows m m := ⟨List.prefix_rfl, le_rfl⟩

lemma Grows.trans {m m' m'' : BranchManifest} (h : Grows m m') (h' : Grows m' m'') :
    Grows m m'' :=
  ⟨h.segments.trans h'.segments, h.checkpoint.trans h'.checkpoint⟩

lemma grows_flushed {m : BranchManifest} {j : Job} (h : m.checkpointSeq < j.seq) :
    Grows m (flushed m j) :=
  ⟨List.prefix_append _ _, h.le⟩

/-- A step leads from a manifest to a later version, unless it is the deletion of
a rollback. -/
theorem BranchEffect.grows (h : BranchEffect S s a t b) (hi : Inflight S s)
    {m : BranchManifest} {gen : ℕ}
    (hcell : s.store.manifests.cell (S.scope.ManifestKey b) = some (m, gen)) :
    (∃ m' gen', t.store.manifests.cell (S.scope.ManifestKey b) = some (m', gen') ∧ Grows m m') ∨
      ∃ k o, a = .fork k o ∧ o.commits = true ∧ (s.forks k).target = b ∧
        (s.forks k).pc = .rollbackDelete ∧
        t.store.manifests.cell (S.scope.ManifestKey b) = none := by
  cases h with
  | same cell birth => exact .inl ⟨m, gen, cell.trans hcell, .refl m⟩
  | flush i j g branch pc cell birth =>
    have hok := hi.flushers i
    rw [pc] at hok
    obtain ⟨-, -, -, -, hlt⟩ := hok
    rw [Store.current_some hcell] at hlt cell
    exact .inl ⟨_, _, cell, grows_flushed hlt⟩
  | copy k o m' act target pc absent cell birth =>
    rw [absent] at hcell
    cases hcell
  | delete k o m' g act commits target pc before cell birth lost =>
    exact .inr ⟨k, o, act, commits, target, pc, cell⟩

end Growth

section AppendOnly

/-- The step is about to create the manifest of `b`. -/
def createsManifest (b : String) (s : Sys) : Action → Bool
  | .flush i o =>
    o.commits && match (s.flushers i).pc with
      | .manifestWrite j _ none => j.branch == b
      | _ => false
  | .fork k o =>
    o.commits && match (s.forks k).pc with
      | .writeTarget _ => (s.forks k).target == b
      | _ => false
  | _ => false

/-- The manifest of `b` is not created a second time after a `Fork` wrote it. -/
def createdOnce (S : Setup) (b : String) (s : Sys) (a : Action) : Prop :=
  createsManifest b s a = true → s.forked b = true →
    s.store.manifests.cell (S.scope.ManifestKey b) ≠ none

instance (s : Sys) (a : Action) : Decidable (createdOnce S b s a) :=
  inferInstanceAs (Decidable (_ → _ → _))

/-- A flusher's call that reports an error and was not committed has no effect. -/
lemma flush_not_committed {i : ℕ} {o : Outcome} (h : Sys.step S s (.flush i o) = some t)
    (ho : o.commits = false) : t.store = s.store := by
  obtain ⟨r, hr, he⟩ := Option.map_eq_some_iff.mp h
  cases he
  cases o with
  | ok => cases ho
  | failed committed cancelled =>
    have hcom : committed = false := ho
    simp only [Flusher.step, hcom, Bool.false_eq_true, if_false] at hr
    split at hr
    · cases hr
    · cases hr
      rfl

/-- A manifest comes into being only by the two writes that expect none. -/
lemma createsManifest_of_step (h : Sys.step S s a = some t) (hi : Inflight S s) (hb : Valid b)
    (hnone : s.store.manifests.cell (S.scope.ManifestKey b) = none)
    (hsome : t.store.manifests.cell (S.scope.ManifestKey b) ≠ none) :
    createsManifest b s a = true := by
  have hkeep : t.store.manifests ≠ s.store.manifests := by
    intro he
    rw [he] at hsome
    exact hsome hnone
  cases Sys.step_change h hi with
  | append entry ok => exact absurd rfl hkeep
  | start i => exact absurd rfl hkeep
  | crash i => exact absurd rfl hkeep
  | call k source target idle vs vt => exact absurd rfl hkeep
  | abandon k on => exact absurd rfl hkeep
  | flush i o f st move =>
    have hcom : o.commits = true := by
      by_contra hne
      exact hkeep (by rw [flush_not_committed h (Bool.not_eq_true _ ▸ hne)])
    rcases move.write with rfl | hw
    · exact absurd rfl hkeep
    · have hok := hi.flushers i
      generalize hpc : (s.flushers i).pc = pc at hw hok
      cases hw with
      | segment j => exact absurd (putSegment_other ..).2.1 hkeep
      | catalog j checkpoint branches gen holds => exact absurd rfl hkeep
      | manifest j m gen holds =>
        have hj : j.branch = b := by
          by_contra hne
          have hkey := ManifestKey_ne (S := S) hb hok.1.valid (Ne.symm hne)
          exact hsome ((Cells.put_ne hkey).trans hnone)
        have hgen : none = gen := by
          rw [hj] at holds
          simpa [Cells.holds, hnone] using holds
        simp [createsManifest, hcom, hpc, ← hgen, hj]
  | fork k o k' st move commit =>
    have hst := record_store (S := S) s (s.forks k) st
    have hcom : o.commits = true := by
      by_contra hne
      exact hkeep (by rw [show _ = st from hst, commit (Bool.not_eq_true _ ▸ hne)])
    rcases move.write with he | hw
    · exact absurd (by rw [show _ = st from hst, he]) hkeep
    · rw [show _ = st from hst] at hkeep hsome
      cases hw with
      | add branches gen pc holds => exact absurd rfl hkeep
      | event entry pc encoded => exact absurd rfl hkeep
      | remove branches gen pc holds => exact absurd rfl hkeep
      | delete pc =>
        have hk := ((hi.forks k).valid (by simp [pc])).2
        by_cases hkb : (s.forks k).target = b
        · subst hkb
          exact absurd (Cells.delete_self ..) hsome
        · exact absurd ((Cells.delete_ne (ManifestKey_ne hb hk (Ne.symm hkb))).trans hnone) hsome
      | manifest m pc absent =>
        have hk := ((hi.forks k).valid (by simp [pc])).2
        by_cases hkb : (s.forks k).target = b
        · simp [createsManifest, hcom, pc, hkb]
        · exact absurd ((Cells.put_ne (ManifestKey_ne hb hk (Ne.symm hkb))).trans hnone) hsome

/-- Once a manifest of `b` was there, every later state has a later version of it,
or has none although a `Fork` once wrote it. -/
lemma grows_run (hb : Valid b) (hs : (machine S).Reachable s)
    (hrun : (machine S).Run (createdOnce S b) s t) {m : BranchManifest} {gen : ℕ}
    (hcell : s.store.manifests.cell (S.scope.ManifestKey b) = some (m, gen)) :
    (∃ m' gen', t.store.manifests.cell (S.scope.ManifestKey b) = some (m', gen') ∧ Grows m m') ∨
      (t.store.manifests.cell (S.scope.ManifestKey b) = none ∧ t.forked b = true) := by
  induction hrun with
  | refl => exact .inl ⟨m, gen, hcell, .refl m⟩
  | @tail u v hpre hstep ih =>
    obtain ⟨a, hok, hstep⟩ := hstep
    obtain ⟨hi, hl⟩ := ledger_reachable (hs.run hpre)
    have heff := (Sys.step_change hstep hi).effect hi
    rcases ih with ⟨m₁, gen₁, hcell₁, hgrow⟩ | ⟨hnone, hforked⟩
    · rcases (heff.branch hi hb).grows hi hcell₁ with ⟨m₂, gen₂, hcell₂, hgrow₂⟩ | hdel
      · exact .inl ⟨m₂, gen₂, hcell₂, hgrow.trans hgrow₂⟩
      · obtain ⟨k, o, -, -, htarget, hpc, hgone⟩ := hdel
        have hwrote := hl.wrote k (by rw [hpc]; rfl)
        rw [htarget] at hwrote
        exact .inr ⟨hgone, heff.forked_mono hwrote⟩
    · refine .inr ⟨?_, heff.forked_mono hforked⟩
      by_contra hne
      exact hok (createsManifest_of_step hstep hi hb hnone hne) hforked hnone

/-- Of two versions of a manifest the later one has all segments of the earlier
one in front and a checkpoint that is not lower, whenever in between the manifest
was not created anew after the rollback of a `Fork` had deleted it. -/
theorem manifest_append_only (S : Setup) (b : String) (hb : Valid b) (s t : Sys)
    (hs : (machine S).Reachable s) (hrun : (machine S).Run (createdOnce S b) s t)
    (m m' : BranchManifest) (gen gen' : ℕ)
    (hm : s.store.manifests.cell (S.scope.ManifestKey b) = some (m, gen))
    (hm' : t.store.manifests.cell (S.scope.ManifestKey b) = some (m', gen')) :
    m.segments <+: m'.segments ∧ m.checkpointSeq ≤ m'.checkpointSeq := by
  rcases grows_run hb hs hrun hm with ⟨m₁, gen₁, hcell, hgrow⟩ | ⟨hnone, -⟩
  · rw [hm'] at hcell
    cases hcell
    exact ⟨hgrow.segments, hgrow.checkpoint⟩
  · rw [hm'] at hnone
    cases hnone

/-- The next `n` store calls of `Fork` call `k` succeed. -/
def forkCalls (k n : ℕ) : List Action := List.replicate n (.fork k .ok)

-- "main" has one entry, which is flushed and registered.
def mainScript : List Action := [demoMainEntry, .start 0] ++ flushes 0 8

-- The copy for "dev" is written.
def copyScript : List Action := mainScript ++ [.call 0 "main" "dev"] ++ forkCalls 0 3

-- The `Fork` finishes, and an entry of "dev" is flushed on top of the copy.
def growScript : List Action := forkCalls 0 3 ++ [demoDevEntry] ++ flushes 0 5

-- The append of the `Fork` fails and it rolls back; then an entry of "dev" is flushed.
def rewriteScript : List Action :=
  forkCalls 0 2 ++ [.fork 0 (.failed false false)] ++ forkCalls 0 3 ++ [demoDevEntry] ++
    flushes 0 4

/-- Two versions of the manifest of "dev" that are related by `P`. -/
def devVersions (P : BranchManifest → BranchManifest → Bool) (s t : Sys) : Bool :=
  (s.store.manifests.cell (demoSetup.scope.ManifestKey "dev")).any fun p =>
    (t.store.manifests.cell (demoSetup.scope.ManifestKey "dev")).any fun q => P p.1 q.1

lemma devVersions_spec {P : BranchManifest → BranchManifest → Bool} {s t : Sys}
    (h : devVersions P s t = true) : ∃ m m' gen gen',
      s.store.manifests.cell (demoSetup.scope.ManifestKey "dev") = some (m, gen) ∧
      t.store.manifests.cell (demoSetup.scope.ManifestKey "dev") = some (m', gen') ∧
      P m m' = true := by
  obtain ⟨p, hp, h⟩ := (Option.any_eq_true ..).mp h
  obtain ⟨q, hq, h⟩ := (Option.any_eq_true ..).mp h
  exact ⟨p.1, q.1, p.2, q.2, hp, hq, h⟩

set_option maxRecDepth 8000 in
theorem manifest_append_only_after_fork :
    ∃ s t m m' gen gen', (machine demoSetup).Reachable s ∧
      (machine demoSetup).Run (createdOnce demoSetup "dev") s t ∧
      s.store.manifests.cell (demoSetup.scope.ManifestKey "dev") = some (m, gen) ∧
      t.store.manifests.cell (demoSetup.scope.ManifestKey "dev") = some (m', gen') ∧
      m.segments.length = 1 ∧ m'.segments.length = 2 ∧
      m.segments <+: m'.segments ∧ m.checkpointSeq ≤ m'.checkpointSeq := by
  obtain ⟨s, t, hs, hrun, hP⟩ := (machine demoSetup).exec_exists_pair
    (createdOnce demoSetup "dev") (machine demoSetup).init copyScript growScript
    (fun s t => devVersions
      (fun m m' => m.segments.length = 1 ∧ m'.segments.length = 2) s t = true)
    (by decide +kernel)
  obtain ⟨m, m', gen, gen', hm, hm', hlen⟩ := devVersions_spec hP
  obtain ⟨hlen, hlen'⟩ := of_decide_eq_true hlen
  exact ⟨s, t, m, m', gen, gen', hs.any, hrun, hm, hm', hlen, hlen',
    manifest_append_only demoSetup "dev" (by decide +kernel) s t hs.any hrun m m' gen gen' hm hm'⟩

set_option maxRecDepth 8000 in
/-- The copy is deleted by the rollback, and the next manifest starts from nothing:
it has as many segments, but others. -/
theorem manifest_rewritten_after_rollback :
    ∃ s t m m' gen gen', (machine demoSetup).Reachable s ∧
      (machine demoSetup).Run anyStep s t ∧
      s.store.manifests.cell (demoSetup.scope.ManifestKey "dev") = some (m, gen) ∧
      t.store.manifests.cell (demoSetup.scope.ManifestKey "dev") = some (m', gen') ∧
      m.segments.length = m'.segments.length ∧ ¬ m.segments <+: m'.segments := by
  obtain ⟨s, t, hs, hrun, hP⟩ := (machine demoSetup).exec_exists_pair anyStep
    (machine demoSetup).init copyScript rewriteScript
    (fun s t => devVersions
      (fun m m' => m.segments.length = m'.segments.length ∧ ¬ m.segments <+: m'.segments) s t = true)
    (by decide +kernel)
  obtain ⟨m, m', gen, gen', hm, hm', hP⟩ := devVersions_spec hP
  obtain ⟨hlen, hnot⟩ := of_decide_eq_true hP
  exact ⟨s, t, m, m', gen, gen', hs, hrun, hm, hm', hlen, hnot⟩

end AppendOnly

section Catalog

lemma readBranchCatalog_congr {st st' : Store} (h : st'.catalog = st.catalog) :
    st'.readBranchCatalog = st.readBranchCatalog := by
  simp [Store.readBranchCatalog, h]

lemma readBranchCatalog_put (st : Store) (branches : List String) :
    ({ st with catalog := st.catalog.put () branches } : Store).readBranchCatalog.1 = branches := by
  simp [Store.readBranchCatalog]

lemma mem_ListBranches {st : Store} (h : b ∈ st.readBranchCatalog.1) : b ∈ st.ListBranches := by
  have hne : st.readBranchCatalog.1 ≠ [] := List.ne_nil_of_mem h
  simpa [Store.ListBranches, hne] using h

/-- The catalog changes under the write of a rollback only if its precondition holds. -/
lemma removeWrite_holds {k : ℕ} {o : Outcome} {branches : List String} {gen : Option ℕ}
    (h : Sys.Change S s (.fork k o) t) (hpc : (s.forks k).pc = .removeWrite branches gen)
    (hne : t.store.catalog ≠ s.store.catalog) : s.store.catalog.holds () gen = true := by
  cases h with
  | fork k o k' st move commit =>
    rw [show _ = st from record_store (S := S) s (s.forks k) st] at hne
    rcases move.write with he | hw
    · exact absurd (by rw [he]) hne
    · cases hw with
      | manifest m pc absent => rw [hpc] at pc; cases pc
      | add branches' gen' pc holds => rw [hpc] at pc; cases pc
      | event entry pc encoded => rw [hpc] at pc; cases pc
      | delete pc => rw [hpc] at pc; cases pc
      | remove branches' gen' pc holds =>
        rw [hpc] at pc
        cases pc
        exact holds

/-- A name leaves the catalog only by the rollback of a `Fork` on it. -/
theorem Sys.Change.listed (h : Sys.Change S s a t) (hi : Inflight S s)
    (hb : b ∈ s.store.readBranchCatalog.1) :
    b ∈ t.store.readBranchCatalog.1 ∨
      ∃ k o branches gen, a = .fork k o ∧ o.commits = true ∧ (s.forks k).target = b ∧
        (s.forks k).pc = .removeWrite branches gen ∧ s.store.catalog.holds () gen = true := by
  have hsame : t.store.catalog = s.store.catalog → b ∈ t.store.readBranchCatalog.1 := by
    intro he
    rwa [readBranchCatalog_congr he]
  cases h.effect hi with
  | quiet store record => exact .inl (hsame (by rw [store]))
  | log entry store record => exact .inl (hsame (by rw [store]))
  | segment manifests catalog wal record => exact .inl (hsame catalog)
  | flush i j gen pc store record => exact .inl (hsame (by rw [store]))
  | copy k m act pc absent store birth forked lost => exact .inl (hsame (by rw [store]))
  | delete k o act commits pc store forked absent present => exact .inl (hsame (by rw [store]))
  | register b' store record =>
    left
    rw [store, readBranchCatalog_put]
    exact List.mem_append_left _ hb
  | remove k o act commits pc store record =>
    by_cases hk : (s.forks k).target = b
    · obtain ⟨branches, gen, hpc⟩ := pc
      have hne : t.store.catalog ≠ s.store.catalog := by
        intro he
        have hnext := congrArg Cells.next he
        rw [store] at hnext
        simp at hnext
      subst act
      exact .inr ⟨k, o, branches, gen, rfl, commits, hk, hpc, removeWrite_holds h hpc hne⟩
    · left
      rw [store, readBranchCatalog_put]
      simpa [Ne.symm hk] using hb

end Catalog

section Undo

/-- The system, and for every call whether its `AddBranch` has put the target into
the catalog. -/
structure Traced where
  sys : Sys := {}
  added : ℕ → Bool := fun _ => false

/-- Every write of the catalog takes a new generation. -/
def Traced.note (s : Traced) (t : Sys) : Action → ℕ → Bool
  | .fork k _ =>
    match (s.sys.forks k).pc with
    | .addWrite _ _ =>
      if t.store.catalog.next = s.sys.store.catalog.next then s.added
      else Function.update s.added k true
    | _ => s.added
  | _ => s.added

def traced (S : Setup) : Machine Traced Action where
  init := {}
  step s a := (Sys.step S s.sys a).map fun t => ⟨t, s.note t a⟩

/-- The rollbacks on `b` find only what their own call has written: a manifest that
is deleted is the version of the call, and `b` is taken out of the catalog only if
the call has put it there and `b` has no manifest. -/
def undoesOwn (S : Setup) (b : String) (s : Traced) : Action → Bool
  | .fork k o =>
    let found := s.sys.store.manifests.cell (S.scope.ManifestKey b)
    !(o.commits && (s.sys.forks k).target == b) ||
      match (s.sys.forks k).pc with
      | .rollbackDelete => found.all fun p => (s.sys.forks k).written == some p.2
      | .removeWrite _ gen => !s.sys.store.catalog.holds () gen || (s.added k && found.isNone)
      | _ => true
  | _ => true

/-- What a rollback may do to the store: nothing, or take back the copy or the name
that its own call has put there. -/
inductive Undo (S : Setup) (s : Traced) (k : ℕ) (t : Sys) : Prop
  | nothing (store : t.store = s.sys.store)
  | absent (cell : s.sys.store.manifests.cell (S.scope.ManifestKey (s.sys.forks k).target) = none)
      (store : t.store = { s.sys.store with
        manifests := s.sys.store.manifests.delete (S.scope.ManifestKey (s.sys.forks k).target) })
  | copy (m : BranchManifest) (gen : ℕ)
      (cell : s.sys.store.manifests.cell (S.scope.ManifestKey (s.sys.forks k).target) =
        some (m, gen))
      (written : (s.sys.forks k).written = some gen)
      (store : t.store = { s.sys.store with
        manifests := s.sys.store.manifests.delete (S.scope.ManifestKey (s.sys.forks k).target) })
  | name (added : s.added k = true)
      (store : t.store = { s.sys.store with
        catalog := s.sys.store.catalog.put ()
          (s.sys.store.readBranchCatalog.1.filter (· ≠ (s.sys.forks k).target)) })

variable {u v : Traced} {k : ℕ} {o : Outcome}

lemma undoesOwn_delete (h : undoesOwn S b u (.fork k o) = true) (ho : o.commits = true)
    (hb : (u.sys.forks k).target = b) (hpc : (u.sys.forks k).pc = .rollbackDelete)
    {m : BranchManifest} {gen : ℕ}
    (hcell : u.sys.store.manifests.cell (S.scope.ManifestKey b) = some (m, gen)) :
    (u.sys.forks k).written = some gen := by
  simpa [undoesOwn, ho, hb, hpc, hcell] using h

lemma undoesOwn_remove (h : undoesOwn S b u (.fork k o) = true) (ho : o.commits = true)
    (hb : (u.sys.forks k).target = b) {branches : List String} {gen : Option ℕ}
    (hpc : (u.sys.forks k).pc = .removeWrite branches gen)
    (hold : u.sys.store.catalog.holds () gen = true) :
    u.added k = true ∧ u.sys.store.manifests.cell (S.scope.ManifestKey b) = none := by
  simpa [undoesOwn, ho, hb, hpc, hold] using h

/-- The calls that have failed after the write of their copy. -/
def ForkPc.rollingBack : ForkPc → Bool
  | .rollbackDelete | .removeRead | .removeWrite _ _ => true
  | _ => false

/-- A rollback that finds its own copy, and removes a name that its own call has added. -/
lemma undo_of_step (hi : Inflight S u.sys) (hb : (u.sys.forks k).target = b)
    (hpc : (u.sys.forks k).pc.rollingBack = true)
    (hdelete : ∀ m gen, o.commits = true → (u.sys.forks k).pc = .rollbackDelete →
      u.sys.store.manifests.cell (S.scope.ManifestKey b) = some (m, gen) →
      (u.sys.forks k).written = some gen)
    (hremove : ∀ branches gen, o.commits = true → (u.sys.forks k).pc = .removeWrite branches gen →
      u.sys.store.catalog.holds () gen = true → u.added k = true)
    (hstep : Sys.step S u.sys (.fork k o) = some t) : Undo S u k t := by
  cases Sys.step_change hstep hi with
  | fork k o k' st move commit =>
    have hst := record_store (S := S) u.sys (u.sys.forks k) st
    cases hc : o.commits with
    | false => exact .nothing (hst.trans (commit hc))
    | true =>
      rcases move.write with he | hw
      · exact .nothing (hst.trans he)
      · cases hw with
        | manifest m pc absent => rw [pc] at hpc; cases hpc
        | add branches gen pc holds => rw [pc] at hpc; cases hpc
        | event entry pc encoded => rw [pc] at hpc; cases hpc
        | delete pc =>
          cases hcell : u.sys.store.manifests.cell (S.scope.ManifestKey b) with
          | none => exact .absent (hb ▸ hcell) hst
          | some p => exact .copy p.1 p.2 (hb ▸ hcell) (hdelete p.1 p.2 hc pc hcell) hst
        | remove branches gen pc holds =>
          obtain ⟨hseen, hnone⟩ := (hi.forks k).catalog branches gen (.inr pc)
          have hcat := readBranchCatalog_of_seen hseen hnone holds
          exact .name (hremove branches gen hc pc holds) (by rw [hcat]; exact hst)

/-- No rollback makes `b` lose entries. -/
lemma lost_of_undoesOwn (h : undoesOwn S b u a = true) (heff : Sys.Effect S u.sys a t)
    (hlost : u.sys.lost b = false) : t.lost b = false := by
  rcases heff.lost_cases b with hsame | ⟨-, k, o, gen, hover⟩
  · rwa [hsame]
  · obtain ⟨rfl, commits, target, pc, ⟨m, cell⟩, foreign⟩ := hover
    exact absurd (undoesOwn_delete h commits target pc cell) foreign

/-- A manifest with an entry of its branch is not the copy that a `Fork` wrote. -/
lemma Wellformed.not_own (hw : Wellformed S s) (hb : Valid b) (hlost : s.lost b = false)
    {seq : ℕ} (hms : mutationsAt S s.store.wal b seq ≠ none) {m : BranchManifest} {gen : ℕ}
    (hcell : s.store.manifests.cell (S.scope.ManifestKey b) = some (m, gen))
    (hle : seq ≤ m.checkpointSeq) {k : ℕ} (hk : (s.forks k).target = b) :
    (s.forks k).written ≠ some gen := by
  intro hown
  have hbirth := hw.ledger.own k gen m hown (hk ▸ hcell)
  have hearly := (hw.flushed b hb hlost).manifest.early seq
  rw [hk] at hbirth
  rw [hbirth, Option.getD_some] at hearly
  exact hms (hearly hle)

lemma traced_step {a : Action} (h : (traced S).step u a = some v) :
    Sys.step S u.sys a = some v.sys := by
  obtain ⟨t, ht, he⟩ := Option.map_eq_some_iff.mp h
  cases he
  exact ht

lemma traced_run {ok : Traced → Action → Prop} (h : (traced S).Run ok u v) :
    (machine S).Run anyStep u.sys v.sys := by
  induction h with
  | refl => exact .refl _
  | tail _ hstep ih =>
    obtain ⟨a, -, hstep⟩ := hstep
    exact ih.snoc (a := a) trivial (traced_step hstep)

/-- The guard of the runs in which every rollback on `b` takes back its own writes. -/
def ownUndos (S : Setup) (b : String) (s : Traced) (a : Action) : Prop := undoesOwn S b s a = true

instance (s : Traced) (a : Action) : Decidable (ownUndos S b s a) :=
  inferInstanceAs (Decidable (_ = _))

lemma lost_run (hrun : (traced S).Run (ownUndos S b) (traced S).init u) :
    u.sys.lost b = false := by
  induction hrun with
  | refl => rfl
  | tail hpre hstep ih =>
    obtain ⟨a, hok, hstep⟩ := hstep
    have hi := inflight_reachable (traced_run hpre)
    exact lost_of_undoesOwn hok ((Sys.step_change (traced_step hstep) hi).effect hi) ih

/-- What of `u` is still there in `v`: the entry, the manifest `m` that had it, and
the name of the branch in the catalog. -/
structure Retained (S : Setup) (b : String) (seq : ℕ) (m : BranchManifest) (u v : Traced) :
    Prop where
  entry : mutationsAt S v.sys.store.wal b seq ≠ none
  grows : ∃ m' gen, v.sys.store.manifests.cell (S.scope.ManifestKey b) = some (m', gen) ∧
    Grows m m'
  listed : b ∈ u.sys.store.readBranchCatalog.1 → b ∈ v.sys.store.readBranchCatalog.1

lemma Retained.step {seq : ℕ} {m : BranchManifest} {w : Traced} (h : Retained S b seq m u v)
    (hb : Valid b) (hle : seq ≤ m.checkpointSeq)
    (hv : (traced S).Run (ownUndos S b) (traced S).init v) (hok : ownUndos S b v a)
    (hstep : (traced S).step v a = some w) : Retained S b seq m u w := by
  have hw := wellformed_reachable (traced_run hv)
  have hchange := Sys.step_change (traced_step hstep) hw.inflight
  have hwal := (hchange.inflight hw.inflight).1.wal
  obtain ⟨m₁, gen₁, hcell₁, hgrow₁⟩ := h.grows
  have hbranch := ((hchange.effect hw.inflight).branch hw.inflight hb).grows hw.inflight hcell₁
  refine ⟨?_, ?_, fun hin => ?_⟩
  · rw [mutationsAt_absorb hwal (mutationsAt_le h.entry).2]
    exact h.entry
  · rcases hbranch with ⟨m₂, gen₂, hcell₂, hgrow₂⟩ | ⟨k, o, act, commits, htarget, hpc, -⟩
    · exact ⟨m₂, gen₂, hcell₂, hgrow₁.trans hgrow₂⟩
    · -- the rollback would have to find the copy, but the manifest has an entry of `b`
      subst act
      have hown := undoesOwn_delete hok commits htarget hpc hcell₁
      exact absurd hown
        (hw.not_own hb (lost_run hv) h.entry hcell₁ (hle.trans hgrow₁.checkpoint) htarget)
  · rcases hchange.listed hw.inflight (h.listed hin) with hin | hrem
    · exact hin
    · obtain ⟨k, o, branches, g, act, commits, htarget, hpc, hold⟩ := hrem
      subst act
      have hnone := (undoesOwn_remove hok commits htarget hpc hold).2
      rw [hcell₁] at hnone
      cases hnone

lemma retained_run (hb : Valid b) (hu : (traced S).Run (ownUndos S b) (traced S).init u)
    (hrun : (traced S).Run (ownUndos S b) u v) {seq : ℕ}
    (hms : mutationsAt S u.sys.store.wal b seq ≠ none) {m : BranchManifest} {gen : ℕ}
    (hcell : u.sys.store.manifests.cell (S.scope.ManifestKey b) = some (m, gen))
    (hle : seq ≤ m.checkpointSeq) : Retained S b seq m u v := by
  induction hrun with
  | refl => exact ⟨hms, ⟨m, gen, hcell, .refl m⟩, fun h => h⟩
  | tail hpre hstep ih =>
    obtain ⟨a, hok, hstep⟩ := hstep
    exact ih.step hb hle (hu.trans hpre) hok hstep

/-- Call `k` has just written its copy for `b`, which is in no catalog. -/
structure JustCopied (S : Setup) (b : String) (k : ℕ) (s : Traced) : Prop where
  target : (s.sys.forks k).target = b
  pc : (s.sys.forks k).pc = .addRead
  copy : ∀ p ∈ s.sys.store.manifests.cell (S.scope.ManifestKey b),
    (s.sys.forks k).written = some p.2
  unlisted : b ∉ s.sys.store.readBranchCatalog.1

/-- A step that is not one of call `k`. -/
def ofOthers (k : ℕ) : Action → Bool
  | .fork k' _ => k' != k
  | _ => true

/-- The other writers neither change the manifest of `b` nor put `b` into the catalog. -/
def leavesAlone (S : Setup) (b : String) (k : ℕ) (s : Traced) (a : Action) : Prop :=
  ofOthers k a = true → ∀ t ∈ (traced S).step s a,
    t.sys.store.manifests.cell (S.scope.ManifestKey b) =
      s.sys.store.manifests.cell (S.scope.ManifestKey b) ∧
    (b ∈ t.sys.store.readBranchCatalog.1 → b ∈ s.sys.store.readBranchCatalog.1)

instance (s : Traced) (a : Action) : Decidable (leavesAlone S b k s a) :=
  inferInstanceAs (Decidable (_ → _))

/-- The calls that are behind the write of their copy. -/
def ForkPc.behindCopy : ForkPc → Bool
  | .idle | .readSource | .readTarget _ | .writeTarget _ => false
  | _ => true

/-- What is there of `b` was put there by call `k`. -/
structure Alone (S : Setup) (b : String) (k : ℕ) (s : Traced) : Prop where
  target : (s.sys.forks k).target = b
  behind : (s.sys.forks k).pc.behindCopy = true
  copy : ∀ p ∈ s.sys.store.manifests.cell (S.scope.ManifestKey b),
    (s.sys.forks k).written = some p.2
  listed : b ∈ s.sys.store.readBranchCatalog.1 → s.added k = true
  removing : ∀ branches gen, (s.sys.forks k).pc = .removeWrite branches gen → b ∈ branches

lemma JustCopied.alone (h : JustCopied S b k u) : Alone S b k u where
  target := h.target
  behind := by
    rw [h.pc]
    rfl
  copy := h.copy
  listed hin := absurd hin h.unlisted
  removing branches gen hpc := by
    rw [h.pc] at hpc
    cases hpc

/-- The moves of a call behind its copy. -/
lemma ForkCall.Move.behind {st st' : Store} {c c' : ForkCall} (h : ForkCall.Move S st c c' st')
    (hc : c.pc.behindCopy = true) :
    c'.target = c.target ∧ c'.written = c.written ∧ c'.pc.behindCopy = true ∧
      ∀ branches gen, c'.pc = .removeWrite branches gen → c.target ∈ branches := by
  have herror : c.pc.onError.behindCopy = true ∧
      ∀ branches gen, c.pc.onError ≠ .removeWrite branches gen := by
    cases hpc : c.pc <;> simp [ForkPc.onError, ForkPc.behindCopy]
  cases h with
  | error on => exact ⟨rfl, rfl, herror.1, fun _ _ hrem => absurd hrem (herror.2 _ _)⟩
  | commitError st' on write =>
    exact ⟨rfl, rfl, herror.1, fun _ _ hrem => absurd hrem (herror.2 _ _)⟩
  | copied m gen pc cell =>
    rw [pc] at hc
    cases hc
  | absent m pc =>
    rw [pc] at hc
    cases hc
  | written m st' pc write =>
    rw [pc] at hc
    cases hc
  | removePrepare pc mem =>
    refine ⟨rfl, rfl, rfl, fun branches gen hrem => ?_⟩
    cases hrem
    exact mem
  | giveUp | registered | addPrepare | added | addConflict | appended | deleted | removed
  | removeConflict =>
    refine ⟨rfl, rfl, rfl, fun branches gen hrem => ?_⟩
    cases hrem

lemma note_mono (a : Action) (t : Sys) (h : u.added k = true) : u.note t a k = true := by
  cases a with
  | fork k' o =>
    have hcases : u.note t (.fork k' o) = u.added ∨
        u.note t (.fork k' o) = Function.update u.added k' true := by
      simp only [Traced.note]
      cases (u.sys.forks k').pc with
      | addWrite branches gen => exact ite_eq_or_eq _ _ _
      | _ => exact .inl rfl
    rcases hcases with hnote | hnote
    · rwa [hnote]
    · rw [hnote]
      by_cases hk : k = k'
      · rw [hk, Function.update_self]
      · rwa [Function.update_of_ne hk]
  | _ => exact h

/-- What call `k` may write behind its copy leaves nothing of others. -/
lemma Alone.write (h : Alone S b k u) {st : Store}
    (hw : st = u.sys.store ∨ ForkCall.Write S u.sys.store (u.sys.forks k) st) :
    (∀ p ∈ st.manifests.cell (S.scope.ManifestKey b), (u.sys.forks k).written = some p.2) ∧
    (b ∈ st.readBranchCatalog.1 →
      u.added k = true ∨ (∃ branches gen, (u.sys.forks k).pc = .addWrite branches gen) ∧
        st.catalog.next ≠ u.sys.store.catalog.next) := by
  have hbehind := h.behind
  rcases hw with rfl | hw
  · exact ⟨h.copy, fun hin => .inl (h.listed hin)⟩
  cases hw with
  | manifest m pc absent =>
    rw [pc] at hbehind
    cases hbehind
  | add branches gen pc holds =>
    exact ⟨h.copy, fun _ => .inr ⟨⟨branches, gen, pc⟩, by simp⟩⟩
  | event entry pc encoded => exact ⟨h.copy, fun hin => .inl (h.listed hin)⟩
  | delete pc =>
    refine ⟨fun p hp => ?_, fun hin => .inl (h.listed hin)⟩
    rw [h.target] at hp
    simp at hp
  | remove branches gen pc holds =>
    refine ⟨h.copy, fun hin => ?_⟩
    rw [readBranchCatalog_put, h.target] at hin
    simp at hin

/-- A step of call `k` itself. -/
lemma Alone.own (h : Alone S b k u) (hi : Inflight S u.sys)
    (hstep : (traced S).step u (.fork k o) = some v) : Alone S b k v := by
  obtain ⟨t, ht, rfl⟩ := Option.map_eq_some_iff.mp hstep
  cases Sys.step_change ht hi with
  | fork k o k' st move commit =>
    obtain ⟨htarget, hwritten, hbehind, hrem⟩ := move.behind h.behind
    have hst := record_store (S := S) u.sys (u.sys.forks k) st
    obtain ⟨hcopy, hlisted⟩ := h.write move.write
    refine ⟨?_, ?_, ?_, ?_, ?_⟩
    all_goals simp only [Function.update_self, hst, htarget, hwritten]
    · exact h.target
    · exact hbehind
    · exact hcopy
    · intro hin
      rcases hlisted hin with hadded | ⟨⟨branches, gen, hpc⟩, hnext⟩
      · exact note_mono _ _ hadded
      · simp only [Traced.note, hpc, if_neg hnext, Function.update_self]
    · intro branches gen hpc
      exact h.target ▸ hrem branches gen hpc

/-- A step of somebody else. -/
lemma Alone.other (h : Alone S b k u) (hi : Inflight S u.sys) (ha : ofOthers k a = true)
    (hok : leavesAlone S b k u a) (hstep : (traced S).step u a = some v) : Alone S b k v := by
  obtain ⟨hcell, hin⟩ := hok ha v hstep
  obtain ⟨t, ht, rfl⟩ := Option.map_eq_some_iff.mp hstep
  -- the call is as it was, or its process is gone
  have hcall : t.forks k = u.sys.forks k ∨ t.forks k = { u.sys.forks k with pc := .crashed } := by
    cases Sys.step_change ht hi with
    | append | start | crash | flush => exact .inl rfl
    | call k' source target idle vs vt =>
      refine .inl (Function.update_of_ne ?_ _ _)
      rintro rfl
      have hbehind := h.behind
      rw [idle] at hbehind
      cases hbehind
    | fork k' o c st move commit =>
      refine .inl (Function.update_of_ne ?_ _ _)
      rintro rfl
      simp [ofOthers] at ha
    | abandon k' on =>
      by_cases hk : k = k'
      · subst hk
        exact .inr (Function.update_self ..)
      · exact .inl (Function.update_of_ne hk _ _)
  have hlisted := fun hmem => note_mono a t (h.listed (hin hmem))
  have hcopy := h.copy
  rw [← hcell] at hcopy
  rcases hcall with hcall | hcall
  · refine ⟨?_, ?_, ?_, hlisted, ?_⟩
    all_goals dsimp only; rw [hcall]
    · exact h.target
    · exact h.behind
    · exact hcopy
    · exact h.removing
  · refine ⟨?_, ?_, ?_, hlisted, ?_⟩
    all_goals dsimp only; rw [hcall]
    · exact h.target
    · rfl
    · exact hcopy
    · intro branches gen hrem
      cases hrem

lemma alone_run (hu : (traced S).Reachable u) (h : JustCopied S b k u)
    (hrun : (traced S).Run (leavesAlone S b k) u v) : Alone S b k v := by
  induction hrun with
  | refl => exact h.alone
  | tail hpre hstep ih =>
    obtain ⟨a, hok, hstep⟩ := hstep
    have hi := inflight_reachable ((traced_run hu).trans (traced_run hpre))
    cases ha : ofOthers k a with
    | true => exact ih.other hi ha hok hstep
    | false =>
      cases a with
      | fork k' o =>
        obtain rfl : k' = k := by simpa [ofOthers] using ha
        exact ih.own hi hstep
      | append | start | flush | crash | call | abandon => cases ha

lemma Alone.undo (h : Alone S b k u) (hi : Inflight S u.sys)
    (hpc : (u.sys.forks k).pc.rollingBack = true)
    (hstep : Sys.step S u.sys (.fork k o) = some t) : Undo S u k t := by
  refine undo_of_step hi h.target hpc (fun m gen _ _ hcell => h.copy _ hcell) ?_ hstep
  intro branches gen _ hrem hold
  obtain ⟨hseen, hnone⟩ := (hi.forks k).catalog branches gen (.inr hrem)
  refine h.listed ?_
  rw [readBranchCatalog_of_seen hseen hnone hold]
  exact h.removing branches gen hrem

/-- In every run in which the rollbacks on `b` find only what their own calls have
written, an entry of `b` that is in the manifest of `b` stays there for good, `b`
stays listed from the moment it is registered with such an entry, and every step of
a rollback on `b` takes back the copy or the name of its own call and nothing else. A
rollback is one of these, in any run, if from the write of its copy on no other step
changes the manifest of `b` or puts `b` into the catalog. -/
theorem failed_fork_undoes_own_writes (S : Setup) (b : String) (hb : Valid b) (u v : Traced)
    (hu : (traced S).Run (ownUndos S b) (traced S).init u)
    (hrun : (traced S).Run (ownUndos S b) u v) :
    (∀ seq ms, mutationsAt S u.sys.store.wal b seq = some ms →
      seq ≤ (u.sys.store.current (S.scope.ManifestKey b)).checkpointSeq →
      refOf S ms ∈ (u.sys.store.current (S.scope.ManifestKey b)).segments ∧
      (u.sys.store.current (S.scope.ManifestKey b)).segments <+:
        (v.sys.store.current (S.scope.ManifestKey b)).segments ∧
      (u.sys.store.current (S.scope.ManifestKey b)).checkpointSeq ≤
        (v.sys.store.current (S.scope.ManifestKey b)).checkpointSeq ∧
      (b ∈ u.sys.store.readBranchCatalog.1 → b ∈ v.sys.store.ListBranches)) ∧
    (∀ k o w, (v.sys.forks k).target = b → (v.sys.forks k).pc.rollingBack = true →
      ownUndos S b v (.fork k o) → (traced S).step v (.fork k o) = some w →
      Undo S v k w.sys) ∧
    ∀ k w w', (traced S).Reachable w → JustCopied S b k w →
      (traced S).Run (leavesAlone S b k) w w' →
      ∀ o t, (w'.sys.forks k).pc.rollingBack = true → (traced S).step w' (.fork k o) = some t →
        Undo S w' k t.sys := by
  have hw := wellformed_reachable (traced_run hu)
  refine ⟨fun seq ms hms hle => ?_, fun k o w htarget hpc hok hstep => ?_,
    fun k w w' hw' hcopied hrun' o t hback hstep => ?_⟩
  · have hne : mutationsAt S u.sys.store.wal b seq ≠ none := by simp [hms]
    have hseg := (hw.flushed b hb (lost_run hu)).manifest.segments
    have hmem : refOf S ms ∈ (u.sys.store.current (S.scope.ManifestKey b)).segments := by
      rw [hseg]
      exact List.mem_append_right _
        (List.mem_map.mpr ⟨(seq, ms), mem_entriesOf.mpr ⟨hle, hms⟩, rfl⟩)
    refine ⟨hmem, ?_⟩
    cases hcell : u.sys.store.manifests.cell (S.scope.ManifestKey b) with
    | none =>
      rw [Store.current_none hcell] at hmem
      cases hmem
    | some p =>
      rw [Store.current_some hcell] at hle ⊢
      have hret := retained_run hb hu hrun hne hcell hle
      obtain ⟨m', gen', hcell', hgrow⟩ := hret.grows
      rw [Store.current_some hcell']
      exact ⟨hgrow.segments, hgrow.checkpoint, fun hin => mem_ListBranches (hret.listed hin)⟩
  · have hi := inflight_reachable ((traced_run hu).trans (traced_run hrun))
    exact undo_of_step hi htarget hpc
      (fun m gen hc hdel hcell => undoesOwn_delete hok hc htarget hdel hcell)
      (fun branches gen hc hrem hold => (undoesOwn_remove hok hc htarget hrem hold).1)
      (traced_step hstep)
  · have hi := inflight_reachable ((traced_run hw').trans (traced_run hrun'))
    have halone := alone_run hw' hcopied hrun'
    exact halone.undo hi hback (traced_step hstep)

-- The `Fork` fails and takes back its copy; then "dev" gets its first entry.
def undoneScript : List Action :=
  copyScript ++ forkCalls 0 2 ++ [.fork 0 (.failed false false)] ++ forkCalls 0 3 ++
    [demoDevEntry] ++ flushes 0 6

-- An entry of "dev" is logged while the `Fork` fails; the flusher has not come to it.
def aloneScript : List Action :=
  forkCalls 0 1 ++ [demoDevEntry] ++ forkCalls 0 1 ++ [.fork 0 (.failed false false)]

set_option maxRecDepth 8000 in
theorem failed_fork_undoes_own_writes_dev :
    ∃ u v ms, (traced demoSetup).Run (ownUndos demoSetup "dev") (traced demoSetup).init u ∧
      (traced demoSetup).Run (ownUndos demoSetup "dev") u v ∧
      (u.sys.forks 0).pc = .failed ∧ mutationsAt demoSetup u.sys.store.wal "dev" 2 = some ms ∧
      refOf demoSetup ms ∈
        (v.sys.store.current (demoSetup.scope.ManifestKey "dev")).segments ∧
      "dev" ∈ v.sys.store.ListBranches ∧
      ∃ w w' t, JustCopied demoSetup "dev" 0 w ∧
        (traced demoSetup).Run (leavesAlone demoSetup "dev" 0) w w' ∧
        w'.sys.store.manifests.cell (demoSetup.scope.ManifestKey "dev") ≠ none ∧
        (traced demoSetup).step w' (.fork 0 .ok) = some t ∧ Undo demoSetup w' 0 t.sys := by
  obtain ⟨u, v, hu, hrun, hpc, hms, hle, hin⟩ := (traced demoSetup).exec_exists_pair
    (ownUndos demoSetup "dev") (traced demoSetup).init undoneScript ([demoDevEntry] ++ flushes 0 5)
    (fun u v => (u.sys.forks 0).pc = .failed ∧
      (mutationsAt demoSetup u.sys.store.wal "dev" 2).isSome = true ∧
      2 ≤ (u.sys.store.current (demoSetup.scope.ManifestKey "dev")).checkpointSeq ∧
      "dev" ∈ u.sys.store.readBranchCatalog.1)
    (by decide +kernel)
  obtain ⟨ms, hms⟩ := Option.isSome_iff_exists.mp hms
  obtain ⟨w, w', hw, hrun', htarget, hadd, hcopy, hout, hback, hcell, hnext⟩ :=
    (traced demoSetup).exec_exists_pair (leavesAlone demoSetup "dev" 0) (traced demoSetup).init
      copyScript aloneScript
      (fun w w' => (w.sys.forks 0).target = "dev" ∧ (w.sys.forks 0).pc = .addRead ∧
        (∀ p ∈ w.sys.store.manifests.cell (demoSetup.scope.ManifestKey "dev"),
          (w.sys.forks 0).written = some p.2) ∧
        "dev" ∉ w.sys.store.readBranchCatalog.1 ∧ (w'.sys.forks 0).pc = .rollbackDelete ∧
        w'.sys.store.manifests.cell (demoSetup.scope.ManifestKey "dev") ≠ none ∧
        ((traced demoSetup).step w' (.fork 0 .ok)).isSome = true)
      (by decide +kernel)
  obtain ⟨t, ht⟩ := Option.isSome_iff_exists.mp hnext
  obtain ⟨h, -, hundo⟩ :=
    failed_fork_undoes_own_writes demoSetup "dev" (by decide +kernel) u v hu hrun
  obtain ⟨hmem, hpre, -, hlisted⟩ := h 2 ms hms hle
  have hcopied : JustCopied demoSetup "dev" 0 w := ⟨htarget, hadd, hcopy, hout⟩
  exact ⟨u, v, ms, hu, hrun, hpc, hms, hpre.subset hmem, hlisted hin, w, w', t, hcopied, hrun',
    hcell, ht, hundo 0 w w' hw.any hcopied hrun' .ok t (by rw [hback]; rfl) ht⟩

-- An entry of "dev" is flushed on top of the copy before the `Fork` has logged its event.
def flushedCopyScript : List Action := copyScript ++ [demoDevEntry] ++ flushes 0 6

-- The append of the `Fork` fails, and every call of the rollback succeeds.
def rollbackScript : List Action :=
  forkCalls 0 1 ++ [.fork 0 (.failed false false)] ++ forkCalls 0 3

set_option maxRecDepth 8000 in
/-- The rollback deletes an entry that a flusher has committed and registered. -/
theorem failed_fork_deletes_flushed_entry :
    ∃ u v, (traced demoSetup).Run anyStep (traced demoSetup).init u ∧
      (traced demoSetup).Run anyStep u v ∧
      mutationsAt demoSetup u.sys.store.wal "dev" 2 ≠ none ∧
      2 ≤ (u.sys.store.current (demoSetup.scope.ManifestKey "dev")).checkpointSeq ∧
      "dev" ∈ u.sys.store.readBranchCatalog.1 ∧ (v.sys.forks 0).pc = .failed ∧
      v.sys.store.manifests.cell (demoSetup.scope.ManifestKey "dev") = none ∧
      "dev" ∉ v.sys.store.ListBranches :=
  (traced demoSetup).exec_exists_pair anyStep (traced demoSetup).init flushedCopyScript
    rollbackScript _ (by decide +kernel)

end Undo

end CloudyNeigh.Ingest
