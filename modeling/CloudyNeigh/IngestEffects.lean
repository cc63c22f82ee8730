import CloudyNeigh.IngestInflight

/-!
# What one step does to the store

A step writes at most one object. Together with what is in flight this says which
object, and that a write under a generation extends exactly the version it was
prepared for.
-/
namespace CloudyNeigh.Ingest
open RecordIO Storage LogStream Naming SlashPath Transition Versioned

variable {S : Setup} {s t : Sys} {a : Action}

/-- The manifest under a key, as `flushBranch` reads it. -/
def Store.current (st : Store) (key : Path) : BranchManifest :=
  ((st.manifests.cell key).map Prod.fst).getD emptyManifest

lemma Store.current_some {st : Store} {key : Path} {m : BranchManifest} {gen : ℕ}
    (h : st.manifests.cell key = some (m, gen)) : st.current key = m := by
  simp [Store.current, h]

lemma Store.current_none {st : Store} {key : Path} (h : st.manifests.cell key = none) :
    st.current key = emptyManifest := by
  simp [Store.current, h]

structure Sys.SameRecord (s t : Sys) : Prop where
  birth : t.birth = s.birth
  forked : t.forked = s.forked
  lost : t.lost = s.lost

/-- The effects of a step. -/
inductive Sys.Effect (S : Setup) (s : Sys) (a : Action) (t : Sys) : Prop
  | quiet (store : t.store = s.store) (record : s.SameRecord t)
  | log (entry : Bytes) (store : t.store = { s.store with wal := s.store.wal ++ [entry] })
      (record : s.SameRecord t)
  | segment (manifests : t.store.manifests = s.store.manifests)
      (catalog : t.store.catalog = s.store.catalog) (wal : t.store.wal = s.store.wal)
      (record : s.SameRecord t)
  | flush (i : ℕ) (j : Job) (gen : Option ℕ)
      (pc : (s.flushers i).pc =
        .manifestWrite j (s.store.current (S.scope.ManifestKey j.branch)) gen)
      (store : t.store = { s.store with
        manifests := s.store.manifests.put (S.scope.ManifestKey j.branch)
          (flushed (s.store.current (S.scope.ManifestKey j.branch)) j) })
      (record : s.SameRecord t)
  | register (b : String)
      (store : t.store = { s.store with
        catalog := s.store.catalog.put () (s.store.readBranchCatalog.1 ++ [b]) })
      (record : s.SameRecord t)
  | copy (k : ℕ) (m : BranchManifest) (act : ∃ o, a = .fork k o)
      (pc : (s.forks k).pc = .writeTarget m)
      (absent : s.store.manifests.cell (S.scope.ManifestKey (s.forks k).target) = none)
      (store : t.store = { s.store with
        manifests := s.store.manifests.put (S.scope.ManifestKey (s.forks k).target) m })
      (birth : t.birth = Function.update s.birth (s.forks k).target (some m))
      (forked : t.forked = Function.update s.forked (s.forks k).target true)
      (lost : t.lost = s.lost)
  | delete (k : ℕ) (o : Outcome) (act : a = .fork k o) (commits : o.commits = true)
      (pc : (s.forks k).pc = .rollbackDelete)
      (store : t.store = { s.store with
        manifests := s.store.manifests.delete (S.scope.ManifestKey (s.forks k).target) })
      (forked : t.forked = s.forked)
      (absent : s.store.manifests.cell (S.scope.ManifestKey (s.forks k).target) = none →
        s.SameRecord t)
      (present : ∀ m gen, s.store.manifests.cell (S.scope.ManifestKey (s.forks k).target) =
        some (m, gen) → t.birth = Function.update s.birth (s.forks k).target none ∧
          t.lost = if (s.forks k).written = some gen then s.lost
            else Function.update s.lost (s.forks k).target true)
  | remove (k : ℕ) (o : Outcome) (act : a = .fork k o) (commits : o.commits = true)
      (pc : ∃ branches gen, (s.forks k).pc = .removeWrite branches gen)
      (store : t.store = { s.store with
        catalog := s.store.catalog.put ()
          (s.store.readBranchCatalog.1.filter (· ≠ (s.forks k).target)) })
      (record : s.SameRecord t)

lemma readBranchCatalog_of_seen {st : Store} {branches : List String} {gen : Option ℕ}
    (hseen : st.catalog.Seen () branches gen) (hnone : gen = none → branches = [])
    (holds : st.catalog.holds () gen = true) : st.readBranchCatalog.1 = branches := by
  have hcell := hseen.cell holds
  cases gen with
  | none => simp [Store.readBranchCatalog, hcell, hnone rfl]
  | some g => simp [Store.readBranchCatalog, hcell]

lemma current_of_seen {st : Store} {key : Path} {m : BranchManifest} {gen : Option ℕ}
    (hseen : st.manifests.Seen key m gen) (hnone : gen = none → m = emptyManifest)
    (holds : st.manifests.holds key gen = true) : st.current key = m := by
  have hcell := hseen.cell holds
  cases gen with
  | none => simp [Store.current, hcell, hnone rfl]
  | some g => simp [Store.current, hcell]

lemma Flusher.Write.effect {i : ℕ} {st : Store} (hi : Inflight S s)
    (h : Flusher.Write S s.store (s.flushers i).pc st) (hst : t.store = st)
    (hrec : s.SameRecord t) : Sys.Effect S s a t := by
  have hok := hi.flushers i
  generalize hpc : (s.flushers i).pc = pc at h hok
  cases h with
  | segment j =>
    obtain ⟨hw, hm, hc⟩ := putSegment_other s.store j.ref.segmentId j.data
    exact .segment (hst ▸ hm) (hst ▸ hc) (hst ▸ hw) hrec
  | manifest j m gen holds =>
    have hcur := current_of_seen hok.2.2.1 hok.2.2.2.1 holds
    exact .flush i j gen (by rw [hpc, hcur]) (by rw [hst, hcur]) hrec
  | catalog j checkpoint branches gen holds =>
    have hcat := readBranchCatalog_of_seen hok.2.2.1 hok.2.2.2 holds
    exact .register j.branch (by rw [hst, hcat]) hrec

lemma Flusher.Move.write {st st' : Store} {f f' : Flusher} (h : Flusher.Move S st f f' st') :
    st' = st ∨ Flusher.Write S st f.pc st' := by
  cases h with
  | commitFail cancelled _ on write => exact .inr (Flusher.commit_write write)
  | upload j pc => exact .inr (pc ▸ .segment j)
  | written j m gen _ pc write => exact .inr (Flusher.commit_write write)
  | added j checkpoint branches gen _ pc write => exact .inr (Flusher.commit_write write)
  | fail cancelled on => exact .inl rfl
  | list pc => exact .inl rfl
  | missing b todo min pc cell => exact .inl rfl
  | found b todo min m gen pc cell => exact .inl rfl
  | wait seq pc => exact .inl rfl
  | halt seq pc => exact .inl rfl
  | skip seq b ms pc entry covered => exact .inl rfl
  | event seq evt pc entry => exact .inl rfl
  | encode seq b ms data pc entry seg => exact .inl rfl
  | already j m gen pc cell le => exact .inl rfl
  | prepare j m gen pc cell absent lt => exact .inl rfl
  | conflict j m gen pc => exact .inl rfl
  | registered j checkpoint pc mem => exact .inl rfl
  | addPrepare j checkpoint pc notMem => exact .inl rfl
  | addConflict j checkpoint branches gen pc => exact .inl rfl

lemma ForkCall.Move.write {st st' : Store} {k k' : ForkCall} (h : ForkCall.Move S st k k' st') :
    st' = st ∨ ForkCall.Write S st k st' := by
  cases h with
  | commitError _ on write => exact .inr (ForkCall.commit_write write)
  | written m _ pc write => exact .inr (ForkCall.commit_write write)
  | added branches gen _ pc write => exact .inr (ForkCall.commit_write write)
  | appended _ pc write => exact .inr (ForkCall.commit_write write)
  | deleted _ pc write => exact .inr (ForkCall.commit_write write)
  | removed branches gen _ pc write => exact .inr (ForkCall.commit_write write)
  | error on => exact .inl rfl
  | giveUp on => exact .inl rfl
  | copied m gen pc cell => exact .inl rfl
  | absent m pc => exact .inl rfl
  | registered pc mem => exact .inl rfl
  | addPrepare pc => exact .inl rfl
  | addConflict branches gen pc => exact .inl rfl
  | removePrepare pc mem => exact .inl rfl
  | removeConflict branches gen pc => exact .inl rfl

section Record
variable (S) (s) (k : ForkCall) (st : Store)

/-- Only the write of a copy and the deletion of a manifest are recorded. -/
lemma record_same (h : (∀ m, k.pc ≠ .writeTarget m) ∧ k.pc ≠ .rollbackDelete ∨
    st.manifests.cell (S.scope.ManifestKey k.target) =
      s.store.manifests.cell (S.scope.ManifestKey k.target)) :
    s.SameRecord (s.record S k st) := by
  unfold Sys.record
  dsimp only
  split
  · rename_i hpc hnone hsome
    rcases h with h | h
    · exact absurd hpc (h.1 _)
    · rw [h, hnone] at hsome
      cases hsome
  · rename_i hpc hsome hnone
    rcases h with h | h
    · exact absurd hpc h.2
    · rw [h, hsome] at hnone
      cases hnone
  · exact ⟨rfl, rfl, rfl⟩

/-- The store with the copy that the call is about to write. -/
def copyStore (m : BranchManifest) : Store :=
  { s.store with manifests := s.store.manifests.put (S.scope.ManifestKey k.target) m }

lemma record_copy {m : BranchManifest} (hpc : k.pc = .writeTarget m)
    (hnone : s.store.manifests.cell (S.scope.ManifestKey k.target) = none) :
    (s.record S k (copyStore S s k m)).birth = Function.update s.birth k.target (some m) ∧
      (s.record S k (copyStore S s k m)).forked = Function.update s.forked k.target true ∧
      (s.record S k (copyStore S s k m)).lost = s.lost := by
  simp only [Sys.record, copyStore, hpc, hnone, Cells.put_self, and_self]

lemma record_delete {m : BranchManifest} {gen : ℕ} (hpc : k.pc = .rollbackDelete)
    (hsome : s.store.manifests.cell (S.scope.ManifestKey k.target) = some (m, gen))
    (hnone : st.manifests.cell (S.scope.ManifestKey k.target) = none) :
    (s.record S k st).birth = Function.update s.birth k.target none ∧
      (s.record S k st).lost = (if k.written = some gen then s.lost
        else Function.update s.lost k.target true) := by
  simp only [Sys.record, hpc, hnone, hsome, and_self]

lemma record_forked_delete (hpc : k.pc = .rollbackDelete) :
    (s.record S k st).forked = s.forked := by
  unfold Sys.record
  dsimp only
  split
  · rename_i hw _ _
    rw [hpc] at hw
    cases hw
  · rfl
  · rfl

end Record

lemma ForkCall.Write.effect {k : ℕ} {o : Outcome} {k' : ForkCall} {st : Store}
    (hi : Inflight S s) (hc : o.commits = true) (h : ForkCall.Write S s.store (s.forks k) st) :
    Sys.Effect S s (.fork k o)
      { s.record S (s.forks k) st with forks := Function.update s.forks k k' } := by
  have hst := record_store (S := S) s (s.forks k) st
  have hok := hi.forks k
  have hkeep := record_same S s (s.forks k) st
  cases h with
  | manifest m pc absent =>
    obtain ⟨hb, hf, hl⟩ := record_copy S s (s.forks k) pc absent
    exact .copy k m ⟨o, rfl⟩ pc absent hst hb hf hl
  | add branches gen pc holds =>
    obtain ⟨hseen, hnone⟩ := hok.catalog branches gen (.inl pc)
    have hcat := readBranchCatalog_of_seen hseen hnone holds
    obtain ⟨hb, hf, hl⟩ := hkeep (.inl (by simp [pc]))
    exact .register (s.forks k).target (by rw [hcat]; exact hst) ⟨hb, hf, hl⟩
  | event entry pc encoded =>
    obtain ⟨hb, hf, hl⟩ := hkeep (.inl (by simp [pc]))
    exact .log entry hst ⟨hb, hf, hl⟩
  | delete pc =>
    refine .delete k o rfl hc pc hst (record_forked_delete S s _ _ pc) (fun habs => ?_)
      fun m gen hcell => record_delete S s _ _ pc hcell (Cells.delete_self ..)
    obtain ⟨hb, hf, hl⟩ := hkeep (.inr (by rw [habs]; exact Cells.delete_self ..))
    exact ⟨hb, hf, hl⟩
  | remove branches gen pc holds =>
    obtain ⟨hseen, hnone⟩ := hok.catalog branches gen (.inr pc)
    have hcat := readBranchCatalog_of_seen hseen hnone holds
    obtain ⟨hb, hf, hl⟩ := hkeep (.inl (by simp [pc]))
    exact .remove k o rfl hc ⟨branches, gen, pc⟩ (by rw [hcat]; exact hst) ⟨hb, hf, hl⟩

theorem Sys.Change.effect (h : Sys.Change S s a t) (hi : Inflight S s) : Sys.Effect S s a t := by
  cases h with
  | append entry ok => exact .log entry rfl ⟨rfl, rfl, rfl⟩
  | start i => exact .quiet rfl ⟨rfl, rfl, rfl⟩
  | crash i => exact .quiet rfl ⟨rfl, rfl, rfl⟩
  | flush i o f st move =>
    rcases move.write with rfl | hw
    · exact .quiet rfl ⟨rfl, rfl, rfl⟩
    · exact hw.effect hi rfl ⟨rfl, rfl, rfl⟩
  | call k source target idle vs vt => exact .quiet rfl ⟨rfl, rfl, rfl⟩
  | fork k o k' st move commit =>
    have hquiet : st = s.store → Sys.Effect S s (.fork k o)
        { s.record S (s.forks k) st with forks := Function.update s.forks k k' } := by
      intro hst
      obtain ⟨hb, hf, hl⟩ := record_same S s (s.forks k) st (.inr (by rw [hst]))
      exact .quiet ((record_store s _ _).trans hst) ⟨hb, hf, hl⟩
    rcases move.write with hst | hw
    · exact hquiet hst
    · cases hc : o.commits with
      | false => exact hquiet (commit hc)
      | true => exact hw.effect hi hc
  | abandon k on => exact .quiet rfl ⟨rfl, rfl, rfl⟩

end CloudyNeigh.Ingest
