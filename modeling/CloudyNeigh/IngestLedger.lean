import CloudyNeigh.IngestCheckpoints

/-!
# The record of forks

What the record of every branch says about the store: a copy that was not touched
since it was written is the one on record, and only forks leave a record.
-/
namespace CloudyNeigh.Ingest
open RecordIO Storage LogStream Naming SlashPath Transition Versioned

variable {S : Setup} {s t : Sys} {a : Action}

/-- The call has written the manifest of its target, and knows it. -/
def ForkPc.wrote : ForkPc → Bool
  | .addRead => true
  | .addWrite _ _ => true
  | .append => true
  | .rollbackDelete => true
  | .removeRead => true
  | .removeWrite _ _ => true
  | .done => true
  | _ => false

structure Ledger (S : Setup) (s : Sys) : Prop where
  birth : ∀ b, s.birth b ≠ none → s.forked b = true
  lost : ∀ b, s.lost b = true → s.forked b = true
  wrote : ∀ k, (s.forks k).pc.wrote = true → s.forked (s.forks k).target = true
  written : ∀ k g, (s.forks k).written = some g → g < s.store.manifests.next
  own : ∀ k g m, (s.forks k).written = some g →
    s.store.manifests.cell (S.scope.ManifestKey (s.forks k).target) = some (m, g) →
    s.birth (s.forks k).target = some m

section Forks

/-- How a step changes a call: not at all, by starting it, by the write of its
copy, or within one of the two phases before and after this write. -/
inductive ForkCall.Next (S : Setup) (s : Sys) (t : Sys) (k : ℕ) : Prop
  | same (eq : t.forks k = s.forks k)
  | fresh (written : (t.forks k).written = none) (wrote : (t.forks k).pc.wrote = false)
  | wrote (m : BranchManifest) (pc : (s.forks k).pc = .writeTarget m)
      (target : (t.forks k).target = (s.forks k).target)
      (written : (t.forks k).written = some s.store.manifests.next)
      (absent : s.store.manifests.cell (S.scope.ManifestKey (s.forks k).target) = none)
      (store : t.store = { s.store with
        manifests := s.store.manifests.put (S.scope.ManifestKey (s.forks k).target) m })
      (birth : t.birth = Function.update s.birth (s.forks k).target (some m))
      (forked : t.forked = Function.update s.forked (s.forks k).target true)
  | phase (target : (t.forks k).target = (s.forks k).target)
      (written : (t.forks k).written = (s.forks k).written)
      (pc : (t.forks k).pc.wrote = true → (s.forks k).pc.wrote = true)

lemma ForkCall.Move.next {k : ℕ} {k' : ForkCall} {st : Store}
    (h : ForkCall.Move S s.store (s.forks k) k' st) (hk : t.forks k = k') (hst : t.store = st)
    (hb : t.birth = (s.record S (s.forks k) st).birth)
    (hf : t.forked = (s.record S (s.forks k) st).forked) : ForkCall.Next S s t k := by
  have herr : ∀ pc : ForkPc, pc.onError.wrote = true → pc.wrote = true := by
    intro pc
    cases pc <;> simp [ForkPc.onError, ForkPc.wrote]
  subst hk
  generalize hk' : t.forks k = c at h
  cases h with
  | error on => exact .phase (by rw [hk']) (by rw [hk']) (by rw [hk']; exact herr _)
  | commitError _ on write => exact .phase (by rw [hk']) (by rw [hk']) (by rw [hk']; exact herr _)
  | written m _ pc write =>
    have hw := ForkCall.commit_write write
    cases hw with
    | manifest m' pc' absent =>
      have hm : m' = m := by
        rw [pc] at pc'
        exact (ForkPc.writeTarget.inj pc').symm
      subst hm
      obtain ⟨hbirth, hforked, -⟩ := record_copy S s (s.forks k) pc absent
      exact .wrote m' pc (by rw [hk']) (by rw [hk']) absent hst (hb.trans hbirth)
        (hf.trans hforked)
    | add branches gen pc' holds => rw [pc] at pc'; cases pc'
    | event entry pc' encoded => rw [pc] at pc'; cases pc'
    | delete pc' => rw [pc] at pc'; cases pc'
    | remove branches gen pc' holds => rw [pc] at pc'; cases pc'
  | giveUp on => exact .phase (by rw [hk']) (by rw [hk']) (by simp [hk', ForkPc.wrote])
  | copied m gen pc cell => exact .phase (by rw [hk']) (by rw [hk']) (by simp [hk', ForkPc.wrote])
  | absent m pc => exact .phase (by rw [hk']) (by rw [hk']) (by simp [hk', ForkPc.wrote])
  | registered pc mem => exact .phase (by rw [hk']) (by rw [hk']) (by simp [pc, ForkPc.wrote])
  | addPrepare pc => exact .phase (by rw [hk']) (by rw [hk']) (by simp [pc, ForkPc.wrote])
  | added branches gen _ pc write =>
    exact .phase (by rw [hk']) (by rw [hk']) (by simp [pc, ForkPc.wrote])
  | addConflict branches gen pc =>
    exact .phase (by rw [hk']) (by rw [hk']) (by simp [pc, ForkPc.wrote])
  | appended _ pc write => exact .phase (by rw [hk']) (by rw [hk']) (by simp [pc, ForkPc.wrote])
  | deleted _ pc write => exact .phase (by rw [hk']) (by rw [hk']) (by simp [pc, ForkPc.wrote])
  | removePrepare pc mem => exact .phase (by rw [hk']) (by rw [hk']) (by simp [pc, ForkPc.wrote])
  | removed branches gen _ pc write =>
    exact .phase (by rw [hk']) (by rw [hk']) (by simp [hk', ForkPc.wrote])
  | removeConflict branches gen pc =>
    exact .phase (by rw [hk']) (by rw [hk']) (by simp [pc, ForkPc.wrote])

lemma Sys.Change.next (h : Sys.Change S s a t) (k : ℕ) : ForkCall.Next S s t k := by
  cases h with
  | append entry ok => exact .same rfl
  | start i => exact .same rfl
  | crash i => exact .same rfl
  | flush i o f st move => exact .same rfl
  | call k' source target idle vs vt =>
    by_cases hk : k = k'
    · subst hk
      exact .fresh (by simp) (by simp [ForkPc.wrote])
    · exact .same (Function.update_of_ne hk ..)
  | fork k' o c st move commit =>
    by_cases hk : k = k'
    · subst hk
      exact move.next (Function.update_self ..) (record_store s _ st) rfl rfl
    · exact .same (Function.update_of_ne hk ..)
  | abandon k' on =>
    by_cases hk : k = k'
    · subst hk
      exact .phase (by simp) (by simp) (by simp [ForkPc.wrote])
    · exact .same (Function.update_of_ne hk ..)

end Forks

lemma Sys.Effect.forked_cases (h : Sys.Effect S s a t) (b : String) :
    t.forked b = s.forked b ∨ t.forked b = true ∧ ∃ k o, a = .fork k o := by
  cases h with
  | quiet store record => exact .inl (by rw [record.forked])
  | log entry store record => exact .inl (by rw [record.forked])
  | segment manifests catalog wal record => exact .inl (by rw [record.forked])
  | flush i j gen pc store record => exact .inl (by rw [record.forked])
  | register b' store record => exact .inl (by rw [record.forked])
  | remove k o act commits pc store record => exact .inl (by rw [record.forked])
  | delete k o act commits pc store forked absent present => exact .inl (by rw [forked])
  | copy k m act pc absent store birth forked lost =>
    rw [forked]
    by_cases hk : b = (s.forks k).target
    · exact .inr ⟨by simp [hk], k, act⟩
    · exact .inl (by simp [hk])

lemma Sys.Effect.forked_mono (h : Sys.Effect S s a t) {b : String} (hb : s.forked b = true) :
    t.forked b = true := by
  rcases h.forked_cases b with hsame | ⟨hforked, -⟩
  · rwa [hsame]
  · exact hforked

/-- A rollback deletes a version of the manifest of `b` that is not its own. -/
structure Overreach (S : Setup) (s : Sys) (a : Action) (b : String) (k : ℕ) (o : Outcome) (gen : ℕ) :
    Prop where
  act : a = .fork k o
  commits : o.commits = true
  target : (s.forks k).target = b
  pc : (s.forks k).pc = .rollbackDelete
  cell : ∃ m, s.store.manifests.cell (S.scope.ManifestKey b) = some (m, gen)
  foreign : (s.forks k).written ≠ some gen

/-- Only such a rollback can make a branch lose entries. -/
lemma Sys.Effect.lost_cases (h : Sys.Effect S s a t) (b : String) :
    t.lost b = s.lost b ∨ t.lost b = true ∧ ∃ k o gen, Overreach S s a b k o gen := by
  cases h with
  | quiet store record => exact .inl (by rw [record.lost])
  | log entry store record => exact .inl (by rw [record.lost])
  | segment manifests catalog wal record => exact .inl (by rw [record.lost])
  | flush i j gen pc store record => exact .inl (by rw [record.lost])
  | register b' store record => exact .inl (by rw [record.lost])
  | remove k o act commits pc store record => exact .inl (by rw [record.lost])
  | copy k m act pc absent store birth forked lost => exact .inl (by rw [lost])
  | delete k o act commits pc store forked absent present =>
    cases hcell : s.store.manifests.cell (S.scope.ManifestKey (s.forks k).target) with
    | none => exact .inl (by rw [(absent hcell).lost])
    | some p =>
      rw [(present p.1 p.2 hcell).2]
      split
      · exact .inl rfl
      · rename_i hown
        by_cases hk : b = (s.forks k).target
        · subst hk
          exact .inr ⟨Function.update_self .., k, o, p.2, act, commits, rfl, pc, ⟨p.1, hcell⟩, hown⟩
        · exact .inl (by simp [hk])

lemma Sys.Effect.lost_mono (h : Sys.Effect S s a t) {b : String} (hb : s.lost b = true) :
    t.lost b = true := by
  rcases h.lost_cases b with hsame | ⟨hlost, -⟩
  · rwa [hsame]
  · exact hlost

/-- What a step does to one branch. -/
inductive BranchEffect (S : Setup) (s : Sys) (a : Action) (t : Sys) (b : String) : Prop
  | same (cell : t.store.manifests.cell (S.scope.ManifestKey b) =
      s.store.manifests.cell (S.scope.ManifestKey b)) (birth : t.birth b = s.birth b)
  | flush (i : ℕ) (j : Job) (gen : Option ℕ) (branch : j.branch = b)
      (pc : (s.flushers i).pc = .manifestWrite j (s.store.current (S.scope.ManifestKey b)) gen)
      (cell : t.store.manifests.cell (S.scope.ManifestKey b) =
        some (flushed (s.store.current (S.scope.ManifestKey b)) j, s.store.manifests.next))
      (birth : t.birth b = s.birth b)
  | copy (k : ℕ) (o : Outcome) (m : BranchManifest) (act : a = .fork k o)
      (target : (s.forks k).target = b) (pc : (s.forks k).pc = .writeTarget m)
      (absent : s.store.manifests.cell (S.scope.ManifestKey b) = none)
      (cell : t.store.manifests.cell (S.scope.ManifestKey b) =
        some (m, s.store.manifests.next))
      (birth : t.birth b = some m)
  | delete (k : ℕ) (o : Outcome) (m : BranchManifest) (gen : ℕ) (act : a = .fork k o)
      (commits : o.commits = true) (target : (s.forks k).target = b)
      (pc : (s.forks k).pc = .rollbackDelete)
      (before : s.store.manifests.cell (S.scope.ManifestKey b) = some (m, gen))
      (cell : t.store.manifests.cell (S.scope.ManifestKey b) = none)
      (birth : t.birth b = none) (lost : (s.forks k).written ≠ some gen → t.lost b = true)

lemma ManifestKey_ne {b b' : String} (hb : Valid b) (hb' : Valid b') (h : b ≠ b') :
    S.scope.ManifestKey b ≠ S.scope.ManifestKey b' :=
  fun he => h (manifestKey_injective S.scope_valid hb hb' he)

theorem Sys.Effect.branch (h : Sys.Effect S s a t) (hi : Inflight S s) {b : String}
    (hb : Valid b) : BranchEffect S s a t b := by
  cases h with
  | quiet store record => exact .same (by rw [store]) (by rw [record.birth])
  | log entry store record => exact .same (by rw [store]) (by rw [record.birth])
  | segment manifests catalog wal record => exact .same (by rw [manifests]) (by rw [record.birth])
  | register b' store record => exact .same (by rw [store]) (by rw [record.birth])
  | remove k o act commits pc store record => exact .same (by rw [store]) (by rw [record.birth])
  | flush i j gen pc store record =>
    have hok := hi.flushers i
    rw [pc] at hok
    by_cases hj : j.branch = b
    · subst hj
      exact .flush i j gen rfl pc (by rw [store]; exact Cells.put_self) (by rw [record.birth])
    · have hne := ManifestKey_ne (S := S) hb hok.1.valid (Ne.symm hj)
      exact .same (by rw [store]; exact Cells.put_ne hne) (by rw [record.birth])
  | copy k m act pc absent store birth forked lost =>
    obtain ⟨o, ho⟩ := act
    have hvalid := ((hi.forks k).valid (by simp [pc])).2
    by_cases hk : (s.forks k).target = b
    · subst hk
      exact .copy k o m ho rfl pc absent (by rw [store]; exact Cells.put_self) (by simp [birth])
    · have hne := ManifestKey_ne (S := S) hb hvalid (Ne.symm hk)
      exact .same (by rw [store]; exact Cells.put_ne hne) (by simp [birth, Ne.symm hk])
  | delete k o act commits pc store forked absent present =>
    have hvalid := ((hi.forks k).valid (by simp [pc])).2
    cases hcell : s.store.manifests.cell (S.scope.ManifestKey (s.forks k).target) with
    | none =>
      by_cases hk : (s.forks k).target = b
      · subst hk
        exact .same (by rw [store, hcell]; exact Cells.delete_self) (by rw [(absent hcell).birth])
      · have hne := ManifestKey_ne (S := S) hb hvalid (Ne.symm hk)
        exact .same (by rw [store]; exact Cells.delete_ne hne) (by rw [(absent hcell).birth])
    | some p =>
      obtain ⟨hbirth, hlost⟩ := present p.1 p.2 hcell
      by_cases hk : (s.forks k).target = b
      · subst hk
        refine .delete k o p.1 p.2 act commits rfl pc hcell (by rw [store]; exact Cells.delete_self)
          (by simp [hbirth]) fun hne => ?_
        simp [hlost, hne]
      · have hne := ManifestKey_ne (S := S) hb hvalid (Ne.symm hk)
        exact .same (by rw [store]; exact Cells.delete_ne hne) (by simp [hbirth, Ne.symm hk])

section Step
variable (hl : Ledger S s) (he : s.store.Evolves t.store) (heff : Sys.Effect S s a t)

include hl heff in
lemma Ledger.step_birth (b : String) (hb : t.birth b ≠ none) : t.forked b = true := by
  have hold : s.birth b ≠ none → t.forked b = true := fun h => heff.forked_mono (hl.birth b h)
  cases heff with
  | quiet store record => exact hold (record.birth ▸ hb)
  | log entry store record => exact hold (record.birth ▸ hb)
  | segment manifests catalog wal record => exact hold (record.birth ▸ hb)
  | flush i j gen pc store record => exact hold (record.birth ▸ hb)
  | register b' store record => exact hold (record.birth ▸ hb)
  | remove k o act commits pc store record => exact hold (record.birth ▸ hb)
  | copy k m act pc absent store birth forked lost =>
    by_cases hk : b = (s.forks k).target
    · simp [forked, hk]
    · exact hold (by simpa [birth, hk] using hb)
  | delete k o act commits pc store forked absent present =>
    cases hcell : s.store.manifests.cell (S.scope.ManifestKey (s.forks k).target) with
    | none => exact hold ((absent hcell).birth ▸ hb)
    | some p =>
      rw [(present p.1 p.2 hcell).1] at hb
      by_cases hk : b = (s.forks k).target
      · simp [hk] at hb
      · exact hold (by simpa [hk] using hb)

include hl heff in
lemma Ledger.step_lost (b : String) (hb : t.lost b = true) : t.forked b = true := by
  rcases heff.lost_cases b with hsame | ⟨-, k, o, gen, hover⟩
  · exact heff.forked_mono (hl.lost b (hsame ▸ hb))
  · have hwrote : s.forked (s.forks k).target = true := hl.wrote k (by rw [hover.pc]; rfl)
    rw [hover.target] at hwrote
    exact heff.forked_mono hwrote

include he heff in
/-- The record of a branch is kept as long as its manifest is. -/
lemma Sys.Effect.birth_of_cell {b : String} {m : BranchManifest} {g : ℕ}
    (hg : g < s.store.manifests.next)
    (hcell : t.store.manifests.cell (S.scope.ManifestKey b) = some (m, g)) :
    s.store.manifests.cell (S.scope.ManifestKey b) = some (m, g) ∧ t.birth b = s.birth b := by
  have hold := he.manifests.old _ m g hcell hg
  refine ⟨hold, ?_⟩
  cases heff with
  | quiet store record => rw [record.birth]
  | log entry store record => rw [record.birth]
  | segment manifests catalog wal record => rw [record.birth]
  | flush i j gen pc store record => rw [record.birth]
  | register b' store record => rw [record.birth]
  | remove k o act commits pc store record => rw [record.birth]
  | copy k m' act pc absent store birth forked lost =>
    have hk : b ≠ (s.forks k).target := by
      rintro rfl
      rw [absent] at hold
      cases hold
    simp [birth, hk]
  | delete k o act commits pc store forked absent present =>
    have hk : b ≠ (s.forks k).target := by
      rintro rfl
      rw [store, Cells.delete_self] at hcell
      cases hcell
    cases hc : s.store.manifests.cell (S.scope.ManifestKey (s.forks k).target) with
    | none => rw [(absent hc).birth]
    | some p => simp [(present p.1 p.2 hc).1, hk]

end Step

theorem Ledger.step (hl : Ledger S s) (he : s.store.Evolves t.store)
    (heff : Sys.Effect S s a t) (hnext : ∀ k, ForkCall.Next S s t k) : Ledger S t := by
  refine ⟨hl.step_birth heff, hl.step_lost heff, fun k hw => ?_, fun k g hg => ?_,
    fun k g m hg hcell => ?_⟩
  · cases hnext k with
    | same eq =>
      rw [eq] at hw ⊢
      exact heff.forked_mono (hl.wrote k hw)
    | fresh written wrote =>
      rw [wrote] at hw
      cases hw
    | wrote m pc target written absent store birth forked => simp [target, forked]
    | phase target written pc =>
      rw [target]
      exact heff.forked_mono (hl.wrote k (pc hw))
  · have hle := he.manifests.next_le
    cases hnext k with
    | same eq => exact (hl.written k g (eq ▸ hg)).trans_le hle
    | fresh written wrote =>
      rw [written] at hg
      cases hg
    | wrote m pc target written absent store birth forked =>
      rw [written] at hg
      cases hg
      rw [store]
      exact Nat.lt_succ_self _
    | phase target written pc => exact (hl.written k g (written ▸ hg)).trans_le hle
  · cases hnext k with
    | same eq =>
      rw [eq] at hg hcell ⊢
      obtain ⟨hold, hbirth⟩ := heff.birth_of_cell he (hl.written k g hg) hcell
      exact hbirth.trans (hl.own k g m hg hold)
    | fresh written wrote =>
      rw [written] at hg
      cases hg
    | wrote m' pc target written absent store birth forked =>
      rw [target, store, Cells.put_self] at hcell
      cases hcell
      simp [target, birth]
    | phase target written pc =>
      rw [written] at hg
      rw [target] at hcell ⊢
      obtain ⟨hold, hbirth⟩ := heff.birth_of_cell he (hl.written k g hg) hcell
      exact hbirth.trans (hl.own k g m hg hold)

lemma ledger_step (hi : Inflight S s) (hl : Ledger S s) (h : Sys.step S s a = some t) :
    Ledger S t := by
  have hchange := Sys.step_change h hi
  exact hl.step (hchange.inflight hi).1 (hchange.effect hi) hchange.next

theorem ledger_reachable (h : (machine S).Reachable s) : Inflight S s ∧ Ledger S s := by
  have hinit : Inflight S (machine S).init ∧ Ledger S (machine S).init := by
    refine ⟨inflight_reachable (.refl _), ⟨?_, ?_, ?_, ?_, ?_⟩⟩ <;>
      simp [machine, ForkPc.wrote]
  exact h.invariant (P := fun s => Inflight S s ∧ Ledger S s) hinit
    fun s a t hi (hs : Sys.step S s a = some t) =>
      ⟨inflight_step hi.1 hs, ledger_step hi.1 hi.2 hs⟩

end CloudyNeigh.Ingest
