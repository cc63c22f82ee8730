import CloudyNeigh.IngestRollback

/-!
# Registration of flushed branches

A branch enters the catalog after its manifest was written. A flusher that is past
an entry has seen the branch of this entry registered, or relies on a checkpoint of
somebody who has, as long as nobody takes a checkpoint from the manifest of a branch
that is not in the catalog.
-/
namespace CloudyNeigh.Ingest
open RecordIO Storage LogStream Naming SlashPath Transition Versioned

variable {S : Setup} {s t : Sys} {a : Action} {b : String}

section Names

/-- Every name that is or was in the catalog is a valid one. -/
structure Named (s : Sys) : Prop where
  catalog : ∀ b ∈ s.store.readBranchCatalog.1, Valid b
  listed : ∀ i todo min, (s.flushers i).pc = .initRead todo min → ∀ b ∈ todo, Valid b

lemma ListBranches_valid {st : Store} (h : ∀ b ∈ st.readBranchCatalog.1, Valid b) :
    ∀ b ∈ st.ListBranches, Valid b := by
  intro b hb
  unfold Store.ListBranches at hb
  split at hb
  · rw [List.mem_singleton.mp hb]
    decide +kernel
  · exact h b (by simpa using hb)

lemma Sys.Change.catalog_names (h : Sys.Change S s a t) (hi : Inflight S s)
    (hb : b ∈ t.store.readBranchCatalog.1) : b ∈ s.store.readBranchCatalog.1 ∨ Valid b := by
  have hsame : t.store.catalog = s.store.catalog → b ∈ s.store.readBranchCatalog.1 := by
    intro he
    rwa [readBranchCatalog_congr he] at hb
  cases h with
  | append entry ok => exact .inl (hsame rfl)
  | start i => exact .inl (hsame rfl)
  | crash i => exact .inl (hsame rfl)
  | call k source target idle vs vt => exact .inl (hsame rfl)
  | abandon k on => exact .inl (hsame rfl)
  | flush i o f st move =>
    rcases move.write with rfl | hw
    · exact .inl (hsame rfl)
    · have hok := hi.flushers i
      generalize (s.flushers i).pc = pc at hw hok
      cases hw with
      | segment j => exact .inl (hsame (putSegment_other ..).2.2)
      | manifest j m gen holds => exact .inl (hsame rfl)
      | catalog j checkpoint branches gen holds =>
        rw [readBranchCatalog_put, List.mem_append, List.mem_singleton] at hb
        rw [readBranchCatalog_of_seen hok.2.2.1 hok.2.2.2 holds]
        rcases hb with hb | rfl
        · exact .inl hb
        · exact .inr hok.1.valid
  | fork k o k' st move commit =>
    have hst := record_store (S := S) s (s.forks k) st
    rw [show _ = st from hst] at hb hsame
    rcases move.write with he | hw
    · exact .inl (hsame (by rw [he]))
    · cases hw with
      | manifest m pc absent => exact .inl (hsame rfl)
      | event entry pc encoded => exact .inl (hsame rfl)
      | delete pc => exact .inl (hsame rfl)
      | add branches gen pc holds =>
        obtain ⟨hseen, hnone⟩ := (hi.forks k).catalog branches gen (.inl pc)
        rw [readBranchCatalog_put, List.mem_append, List.mem_singleton] at hb
        rw [readBranchCatalog_of_seen hseen hnone holds]
        rcases hb with hb | rfl
        · exact .inl hb
        · exact .inr ((hi.forks k).valid (by simp [pc])).2
      | remove branches gen pc holds =>
        obtain ⟨hseen, hnone⟩ := (hi.forks k).catalog branches gen (.inr pc)
        rw [readBranchCatalog_put] at hb
        rw [readBranchCatalog_of_seen hseen hnone holds]
        exact .inl (List.mem_of_mem_filter hb)

lemma initNext_todo {todo todo' : List String} {min min' : Option ℕ}
    (h : initNext todo min = .initRead todo' min') : todo' = todo := by
  cases todo with
  | nil => cases h
  | cons b bs =>
    cases h
    rfl

/-- What a flusher still has to read in `initCheckpoints` it took from the catalog. -/
lemma Flusher.Move.todo {st st' : Store} {f f' : Flusher} (h : Flusher.Move S st f f' st')
    {todo : List String} {min : Option ℕ} (hpc : f'.pc = .initRead todo min) :
    todo = st.ListBranches ∨ ∃ todo' min', f.pc = .initRead todo' min' ∧ todo ⊆ todo' := by
  have hfail : ∀ cancelled, (f.fail cancelled).pc ≠ .initRead todo min := by
    intro cancelled
    unfold Flusher.fail
    split
    · cases f.pc <;> simp [FlusherPc.resume]
    · simp
  cases h with
  | fail cancelled on => exact absurd hpc (hfail cancelled)
  | commitFail cancelled _ on write => exact absurd hpc (hfail cancelled)
  | list pc => exact .inl (initNext_todo hpc)
  | missing b todo' min' pc cell =>
    exact .inr ⟨_, _, pc, initNext_todo hpc ▸ List.subset_cons_self _ _⟩
  | found b todo' min' m gen pc cell =>
    exact .inr ⟨_, _, pc, initNext_todo hpc ▸ List.subset_cons_self _ _⟩
  | wait seq pc => exact .inr ⟨_, _, hpc, List.Subset.refl _⟩
  | halt seq pc => cases hpc
  | skip seq b ms pc entry covered => cases hpc
  | event seq evt pc entry => cases hpc
  | encode seq b ms data pc entry seg => cases hpc
  | upload j pc => cases hpc
  | already j m gen pc cell le => cases hpc
  | prepare j m gen pc cell absent lt => cases hpc
  | written j m gen _ pc write => cases hpc
  | conflict j m gen pc => cases hpc
  | registered j checkpoint pc mem => cases hpc
  | addPrepare j checkpoint pc notMem => cases hpc
  | added j checkpoint branches gen _ pc write => cases hpc
  | addConflict j checkpoint branches gen pc => cases hpc

lemma Named.step (h : Named s) (hi : Inflight S s) (hchange : Sys.Change S s a t) : Named t := by
  have hcat : ∀ b ∈ t.store.readBranchCatalog.1, Valid b := fun b hb =>
    (hchange.catalog_names hi hb).elim (h.catalog b) id
  refine ⟨hcat, fun i todo min hpc => ?_⟩
  cases hchange with
  | append entry ok => exact h.listed i todo min hpc
  | call k source target idle vs vt => exact h.listed i todo min hpc
  | abandon k on => exact h.listed i todo min hpc
  | fork k o k' st move commit =>
    rw [show _ = s.flushers from record_flushers (S := S) s (s.forks k) st] at hpc
    exact h.listed i todo min hpc
  | start i' =>
    by_cases hii : i = i'
    · subst hii
      simp at hpc
    · exact h.listed i todo min (by simpa [hii] using hpc)
  | crash i' =>
    by_cases hii : i = i'
    · subst hii
      simp at hpc
    · exact h.listed i todo min (by simpa [hii] using hpc)
  | flush i' o f st move =>
    by_cases hii : i = i'
    · subst hii
      rcases move.todo (by simpa using hpc) with rfl | ⟨todo', min', hpc', hsub⟩
      · exact ListBranches_valid h.catalog
      · exact fun b hb => h.listed i todo' min' hpc' b (hsub hb)
    · exact h.listed i todo min (by simpa [hii] using hpc)

theorem named_reachable (h : (machine S).Reachable s) : Named s := by
  have hinit : Inflight S (machine S).init ∧ Named (machine S).init :=
    ⟨inflight_reachable (.refl _), by simp [machine, Store.readBranchCatalog], by simp [machine]⟩
  refine (h.invariant (P := fun s => Inflight S s ∧ Named s) hinit fun s a t hs hstep => ?_).2
  exact ⟨inflight_step hs.1 hstep, hs.2.step hs.1 (Sys.step_change hstep hs.1)⟩

end Names

section Registration

/-- The log has no mutation of `b`. -/
def Unwritten (S : Setup) (st : Store) (b : String) : Prop :=
  entriesOf S st.wal b st.wal.length = []

instance (st : Store) : Decidable (Unwritten S st b) := inferInstanceAs (Decidable (_ = _))

lemma Unwritten.none {st : Store} (h : Unwritten S st b) (seq : ℕ) :
    mutationsAt S st.wal b seq = none := by
  by_contra hne
  obtain ⟨ms, hms⟩ := Option.ne_none_iff_exists'.mp hne
  have hmem : (seq, ms) ∈ entriesOf S st.wal b st.wal.length :=
    mem_entriesOf.mpr ⟨(mutationsAt_le hne).2, hms⟩
  rw [h] at hmem
  cases hmem

/-- A branch with mutations in the log is in the catalog. -/
def Known (S : Setup) (st : Store) (b : String) : Prop :=
  b ∈ st.readBranchCatalog.1 ∨ Unwritten S st b

instance (st : Store) : Decidable (Known S st b) := inferInstanceAs (Decidable (_ ∨ _))

/-- The condition on the state before a step: `initCheckpoints` finds manifests only
of known branches, `Fork` writes copies only of known sources, and no rollback takes
a branch with mutations out of the catalog. -/
def sparesCatalog (S : Setup) (s : Sys) : Action → Prop
  | .flush i _ =>
    match (s.flushers i).pc with
    | .initRead (b :: _) _ =>
      s.store.manifests.cell (S.scope.ManifestKey b) ≠ none → Known S s.store b
    | _ => True
  | .fork k o =>
    match (s.forks k).pc with
    | .writeTarget _ => Known S s.store (s.forks k).source
    | .removeWrite _ gen => o.commits = true → s.store.catalog.holds () gen = true →
        Unwritten S s.store (s.forks k).target
    | _ => True
  | _ => True

instance (s : Sys) (a : Action) : Decidable (sparesCatalog S s a) := by
  unfold sparesCatalog
  split
  · split <;> infer_instance
  · split <;> infer_instance
  · infer_instance

/-- Up to `c` every branch is registered, apart from the one whose manifest `c` comes
from. -/
structure Vouched (S : Setup) (st : Store) (who : Option Path) (c : ℕ) : Prop where
  bound : c ≤ st.wal.length
  registered : ∀ b seq, seq ≤ c → mutationsAt S st.wal b seq ≠ none →
    b ∈ st.readBranchCatalog.1 ∨ who = some (S.scope.ManifestKey b)

lemma Vouched.mono {st : Store} {who : Option Path} {c c' : ℕ} (h : Vouched S st who c')
    (hle : c ≤ c') : Vouched S st who c :=
  ⟨hle.trans h.bound, fun b seq hseq => h.registered b seq (hseq.trans hle)⟩

/-- The one exception is registered after all. -/
lemma Vouched.settle {st : Store} {c : ℕ} (h : Vouched S st (some (S.scope.ManifestKey b)) c)
    (hb : Valid b) (hmem : Known S st b) {who : Option Path} : Vouched S st who c := by
  refine ⟨h.bound, fun b' seq hseq hms => .inl ?_⟩
  rcases h.registered b' seq hseq hms with hin | he
  · exact hin
  · obtain ⟨ms, hms'⟩ := Option.ne_none_iff_exists'.mp hms
    have hbb : b = b' :=
      manifestKey_injective S.scope_valid hb (mutationsAt_valid hms') (Option.some.inj he)
    subst hbb
    exact hmem.resolve_right fun hun => hms (hun.none seq)

variable {who : Option Path} {c : ℕ}

lemma Vouched.later (h : Vouched S s.store who c) (hi : Inflight S s)
    (hchange : Sys.Change S s a t) (hok : sparesCatalog S s a) : Vouched S t.store who c := by
  have hwal := (hchange.inflight hi).1.wal
  refine ⟨h.bound.trans hwal.length_le, fun b seq hseq hms => ?_⟩
  rw [mutationsAt_absorb hwal (hseq.trans h.bound)] at hms
  rcases h.registered b seq hseq hms with hin | he
  · rcases hchange.listed hi hin with hin | ⟨k, o, branches, gen, act, commits, htarget, hpc, hold⟩
    · exact .inl hin
    · subst act
      have hun : Unwritten S s.store (s.forks k).target := by
        simp only [sparesCatalog, hpc] at hok
        exact hok commits hold
      exact absurd ((htarget ▸ hun).none seq) hms
  · exact .inr he

/-- Every checkpoint in the system is vouched for. -/
def Registered (S : Setup) (s : Sys) : Prop :=
  ∀ who c, s.Carries S who c → Vouched S s.store who c

theorem Registered.step (h : Registered S s) (hi : Inflight S s) (hn : Named s)
    (hchange : Sys.Change S s a t) (hok : sparesCatalog S s a) : Registered S t := by
  have hlater : ∀ who c, Vouched S s.store who c → Vouched S t.store who c :=
    fun who c hv => hv.later hi hchange hok
  have hwal := (hchange.inflight hi).1.wal
  intro who c hc
  cases hchange.origin hi hc with
  | old who c c' hc' le => exact (hlater who c' (h who c' hc')).mono le
  | zero =>
    refine ⟨Nat.zero_le _, fun b seq hseq hms => ?_⟩
    have hpos := (mutationsAt_le hms).1
    omega
  | found i o b todo min m gen c act pc cell le =>
    -- the branch was listed, and the guard says that it is known
    subst act
    have hb : Valid b := hn.listed i _ _ pc b List.mem_cons_self
    have hknown : Known S s.store b := by
      simp only [sparesCatalog, pc] at hok
      exact hok (by simp [cell])
    exact (hlater none _ ((h _ _ (.manifest _ m gen cell)).settle hb hknown)).mono le
  | passed seq e pos entry skip =>
    have hpos := hlater none _ (h none _ pos)
    refine ⟨(entryAt_le entry).2.trans hwal.length_le, fun b x hx hms => ?_⟩
    by_cases hlast : x = c
    · subst hlast
      obtain ⟨ms, hms'⟩ := Option.ne_none_iff_exists'.mp hms
      rw [mutationsAt_eq, entryAt_mono hwal entry] at hms'
      obtain ⟨c', hc', hle⟩ := skip b ms (Option.some.inj hms')
      exact (hlater none _ (h none _ hc')).registered b x hle hms
    · exact hpos.registered b x (by omega) hms
  | written j m gen pos job cell =>
    have hpos := hlater none _ (h none _ pos)
    obtain ⟨ms, hms, -, -⟩ := job.mono hwal
    have hjob : mutationsAt S t.store.wal j.branch j.seq ≠ none := by simp [hms]
    refine ⟨(mutationsAt_le hjob).2, fun b x hx hms' => ?_⟩
    by_cases hlast : x = j.seq
    · rw [hlast] at hms'
      exact .inr (by rw [mutationsAt_branch hms hms'])
    · exact (hpos.registered b x (by omega) hms').imp_right fun hnone => nomatch hnone
  | registered j c c' held le job mem =>
    exact ((hlater _ _ (h _ _ held)).settle job.valid (.inl mem)).mono le
  | copied k o m act pc =>
    subst act
    have hknown : Known S s.store (s.forks k).source := by
      simpa only [sparesCatalog, pc] using hok
    have hsource := ((hi.forks k).valid (by simp [pc])).1
    exact hlater _ _ ((h _ _ (.copy k m (.inr pc))).settle hsource hknown)

theorem registered_run (h : (machine S).Run (sparesCatalog S) (machine S).init s) :
    Registered S s := by
  induction h with
  | refl =>
    intro who c hc
    cases hc with
    | manifest key m gen cell => cases cell
    | flusher i who c h =>
      cases h with
      | position c h => cases h
      | memory b c h => cases h
      | held key c h => cases h
    | copy k m pc => rcases pc with h | h <;> cases h
  | tail hpre hstep ih =>
    obtain ⟨a, hok, hstep⟩ := hstep
    have hi := inflight_reachable (Machine.Run.any hpre)
    exact ih.step hi (named_reachable (Machine.Run.any hpre)) (Sys.step_change hstep hi) hok

/-- In every run whose steps spare the catalog, when a flusher is through with the
entries up to `n`, every branch with a mutation in one of them is listed. -/
theorem flushed_branch_listed (S : Setup) (s : Sys)
    (h : (machine S).Run (sparesCatalog S) (machine S).init s) (i n : ℕ)
    (hpc : (s.flushers i).pc = .read (n + 1)) (b : String) (seq : ℕ) (hseq : seq ≤ n)
    (hms : mutationsAt S s.store.wal b seq ≠ none) : b ∈ s.store.ListBranches := by
  have hv := registered_run h none n (.flusher i _ _ (.position n (by rw [hpc]; rfl)))
  rcases hv.registered b seq hseq hms with hin | he
  · exact mem_ListBranches hin
  · cases he

-- The flusher crashes between the manifest and the catalog write of the second branch.
def reregisterScript : List Action :=
  [demoDevEntry, demoMainEntry, .start 0] ++ flushes 0 12 ++ [.crash 0, .start 0] ++ flushes 0 7

set_option maxRecDepth 8000 in
theorem flushed_branch_listed_after_crash :
    ∃ s, (machine demoSetup).Run (sparesCatalog demoSetup) (machine demoSetup).init s ∧
      (s.flushers 0).pc = .read 3 ∧ mutationsAt demoSetup s.store.wal "main" 2 ≠ none ∧
      "main" ∈ s.store.ListBranches := by
  obtain ⟨s, hrun, hpc, hms⟩ := (machine demoSetup).exec_exists (sparesCatalog demoSetup)
    (machine demoSetup).init reregisterScript
    (fun s => (s.flushers 0).pc = .read 3 ∧ mutationsAt demoSetup s.store.wal "main" 2 ≠ none)
    (by decide +kernel)
  exact ⟨s, hrun, hpc, hms,
    flushed_branch_listed demoSetup s hrun 0 2 hpc "main" 2 le_rfl hms⟩

-- The flusher crashes between the manifest and the catalog write of the first branch. On
-- the restart the empty catalog lists "main" all the same, and entry 1 is not read again.
def unregisteredScript : List Action :=
  [demoMainEntry, .start 0] ++ flushes 0 6 ++ [.crash 0, demoDevEntry, .start 0] ++ flushes 0 8

set_option maxRecDepth 8000 in
/-- As soon as another branch is registered, "main" is gone from the list. -/
theorem flushed_branch_unlisted :
    ∃ s, (machine demoSetup).Reachable s ∧ (s.flushers 0).pc = .read 3 ∧
      mutationsAt demoSetup s.store.wal "main" 1 ≠ none ∧
      s.store.manifests.cell (demoSetup.scope.ManifestKey "main") ≠ none ∧
      "main" ∉ s.store.ListBranches :=
  (machine demoSetup).exec_exists anyStep (machine demoSetup).init unregisteredScript _
    (by decide +kernel)

end Registration

end CloudyNeigh.Ingest
