import CloudyNeigh.QueryLoaderRuns

/-!
# The loader converges

A call that returns without error for the newest version that anybody has read
has published exactly that version, whatever failed or raced before it.
-/
namespace CloudyNeigh.Query
open RecordIO Replay Storage Transition VectorFormat

section
variable {A : Arith} {D : Decoder} {segs : Bytes → Option Bytes} {k : Kernels}
  {s t : SyncState} {qs : List DocumentMutation}

/-- While nothing newer than `v` has been read, at most `v` is loaded. -/
lemma SyncInv.at_most (h : SyncInv A D segs k s qs) {i : ℕ} {v : Version}
    (hv : s.versions[i]? = some v) (hnew : ∀ j ∈ s.reads, j ≤ i) :
    s.loader.applied ≤ v.manifest.segments.length ∧
      (qs = [] ∨ s.loader.applied < v.manifest.segments.length) := by
  rcases h.bound with ⟨h0, hq⟩ | ⟨j, hj, u, hu, hle, hq⟩
  · exact ⟨by omega, Or.inl hq⟩
  · have hlen := h.hist.length_le (hnew j hj) hu hv
    refine ⟨hle.trans hlen, ?_⟩
    rcases hq with hq | hq
    · exact Or.inl hq
    · exact Or.inr (hq.trans_le hlen)

lemma syncLoop_not_truncated (t : Table) (applied loaded : ℕ) (refs : List SegmentRef)
    (faults : List Fault) (a b : ℕ) :
    (syncLoop A D segs t applied loaded refs faults).err ≠ some (.truncated a b) := by
  induction refs generalizing t applied loaded faults with
  | nil => simp [syncLoop]
  | cons ref refs ih =>
    unfold syncLoop
    split
    · simp
    · split
      · simp
      · exact ih _ _ _ _

lemma syncLocked_truncated {l : Loader} {m : BranchManifest} {gen : String}
    {faults : List Fault} {a b : ℕ}
    (h : (l.syncLocked A D segs m gen faults).2.2 = some (.truncated a b)) :
    (l.syncLocked A D segs m gen faults).1 = l := by
  unfold Loader.syncLocked at h ⊢
  split
  · rfl
  · split
    · rfl
    · rename_i hgen hlen
      rw [if_neg hgen, if_neg hlen] at h
      dsimp only at h
      split at h
      · rename_i e he
        cases h
        exact absurd he (syncLoop_not_truncated _ _ _ _ _ _ _)
      · cases h

/-- A nil return leaves exactly the version that the call had read. -/
lemma SyncInv.published (h : SyncInv A D segs k s qs) {i : ℕ} {v : Version}
    (hv : s.versions[i]? = some v) (hnew : ∀ j ∈ s.reads, j ≤ i) {p : Pass} {l : Loader}
    {qs' : List DocumentMutation} (he : Ends p s.loader v.manifest v.gen qs l none qs') :
    l.applied = v.manifest.segments.length ∧ qs' = [] := by
  obtain ⟨hle, hq⟩ := h.at_most hv hnew
  refine he.complete hle hq fun known same => ?_
  rcases h.lastGen with h0 | ⟨u, hu, hg, hl⟩
  · exact absurd (same.trans h0) known
  · have huv := h.hist.gen_inj hu (List.mem_of_getElem? hv) (hg.trans same.symm)
    subst huv
    exact hl

end

section
variable (A : Arith) (D : Decoder) (segs : Bytes → Option Bytes) (k : Kernels)

/-- A nil return for the newest version read so far has published that version;
`applied` never decreases; a truncated manifest changes nothing. -/
theorem loader_converges {s : SyncState} (hs : (syncMachine A D segs k).Reachable s) :
    (∀ c faults t i v n, (syncMachine A D segs k).step s (.locked c faults) = some t →
      t.calls c = .returned (some i) n none → s.versions[i]? = some v →
      (∀ j ∈ s.reads, j ≤ i) → Shows A D segs k v.manifest.segments t.loader.table) ∧
    (∀ t, (syncMachine A D segs k).Run anyStep s t → s.loader.applied ≤ t.loader.applied) ∧
    (∀ c faults t i n a b, (syncMachine A D segs k).step s (.locked c faults) = some t →
      t.calls c = .returned (some i) n (some (.truncated a b)) → t.loader = s.loader) := by
  refine ⟨?_, ?_, ?_⟩
  · intro c faults t i v n hst hret hv hnew
    obtain ⟨qs, hi⟩ := syncInv_reachable hs
    obtain ⟨i', v', n', e, qs', -, hv', hret', ht, he⟩ := hi.step_locked hst
    rw [hret] at hret'
    cases hret'
    rw [hv] at hv'
    cases hv'
    obtain ⟨happ, rfl⟩ := hi.published hv hnew he
    have hshow := ht.holds.shows
    have hpre : v.manifest.segments <+: t.refs := by
      have hvt : v ∈ t.versions := by
        obtain ⟨-, -, -, -, rfl⟩ := syncStep_locked hst
        exact List.mem_of_getElem? hv
      exact ht.hist.le_refs hvt
    rwa [happ, ← List.prefix_iff_eq_take.mp hpre] at hshow
  · intro t hrun
    refine Machine.Run.relates (R := fun s t : SyncState => s.loader.applied ≤ t.loader.applied)
      (fun _ => le_rfl) (fun _ _ _ => le_trans) ?_ hs hrun
    intro s a t hs _ hst
    obtain ⟨qs, hi⟩ := syncInv_reachable hs
    obtain ⟨-, -, hle⟩ := hi.step hst
    exact hle
  · intro c faults t i n a b hst hret
    obtain ⟨i', v, -, -, rfl⟩ := syncStep_locked hst
    simp only [SyncState.setCall, Function.update_self, SyncPc.returned.injEq] at hret
    exact syncLocked_truncated hret.2.2

end

-- The call after a cancelled one absorbs the part of the batch that was published.
set_option maxRecDepth 8000 in
theorem loader_converges_after_cancel : ∃ s t : SyncState, demoMachine.Reachable s ∧
    s.loader.applied = 1 ∧ t.loader.applied = 2 ∧
    Shows demoArith demoDecoder demoSegs demoKernels demoVersion.manifest.segments
      t.loader.table := by
  obtain ⟨s, hs, hstep⟩ := Machine.exec_exists demoMachine anyStep demoMachine.init
    (cancelScript ++ [.readManifest 1 0])
    (fun s => s.loader.applied = 1 ∧ s.reads = [0, 0] ∧ s.versions = [demoVersion] ∧
      (demoMachine.step s (.locked 1 [])).any (fun t => t.loader.applied = 2 ∧
        t.calls 1 = .returned (some 0) 1 none) = true)
    (by decide +kernel)
  obtain ⟨happ, hreads, hvers, hany⟩ := hstep
  obtain ⟨t, ht, hret⟩ := Option.any_eq_true .. |>.mp hany
  obtain ⟨happ', hret⟩ := of_decide_eq_true hret
  refine ⟨s, t, hs, happ, happ', ?_⟩
  exact (loader_converges _ _ _ _ hs).1 1 [] t 0 demoVersion 1 ht hret (by simp [hvers])
    (by simp [hreads])

end CloudyNeigh.Query
