import CloudyNeigh.QueryLoaderRuns

/-!
# When the published table holds whole segments only

A pass that fails inside a segment publishes the clone with the part that was
applied, if it loaded a segment before. That is the only way in which a part of
a batch becomes visible.
-/
namespace CloudyNeigh.Query
open RecordIO Replay Storage Transition VectorFormat

section
variable (A : Arith) (D : Decoder) (segs : Bytes → Option Bytes) (k : Kernels)

/-- The table after a segment that can be read and applied as a whole: its object
decodes, the fault does not strike before its end, and every mutation is accepted. -/
def wholeSegment (t : Table) (ref : SegmentRef) (fault : Fault) : Option Table :=
  match (segs ref.segmentId).bind (readSegment D.mutation) with
  | none => none
  | some ms =>
    if fault ≠ .get ∧ fault.cut.all (ms.length < ·) then (t.applyAll A D ms).toOption else none

/-- The first mutation of the segment is read and accepted. -/
def enteredSegment (t : Table) (ref : SegmentRef) (fault : Fault) : Bool :=
  decide (fault ≠ .get ∧ fault.cut ≠ some 0) &&
    match (leadingOf D segs ref).head? with
    | some m => (t.applyMutation A D m).toBool
    | none => false

/-- Some segment beyond the first of these is entered but cannot be applied as a whole,
while all those before it can. -/
def tornSegment : Table → List SegmentRef → List Fault → Bool → Bool
  | _, [], _, _ => false
  | t, ref :: refs, faults, later =>
    match wholeSegment A D segs t ref (faults.headD .none) with
    | some t' => tornSegment t' refs faults.tail true
    | none => later && enteredSegment A D segs t ref (faults.headD .none)

/-- The manifest that a step loads, with the faults that it meets. -/
def loading (s : SyncState) : SyncAction → Option (BranchManifest × List Fault)
  | .locked c faults =>
    match s.calls c with
    | .holding i => s.versions[i]?.map fun v => (v.manifest, faults)
    | _ => none
  | _ => none

/-- None of the segments that the step is about to load is torn. -/
def keepsBatches (s : SyncState) (a : SyncAction) : Prop :=
  match loading s a with
  | some (m, faults) =>
    tornSegment A D segs s.loader.table (m.segments.drop s.loader.applied) faults false = false
  | none => True

instance (s : SyncState) (a : SyncAction) : Decidable (keepsBatches A D segs s a) := by
  unfold keepsBatches
  split <;> infer_instance

end

section
variable {A : Arith} {D : Decoder} {segs : Bytes → Option Bytes} {k : Kernels}
  {s t : SyncState}

lemma loadSegment_whole {tbl : Table} {ref : SegmentRef} {fault : Fault} {out : Loaded}
    (h : loadSegment A D segs tbl ref fault = some out) (herr : out.err = none) :
    wholeSegment A D segs tbl ref fault = some out.table := by
  obtain ⟨qs, -, happ, -, -, hclean⟩ := loadSegment_spec h
  obtain ⟨hseg, hget, hspare⟩ := hclean herr
  have hall : fault.cut.all (qs.length < ·) = true := by
    cases hc : fault.cut with
    | none => rfl
    | some n => simpa using hspare n hc
  simp [wholeSegment, hseg, hget, hall, happ, Except.toOption]

lemma cut_ne_zero {cut : Option ℕ} {len : ℕ} (h : ∀ n ∈ cut, len < n) : cut ≠ some 0 := by
  rintro rfl
  exact absurd (h 0 rfl) (by omega)

lemma loadRecords_whole {tbl tbl' : Table} {count : ℕ} {records : List Bytes}
    {cut : Option ℕ} {ms : List DocumentMutation} (hms : records.mapM D.mutation = some ms)
    (happ : tbl.applyAll A D ms = .ok tbl') (hcut : ∀ n ∈ cut, ms.length < n) :
    (loadRecords A D tbl count records none cut).err = none := by
  induction records generalizing tbl count cut ms with
  | nil => simp [loadRecords, cut_ne_zero hcut]
  | cons r rs ih =>
    simp only [List.mapM_cons, Option.bind_eq_bind, Option.bind_eq_some_iff] at hms
    obtain ⟨m, hm, ms', hms', he⟩ := hms
    cases he
    rw [Table.applyAll] at happ
    unfold loadRecords
    rw [if_neg (cut_ne_zero hcut)]
    dsimp only
    split at happ
    · cases happ
    · rename_i t' ht'
      simp only [hm, ht']
      apply ih hms' happ
      intro n hn
      obtain ⟨n', hn', rfl⟩ := Option.map_eq_some_iff.mp hn
      have := hcut n' hn'
      rw [List.length_cons] at this
      omega

lemma wholeSegment_load {tbl tbl' : Table} {ref : SegmentRef} {fault : Fault}
    (h : wholeSegment A D segs tbl ref fault = some tbl') {out : Loaded}
    (hload : loadSegment A D segs tbl ref fault = some out) : out.err = none := by
  unfold wholeSegment at h
  split at h
  · cases h
  · rename_i ms hms
    split at h
    · rename_i hf
      obtain ⟨data, hdata, hdec⟩ := Option.bind_eq_some_iff.mp hms
      unfold readSegment at hdec
      dsimp only at hdec
      split at hdec
      · rename_i hscan
        unfold loadSegment at hload
        rw [if_neg hf.1] at hload
        simp only [hdata, hscan, Option.some.injEq] at hload
        have happ : tbl.applyAll A D ms = .ok tbl' := by
          cases ha : tbl.applyAll A D ms with
          | ok t' =>
            rw [ha] at h
            cases h
            rfl
          | error e =>
            rw [ha] at h
            cases h
        rw [← hload]
        apply loadRecords_whole hdec happ
        intro n hn
        have := hf.2
        rw [Option.mem_def.mp hn] at this
        simpa using this
      · cases hdec
    · cases h

lemma loadSegment_entered {tbl : Table} {ref : SegmentRef} {fault : Fault} {out : Loaded}
    (h : loadSegment A D segs tbl ref fault = some out) (hcount : 0 < out.count) :
    enteredSegment A D segs tbl ref fault = true := by
  obtain ⟨qs, hq, happ, hlen, hcut, -⟩ := loadSegment_spec h
  cases qs with
  | nil => simp [hlen] at hcount
  | cons m qs =>
    obtain ⟨rest, hrest⟩ := hq
    rw [Table.applyAll] at happ
    split at happ
    · cases happ
    · rename_i t' ht'
      simp [enteredSegment, hcut (by simp), ← hrest, ht', Except.toBool]

/-- If the loop publishes a part of a segment, that segment was torn. -/
lemma syncLoop_torn {tbl : Table} {applied loaded : ℕ} {refs : List SegmentRef}
    {faults : List Fault}
    (hloaded : 0 < (syncLoop A D segs tbl applied loaded refs faults).loaded)
    (hcount : 0 < (syncLoop A D segs tbl applied loaded refs faults).count) :
    tornSegment A D segs tbl refs faults (decide (0 < loaded)) = true := by
  induction refs generalizing tbl applied loaded faults with
  | nil => simp [syncLoop] at hcount
  | cons ref refs ih =>
    unfold syncLoop at hloaded hcount
    unfold tornSegment
    generalize faults.headD .none = fault at hloaded hcount ⊢
    cases hload : loadSegment A D segs tbl ref fault with
    | none =>
      simp only [hload] at hcount
      cases hcount
    | some out =>
      simp only [hload] at hloaded hcount
      cases herr : out.err with
      | none =>
        simp only [herr] at hloaded hcount
        simpa [loadSegment_whole hload herr] using ih hloaded hcount
      | some e =>
        simp only [herr] at hloaded hcount
        cases hw : wholeSegment A D segs tbl ref fault with
        | some t' =>
          rw [wholeSegment_load hw hload] at herr
          cases herr
        | none => simp [hloaded, loadSegment_entered hload hcount]

lemma SyncInv.step_keeps (h : SyncInv A D segs k s []) {a : SyncAction}
    (hok : keepsBatches A D segs s a) (hst : syncStep A D segs s a = some t) :
    SyncInv A D segs k t [] := by
  by_cases ha : ∃ c faults, a = .locked c faults
  · obtain ⟨c, faults, rfl⟩ := ha
    obtain ⟨i, v, n, e, qs', hc, hv, -, ht, he⟩ := h.step_locked hst
    generalize t.loader = l at he
    cases he with
    | shortcut | unchanged | caughtUp | clean => exact ht
    | stopped e grows short stamp loaded count =>
      have hnone : qs' = [] := by
        by_contra hne
        have hcount : 0 < (s.loader.pass A D segs v.manifest faults).count := by
          rw [count]
          exact List.length_pos_iff.mpr hne
        have htorn := syncLoop_torn loaded hcount
        simp only [keepsBatches, loading, hc, hv, Option.map_some] at hok
        exact absurd (htorn.symm.trans hok) (by simp)
      exact hnone ▸ ht
  · push Not at ha
    exact (h.step_other ha hst).2

end

/-- In every run without a torn batch the published table is, after every step, the
first `applied` segments of the manifest, each complete. -/
theorem published_whole_segments (A : Arith) (D : Decoder) (segs : Bytes → Option Bytes)
    (k : Kernels) {s : SyncState}
    (h : (syncMachine A D segs k).Run (keepsBatches A D segs) (syncMachine A D segs k).init s) :
    Shows A D segs k (s.refs.take s.loader.applied) s.loader.table := by
  have hi : SyncInv A D segs k s [] :=
    Machine.Run.preserves (P := fun s => SyncInv A D segs k s [])
      (fun s a t hs hok hst => hs.step_keeps hok hst) h syncInv_init
  exact hi.holds.shows

-- A cancellation between two segments leaves the first one published.
set_option maxRecDepth 8000 in
theorem published_whole_segments_between : ∃ s : SyncState,
    demoMachine.Run (keepsBatches demoArith demoDecoder demoSegs) demoMachine.init s ∧
    s.loader.applied = 1 ∧
    Shows demoArith demoDecoder demoSegs demoKernels (s.refs.take s.loader.applied)
      s.loader.table := by
  obtain ⟨s, hs, happ⟩ := Machine.exec_exists demoMachine
    (keepsBatches demoArith demoDecoder demoSegs) demoMachine.init
    [.publish demoVersion, .readManifest 0 0, .locked 0 [.none, .read 0]]
    (fun s => s.loader.applied = 1) (by decide +kernel)
  exact ⟨s, hs, happ, published_whole_segments _ _ _ _ hs⟩

/-- Cancelled inside the second segment, the loader publishes the put of `b` while
`applied` still counts one segment. -/
def tornGet (s : SyncState) : Bool :=
  (s.loader.table.Get "b").isSome &&
    ((contents demoDecoder demoSegs (s.refs.take s.loader.applied)).any fun ms =>
      match (NewTable demoKernels).applyAll demoArith demoDecoder ms with
      | .ok T => (T.Get "b").isNone
      | .error _ => false)

set_option maxRecDepth 8000 in
theorem published_torn_segment : ∃ s : SyncState, demoMachine.Reachable s ∧
    s.loader.applied = 1 ∧
    ¬ Shows demoArith demoDecoder demoSegs demoKernels (s.refs.take s.loader.applied)
      s.loader.table := by
  obtain ⟨s, hs, happ, htorn⟩ := Machine.exec_exists demoMachine anyStep demoMachine.init
    cancelScript (fun s => s.loader.applied = 1 ∧ tornGet s = true) (by decide +kernel)
  refine ⟨s, hs, happ, ?_⟩
  rintro ⟨ms, T, hms, hT, hget, -⟩
  simp only [tornGet, hms, hT, hget, Option.any_some, Bool.and_eq_true,
    Option.isSome_iff_ne_none, Option.isNone_iff_eq_none] at htorn
  exact htorn.1 htorn.2

end CloudyNeigh.Query
