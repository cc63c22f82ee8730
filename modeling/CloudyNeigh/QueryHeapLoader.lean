import CloudyNeigh.QueryHeapSearch
import CloudyNeigh.QueryLoader

/-!
# A pass of the loader on the heap

`Loader.Sync` clones the published table when it comes to its first segment and applies
the mutations to the clone. The pass reads the published table, writes none of its
objects, and makes of the clone what the pass makes of the value of the table.
-/
namespace CloudyNeigh.Query.OnHeap
open Checked HeapLogic RecordIO Storage VectorFormat

/-- The fields of the loader; `table` is what its atomic pointer holds. -/
structure Loader where
  applied : ℕ
  lastGen : String
  table : ℕ
  deriving DecidableEq, Repr

/-- The loop over the segments: `table` is nil before the first one. -/
structure Pass where
  table : Option ℕ
  applied : ℕ
  loaded : ℕ
  count : ℕ
  err : Option SyncErr
  deriving DecidableEq, Repr

section Code
variable (A : Arith) (D : Decoder) (O : ℕ → ℕ → RangeOrder String) (grow : Kind → ℕ → ℕ → ℕ)
  (segs : Bytes → Option Bytes)

def applyMutation (R : RangeOrder String) (p : ℕ) (m : DocumentMutation) : Cmd (Option LoadErr) :=
  match m.op with
  | .put =>
    match D.record m.payload with
    | none => .ret (some .unmarshalRecord)
    | some rec => do
      let e ← UpsertRecord A R grow p (some rec)
      .ret (e.map (.upsert rec.Id))
  | .delete => do
    let _ ← Delete p m.docId
    .ret none
  | .unspecified => .ret (some (.unknownOp .unspecified))

/-- The number of the mutations applied and the error of one segment; its `n`-th
mutation takes the orders `R n`. -/
def loadRecords (R : ℕ → RangeOrder String) (p : ℕ) :
    ℕ → List Bytes → Option ScanErr → Option ℕ → Cmd (ℕ × Option LoadErr)
  | count, records, scanErr, cut =>
    if cut = some 0 then .ret (count, some .interrupted)
    else
      match records with
      | [] => .ret (count, scanErr.map LoadErr.scan)
      | r :: rs =>
        match D.mutation r with
        | none => .ret (count, some .unmarshalMutation)
        | some m => do
          let e ← applyMutation A D grow (R count) p m
          if e.isSome then .ret (count, e)
          else loadRecords R p (count + 1) rs scanErr (cut.map (· - 1))

def loadSegment (R : ℕ → RangeOrder String) (p : ℕ) (ref : SegmentRef) (fault : Fault) :
    Cmd (Option (ℕ × Option LoadErr)) :=
  if fault = .get then .ret none
  else
    match segs ref.segmentId with
    | none => .ret none
    | some data => do
      let out ← loadRecords A D grow R p 0 (readAll data).1 (readAll data).2.err fault.cut
      .ret (some out)

/-- The clone of the published table is made once. -/
def cloneOnce (published : ℕ) (loaded : ℕ) : Option ℕ → Cmd ℕ
  | none => Clone (O loaded 0) grow published
  | some p => .ret p

def syncLoop (published : ℕ) : Option ℕ → ℕ → ℕ → List SegmentRef → List Fault → Cmd Pass
  | t, applied, loaded, [], _ => .ret ⟨t, applied, loaded, 0, none⟩
  | t, applied, loaded, ref :: refs, faults => do
    let p ← cloneOnce O grow published loaded t
    match ← loadSegment A D grow segs (O loaded) p ref (faults.headD .none) with
    | none => .ret ⟨some p, applied, loaded, 0, some (.getSegment ref.segmentId)⟩
    | some (count, some e) => .ret ⟨some p, applied, loaded, count, some (.load ref.segmentId e)⟩
    | some (_, none) => syncLoop published (some p) (applied + 1) (loaded + 1) refs faults.tail

def Loader.pass (l : Loader) (m : BranchManifest) (faults : List Fault) : Cmd Pass :=
  syncLoop A D O grow segs l.table none l.applied 0 (m.segments.drop l.applied) faults

/-- What `Sync` stores when its loop is done. -/
def Loader.publish (l : Loader) (gen : String) (p : Pass) : Loader :=
  match p.err with
  | some _ => { l with
      applied := p.applied
      table := if 0 < p.loaded then p.table.getD l.table else l.table }
  | none => ⟨p.applied, gen, p.table.getD l.table⟩

end Code

section Invariant
variable {A : Arith} {D : Decoder} {t u : Table}

lemma upsert_wf (hwf : t.WF) {id : String} {vectors : GoMap (List F32)}
    {attrs : GoMap (Option AttributeValue)} (hu : t.Upsert A id vectors attrs = .ok u) : u.WF := by
  obtain ⟨-, staged, -, hwf₁, hrd, ⟨row, hi, rfl⟩ | ⟨hi, rfl⟩⟩ := hwf.upsert_cases hu
  · have hlt : row < t.numRows := hwf.row_lt hi
    exact (hwf₁.reviveRow row).overwriteRow (by rw [reviveRow_numRows]; exact hlt) (hrd.reviveRow row)
  · exact hwf₁.insertRow hrd hi

lemma delete_wf (hwf : t.WF) (id : String) : (t.Delete id).1.WF := by
  unfold Table.Delete
  split
  · exact hwf
  · split
    · exact hwf
    · exact hwf.setTombstone _

lemma applyMutation_wf (hwf : t.WF) {m : DocumentMutation} (h : t.applyMutation A D m = .ok u) :
    u.WF := by
  unfold Table.applyMutation at h
  split at h
  · split at h
    · cases h
    · rename_i rec _
      split at h
      · cases h
      · rename_i t' hu
        cases h
        unfold Table.UpsertRecord at hu
        simp only at hu
        split at hu
        · cases hu
        · exact upsert_wf hwf hu
  · cases h
    exact delete_wf hwf _
  · cases h

lemma applyAll_wf {ms : List DocumentMutation} (hwf : t.WF) (h : t.applyAll A D ms = .ok u) :
    u.WF := by
  induction ms generalizing t with
  | nil =>
    cases h
    exact hwf
  | cons m ms ih =>
    unfold Table.applyAll at h
    split at h
    · cases h
    · rename_i t' ht
      exact ih (applyMutation_wf hwf ht) h

end Invariant

section Records
variable {A : Arith} {D : Decoder} {grow : Kind → ℕ → ℕ → ℕ} {segs : Bytes → Option Bytes}
  {V : HeapLogic.View Elem} {p : ℕ} {t : Table}

/-- What a mutation leaves behind a pointer; the error may name another column. -/
def applied (p : ℕ) (t : Table) : Except LoadErr Table → Option LoadErr → Assertion Elem
  | .ok u, e => .given (e = none) (tableAt p u)
  | .error _, e => .given (e.isSome = true) (tableAt p t)

lemma applyMutation_spec (hwf : t.WF) (R : RangeOrder String) (m : DocumentMutation) :
    Triple V (tableAt p t) (applyMutation A D grow R p m) (applied p t (t.applyMutation A D m)) := by
  unfold applyMutation Table.applyMutation
  cases m.op with
  | unspecified => exact Triple.ret fun W hW => ⟨rfl, hW⟩
  | delete =>
    exact Triple.bind (delete_spec hwf m.docId) fun _ => Triple.of_given fun _ =>
      Triple.ret fun W hW => ⟨rfl, hW⟩
  | put =>
    dsimp only
    cases D.record m.payload with
    | none => exact Triple.ret fun W hW => ⟨rfl, hW⟩
    | some rec =>
      obtain ⟨x, hx, hspec⟩ : ∃ x : Except UpsertErr Table,
          (∀ u, x = .ok u ↔ t.UpsertRecord A (some rec) = .ok u) ∧
          Triple V (tableAt p t) (UpsertRecord A R grow p (some rec)) (upserted p t x) :=
        upsertRecord_spec hwf A (some rec)
      refine Triple.bind hspec fun e => Triple.ret ?_
      dsimp only
      cases x with
      | ok u =>
        rw [(hx u).mp rfl]
        rintro W ⟨rfl, hW⟩
        exact ⟨rfl, hW⟩
      | error e' =>
        cases hu : t.UpsertRecord A (some rec) with
        | ok u => cases (hx u).mpr hu
        | error e'' =>
          rintro W ⟨rfl, hW⟩
          exact ⟨rfl, hW⟩

lemma loadRecords_spec (hwf : t.WF) (R : ℕ → RangeOrder String) (count : ℕ) (records : List Bytes)
    (scanErr : Option ScanErr) (cut : Option ℕ) :
    Triple V (tableAt p t) (loadRecords A D grow R p count records scanErr cut) fun out =>
      .given (out.1 = (Query.loadRecords A D t count records scanErr cut).count ∧
        out.2.isSome = (Query.loadRecords A D t count records scanErr cut).err.isSome)
        (tableAt p (Query.loadRecords A D t count records scanErr cut).table) := by
  induction records generalizing t count cut with
  | nil =>
    unfold loadRecords Query.loadRecords
    split
    · exact Triple.ret fun W hW => ⟨⟨rfl, rfl⟩, hW⟩
    · exact Triple.ret fun W hW => ⟨⟨rfl, rfl⟩, hW⟩
  | cons r rs ih =>
    unfold loadRecords Query.loadRecords
    split
    · exact Triple.ret fun W hW => ⟨⟨rfl, rfl⟩, hW⟩
    · dsimp only
      cases D.mutation r with
      | none => exact Triple.ret fun W hW => ⟨⟨rfl, rfl⟩, hW⟩
      | some m =>
        refine Triple.bind (applyMutation_spec hwf (R count) m) fun e => ?_
        dsimp only
        cases hm : t.applyMutation A D m with
        | ok u =>
          refine Triple.of_given fun he => ?_
          subst he
          exact ih (applyMutation_wf hwf hm) (count + 1) (cut.map (· - 1))
        | error e' =>
          refine Triple.of_given fun he => ?_
          rw [if_pos he]
          exact Triple.ret fun W hW => ⟨⟨rfl, he⟩, hW⟩

lemma loadRecords_wf (hwf : t.WF) (count : ℕ) (records : List Bytes) (scanErr : Option ScanErr)
    (cut : Option ℕ) : (Query.loadRecords A D t count records scanErr cut).table.WF := by
  obtain ⟨qs, -, happ, -⟩ := @Query.loadRecords_spec A D t count records scanErr cut _ rfl
  exact applyAll_wf hwf happ

end Records

section Passes
variable {A : Arith} {D : Decoder} {O : ℕ → ℕ → RangeOrder String} {grow : Kind → ℕ → ℕ → ℕ}
  {segs : Bytes → Option Bytes} {V : HeapLogic.View Elem} {published : ℕ} {t₀ t : Table}

/-- The table of a pass: the published one until there is a clone. -/
def passAt (t₀ : Table) : Option ℕ → Table → Assertion Elem
  | none, t => .given (t = t₀) 1
  | some p, t => tableAt p t

/-- The end of a pass on the heap next to the end of the pass on values. -/
def Ends (t₀ : Table) (v : Query.Pass) (out : Pass) : Assertion Elem :=
  .given (out.applied = v.applied ∧ out.loaded = v.loaded ∧ out.count = v.count ∧
    out.err.isSome = v.err.isSome) (passAt t₀ out.table v.table)

lemma cloneOnce_spec (hV : tableAt published t₀ V) (loaded : ℕ) (cur : Option ℕ) :
    Triple V (passAt t₀ cur t) (cloneOnce O grow published loaded cur) fun p => tableAt p t := by
  cases cur with
  | none =>
    refine Triple.of_given fun ht => ?_
    subst ht
    exact clone_spec hV
  | some p => exact Triple.ret le_rfl

/-- What a segment leaves behind a pointer. -/
def segmentLoaded (p : ℕ) (t : Table) :
    Option Loaded → Option (ℕ × Option LoadErr) → Assertion Elem
  | none, out => .given (out = none) (tableAt p t)
  | some v, out => .ex fun o : ℕ × Option LoadErr =>
      .given (out = some o ∧ o.1 = v.count ∧ o.2.isSome = v.err.isSome) (tableAt p v.table)

lemma loadSegment_spec {p : ℕ} (hwf : t.WF) (R : ℕ → RangeOrder String) (ref : SegmentRef)
    (fault : Fault) :
    Triple V (tableAt p t) (loadSegment A D grow segs R p ref fault)
      (segmentLoaded p t (Query.loadSegment A D segs t ref fault)) := by
  unfold loadSegment Query.loadSegment
  split
  · exact Triple.ret fun W hW => ⟨rfl, hW⟩
  · cases segs ref.segmentId with
    | none => exact Triple.ret fun W hW => ⟨rfl, hW⟩
    | some data =>
      refine Triple.bind (loadRecords_spec hwf R 0 _ _ _) fun out => Triple.of_given fun ho => ?_
      exact Triple.ret fun W hW => ⟨out, ⟨rfl, ho⟩, hW⟩

lemma loadSegment_wf (hwf : t.WF) {ref : SegmentRef} {fault : Fault} {out : Loaded}
    (h : Query.loadSegment A D segs t ref fault = some out) : out.table.WF := by
  obtain ⟨qs, -, happ, -⟩ := Query.loadSegment_spec h
  exact applyAll_wf hwf happ

lemma syncLoop_spec (hV : tableAt published t₀ V) (hwf : t.WF) (cur : Option ℕ) (applied loaded : ℕ)
    (refs : List SegmentRef) (faults : List Fault) :
    Triple V (passAt t₀ cur t) (syncLoop A D O grow segs published cur applied loaded refs faults)
      (Ends t₀ (Query.syncLoop A D segs t applied loaded refs faults)) := by
  induction refs generalizing t cur applied loaded faults with
  | nil => exact Triple.ret fun W hW => ⟨⟨rfl, rfl, rfl, rfl⟩, hW⟩
  | cons ref refs ih =>
    refine Triple.bind (cloneOnce_spec hV loaded cur) fun p => ?_
    refine Triple.bind (loadSegment_spec hwf (O loaded) ref (faults.headD .none)) fun out => ?_
    rw [Query.syncLoop]
    cases hs : Query.loadSegment A D segs t ref (faults.headD .none) with
    | none =>
      refine Triple.of_given fun ho => ?_
      subst ho
      exact Triple.ret fun W hW => ⟨⟨rfl, rfl, rfl, rfl⟩, hW⟩
    | some v =>
      refine Triple.of_ex fun o => Triple.of_given fun ho => ?_
      obtain ⟨rfl, hcount, herr⟩ := ho
      obtain ⟨count, e⟩ := o
      dsimp only at hcount herr ⊢
      cases hv : v.err with
      | some e' =>
        rw [hv] at herr
        obtain ⟨e'', rfl⟩ := Option.isSome_iff_exists.mp herr
        exact Triple.ret fun W hW => ⟨⟨rfl, rfl, hcount, rfl⟩, hW⟩
      | none =>
        rw [hv] at herr
        cases e with
        | some e'' => cases herr
        | none => exact ih (loadSegment_wf hwf hs) (some p) (applied + 1) (loaded + 1) faults.tail

lemma syncLoop_wf (hwf : t.WF) (applied loaded : ℕ) (refs : List SegmentRef) (faults : List Fault) :
    (Query.syncLoop A D segs t applied loaded refs faults).table.WF := by
  induction refs generalizing t applied loaded faults with
  | nil => exact hwf
  | cons ref refs ih =>
    rw [Query.syncLoop]
    cases hs : Query.loadSegment A D segs t ref (faults.headD .none) with
    | none => exact hwf
    | some v =>
      dsimp only
      cases v.err with
      | some e => exact loadSegment_wf hwf hs
      | none => exact ih (loadSegment_wf hwf hs) (applied + 1) (loaded + 1) faults.tail

end Passes

end CloudyNeigh.Query.OnHeap
