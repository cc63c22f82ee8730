import CloudyNeigh.QueryObserve
import CloudyNeigh.Storage

/-!
# Applying mutations

How the loader applies one decoded mutation and a list of them, on the columns
and on the view, and that a list which has been applied can be applied again
without effect.
-/
namespace CloudyNeigh.Query
open Replay Storage VectorFormat RecordIO

def Record.NoNil (r : Record) : Prop :=
  (∀ e ∈ r.Vectors.entries, e.2 ≠ none) ∧ Query.NoNil r.Attributes

/-- `proto.Unmarshal` of the two messages that the loader decodes. The values of
a decoded map are never nil. -/
structure Decoder where
  mutation : Bytes → Option DocumentMutation
  record : Bytes → Option Record
  record_noNil : ∀ b r, record b = some r → r.NoNil

inductive LoadErr
  | interrupted
  | scan (e : ScanErr)
  | unmarshalMutation
  | unmarshalRecord
  | upsert (id : String) (e : UpsertErr)
  | unknownOp (op : MutationOp)
  deriving DecidableEq, Repr

def Table.applyMutation (A : Arith) (D : Decoder) (t : Table) (m : DocumentMutation) :
    Except LoadErr Table :=
  match m.op with
  | .put =>
    match D.record m.payload with
    | none => .error .unmarshalRecord
    | some rec =>
      match t.UpsertRecord A (some rec) with
      | .error e => .error (.upsert rec.Id e)
      | .ok t' => .ok t'
  | .delete => .ok (t.Delete m.docId).1
  | .unspecified => .error (.unknownOp .unspecified)

def Table.applyAll (A : Arith) (D : Decoder) :
    Table → List DocumentMutation → Except LoadErr Table
  | t, [] => .ok t
  | t, m :: ms =>
    match t.applyMutation A D m with
    | .error e => .error e
    | .ok t' => t'.applyAll A D ms

def View.UpsertRecord (A : Arith) (is16 : Bool) (v : View) (rec : Record) :
    Except UpsertErr View :=
  match rec.Vectors.entries.find? fun e => e.2.isNone with
  | some e => .error (.nilVector e.1)
  | none => v.Upsert A is16 rec.Id (GoMap.map (fun x => x.getD []) rec.Vectors) rec.Attributes

def View.applyMutation (A : Arith) (D : Decoder) (is16 : Bool) (v : View)
    (m : DocumentMutation) : Except LoadErr View :=
  match m.op with
  | .put =>
    match D.record m.payload with
    | none => .error .unmarshalRecord
    | some rec =>
      match v.UpsertRecord A is16 rec with
      | .error e => .error (.upsert rec.Id e)
      | .ok v' => .ok v'
  | .delete => .ok (v.Delete m.docId)
  | .unspecified => .error (.unknownOp .unspecified)

def View.applyAll (A : Arith) (D : Decoder) (is16 : Bool) :
    View → List DocumentMutation → Except LoadErr View
  | v, [] => .ok v
  | v, m :: ms =>
    match v.applyMutation A D is16 m with
    | .error e => .error e
    | .ok v' => v'.applyAll A D is16 ms

section Refinement
variable {A : Arith} {D : Decoder} {k : Kernels} {t : Table} {v : View}

lemma Table.Represents.upsertRecord (h : t.Represents k v) {rec : Record} (hn : rec.NoNil) :
    Agrees k (t.UpsertRecord A (some rec)) (v.UpsertRecord A k.is16 rec) := by
  unfold Table.UpsertRecord View.UpsertRecord
  dsimp only
  cases rec.Vectors.entries.find? fun e => e.2.isNone with
  | some e => exact .error _
  | none => exact h.upsert A _ (hn.2.clears t _)

theorem Table.Represents.applyMutation (h : t.Represents k v) (A : Arith) (D : Decoder)
    (m : DocumentMutation) :
    Agrees k (t.applyMutation A D m) (v.applyMutation A D k.is16 m) := by
  unfold Table.applyMutation View.applyMutation
  cases m.op with
  | unspecified => exact .error _
  | delete => exact .ok (h.delete m.docId)
  | put =>
    cases hrec : D.record m.payload with
    | none => exact .error _
    | some rec =>
      rcases (h.upsertRecord (D.record_noNil _ _ hrec)).elim with
        ⟨t', v', ht, hv, hr⟩ | ⟨e, ht, hv⟩
      · dsimp only
        rw [ht, hv]
        exact .ok hr
      · dsimp only
        rw [ht, hv]
        exact .error _

theorem Table.Represents.applyAll (h : t.Represents k v) (A : Arith) (D : Decoder)
    (ms : List DocumentMutation) :
    Agrees k (t.applyAll A D ms) (v.applyAll A D k.is16 ms) := by
  induction ms generalizing t v with
  | nil => exact .ok h
  | cons m ms ih =>
    unfold Table.applyAll View.applyAll
    rcases (h.applyMutation A D m).elim with ⟨t', v', ht, hv, hr⟩ | ⟨e, ht, hv⟩
    · simp only [ht, hv]
      exact ih hr
    · simp only [ht, hv]
      exact .error e

lemma Table.Represents.applyAll_ok (h : t.Represents k v) {A : Arith} {D : Decoder}
    {ms : List DocumentMutation} {t' : Table} (ht : t.applyAll A D ms = .ok t') :
    ∃ w, v.applyAll A D k.is16 ms = .ok w ∧ t'.Represents k w := by
  rcases (h.applyAll A D ms).elim with ⟨t'', w, ht', hw, hr⟩ | ⟨e, ht', -⟩
  · rw [ht] at ht'
    cases ht'
    exact ⟨w, hw, hr⟩
  · rw [ht] at ht'
    cases ht'

lemma Table.Represents.applyAll_of_view (h : t.Represents k v) {A : Arith} {D : Decoder}
    {ms : List DocumentMutation} {w : View} (hw : v.applyAll A D k.is16 ms = .ok w) :
    ∃ t', t.applyAll A D ms = .ok t' ∧ t'.Represents k w := by
  rcases (h.applyAll A D ms).elim with ⟨t', w', ht, hw', hr⟩ | ⟨e, -, hw'⟩
  · rw [hw] at hw'
    cases hw'
    exact ⟨t', ht, hr⟩
  · rw [hw] at hw'
    cases hw'

end Refinement

section Append
variable {A : Arith} {D : Decoder} {is16 : Bool}

lemma View.applyAll_append {v w : View} {ms ns : List DocumentMutation}
    (h : v.applyAll A D is16 ms = .ok w) :
    v.applyAll A D is16 (ms ++ ns) = w.applyAll A D is16 ns := by
  induction ms generalizing v with
  | nil =>
    cases h
    rfl
  | cons m ms ih =>
    rw [List.cons_append, View.applyAll]
    rw [View.applyAll] at h
    split at h
    · cases h
    · exact ih h

lemma View.applyAll_left {v w : View} {ms ns : List DocumentMutation}
    (h : v.applyAll A D is16 (ms ++ ns) = .ok w) : ∃ u, v.applyAll A D is16 ms = .ok u := by
  induction ms generalizing v with
  | nil => exact ⟨v, rfl⟩
  | cons m ms ih =>
    rw [List.cons_append, View.applyAll] at h
    rw [View.applyAll]
    split at h
    · cases h
    · exact ih h

end Append

end CloudyNeigh.Query
