import CloudyNeigh.QuerySearch
import CloudyNeigh.Replay

/-!
# The table as a map of documents

What `Get` and `Search` can tell about a table: the order of its rows, the live
documents, the dimensions of the vector columns and the attributes that have a
column. On this level an upsert lays the new values over the old document.
-/
namespace CloudyNeigh.Query
open Replay VectorFormat

structure StoredVec where
  cell : Cell
  invNorm : F32
  deriving DecidableEq, Repr

abbrev Doc := (String → Option StoredVec) × (String → Option AttributeValue)

@[ext] structure View where
  order : List String
  doc : String → Option Doc
  dims : String → Option ℕ
  cols : String → Bool

def View.empty : View := ⟨[], fun _ => none, fun _ => none, fun _ => false⟩

def StagedVector.stored (sv : StagedVector) (is16 : Bool) : StoredVec :=
  ⟨if is16 then .f16 sv.data16 else .f32 sv.values, sv.invNorm⟩

def patchOf (is16 : Bool) (staged : String → Option StagedVector)
    (attrs : GoMap (Option AttributeValue)) : Doc :=
  (fun col => (staged col).map fun sv => sv.stored is16, fun k => (attrs.lookup k).join)

def View.write (v : View) (is16 : Bool) (id : String) (staged : String → Option StagedVector)
    (attrs : GoMap (Option AttributeValue)) : View where
  order := addKey v.order id
  doc := Function.update v.doc id ((Edit.patch (patchOf is16 staged attrs)).apply (v.doc id))
  dims := fun col => (v.dims col).or ((staged col).map fun sv => sv.values.length)
  cols := fun k => v.cols k || (attrs.lookup k).join.isSome

def View.Upsert (A : Arith) (is16 : Bool) (v : View) (id : String) (vectors : GoMap (List F32))
    (attrs : GoMap (Option AttributeValue)) : Except UpsertErr View :=
  if id = "" then .error .emptyID
  else
    match stage A is16 v.dims vectors.entries (fun _ => none) with
    | .error e => .error e
    | .ok staged => .ok (v.write is16 id staged attrs)

def View.Delete (v : View) (id : String) : View :=
  { v with doc := Function.update v.doc id none }

def Kernels.decode (k : Kernels) : Cell → List F32
  | .f32 values => values
  | .f16 values => k.Decode16 values

def render (k : Kernels) (id : String) (d : Doc) : Result :=
  ⟨id, fun col => (d.1 col).map fun sv => Kernels.decode k sv.cell, d.2⟩

def View.Get (k : Kernels) (v : View) (id : String) : Option Result := (v.doc id).map (render k id)

def Doc.rowScore (A : Arith) (k : Kernels) (col : String) (p : Plan) (query : List F32)
    (filter : Option EqualityFilter) (d : Doc) : Option F32 :=
  (d.1 col).bind fun sv =>
    if passes filter (filter.bind fun f => d.2 f.Field) then
      score A k p query sv.cell sv.invNorm
    else none

def View.scanRow (A : Arith) (k : Kernels) (v : View) (col : String) (p : Plan)
    (query : List F32) (topK : ℕ) (filter : Option EqualityFilter) (hits : List SearchHit)
    (row : ℕ) : List SearchHit :=
  let id := v.order.getD row ""
  match (v.doc id).bind (Doc.rowScore A k col p query filter) with
  | none => hits
  | some score => offer p topK hits ⟨row, id, score⟩

def View.Search (A : Arith) (k : Kernels) (v : View) (col : String) (query : List F32) (topK : ℤ)
    (metric : DistanceMetric) (filter : Option EqualityFilter) :
    Except SearchErr (List ScoredResult) :=
  if topK ≤ 0 then .ok []
  else
    match v.dims col with
    | none => .ok []
    | some dim =>
      if v.order.length = 0 then .ok []
      else if query.length ≠ dim then .error .dimensionMismatch
      else
        match plan A query metric with
        | .error e => .error e
        | .ok p =>
          if filter.any (fun f => !v.cols f.Field) then .ok []
          else
            let hits := (List.range v.order.length).foldl
              (v.scanRow A k col p query topK.toNat filter) []
            .ok ((sortFunc p.cmp hits).map fun h =>
              ⟨render k h.id ((v.doc h.id).getD Overlay.blank), h.score⟩)

/-- Tables that no call of `Get` or `Search` tells apart. -/
def ObsEq (A : Arith) (t t' : Table) : Prop :=
  (∀ id, t.Get id = t'.Get id) ∧
    ∀ col query topK metric filter,
      t.Search A col query topK metric filter = t'.Search A col query topK metric filter

def FlatVectorCol.at (c : FlatVectorCol) (row : ℕ) : Option StoredVec :=
  if c.hasVec.getD row false then some ⟨c.cell row, c.invNorms.getD row F32.zero⟩ else none

def Table.docAt (t : Table) (row : ℕ) : Doc :=
  (fun col => (t.vectors col).bind fun c => c.at row,
    fun k => (t.attrs k).bind fun c => c.getD row none)

def Table.view (t : Table) : View where
  order := t.docIDs
  doc := fun id => (t.index id).bind fun row =>
    if t.isTombstoned row then none else some (t.docAt row)
  dims := t.dims
  cols := fun k => (t.attrs k).isSome

lemma newTable_view (k : Kernels) : (NewTable k).view = View.empty := rfl

lemma Table.recordAt_eq (t : Table) (row : ℕ) (id : String) :
    t.recordAt row id = render t.kernels id (t.docAt row) := by
  ext col x
  · rfl
  · simp only [Table.recordAt, render, Table.docAt]
    cases t.vectors col with
    | none => rfl
    | some c =>
      simp only [Option.bind_some, FlatVectorCol.at, FlatVectorCol.cell]
      split
      · cases c.data16 <;> rfl
      · rfl
  · simp only [Table.recordAt, render, Table.docAt]
    cases t.attrs col <;> rfl

theorem Table.get_view (t : Table) (id : String) : t.Get id = t.view.Get t.kernels id := by
  unfold Table.Get View.Get
  simp only [Table.view]
  cases t.index id with
  | none => rfl
  | some row =>
    simp only [Option.bind_some, Table.recordAt_eq]
    split <;> rfl

end CloudyNeigh.Query
