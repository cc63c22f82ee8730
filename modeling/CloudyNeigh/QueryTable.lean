import CloudyNeigh.Blocks
import CloudyNeigh.VectorFormat
import Mathlib.Data.List.AList
import Mathlib.Logic.Function.Basic

/-!
# The columnar table

Maps that a function receives are association lists: their order is the order in
which this execution ranges over them. Maps that the table owns are functions,
since every loop over them treats each key on its own.

`Upsert` and `applyMutation` appear on four levels. `Table`, here, is what the loader and the
engine are verified with. `GoTable` has the maps, the nil slices and the panics of the code,
and refines it (`GoTable.WF.upsert`, `GoTable.WF.applyMutation`). The table on the heap has
the pointers too, and its triples are in terms of `Table` (`OnHeap.upsert_spec`,
`OnHeap.applyMutation_spec`). `View` is above: all that `Get` and `Search` can tell of a
`Table` (`Table.Represents.upsert`, `Table.Represents.applyMutation`,
`Table.Represents.obsEq`).
-/
namespace CloudyNeigh.Query
open Blocks VectorFormat

abbrev GoMap (α : Type*) := AList fun _ : String => α

def GoMap.map {α β : Type*} (f : α → β) (m : GoMap α) : GoMap β :=
  ⟨m.entries.map (.map id fun _ => f), List.NodupKeys.map₂ (fun _ => f) m.entries m.nodupKeys⟩

lemma GoMap.lookup_map {α β : Type*} (f : α → β) (m : GoMap α) (k : String) :
    (GoMap.map f m).lookup k = (m.lookup k).map f :=
  List.dlookup_map₂ k

/-- The `oneof` has one member so far. -/
structure AttributeValue where
  stringValue : Option String
  deriving DecidableEq, Repr

/-- A record as the API has it: a map of messages can hold nil. -/
structure Record where
  Id : String
  Vectors : GoMap (Option (List F32))
  Attributes : GoMap (Option AttributeValue)

structure FlatVectorCol where
  dim : ℕ
  data : List F32
  -- `none` is nil, which `recordAt` and `Search` test for
  data16 : Option (List F16)
  hasVec : List Bool
  invNorms : List F32
  deriving DecidableEq, Repr

def vectorInvNorm (A : Arith) (v : List F32) : F32 :=
  let normSq := v.foldl (fun acc x => A.add acc (A.mul x x)) F32.zero
  if normSq.eq F32.zero then F32.zero else A.invSqrt normSq

structure Table where
  numRows : ℕ := 0
  docIDs : List String := []
  index : String → Option ℕ := fun _ => none
  tombstones : List Bool := []
  vectors : String → Option FlatVectorCol := fun _ => none
  attrs : String → Option (List (Option AttributeValue)) := fun _ => none
  kernels : Kernels

def NewTable (kernels : Kernels) : Table := { kernels := kernels }

structure StagedVector where
  values : List F32
  data16 : List F16
  invNorm : F32
  deriving DecidableEq, Repr

inductive UpsertErr
  | emptyID
  | dimensionMismatch (col : String) (dim got : ℕ)
  | encode (col : String) (e : EncodeErr)
  | nilRecord
  | nilVector (name : String)
  deriving DecidableEq, Repr

section Columns

def newVectorCol (is16 : Bool) (numRows dim : ℕ) : FlatVectorCol where
  dim := dim
  data := if is16 then [] else List.replicate (numRows * dim) F32.zero
  data16 := if is16 then some (List.replicate (numRows * dim) 0) else none
  hasVec := List.replicate numRows false
  invNorms := List.replicate numRows F32.zero

def FlatVectorCol.clearRow (c : FlatVectorCol) (row : ℕ) : FlatVectorCol :=
  { c with hasVec := c.hasVec.set row false, invNorms := c.invNorms.set row F32.zero }

def FlatVectorCol.setRow (c : FlatVectorCol) (is16 : Bool) (row : ℕ) (sv : StagedVector) :
    FlatVectorCol :=
  { c with
    data := if is16 then c.data else copyAt c.data (row * c.dim) sv.values
    data16 := if is16 then c.data16.map fun d => copyAt d (row * c.dim) sv.data16 else c.data16
    hasVec := c.hasVec.set row true
    invNorms := c.invNorms.set row sv.invNorm }

/-- The row that an insert appends; a column without a vector in this call gets zeros. -/
def FlatVectorCol.pushRow (c : FlatVectorCol) (is16 : Bool) (o : Option StagedVector) :
    FlatVectorCol :=
  let values := (o.map StagedVector.values).getD (List.replicate c.dim F32.zero)
  let values16 := (o.map StagedVector.data16).getD (List.replicate c.dim 0)
  { c with
    data := if is16 then c.data else c.data ++ values
    data16 := if is16 then c.data16.map (· ++ values16) else c.data16
    hasVec := c.hasVec ++ [o.isSome]
    invNorms := c.invNorms ++ [(o.map StagedVector.invNorm).getD F32.zero] }

end Columns

def stageVector (A : Arith) (is16 : Bool) (vec : List F32) : Except EncodeErr StagedVector :=
  if is16 then
    match EncodeFP16 vec with
    | .ok data16 => .ok ⟨vec, data16, vectorInvNorm A vec⟩
    | .error e => .error e
  else .ok ⟨vec, [], vectorInvNorm A vec⟩

/-- The first loop of `Upsert`: every check is made here, before any write. -/
def stage (A : Arith) (is16 : Bool) (dims : String → Option ℕ) :
    List (Σ _ : String, List F32) → (String → Option StagedVector) →
      Except UpsertErr (String → Option StagedVector)
  | [], staged => .ok staged
  | ⟨col, vec⟩ :: rest, staged =>
    if vec = [] then stage A is16 dims rest staged
    else if (dims col).any (· ≠ vec.length) then
      .error (.dimensionMismatch col ((dims col).getD 0) vec.length)
    else
      match stageVector A is16 vec with
      | .error e => .error (.encode col e)
      | .ok sv => stage A is16 dims rest (Function.update staged col (some sv))

def Table.dims (t : Table) (col : String) : Option ℕ := (t.vectors col).map FlatVectorCol.dim

/-- The loops that create the missing columns. -/
def Table.addColumns (t : Table) (staged : String → Option StagedVector)
    (attrs : GoMap (Option AttributeValue)) : Table :=
  { t with
    vectors := fun col => (t.vectors col).or ((staged col).map fun sv =>
      newVectorCol t.kernels.is16 t.numRows sv.values.length)
    attrs := fun k => (t.attrs k).or ((attrs.lookup k).join.map fun _ =>
      List.replicate t.numRows none) }

def Table.isTombstoned (t : Table) (row : ℕ) : Bool := t.tombstones.getD row false

/-- An upsert of a deleted document first blanks what the call does not supply. -/
def Table.reviveRow (t : Table) (row : ℕ) (staged : String → Option StagedVector)
    (attrs : GoMap (Option AttributeValue)) : Table :=
  if t.isTombstoned row then
    { t with
      attrs := fun k => (t.attrs k).map fun c =>
        if (attrs.lookup k).isSome then c else c.set row none
      vectors := fun col => (t.vectors col).map fun c =>
        if (staged col).isSome then c else c.clearRow row }
  else t

def Table.overwriteRow (t : Table) (row : ℕ) (staged : String → Option StagedVector)
    (attrs : GoMap (Option AttributeValue)) : Table :=
  { t with
    tombstones := t.tombstones.set row false
    vectors := fun col => (t.vectors col).map fun c =>
      match staged col with
      | some sv => c.setRow t.kernels.is16 row sv
      | none => c
    attrs := fun k => (t.attrs k).map fun c =>
      match (attrs.lookup k).join with
      | some v => c.set row (some v)
      | none => c }

def Table.insertRow (t : Table) (id : String) (staged : String → Option StagedVector)
    (attrs : GoMap (Option AttributeValue)) : Table :=
  { t with
    docIDs := t.docIDs ++ [id]
    tombstones := t.tombstones ++ [false]
    index := Function.update t.index id (some t.numRows)
    vectors := fun col => (t.vectors col).map fun c => c.pushRow t.kernels.is16 (staged col)
    attrs := fun k => (t.attrs k).map fun c => c ++ [(attrs.lookup k).join]
    numRows := t.numRows + 1 }

def Table.Upsert (A : Arith) (t : Table) (id : String) (vectors : GoMap (List F32))
    (attrs : GoMap (Option AttributeValue)) : Except UpsertErr Table :=
  if id = "" then .error .emptyID
  else
    match stage A t.kernels.is16 t.dims vectors.entries (fun _ => none) with
    | .error e => .error e
    | .ok staged =>
      let t := t.addColumns staged attrs
      match t.index id with
      | some row => .ok ((t.reviveRow row staged attrs).overwriteRow row staged attrs)
      | none => .ok (t.insertRow id staged attrs)

def Table.UpsertRecord (A : Arith) (t : Table) : Option Record → Except UpsertErr Table
  | none => .error .nilRecord
  | some rec =>
    match rec.Vectors.entries.find? fun e => e.2.isNone with
    | some e => .error (.nilVector e.1)
    | none => t.Upsert A rec.Id (GoMap.map (fun v => v.getD []) rec.Vectors) rec.Attributes

/-- The table afterwards and whether a live document was deleted. -/
def Table.Delete (t : Table) (id : String) : Table × Bool :=
  match t.index id with
  | none => (t, false)
  | some row =>
    if t.isTombstoned row then (t, false)
    else ({ t with tombstones := t.tombstones.set row true }, true)

/-- What `Get` and `Search` return for a document: maps read by their keys. -/
@[ext] structure Result where
  Id : String
  Vectors : String → Option (List F32)
  Attributes : String → Option AttributeValue

def Table.recordAt (t : Table) (row : ℕ) (id : String) : Result where
  Id := id
  Vectors := fun col =>
    match t.vectors col with
    | none => none
    | some c =>
      if c.hasVec.getD row false then
        match c.data16 with
        | some d => some (t.kernels.Decode16 (slice d (row * c.dim) c.dim))
        | none => some (slice c.data (row * c.dim) c.dim)
      else none
  Attributes := fun k =>
    match t.attrs k with
    | none => none
    | some c => c.getD row none

def Table.Get (t : Table) (id : String) : Option Result :=
  match t.index id with
  | none => none
  | some row => if t.isTombstoned row then none else some (t.recordAt row id)

end CloudyNeigh.Query
