import CloudyNeigh.Checked
import CloudyNeigh.QuerySearch

/-!
# The table with its index expressions

The functions of the table once more, on finite maps, with slices that may be nil
and with every index and slice expression checked: `none` is a panic. Each loop
over a map takes the order of its own number in `R`. An operation that returns an
error also returns the table that it leaves behind.
-/
namespace CloudyNeigh.Query
open Blocks Checked ContainerHeap VectorFormat

structure GoCol where
  dim : ℕ
  data : Option (List F32)
  data16 : Option (List F16)
  hasVec : List Bool
  invNorms : List F32
  deriving DecidableEq, Repr

structure GoTable where
  numRows : ℕ := 0
  docIDs : List String := []
  index : GoMap ℕ := ∅
  tombstones : List Bool := []
  vectors : GoMap GoCol := ∅
  attrs : GoMap (List (Option AttributeValue)) := ∅
  kernels : Kernels

def GoTable.NewTable (kernels : Kernels) : GoTable := { kernels := kernels }

section Columns

def newGoCol (is16 : Bool) (numRows dim : ℕ) : GoCol where
  dim := dim
  data := if is16 then none else some (List.replicate (numRows * dim) F32.zero)
  data16 := if is16 then some (List.replicate (numRows * dim) 0) else none
  hasVec := List.replicate numRows false
  invNorms := List.replicate numRows F32.zero

def GoCol.clearRow (c : GoCol) (row : ℕ) : Option GoCol := do
  let hasVec ← store c.hasVec row false
  let invNorms ← store c.invNorms row F32.zero
  some { c with hasVec := hasVec, invNorms := invNorms }

/-- The two branches of the write of a row; a nil slice stays nil. -/
def GoCol.copyRow (c : GoCol) (is16 : Bool) (row : ℕ) (sv : StagedVector) : Option GoCol :=
  let offset := row * c.dim
  if is16 then do
    let d ← copyInto (c.data16.getD []) offset (offset + c.dim) sv.data16
    some { c with data16 := c.data16.map fun _ => d }
  else do
    let d ← copyInto (c.data.getD []) offset (offset + c.dim) sv.values
    some { c with data := c.data.map fun _ => d }

def GoCol.setRow (c : GoCol) (is16 : Bool) (row : ℕ) (sv : StagedVector) : Option GoCol := do
  let c ← c.copyRow is16 row sv
  let hasVec ← store c.hasVec row true
  let invNorms ← store c.invNorms row sv.invNorm
  some { c with hasVec := hasVec, invNorms := invNorms }

def GoCol.pushRow (c : GoCol) (is16 : Bool) (o : Option StagedVector) : GoCol :=
  let values := (o.map StagedVector.values).getD (List.replicate c.dim F32.zero)
  let values16 := (o.map StagedVector.data16).getD (List.replicate c.dim 0)
  { c with
    data := if is16 then c.data else appendTo c.data values
    data16 := if is16 then appendTo c.data16 values16 else c.data16
    hasVec := c.hasVec ++ [o.isSome]
    invNorms := c.invNorms ++ [(o.map StagedVector.invNorm).getD F32.zero] }

/-- The slice that the kernels read for a row. -/
def GoCol.cell (c : GoCol) (row : ℕ) : Option Cell :=
  let offset := row * c.dim
  match c.data16 with
  | some d => (sub d offset (offset + c.dim)).map .f16
  | none => (sub (c.data.getD []) offset (offset + c.dim)).map .f32

end Columns

section Upsert
variable (A : Arith) (R : RangeOrder String)

def GoTable.stage (is16 : Bool) (vectors : GoMap GoCol) :
    List (Σ _ : String, List F32) → GoMap StagedVector → Except UpsertErr (GoMap StagedVector)
  | [], staged => .ok staged
  | ⟨col, vec⟩ :: rest, staged =>
    if vec = [] then GoTable.stage is16 vectors rest staged
    else
      match vectors.lookup col with
      | some c =>
        if vec.length ≠ c.dim then .error (.dimensionMismatch col c.dim vec.length)
        else
          match stageVector A is16 vec with
          | .error e => .error (.encode col e)
          | .ok sv => GoTable.stage is16 vectors rest (staged.insert col sv)
      | none =>
        match stageVector A is16 vec with
        | .error e => .error (.encode col e)
        | .ok sv => GoTable.stage is16 vectors rest (staged.insert col sv)

variable (t : GoTable) (row : ℕ) (staged : GoMap StagedVector)
  (attrs : GoMap (Option AttributeValue))

section Loops

/-! The bodies of the loops of `Upsert` that write a map; `some none` leaves the entry. -/

def GoTable.createVector (_ : String) (sv : StagedVector) :
    Option GoCol → Option (Option GoCol)
  | some _ => some none
  | none => some (some (newGoCol t.kernels.is16 t.numRows sv.values.length))

def GoTable.createAttr (_ : String) (v : Option AttributeValue)
    (old : Option (List (Option AttributeValue))) : Option (Option (List (Option AttributeValue))) :=
  match v, old with
  | some _, none => some (some (List.replicate t.numRows none))
  | _, _ => some none

def blankAttr (k : String) (c : List (Option AttributeValue)) :
    Option (List (Option AttributeValue)) :=
  match attrs.lookup k with
  | some _ => some c
  | none => store c row none

def blankVector (col : String) (c : GoCol) : Option GoCol :=
  match staged.lookup col with
  | some _ => some c
  | none => c.clearRow row

def GoTable.writeVector (_ : String) (sv : StagedVector) : Option GoCol → Option (Option GoCol)
  | some c => (c.setRow t.kernels.is16 row sv).map some
  | none => none

def writeAttr (_ : String) (v : Option AttributeValue)
    (old : Option (List (Option AttributeValue))) : Option (Option (List (Option AttributeValue))) :=
  match v with
  | some v => (store (old.getD []) row (some v)).map some
  | none => some none

end Loops

def GoTable.addColumns : Option GoTable := do
  let vectors ← updateAll t.createVector (R.range 1 staged).entries t.vectors
  let attrCols ← updateAll t.createAttr (R.range 2 attrs).entries t.attrs
  some { t with vectors := vectors, attrs := attrCols }

def GoTable.reviveRow : Option GoTable := do
  let dead ← load t.tombstones row
  if dead then
    let attrCols ← traverse (blankAttr row attrs) (R.range 3 t.attrs)
    let vectors ← traverse (blankVector row staged) (R.range 4 t.vectors)
    some { t with vectors := vectors, attrs := attrCols }
  else some t

def GoTable.overwriteRow : Option GoTable := do
  let tombstones ← store t.tombstones row false
  let vectors ← updateAll (t.writeVector row) (R.range 5 staged).entries t.vectors
  let attrCols ← updateAll (writeAttr row) (R.range 6 attrs).entries t.attrs
  some { t with tombstones := tombstones, vectors := vectors, attrs := attrCols }

def GoTable.insertRow (id : String) : Option GoTable := do
  let vectors ← traverse (fun col c => some (c.pushRow t.kernels.is16 (staged.lookup col)))
    (R.range 7 t.vectors)
  let attrCols ← traverse (fun k c => some (c ++ [(attrs.lookup k).join])) (R.range 8 t.attrs)
  some { t with
    docIDs := t.docIDs ++ [id]
    tombstones := t.tombstones ++ [false]
    index := t.index.insert id t.numRows
    vectors := vectors
    attrs := attrCols
    numRows := t.numRows + 1 }

def GoTable.Upsert (id : String) (vectors : GoMap (List F32)) :
    Option (GoTable × Option UpsertErr) :=
  if id = "" then some (t, some .emptyID)
  else
    match GoTable.stage A t.kernels.is16 t.vectors (R.range 0 vectors).entries ∅ with
    | .error e => some (t, some e)
    | .ok staged => do
      let t ← t.addColumns R staged attrs
      match t.index.lookup id with
      | some row =>
        let t ← t.reviveRow R row staged attrs
        let t ← t.overwriteRow R row staged attrs
        some (t, none)
      | none =>
        let t ← t.insertRow R staged attrs id
        some (t, none)

end Upsert

section Calls
variable (A : Arith) (R : RangeOrder String)

def GoTable.UpsertRecord (t : GoTable) : Option Record → Option (GoTable × Option UpsertErr)
  | none => some (t, some .nilRecord)
  | some rec =>
    match (R.range 9 rec.Vectors).entries.find? fun e => e.2.isNone with
    | some e => some (t, some (.nilVector e.1))
    | none => t.Upsert A R rec.Attributes rec.Id (GoMap.map (fun v => v.getD []) rec.Vectors)

def GoTable.Delete (t : GoTable) (id : String) : Option (GoTable × Bool) :=
  match t.index.lookup id with
  | none => some (t, false)
  | some row => do
    let dead ← load t.tombstones row
    if dead then some (t, false)
    else
      let tombstones ← store t.tombstones row true
      some ({ t with tombstones := tombstones }, true)

/-- Slices and messages are copied by value. -/
def GoTable.Clone (t : GoTable) : GoTable :=
  { t with
    index := R.range 10 t.index
    vectors := R.range 11 t.vectors
    attrs := R.range 12 t.attrs }

def GoTable.isTombstoned (t : GoTable) (row : ℕ) : Bool := t.tombstones.getD row false

def GoCol.vectorAt (k : Kernels) (c : GoCol) (row : ℕ) : Option (Option (List F32)) :=
  let offset := row * c.dim
  if c.hasVec.getD row false then
    match c.data16 with
    | some d => (sub d offset (offset + c.dim)).map fun s => some (k.Decode16 s)
    | none => (sub (c.data.getD []) offset (offset + c.dim)).map some
  else some none

def GoTable.recordAt (t : GoTable) (row : ℕ) (id : String) : Option Result := do
  let vectors ← traverse (fun _ c => c.vectorAt t.kernels row) (R.range 13 t.vectors)
  let attrs ← traverse (fun _ c => some (c.getD row none)) (R.range 14 t.attrs)
  some ⟨id, fun col => (vectors.lookup col).join, fun k => (attrs.lookup k).join⟩

def GoTable.Get (t : GoTable) (id : String) : Option (Option Result) :=
  match t.index.lookup id with
  | none => some none
  | some row => if t.isTombstoned row then some none else (t.recordAt R row id).map some

end Calls

section Search
variable (A : Arith) (R : RangeOrder String)

/-- The score of a row, `some none` when the scan passes over it. -/
def GoTable.rowScore (t : GoTable) (c : GoCol) (p : Plan) (query : List F32)
    (filter : Option EqualityFilter) (row : ℕ) : Option (Option F32) := do
  let dead ← load t.tombstones row
  if dead then some none
  else
    let has ← load c.hasVec row
    if !has then some none
    else if passes filter (filter.bind fun f => (t.attrs.lookup f.Field).bind fun col =>
        col.getD row none) then
      match p.metric with
      | .cosine =>
        let invNorm ← load c.invNorms row
        if invNorm.eq F32.zero then some none
        else
          let cell ← c.cell row
          some (score A t.kernels p query cell invNorm)
      | _ =>
        let cell ← c.cell row
        some (score A t.kernels p query cell F32.zero)
    else some none

/-- The admission of a candidate, with `h.hits[0]` as an index expression. -/
def offerAt (p : Plan) (topK : ℕ) (hits : List SearchHit) (cand : SearchHit) :
    Option (List SearchHit) :=
  if hits.length < topK then some (push (hitLess p.cmp) hits cand)
  else do
    let worst ← load hits 0
    if p.beaten worst.score cand.score then some hits
    else if p.cmp cand worst = .lt then
      let hits ← store hits 0 cand
      some (fixRoot (hitLess p.cmp) hits)
    else some hits

def GoTable.scanRow (t : GoTable) (c : GoCol) (p : Plan) (query : List F32) (topK : ℕ)
    (filter : Option EqualityFilter) (hits : List SearchHit) (row : ℕ) :
    Option (List SearchHit) := do
  match ← t.rowScore A c p query filter row with
  | none => some hits
  | some score =>
    let id ← load t.docIDs row
    offerAt p topK hits ⟨row, id, score⟩

def GoTable.Search (t : GoTable) (col : String) (query : List F32) (topK : ℤ)
    (metric : DistanceMetric) (filter : Option EqualityFilter) :
    Option (Except SearchErr (List ScoredResult)) :=
  if topK ≤ 0 then some (.ok [])
  else
    match t.vectors.lookup col with
    | none => some (.ok [])
    | some c =>
      if t.numRows = 0 then some (.ok [])
      else if query.length ≠ c.dim then some (.error .dimensionMismatch)
      else
        match plan A query metric with
        | .error e => some (.error e)
        | .ok p =>
          if filter.any (fun f => (t.attrs.lookup f.Field).isNone) then some (.ok [])
          else do
            let hits ← (List.range t.numRows).foldlM
              (t.scanRow A c p query topK.toNat filter) []
            let results ← (sortFunc p.cmp hits).mapM fun h => do
              let record ← t.recordAt R h.row h.id
              some (⟨record, h.score⟩ : ScoredResult)
            some (.ok results)

end Search

end CloudyNeigh.Query
