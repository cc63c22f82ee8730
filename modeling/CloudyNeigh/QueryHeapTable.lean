import CloudyNeigh.HeapData
import CloudyNeigh.QueryGoTable

/-!
# The table with its pointers

The functions of the table once more, on a heap: a table, its maps, its vector columns
and the arrays of its slices are separate objects, and an access is one step. `Clone`
makes new objects for all of them. Attribute messages are never written to, so a
pointer to one stands for its contents. What a caller passes in and what `Search`
returns are values of the caller.
-/
namespace CloudyNeigh.Query.OnHeap
open Checked ContainerHeap HeapLogic VectorFormat

inductive Kind
  | f32
  | f16
  | bool
  | string
  | attr
  | col
  | index
  | vectors
  | attrs
  | table
  deriving DecidableEq

/-- `flatVectorCol`. -/
structure ColHeader where
  dim : ℕ
  data : Option Slice
  data16 : Option Slice
  hasVec : Option Slice
  invNorms : Option Slice
  deriving DecidableEq, Repr

/-- `Table`; the maps are references that may be nil. -/
structure TableHeader where
  numRows : ℕ
  docIDs : Option Slice
  index : Option ℕ
  tombstones : Option Slice
  vectors : Option ℕ
  attrs : Option ℕ
  kernels : Kernels

abbrev Elem : Kind → Type
  | .f32 => F32
  | .f16 => F16
  | .bool => Bool
  | .string => String
  | .attr => Option AttributeValue
  | .col => ColHeader
  | .index => GoMap ℕ
  | .vectors => GoMap ℕ
  | .attrs => GoMap (Option Slice)
  | .table => TableHeader

abbrev Cmd := Prog Elem

section Objects

/-- Reading a nil map gives no entries. -/
def mapOf (k : Kind) (empty : Elem k) : Option ℕ → Cmd (Elem k)
  | none => .ret empty
  | some a => .read k a 0

/-- Writing to a nil map panics. -/
def setMap (k : Kind) (f : Elem k → Elem k) : Option ℕ → Cmd Unit
  | none => .panic
  | some a => do
    let m ← .read k a 0
    .write k a 0 (f m)

def indexMap : Option ℕ → Cmd (GoMap ℕ) := mapOf Kind.index ∅

def vectorMap : Option ℕ → Cmd (GoMap ℕ) := mapOf Kind.vectors ∅

def attrMap : Option ℕ → Cmd (GoMap (Option Slice)) := mapOf Kind.attrs ∅

def loadTable (p : ℕ) : Cmd TableHeader := Prog.read Kind.table p 0

def saveTable (p : ℕ) (t : TableHeader) : Cmd Unit := Prog.write Kind.table p 0 t

def loadCol (a : ℕ) : Cmd ColHeader := Prog.read Kind.col a 0

def saveCol (a : ℕ) (v : ColHeader) : Cmd Unit := Prog.write Kind.col a 0 v

def ofOption {α : Type} : Option α → Cmd α
  | none => .panic
  | some x => .ret x

def len (s : Option Slice) : ℕ := (s.map Slice.len).getD 0

def NewTable (kernels : Kernels) : Cmd ℕ := do
  let index ← .new Kind.index [∅]
  let vectors ← .new Kind.vectors [∅]
  let attrs ← .new Kind.attrs [∅]
  .new Kind.table [{
    numRows := 0
    docIDs := none
    index := some index
    tombstones := none
    vectors := some vectors
    attrs := some attrs
    kernels := kernels }]

end Objects

section Clone
variable (R : RangeOrder String) (grow : Kind → ℕ → ℕ → ℕ)

def cloneCol (v : ColHeader) : Cmd ℕ := do
  let data ← .clone Kind.f32 (grow .f32) F32.zero v.data
  let data16 ← .clone Kind.f16 (grow .f16) 0 v.data16
  let hasVec ← .clone Kind.bool (grow .bool) false v.hasVec
  let invNorms ← .clone Kind.f32 (grow .f32) F32.zero v.invNorms
  .new Kind.col [{ dim := v.dim, data := data, data16 := data16, hasVec := hasVec, invNorms := invNorms }]

def cloneAttrs (col : Option Slice) : Cmd (Option Slice) := do
  let newCol ← .make Kind.attr (len col) none
  .forEach (List.range (len col)) fun i => do
    let a ← .index Kind.attr col i
    if a.isSome then .setIndex Kind.attr newCol i a else .ret ()
  .ret newCol

def Clone (p : ℕ) : Cmd ℕ := do
  let t ← loadTable p
  let docIDs ← .clone Kind.string (grow .string) "" t.docIDs
  let index ← .new Kind.index [∅]
  let tombstones ← .clone Kind.bool (grow .bool) false t.tombstones
  let vectors ← .new Kind.vectors [∅]
  let attrs ← .new Kind.attrs [∅]
  let c ← .new Kind.table [{
    numRows := t.numRows
    docIDs := docIDs
    index := some index
    tombstones := tombstones
    vectors := some vectors
    attrs := some attrs
    kernels := t.kernels }]
  let m ← indexMap t.index
  .forEach (R.range 10 m).entries fun e => setMap Kind.index (·.insert e.1 e.2) (some index)
  let m ← vectorMap t.vectors
  .forEach (R.range 11 m).entries fun e => do
    let v ← loadCol e.2
    let a ← cloneCol grow v
    setMap Kind.vectors (·.insert e.1 a) (some vectors)
  let m ← attrMap t.attrs
  .forEach (R.range 12 m).entries fun e => do
    let newCol ← cloneAttrs e.2
    setMap Kind.attrs (·.insert e.1 newCol) (some attrs)
  .ret c

end Clone

section Upsert
variable (A : Arith) (R : RangeOrder String) (grow : Kind → ℕ → ℕ → ℕ)

/-- The zero `Table` gets its maps on first use. -/
def initMaps (p : ℕ) (t : TableHeader) : Cmd TableHeader :=
  if t.index = none then do
    let index ← .new Kind.index [∅]
    let vectors ← .new Kind.vectors [∅]
    let attrs ← .new Kind.attrs [∅]
    saveTable p { t with index := some index, vectors := some vectors, attrs := some attrs }
    .ret { t with index := some index, vectors := some vectors, attrs := some attrs }
  else .ret t

/-- The dimension of a column that is there. -/
def dimOf (t : TableHeader) (col : String) : Cmd (Option ℕ) := do
  let m ← vectorMap t.vectors
  match m.lookup col with
  | none => .ret none
  | some a => do
    let v ← loadCol a
    .ret (some v.dim)

def stage (is16 : Bool) (t : TableHeader) : List (Σ _ : String, List F32) → GoMap StagedVector →
    Cmd (Except UpsertErr (GoMap StagedVector))
  | [], staged => .ret (.ok staged)
  | ⟨col, vec⟩ :: rest, staged =>
    if vec = [] then stage is16 t rest staged
    else do
      let dim ← dimOf t col
      if dim.any (· ≠ vec.length) then
        .ret (.error (.dimensionMismatch col (dim.getD 0) vec.length))
      else
        match stageVector A is16 vec with
        | .error e => .ret (.error (.encode col e))
        | .ok sv => stage is16 t rest (staged.insert col sv)

variable (t : TableHeader) (row : ℕ) (staged : GoMap StagedVector)
  (attrs : GoMap (Option AttributeValue))

def newCol (numRows dim : ℕ) (is16 : Bool) : Cmd ℕ := do
  let hasVec ← .make Kind.bool numRows false
  let invNorms ← .make Kind.f32 numRows F32.zero
  if is16 then do
    let data16 ← .make Kind.f16 (numRows * dim) 0
    .new Kind.col [{ dim := dim, data := none, data16 := data16, hasVec := hasVec, invNorms := invNorms }]
  else do
    let data ← .make Kind.f32 (numRows * dim) F32.zero
    .new Kind.col [{ dim := dim, data := data, data16 := none, hasVec := hasVec, invNorms := invNorms }]

def createVector (e : Σ _ : String, StagedVector) : Cmd Unit := do
  let m ← vectorMap t.vectors
  match m.lookup e.1 with
  | some _ => .ret ()
  | none => do
    let a ← newCol t.numRows e.2.values.length t.kernels.is16
    setMap Kind.vectors (·.insert e.1 a) t.vectors

def createAttr (e : Σ _ : String, Option AttributeValue) : Cmd Unit :=
  match e.2 with
  | none => .ret ()
  | some _ => do
    let m ← attrMap t.attrs
    match m.lookup e.1 with
    | some _ => .ret ()
    | none => do
      let s ← .make Kind.attr t.numRows none
      setMap Kind.attrs (·.insert e.1 s) t.attrs

def addColumns : Cmd Unit := do
  .forEach (R.range 1 staged).entries (createVector t)
  .forEach (R.range 2 attrs).entries (createAttr t)

/-- A loop over a map of the table: each entry is looked up when its turn comes. -/
def forEntries {α : Type} (n : ℕ) (map : Cmd (GoMap α)) (body : String → Option α → Cmd Unit) :
    Cmd Unit := do
  let m ← map
  .forEach (R.range n m).keys fun key => do
    let m ← map
    body key (m.lookup key)

def clearRow (a : ℕ) : Cmd Unit := do
  let v ← loadCol a
  .setIndex Kind.bool v.hasVec row false
  .setIndex Kind.f32 v.invNorms row F32.zero

def copyVector (is16 : Bool) (v : ColHeader) (sv : StagedVector) : Cmd Unit :=
  if is16 then .copyInto Kind.f16 v.data16 (row * v.dim) (row * v.dim + v.dim) sv.data16
  else .copyInto Kind.f32 v.data (row * v.dim) (row * v.dim + v.dim) sv.values

def setRow (is16 : Bool) (a : ℕ) (sv : StagedVector) : Cmd Unit := do
  let v ← loadCol a
  copyVector row is16 v sv
  .setIndex Kind.bool v.hasVec row true
  .setIndex Kind.f32 v.invNorms row sv.invNorm

section PushRow
variable (is16 : Bool) (a : ℕ) (v : ColHeader) (o : Option StagedVector)

def pushVector : Cmd ColHeader :=
  if is16 then do
    let s ← .append Kind.f16 (grow .f16) 0 v.data16
      ((o.map StagedVector.data16).getD (List.replicate v.dim 0))
    saveCol a { v with data16 := s }
    .ret { v with data16 := s }
  else do
    let s ← .append Kind.f32 (grow .f32) F32.zero v.data
      ((o.map StagedVector.values).getD (List.replicate v.dim F32.zero))
    saveCol a { v with data := s }
    .ret { v with data := s }

def pushHasVec : Cmd ColHeader := do
  let s ← .append Kind.bool (grow .bool) false v.hasVec [o.isSome]
  saveCol a { v with hasVec := s }
  .ret { v with hasVec := s }

def pushInvNorm : Cmd ColHeader := do
  let s ← .append Kind.f32 (grow .f32) F32.zero v.invNorms
    [(o.map StagedVector.invNorm).getD F32.zero]
  saveCol a { v with invNorms := s }
  .ret { v with invNorms := s }

def pushRow : Cmd Unit := do
  let v ← loadCol a
  let v ← pushVector grow is16 a v o
  let v ← pushHasVec grow a v o
  let _ ← pushInvNorm grow a v o
  .ret ()

end PushRow

def reviveRow : Cmd Unit := do
  let dead ← .index Kind.bool t.tombstones row
  if dead then do
    forEntries R 3 (attrMap t.attrs) fun k aCol =>
      if (attrs.lookup k).isSome then .ret ()
      else .setIndex Kind.attr aCol.join row none
    forEntries R 4 (vectorMap t.vectors) fun col vCol =>
      if (staged.lookup col).isSome then .ret ()
      else do
        let a ← ofOption vCol
        clearRow row a
  else .ret ()

def overwriteRow : Cmd Unit := do
  .setIndex Kind.bool t.tombstones row false
  .forEach (R.range 5 staged).entries fun e => do
    let m ← vectorMap t.vectors
    let a ← ofOption (m.lookup e.1)
    setRow row t.kernels.is16 a e.2
  .forEach (R.range 6 attrs).entries fun e =>
    match e.2 with
    | none => .ret ()
    | some v => do
      let m ← attrMap t.attrs
      .setIndex Kind.attr (m.lookup e.1).join row (some v)

def pushID (p : ℕ) (id : String) : Cmd TableHeader := do
  let s ← .append Kind.string (grow .string) "" t.docIDs [id]
  saveTable p { t with docIDs := s }
  .ret { t with docIDs := s }

def pushTombstone (p : ℕ) : Cmd TableHeader := do
  let s ← .append Kind.bool (grow .bool) false t.tombstones [false]
  saveTable p { t with tombstones := s }
  .ret { t with tombstones := s }

def insertRow (p : ℕ) (id : String) : Cmd Unit := do
  let t ← pushID grow t p id
  let t ← pushTombstone grow t p
  setMap Kind.index (·.insert id t.numRows) t.index
  forEntries R 7 (vectorMap t.vectors) fun col vCol => do
    let a ← ofOption vCol
    pushRow grow t.kernels.is16 a (staged.lookup col)
  forEntries R 8 (attrMap t.attrs) fun k aCol => do
    let s ← .append Kind.attr (grow .attr) none aCol.join [(attrs.lookup k).join]
    setMap Kind.attrs (·.insert k s) t.attrs
  saveTable p { t with numRows := t.numRows + 1 }

/-- `none` is the nil error. -/
def Upsert (p : ℕ) (id : String) (vectors : GoMap (List F32))
    (attrs : GoMap (Option AttributeValue)) : Cmd (Option UpsertErr) :=
  if id = "" then .ret (some .emptyID)
  else do
    let t ← loadTable p
    let t ← initMaps p t
    match ← stage A t.kernels.is16 t (R.range 0 vectors).entries ∅ with
    | .error e => .ret (some e)
    | .ok staged => do
      addColumns R t staged attrs
      let index ← indexMap t.index
      match index.lookup id with
      | some row => do
        reviveRow R t row staged attrs
        overwriteRow R t row staged attrs
        .ret none
      | none => do
        insertRow R grow t staged attrs p id
        .ret none

def UpsertRecord (p : ℕ) : Option Record → Cmd (Option UpsertErr)
  | none => .ret (some .nilRecord)
  | some rec =>
    match (R.range 9 rec.Vectors).entries.find? fun e => e.2.isNone with
    | some e => .ret (some (.nilVector e.1))
    | none => Upsert A R grow p rec.Id (GoMap.map (fun v => v.getD []) rec.Vectors) rec.Attributes

def Delete (p : ℕ) (id : String) : Cmd Bool := do
  let t ← loadTable p
  let index ← indexMap t.index
  match index.lookup id with
  | none => .ret false
  | some row => do
    let dead ← .index Kind.bool t.tombstones row
    if dead then .ret false
    else do
      .setIndex Kind.bool t.tombstones row true
      .ret true

end Upsert

section Search
variable (A : Arith) (R : RangeOrder String)

def vectorAt (k : Kernels) (row a : ℕ) : Cmd (Option (List F32)) := do
  let v ← loadCol a
  let offset := row * v.dim
  if row < len v.hasVec then do
    let has ← .index Kind.bool v.hasVec row
    if has then
      if v.data16.isSome then do
        let d ← .subElems Kind.f16 v.data16 offset (offset + v.dim)
        .ret (some (k.Decode16 d))
      else do
        let d ← .subElems Kind.f32 v.data offset (offset + v.dim)
        .ret (some d)
    else .ret none
  else .ret none

def attrAt (row : ℕ) (s : Option Slice) : Cmd (Option AttributeValue) :=
  if row < len s then .index Kind.attr s row else .ret none

/-- The maps of a record hold what the two loops have put there. -/
def recordAt (t : TableHeader) (row : ℕ) (id : String) : Cmd Result := do
  let m ← vectorMap t.vectors
  let vectors ← .collect (R.range 13 m).entries fun e => do
    let v ← vectorAt t.kernels row e.2
    .ret (⟨e.1, v⟩ : Σ _ : String, Option (List F32))
  let m ← attrMap t.attrs
  let attrs ← .collect (R.range 14 m).entries fun e => do
    let a ← attrAt row e.2
    .ret (⟨e.1, a⟩ : Σ _ : String, Option AttributeValue)
  .ret ⟨id, fun col => (vectors.dlookup col).join, fun k => (attrs.dlookup k).join⟩

def Get (p : ℕ) (id : String) : Cmd (Option Result) := do
  let t ← loadTable p
  let index ← indexMap t.index
  match index.lookup id with
  | none => .ret none
  | some row => do
    let dead ← (if row < len t.tombstones then .index Kind.bool t.tombstones row else .ret false : Cmd Bool)
    if dead then .ret none
    else do
      let r ← recordAt R t row id
      .ret (some r)

/-- The slice that the kernels read for a row. -/
def cellAt (v : ColHeader) (row : ℕ) : Cmd Cell := do
  let offset := row * v.dim
  if v.data16.isSome then do
    let d ← .subElems Kind.f16 v.data16 offset (offset + v.dim)
    .ret (.f16 d)
  else do
    let d ← .subElems Kind.f32 v.data offset (offset + v.dim)
    .ret (.f32 d)

/-- The value that the filter compares, for a filter with its column. -/
def filterValue (filter : Option (EqualityFilter × Option Slice)) (row : ℕ) :
    Cmd (Option AttributeValue) :=
  match filter with
  | none => .ret none
  | some (_, s) => attrAt row s

def rowScore (t : TableHeader) (v : ColHeader) (p : Plan) (query : List F32)
    (filter : Option (EqualityFilter × Option Slice)) (row : ℕ) : Cmd (Option F32) := do
  let dead ← .index Kind.bool t.tombstones row
  if dead then .ret none
  else do
    let has ← .index Kind.bool v.hasVec row
    if !has then .ret none
    else do
      let value ← filterValue filter row
      if passes (filter.map Prod.fst) value then
        match p.metric with
        | .cosine => do
          let invNorm ← .index Kind.f32 v.invNorms row
          if invNorm.eq F32.zero then .ret none
          else do
            let cell ← cellAt v row
            .ret (score A t.kernels p query cell invNorm)
        | _ => do
          let cell ← cellAt v row
          .ret (score A t.kernels p query cell F32.zero)
      else .ret none

def scanRow (t : TableHeader) (v : ColHeader) (p : Plan) (query : List F32) (topK : ℕ)
    (filter : Option (EqualityFilter × Option Slice)) (hits : List SearchHit) (row : ℕ) :
    Cmd (List SearchHit) := do
  match ← rowScore A t v p query filter row with
  | none => .ret hits
  | some score => do
    let id ← .index Kind.string t.docIDs row
    ofOption (offerAt p topK hits ⟨row, id, score⟩)

/-- The column of the filter: `none` if it has none, which ends the search. -/
def filterColumn (t : TableHeader) :
    Option EqualityFilter → Cmd (Option (Option (EqualityFilter × Option Slice)))
  | none => .ret (some none)
  | some f => do
    let m ← attrMap t.attrs
    .ret ((m.lookup f.Field).map fun s => some (f, s))

def Search (p : ℕ) (col : String) (query : List F32) (topK : ℤ) (metric : DistanceMetric)
    (filter : Option EqualityFilter) : Cmd (Except SearchErr (List ScoredResult)) :=
  if topK ≤ 0 then .ret (.ok [])
  else do
    let t ← loadTable p
    let m ← vectorMap t.vectors
    match m.lookup col with
    | none => .ret (.ok [])
    | some a => do
      if t.numRows = 0 then .ret (.ok [])
      else do
        let v ← loadCol a
        if query.length ≠ v.dim then .ret (.error .dimensionMismatch)
        else
          match plan A query metric with
          | .error e => .ret (.error e)
          | .ok plan => do
            match ← filterColumn t filter with
            | none => .ret (.ok [])
            | some filter => do
              let hits ← .fold (scanRow A t v plan query topK.toNat filter) (List.range t.numRows) []
              let results ← .collect (sortFunc plan.cmp hits) fun h => do
                let record ← recordAt R t h.row h.id
                .ret (⟨record, h.score⟩ : ScoredResult)
              .ret (.ok results)

end Search

end CloudyNeigh.Query.OnHeap
