import CloudyNeigh.ContainerHeap
import CloudyNeigh.QueryTable
import Mathlib.Data.List.Sort

/-!
# Top-k search over the table

The scan keeps the best `topK` hits in a heap whose root is the worst of them,
then sorts. A row is scored only if no check of the scan passes over it.
-/
namespace CloudyNeigh.Query
open Blocks ContainerHeap VectorFormat

inductive DistanceMetric
  | unspecified
  | cosine
  | euclideanSquared
  | dotProduct
  deriving DecidableEq, Repr

structure EqualityFilter where
  Field : String
  Value : Option AttributeValue
  deriving DecidableEq, Repr

inductive SearchErr
  | dimensionMismatch
  | zeroVector
  | unknownMetric (metric : DistanceMetric)
  deriving DecidableEq, Repr

structure SearchHit where
  row : ℕ
  id : String
  score : F32
  deriving DecidableEq, Repr

def cmpAsc (a b : SearchHit) : Ordering :=
  if a.score.eq b.score then compare a.id b.id else F32.compare a.score b.score

def cmpDesc (a b : SearchHit) : Ordering :=
  if a.score.eq b.score then compare a.id b.id else F32.compare b.score a.score

/-- The heap's `Less`: the worst hit is the root. -/
def hitLess (cmp : SearchHit → SearchHit → Ordering) (a b : SearchHit) : Bool := cmp a b == .gt

/-- `slices.SortFunc` sorts by insertion up to twelve elements; beyond that the
outcome is determined where `cmp` is a strict order, as it is without NaN scores. -/
def sortFunc (cmp : SearchHit → SearchHit → Ordering) (hits : List SearchHit) : List SearchHit :=
  hits.insertionSort fun a b => cmp a b ≠ .gt

/-- What the metric chooses before the scan. -/
structure Plan where
  metric : DistanceMetric
  cmp : SearchHit → SearchHit → Ordering
  isDesc : Bool
  invQ : F32

def plan (A : Arith) (query : List F32) : DistanceMetric → Except SearchErr Plan
  | .cosine =>
    let invQ := vectorInvNorm A query
    if invQ.eq F32.zero then .error .zeroVector else .ok ⟨.cosine, cmpAsc, false, invQ⟩
  | .euclideanSquared => .ok ⟨.euclideanSquared, cmpAsc, false, F32.zero⟩
  | .dotProduct => .ok ⟨.dotProduct, cmpDesc, true, F32.zero⟩
  | .unspecified => .error (.unknownMetric .unspecified)

/-- A row of a column: the slice that the kernels read. -/
inductive Cell
  | f32 (values : List F32)
  | f16 (values : List F16)
  deriving DecidableEq, Repr

def FlatVectorCol.cell (c : FlatVectorCol) (row : ℕ) : Cell :=
  match c.data16 with
  | some d => .f16 (slice d (row * c.dim) c.dim)
  | none => .f32 (slice c.data (row * c.dim) c.dim)

def Kernels.dot (k : Kernels) (query : List F32) : Cell → F32
  | .f32 values => k.Dot query values
  | .f16 values =>
    match k.Dot16 with
    | some f => f query values
    | none => F32.zero

def Kernels.l2 (k : Kernels) (query : List F32) : Cell → F32
  | .f32 values => k.L2 query values
  | .f16 values => k.L216 query values

def clampSim (sim : F32) : F32 :=
  if F32.one.lt sim then F32.one else if sim.lt F32.negOne then F32.negOne else sim

/-- The score of a vector, or `none` for a zero vector under cosine. -/
def score (A : Arith) (k : Kernels) (p : Plan) (query : List F32) (cell : Cell) (invNorm : F32) :
    Option F32 :=
  match p.metric with
  | .cosine =>
    if invNorm.eq F32.zero then none
    else
      let sim := A.mul (A.mul (Kernels.dot k query cell) p.invQ) invNorm
      some (A.sub F32.one (clampSim sim))
  | .euclideanSquared => some (Kernels.l2 k query cell)
  | .dotProduct => some (Kernels.dot k query cell)
  | .unspecified => some F32.zero

/-- An absent filter passes every row; a nil filter value passes none. -/
def passes (filter : Option EqualityFilter) (value : Option AttributeValue) : Bool :=
  match filter with
  | none => true
  | some f =>
    match value, f.Value with
    | some v, some w => v == w
    | _, _ => false

/-- The body of the scan up to the score, for one row. -/
def Table.rowScore (A : Arith) (t : Table) (c : FlatVectorCol) (p : Plan) (query : List F32)
    (filter : Option EqualityFilter) (row : ℕ) : Option F32 :=
  if t.isTombstoned row || !c.hasVec.getD row false then none
  else
    let value := filter.bind fun f => (t.attrs f.Field).bind fun col => col.getD row none
    if passes filter value then
      score A t.kernels p query (c.cell row) (c.invNorms.getD row F32.zero)
    else none

/-- The early exit of a full heap, on scores alone. -/
def Plan.beaten (p : Plan) (worst cand : F32) : Bool :=
  if p.isDesc then cand.lt worst else worst.lt cand

/-- The admission of one candidate into the heap. -/
def offer (p : Plan) (topK : ℕ) (hits : List SearchHit) (cand : SearchHit) : List SearchHit :=
  if hits.length < topK then push (hitLess p.cmp) hits cand
  else
    match hits with
    | [] => hits
    | worst :: rest =>
      if p.beaten worst.score cand.score then hits
      else if p.cmp cand worst = .lt then fixRoot (hitLess p.cmp) (cand :: rest)
      else hits

def Table.scanRow (A : Arith) (t : Table) (c : FlatVectorCol) (p : Plan) (query : List F32)
    (topK : ℕ) (filter : Option EqualityFilter) (hits : List SearchHit) (row : ℕ) :
    List SearchHit :=
  match t.rowScore A c p query filter row with
  | none => hits
  | some score => offer p topK hits ⟨row, t.docIDs.getD row "", score⟩

structure ScoredResult where
  record : Result
  score : F32

def Table.Search (A : Arith) (t : Table) (col : String) (query : List F32) (topK : ℤ)
    (metric : DistanceMetric) (filter : Option EqualityFilter) :
    Except SearchErr (List ScoredResult) :=
  if topK ≤ 0 then .ok []
  else
    match t.vectors col with
    | none => .ok []
    | some c =>
      if t.numRows = 0 then .ok []
      else if query.length ≠ c.dim then .error .dimensionMismatch
      else
        match plan A query metric with
        | .error e => .error e
        | .ok p =>
          if filter.any (fun f => (t.attrs f.Field).isNone) then .ok []
          else
            let hits := (List.range t.numRows).foldl
              (t.scanRow A c p query topK.toNat filter) []
            .ok ((sortFunc p.cmp hits).map fun h => ⟨t.recordAt h.row h.id, h.score⟩)

section Provenance
variable {p : Plan} {topK : ℕ} {hits : List SearchHit} {cand h : SearchHit}

lemma mem_offer (hm : h ∈ offer p topK hits cand) : h = cand ∨ h ∈ hits := by
  unfold offer at hm
  split at hm
  · have := (push_perm (hitLess p.cmp) hits cand).mem_iff.mp hm
    simp only [List.mem_append, List.mem_singleton] at this
    exact this.symm
  · split at hm
    · exact Or.inr hm
    · rename_i worst rest _
      split at hm
      · exact Or.inr hm
      · split at hm
        · have := (fixRoot_perm (hitLess p.cmp) (cand :: rest)).mem_iff.mp hm
          rcases List.mem_cons.mp this with rfl | hr
          · exact Or.inl rfl
          · exact Or.inr (List.mem_cons_of_mem _ hr)
        · exact Or.inr hm

/-- Every hit of a scan is a row that was scored, with its own id and score. -/
lemma mem_scan {A : Arith} {t : Table} {c : FlatVectorCol} {query : List F32}
    {filter : Option EqualityFilter} {rows : List ℕ}
    (hm : h ∈ rows.foldl (t.scanRow A c p query topK filter) hits) :
    h ∈ hits ∨ (h.row ∈ rows ∧ h.id = t.docIDs.getD h.row "" ∧
      t.rowScore A c p query filter h.row = some h.score) := by
  induction rows generalizing hits with
  | nil => exact Or.inl hm
  | cons row rows ih =>
    rw [List.foldl_cons] at hm
    rcases ih hm with hscan | ⟨hr, hrest⟩
    · unfold Table.scanRow at hscan
      split at hscan
      · exact Or.inl hscan
      · rename_i score hs
        rcases mem_offer hscan with rfl | hh
        · exact Or.inr ⟨List.mem_cons_self, rfl, hs⟩
        · exact Or.inl hh
    · exact Or.inr ⟨List.mem_cons_of_mem _ hr, hrest⟩

end Provenance

end CloudyNeigh.Query
