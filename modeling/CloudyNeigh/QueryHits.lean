import CloudyNeigh.QueryObserve
import CloudyNeigh.TopK
import Mathlib.Data.Prod.Lex
import Mathlib.Data.String.Basic

/-!
# The heap of the scan keeps the best hits

Where the comparator of a plan orders the hits by a key, the heap of the scan holds
the `topK` candidates with the least keys, with the worst of them at its root.
Without NaN scores the key is a signed rank of the score before the id.
-/
namespace CloudyNeigh.Query
open ContainerHeap TopK VectorFormat

/-- The rank of a score, the other way around for a descending order. -/
def orderedRank (isDesc : Bool) (x : F32) : ℤ := if isDesc then -x.rank else x.rank

def hitKey (isDesc : Bool) (h : SearchHit) : ℤ ×ₗ String := toLex (orderedRank isDesc h.score, h.id)

/-- A plan with the comparator that belongs to its direction. -/
def Plan.Ordered (p : Plan) : Prop := p.cmp = if p.isDesc then cmpDesc else cmpAsc

lemma plan_ordered {A : Arith} {query : List F32} {metric : DistanceMetric} {p : Plan}
    (h : plan A query metric = .ok p) : p.Ordered := by
  unfold plan at h
  split at h
  · dsimp only at h
    split at h
    · cases h
    · cases h
      rfl
  · cases h
    rfl
  · cases h
    rfl
  · cases h

section Compare
variable {x y : F32}

lemma F32.eq_iff (hx : x.isNaN = false) (hy : y.isNaN = false) :
    F32.eq x y = true ↔ x.rank = y.rank := by
  simp [F32.eq, hx, hy]

lemma F32.lt_iff (hx : x.isNaN = false) (hy : y.isNaN = false) :
    F32.lt x y = true ↔ x.rank < y.rank := by
  simp [F32.lt, hx, hy]

/-- The three outcomes of a comparison of hits, by their keys. -/
lemma Plan.Ordered.cmp_eq {p : Plan} (hp : p.Ordered) {a b : SearchHit}
    (ha : a.score.isNaN = false) (hb : b.score.isNaN = false) :
    p.cmp a b = compare (hitKey p.isDesc a) (hitKey p.isDesc b) := by
  have hcmp : compare (hitKey p.isDesc a) (hitKey p.isDesc b) =
      (compare (orderedRank p.isDesc a.score) (orderedRank p.isDesc b.score)).then
        (compare a.id b.id) := by
    rcases lt_trichotomy (orderedRank p.isDesc a.score) (orderedRank p.isDesc b.score) with
      hlt | heq | hgt
    · rw [compare_lt_iff_lt.mpr hlt]
      exact compare_lt_iff_lt.mpr (Prod.Lex.toLex_lt_toLex.mpr (Or.inl hlt))
    · rw [compare_eq_iff_eq.mpr heq]
      change _ = compare a.id b.id
      rcases lt_trichotomy a.id b.id with hid | hid | hid
      · rw [compare_lt_iff_lt.mpr hid]
        exact compare_lt_iff_lt.mpr (Prod.Lex.toLex_lt_toLex.mpr (Or.inr ⟨heq, hid⟩))
      · rw [compare_eq_iff_eq.mpr hid]
        exact compare_eq_iff_eq.mpr (by simp only [hitKey, heq, hid])
      · rw [compare_gt_iff_gt.mpr hid]
        exact compare_gt_iff_gt.mpr (Prod.Lex.toLex_lt_toLex.mpr (Or.inr ⟨heq.symm, hid⟩))
    · rw [compare_gt_iff_gt.mpr hgt]
      exact compare_gt_iff_gt.mpr (Prod.Lex.toLex_lt_toLex.mpr (Or.inl hgt))
  rw [hcmp, hp]
  cases p.isDesc with
  | false =>
    simp only [Bool.false_eq_true, if_false, orderedRank, cmpAsc, F32.compare, ha, hb]
    rcases lt_trichotomy a.score.rank b.score.rank with hlt | heq | hgt
    · simp [F32.eq, F32.lt, ha, hb, hlt, hlt.ne, compare_lt_iff_lt.mpr hlt]
    · simp [F32.eq, ha, hb, heq]
    · simp [F32.eq, F32.lt, ha, hb, hgt, hgt.ne', hgt.le, compare_gt_iff_gt.mpr hgt]
  | true =>
    simp only [if_true, orderedRank, cmpDesc, F32.compare, ha, hb, Bool.false_eq_true, if_false]
    rcases lt_trichotomy a.score.rank b.score.rank with hlt | heq | hgt
    · have hneg : -b.score.rank < -a.score.rank := by omega
      simp [F32.eq, F32.lt, ha, hb, hlt, hlt.ne, hlt.le, compare_gt_iff_gt.mpr hneg]
    · simp [F32.eq, ha, hb, heq]
    · have hneg : -a.score.rank < -b.score.rank := by omega
      simp [F32.eq, F32.lt, ha, hb, hgt, hgt.ne', compare_lt_iff_lt.mpr hneg]

/-- The early exit never drops a hit that the comparator would admit. -/
lemma Plan.beaten_key {p : Plan} {worst cand : SearchHit} (hw : worst.score.isNaN = false)
    (hc : cand.score.isNaN = false) (h : p.beaten worst.score cand.score = true) :
    hitKey p.isDesc worst < hitKey p.isDesc cand := by
  apply Prod.Lex.toLex_lt_toLex.mpr
  left
  unfold Plan.beaten at h
  unfold orderedRank
  split at h
  · rename_i hd
    rw [F32.lt_iff hc hw] at h
    simp only [hd, if_true]
    omega
  · rename_i hd
    rw [F32.lt_iff hw hc] at h
    simp only [hd]
    exact h

end Compare

/-- On these hits the plan compares by the key, and the early exit agrees with it. -/
structure Plan.Compares {γ : Type*} [LinearOrder γ] (p : Plan) (key : SearchHit → γ)
    (hits : List SearchHit) : Prop where
  cmp : ∀ a ∈ hits, ∀ b ∈ hits, p.cmp a b = compare (key a) (key b)
  beaten : ∀ a ∈ hits, ∀ b ∈ hits, p.beaten a.score b.score = true → key a ≤ key b

/-- The heap of the scan after the candidates `all`, ordered by a key. -/
structure RankedBy {γ : Type*} [LinearOrder γ] (p : Plan) (key : SearchHit → γ) (topK : ℕ)
    (hits rest all : List SearchHit) : Prop where
  best : Best key topK hits rest all
  heap : ContainerHeap.Ordered (fun h => OrderDual.toDual (key h)) hits

section ByKey
variable {γ : Type*} [LinearOrder γ] {p : Plan} {key : SearchHit → γ} {topK : ℕ}
  {hits rest all : List SearchHit} {cand : SearchHit}

lemma RankedBy.nil (p : Plan) (key : SearchHit → γ) (topK : ℕ) : RankedBy p key topK [] [] [] := by
  refine ⟨Best.nil _ _, ?_⟩
  intro i _
  rw [rankAt_of_le (by simp), rankAt_of_le (by simp)]

lemma Plan.Compares.subset {hits' : List SearchHit} (h : p.Compares key hits) (hs : hits' ⊆ hits) :
    p.Compares key hits' :=
  ⟨fun a ha b hb => h.cmp a (hs ha) b (hs hb), fun a ha b hb => h.beaten a (hs ha) b (hs hb)⟩

lemma Plan.Compares.sorts (h : p.Compares key hits) :
    Sorts (hitLess p.cmp) (fun h => OrderDual.toDual (key h)) hits := by
  intro a ha b hb
  rw [hitLess, h.cmp a ha b hb, beq_iff_eq, compare_gt_iff_gt]
  rfl

lemma RankedBy.offer (h : RankedBy p key topK hits rest all) (hk : 0 < topK)
    (hc : p.Compares key (all ++ [cand])) :
    ∃ rest', RankedBy p key topK (offer p topK hits cand) rest' (all ++ [cand]) := by
  have hsub : hits ++ [cand] ⊆ all ++ [cand] := by
    intro x hx
    rcases List.mem_append.mp hx with hold | hcand
    · exact List.mem_append_left _ (h.best.perm.mem_iff.mp (List.mem_append_left rest hold))
    · exact List.mem_append_right _ hcand
  unfold Query.offer
  by_cases hroom : hits.length < topK
  · rw [if_pos hroom]
    exact ⟨rest, h.best.grow hroom (push_perm _ _ _), push_ordered h.heap (hc.subset hsub).sorts⟩
  · rw [if_neg hroom]
    have hfull : hits.length = topK := le_antisymm h.best.length (not_lt.mp hroom)
    cases hits with
    | nil => exact absurd hfull (by simp; omega)
    | cons worst kept =>
      have hroot : ∀ x ∈ worst :: kept, key x ≤ key worst := fun x hx => h.heap.root_le hx
      have hworst : worst ∈ all ++ [cand] := hsub (by simp)
      have hcand : cand ∈ all ++ [cand] := by simp
      -- a candidate that is not below the worst hit joins the rest
      have hskip : key worst ≤ key cand →
          ∃ rest', RankedBy p key topK (worst :: kept) rest' (all ++ [cand]) := fun hle =>
        ⟨rest ++ [cand], h.best.skip hfull fun x hx => (hroot x hx).trans hle, h.heap⟩
      dsimp only
      split
      · rename_i hbeaten
        exact hskip (hc.beaten worst hworst cand hcand hbeaten)
      · split
        · rename_i hlt
          rw [hc.cmp cand hcand worst hworst, compare_lt_iff_lt] at hlt
          refine ⟨worst :: rest, ?_, ?_⟩
          · exact h.best.replace hfull (fun x hx => hroot x (List.mem_cons_of_mem worst hx)) hlt.le
              (fixRoot_perm _ _)
          · apply fixRoot_ordered h.heap
            refine (hc.subset ?_).sorts
            intro x hx
            rcases List.mem_cons.mp hx with rfl | hold
            · exact hcand
            · exact hsub (List.mem_append_left _ (List.mem_cons_of_mem worst hold))
        · rename_i hge
          rw [hc.cmp cand hcand worst hworst, compare_lt_iff_lt, not_lt] at hge
          exact hskip hge

/-- The final sort is the sort by the key. -/
lemma RankedBy.sortFunc (h : RankedBy p key topK hits rest all) (hc : p.Compares key all) :
    sortFunc p.cmp hits = sortBy key hits := by
  apply insertionSort_congr
  intro a ha b hb
  have hall : ∀ x ∈ hits, x ∈ all := fun x hx =>
    h.best.perm.mem_iff.mp (List.mem_append_left rest hx)
  rw [hc.cmp a (hall a ha) b (hall b hb), Ne, compare_gt_iff_gt, not_lt]

end ByKey

lemma Plan.Ordered.compares {p : Plan} (hp : p.Ordered) {hits : List SearchHit}
    (hn : ∀ h ∈ hits, h.score.isNaN = false) : p.Compares (hitKey p.isDesc) hits :=
  ⟨fun a ha b hb => hp.cmp_eq (hn a ha) (hn b hb),
    fun a ha b hb h => (Plan.beaten_key (hn a ha) (hn b hb) h).le⟩

/-- The hits in order are the first candidates in order. -/
lemma RankedBy.sortFunc_take {p : Plan} {topK : ℕ} {hits rest all : List SearchHit}
    (h : RankedBy p (hitKey p.isDesc) topK hits rest all) (hc : p.Compares (hitKey p.isDesc) all)
    (hid : ∀ a ∈ all, ∀ b ∈ all, a.id = b.id → a = b) :
    Query.sortFunc p.cmp hits = (sortBy (hitKey p.isDesc) all).take topK := by
  rw [h.sortFunc hc, h.best.sort_eq]
  intro a ha b hb hkey
  exact hid a ha b hb (congrArg (fun k => (ofLex k).2) hkey)

section Scan
variable {A : Arith} {k : Kernels} {v : View} {col : String} {p : Plan} {query : List F32}
  {filter : Option EqualityFilter} {topK : ℕ}

/-- The scored rows in the order of the scan. -/
def View.candidates (A : Arith) (k : Kernels) (v : View) (col : String) (p : Plan)
    (query : List F32) (filter : Option EqualityFilter) (rows : List ℕ) : List SearchHit :=
  rows.filterMap fun row => ((v.doc (v.order.getD row "")).bind
    (Doc.rowScore A k col p query filter)).map fun score => ⟨row, v.order.getD row "", score⟩

lemma mem_candidates {rows : List ℕ} {h : SearchHit} :
    h ∈ v.candidates A k col p query filter rows ↔ h.row ∈ rows ∧ h.id = v.order.getD h.row "" ∧
      (v.doc h.id).bind (Doc.rowScore A k col p query filter) = some h.score := by
  simp only [View.candidates, List.mem_filterMap, Option.map_eq_some_iff]
  constructor
  · rintro ⟨row, hrow, score, hs, rfl⟩
    exact ⟨hrow, rfl, hs⟩
  · rintro ⟨hrow, hid, hs⟩
    refine ⟨h.row, hrow, h.score, ?_, ?_⟩
    · rw [← hid]
      exact hs
    · rw [← hid]

lemma RankedBy.scan {γ : Type*} [LinearOrder γ] {key : SearchHit → γ}
    {hits rest all : List SearchHit} (h : RankedBy p key topK hits rest all) (hk : 0 < topK)
    {rows : List ℕ} (hc : p.Compares key (all ++ v.candidates A k col p query filter rows)) :
    ∃ rest', RankedBy p key topK (rows.foldl (v.scanRow A k col p query topK filter) hits) rest'
      (all ++ v.candidates A k col p query filter rows) := by
  induction rows generalizing hits rest all with
  | nil => exact ⟨rest, by simpa [View.candidates] using h⟩
  | cons row rows ih =>
    rw [List.foldl_cons]
    cases hs : (v.doc (v.order.getD row "")).bind (Doc.rowScore A k col p query filter) with
    | none =>
      have hscan : v.scanRow A k col p query topK filter hits row = hits := by
        simp only [View.scanRow, hs]
      have hcand : v.candidates A k col p query filter (row :: rows) =
          v.candidates A k col p query filter rows := by
        simp only [View.candidates, List.filterMap_cons, hs, Option.map_none]
      rw [hcand] at hc ⊢
      rw [hscan]
      exact ih h hc
    | some score =>
      have hscan : v.scanRow A k col p query topK filter hits row =
          Query.offer p topK hits ⟨row, v.order.getD row "", score⟩ := by
        simp only [View.scanRow, hs]
      have hcand : v.candidates A k col p query filter (row :: rows) =
          ⟨row, v.order.getD row "", score⟩ :: v.candidates A k col p query filter rows := by
        simp only [View.candidates, List.filterMap_cons, hs, Option.map_some]
      rw [hcand, List.append_cons] at hc ⊢
      obtain ⟨rest₁, h₁⟩ : ∃ rest', RankedBy p key topK
          (Query.offer p topK hits ⟨row, v.order.getD row "", score⟩) rest' _ :=
        h.offer hk (hc.subset (List.subset_append_left _ _))
      rw [hscan]
      exact ih h₁ hc

end Scan

end CloudyNeigh.Query
