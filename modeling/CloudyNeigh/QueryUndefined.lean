import CloudyNeigh.QueryRanking

/-!
# Scores that are not numbers

With NaN scores both comparators still order the hits by a key: a class in front
of the rank and the id, equal for all NaN scores. An ascending order puts the NaN
scores before every number and a descending one behind, so whether an undefined
score can take the place of a number depends on the metric alone. Nothing here
depends on the order in which the final sort leaves the NaN scores themselves.
-/
namespace CloudyNeigh.Query
open Checked Replay TopK VectorFormat

/-- The side of the ranking on which a score stands: a NaN is below every number. -/
def scoreClass (isDesc : Bool) (x : F32) : ℤ := if x.isNaN = isDesc then 1 else 0

def totalKey (isDesc : Bool) (h : SearchHit) : ℤ ×ₗ ℤ ×ₗ String :=
  toLex (scoreClass isDesc h.score, if h.score.isNaN then toLex (0, "") else hitKey isDesc h)

section Keys
variable {p : Plan} {a b : SearchHit}

lemma compare_toLex_left {α β : Type*} [LinearOrder α] [LinearOrder β] (x : α) (y z : β) :
    compare (toLex (x, y)) (toLex (x, z)) = compare y z := by
  rcases lt_trichotomy y z with hlt | heq | hgt
  · rw [compare_lt_iff_lt.mpr hlt, compare_lt_iff_lt]
    exact Prod.Lex.toLex_lt_toLex.mpr (Or.inr ⟨rfl, hlt⟩)
  · rw [compare_eq_iff_eq.mpr heq, heq, compare_eq_iff_eq]
  · rw [compare_gt_iff_gt.mpr hgt, compare_gt_iff_gt]
    exact Prod.Lex.toLex_lt_toLex.mpr (Or.inr ⟨rfl, hgt⟩)

lemma totalKey_lt_of_class {isDesc : Bool}
    (h : scoreClass isDesc a.score < scoreClass isDesc b.score) :
    totalKey isDesc a < totalKey isDesc b :=
  Prod.Lex.toLex_lt_toLex.mpr (Or.inl h)

lemma class_le_of_totalKey {isDesc : Bool} (h : totalKey isDesc a ≤ totalKey isDesc b) :
    scoreClass isDesc a.score ≤ scoreClass isDesc b.score := by
  rcases Prod.Lex.toLex_le_toLex.mp h with hlt | ⟨heq, -⟩
  · exact hlt.le
  · exact heq.le

/-- Behind a NaN a descending order has NaN scores only. -/
lemma scoreClass_desc {x y : F32} (h : scoreClass true x ≤ scoreClass true y) :
    x.isNaN = true → y.isNaN = true := by
  intro hx
  by_contra hy
  simp [scoreClass, hx, hy] at h

/-- Before a NaN an ascending order has NaN scores only. -/
lemma scoreClass_asc {x y : F32} (h : scoreClass false x ≤ scoreClass false y) :
    y.isNaN = true → x.isNaN = true := by
  intro hy
  by_contra hx
  simp [scoreClass, Bool.eq_false_of_not_eq_true hx, hy] at h

/-- The comparison of a hit that is not a number. -/
lemma Plan.Ordered.cmp_nan (hp : p.Ordered) (ha : a.score.isNaN = true) :
    p.cmp a b = if b.score.isNaN then .eq else if p.isDesc then .gt else .lt := by
  rw [hp]
  cases p.isDesc <;> cases hb : b.score.isNaN <;>
    simp [cmpAsc, cmpDesc, F32.eq, F32.compare, ha, hb]

lemma Plan.Ordered.cmp_of_nan (hp : p.Ordered) (ha : a.score.isNaN = false)
    (hb : b.score.isNaN = true) : p.cmp a b = if p.isDesc then .lt else .gt := by
  rw [hp]
  cases p.isDesc <;> simp [cmpAsc, cmpDesc, F32.eq, F32.compare, ha, hb]

lemma Plan.Ordered.cmp_total (hp : p.Ordered) (a b : SearchHit) :
    p.cmp a b = compare (totalKey p.isDesc a) (totalKey p.isDesc b) := by
  cases ha : a.score.isNaN with
  | false =>
    cases hb : b.score.isNaN with
    | false =>
      rw [hp.cmp_eq ha hb]
      simp only [totalKey, scoreClass, ha, hb, Bool.false_eq_true, if_false]
      rw [compare_toLex_left]
    | true =>
      rw [hp.cmp_of_nan ha hb]
      cases hd : p.isDesc with
      | false =>
        exact (compare_gt_iff_gt.mpr (totalKey_lt_of_class (by simp [scoreClass, ha, hb]))).symm
      | true =>
        exact (compare_lt_iff_lt.mpr (totalKey_lt_of_class (by simp [scoreClass, ha, hb]))).symm
  | true =>
    rw [hp.cmp_nan ha]
    cases hb : b.score.isNaN with
    | false =>
      cases hd : p.isDesc with
      | false =>
        exact (compare_lt_iff_lt.mpr (totalKey_lt_of_class (by simp [scoreClass, ha, hb]))).symm
      | true =>
        exact (compare_gt_iff_gt.mpr (totalKey_lt_of_class (by simp [scoreClass, ha, hb]))).symm
    | true =>
      rw [if_pos rfl, eq_comm, compare_eq_iff_eq]
      simp only [totalKey, scoreClass, ha, hb, if_true]

/-- The early exit is only taken between two numbers. -/
lemma Plan.beaten_total (h : p.beaten a.score b.score = true) :
    totalKey p.isDesc a ≤ totalKey p.isDesc b := by
  have hnum : a.score.isNaN = false ∧ b.score.isNaN = false := by
    unfold Plan.beaten at h
    split at h <;> simp only [F32.lt, Bool.and_eq_true, Bool.not_eq_true'] at h
    · exact ⟨h.1.2, h.1.1⟩
    · exact ⟨h.1.1, h.1.2⟩
  refine (Prod.Lex.toLex_lt_toLex.mpr (Or.inr ⟨?_, ?_⟩)).le
  · simp only [scoreClass, hnum]
  · simp only [hnum, Bool.false_eq_true, if_false]
    exact Plan.beaten_key hnum.1 hnum.2 h

lemma Plan.Ordered.compares_total (hp : p.Ordered) (hits : List SearchHit) :
    p.Compares (totalKey p.isDesc) hits :=
  ⟨fun a _ b _ => hp.cmp_total a b, fun _ _ _ _ => Plan.beaten_total⟩

end Keys

/-- What a search returns, in terms of the candidates that it keeps and leaves. -/
structure GoTable.Finds (A : Arith) (t : GoTable) (col : String) (query : List F32)
    (metric : DistanceMetric) (filter : Option EqualityFilter) (topK : ℕ)
    (results : List ScoredResult) (hits rest all : List SearchHit) : Prop where
  eligible : ∀ id score, (∃ hit ∈ all, hit.id = id ∧ hit.score = score) ↔
    Scores A t col query metric filter id score
  nodup : (all.map SearchHit.id).Nodup
  best : Best (totalKey (decide (metric = .dotProduct))) topK hits rest all
  results : results = (sortBy (totalKey (decide (metric = .dotProduct))) hits).map fun hit =>
    ⟨render t.kernels hit.id ((t.document hit.id).getD Overlay.blank), hit.score⟩

section Search
variable {A : Arith} {t : GoTable} {col : String} {query : List F32} {metric : DistanceMetric}
  {filter : Option EqualityFilter} {topK : ℤ} {results : List ScoredResult}

lemma plan_ok {p : Plan} (h : plan A query metric = .ok p) :
    metric ≠ .unspecified ∧ p.metric = metric ∧ p.isDesc = decide (metric = .dotProduct) ∧
      (metric = .cosine → p.invQ = vectorInvNorm A query) := by
  have hm : metric ≠ .unspecified := by
    rintro rfl
    cases h
  have hq : metric = .cosine → (vectorInvNorm A query).eq F32.zero = false := by
    rintro rfl
    by_contra hz
    simp [plan, Bool.eq_true_of_not_eq_false hz] at h
  obtain ⟨p', hp', hrest⟩ := plan_known hm hq
  rw [h] at hp'
  cases hp'
  exact ⟨hm, hrest⟩

/-- A search that returns before the scan finds no eligible document. -/
lemma finds_nil (h : ∀ id score, ¬Scores A t col query metric filter id score) (n : ℕ) :
    t.Finds A col query metric filter n [] [] [] [] := by
  refine ⟨fun id score => ?_, List.nodup_nil, Best.nil _ _, rfl⟩
  simp [h id score]

/-- An eligible document stands in a row and has a vector in the column. -/
lemma GoTable.WF.scores_row (h : t.WF) {id : String} {score : F32}
    (hs : Scores A t col query metric filter id score) :
    t.abs.numRows ≠ 0 ∧ (t.abs.vectors col).isSome := by
  obtain ⟨d, sv, hd, he, -⟩ := hs
  obtain ⟨row, hrow, hd⟩ := Option.bind_eq_some_iff.mp hd
  have hlt := h.lengths.row_lt hrow
  refine ⟨by omega, ?_⟩
  split at hd
  · cases hd
  · cases hd
    have hvec := he.vector
    cases hc : t.abs.vectors col with
    | none => simp only [Table.docAt, hc, Option.bind_none, reduceCtorEq] at hvec
    | some c => rfl

/-- A search that reaches its checks passes them if it succeeds. -/
lemma GoTable.WF.search_checks (h : t.WF) (hk : 0 < topK) {R : RangeOrder String}
    (hs : t.Search A R col query topK metric filter = some (.ok results))
    (hrows : t.abs.numRows ≠ 0) {c : FlatVectorCol} (hc : t.abs.vectors col = some c) :
    query.length = c.dim ∧ ∃ p, plan A query metric = .ok p := by
  rw [h.search] at hs
  have hs : t.abs.Search A col query topK metric filter = .ok results := Option.some.inj hs
  simp only [Table.Search, if_neg (not_le.mpr hk), hc, if_neg hrows] at hs
  by_cases hq : query.length = c.dim
  · rw [if_neg (not_not.mpr hq)] at hs
    cases hp : plan A query metric with
    | error e => simp [hp] at hs
    | ok p => exact ⟨hq, p, rfl⟩
  · rw [if_pos hq] at hs
    cases hs

theorem GoTable.WF.search_finds (h : t.WF) (hk : 0 < topK) {R : RangeOrder String}
    (hs : t.Search A R col query topK metric filter = some (.ok results)) :
    ∃ hits rest all, t.Finds A col query metric filter topK.toNat results hits rest all := by
  by_cases hsome : t.abs.numRows ≠ 0 ∧ (t.abs.vectors col).isSome
  · obtain ⟨c, hc⟩ := Option.isSome_iff_exists.mp hsome.2
    obtain ⟨hq, p, hp⟩ := h.search_checks hk hs hsome.1 hc
    rw [h.search] at hs
    have hs : t.abs.Search A col query topK metric filter = .ok results := Option.some.inj hs
    obtain ⟨hm, hpm, hdesc, hinvQ⟩ := plan_ok hp
    have hcompares := (plan_ordered hp).compares_total
      (t.abs.view.candidates A t.abs.kernels col p query filter (List.range t.abs.numRows))
    obtain ⟨rest, hranked⟩ := (RankedBy.nil p (totalKey p.isDesc) topK.toNat).scan (by omega)
      (by rwa [List.nil_append])
    rw [List.nil_append] at hranked
    rw [h.lengths.search_scan hc hq hk hp, hranked.sortFunc hcompares] at hs
    rw [hdesc] at hs hranked
    refine ⟨_, rest, _, fun id score => ?_, ?_, hranked.best, (Except.ok.inj hs).symm⟩
    · rw [← h.mem_ranked_scores hpm hm hinvQ]
      simp only [GoTable.ranked, Table.ranking, List.mem_map, (sortBy_perm _ _).mem_iff,
        Prod.mk.injEq]
    · exact List.Nodup.map_on h.lengths.candidates_id (candidates_nodup List.nodup_range)
  · have hnone : ∀ id score, ¬Scores A t col query metric filter id score :=
      fun id score hscore => hsome (h.scores_row hscore)
    have hnil : results = [] := by
      rw [h.search] at hs
      have hs : t.abs.Search A col query topK metric filter = .ok results := Option.some.inj hs
      simp only [Table.Search, if_neg (not_le.mpr hk)] at hs
      cases hc : t.abs.vectors col with
      | none =>
        rw [hc] at hs
        exact (Except.ok.inj hs).symm
      | some c =>
        have hrows : t.abs.numRows = 0 := by
          by_contra hne
          exact hsome ⟨hne, by rw [hc]; rfl⟩
        rw [hc] at hs
        simp only [if_pos hrows] at hs
        exact (Except.ok.inj hs).symm
    rw [hnil]
    exact ⟨[], [], [], finds_nil hnone _⟩

variable {hits rest all : List SearchHit} {n : ℕ}

lemma GoTable.Finds.mem_results (h : t.Finds A col query metric filter n results hits rest all)
    {r : ScoredResult} : r ∈ results ↔ ∃ hit ∈ hits,
      r = ⟨render t.kernels hit.id ((t.document hit.id).getD Overlay.blank), hit.score⟩ := by
  rw [h.results, List.mem_map]
  simp only [(sortBy_perm _ _).mem_iff, eq_comm]

lemma GoTable.Finds.mem_all (h : t.Finds A col query metric filter n results hits rest all)
    {hit : SearchHit} (hm : hit ∈ hits) : hit ∈ all :=
  h.best.perm.mem_iff.mp (List.mem_append_left rest hm)

lemma GoTable.Finds.results_sorted (h : t.Finds A col query metric filter n results hits rest all) :
    results.Pairwise fun a b => scoreClass (decide (metric = .dotProduct)) a.score ≤
      scoreClass (decide (metric = .dotProduct)) b.score := by
  rw [h.results, List.pairwise_map]
  exact (sortBy_pairwise _ hits).imp fun {a b} hab => class_le_of_totalKey (a := a) (b := b) hab

end Search

/-- No NaN score is returned ahead of a number, and none is returned while an
eligible document with a number is left out. -/
structure NeverWins (A : Arith) (t : GoTable) (col : String) (query : List F32)
    (metric : DistanceMetric) (filter : Option EqualityFilter) (results : List ScoredResult) :
    Prop where
  order : results.Pairwise fun a b => a.score.isNaN = true → b.score.isNaN = true
  slots : (∃ r ∈ results, r.score.isNaN = true) → ∀ id score,
    Scores A t col query metric filter id score → score.isNaN = false →
      ∃ r ∈ results, r.record.Id = id ∧ r.score = score

/-- The eligible documents have undefined scores and numbers both. -/
def MixedScores (A : Arith) (t : GoTable) (col : String) (query : List F32)
    (metric : DistanceMetric) (filter : Option EqualityFilter) : Prop :=
  (∃ id score, Scores A t col query metric filter id score ∧ score.isNaN = true) ∧
    ∃ id score, Scores A t col query metric filter id score ∧ score.isNaN = false

section NeverWins
variable {A : Arith} {t : GoTable} {col : String} {query : List F32} {metric : DistanceMetric}
  {filter : Option EqualityFilter} {results : List ScoredResult} {hits rest all : List SearchHit}
  {n : ℕ}

/-- The descending order of the dot product keeps the NaN scores behind. -/
lemma GoTable.Finds.neverWins_of_dotProduct
    (h : t.Finds A col query .dotProduct filter n results hits rest all) :
    NeverWins A t col query .dotProduct filter results := by
  refine ⟨h.results_sorted.imp fun {a b} hab => ?_, ?_⟩
  · simp only [decide_true] at hab
    exact scoreClass_desc hab
  · rintro ⟨r, hr, hnan⟩ id score hs hnum
    obtain ⟨x, hx, rfl⟩ := h.mem_results.mp hr
    obtain ⟨y, hy, rfl, rfl⟩ := (h.eligible id score).mpr hs
    rcases List.mem_append.mp (h.best.perm.mem_iff.mpr hy) with hkept | hleft
    · exact ⟨_, h.mem_results.mpr ⟨y, hkept, rfl⟩, rfl, rfl⟩
    · have hle := class_le_of_totalKey (h.best.le x hx y hleft)
      simp only [decide_true] at hle
      rw [scoreClass_desc hle hnan] at hnum
      cases hnum

/-- Among scores of one kind nothing can go wrong. -/
lemma GoTable.Finds.neverWins_of_not_mixed
    (h : t.Finds A col query metric filter n results hits rest all)
    (hmixed : ¬MixedScores A t col query metric filter) :
    NeverWins A t col query metric filter results := by
  have hscores : ∀ r ∈ results, Scores A t col query metric filter r.record.Id r.score := by
    intro r hr
    obtain ⟨x, hx, rfl⟩ := h.mem_results.mp hr
    exact (h.eligible _ _).mp ⟨x, h.mem_all hx, rfl, rfl⟩
  constructor
  · apply List.pairwise_of_forall_mem_list
    intro a ha b hb hnan
    by_contra hnum
    exact hmixed ⟨⟨_, _, hscores a ha, hnan⟩, _, _, hscores b hb, Bool.eq_false_of_not_eq_true hnum⟩
  · rintro ⟨r, hr, hnan⟩ id score hs hnum
    exact absurd ⟨⟨_, _, hscores r hr, hnan⟩, id, score, hs, hnum⟩ hmixed

/-- The ascending orders put the NaN scores first, so they take the slots. -/
lemma GoTable.Finds.mixed_wins (h : t.Finds A col query metric filter n results hits rest all)
    (hn : 0 < n) (hm : metric ≠ .dotProduct) (hmixed : MixedScores A t col query metric filter) :
    ¬NeverWins A t col query metric filter results := by
  intro hnever
  obtain ⟨⟨idx, sx, hsx, hnanx⟩, idy, sy, hsy, hnumy⟩ := hmixed
  obtain ⟨x, hx, rfl, rfl⟩ := (h.eligible idx sx).mpr hsx
  -- a NaN score is returned: if `x` is left out, every hit ranks before it
  obtain ⟨z, hz, hnanz⟩ : ∃ z ∈ hits, z.score.isNaN = true := by
    rcases List.mem_append.mp (h.best.perm.mem_iff.mpr hx) with hkept | hleft
    · exact ⟨x, hkept, hnanx⟩
    · have hfull := h.best.full (List.ne_nil_of_mem hleft)
      obtain ⟨z, hz⟩ := List.exists_mem_of_length_pos (l := hits) (by omega)
      have hle := class_le_of_totalKey (h.best.le z hz x hleft)
      simp only [hm, decide_false] at hle
      exact ⟨z, hz, scoreClass_asc hle hnanx⟩
  have hrz := h.mem_results.mpr ⟨z, hz, rfl⟩
  obtain ⟨ry, hry, -, rfl⟩ := hnever.slots ⟨_, hrz, hnanz⟩ idy sy hsy hnumy
  -- the returned number stands behind the NaN scores, against the order
  have hback : results.Pairwise fun a b => b.score.isNaN = true → a.score.isNaN = true := by
    refine h.results_sorted.imp fun {a b} hle => ?_
    simp only [hm, decide_false] at hle
    exact scoreClass_asc hle
  rw [hnever.order.forall_of_forall_of_flip (fun _ _ => id) hback hrz hry hnanz] at hnumy
  cases hnumy

end NeverWins

/-- Undefined scores never win exactly where the metric is the dot product, nothing
is asked for, or the eligible scores are not mixed. -/
theorem undefined_scores_never_win_iff (A : Arith) (k : Kernels) (ops : List TableOp) (s : Tracked)
    (hs : (Tracked.new k).run A ops = some s) (col : String) (query : List F32) (topK : ℤ)
    (metric : DistanceMetric) (filter : Option EqualityFilter) (R : RangeOrder String)
    (results : List ScoredResult)
    (hr : s.table.Search A R col query topK metric filter = some (.ok results)) :
    NeverWins A s.table col query metric filter results ↔
      metric = .dotProduct ∨ topK ≤ 0 ∨ ¬MixedScores A s.table col query metric filter := by
  obtain ⟨hinv, -⟩ := (Tracked.new_inv A k).of_run hs
  by_cases hk : topK ≤ 0
  · have hnil : results = [] := by
      simp only [GoTable.Search, if_pos hk, Option.some.injEq, Except.ok.injEq] at hr
      exact hr.symm
    rw [hnil]
    exact ⟨fun _ => Or.inr (Or.inl hk), fun _ => ⟨List.Pairwise.nil, by simp⟩⟩
  obtain ⟨hits, rest, all, hfinds⟩ := hinv.wf.search_finds (not_le.mp hk) hr
  constructor
  · intro hnever
    by_contra hcond
    rw [not_or, not_or, not_not] at hcond
    exact hfinds.mixed_wins (by omega) hcond.1 hcond.2.2 hnever
  · rintro (rfl | hle | hmixed)
    · exact hfinds.neverWins_of_dotProduct
    · exact absurd hle hk
    · exact hfinds.neverWins_of_not_mixed hmixed

def quietNaN : F32 := 0x7fc00000

/-- The float32 operations on 0, 1 and NaN, as far as the searches below meet them. -/
def nanArith : Arith where
  add x y := if x.isNaN || y.isNaN then quietNaN else if x = F32.zero then y else x
  sub x y := if x.isNaN || y.isNaN then quietNaN else if x = y then F32.zero else x
  mul x y := if x.isNaN || y.isNaN then quietNaN else if x = F32.one then y else x
  invSqrt x := x

def nanKernels : Kernels where
  Dot := fun a b => if (a ++ b).any F32.isNaN then quietNaN else F32.one
  L2 := fun a b => if (a ++ b).any F32.isNaN then quietNaN else F32.zero

/-- A document with the vector [NaN] and one with the vector [1]. -/
def nanOps : List TableOp :=
  [.upsert .stored "n" (AList.singleton "v" [quietNaN]) ∅,
    .upsert .stored "a" (AList.singleton "v" [F32.one]) ∅]

def nanTable : Tracked :=
  ((Tracked.new nanKernels).run nanArith nanOps).getD (Tracked.new nanKernels)

lemma nanTable_run : (Tracked.new nanKernels).run nanArith nanOps = some nanTable := by
  obtain ⟨u, hu, -⟩ := (Tracked.new_inv nanArith nanKernels).run nanOps
  rw [nanTable, hu]
  rfl

lemma nanTable_col : nanTable.table.vectors.lookup "v" =
    some ⟨1, some [quietNaN, F32.one], none, [true, true], [quietNaN, F32.one]⟩ := by
  decide +kernel

/-- The ids and the scores of a search that succeeds. -/
def shown (found : Option (Except SearchErr (List ScoredResult))) : Option (List (String × F32)) :=
  match found with
  | some (.ok results) => some (results.map fun r => (r.record.Id, r.score))
  | _ => none

lemma shown_eq_some {found : Option (Except SearchErr (List ScoredResult))}
    {list : List (String × F32)} (h : shown found = some list) :
    ∃ results, found = some (.ok results) ∧
      (results.map fun r => (r.record.Id, r.score)) = list := by
  unfold shown at h
  split at h
  · exact ⟨_, rfl, Option.some.inj h⟩
  · cases h

lemma nanTable_scores : Scores nanArith nanTable.table "v" [F32.one] .euclideanSquared none "a"
    F32.zero := by
  have hlive : nanTable.table.index.lookup "a" = some 1 ∧
      nanTable.table.tombstones = [false, false] := by decide +kernel
  refine ⟨nanTable.table.abs.docAt 1, ⟨.f32 [F32.one], F32.one⟩, ?_, ⟨?_, ?_, ?_⟩, by decide⟩
  · rw [GoTable.document, Table.WF.doc_of_index (show _ = some 1 from hlive.1)]
    simp [Table.isTombstoned, GoTable.abs, hlive.2]
  · simp only [Table.docAt, GoTable.abs_vectors, nanTable_col]
    decide
  · exact fun h => by cases h
  · exact fun f hf => by cases hf

theorem undefined_scores_never_win_iff_dot_product : ∃ results,
    nanTable.table.Search nanArith .stored "v" [F32.one] 2 .dotProduct none = some (.ok results) ∧
    (results.map fun r => (r.record.Id, r.score)) = [("a", F32.one), ("n", quietNaN)] ∧
    NeverWins nanArith nanTable.table "v" [F32.one] .dotProduct none results := by
  obtain ⟨results, hr, hlist⟩ := shown_eq_some (show shown (nanTable.table.Search nanArith .stored
    "v" [F32.one] 2 .dotProduct none) = some [("a", F32.one), ("n", quietNaN)] by decide +kernel)
  refine ⟨results, hr, hlist, ?_⟩
  exact (undefined_scores_never_win_iff nanArith nanKernels nanOps nanTable nanTable_run "v"
    [F32.one] 2 .dotProduct none .stored results hr).mpr (Or.inl rfl)

/-- Under squared Euclidean distance the document with the NaN vector takes the only
slot, and the document at distance 0 is left out. -/
theorem nan_vector_wins : ∃ results,
    (Tracked.new nanKernels).run nanArith nanOps = some nanTable ∧
    nanTable.table.Search nanArith .stored "v" [F32.one] 1 .euclideanSquared none =
      some (.ok results) ∧
    (results.map fun r => (r.record.Id, r.score)) = [("n", quietNaN)] ∧
    Scores nanArith nanTable.table "v" [F32.one] .euclideanSquared none "a" F32.zero ∧
    ¬NeverWins nanArith nanTable.table "v" [F32.one] .euclideanSquared none results := by
  obtain ⟨results, hr, hlist⟩ := shown_eq_some (show shown (nanTable.table.Search nanArith .stored
    "v" [F32.one] 1 .euclideanSquared none) = some [("n", quietNaN)] by decide +kernel)
  refine ⟨results, nanTable_run, hr, hlist, nanTable_scores, fun hnever => ?_⟩
  obtain ⟨r, hsingle, heq⟩ := List.map_eq_singleton_iff.mp hlist
  rw [Prod.mk.injEq] at heq
  rw [hsingle] at hnever
  have hnan : r.score.isNaN = true := by
    rw [heq.2]
    decide
  obtain ⟨r', hr', hid, -⟩ := hnever.slots ⟨r, List.mem_singleton_self r, hnan⟩ "a" F32.zero
    nanTable_scores (by decide)
  rw [List.mem_singleton.mp hr', heq.1] at hid
  exact absurd hid (by decide)

end CloudyNeigh.Query
