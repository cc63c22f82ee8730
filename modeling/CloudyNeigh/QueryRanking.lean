import CloudyNeigh.QueryHits
import CloudyNeigh.QueryInvariant

/-!
# Search is exhaustive ranking

The documents that a search may return and their scores, stated on the documents
alone, and that `Search` returns the front of their ranking. The rows and the
history of the table do not matter.
-/
namespace CloudyNeigh.Query
open Checked Replay TopK VectorFormat

/-- The live document of an id, as the columns hold it. -/
def GoTable.document (t : GoTable) (id : String) : Option Doc := t.abs.view.doc id

/-- The document has the vector `sv` in the column and takes part in the search. -/
structure Doc.Eligible (d : Doc) (col : String) (metric : DistanceMetric)
    (filter : Option EqualityFilter) (sv : StoredVec) : Prop where
  vector : d.1 col = some sv
  norm : metric = .cosine → sv.invNorm.eq F32.zero = false
  filter : ∀ f, filter = some f → ∃ v, f.Value = some v ∧ d.2 f.Field = some v

/-- The score of a stored vector under a metric. -/
def distance (A : Arith) (k : Kernels) (metric : DistanceMetric) (query : List F32)
    (sv : StoredVec) : F32 :=
  match metric with
  | .cosine =>
    A.sub F32.one (clampSim
      (A.mul (A.mul (Kernels.dot k query sv.cell) (vectorInvNorm A query)) sv.invNorm))
  | .euclideanSquared => Kernels.l2 k query sv.cell
  | .dotProduct => Kernels.dot k query sv.cell
  | .unspecified => F32.zero

/-- The document of `id` is eligible, with this score. -/
def Scores (A : Arith) (t : GoTable) (col : String) (query : List F32) (metric : DistanceMetric)
    (filter : Option EqualityFilter) (id : String) (score : F32) : Prop :=
  ∃ d sv, t.document id = some d ∧ d.Eligible col metric filter sv ∧
    score = distance A t.kernels metric query sv

/-- A better score comes first, equal scores by id. -/
def RanksBefore (metric : DistanceMetric) (a b : String × F32) : Prop :=
  (if metric = .dotProduct then b.2.lt a.2 = true else a.2.lt b.2 = true) ∨
    (a.2.eq b.2 = true ∧ a.1 < b.1)

section Plans
variable {A : Arith} {query : List F32} {metric : DistanceMetric}

lemma plan_known (hm : metric ≠ .unspecified)
    (hq : metric = .cosine → (vectorInvNorm A query).eq F32.zero = false) :
    ∃ p, plan A query metric = .ok p ∧ p.metric = metric ∧
      p.isDesc = decide (metric = .dotProduct) ∧
      (metric = .cosine → p.invQ = vectorInvNorm A query) := by
  cases metric with
  | unspecified => exact absurd rfl hm
  | cosine =>
    refine ⟨⟨.cosine, cmpAsc, false, vectorInvNorm A query⟩, ?_, rfl, rfl, fun _ => rfl⟩
    simp [plan, hq rfl]
  | euclideanSquared => exact ⟨_, rfl, rfl, rfl, fun h => by cases h⟩
  | dotProduct => exact ⟨_, rfl, rfl, rfl, fun h => by cases h⟩

lemma passes_iff {filter : Option EqualityFilter} {d : Doc} :
    passes filter (filter.bind fun f => d.2 f.Field) = true ↔
      ∀ f, filter = some f → ∃ v, f.Value = some v ∧ d.2 f.Field = some v := by
  cases filter with
  | none => simp [passes]
  | some f =>
    simp only [passes, Option.bind_some, Option.some.injEq, forall_eq']
    cases d.2 f.Field with
    | none => simp
    | some a =>
      cases f.Value with
      | none => simp
      | some b => simp

lemma rowScore_iff {k : Kernels} {col : String} {p : Plan} {filter : Option EqualityFilter}
    {d : Doc} {score : F32} (hm : p.metric = metric) (hm' : metric ≠ .unspecified)
    (hq : metric = .cosine → p.invQ = vectorInvNorm A query) :
    Doc.rowScore A k col p query filter d = some score ↔
      ∃ sv, d.Eligible col metric filter sv ∧ score = distance A k metric query sv := by
  have hscore : ∀ sv : StoredVec, Query.score A k p query sv.cell sv.invNorm = some score ↔
      (metric = .cosine → sv.invNorm.eq F32.zero = false) ∧
        distance A k metric query sv = score := by
    intro sv
    subst hm
    unfold Query.score distance
    cases hp : p.metric with
    | unspecified => exact absurd hp hm'
    | cosine =>
      cases hz : sv.invNorm.eq F32.zero <;> simp [hq hp]
    | euclideanSquared => simp
    | dotProduct => simp
  unfold Doc.rowScore
  constructor
  · intro h
    obtain ⟨sv, hsv, hs⟩ := Option.bind_eq_some_iff.mp h
    split at hs
    · rename_i hpass
      obtain ⟨hnorm, hsc⟩ := (hscore sv).mp hs
      exact ⟨sv, ⟨hsv, hnorm, passes_iff.mp hpass⟩, hsc.symm⟩
    · cases hs
  · rintro ⟨sv, ⟨hsv, hnorm, hfilter⟩, hsc⟩
    rw [hsv, Option.bind_some, if_pos (passes_iff.mpr hfilter)]
    exact (hscore sv).mpr ⟨hnorm, hsc.symm⟩

end Plans

section Ranking
variable {A : Arith} {t : Table} {col : String} {p : Plan} {query : List F32}
  {filter : Option EqualityFilter} {topK : ℤ}

/-- All candidates of a table, best first. -/
def Table.ranking (A : Arith) (t : Table) (col : String) (p : Plan) (query : List F32)
    (filter : Option EqualityFilter) : List SearchHit :=
  sortBy (hitKey p.isDesc)
    (t.view.candidates A t.kernels col p query filter (List.range t.numRows))

lemma Table.WF.mem_ranking (h : t.WF) {hit : SearchHit} :
    hit ∈ t.ranking A col p query filter ↔ t.index hit.id = some hit.row ∧
      (t.view.doc hit.id).bind (Doc.rowScore A t.kernels col p query filter) = some hit.score := by
  unfold Table.ranking
  rw [(sortBy_perm _ _).mem_iff, mem_candidates, List.mem_range]
  constructor
  · rintro ⟨hrow, hid, hs⟩
    refine ⟨?_, hs⟩
    rw [hid]
    exact h.index_docIDs hrow
  · rintro ⟨hi, hs⟩
    refine ⟨h.row_lt hi, ?_, hs⟩
    have := (h.index hit.id hit.row).mp hi
    simp [Table.view, List.getD_eq_getElem?_getD, this]

/-- Two candidates of one id are the same candidate. -/
lemma Table.WF.candidates_id (h : t.WF) : ∀ a ∈ t.view.candidates A t.kernels col p query filter
      (List.range t.numRows), ∀ b ∈ t.view.candidates A t.kernels col p query filter
      (List.range t.numRows), a.id = b.id → a = b := by
  intro a ha b hb hid
  have ha' := h.mem_ranking.mp ((sortBy_perm (hitKey p.isDesc) _).mem_iff.mpr ha)
  have hb' := h.mem_ranking.mp ((sortBy_perm (hitKey p.isDesc) _).mem_iff.mpr hb)
  rw [hid] at ha'
  have hrow : a.row = b.row := Option.some.inj (ha'.1.symm.trans hb'.1)
  have hscore : a.score = b.score := Option.some.inj (ha'.2.symm.trans hb'.2)
  obtain ⟨r, i, s⟩ := a
  obtain ⟨r', i', s'⟩ := b
  simp_all

lemma candidates_nodup {k : Kernels} {v : View} {rows : List ℕ} (h : rows.Nodup) :
    (v.candidates A k col p query filter rows).Nodup := by
  apply h.filterMap
  intro r r' hit hr hr'
  obtain ⟨s, -, rfl⟩ := Option.map_eq_some_iff.mp hr
  obtain ⟨s', -, heq⟩ := Option.map_eq_some_iff.mp hr'
  exact (congrArg SearchHit.row heq).symm

/-- A ranking is strictly increasing. -/
lemma Table.WF.ranking_lt (h : t.WF) : (t.ranking A col p query filter).Pairwise fun a b =>
    hitKey p.isDesc a < hitKey p.isDesc b := by
  have hnodup : (t.ranking A col p query filter).Nodup :=
    (sortBy_perm _ _).nodup_iff.mpr (candidates_nodup List.nodup_range)
  refine (hnodup.imp_of_mem ?_).and (sortBy_pairwise _ _) |>.imp fun hab => lt_of_le_of_ne hab.2 hab.1
  intro a b ha hb hne hkey
  exact hne (h.candidates_id a ((sortBy_perm _ _).mem_iff.mp ha) b
    ((sortBy_perm _ _).mem_iff.mp hb) (congrArg (fun k => (ofLex k).2) hkey))

/-- The columns a search needs, or no candidate. -/
lemma candidates_nil {k : Kernels} {v : View} {rows : List ℕ} {f : EqualityFilter}
    (hf : ∀ id d, v.doc id = some d → d.2 f.Field = none) :
    v.candidates A k col p query (some f) rows = [] := by
  rw [List.eq_nil_iff_forall_not_mem]
  intro hit hm
  obtain ⟨-, -, hs⟩ := mem_candidates.mp hm
  obtain ⟨d, hd, hs⟩ := Option.bind_eq_some_iff.mp hs
  obtain ⟨sv, -, hs⟩ := Option.bind_eq_some_iff.mp hs
  split at hs
  · rename_i hpass
    obtain ⟨v, -, hv⟩ := passes_iff.mp hpass f rfl
    rw [hf hit.id d hd] at hv
    cases hv
  · cases hs

lemma scan_of_candidates_nil {k : Kernels} {v : View} {rows : List ℕ} {n : ℕ}
    (h : v.candidates A k col p query filter rows = []) (hits : List SearchHit) :
    rows.foldl (v.scanRow A k col p query n filter) hits = hits := by
  induction rows with
  | nil => rfl
  | cons row rows ih =>
    have hnone : (v.doc (v.order.getD row "")).bind (Doc.rowScore A k col p query filter) = none := by
      simpa using List.filterMap_eq_nil_iff.mp h row List.mem_cons_self
    have hrest : v.candidates A k col p query filter rows = [] := by
      simpa only [View.candidates, List.filterMap_cons, hnone, Option.map_none] using h
    rw [List.foldl_cons, show v.scanRow A k col p query n filter hits row = hits by
      simp only [View.scanRow, hnone]]
    exact ih hrest

/-- The returns before the scan are those of a scan without candidates. -/
theorem Table.WF.search_scan (h : t.WF) {c : FlatVectorCol} {metric : DistanceMetric}
    (hc : t.vectors col = some c) (hq : query.length = c.dim) (hk : 0 < topK)
    (hp : plan A query metric = .ok p) :
    t.Search A col query topK metric filter =
      .ok ((sortFunc p.cmp ((List.range t.numRows).foldl
        (t.view.scanRow A t.kernels col p query topK.toNat filter) [])).map fun hit =>
        ⟨render t.kernels hit.id ((t.view.doc hit.id).getD Overlay.blank), hit.score⟩) := by
  have hlen : t.view.order.length = t.numRows := h.docIDs
  rw [(⟨h, rfl, rfl⟩ : t.Represents t.kernels t.view).search]
  unfold View.Search
  have hdim : t.view.dims col = some c.dim := by simp [Table.view, Table.dims, hc]
  rw [if_neg (by omega), hdim]
  simp only [hlen, hp]
  by_cases hrows : t.numRows = 0
  · rw [if_pos hrows, hrows]
    rfl
  rw [if_neg hrows, if_neg (by simp [hq])]
  by_cases hany : filter.any (fun f => !t.view.cols f.Field) = true
  · -- no document has an attribute that has no column
    rw [if_pos hany]
    obtain ⟨f, rfl, hf⟩ := Option.any_eq_true .. |>.mp hany
    rw [scan_of_candidates_nil]
    · rfl
    · apply candidates_nil
      intro id d hd
      obtain ⟨row, -, hd⟩ := Option.bind_eq_some_iff.mp hd
      split at hd
      · cases hd
      · cases hd
        have hnone : t.attrs f.Field = none := by simpa [Table.view] using hf
        simp [Table.docAt, hnone]
  · rw [if_neg hany]

theorem Table.WF.search_ranking (h : t.WF) {c : FlatVectorCol} {metric : DistanceMetric}
    (hc : t.vectors col = some c) (hq : query.length = c.dim) (hk : 0 < topK)
    (hp : plan A query metric = .ok p)
    (hn : ∀ hit ∈ t.ranking A col p query filter, hit.score.isNaN = false) :
    t.Search A col query topK metric filter =
      .ok (((t.ranking A col p query filter).take topK.toNat).map fun hit =>
        ⟨render t.kernels hit.id ((t.view.doc hit.id).getD Overlay.blank), hit.score⟩) := by
  have hcompares := (plan_ordered hp).compares fun hit hm =>
    hn hit ((sortBy_perm _ _).mem_iff.mpr hm)
  obtain ⟨rest, hranked⟩ := (RankedBy.nil p (hitKey p.isDesc) topK.toNat).scan (by omega)
    (by rwa [List.nil_append])
  rw [List.nil_append] at hranked
  rw [h.search_scan hc hq hk hp, hranked.sortFunc_take hcompares h.candidates_id]
  rfl

end Ranking

section Documents
variable {A : Arith} {t : GoTable} {col : String} {p : Plan} {query : List F32}
  {metric : DistanceMetric} {filter : Option EqualityFilter}

/-- What the columns contribute to a ranking. -/
def pairKey (isDesc : Bool) (e : String × F32) : ℤ ×ₗ String := toLex (orderedRank isDesc e.2, e.1)

def GoTable.ranked (A : Arith) (t : GoTable) (col : String) (p : Plan) (query : List F32)
    (filter : Option EqualityFilter) : List (String × F32) :=
  (t.abs.ranking A col p query filter).map fun hit => (hit.id, hit.score)

lemma GoTable.WF.mem_ranked (h : t.WF) {e : String × F32} :
    e ∈ t.ranked A col p query filter ↔
      (t.document e.1).bind (Doc.rowScore A t.kernels col p query filter) = some e.2 := by
  simp only [GoTable.ranked, List.mem_map]
  constructor
  · rintro ⟨hit, hm, rfl⟩
    exact (h.lengths.mem_ranking.mp hm).2
  · intro hs
    obtain ⟨d, hd, -⟩ := Option.bind_eq_some_iff.mp hs
    obtain ⟨row, hrow, -⟩ := Option.bind_eq_some_iff.mp hd
    exact ⟨⟨row, e.1, e.2⟩, h.lengths.mem_ranking.mpr ⟨hrow, hs⟩, rfl⟩

lemma GoTable.WF.mem_ranked_scores (h : t.WF) (hm : p.metric = metric) (hm' : metric ≠ .unspecified)
    (hq : metric = .cosine → p.invQ = vectorInvNorm A query) {id : String} {score : F32} :
    (id, score) ∈ t.ranked A col p query filter ↔ Scores A t col query metric filter id score := by
  rw [h.mem_ranked, Option.bind_eq_some_iff]
  constructor
  · rintro ⟨d, hd, hrow⟩
    obtain ⟨sv, hsv, hsc⟩ := (rowScore_iff hm hm' hq).mp hrow
    exact ⟨d, sv, hd, hsv, hsc⟩
  · rintro ⟨d, sv, hd, hsv, hsc⟩
    exact ⟨d, hd, (rowScore_iff hm hm' hq).mpr ⟨sv, hsv, hsc⟩⟩

lemma GoTable.WF.ranked_lt (h : t.WF) : (t.ranked A col p query filter).Pairwise fun a b =>
    pairKey p.isDesc a < pairKey p.isDesc b := by
  rw [GoTable.ranked, List.pairwise_map]
  exact h.lengths.ranking_lt

/-- The ranking is the only increasing list of the eligible documents. -/
lemma GoTable.WF.ranked_eq {u : GoTable} (h : t.WF) (hu : u.WF) (hk : u.kernels = t.kernels)
    (hdoc : ∀ id, u.document id = t.document id) :
    u.ranked A col p query filter = t.ranked A col p query filter := by
  have hnodup : ∀ {l : List (String × F32)},
      (l.Pairwise fun a b => pairKey p.isDesc a < pairKey p.isDesc b) → l.Nodup :=
    fun hl => hl.imp fun hab heq => absurd hab (by rw [heq]; exact lt_irrefl _)
  refine List.Perm.eq_of_pairwise ?_ hu.ranked_lt h.ranked_lt ?_
  · intro a b _ _ hab hba
    exact absurd hba (lt_asymm hab)
  · rw [List.perm_ext_iff_of_nodup (hnodup hu.ranked_lt) (hnodup h.ranked_lt)]
    intro e
    rw [hu.mem_ranked, h.mem_ranked, hdoc, hk]

lemma ranksBefore_of_key (hd : p.isDesc = decide (metric = .dotProduct)) {a b : String × F32}
    (ha : a.2.isNaN = false) (hb : b.2.isNaN = false)
    (h : pairKey p.isDesc a < pairKey p.isDesc b) : RanksBefore metric a b := by
  unfold RanksBefore
  rw [F32.eq_iff ha hb, F32.lt_iff ha hb, F32.lt_iff hb ha]
  rcases Prod.Lex.toLex_lt_toLex.mp h with hlt | ⟨heq, hid⟩
  · left
    simp only [orderedRank, hd, decide_eq_true_eq] at hlt
    split
    · rename_i hm
      simp only [hm, if_true] at hlt
      omega
    · rename_i hm
      simpa only [hm, if_false] using hlt
  · right
    refine ⟨?_, hid⟩
    simp only [orderedRank] at heq
    split at heq <;> omega

/-- The result of a search, from the ranking and the documents. -/
lemma GoTable.WF.search_ranked (h : t.WF) {c : GoCol} {topK : ℤ}
    (hc : t.vectors.lookup col = some c) (hq : query.length = c.dim) (hk : 0 < topK)
    (hp : plan A query metric = .ok p)
    (hn : ∀ e ∈ t.ranked A col p query filter, e.2.isNaN = false) (R : RangeOrder String) :
    t.Search A R col query topK metric filter =
      some (.ok (((t.ranked A col p query filter).take topK.toNat).map fun e =>
        ⟨render t.kernels e.1 ((t.document e.1).getD Overlay.blank), e.2⟩)) := by
  have hcol : t.abs.vectors col = some c.abs := by rw [GoTable.abs_vectors, hc, Option.map_some]
  have hnum : ∀ hit ∈ t.abs.ranking A col p query filter, hit.score.isNaN = false :=
    fun hit hm => hn (hit.id, hit.score) (List.mem_map_of_mem hm)
  rw [h.search, h.lengths.search_ranking hcol hq hk hp hnum, GoTable.ranked, ← List.map_take,
    List.map_map]
  rfl

end Documents

/-- `Search` returns the front of the ranking of the eligible documents, each with
its own record, and any other history that leaves the same documents gives the same
result. -/
theorem search_is_exhaustive_ranking (A : Arith) (k : Kernels) (ops : List TableOp) (s : Tracked)
    (hs : (Tracked.new k).run A ops = some s) (col : String) (c : GoCol)
    (hc : s.table.vectors.lookup col = some c) (query : List F32) (hq : query.length = c.dim)
    (topK : ℤ) (hk : 0 < topK) (metric : DistanceMetric) (hm : metric ≠ .unspecified)
    (hnorm : metric = .cosine → (vectorInvNorm A query).eq F32.zero = false)
    (filter : Option EqualityFilter)
    (hnan : ∀ id score, Scores A s.table col query metric filter id score →
      score.isNaN = false) (R : RangeOrder String) :
    ∃ (ranked : List (String × F32)) (results : List ScoredResult),
      (∀ id score, (id, score) ∈ ranked ↔ Scores A s.table col query metric filter id score) ∧
      ranked.Pairwise (RanksBefore metric) ∧
      s.table.Search A R col query topK metric filter = some (.ok results) ∧
      List.Forall₂ (fun e r => s.table.Get R e.1 = some (some r.record) ∧ r.score = e.2)
        (ranked.take topK.toNat) results ∧
      ∀ ops' s' R', (Tracked.new k).run A ops' = some s' →
        (∀ id, s'.table.document id = s.table.document id) →
        (∀ c', s'.table.vectors.lookup col = some c' → c'.dim = query.length) →
        s'.table.Search A R' col query topK metric filter = some (.ok results) := by
  obtain ⟨p, hp, hpm, hdesc, hinvQ⟩ := plan_known hm hnorm
  obtain ⟨hinv, hkeep⟩ := (Tracked.new_inv A k).of_run hs
  have hwf := hinv.wf
  have hmem : ∀ id score, (id, score) ∈ s.table.ranked A col p query filter ↔
      Scores A s.table col query metric filter id score :=
    fun id score => hwf.mem_ranked_scores hpm hm hinvQ
  have hnum : ∀ e ∈ s.table.ranked A col p query filter, e.2.isNaN = false :=
    fun e he => hnan e.1 e.2 ((hmem e.1 e.2).mp he)
  have hsearch := hwf.search_ranked hc hq hk hp hnum R
  refine ⟨s.table.ranked A col p query filter, _, hmem, ?_, hsearch, ?_, ?_⟩
  · exact hwf.ranked_lt.imp_of_mem fun ha hb hab =>
      ranksBefore_of_key hdesc (hnum _ ha) (hnum _ hb) hab
  · rw [List.forall₂_map_right_iff, List.forall₂_same]
    intro e he
    refine ⟨?_, rfl⟩
    have hdoc := hwf.mem_ranked.mp (List.mem_of_mem_take he)
    obtain ⟨d, hd, -⟩ := Option.bind_eq_some_iff.mp hdoc
    rw [hwf.get, Table.get_view, View.Get, show s.table.abs.view.doc e.1 = some d from hd, hd]
    rfl
  · intro ops' s' R' hs' hdocs hdims
    obtain ⟨hinv', hkeep'⟩ := (Tracked.new_inv A k).of_run hs'
    have hkern : s'.table.kernels = s.table.kernels := hkeep'.kernels.trans hkeep.kernels.symm
    have heq : s'.table.ranked A col p query filter = s.table.ranked A col p query filter :=
      hwf.ranked_eq hinv'.wf hkern hdocs
    cases hc' : s'.table.vectors.lookup col with
    | some c' =>
      rw [hinv'.wf.search_ranked hc' (hdims c' hc').symm hk hp (by rwa [heq]) R', heq, hkern]
      simp only [hdocs]
    | none =>
      -- without the column no document of either table has a vector in it
      have hnil : s'.table.ranked A col p query filter = [] := by
        rw [List.eq_nil_iff_forall_not_mem]
        intro e he
        obtain ⟨d, hd, hrow⟩ := Option.bind_eq_some_iff.mp (hinv'.wf.mem_ranked.mp he)
        obtain ⟨row, -, hd⟩ := Option.bind_eq_some_iff.mp hd
        obtain ⟨sv, hsv, -⟩ := Option.bind_eq_some_iff.mp hrow
        split at hd
        · cases hd
        · cases hd
          simp [Table.docAt, hc'] at hsv
      rw [← heq, hnil]
      simp [GoTable.Search, hc', not_le.mpr hk]

/-- The float32 operations on 0, 1, 2^64 and infinity, as far as the searches below meet them. -/
def sampleArith : Arith where
  add x y := if x = F32.zero then y else x
  sub x y := if x = y then F32.zero else x
  mul x y := if x = F32.one then y else if y = F32.one then x else 0x7f800000
  invSqrt x := if x = 0x7f800000 then F32.zero else F32.one

def sampleKernels : Kernels where
  Dot := fun _ _ => F32.one
  L2 := fun _ _ => F32.zero

/-- Two documents with the vector [1]. -/
def sampleOps : List TableOp :=
  [.upsert .stored "b" (AList.singleton "v" [F32.one]) ∅,
    .upsert .stored "a" (AList.singleton "v" [F32.one]) ∅]

def sampleTable : Tracked :=
  ((Tracked.new sampleKernels).run sampleArith sampleOps).getD (Tracked.new sampleKernels)

lemma sampleTable_run : (Tracked.new sampleKernels).run sampleArith sampleOps = some sampleTable := by
  obtain ⟨u, hu, -⟩ := (Tracked.new_inv sampleArith sampleKernels).run sampleOps
  rw [sampleTable, hu]
  rfl

lemma sampleTable_col : sampleTable.table.vectors.lookup "v" =
    some ⟨1, some [F32.one, F32.one], none, [true, true], [F32.one, F32.one]⟩ := by
  decide +kernel

lemma sample_number (query : List F32) (id : String) (score : F32)
    (h : Scores sampleArith sampleTable.table "v" query .cosine none id score) :
    score.isNaN = false := by
  obtain ⟨d, sv, -, -, rfl⟩ := h
  have hsub : ∀ y, (sampleArith.sub F32.one y).isNaN = false := by
    intro y
    simp only [sampleArith]
    split <;> decide
  exact hsub _

theorem search_is_exhaustive_ranking_cosine : ∃ (ranked : List (String × F32))
    (results : List ScoredResult),
    (∀ id score, (id, score) ∈ ranked ↔
      Scores sampleArith sampleTable.table "v" [F32.one] .cosine none id score) ∧
    ranked.Pairwise (RanksBefore .cosine) ∧
    sampleTable.table.Search sampleArith .stored "v" [F32.one] 1 .cosine none =
      some (.ok results) := by
  obtain ⟨ranked, results, hmem, hsorted, hsearch, -⟩ :=
    search_is_exhaustive_ranking sampleArith sampleKernels sampleOps sampleTable sampleTable_run
      "v" _ sampleTable_col [F32.one] rfl 1 (by decide) .cosine (by decide)
      (fun _ => by decide) none (sample_number [F32.one]) .stored
  exact ⟨ranked, results, hmem, hsorted, hsearch⟩

/-- The vector [2^64]. -/
def hugeQuery : List F32 := [0x5f800000]

/-- The square of 2^64 overflows: the sum of squares of the query is infinite, its
inverse norm is 0, and the search refuses a query whose norm is not zero. -/
theorem search_refuses_overflowing_query :
    (Tracked.new sampleKernels).run sampleArith sampleOps = some sampleTable ∧
    Scores sampleArith sampleTable.table "v" hugeQuery .cosine none "a" F32.one ∧
    (∀ id score, Scores sampleArith sampleTable.table "v" hugeQuery .cosine none id score →
      score.isNaN = false) ∧
    (hugeQuery.foldl (fun acc x => sampleArith.add acc (sampleArith.mul x x)) F32.zero).eq
      F32.zero = false ∧
    sampleTable.table.Search sampleArith .stored "v" hugeQuery 1 .cosine none =
      some (.error .zeroVector) := by
  refine ⟨sampleTable_run, ?_, sample_number hugeQuery, by decide, ?_⟩
  · have hlive : sampleTable.table.index.lookup "a" = some 1 ∧
        sampleTable.table.tombstones = [false, false] := by decide +kernel
    refine ⟨sampleTable.table.abs.docAt 1, ⟨.f32 [F32.one], F32.one⟩, ?_, ⟨?_, ?_, ?_⟩, by decide⟩
    · rw [GoTable.document, Table.WF.doc_of_index (show _ = some 1 from hlive.1)]
      simp [Table.isTombstoned, GoTable.abs, hlive.2]
    · simp only [Table.docAt, GoTable.abs_vectors, sampleTable_col]
      decide
    · exact fun _ => by decide
    · exact fun f hf => by cases hf
  · have hrows : sampleTable.table.numRows = 2 := by decide +kernel
    have hplan : plan sampleArith hugeQuery .cosine = .error .zeroVector := by
      rw [plan, if_pos (by decide)]
    have hdim : hugeQuery.length = 1 := rfl
    simp [GoTable.Search, sampleTable_col, hrows, hplan, hdim]

end CloudyNeigh.Query
