import CloudyNeigh.QueryRefine

/-!
# The view decides every observation

`Search` on the columns is `Search` on the view, so two tables that represent
the same view are observationally equal, NaN scores included: both scan the same
candidates in the same order.
-/
namespace CloudyNeigh.Query
open Replay VectorFormat

section Search
variable {t : Table} {A : Arith} {col : String} {c : FlatVectorCol} {p : Plan} {query : List F32}
  {filter : Option EqualityFilter} {row : ℕ}

lemma Table.WF.index_docIDs (h : t.WF) (hr : row < t.numRows) :
    t.index (t.docIDs.getD row "") = some row := by
  have hlt : row < t.docIDs.length := h.docIDs ▸ hr
  rw [h.index]
  simp [List.getElem?_eq_getElem hlt]

lemma Table.WF.rowScore_view (h : t.WF) (hc : t.vectors col = some c) (hr : row < t.numRows) :
    t.rowScore A c p query filter row =
      (t.view.doc (t.docIDs.getD row "")).bind
        (Doc.rowScore A t.kernels col p query filter) := by
  rw [Table.WF.doc_of_index (h.index_docIDs hr)]
  unfold Table.rowScore
  cases ht : t.isTombstoned row with
  | true => rfl
  | false =>
    simp only [Bool.false_or, Bool.false_eq_true, if_false, Option.bind_some, Doc.rowScore,
      Table.docAt, hc, FlatVectorCol.at]
    cases hv : c.hasVec.getD row false <;> rfl

lemma Table.WF.scanRow_view (h : t.WF) (hc : t.vectors col = some c) (hr : row < t.numRows)
    (topK : ℕ) (hits : List SearchHit) :
    t.scanRow A c p query topK filter hits row =
      t.view.scanRow A t.kernels col p query topK filter hits row := by
  unfold Table.scanRow View.scanRow
  rw [h.rowScore_view hc hr]
  rfl

/-- A scored row is live, and its record is the one the view shows for its id. -/
lemma Table.WF.recordAt_scored (h : t.WF) {score : F32} (hr : row < t.numRows)
    (hs : t.rowScore A c p query filter row = some score) :
    t.recordAt row (t.docIDs.getD row "") = render t.kernels (t.docIDs.getD row "")
      ((t.view.doc (t.docIDs.getD row "")).getD Overlay.blank) := by
  have hlive : t.isTombstoned row = false := by
    unfold Table.rowScore at hs
    split at hs
    · cases hs
    · rename_i hcond
      simp only [Bool.or_eq_true, not_or, Bool.not_eq_true] at hcond
      exact hcond.1
  rw [Table.recordAt_eq, Table.WF.doc_of_index (h.index_docIDs hr), hlive]
  rfl

theorem Table.Represents.search {k : Kernels} {v : View} (h : t.Represents k v) (A : Arith)
    (col : String) (query : List F32) (topK : ℤ) (metric : DistanceMetric)
    (filter : Option EqualityFilter) :
    t.Search A col query topK metric filter = v.Search A k col query topK metric filter := by
  obtain ⟨hwf, rfl, rfl⟩ := h
  have hlen : t.view.order.length = t.numRows := hwf.docIDs
  unfold Table.Search View.Search
  split
  · rfl
  · cases hc : t.vectors col with
    | none => simp [Table.view, Table.dims, hc]
    | some c =>
      have hdim : t.view.dims col = some c.dim := by simp [Table.view, Table.dims, hc]
      simp only [hdim, hlen]
      split
      · rfl
      · split
        · rfl
        · cases plan A query metric with
          | error e => rfl
          | ok p =>
            have hany : filter.any (fun f => !t.view.cols f.Field) =
                filter.any (fun f => (t.attrs f.Field).isNone) := by
              simp [Table.view]
            have hhits : (List.range t.numRows).foldl
                  (t.scanRow A c p query topK.toNat filter) [] =
                (List.range t.numRows).foldl
                  (t.view.scanRow A t.kernels col p query topK.toNat filter) [] := by
              apply List.foldl_ext
              intro hits row hrow
              exact hwf.scanRow_view hc (List.mem_range.mp hrow) topK.toNat hits
            simp only [hany]
            split
            · rfl
            · rw [← hhits]
              congr 1
              apply List.map_congr_left
              intro hit hmem
              have hscan := (List.perm_insertionSort _ _).mem_iff.mp hmem
              rcases mem_scan hscan with hnil | ⟨hrow, hid, hscore⟩
              · cases hnil
              · rw [hid, hwf.recordAt_scored (List.mem_range.mp hrow) hscore]

end Search

theorem Table.Represents.get {t : Table} {k : Kernels} {v : View} (h : t.Represents k v)
    (id : String) : t.Get id = v.Get k id := by
  rw [Table.get_view, h.kernels, h.view]

theorem Table.Represents.obsEq {t t' : Table} {k : Kernels} {v : View} (h : t.Represents k v)
    (h' : t'.Represents k v) (A : Arith) : ObsEq A t t' := by
  constructor
  · intro id
    rw [h.get, h'.get]
  · intro col query topK metric filter
    rw [h.search, h'.search]

end CloudyNeigh.Query
