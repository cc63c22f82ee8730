import CloudyNeigh.QueryView

/-!
# One vector column

The lengths that a column keeps, and what a row of it holds after each of the
four ways in which `Upsert` writes it.
-/
namespace CloudyNeigh.Query
open Blocks Replay VectorFormat

structure FlatVectorCol.WF (c : FlatVectorCol) (is16 : Bool) (numRows : ℕ) : Prop where
  dim_pos : 0 < c.dim
  hasVec : c.hasVec.length = numRows
  invNorms : c.invNorms.length = numRows
  data : is16 = false → c.data16 = none ∧ c.data.length = numRows * c.dim
  data16 : is16 = true → ∃ d, c.data16 = some d ∧ d.length = numRows * c.dim

/-- A staged vector has the width of the column it goes to. -/
structure StagedVector.Fits (sv : StagedVector) (is16 : Bool) (dim : ℕ) : Prop where
  values : sv.values.length = dim
  data16 : is16 = true → sv.data16.length = dim

section Columns
variable {c : FlatVectorCol} {is16 : Bool} {n row : ℕ} {sv : StagedVector}

lemma newVectorCol_wf (is16 : Bool) (n : ℕ) {dim : ℕ} (h : 0 < dim) :
    (newVectorCol is16 n dim).WF is16 n := by
  refine ⟨h, by simp [newVectorCol], by simp [newVectorCol], ?_, ?_⟩
  · rintro rfl
    simp [newVectorCol]
  · rintro rfl
    simp [newVectorCol]

lemma newVectorCol_at (is16 : Bool) (n dim row : ℕ) : (newVectorCol is16 n dim).at row = none := by
  simp only [FlatVectorCol.at, newVectorCol, getD_replicate_self]
  rfl

lemma FlatVectorCol.WF.clearRow (h : c.WF is16 n) (row : ℕ) : (c.clearRow row).WF is16 n :=
  ⟨h.dim_pos, by simpa [FlatVectorCol.clearRow] using h.hasVec,
    by simpa [FlatVectorCol.clearRow] using h.invNorms, h.data, h.data16⟩

lemma FlatVectorCol.WF.clearRow_at (h : c.WF is16 n) (hrow : row < n) (r : ℕ) :
    (c.clearRow row).at r = if r = row then none else c.at r := by
  simp only [FlatVectorCol.at, FlatVectorCol.clearRow, FlatVectorCol.cell,
    getD_set _ (h.hasVec ▸ hrow), getD_set _ (h.invNorms ▸ hrow)]
  by_cases hr : r = row <;> simp [hr]

lemma FlatVectorCol.WF.setRow (h : c.WF is16 n) (hrow : row < n) (hf : sv.Fits is16 c.dim) :
    (c.setRow is16 row sv).WF is16 n := by
  have hb := row_bound c.dim hrow
  refine ⟨h.dim_pos, by simpa [FlatVectorCol.setRow] using h.hasVec,
    by simpa [FlatVectorCol.setRow] using h.invNorms, ?_, ?_⟩
  · rintro rfl
    obtain ⟨hnone, hlen⟩ := h.data rfl
    refine ⟨hnone, ?_⟩
    simp only [FlatVectorCol.setRow, Bool.false_eq_true, if_false]
    rw [length_copyAt (by rw [hf.values, hlen]; exact hb), hlen]
  · rintro rfl
    obtain ⟨d, hd, hlen⟩ := h.data16 rfl
    refine ⟨copyAt d (row * c.dim) sv.data16, by simp [FlatVectorCol.setRow, hd], ?_⟩
    rw [length_copyAt (by rw [hf.data16 rfl, hlen]; exact hb), hlen]
    rfl

lemma FlatVectorCol.WF.setRow_cell (h : c.WF is16 n) (hrow : row < n) (hf : sv.Fits is16 c.dim)
    (r : ℕ) : (c.setRow is16 row sv).cell r =
      if r = row then (sv.stored is16).cell else c.cell r := by
  cases is16 with
  | false =>
    obtain ⟨hnone, hlen⟩ := h.data rfl
    simp only [FlatVectorCol.cell, FlatVectorCol.setRow, hnone, StagedVector.stored,
      Bool.false_eq_true, if_false, slice_copyAt hlen hf.values hrow]
    split <;> rfl
  | true =>
    obtain ⟨d, hd, hlen⟩ := h.data16 rfl
    simp only [FlatVectorCol.cell, FlatVectorCol.setRow, hd, StagedVector.stored, if_true,
      Option.map_some, slice_copyAt hlen (hf.data16 rfl) hrow]
    split <;> rfl

lemma FlatVectorCol.WF.setRow_at (h : c.WF is16 n) (hrow : row < n) (hf : sv.Fits is16 c.dim)
    (r : ℕ) : (c.setRow is16 row sv).at r = if r = row then some (sv.stored is16) else c.at r := by
  simp only [FlatVectorCol.at, h.setRow_cell hrow hf]
  simp only [FlatVectorCol.setRow, getD_set _ (h.hasVec ▸ hrow), getD_set _ (h.invNorms ▸ hrow)]
  by_cases hr : r = row <;> simp [hr, StagedVector.stored]

lemma FlatVectorCol.WF.pushRow (h : c.WF is16 n) {o : Option StagedVector}
    (hf : ∀ sv ∈ o, sv.Fits is16 c.dim) : (c.pushRow is16 o).WF is16 (n + 1) := by
  have hn : (n + 1) * c.dim = n * c.dim + c.dim := Nat.succ_mul n c.dim
  refine ⟨h.dim_pos, by simp [FlatVectorCol.pushRow, h.hasVec],
    by simp [FlatVectorCol.pushRow, h.invNorms], ?_, ?_⟩
  · rintro rfl
    obtain ⟨hnone, hlen⟩ := h.data rfl
    refine ⟨hnone, ?_⟩
    simp only [FlatVectorCol.pushRow, Bool.false_eq_true, if_false, List.length_append, hlen, hn]
    cases o with
    | none => simp
    | some sv => simp [(hf sv rfl).values]
  · rintro rfl
    obtain ⟨d, hd, hlen⟩ := h.data16 rfl
    refine ⟨d ++ (o.map StagedVector.data16).getD (List.replicate c.dim 0),
      by simp only [FlatVectorCol.pushRow, hd, if_true, Option.map_some], ?_⟩
    simp only [FlatVectorCol.pushRow, List.length_append, hlen, hn]
    cases o with
    | none => simp
    | some sv => simp [(hf sv rfl).data16 rfl]

lemma FlatVectorCol.WF.pushRow_cell (h : c.WF is16 n) {o : Option StagedVector}
    (hf : ∀ sv ∈ o, sv.Fits is16 c.dim) {r : ℕ} (hr : r < n) :
    (c.pushRow is16 o).cell r = c.cell r := by
  cases is16 with
  | false =>
    obtain ⟨hnone, hlen⟩ := h.data rfl
    have hw : ((o.map StagedVector.values).getD (List.replicate c.dim F32.zero)).length = c.dim := by
      cases o with
      | none => simp
      | some sv => exact (hf sv rfl).values
    simp only [FlatVectorCol.cell, FlatVectorCol.pushRow, hnone, Bool.false_eq_true, if_false,
      slice_append hlen hw hr.le, if_neg hr.ne]
  | true =>
    obtain ⟨d, hd, hlen⟩ := h.data16 rfl
    have hw : ((o.map StagedVector.data16).getD (List.replicate c.dim 0)).length = c.dim := by
      cases o with
      | none => simp
      | some sv => exact (hf sv rfl).data16 rfl
    simp only [FlatVectorCol.cell, FlatVectorCol.pushRow, hd, if_true, Option.map_some,
      slice_append hlen hw hr.le, if_neg hr.ne]

lemma FlatVectorCol.WF.pushRow_cell_last (h : c.WF is16 n) {sv : StagedVector}
    (hf : sv.Fits is16 c.dim) : (c.pushRow is16 (some sv)).cell n = (sv.stored is16).cell := by
  cases is16 with
  | false =>
    obtain ⟨hnone, hlen⟩ := h.data rfl
    simp [FlatVectorCol.cell, FlatVectorCol.pushRow, hnone, slice_append hlen hf.values,
      StagedVector.stored]
  | true =>
    obtain ⟨d, hd, hlen⟩ := h.data16 rfl
    simp [FlatVectorCol.cell, FlatVectorCol.pushRow, hd, slice_append hlen (hf.data16 rfl),
      StagedVector.stored]

lemma FlatVectorCol.WF.pushRow_at (h : c.WF is16 n) {o : Option StagedVector}
    (hf : ∀ sv ∈ o, sv.Fits is16 c.dim) (r : ℕ) :
    (c.pushRow is16 o).at r = if r = n then o.map (·.stored is16) else c.at r := by
  have hhas : (c.pushRow is16 o).hasVec.getD r false =
      if r = n then o.isSome else c.hasVec.getD r false := by
    simp only [FlatVectorCol.pushRow, getD_append_one, h.hasVec]
  have hinv : (c.pushRow is16 o).invNorms.getD r F32.zero =
      if r = n then (o.map StagedVector.invNorm).getD F32.zero
      else c.invNorms.getD r F32.zero := by
    simp only [FlatVectorCol.pushRow, getD_append_one, h.invNorms]
  unfold FlatVectorCol.at
  rw [hhas, hinv]
  by_cases hr : r = n
  · subst hr
    cases o with
    | none => simp
    | some sv => simp [h.pushRow_cell_last (hf sv rfl), StagedVector.stored]
  · simp only [if_neg hr]
    split
    · rename_i hv
      -- a row that has a vector is one of the old rows
      have hlt : r < n := by
        by_contra hge
        rw [List.getD_eq_getElem?_getD, List.getElem?_eq_none (by rw [h.hasVec]; omega)] at hv
        cases hv
      rw [h.pushRow_cell hf hlt]
    · rfl

end Columns

end CloudyNeigh.Query
