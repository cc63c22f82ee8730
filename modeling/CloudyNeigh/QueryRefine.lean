import CloudyNeigh.QueryStage

/-!
# The columns refine the view

The representation invariant of the table, and that `Upsert`, `Delete` and
`Search` on the columns are `Upsert`, `Delete` and `Search` on the view.
-/
namespace CloudyNeigh.Query
open Blocks Replay VectorFormat

structure Table.WF (t : Table) : Prop where
  docIDs : t.docIDs.length = t.numRows
  tombstones : t.tombstones.length = t.numRows
  index : ∀ id row, t.index id = some row ↔ t.docIDs[row]? = some id
  vectors : ∀ col c, t.vectors col = some c → c.WF t.kernels.is16 t.numRows
  attrs : ∀ k c, t.attrs k = some c → c.length = t.numRows

/-- Decoded records have no nil among the values of their attribute map. -/
def NoNil (attrs : GoMap (Option AttributeValue)) : Prop := ∀ k, attrs.lookup k ≠ some none

/-- The columns that the staged vectors and the attributes of a call go to exist. -/
structure Table.Ready (t : Table) (staged : String → Option StagedVector)
    (attrs : GoMap (Option AttributeValue)) : Prop where
  vectors : ∀ col sv, staged col = some sv →
    ∃ c, t.vectors col = some c ∧ sv.Fits t.kernels.is16 c.dim
  attrs : ∀ k v, attrs.lookup k = some (some v) → (t.attrs k).isSome

/-- A deleted row holds no attribute that the call names with a nil value. -/
def Table.Clears (t : Table) (id : String) (attrs : GoMap (Option AttributeValue)) : Prop :=
  ∀ row k, t.index id = some row → t.isTombstoned row = true → attrs.lookup k = some none →
    (t.docAt row).2 k = none

lemma NoNil.clears {attrs : GoMap (Option AttributeValue)} (h : NoNil attrs) (t : Table)
    (id : String) : t.Clears id attrs :=
  fun _ k _ _ hk => absurd hk (h k)

lemma newTable_wf (k : Kernels) : (NewTable k).WF := by
  refine ⟨rfl, rfl, ?_, ?_, ?_⟩ <;> simp [NewTable]

section Rows
variable {t : Table} {staged : String → Option StagedVector}
  {attrs : GoMap (Option AttributeValue)} {id : String} {row : ℕ}

lemma Table.WF.row_lt (h : t.WF) (hi : t.index id = some row) : row < t.numRows := by
  have hr := (h.index id row).mp hi
  rw [← h.docIDs]
  exact (List.getElem?_eq_some_iff.mp hr).1

/-- A staged vector fits the column that the table has or gets for it. -/
lemma addColumns_ready (hdims : ∀ col sv, staged col = some sv →
      sv.Fits t.kernels.is16 sv.values.length ∧ ∀ d ∈ t.dims col, d = sv.values.length) :
    (t.addColumns staged attrs).Ready staged attrs := by
  constructor
  · intro col sv hsv
    obtain ⟨hfit, hd⟩ := hdims col sv hsv
    cases hc : t.vectors col with
    | none =>
      refine ⟨newVectorCol t.kernels.is16 t.numRows sv.values.length, ?_, hfit⟩
      simp [Table.addColumns, hc, hsv]
    | some c =>
      refine ⟨c, by simp [Table.addColumns, hc], ?_⟩
      have hdim : c.dim = sv.values.length := hd c.dim (by simp [Table.dims, hc])
      rw [hdim]
      exact hfit
  · intro k v hv
    cases hc : t.attrs k <;> simp [Table.addColumns, hc, hv]

lemma Table.WF.addColumns (h : t.WF)
    (hpos : ∀ col sv, staged col = some sv → 0 < sv.values.length) :
    (t.addColumns staged attrs).WF := by
  refine ⟨h.docIDs, h.tombstones, h.index, ?_, ?_⟩
  · intro col c hc
    rcases Option.or_eq_some_iff.mp hc with hold | ⟨-, hnew⟩
    · exact h.vectors col c hold
    · obtain ⟨sv, hsv, rfl⟩ := Option.map_eq_some_iff.mp hnew
      exact newVectorCol_wf _ _ (hpos col sv hsv)
  · intro k c hc
    rcases Option.or_eq_some_iff.mp hc with hold | ⟨-, hnew⟩
    · exact h.attrs k c hold
    · obtain ⟨v, -, rfl⟩ := Option.map_eq_some_iff.mp hnew
      exact List.length_replicate

lemma addColumns_docAt (r : ℕ) : (t.addColumns staged attrs).docAt r = t.docAt r := by
  unfold Table.docAt Table.addColumns
  ext col : 2
  · cases hc : t.vectors col with
    | some c => simp [hc]
    | none => cases hs : staged col <;> simp [hc, hs, newVectorCol_at]
  · cases hc : t.attrs col with
    | some c => simp [hc]
    | none =>
      cases hs : (attrs.lookup col).join with
      | none => simp [hc, hs]
      | some v => simp only [hc, hs, Option.none_or, Option.map_some, Option.bind_some,
          getD_replicate_self, Option.bind_none]

lemma Table.WF.reviveRow (h : t.WF) (row : ℕ) : (t.reviveRow row staged attrs).WF := by
  unfold Table.reviveRow
  split
  · refine ⟨h.docIDs, h.tombstones, h.index, ?_, ?_⟩
    · intro col c hc
      obtain ⟨c', hc', rfl⟩ := Option.map_eq_some_iff.mp hc
      split
      · exact h.vectors col c' hc'
      · exact (h.vectors col c' hc').clearRow row
    · intro k c hc
      obtain ⟨c', hc', rfl⟩ := Option.map_eq_some_iff.mp hc
      split
      · exact h.attrs k c' hc'
      · rw [List.length_set]
        exact h.attrs k c' hc'
  · exact h

lemma Table.Ready.reviveRow (h : t.Ready staged attrs) (row : ℕ) :
    (t.reviveRow row staged attrs).Ready staged attrs := by
  unfold Table.reviveRow
  split
  · constructor
    · intro col sv hsv
      obtain ⟨c, hc, hf⟩ := h.vectors col sv hsv
      exact ⟨c, by simp [hc, hsv], hf⟩
    · intro k v hv
      simpa using h.attrs k v hv
  · exact h

/-- A deleted row keeps only what the call is about to overwrite. -/
lemma Table.WF.reviveRow_docAt (h : t.WF) (hi : t.index id = some row) (hn : t.Clears id attrs) :
    Overlay.onto (patchOf t.kernels.is16 staged attrs)
        ((t.reviveRow row staged attrs).docAt row) =
      Overlay.onto (patchOf t.kernels.is16 staged attrs)
        (if t.isTombstoned row then Overlay.blank else t.docAt row) := by
  have hr := h.row_lt hi
  unfold Table.reviveRow
  split
  · rename_i hdead
    ext col : 2
    · change ((staged col).map _).or _ = ((staged col).map _).or none
      cases hs : staged col with
      | some sv => rfl
      | none =>
        simp only [Table.docAt, hs, Option.map_none, Option.none_or]
        cases hc : t.vectors col with
        | none => rfl
        | some c => simp [(h.vectors col c hc).clearRow_at hr]
    · change (attrs.lookup col).join.or _ = (attrs.lookup col).join.or none
      cases hs : attrs.lookup col with
      | some o =>
        cases o with
        | none =>
          have hclear := hn row col hi hdead hs
          simp only [Table.docAt] at hclear
          simp only [Table.docAt, Option.join_some, Option.none_or]
          cases hc : t.attrs col with
          | none => rfl
          | some c =>
            rw [hc, Option.bind_some] at hclear
            simp only [hs, Option.map_some, Option.bind_some, Option.isSome_some, if_true, hclear]
        | some v => rfl
      | none =>
        simp only [Table.docAt, hs, Option.join_none, Option.none_or]
        cases hc : t.attrs col with
        | none => rfl
        | some c =>
          simp only [Option.map_some, Option.bind_some, Option.isSome_none, Bool.false_eq_true,
            if_false, getD_set c (h.attrs col c hc ▸ hr), if_true]
  · rfl

lemma Table.WF.reviveRow_docAt_ne (h : t.WF) (hr : row < t.numRows) {r : ℕ} (hne : r ≠ row) :
    (t.reviveRow row staged attrs).docAt r = t.docAt r := by
  unfold Table.reviveRow
  split
  · unfold Table.docAt
    ext col : 2
    · cases hc : t.vectors col with
      | none => simp [hc]
      | some c =>
        cases hs : staged col <;> simp [hc, hs, (h.vectors col c hc).clearRow_at hr, hne]
    · cases hc : t.attrs col with
      | none => simp [hc]
      | some c =>
        cases hs : attrs.lookup col with
        | some v => simp [hc, hs]
        | none =>
          simp only [hc, hs, Option.map_some, Option.bind_some, Option.isSome_none,
            Bool.false_eq_true, if_false, getD_set c (h.attrs col c hc ▸ hr), if_neg hne]
  · rfl

lemma Table.WF.overwriteRow (h : t.WF) (hr : row < t.numRows) (hrd : t.Ready staged attrs) :
    (t.overwriteRow row staged attrs).WF := by
  refine ⟨h.docIDs, by simpa [Table.overwriteRow] using h.tombstones, h.index, ?_, ?_⟩
  · intro col c hc
    obtain ⟨c', hc', rfl⟩ := Option.map_eq_some_iff.mp hc
    split
    · rename_i sv hsv
      obtain ⟨c'', hc'', hf⟩ := hrd.vectors col sv hsv
      rw [hc'] at hc''
      cases hc''
      exact (h.vectors col c' hc').setRow hr hf
    · exact h.vectors col c' hc'
  · intro k c hc
    obtain ⟨c', hc', rfl⟩ := Option.map_eq_some_iff.mp hc
    split
    · rw [List.length_set]
      exact h.attrs k c' hc'
    · exact h.attrs k c' hc'

lemma Table.WF.overwriteRow_vec (h : t.WF) (hr : row < t.numRows)
    (hrd : t.Ready staged attrs) (r : ℕ) (col : String) :
    ((t.overwriteRow row staged attrs).docAt r).1 col =
      if r = row then ((staged col).map fun sv => sv.stored t.kernels.is16).or
        ((t.docAt row).1 col) else (t.docAt r).1 col := by
  simp only [Table.overwriteRow, Table.docAt]
  cases hs : staged col with
  | none => by_cases hrr : r = row <;> simp [hrr]
  | some sv =>
    obtain ⟨c, hc, hf⟩ := hrd.vectors col sv hs
    by_cases hrr : r = row <;> simp [hc, (h.vectors col c hc).setRow_at hr hf, hrr]

lemma Table.WF.overwriteRow_attr (h : t.WF) (hr : row < t.numRows)
    (hrd : t.Ready staged attrs) (r : ℕ) (k : String) :
    ((t.overwriteRow row staged attrs).docAt r).2 k =
      if r = row then (attrs.lookup k).join.or ((t.docAt row).2 k) else (t.docAt r).2 k := by
  simp only [Table.overwriteRow, Table.docAt]
  cases hs : (attrs.lookup k).join with
  | none => by_cases hrr : r = row <;> simp [hrr]
  | some v =>
    have hv : attrs.lookup k = some (some v) := Option.join_eq_some_iff.mp hs
    obtain ⟨c, hc⟩ := Option.isSome_iff_exists.mp (hrd.attrs k v hv)
    simp only [hc, Option.map_some, Option.bind_some, getD_set c (h.attrs k c hc ▸ hr)]
    by_cases hrr : r = row <;> simp [hrr]

lemma Table.WF.overwriteRow_docAt (h : t.WF) (hr : row < t.numRows)
    (hrd : t.Ready staged attrs) (r : ℕ) :
    (t.overwriteRow row staged attrs).docAt r =
      if r = row then Overlay.onto (patchOf t.kernels.is16 staged attrs) (t.docAt row)
      else t.docAt r := by
  ext col : 2
  · rw [h.overwriteRow_vec hr hrd]
    split <;> rfl
  · rw [h.overwriteRow_attr hr hrd]
    split <;> rfl

lemma Table.WF.insertRow (h : t.WF) (hrd : t.Ready staged attrs) (hnew : t.index id = none) :
    (t.insertRow id staged attrs).WF := by
  refine ⟨by simp [Table.insertRow, h.docIDs], by simp [Table.insertRow, h.tombstones], ?_, ?_, ?_⟩
  · intro id' row'
    simp only [Table.insertRow]
    by_cases hid : id' = id
    · subst hid
      have hno : ∀ r : ℕ, t.docIDs[r]? ≠ some id' := by
        intro r hr
        rw [← h.index, hnew] at hr
        cases hr
      by_cases hlt : row' < t.docIDs.length
      · rw [List.getElem?_append_left hlt, Function.update_self]
        simp only [Option.some.injEq, hno row', iff_false]
        have := h.docIDs
        omega
      · rw [List.getElem?_append_right (by omega), Function.update_self, h.docIDs,
          List.getElem?_singleton]
        have := h.docIDs
        by_cases heq : row' - t.numRows = 0
        · simp only [heq, if_true, Option.some.injEq, iff_true]
          omega
        · simp only [heq, if_false, Option.some.injEq, reduceCtorEq, iff_false]
          omega
    · rw [Function.update_of_ne hid, h.index]
      by_cases hlt : row' < t.docIDs.length
      · rw [List.getElem?_append_left hlt]
      · rw [List.getElem?_append_right (by omega), List.getElem?_eq_none (by omega),
          List.getElem?_singleton]
        split <;> simp [Ne.symm hid]
  · intro col c hc
    obtain ⟨c', hc', rfl⟩ := Option.map_eq_some_iff.mp hc
    apply (h.vectors col c' hc').pushRow
    intro sv hsv
    obtain ⟨c'', hc'', hf⟩ := hrd.vectors col sv hsv
    rw [hc'] at hc''
    cases hc''
    exact hf
  · intro k c hc
    obtain ⟨c', hc', rfl⟩ := Option.map_eq_some_iff.mp hc
    simp [Table.insertRow, h.attrs k c' hc']

lemma Table.WF.insertRow_docAt (h : t.WF) (hrd : t.Ready staged attrs) (r : ℕ) :
    (t.insertRow id staged attrs).docAt r =
      if r = t.numRows then Overlay.onto (patchOf t.kernels.is16 staged attrs) Overlay.blank
      else t.docAt r := by
  ext col : 2
  · have hvec : ((t.insertRow id staged attrs).docAt r).1 col =
        if r = t.numRows then (staged col).map fun sv => sv.stored t.kernels.is16
        else (t.docAt r).1 col := by
      simp only [Table.insertRow, Table.docAt]
      cases hc : t.vectors col with
      | none =>
        cases hs : staged col with
        | none => simp
        | some sv =>
          obtain ⟨c, hc', -⟩ := hrd.vectors col sv hs
          rw [hc] at hc'
          cases hc'
      | some c =>
        have hf : ∀ sv ∈ staged col, sv.Fits t.kernels.is16 c.dim := by
          intro sv hsv
          obtain ⟨c', hc', hf⟩ := hrd.vectors col sv hsv
          rw [hc] at hc'
          cases hc'
          exact hf
        simp [(h.vectors col c hc).pushRow_at hf]
    rw [hvec]
    split
    · exact (Option.or_none ..).symm
    · rfl
  · have hattr : ((t.insertRow id staged attrs).docAt r).2 col =
        if r = t.numRows then (attrs.lookup col).join else (t.docAt r).2 col := by
      simp only [Table.insertRow, Table.docAt]
      cases hc : t.attrs col with
      | none =>
        cases hs : (attrs.lookup col).join with
        | none => simp
        | some v =>
          have := hrd.attrs col v (Option.join_eq_some_iff.mp hs)
          simp [hc] at this
      | some c => simp only [Option.map_some, Option.bind_some, getD_append_one, h.attrs col c hc]
    rw [hattr]
    split
    · exact (Option.or_none ..).symm
    · rfl

end Rows

/-- The table is a valid representation of the view. -/
structure Table.Represents (t : Table) (k : Kernels) (v : View) : Prop where
  wf : t.WF
  kernels : t.kernels = k
  view : t.view = v

/-- The outcome of an operation on the columns and on the view. -/
inductive Agrees {ε : Type*} (k : Kernels) : Except ε Table → Except ε View → Prop
  | ok {t : Table} {v : View} (h : t.Represents k v) : Agrees k (.ok t) (.ok v)
  | error (e : ε) : Agrees k (.error e) (.error e)

lemma Agrees.elim {ε : Type*} {k : Kernels} {x : Except ε Table} {y : Except ε View}
    (h : Agrees k x y) :
    (∃ t v, x = .ok t ∧ y = .ok v ∧ t.Represents k v) ∨ ∃ e, x = .error e ∧ y = .error e := by
  cases h with
  | ok h => exact Or.inl ⟨_, _, rfl, rfl, h⟩
  | error e => exact Or.inr ⟨e, rfl, rfl⟩

lemma newTable_represents (k : Kernels) : (NewTable k).Represents k View.empty :=
  ⟨newTable_wf k, rfl, newTable_view k⟩

section Operations
variable {t : Table} {id : String} {row : ℕ}

lemma Table.WF.mem_docIDs (h : t.WF) : id ∈ t.docIDs ↔ ∃ row, t.index id = some row := by
  simp only [List.mem_iff_getElem?, h.index]

lemma Table.WF.index_inj (h : t.WF) {id' : String} (hi : t.index id = some row)
    (hi' : t.index id' = some row) : id' = id := by
  rw [h.index] at hi hi'
  rw [hi] at hi'
  exact (Option.some.inj hi').symm

lemma Table.WF.doc_of_index (hi : t.index id = some row) :
    t.view.doc id = if t.isTombstoned row then none else some (t.docAt row) := by
  simp [Table.view, hi]

section Revive
variable (t : Table) (row : ℕ) (staged : String → Option StagedVector)
  (attrs : GoMap (Option AttributeValue))

@[simp] lemma reviveRow_docIDs : (t.reviveRow row staged attrs).docIDs = t.docIDs := by
  unfold Table.reviveRow
  split <;> rfl

@[simp] lemma reviveRow_index : (t.reviveRow row staged attrs).index = t.index := by
  unfold Table.reviveRow
  split <;> rfl

@[simp] lemma reviveRow_tombstones :
    (t.reviveRow row staged attrs).tombstones = t.tombstones := by
  unfold Table.reviveRow
  split <;> rfl

@[simp] lemma reviveRow_numRows : (t.reviveRow row staged attrs).numRows = t.numRows := by
  unfold Table.reviveRow
  split <;> rfl

@[simp] lemma reviveRow_kernels : (t.reviveRow row staged attrs).kernels = t.kernels := by
  unfold Table.reviveRow
  split <;> rfl

lemma reviveRow_dims : (t.reviveRow row staged attrs).dims = t.dims := by
  funext col
  unfold Table.reviveRow Table.dims
  split
  · dsimp only
    cases t.vectors col with
    | none => rfl
    | some c =>
      simp only [Option.map_some]
      split <;> rfl
  · rfl

lemma reviveRow_cols : (t.reviveRow row staged attrs).view.cols = t.view.cols := by
  funext k
  unfold Table.reviveRow Table.view
  split <;> simp

lemma overwriteRow_dims : (t.overwriteRow row staged attrs).dims = t.dims := by
  funext col
  simp only [Table.overwriteRow, Table.dims]
  cases t.vectors col with
  | none => rfl
  | some c =>
    simp only [Option.map_some]
    split <;> rfl

lemma overwriteRow_cols : (t.overwriteRow row staged attrs).view.cols = t.view.cols := by
  funext k
  simp [Table.overwriteRow, Table.view]

end Revive

lemma Table.WF.overwrite_doc (h : t.WF) {staged : String → Option StagedVector}
    {attrs : GoMap (Option AttributeValue)} (hi : t.index id = some row)
    (hrd : t.Ready staged attrs) (hn : t.Clears id attrs) :
    ((t.reviveRow row staged attrs).overwriteRow row staged attrs).view.doc =
      Function.update t.view.doc id
        ((Edit.patch (patchOf t.kernels.is16 staged attrs)).apply (t.view.doc id)) := by
  have hr := h.row_lt hi
  have hwf : (t.reviveRow row staged attrs).WF := h.reviveRow row
  have hdoc : ∀ r, ((t.reviveRow row staged attrs).overwriteRow row staged attrs).docAt r = _ :=
    hwf.overwriteRow_docAt (by simpa using hr) (hrd.reviveRow row)
  have htomb : ∀ r, ((t.reviveRow row staged attrs).overwriteRow row staged attrs).isTombstoned r =
      if r = row then false else t.isTombstoned r := by
    intro r
    simp only [Table.isTombstoned, Table.overwriteRow, reviveRow_tombstones]
    exact getD_set _ (h.tombstones ▸ hr) _ _ _
  have hindex : ((t.reviveRow row staged attrs).overwriteRow row staged attrs).index = t.index := by
    simp [Table.overwriteRow]
  funext id'
  by_cases hid : id' = id
  · subst hid
    rw [Function.update_self, Table.WF.doc_of_index hi, Table.WF.doc_of_index (by rw [hindex, hi]),
      htomb, hdoc, if_pos rfl, if_pos rfl, reviveRow_kernels, h.reviveRow_docAt hi hn]
    cases t.isTombstoned row <;> rfl
  · rw [Function.update_of_ne hid]
    cases hi' : t.index id' with
    | none => simp [Table.view, hindex, hi']
    | some row' =>
      have hne : row' ≠ row := by
        rintro rfl
        exact hid (h.index_inj hi hi')
      rw [Table.WF.doc_of_index hi', Table.WF.doc_of_index (by rw [hindex, hi']), htomb, hdoc,
        if_neg hne, if_neg hne, h.reviveRow_docAt_ne hr hne]

lemma Table.WF.insert_doc (h : t.WF) {staged : String → Option StagedVector}
    {attrs : GoMap (Option AttributeValue)} (hi : t.index id = none)
    (hrd : t.Ready staged attrs) :
    (t.insertRow id staged attrs).view.doc = Function.update t.view.doc id
      ((Edit.patch (patchOf t.kernels.is16 staged attrs)).apply (t.view.doc id)) := by
  have htomb : ∀ r, (t.insertRow id staged attrs).isTombstoned r =
      if r = t.numRows then false else t.isTombstoned r := by
    intro r
    simp only [Table.isTombstoned, Table.insertRow, getD_append_one, h.tombstones]
  funext id'
  by_cases hid : id' = id
  · subst hid
    have hnew : (t.insertRow id' staged attrs).index id' = some t.numRows := by
      simp [Table.insertRow]
    have hold : t.view.doc id' = none := by simp [Table.view, hi]
    rw [Function.update_self, Table.WF.doc_of_index hnew, htomb, if_pos rfl,
      h.insertRow_docAt hrd, if_pos rfl, hold]
    rfl
  · have hindex : (t.insertRow id staged attrs).index id' = t.index id' := by
      simp [Table.insertRow, hid]
    rw [Function.update_of_ne hid]
    cases hi' : t.index id' with
    | none => simp [Table.view, hindex, hi']
    | some row' =>
      have hne : row' ≠ t.numRows := (h.row_lt hi').ne
      rw [Table.WF.doc_of_index hi', Table.WF.doc_of_index (by rw [hindex, hi']), htomb,
        if_neg hne, h.insertRow_docAt hrd, if_neg hne]

lemma addColumns_view (t : Table) (staged : String → Option StagedVector)
    (attrs : GoMap (Option AttributeValue)) :
    (t.addColumns staged attrs).view =
      { t.view with
        dims := fun col => (t.dims col).or ((staged col).map fun sv => sv.values.length)
        cols := fun k => (t.attrs k).isSome || (attrs.lookup k).join.isSome } := by
  ext1
  · rfl
  · funext id
    simp only [Table.view, addColumns_docAt]
    rfl
  · funext col
    simp only [Table.view, Table.dims, Table.addColumns]
    cases t.vectors col <;> cases staged col <;> rfl
  · funext k
    simp only [Table.view, Table.addColumns]
    cases t.attrs k <;> cases (attrs.lookup k).join <;> rfl

/-- The part of `Upsert` after its checks, on the columns and on the view. -/
lemma Table.WF.write (h : t.WF) (id : String) {staged : String → Option StagedVector}
    {attrs : GoMap (Option AttributeValue)} (hn : t.Clears id attrs)
    (hst : ∀ col sv, staged col = some sv → 0 < sv.values.length ∧
      sv.Fits t.kernels.is16 sv.values.length ∧ ∀ d ∈ t.dims col, d = sv.values.length) :
    let t1 := t.addColumns staged attrs
    (match t1.index id with
      | some row => (t1.reviveRow row staged attrs).overwriteRow row staged attrs
      | none => t1.insertRow id staged attrs).Represents t.kernels
        (t.view.write t.kernels.is16 id staged attrs) := by
  intro t1
  have hwf : t1.WF := h.addColumns fun col sv hsv => (hst col sv hsv).1
  have hrd : t1.Ready staged attrs := addColumns_ready fun col sv hsv => (hst col sv hsv).2
  have hview : t1.view = _ := addColumns_view t staged attrs
  have hn : t1.Clears id attrs := fun row k hi hdead hk => by
    rw [addColumns_docAt]
    exact hn row k hi hdead hk
  split
  · rename_i row hi
    refine ⟨(hwf.reviveRow row).overwriteRow (by simpa using hwf.row_lt hi) (hrd.reviveRow row),
      by simp [Table.overwriteRow, t1, Table.addColumns], ?_⟩
    ext1
    · have hmem : id ∈ t.docIDs := h.mem_docIDs.mpr ⟨row, hi⟩
      simp [Table.view, Table.overwriteRow, View.write, addKey_of_mem hmem, t1, Table.addColumns]
    · rw [hwf.overwrite_doc hi hrd hn, hview]
      rfl
    · change Table.dims _ = _
      rw [overwriteRow_dims, reviveRow_dims]
      exact congrArg View.dims hview
    · rw [overwriteRow_cols, reviveRow_cols, hview]
      rfl
  · rename_i hi
    refine ⟨hwf.insertRow hrd hi, rfl, ?_⟩
    ext1
    · have hmem : id ∉ t.docIDs := by
        rw [h.mem_docIDs]
        rintro ⟨row, hrow⟩
        rw [show t1.index id = t.index id from rfl, hrow] at hi
        cases hi
      simp [Table.view, Table.insertRow, View.write, addKey, hmem, t1, Table.addColumns]
    · rw [hwf.insert_doc hi hrd, hview]
      rfl
    · funext col
      rw [show (t.view.write t.kernels.is16 id staged attrs).dims col = t1.view.dims col by
        rw [hview]; rfl]
      simp only [Table.view, Table.dims, Table.insertRow]
      cases t1.vectors col <;> rfl
    · funext k
      rw [show (t.view.write t.kernels.is16 id staged attrs).cols k = t1.view.cols k by
        rw [hview]; rfl]
      simp only [Table.view, Table.insertRow]
      cases t1.attrs k <;> rfl

theorem Table.Represents.upsert {k : Kernels} {v : View} (h : t.Represents k v) (A : Arith)
    (vectors : GoMap (List F32)) {attrs : GoMap (Option AttributeValue)} (hn : t.Clears id attrs) :
    Agrees k (t.Upsert A id vectors attrs) (v.Upsert A k.is16 id vectors attrs) := by
  obtain ⟨hwf, rfl, rfl⟩ := h
  unfold Table.Upsert View.Upsert
  split
  · exact .error _
  · have hdims : t.view.dims = t.dims := rfl
    rw [hdims]
    cases hst : stage A t.kernels.is16 t.dims vectors.entries (fun _ => none) with
    | error e => exact .error e
    | ok staged =>
      have hw := hwf.write id hn fun col sv hsv => staged_fits hst hsv
      dsimp only at hw ⊢
      cases hi : (t.addColumns staged attrs).index id with
      | some row =>
        rw [hi] at hw
        exact .ok hw
      | none =>
        rw [hi] at hw
        exact .ok hw

/-- What an accepted upsert has done: the columns are there, and one row is written. -/
lemma Table.WF.upsert_cases {A : Arith} {u : Table} {vectors : GoMap (List F32)}
    {attrs : GoMap (Option AttributeValue)} (h : t.WF)
    (hu : t.Upsert A id vectors attrs = .ok u) :
    id ≠ "" ∧ ∃ staged, stage A t.kernels.is16 t.dims vectors.entries (fun _ => none) = .ok staged ∧
      (t.addColumns staged attrs).WF ∧ (t.addColumns staged attrs).Ready staged attrs ∧
      ((∃ row, t.index id = some row ∧ u =
          ((t.addColumns staged attrs).reviveRow row staged attrs).overwriteRow row staged attrs) ∨
        (t.index id = none ∧ u = (t.addColumns staged attrs).insertRow id staged attrs)) := by
  unfold Table.Upsert at hu
  split at hu
  · cases hu
  · rename_i hid
    split at hu
    · cases hu
    · rename_i staged hst
      refine ⟨hid, staged, hst, h.addColumns fun col sv hsv => (staged_fits hst hsv).1,
        addColumns_ready fun col sv hsv => (staged_fits hst hsv).2, ?_⟩
      dsimp only at hu
      split at hu
      · rename_i row hi
        exact Or.inl ⟨row, hi, (Except.ok.inj hu).symm⟩
      · rename_i hi
        exact Or.inr ⟨hi, (Except.ok.inj hu).symm⟩

lemma Table.WF.setTombstone (h : t.WF) (row : ℕ) :
    { t with tombstones := t.tombstones.set row true }.WF :=
  ⟨h.docIDs, by simpa using h.tombstones, h.index, h.vectors, h.attrs⟩

theorem Table.Represents.delete {k : Kernels} {v : View} (h : t.Represents k v) (id : String) :
    (t.Delete id).1.Represents k (v.Delete id) := by
  obtain ⟨hwf, rfl, rfl⟩ := h
  unfold Table.Delete
  split
  · rename_i hi
    refine ⟨hwf, rfl, ?_⟩
    have hnone : t.view.doc id = none := by simp [Table.view, hi]
    rw [View.Delete, ← hnone, Function.update_eq_self]
  · rename_i row hi
    split
    · rename_i hdead
      refine ⟨hwf, rfl, ?_⟩
      have hnone : t.view.doc id = none := by rw [Table.WF.doc_of_index hi, if_pos hdead]
      rw [View.Delete, ← hnone, Function.update_eq_self]
    · refine ⟨hwf.setTombstone row, rfl, ?_⟩
      have htomb : ∀ r, { t with tombstones := t.tombstones.set row true }.isTombstoned r =
          if r = row then true else t.isTombstoned r :=
        fun r => getD_set _ (hwf.tombstones ▸ hwf.row_lt hi) _ _ _
      ext1
      · rfl
      · funext id'
        simp only [Table.view, htomb, View.Delete]
        by_cases hid : id' = id
        · subst hid
          simp [hi]
        · rw [Function.update_of_ne hid]
          cases hi' : t.index id' with
          | none => rfl
          | some row' =>
            have hne : row' ≠ row := by
              rintro rfl
              exact hid (hwf.index_inj hi hi')
            simp only [Option.bind_some, if_neg hne]
            rfl
      · rfl
      · rfl

end Operations

end CloudyNeigh.Query
