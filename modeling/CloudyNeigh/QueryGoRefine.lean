import CloudyNeigh.QueryGoTable
import CloudyNeigh.QueryRefine

/-!
# No panic on a well-formed table

On a table that keeps its lengths every operation with checked index expressions
succeeds and does what the operation on the columns does, in every order of the
loops over maps.
-/
namespace CloudyNeigh.Query
open Blocks Checked ContainerHeap VectorFormat

def GoCol.abs (c : GoCol) : FlatVectorCol :=
  ⟨c.dim, c.data.getD [], c.data16, c.hasVec, c.invNorms⟩

/-- The table without the order of its maps and without nil slices of floats. -/
def GoTable.abs (t : GoTable) : Table where
  numRows := t.numRows
  docIDs := t.docIDs
  index id := t.index.lookup id
  tombstones := t.tombstones
  vectors col := (t.vectors.lookup col).map GoCol.abs
  attrs k := t.attrs.lookup k
  kernels := t.kernels

section Fields
variable (t : GoTable)

@[simp] lemma GoTable.abs_numRows : t.abs.numRows = t.numRows := rfl

@[simp] lemma GoTable.abs_index (id : String) : t.abs.index id = t.index.lookup id := rfl

@[simp] lemma GoTable.abs_vectors (col : String) :
    t.abs.vectors col = (t.vectors.lookup col).map GoCol.abs := rfl

@[simp] lemma GoTable.abs_attrs (k : String) : t.abs.attrs k = t.attrs.lookup k := rfl

@[simp] lemma GoTable.abs_kernels : t.abs.kernels = t.kernels := rfl

@[simp] lemma GoCol.abs_dim (c : GoCol) : c.abs.dim = c.dim := rfl

end Fields

structure GoCol.WF (c : GoCol) (is16 : Bool) (numRows : ℕ) : Prop where
  lengths : c.abs.WF is16 numRows
  data : c.data.isSome = !is16

structure GoTable.WF (t : GoTable) : Prop where
  lengths : t.abs.WF
  data : ∀ col c, t.vectors.lookup col = some c → c.data.isSome = !t.kernels.is16

section Columns
variable {c : GoCol} {is16 : Bool} {n row : ℕ} {sv : StagedVector}

lemma newGoCol_abs (is16 : Bool) (n dim : ℕ) : (newGoCol is16 n dim).abs = newVectorCol is16 n dim := by
  cases is16 <;> rfl

lemma newGoCol_data (is16 : Bool) (n dim : ℕ) : (newGoCol is16 n dim).data.isSome = !is16 := by
  cases is16 <;> rfl

lemma GoCol.WF.clearRow (h : c.WF is16 n) (hr : row < n) : ∃ c', c.clearRow row = some c' ∧
    c'.abs = c.abs.clearRow row ∧ c'.data.isSome = c.data.isSome := by
  have hv : row < c.hasVec.length := by rwa [show c.hasVec.length = n from h.lengths.hasVec]
  have hn : row < c.invNorms.length := by rwa [show c.invNorms.length = n from h.lengths.invNorms]
  refine ⟨{ c with hasVec := c.hasVec.set row false, invNorms := c.invNorms.set row F32.zero },
    ?_, rfl, rfl⟩
  simp only [GoCol.clearRow, store_of_lt hv, store_of_lt hn, Option.bind_eq_bind, Option.bind_some]

lemma GoCol.WF.copyRow (h : c.WF is16 n) (hr : row < n) (hf : sv.Fits is16 c.dim) :
    ∃ c', c.copyRow is16 row sv = some c' ∧ c'.hasVec = c.hasVec ∧ c'.invNorms = c.invNorms ∧
      c'.dim = c.dim ∧ c'.data.isSome = c.data.isSome ∧
      c'.abs.data = (c.abs.setRow is16 row sv).data ∧
      c'.abs.data16 = (c.abs.setRow is16 row sv).data16 := by
  cases is16 with
  | true =>
    obtain ⟨d, hd, hl⟩ := h.lengths.data16 rfl
    have hd' : c.data16 = some d := hd
    have hlen : d.length = n * c.dim := hl
    refine ⟨{ c with data16 := some (copyAt d (row * c.dim) sv.data16) }, ?_, rfl, rfl, rfl, rfl, rfl, ?_⟩
    · simp only [GoCol.copyRow, if_true, hd', Option.getD_some,
        copyInto_row hlen hr (hf.data16 rfl), Option.bind_eq_bind, Option.bind_some, Option.map_some]
    · simp [GoCol.abs, FlatVectorCol.setRow, hd']
  | false =>
    obtain ⟨d, hd⟩ := Option.isSome_iff_exists.mp h.data
    have hlen : d.length = n * c.dim := by
      have := (h.lengths.data rfl).2
      simpa [GoCol.abs, hd] using this
    refine ⟨{ c with data := some (copyAt d (row * c.dim) sv.values) }, ?_, rfl, rfl, rfl, ?_, ?_, rfl⟩
    · simp only [GoCol.copyRow, Bool.false_eq_true, if_false, hd, Option.getD_some,
        copyInto_row hlen hr hf.values, Option.bind_eq_bind, Option.bind_some, Option.map_some]
    · simp [hd]
    · simp [GoCol.abs, FlatVectorCol.setRow, hd]

lemma GoCol.WF.setRow (h : c.WF is16 n) (hr : row < n) (hf : sv.Fits is16 c.dim) :
    ∃ c', c.setRow is16 row sv = some c' ∧ c'.abs = c.abs.setRow is16 row sv ∧
      c'.data.isSome = c.data.isSome := by
  obtain ⟨d, hd, hv, hn, hdim, hsome, hdata, hdata16⟩ := h.copyRow hr hf
  have hlv : row < d.hasVec.length := by
    rw [hv]
    rwa [show c.hasVec.length = n from h.lengths.hasVec]
  have hln : row < d.invNorms.length := by
    rw [hn]
    rwa [show c.invNorms.length = n from h.lengths.invNorms]
  refine ⟨{ d with hasVec := d.hasVec.set row true, invNorms := d.invNorms.set row sv.invNorm },
    ?_, ?_, hsome⟩
  · simp only [GoCol.setRow, hd, store_of_lt hlv, store_of_lt hln, Option.bind_eq_bind,
      Option.bind_some]
  · have hdim' : d.abs.dim = c.abs.dim := hdim
    simp only [GoCol.abs] at hdata hdata16 ⊢
    simp only [hdata, hdata16, hv, hn, hdim]
    rfl

lemma GoCol.WF.pushRow_abs (h : c.WF is16 n) (o : Option StagedVector) :
    (c.pushRow is16 o).abs = c.abs.pushRow is16 o := by
  cases is16 with
  | true =>
    obtain ⟨d, hd, -⟩ := h.lengths.data16 rfl
    have hd' : c.data16 = some d := hd
    simp only [GoCol.pushRow, GoCol.abs, FlatVectorCol.pushRow, if_true, hd', Option.map_some, appendTo]
    split
    · rename_i hnil
      rw [hnil, List.append_nil]
    · rfl
  | false =>
    obtain ⟨d, hd⟩ := Option.isSome_iff_exists.mp h.data
    simp only [GoCol.pushRow, GoCol.abs, FlatVectorCol.pushRow, Bool.false_eq_true, if_false, hd,
      Option.getD_some, appendTo]
    split
    · rename_i hnil
      rw [hnil, List.append_nil]
      rfl
    · rfl

lemma GoCol.WF.pushRow_data (h : c.WF is16 n) (o : Option StagedVector) :
    (c.pushRow is16 o).data.isSome = c.data.isSome := by
  cases is16 with
  | true => rfl
  | false =>
    have hd : c.data.isSome = true := h.data
    simp only [GoCol.pushRow, Bool.false_eq_true, if_false, appendTo]
    split
    · rfl
    · simp [hd]

lemma GoCol.WF.cell (h : c.WF is16 n) (hr : row < n) : c.cell row = some (c.abs.cell row) := by
  cases is16 with
  | true =>
    obtain ⟨d, hd, hlen⟩ := h.lengths.data16 rfl
    have hd' : c.data16 = some d := hd
    simp only [GoCol.cell, FlatVectorCol.cell, GoCol.abs, hd']
    rw [sub_row (show d.length = n * c.dim from hlen) hr]
    rfl
  | false =>
    obtain ⟨hnone, hlen⟩ := h.lengths.data rfl
    have hn' : c.data16 = none := hnone
    simp only [GoCol.cell, FlatVectorCol.cell, GoCol.abs, hn']
    rw [sub_row (show (c.data.getD []).length = n * c.dim from hlen) hr]
    rfl

lemma GoCol.WF.vectorAt (h : c.WF is16 n) (k : Kernels) (row : ℕ) :
    c.vectorAt k row = some (if c.hasVec.getD row false then
      match c.data16 with
      | some d => some (k.Decode16 (slice d (row * c.dim) c.dim))
      | none => some (slice (c.data.getD []) (row * c.dim) c.dim)
    else none) := by
  unfold GoCol.vectorAt
  split
  · rename_i hv
    have hr : row < n := by
      rw [← show c.hasVec.length = n from h.lengths.hasVec]
      by_contra hge
      rw [List.getD_eq_getElem?_getD, List.getElem?_eq_none (by omega)] at hv
      cases hv
    cases is16 with
    | true =>
      obtain ⟨d, hd, hlen⟩ := h.lengths.data16 rfl
      simp only [show c.data16 = some d from hd]
      rw [sub_row (show d.length = n * c.dim from hlen) hr]
      rfl
    | false =>
      obtain ⟨hnone, hlen⟩ := h.lengths.data rfl
      simp only [show c.data16 = none from hnone]
      rw [sub_row (show (c.data.getD []).length = n * c.dim from hlen) hr]
      rfl
  · rfl

end Columns

lemma GoTable.WF.col {t : GoTable} (h : t.WF) {col : String} {c : GoCol}
    (hc : t.vectors.lookup col = some c) : c.WF t.kernels.is16 t.numRows :=
  ⟨h.lengths.vectors col c.abs (by simp [GoTable.abs, hc]), h.data col c hc⟩

lemma newGoTable_wf (k : Kernels) : (GoTable.NewTable k).WF := by
  refine ⟨?_, ?_⟩
  · refine ⟨rfl, rfl, ?_, ?_, ?_⟩ <;> simp [GoTable.abs, GoTable.NewTable]
  · simp [GoTable.NewTable]

/-- The call returns, and the table that it returns is `t` on the columns. -/
def Returns (x : Option GoTable) (t : Table) : Prop := ∃ u, x = some u ∧ u.abs = t ∧ u.WF

section Rows
variable {t : GoTable} {staged : GoMap StagedVector} {attrs : GoMap (Option AttributeValue)}
  {row : ℕ} (R : RangeOrder String)

lemma lookup_insert_update {α : Type*} (m : GoMap α) (k : String) (x : α) :
    (fun k' => (m.insert k x).lookup k') = Function.update (fun k' => m.lookup k') k (some x) := by
  funext k'
  by_cases hk : k' = k
  · subst hk
    rw [AList.lookup_insert, Function.update_self]
  · rw [AList.lookup_insert_ne hk, Function.update_of_ne hk]

def GoTable.dims (t : GoTable) (col : String) : Option ℕ := (t.vectors.lookup col).map GoCol.dim

lemma GoTable.dims_abs (t : GoTable) : t.dims = t.abs.dims := by
  funext col
  simp only [GoTable.dims, Table.dims, GoTable.abs, Option.map_map]
  rfl

lemma GoTable.stage_map (A : Arith) (t : GoTable) (entries : List (Σ _ : String, List F32))
    (staged : GoMap StagedVector) :
    (GoTable.stage A t.kernels.is16 t.vectors entries staged).map (fun m col => m.lookup col) =
      Query.stage A t.kernels.is16 t.abs.dims entries (fun col => staged.lookup col) := by
  induction entries generalizing staged with
  | nil => rfl
  | cons e entries ih =>
    obtain ⟨col, vec⟩ := e
    have hdim : t.abs.dims col = (t.vectors.lookup col).map GoCol.dim := by
      rw [← GoTable.dims_abs, GoTable.dims]
    rw [GoTable.stage, Query.stage, hdim]
    split
    · exact ih staged
    · cases hc : t.vectors.lookup col with
      | none =>
        simp only [Option.map_none, Option.any_none, Bool.false_eq_true, if_false]
        cases stageVector A t.kernels.is16 vec with
        | error e => rfl
        | ok sv =>
          simp only [ih, lookup_insert_update]
      | some c =>
        simp only [Option.map_some, Option.any_some, Option.getD_some, decide_eq_true_eq]
        by_cases hd : c.dim = vec.length
        · rw [if_neg (by simp [hd]), if_neg (by simp [hd])]
          cases stageVector A t.kernels.is16 vec with
          | error e => rfl
          | ok sv => simp only [ih, lookup_insert_update]
        · rw [if_pos (Ne.symm hd), if_pos hd]
          rfl

attribute [ext] Table

lemma GoTable.WF.addColumns (h : t.WF)
    (hpos : ∀ col sv, staged.lookup col = some sv → 0 < sv.values.length) :
    Returns (t.addColumns R staged attrs) (t.abs.addColumns (fun col => staged.lookup col) attrs) := by
  obtain ⟨vs, hvs, hv⟩ := updateAll_range R 1 (l := staged) (m := t.vectors) (f := t.createVector)
    (g := fun col sv => if (t.vectors.lookup col).isSome then none
      else some (newGoCol t.kernels.is16 t.numRows sv.values.length))
    (by
      intro col sv _
      cases t.vectors.lookup col <;> rfl)
  obtain ⟨cs, hcs, hc⟩ := updateAll_range R 2 (l := attrs) (m := t.attrs) (f := t.createAttr)
    (g := fun k v => if v.isSome ∧ t.attrs.lookup k = none then
      some (List.replicate t.numRows none) else none)
    (by
      intro k v _
      cases v <;> cases t.attrs.lookup k <;> rfl)
  have habs : ({ t with vectors := vs, attrs := cs } : GoTable).abs =
      t.abs.addColumns (fun col => staged.lookup col) attrs := by
    refine Table.ext rfl rfl rfl rfl ?_ ?_ rfl
    · funext col
      simp only [GoTable.abs, Table.addColumns, hv]
      cases t.vectors.lookup col with
      | some c => cases staged.lookup col <;> rfl
      | none => cases staged.lookup col <;> simp [newGoCol_abs]
    · funext k
      simp only [GoTable.abs, Table.addColumns, hc]
      cases t.attrs.lookup k with
      | some c => rcases attrs.lookup k with _ | _ | v <;> rfl
      | none => rcases attrs.lookup k with _ | _ | v <;> rfl
  refine ⟨{ t with vectors := vs, attrs := cs }, ?_, habs, ?_, ?_⟩
  · simp only [GoTable.addColumns, hvs, hcs, Option.bind_eq_bind, Option.bind_some]
  · rw [habs]
    exact h.lengths.addColumns hpos
  · intro col c hcol
    rw [hv, Option.or_eq_some_iff] at hcol
    rcases hcol with hnew | ⟨-, hold⟩
    · obtain ⟨sv, -, hsv⟩ := Option.bind_eq_some_iff.mp hnew
      split at hsv
      · cases hsv
      · cases hsv
        exact newGoCol_data _ _ _
    · exact h.data col c hold

lemma GoTable.WF.reviveRow (h : t.WF) (hr : row < t.numRows) :
    Returns (t.reviveRow R row staged attrs)
      (t.abs.reviveRow row (fun col => staged.lookup col) attrs) := by
  have hload : load t.tombstones row = some (t.abs.isTombstoned row) :=
    load_getD (by rwa [show t.tombstones.length = t.numRows from h.lengths.tombstones]) false
  have hwf : (t.abs.reviveRow row (fun col => staged.lookup col) attrs).WF :=
    h.lengths.reviveRow row
  unfold GoTable.reviveRow
  cases hdead : t.abs.isTombstoned row with
  | false =>
    refine ⟨t, by simp [hload, hdead], ?_, h⟩
    simp [Table.reviveRow, hdead]
  | true =>
    obtain ⟨cs, hcs, hc⟩ := traverse_range R 3 (m := t.attrs)
      (f := blankAttr row attrs)
      (P := fun k c c' => c' = if (attrs.lookup k).isSome then c else c.set row none)
      (by
        intro k c hk
        have hlt : row < c.length := by rwa [h.lengths.attrs k c hk]
        unfold blankAttr
        cases attrs.lookup k with
        | some v => exact ⟨c, rfl, rfl⟩
        | none => exact ⟨_, store_of_lt hlt none, rfl⟩)
    obtain ⟨vs, hvs, hv⟩ := traverse_range R 4 (m := t.vectors)
      (f := blankVector row staged)
      (P := fun col c c' => c'.data.isSome = c.data.isSome ∧
        c'.abs = if (staged.lookup col).isSome then c.abs else c.abs.clearRow row)
      (by
        intro col c hcol
        unfold blankVector
        cases staged.lookup col with
        | some sv => exact ⟨c, rfl, rfl, rfl⟩
        | none =>
          obtain ⟨c', hc', habs, hdata⟩ := (h.col hcol).clearRow hr
          exact ⟨c', hc', hdata, habs⟩)
    have habs : ({ t with vectors := vs, attrs := cs } : GoTable).abs =
        t.abs.reviveRow row (fun col => staged.lookup col) attrs := by
      rw [Table.reviveRow, if_pos hdead]
      refine Table.ext rfl rfl rfl rfl ?_ ?_ rfl
      · funext col
        change (vs.lookup col).map GoCol.abs = ((t.vectors.lookup col).map GoCol.abs).map _
        rw [Option.map_map]
        exact map_of_rel (hv col) fun c c' hcc => hcc.2
      · funext k
        have hk := map_of_rel (F := id) (hc k) fun c c' hcc => hcc
        rwa [Option.map_id] at hk
    refine ⟨{ t with vectors := vs, attrs := cs }, ?_, habs, ?_, ?_⟩
    · simp only [hload, hdead, if_true, hcs, hvs, Option.bind_eq_bind, Option.bind_some]
    · rw [habs]
      exact hwf
    · intro col c hcol
      obtain ⟨c', hc', hdata, -⟩ := some_of_rel (hv col) hcol
      rw [hdata]
      exact h.data col c' hc'

lemma GoTable.WF.overwriteRow (h : t.WF) (hr : row < t.numRows)
    (hrd : t.abs.Ready (fun col => staged.lookup col) attrs) :
    Returns (t.overwriteRow R row staged attrs)
      (t.abs.overwriteRow row (fun col => staged.lookup col) attrs) := by
  have hstore : store t.tombstones row false = some (t.tombstones.set row false) :=
    store_of_lt (by rwa [show t.tombstones.length = t.numRows from h.lengths.tombstones]) false
  -- every staged vector has its column, and fits it
  have hset : ∀ col sv, staged.lookup col = some sv → ∃ c c', t.vectors.lookup col = some c ∧
      c.setRow t.kernels.is16 row sv = some c' ∧ c'.abs = c.abs.setRow t.kernels.is16 row sv ∧
      c'.data.isSome = c.data.isSome := by
    intro col sv hsv
    obtain ⟨c₀, hc₀, hf⟩ := hrd.vectors col sv hsv
    obtain ⟨c, hc, rfl⟩ := Option.map_eq_some_iff.mp hc₀
    obtain ⟨c', hrest⟩ := (h.col hc).setRow hr hf
    exact ⟨c, c', hc, hrest⟩
  obtain ⟨vs, hvs, hv⟩ := updateAll_range R 5 (l := staged) (m := t.vectors)
    (f := t.writeVector row)
    (g := fun col sv => (t.vectors.lookup col).bind fun c => c.setRow t.kernels.is16 row sv)
    (by
      intro col sv hsv
      obtain ⟨c, c', hc, hc', -⟩ := hset col sv hsv
      simp [GoTable.writeVector, hc, hc'])
  obtain ⟨cs, hcs, hc⟩ := updateAll_range R 6 (l := attrs) (m := t.attrs)
    (f := writeAttr row)
    (g := fun k v => v.map fun v => ((t.attrs.lookup k).getD []).set row (some v))
    (by
      intro k v hk
      cases v with
      | none => rfl
      | some v =>
        obtain ⟨c, hc⟩ := Option.isSome_iff_exists.mp (hrd.attrs k v hk)
        have hc' : t.attrs.lookup k = some c := hc
        have hlt : row < c.length := by rwa [h.lengths.attrs k c hc]
        simp [writeAttr, hc', store_of_lt hlt])
  have habs : ({ t with
      tombstones := t.tombstones.set row false, vectors := vs, attrs := cs } : GoTable).abs =
      t.abs.overwriteRow row (fun col => staged.lookup col) attrs := by
    refine Table.ext rfl rfl rfl rfl ?_ ?_ rfl
    · funext col
      simp only [GoTable.abs, Table.overwriteRow, hv]
      cases hs : staged.lookup col with
      | none => cases t.vectors.lookup col <;> rfl
      | some sv =>
        obtain ⟨c, c', hcol, hc', habs, -⟩ := hset col sv hs
        simp [hcol, hc', habs]
    · funext k
      simp only [GoTable.abs, Table.overwriteRow, hc]
      rcases hk : attrs.lookup k with _ | _ | v
      · simp
      · simp
      · obtain ⟨c, hck⟩ := Option.isSome_iff_exists.mp (hrd.attrs k v hk)
        have hck' : t.attrs.lookup k = some c := hck
        simp [hck']
  refine ⟨{ t with tombstones := t.tombstones.set row false, vectors := vs, attrs := cs },
    ?_, habs, ?_, ?_⟩
  · simp only [GoTable.overwriteRow, hstore, hvs, hcs, Option.bind_eq_bind, Option.bind_some]
  · rw [habs]
    exact h.lengths.overwriteRow hr hrd
  · intro col c hcol
    rw [hv, Option.or_eq_some_iff] at hcol
    rcases hcol with hnew | ⟨-, hold⟩
    · obtain ⟨sv, hsv, hset'⟩ := Option.bind_eq_some_iff.mp hnew
      obtain ⟨c₁, c', hc₁, hc', -, hdata⟩ := hset col sv hsv
      simp only [hc₁, hc', Option.bind_some, Option.some.injEq] at hset'
      subst hset'
      rw [hdata]
      exact h.data col c₁ hc₁
    · exact h.data col c hold

lemma GoTable.WF.insertRow (h : t.WF) {id : String}
    (hrd : t.abs.Ready (fun col => staged.lookup col) attrs) (hnew : t.index.lookup id = none) :
    Returns (t.insertRow R staged attrs id)
      (t.abs.insertRow id (fun col => staged.lookup col) attrs) := by
  obtain ⟨vs, hvs, hv⟩ := traverse_range R 7 (m := t.vectors)
    (f := fun col c => some (c.pushRow t.kernels.is16 (staged.lookup col)))
    (P := fun col c c' => c'.data.isSome = c.data.isSome ∧
      c'.abs = c.abs.pushRow t.kernels.is16 (staged.lookup col))
    (fun col c hcol => ⟨_, rfl, (h.col hcol).pushRow_data _, (h.col hcol).pushRow_abs _⟩)
  obtain ⟨cs, hcs, hc⟩ := traverse_range R 8 (m := t.attrs)
    (f := fun k c => some (c ++ [(attrs.lookup k).join]))
    (P := fun k c c' => c' = c ++ [(attrs.lookup k).join])
    (fun k c _ => ⟨_, rfl, rfl⟩)
  have habs : ({ t with
      docIDs := t.docIDs ++ [id], tombstones := t.tombstones ++ [false],
      index := t.index.insert id t.numRows, vectors := vs, attrs := cs,
      numRows := t.numRows + 1 } : GoTable).abs =
      t.abs.insertRow id (fun col => staged.lookup col) attrs := by
    refine Table.ext rfl rfl ?_ rfl ?_ ?_ rfl
    · exact lookup_insert_update t.index id t.numRows
    · funext col
      change (vs.lookup col).map GoCol.abs = ((t.vectors.lookup col).map GoCol.abs).map _
      rw [Option.map_map]
      exact map_of_rel (hv col) fun c c' hcc => hcc.2
    · funext k
      have hk := map_of_rel (F := fun c => c) (hc k) fun c c' hcc => hcc
      rwa [Option.map_id'] at hk
  refine ⟨_, ?_, habs, ?_, ?_⟩
  · simp only [GoTable.insertRow, hvs, hcs, Option.bind_eq_bind, Option.bind_some]
  · rw [habs]
    exact h.lengths.insertRow hrd hnew
  · intro col c hcol
    obtain ⟨c', hc', hdata, -⟩ := some_of_rel (hv col) hcol
    rw [hdata]
    exact h.data col c' hc'

end Rows

/-- An upsert returns the table and the error of the columns; an error leaves the
table as it was. -/
inductive Upserts (t : GoTable) : Option (GoTable × Option UpsertErr) → Except UpsertErr Table → Prop
  | ok {u : GoTable} (h : u.WF) : Upserts t (some (u, none)) (.ok u.abs)
  | error (e : UpsertErr) : Upserts t (some (t, some e)) (.error e)

section Calls
variable {t : GoTable} (R : RangeOrder String)

theorem GoTable.WF.upsert (h : t.WF) (A : Arith) (attrs : GoMap (Option AttributeValue))
    (id : String) (vectors : GoMap (List F32)) :
    Upserts t (t.Upsert A R attrs id vectors) (t.abs.Upsert A id (R.range 0 vectors) attrs) := by
  unfold GoTable.Upsert Table.Upsert
  split
  · exact .error _
  · have hmap := GoTable.stage_map A t (R.range 0 vectors).entries ∅
    simp only [AList.lookup_empty] at hmap
    rw [GoTable.abs_kernels]
    cases hst : GoTable.stage A t.kernels.is16 t.vectors (R.range 0 vectors).entries ∅ with
    | error e =>
      rw [hst] at hmap
      rw [← hmap]
      exact .error e
    | ok staged =>
      rw [hst] at hmap
      rw [← hmap]
      have hok : ∀ col sv, staged.lookup col = some sv → _ :=
        fun col sv hsv => staged_fits hmap.symm hsv
      obtain ⟨t₁, h₁, habs₁, hwf₁⟩ := h.addColumns R fun col sv hsv => (hok col sv hsv).1
      have hrd : t₁.abs.Ready (fun col => staged.lookup col) attrs := by
        rw [habs₁]
        exact addColumns_ready fun col sv hsv => (hok col sv hsv).2
      simp only [h₁, Except.map, ← habs₁, GoTable.abs_index, Option.bind_eq_bind, Option.bind_some]
      cases hi : t₁.index.lookup id with
      | none =>
        obtain ⟨t₂, h₂, habs₂, hwf₂⟩ := hwf₁.insertRow R hrd hi
        simp only [h₂, Option.bind_some, ← habs₂]
        exact .ok hwf₂
      | some row =>
        have hr : row < t₁.numRows := hwf₁.lengths.row_lt hi
        obtain ⟨t₂, h₂, habs₂, hwf₂⟩ : Returns (t₁.reviveRow R row staged attrs) _ :=
          hwf₁.reviveRow R hr
        have hr₂ : row < t₂.numRows := by
          have hnum := congrArg Table.numRows habs₂
          rw [reviveRow_numRows, GoTable.abs_numRows, GoTable.abs_numRows] at hnum
          rwa [hnum]
        obtain ⟨t₃, h₃, habs₃, hwf₃⟩ := hwf₂.overwriteRow R hr₂ (habs₂ ▸ hrd.reviveRow row)
        simp only [h₂, h₃, Option.bind_some, ← habs₂, ← habs₃]
        exact .ok hwf₃

lemma GoTable.WF.delete (h : t.WF) (id : String) : ∃ u, t.Delete id = some (u, (t.abs.Delete id).2) ∧
    u.abs = (t.abs.Delete id).1 ∧ u.WF := by
  unfold GoTable.Delete Table.Delete
  rw [GoTable.abs_index]
  cases hi : t.index.lookup id with
  | none => exact ⟨t, rfl, rfl, h⟩
  | some row =>
    have hr : row < t.tombstones.length := by
      rw [show t.tombstones.length = t.numRows from h.lengths.tombstones]
      exact h.lengths.row_lt hi
    have hload : load t.tombstones row = some (t.abs.isTombstoned row) := load_getD hr false
    simp only [hload, store_of_lt hr, Option.bind_eq_bind, Option.bind_some]
    cases t.abs.isTombstoned row with
    | true => exact ⟨t, rfl, rfl, h⟩
    | false =>
      exact ⟨{ t with tombstones := t.tombstones.set row true }, rfl, rfl,
        h.lengths.setTombstone row, h.data⟩

lemma GoTable.clone_abs (t : GoTable) : (t.Clone R).abs = t.abs := by
  simp only [GoTable.abs, GoTable.Clone, R.lookup]

lemma GoTable.WF.clone (h : t.WF) : (t.Clone R).WF := by
  refine ⟨?_, ?_⟩
  · rw [GoTable.clone_abs]
    exact h.lengths
  · intro col c hc
    exact h.data col c (by rwa [GoTable.Clone, R.lookup] at hc)

lemma GoTable.WF.recordAt (h : t.WF) (row : ℕ) (id : String) :
    t.recordAt R row id = some (t.abs.recordAt row id) := by
  obtain ⟨vs, hvs, hv⟩ := traverse_range R 13 (m := t.vectors)
    (f := fun _ c => c.vectorAt t.kernels row)
    (P := fun _ c o => o = if c.hasVec.getD row false then
      match c.data16 with
      | some d => some (t.kernels.Decode16 (slice d (row * c.dim) c.dim))
      | none => some (slice (c.data.getD []) (row * c.dim) c.dim)
    else none)
    (fun col c hc => ⟨_, (h.col hc).vectorAt t.kernels row, rfl⟩)
  obtain ⟨cs, hcs, hc⟩ := traverse_range R 14 (m := t.attrs)
    (f := fun _ c => some (c.getD row none)) (P := fun _ c o => o = c.getD row none)
    (fun k c _ => ⟨_, rfl, rfl⟩)
  simp only [GoTable.recordAt, hvs, hcs, Option.bind_eq_bind, Option.bind_some]
  congr 1
  ext1
  · rfl
  · funext col
    have hrel := map_of_rel (F := fun o => o) (hv col) fun c o ho => ho
    rw [Option.map_id'] at hrel
    dsimp only
    rw [hrel]
    simp only [Table.recordAt, GoTable.abs]
    cases t.vectors.lookup col <;> rfl
  · funext k
    have hrel := map_of_rel (F := fun o => o) (hc k) fun c o ho => ho
    rw [Option.map_id'] at hrel
    dsimp only
    rw [hrel]
    simp only [Table.recordAt, GoTable.abs]
    cases t.attrs.lookup k <;> rfl

theorem GoTable.WF.get (h : t.WF) (id : String) : t.Get R id = some (t.abs.Get id) := by
  unfold GoTable.Get Table.Get
  rw [GoTable.abs_index]
  cases t.index.lookup id with
  | none => rfl
  | some row =>
    cases hdead : t.isTombstoned row <;>
      simp [hdead, show t.abs.isTombstoned row = _ from hdead, h.recordAt]

end Calls

section Search
variable {t : GoTable} {c : GoCol} {row : ℕ}

lemma GoTable.WF.rowScore (h : t.WF) {col : String} (hc : t.vectors.lookup col = some c)
    (hr : row < t.numRows) (A : Arith) (p : Plan) (query : List F32)
    (filter : Option EqualityFilter) :
    t.rowScore A c p query filter row = some (t.abs.rowScore A c.abs p query filter row) := by
  have hcol := h.col hc
  have hdead : load t.tombstones row = some (t.abs.isTombstoned row) :=
    load_getD (by rwa [show t.tombstones.length = t.numRows from h.lengths.tombstones]) false
  have hhas : load c.hasVec row = some (c.abs.hasVec.getD row false) :=
    load_getD (by rwa [show c.hasVec.length = t.numRows from hcol.lengths.hasVec]) false
  have hinv : load c.invNorms row = some (c.abs.invNorms.getD row F32.zero) :=
    load_getD (by rwa [show c.invNorms.length = t.numRows from hcol.lengths.invNorms]) F32.zero
  simp only [GoTable.rowScore, Table.rowScore, hdead, hhas, hinv, hcol.cell hr,
    Option.bind_eq_bind, Option.bind_some]
  cases t.abs.isTombstoned row with
  | true => rfl
  | false =>
    cases c.abs.hasVec.getD row false with
    | false => rfl
    | true =>
      cases hp : passes filter (filter.bind fun f => (t.attrs.lookup f.Field).bind fun col =>
          col.getD row none) with
      | false => simp only [GoTable.abs_attrs, hp, Bool.not_true, Bool.or_self, Bool.false_eq_true, if_false]
      | true =>
        simp only [GoTable.abs_attrs, GoTable.abs_kernels, hp, Bool.not_true, Bool.or_self,
          Bool.false_eq_true, if_false, if_true]
        cases hm : p.metric with
        | cosine =>
          simp only [score, hm]
          cases (c.abs.invNorms.getD row F32.zero).eq F32.zero <;> rfl
        | _ => simp only [score, hm]

lemma offerAt_of_pos (p : Plan) {topK : ℕ} (h : 0 < topK) (hits : List SearchHit)
    (cand : SearchHit) : offerAt p topK hits cand = some (offer p topK hits cand) := by
  unfold offerAt offer
  split
  · rfl
  · cases hits with
    | nil => simp_all
    | cons worst rest =>
      simp only [load, List.getElem?_cons_zero, Option.bind_eq_bind, Option.bind_some]
      split
      · rfl
      · split
        · simp [store]
        · rfl

lemma GoTable.WF.scanRow (h : t.WF) {col : String} (hc : t.vectors.lookup col = some c)
    (hr : row < t.numRows) (A : Arith) (p : Plan) (query : List F32) {topK : ℕ} (hk : 0 < topK)
    (filter : Option EqualityFilter) (hits : List SearchHit) :
    t.scanRow A c p query topK filter hits row =
      some (t.abs.scanRow A c.abs p query topK filter hits row) := by
  have hid : load t.docIDs row = some (t.abs.docIDs.getD row "") :=
    load_getD (by rwa [show t.docIDs.length = t.numRows from h.lengths.docIDs]) ""
  simp only [GoTable.scanRow, Table.scanRow, h.rowScore hc hr, hid, offerAt_of_pos p hk,
    Option.bind_eq_bind, Option.bind_some]
  cases t.abs.rowScore A c.abs p query filter row <;> rfl

theorem GoTable.WF.search (h : t.WF) (A : Arith) (R : RangeOrder String) (col : String)
    (query : List F32) (topK : ℤ) (metric : DistanceMetric) (filter : Option EqualityFilter) :
    t.Search A R col query topK metric filter =
      some (t.abs.Search A col query topK metric filter) := by
  unfold GoTable.Search Table.Search
  split
  · rfl
  · rename_i hk
    have hpos : 0 < topK.toNat := by omega
    rw [GoTable.abs_vectors]
    cases hc : t.vectors.lookup col with
    | none => rfl
    | some c =>
      dsimp only [Option.map_some]
      by_cases hrows : t.numRows = 0
      · rw [if_pos hrows, if_pos (show t.abs.numRows = 0 from hrows)]
      rw [if_neg hrows, if_neg (show ¬t.abs.numRows = 0 from hrows)]
      by_cases hdim : query.length ≠ c.dim
      · rw [if_pos hdim, if_pos (show query.length ≠ c.abs.dim from hdim)]
      rw [if_neg hdim, if_neg (show ¬query.length ≠ c.abs.dim from hdim)]
      cases plan A query metric with
      | error e => rfl
      | ok p =>
        have hscan := foldlM_of_forall (l := List.range t.numRows)
          (f := t.scanRow A c p query topK.toNat filter)
          (g := t.abs.scanRow A c.abs p query topK.toNat filter)
          (fun row hrow hits => h.scanRow hc (List.mem_range.mp hrow) A p query hpos filter hits) []
        have hrec := fun hits : List SearchHit => mapM_of_forall (l := hits)
          (f := fun hit => (t.recordAt R hit.row hit.id).bind fun record =>
            some (⟨record, hit.score⟩ : ScoredResult))
          (g := fun hit => ⟨t.abs.recordAt hit.row hit.id, hit.score⟩)
          (fun hit _ => by rw [h.recordAt]; rfl)
        simp only [hscan, hrec, Option.bind_eq_bind, Option.bind_some]
        cases hf : filter.any fun f => (t.attrs.lookup f.Field).isNone <;> simp [hf]

end Search

end CloudyNeigh.Query
