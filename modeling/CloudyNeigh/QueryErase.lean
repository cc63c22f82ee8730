import CloudyNeigh.QueryAlike
import CloudyNeigh.QueryGoReplay

/-!
# Deletion erases

What an upsert of a deleted id leaves of the document, next to what the same upsert
leaves in a table that never held the id. The row of a deleted document keeps its
old values, and the next upsert blanks the attributes that its map does not name:
a name with a nil value is neither blanked nor written.
-/
namespace CloudyNeigh.Query
open Blocks Checked Replay VectorFormat

/-- The document that one upsert alone makes. -/
def freshDoc (A : Arith) (is16 : Bool) (vectors : GoMap (List F32))
    (attrs : GoMap (Option AttributeValue)) : Doc :=
  (fun col => (vectors.lookup col).bind fun vec =>
    if vec = [] then none
    else (stageVector A is16 vec).toOption.map fun sv => sv.stored is16,
  fun k => (attrs.lookup k).join)

/-- The value in the row of an id, whether the document is deleted or not. -/
def GoTable.rowAttr (t : GoTable) (id k : String) : Option AttributeValue :=
  (t.index.lookup id).bind fun row => (t.attrs.lookup k).bind fun c => c.getD row none

section Fresh
variable {A : Arith} {is16 : Bool} {vectors : GoMap (List F32)}
  {attrs : GoMap (Option AttributeValue)} {dims : String → Option ℕ}
  {staged : String → Option StagedVector}

lemma staged_fresh (attrs : GoMap (Option AttributeValue))
    (h : stage A is16 dims vectors.entries (fun _ => none) = .ok staged) (col : String) :
    (staged col).map (fun sv => sv.stored is16) = (freshDoc A is16 vectors attrs).1 col := by
  simp only [freshDoc]
  cases hvec : vectors.lookup col with
  | none =>
    have hnone : staged col = none := by
      by_contra hne
      obtain ⟨sv, hsv⟩ := Option.ne_none_iff_exists'.mp hne
      obtain ⟨vec, hlook, -⟩ := (stage_lookup h col sv).mp hsv
      rw [hvec] at hlook
      cases hlook
    rw [hnone]
    rfl
  | some vec =>
    rw [Option.bind_some]
    by_cases hnil : vec = []
    · have hnone : staged col = none := by
        by_contra hne
        obtain ⟨sv, hsv⟩ := Option.ne_none_iff_exists'.mp hne
        obtain ⟨vec', hlook, hne', -⟩ := (stage_lookup h col sv).mp hsv
        rw [hvec] at hlook
        cases hlook
        exact hne' hnil
      rw [hnone, if_pos hnil]
      rfl
    · obtain ⟨-, sv, hsv, hstaged⟩ := stage_supplied h hvec hnil
      rw [hstaged, if_neg hnil, hsv]
      rfl

lemma patchOf_fresh (h : stage A is16 dims vectors.entries (fun _ => none) = .ok staged) :
    patchOf is16 staged attrs = freshDoc A is16 vectors attrs :=
  Prod.ext (funext (staged_fresh attrs h)) rfl

end Fresh

lemma Doc.onto_blank (d : Doc) : Overlay.onto d Overlay.blank = d := by
  ext col : 2
  · exact Option.or_none
  · exact Option.or_none

section Upsert
variable {A : Arith} {t u : GoTable} {R : RangeOrder String} {id : String}
  {vectors : GoMap (List F32)} {attrs : GoMap (Option AttributeValue)}

/-- An upsert without a document before it. -/
lemma GoTable.WF.upsert_fresh (h : t.WF) (hn : t.abs.Clears id attrs) (hnone : t.document id = none)
    (hu : t.Upsert A R attrs id vectors = some (u, none)) :
    u.WF ∧ u.kernels = t.kernels ∧
      u.document = Function.update t.document id
        (some (freshDoc A t.kernels.is16 vectors attrs)) ∧
      ∀ col vec, vectors.lookup col = some vec → vec ≠ [] → u.abs.dims col = some vec.length := by
  rcases h.upsert_view A R vectors hn with ⟨u', hu', hwf, hk, hv⟩ | ⟨e, e', he, -⟩
  · rw [hu] at hu'
    cases hu'
    unfold View.Upsert at hv
    split at hv
    · cases hv
    · cases hst : Query.stage A t.kernels.is16 t.abs.view.dims vectors.entries (fun _ => none) with
      | error e =>
        rw [hst] at hv
        cases hv
      | ok staged =>
        rw [hst] at hv
        have hview : t.abs.view.write t.kernels.is16 id staged attrs = u.abs.view :=
          Except.ok.inj hv
        refine ⟨hwf, hk, ?_, fun col vec hvec hne => ?_⟩
        · have hdoc : u.document = (t.abs.view.write t.kernels.is16 id staged attrs).doc := by
            rw [hview]
            rfl
          rw [hdoc, View.write, show t.abs.view.doc id = none from hnone, patchOf_fresh hst]
          simp only [Edit.apply, Option.getD_none, Doc.onto_blank]
          rfl
        · obtain ⟨hd, sv, hsv, hstaged⟩ := stage_supplied hst hvec hne
          have hdims : u.abs.dims col = (t.abs.view.write t.kernels.is16 id staged attrs).dims col := by
            rw [hview]
            rfl
          rw [hdims]
          simp only [View.write, hstaged, Option.map_some, (stageVector_ok hsv).1]
          cases hcol : t.abs.view.dims col with
          | none => rfl
          | some n => rw [Option.some_or, hd n (by rw [hcol]; rfl)]
  · rw [hu] at he
    cases he

end Upsert

/-- The maps of an upsert. -/
abbrev Call := GoMap (List F32) × GoMap (Option AttributeValue)

/-- Every value of the document was supplied by one of the calls. -/
structure Doc.From (A : Arith) (is16 : Bool) (calls : List Call) (d : Doc) : Prop where
  vector : ∀ col sv, d.1 col = some sv →
    ∃ c ∈ calls, (freshDoc A is16 c.1 c.2).1 col = some sv
  attr : ∀ k v, d.2 k = some v → ∃ c ∈ calls, (freshDoc A is16 c.1 c.2).2 k = some v

/-- The upsert of `id` that the table accepts, if the call is one. -/
def Tracked.supplies (A : Arith) (s : Tracked) (id : String) : TableOp → List Call
  | .upsert R id' vectors attrs =>
    match s.table.Upsert A R attrs id' vectors with
    | some (_, none) => if id' = id then [(vectors, attrs)] else []
    | _ => []
  | .delete _ => []
  | .clone _ => []

/-- The accepted upserts of `id` in a run. -/
def Tracked.supplied (A : Arith) (id : String) : List TableOp → Tracked → List Call
  | [], _ => []
  | op :: ops, s =>
    match s.step A op with
    | none => []
    | some s' => s.supplies A id op ++ Tracked.supplied A id ops s'

section Rows
variable {A : Arith} {t u w : Table} {id id' : String} {row : ℕ} {vectors : GoMap (List F32)}
  {staged : String → Option StagedVector} {attrs : GoMap (Option AttributeValue)}

/-- What an upsert of `id` leaves in a row of `id'`: its own values, or what was there. -/
structure Table.Leaves (A : Arith) (t u : Table) (id : String) (c : Call) : Prop where
  vector : ∀ id' row col sv, u.index id' = some row → (u.docAt row).1 col = some sv →
    (id' = id ∧ (freshDoc A t.kernels.is16 c.1 c.2).1 col = some sv) ∨
      (t.index id' = some row ∧ (t.docAt row).1 col = some sv)
  attr : ∀ id' row k v, u.index id' = some row → (u.docAt row).2 k = some v →
    (id' = id ∧ (freshDoc A t.kernels.is16 c.1 c.2).2 k = some v) ∨
      (t.index id' = some row ∧ (t.docAt row).2 k = some v)

/-- Reviving a row only takes attributes away, and none that the map names. -/
lemma Table.WF.reviveRow_attr (h : t.WF) (hr : row < t.numRows) {r : ℕ} {k : String}
    {v : AttributeValue} (hs : ((t.reviveRow row staged attrs).docAt r).2 k = some v) :
    (t.docAt r).2 k = some v := by
  by_cases hne : r = row
  · subst hne
    unfold Table.reviveRow at hs
    split at hs
    · simp only [Table.docAt] at hs ⊢
      cases hc : t.attrs k with
      | none =>
        rw [hc] at hs
        cases hs
      | some c =>
        rw [hc] at hs
        simp only [Option.map_some, Option.bind_some] at hs ⊢
        split at hs
        · exact hs
        · rw [getD_set c (h.attrs k c hc ▸ hr), if_pos rfl] at hs
          cases hs
    · exact hs
  · rwa [h.reviveRow_docAt_ne hr hne] at hs

lemma reviveRow_named {r : ℕ} {k : String} (hk : (attrs.lookup k).isSome) :
    ((t.reviveRow row staged attrs).docAt r).2 k = (t.docAt r).2 k := by
  unfold Table.reviveRow
  split
  · simp only [Table.docAt, hk, if_true]
    cases t.attrs k <;> rfl
  · rfl

section Written
variable {dims : String → Option ℕ} (hwf : w.WF) (hrd : w.Ready staged attrs)
  (hst : stage A w.kernels.is16 dims vectors.entries (fun _ => none) = .ok staged)

include hwf hrd hst in
lemma overwrite_leaves (hi : w.index id = some row) :
    w.Leaves A ((w.reviveRow row staged attrs).overwriteRow row staged attrs) id
      (vectors, attrs) := by
  have hr := hwf.row_lt hi
  have hindex : ((w.reviveRow row staged attrs).overwriteRow row staged attrs).index = w.index := by
    simp [Table.overwriteRow]
  constructor
  · intro id' r col sv hi' hsv
    rw [hindex] at hi'
    rw [(hwf.reviveRow row).overwriteRow_vec (by simpa using hr) (hrd.reviveRow row),
      reviveRow_kernels, staged_fresh attrs hst] at hsv
    split at hsv
    · rename_i hrr
      subst hrr
      rcases Option.or_eq_some_iff.mp hsv with hnew | ⟨-, hold⟩
      · exact Or.inl ⟨hwf.index_inj hi hi', hnew⟩
      · exact Or.inr ⟨hi', hwf.reviveRow_vec hr hold⟩
    · exact Or.inr ⟨hi', hwf.reviveRow_vec hr hsv⟩
  · intro id' r k v hi' hv
    rw [hindex] at hi'
    rw [(hwf.reviveRow row).overwriteRow_attr (by simpa using hr) (hrd.reviveRow row)] at hv
    split at hv
    · rename_i hrr
      subst hrr
      rcases Option.or_eq_some_iff.mp hv with hnew | ⟨-, hold⟩
      · exact Or.inl ⟨hwf.index_inj hi hi', hnew⟩
      · exact Or.inr ⟨hi', hwf.reviveRow_attr hr hold⟩
    · exact Or.inr ⟨hi', hwf.reviveRow_attr hr hv⟩

include hwf hrd hst in
lemma insert_leaves : w.Leaves A (w.insertRow id staged attrs) id (vectors, attrs) := by
  -- a row below the new one belongs to an id that had it
  have hrow : ∀ id' r, (w.insertRow id staged attrs).index id' = some r →
      (id' = id ∧ r = w.numRows) ∨ (w.index id' = some r ∧ r ≠ w.numRows) := by
    intro id' r hi
    by_cases hid : id' = id
    · subst hid
      left
      refine ⟨rfl, ?_⟩
      simpa [Table.insertRow, eq_comm] using hi
    · right
      have hi : w.index id' = some r := by simpa [Table.insertRow, hid] using hi
      exact ⟨hi, (hwf.row_lt hi).ne⟩
  constructor
  · intro id' r col sv hi hsv
    rw [hwf.insertRow_docAt hrd, patchOf_fresh hst] at hsv
    rcases hrow id' r hi with ⟨rfl, rfl⟩ | ⟨hold, hne⟩
    · rw [if_pos rfl, Doc.onto_blank] at hsv
      exact Or.inl ⟨rfl, hsv⟩
    · rw [if_neg hne] at hsv
      exact Or.inr ⟨hold, hsv⟩
  · intro id' r k v hi hv
    rw [hwf.insertRow_docAt hrd, patchOf_fresh hst] at hv
    rcases hrow id' r hi with ⟨rfl, rfl⟩ | ⟨hold, hne⟩
    · rw [if_pos rfl, Doc.onto_blank] at hv
      exact Or.inl ⟨rfl, hv⟩
    · rw [if_neg hne] at hv
      exact Or.inr ⟨hold, hv⟩

end Written

/-- New columns hold no value yet. -/
lemma Table.Leaves.of_addColumns {c : Call} (h : (t.addColumns staged attrs).Leaves A u id c) :
    t.Leaves A u id c := by
  constructor
  · intro id' r col sv hi hsv
    have hvec := h.vector id' r col sv hi hsv
    rwa [addColumns_docAt] at hvec
  · intro id' r k v hi hv
    have hattr := h.attr id' r k v hi hv
    rwa [addColumns_docAt] at hattr

lemma Table.WF.upsert_leaves (h : t.WF) (hu : t.Upsert A id vectors attrs = .ok u) :
    t.Leaves A u id (vectors, attrs) := by
  obtain ⟨-, staged, hst, hwf, hrd, ⟨row, hi, rfl⟩ | ⟨-, rfl⟩⟩ := h.upsert_cases hu
  · exact (overwrite_leaves hwf hrd hst hi).of_addColumns
  · exact (insert_leaves hwf hrd hst).of_addColumns

/-- An attribute named with a nil value stays as it is, and its document is live. -/
lemma Table.WF.upsert_nil (h : t.WF) (hu : t.Upsert A id vectors attrs = .ok u)
    (hi : t.index id = some row) {k : String} (hk : attrs.lookup k = some none) :
    u.view.doc id = some (u.docAt row) ∧ (u.docAt row).2 k = (t.docAt row).2 k := by
  obtain ⟨-, staged, hst, hwf, hrd, ⟨row', hi', rfl⟩ | ⟨hnone, -⟩⟩ := h.upsert_cases hu
  · obtain rfl : row' = row := Option.some.inj (hi'.symm.trans hi)
    have hr := h.row_lt hi
    constructor
    · rw [Table.WF.doc_of_index (by simpa [Table.overwriteRow, Table.addColumns] using hi), if_neg]
      simp only [Table.isTombstoned, Table.overwriteRow, reviveRow_tombstones]
      rw [getD_set _ (h.tombstones ▸ hr), if_pos rfl]
      exact Bool.false_ne_true
    · rw [(hwf.reviveRow row').overwriteRow_attr (by simpa [Table.addColumns] using hr)
        (hrd.reviveRow row'), if_pos rfl, hk, Option.join_some, Option.none_or,
        reviveRow_named (by rw [hk]; rfl), addColumns_docAt]
  · rw [hi] at hnone
    cases hnone

end Rows

section Runs
variable {A : Arith} {s s' : Tracked} {t u : GoTable} {id : String} {R : RangeOrder String}
  {vectors : GoMap (List F32)} {attrs : GoMap (Option AttributeValue)} {calls : List Call}

lemma freshDoc_range (is16 : Bool) (n : ℕ) : freshDoc A is16 (R.range n vectors) attrs =
    freshDoc A is16 vectors attrs := by
  simp only [freshDoc, R.lookup]

lemma GoTable.WF.upsert_abs (h : t.WF) (hu : t.Upsert A R attrs id vectors = some (u, none)) :
    u.WF ∧ t.abs.Upsert A id (R.range 0 vectors) attrs = .ok u.abs := by
  have hup := h.upsert R A attrs id vectors
  rw [hu] at hup
  generalize t.abs.Upsert A id (R.range 0 vectors) attrs = y at hup
  cases hup with
  | ok hwf => exact ⟨hwf, rfl⟩

lemma GoTable.WF.upsert_leaves (h : t.WF) (hu : t.Upsert A R attrs id vectors = some (u, none)) :
    t.abs.Leaves A u.abs id (vectors, attrs) := by
  have hleaves := h.lengths.upsert_leaves (h.upsert_abs hu).2
  constructor
  · simpa only [freshDoc_range] using hleaves.vector
  · simpa only [freshDoc_range] using hleaves.attr

/-- All values in the row of `id` were supplied by the calls. -/
def GoTable.RowFrom (A : Arith) (id : String) (calls : List Call) (t : GoTable) : Prop :=
  ∀ row, t.abs.index id = some row → (t.abs.docAt row).From A t.abs.kernels.is16 calls

/-- An accepted upsert adds its own values to the row that it names only. -/
lemma Table.Leaves.from {t u : Table} {id' : String} {row : ℕ} {c : Call} (h : t.Leaves A u id' c)
    (hrow : u.index id = some row)
    (hfrom : ∀ row, t.index id = some row → (t.docAt row).From A t.kernels.is16 calls) :
    (u.docAt row).From A t.kernels.is16 (calls ++ if id' = id then [c] else []) := by
  constructor
  · intro col sv hsv
    rcases h.vector id row col sv hrow hsv with ⟨rfl, hnew⟩ | ⟨hi, hold⟩
    · exact ⟨c, by simp, hnew⟩
    · obtain ⟨c', hc', hfresh⟩ := (hfrom row hi).vector col sv hold
      exact ⟨c', List.mem_append_left _ hc', hfresh⟩
  · intro k v hv
    rcases h.attr id row k v hrow hv with ⟨rfl, hnew⟩ | ⟨hi, hold⟩
    · exact ⟨c, by simp, hnew⟩
    · obtain ⟨c', hc', hfresh⟩ := (hfrom row hi).attr k v hold
      exact ⟨c', List.mem_append_left _ hc', hfresh⟩

lemma GoTable.RowFrom.step (hf : s.table.RowFrom A id calls) (h : s.Inv A) {op : TableOp}
    (hs : s.step A op = some s') : s'.table.RowFrom A id (calls ++ s.supplies A id op) := by
  cases op with
  | upsert R id' vectors attrs =>
    have hup := h.wf.upsert R A attrs id' vectors
    simp only [Tracked.step] at hs
    simp only [Tracked.supplies]
    generalize hx : s.table.Upsert A R attrs id' vectors = x at hs hup ⊢
    generalize hy : s.table.abs.Upsert A id' (R.range 0 vectors) attrs = y at hup
    cases hup with
    | error e =>
      cases hs
      simpa using hf
    | ok hwf =>
      cases hs
      intro row hrow
      rw [(h.wf.lengths.upsert_wrote hy).kernels]
      exact (h.wf.upsert_leaves hx).from hrow hf
  | delete id' =>
    obtain ⟨u, hu, habs, -⟩ := h.wf.delete id'
    obtain ⟨hdoc, hindex, -, hkern⟩ := s.table.abs.delete_rows id'
    simp only [Tracked.step, hu, Option.some.injEq] at hs
    rw [← hs, Tracked.supplies, List.append_nil]
    unfold GoTable.RowFrom
    rw [habs, hdoc, hindex, hkern]
    exact hf
  | clone R =>
    simp only [Tracked.step, Option.some.injEq] at hs
    rw [← hs, Tracked.supplies, List.append_nil]
    unfold GoTable.RowFrom
    rw [GoTable.clone_abs]
    exact hf

lemma GoTable.RowFrom.run (hf : s.table.RowFrom A id calls) (h : s.Inv A) {ops : List TableOp}
    (hs : s.run A ops = some s') :
    s'.table.RowFrom A id (calls ++ Tracked.supplied A id ops s) := by
  induction ops generalizing s calls with
  | nil =>
    cases hs
    simpa [Tracked.supplied] using hf
  | cons op ops ih =>
    obtain ⟨s₁, h₁, hinv, -⟩ := h.step op
    rw [Tracked.run, h₁] at hs
    have hrun := ih (hf.step h h₁) hinv hs
    rw [Tracked.supplied, h₁]
    rwa [List.append_assoc] at hrun

lemma GoTable.rowAttr_abs (t : GoTable) (id k : String) :
    t.rowAttr id k = (t.abs.index id).bind fun row => (t.abs.docAt row).2 k := rfl

lemma GoTable.document_from (hf : t.RowFrom A id calls) {d : Doc} (hd : t.document id = some d) :
    d.From A t.kernels.is16 calls := by
  obtain ⟨row, hrow, hd⟩ := Option.bind_eq_some_iff.mp hd
  split at hd
  · cases hd
  · cases hd
    exact hf row hrow

/-- The table that a deletion leaves. -/
lemma GoTable.WF.deleted (h : t.WF) {b : Bool} (hd : t.Delete id = some (u, b)) :
    u.WF ∧ u.kernels = t.kernels ∧ u.document id = none ∧ u.abs.index id = t.abs.index id ∧
      u.abs.docAt = t.abs.docAt := by
  obtain ⟨u', hu', habs, hwf⟩ := h.delete id
  rw [hd] at hu'
  cases hu'
  obtain ⟨hdoc, hindex, -, hkern⟩ := t.abs.delete_rows id
  refine ⟨hwf, ?_, ?_, ?_, ?_⟩
  · rw [← GoTable.abs_kernels, habs, hkern, GoTable.abs_kernels]
  · have hview := (h.represents.delete id).view
    rw [GoTable.document, habs, hview]
    exact Function.update_self ..
  · rw [habs, hindex]
  · rw [habs, hdoc]

/-- What one table accepts a new table accepts. -/
lemma GoTable.WF.upsert_new (h : t.WF) (hu : t.Upsert A R attrs id vectors = some (u, none)) :
    ∃ u', (GoTable.NewTable t.kernels).Upsert A R attrs id vectors = some (u', none) := by
  have hclears : (GoTable.NewTable t.kernels).abs.Clears id attrs := by
    intro row k hi
    cases hi
  rcases (newGoTable_wf t.kernels).upsert_view A R vectors hclears with
    ⟨u', hu', -⟩ | ⟨e, e', -, hv⟩
  · exact ⟨u', hu'⟩
  · obtain ⟨hid, staged, hst, -⟩ := h.lengths.upsert_cases (h.upsert_abs hu).2
    have hacc := (stage_ok ((stage_range R 0).mp hst)).1
    have hnew : ∀ e ∈ vectors.entries, Accepts A t.kernels.is16
        (GoTable.NewTable t.kernels).abs.view.dims e := by
      intro e he
      rcases hacc e he with hnil | ⟨-, hsv⟩
      · exact Or.inl hnil
      · refine Or.inr ⟨fun d hd => ?_, hsv⟩
        cases hd
    have hstage := stage_of_accepts hnew fun _ => none
    unfold View.Upsert at hv
    rw [if_neg hid] at hv
    erw [hstage] at hv
    cases hv

end Runs

/-- The document `id` is what the upsert alone makes of it, and later shows what this
and later upserts supply. -/
structure Erased (A : Arith) (k : Kernels) (id : String) (vectors : GoMap (List F32))
    (attrs : GoMap (Option AttributeValue)) (s : Tracked) : Prop where
  /-- Next to any table that never contained `id` and takes the same upsert. -/
  alike : ∀ ops s' R u, (Tracked.new k).run A ops = some s' → s'.table.index.lookup id = none →
    s'.table.Upsert A R attrs id vectors = some (u, none) → ShowsAlike A s.table u id
  never : ∀ ops w, s.run A ops = some w → ∀ d, w.table.document id = some d →
    d.From A k.is16 ((vectors, attrs) :: Tracked.supplied A id ops s)

section Erased
variable {A : Arith} {k : Kernels} {t u : GoTable} {R : RangeOrder String} {id : String}
  {vectors : GoMap (List F32)} {attrs : GoMap (Option AttributeValue)}

/-- The vectors of the new document are those of the call that are not empty. -/
lemma freshDoc_vector {is16 : Bool} {col : String} {sv : StoredVec}
    (h : (freshDoc A is16 vectors attrs).1 col = some sv) :
    ∃ vec, vectors.lookup col = some vec ∧ vec ≠ [] := by
  obtain ⟨vec, hvec, hsv⟩ := Option.bind_eq_some_iff.mp h
  refine ⟨vec, hvec, fun hnil => ?_⟩
  rw [if_pos hnil] at hsv
  cases hsv

/-- Two tables without the document that accept the same upsert. -/
lemma GoTable.WF.upserts_alike (h : t.WF) (hn : t.abs.Clears id attrs)
    (hnone : t.document id = none) (hu : t.Upsert A R attrs id vectors = some (u, none))
    {t' u' : GoTable} {R' : RangeOrder String} (h' : t'.WF) (hn' : t'.abs.Clears id attrs)
    (hnone' : t'.document id = none) (hu' : t'.Upsert A R' attrs id vectors = some (u', none))
    (hk : t.kernels = t'.kernels) : ShowsAlike A u u' id := by
  obtain ⟨hwf, hkern, hdoc, hdims⟩ := h.upsert_fresh hn hnone hu
  obtain ⟨hwf', hkern', hdoc', hdims'⟩ := h'.upsert_fresh hn' hnone' hu'
  have hid : u.document id = some (freshDoc A t.kernels.is16 vectors attrs) := by
    rw [hdoc, Function.update_self]
  refine hwf.showsAlike hwf' (by rw [hkern, hkern', hk]) ?_ ?_
  · rw [hid, hdoc', Function.update_self, hk]
  · intro d col sv hd hsv
    rw [hid] at hd
    cases hd
    obtain ⟨vec, hvec, hne⟩ := freshDoc_vector hsv
    rw [hdims col vec hvec hne, hdims' col vec hvec hne]

/-- The row of a document that was blank before the upsert. -/
lemma GoTable.WF.upsert_rowFrom (h : t.WF) (hn : t.abs.Clears id attrs)
    (hnone : t.document id = none) (hu : t.Upsert A R attrs id vectors = some (u, none)) :
    u.RowFrom A id [(vectors, attrs)] := by
  obtain ⟨-, hkern, hdoc, -⟩ := h.upsert_fresh hn hnone hu
  intro row hrow
  have hid : u.document id = some (freshDoc A t.kernels.is16 vectors attrs) := by
    rw [hdoc, Function.update_self]
  obtain ⟨row', hrow', hat⟩ := Option.bind_eq_some_iff.mp hid
  rw [hrow] at hrow'
  cases hrow'
  split at hat
  · cases hat
  · rw [Option.some.inj hat, GoTable.abs_kernels, hkern]
    exact ⟨fun col sv hsv => ⟨_, List.mem_singleton_self _, hsv⟩,
      fun k v hv => ⟨_, List.mem_singleton_self _, hv⟩⟩

lemma GoTable.clears_of_absent (h : t.index.lookup id = none) : t.abs.Clears id attrs := by
  intro row k hi
  rw [show t.abs.index id = none from h] at hi
  cases hi

lemma GoTable.document_of_absent (h : t.index.lookup id = none) : t.document id = none := by
  simp only [GoTable.document, Table.view, GoTable.abs_index, h, Option.bind_none]

end Erased

/-- Deleting a document and inserting it again erases it exactly if no attribute that
the upsert names with a nil value is in the row. -/
theorem deletion_erases_iff (A : Arith) (k : Kernels) (ops : List TableOp) (s s₁ s₂ : Tracked)
    (hs : (Tracked.new k).run A ops = some s) (id : String)
    (hd : s.step A (.delete id) = some s₁) (R : RangeOrder String) (vectors : GoMap (List F32))
    (attrs : GoMap (Option AttributeValue))
    (hu : s₁.step A (.upsert R id vectors attrs) = some s₂)
    (hok : s₁.table.Upsert A R attrs id vectors = some (s₂.table, none)) :
    Erased A k id vectors attrs s₂ ↔
      ∀ key, attrs.lookup key = some none → s.table.rowAttr id key = none := by
  obtain ⟨hinv, hkeep⟩ := (Tracked.new_inv A k).of_run hs
  obtain ⟨hinv₁, -⟩ := hinv.of_step hd
  obtain ⟨hinv₂, hkeep₂⟩ := hinv₁.of_step hu
  obtain ⟨b, hdel⟩ : ∃ b, s.table.Delete id = some (s₁.table, b) := by
    obtain ⟨u, hdel, -⟩ := hinv.wf.delete id
    simp only [Tracked.step, hdel, Option.some.injEq] at hd
    exact ⟨_, by rw [hdel, ← hd]⟩
  obtain ⟨-, hkern, hnone, hindex, hrows⟩ := hinv.wf.deleted hdel
  have hk : s₁.table.kernels = k := hkern.trans hkeep.kernels
  have hk₂ : s₂.table.kernels = k := hkeep₂.kernels.trans hk
  constructor
  · intro herased key hkey
    by_contra hsome
    obtain ⟨v, hv⟩ := Option.ne_none_iff_exists'.mp hsome
    rw [GoTable.rowAttr_abs, Option.bind_eq_some_iff] at hv
    obtain ⟨row, hrow, hv⟩ := hv
    -- the old value is in sight again
    obtain ⟨hdoc, hattr⟩ := hinv₁.wf.lengths.upsert_nil (hinv₁.wf.upsert_abs hok).2
      (hindex.trans hrow) hkey
    rw [hrows, hv] at hattr
    -- and a new table does not have it
    obtain ⟨u, hnew⟩ := hinv₁.wf.upsert_new hok
    have hnew : (Tracked.new k).table.Upsert A R attrs id vectors = some (u, none) := by
      rw [← hk]
      exact hnew
    obtain ⟨hwfu, -, hdocu, -⟩ := (newGoTable_wf k).upsert_fresh (GoTable.clears_of_absent rfl)
      (GoTable.document_of_absent rfl) hnew
    have hget := (herased.alike [] (Tracked.new k) R u rfl rfl hnew).get .stored .stored
    rw [hinv₂.wf.get, hwfu.get, Table.get_view, Table.get_view, View.Get, View.Get, hdoc,
      show u.abs.view.doc id = _ from congrFun hdocu id, Function.update_self] at hget
    have hattrs := congrArg (fun r => r.map fun r => (r.map fun r => r.Attributes key)) hget
    simp only [Option.map_some, render, hattr, freshDoc, hkey, Option.join_some,
      Option.some.injEq, reduceCtorEq] at hattrs
  · intro hclear
    have hn : s₁.table.abs.Clears id attrs := by
      intro row key hi _ hkey
      have hkept := hclear key hkey
      rw [GoTable.rowAttr_abs, ← hindex, hi, Option.bind_some] at hkept
      rw [hrows]
      exact hkept
    constructor
    · intro ops' s' R' u hs' habsent hu'
      obtain ⟨hinv', hkeep'⟩ := (Tracked.new_inv A k).of_run hs'
      exact hinv₁.wf.upserts_alike hn hnone hok hinv'.wf (GoTable.clears_of_absent habsent)
        (GoTable.document_of_absent habsent) hu' (hk.trans hkeep'.kernels.symm)
    · intro ops' w hw d hdoc
      obtain ⟨-, hkeep'⟩ := hinv₂.of_run hw
      have hfrom := (hinv₁.wf.upsert_rowFrom hn hnone hok).run hinv₂ hw
      rw [← hk₂, ← hkeep'.kernels]
      exact GoTable.document_from hfrom hdoc

lemma Tracked.step_upsert {A : Arith} {s s' : Tracked} {R : RangeOrder String} {id : String}
    {vectors : GoMap (List F32)} {attrs : GoMap (Option AttributeValue)}
    (h : s.step A (.upsert R id vectors attrs) = some s')
    (hok : (s.table.Upsert A R attrs id vectors).map Prod.snd = some none) :
    s.table.Upsert A R attrs id vectors = some (s'.table, none) := by
  obtain ⟨⟨t, e⟩, hx, rfl⟩ := Option.map_eq_some_iff.mp hok
  simp only [Tracked.step, hx, Option.some.injEq] at h
  rw [hx, ← h]

/-- A document with a vector and an attribute. -/
def paintedOps : List TableOp :=
  [.upsert .stored "a" (AList.singleton "v" [F32.one]) (AList.singleton "color" (some ⟨"red"⟩))]

def painted : Tracked :=
  ((Tracked.new sampleKernels).run sampleArith paintedOps).getD (Tracked.new sampleKernels)

def paintedDeleted : Tracked := (painted.step sampleArith (.delete "a")).getD painted

/-- The document comes back with an empty vector and a nil value for an attribute. -/
def paintedAgain (key : String) : Tracked :=
  (paintedDeleted.step sampleArith (.upsert .stored "a" (AList.singleton "v" [])
    (AList.singleton key none))).getD paintedDeleted

lemma painted_run : (Tracked.new sampleKernels).run sampleArith paintedOps = some painted := by
  obtain ⟨u, hu, -⟩ := (Tracked.new_inv sampleArith sampleKernels).run paintedOps
  rw [painted, hu]
  rfl

lemma paintedDeleted_step : painted.step sampleArith (.delete "a") = some paintedDeleted := by
  obtain ⟨hinv, -⟩ := (Tracked.new_inv sampleArith sampleKernels).of_run painted_run
  obtain ⟨u, hu, -⟩ := hinv.step (.delete "a")
  rw [paintedDeleted, hu]
  rfl

lemma paintedAgain_step (key : String) (hok : (paintedDeleted.table.Upsert sampleArith .stored
      (AList.singleton key none) "a" (AList.singleton "v" [])).map Prod.snd = some none) :
    paintedDeleted.step sampleArith (.upsert .stored "a" (AList.singleton "v" [])
      (AList.singleton key none)) = some (paintedAgain key) := by
  obtain ⟨⟨t, e⟩, hx, rfl⟩ := Option.map_eq_some_iff.mp hok
  simp only [paintedAgain, Tracked.step, hx, Option.getD_some]

theorem deletion_erases_iff_size : Erased sampleArith sampleKernels "a" (AList.singleton "v" [])
    (AList.singleton "size" none) (paintedAgain "size") := by
  have hok : (paintedDeleted.table.Upsert sampleArith .stored (AList.singleton "size" none) "a"
      (AList.singleton "v" [])).map Prod.snd = some none := by decide +kernel
  have hstep := paintedAgain_step "size" hok
  refine (deletion_erases_iff sampleArith sampleKernels paintedOps painted paintedDeleted
    (paintedAgain "size") painted_run "a" paintedDeleted_step .stored (AList.singleton "v" [])
    (AList.singleton "size" none) hstep (Tracked.step_upsert hstep hok)).mpr fun key hkey => ?_
  have hsize : key = "size" := by
    by_contra hne
    have hnone : (AList.singleton "size" none : GoMap (Option AttributeValue)).lookup key = none :=
      List.dlookup_cons_ne _ _ hne
    rw [hnone] at hkey
    cases hkey
  rw [hsize]
  decide +kernel

/-- The upsert after the deletion names the attribute with a nil value: the old value is
shown again, which a new table does not show. -/
theorem nil_attribute_survives_deletion :
    (Tracked.new sampleKernels).run sampleArith paintedOps = some painted ∧
    painted.step sampleArith (.delete "a") = some paintedDeleted ∧
    paintedDeleted.table.Upsert sampleArith .stored (AList.singleton "color" none) "a"
      (AList.singleton "v" []) = some ((paintedAgain "color").table, none) ∧
    (((paintedAgain "color").table.Get .stored "a").map fun r => r.map fun r =>
      r.Attributes "color") = some (some (some ⟨"red"⟩)) ∧
    ¬Erased sampleArith sampleKernels "a" (AList.singleton "v" []) (AList.singleton "color" none)
      (paintedAgain "color") := by
  have hok : (paintedDeleted.table.Upsert sampleArith .stored (AList.singleton "color" none) "a"
      (AList.singleton "v" [])).map Prod.snd = some none := by decide +kernel
  have hget : (((paintedAgain "color").table.Get .stored "a").map fun r => r.map fun r =>
      r.Attributes "color") = some (some (some ⟨"red"⟩)) := by decide +kernel
  refine ⟨painted_run, paintedDeleted_step, Tracked.step_upsert (paintedAgain_step "color" hok) hok,
    hget, fun herased => ?_⟩
  have hnew : ((Tracked.new sampleKernels).table.Upsert sampleArith .stored
      (AList.singleton "color" none) "a" (AList.singleton "v" [])).map (fun x =>
        (x.2, (x.1.Get .stored "a").map fun r => r.map fun r => r.Attributes "color")) =
      some (none, some (some none)) := by decide +kernel
  obtain ⟨⟨u, e⟩, hu, heq⟩ := Option.map_eq_some_iff.mp hnew
  obtain ⟨rfl, hfresh⟩ := Prod.mk.inj heq
  rw [(herased.alike [] (Tracked.new sampleKernels) .stored u rfl rfl hu).get .stored .stored,
    hfresh] at hget
  cases hget

end CloudyNeigh.Query
