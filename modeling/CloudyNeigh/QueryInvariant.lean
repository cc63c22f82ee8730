import CloudyNeigh.QueryGoRefine
import Mathlib.Data.Set.Function

/-!
# The representation invariant over whole histories

A table runs through upserts, deletes and clones; beside it stands the last vector
that an accepted upsert wrote to each row of each column. No call of a history
panics, and the lengths, the index, the dimensions and the inverse norms hold at
every point of it.
-/
namespace CloudyNeigh.Query
open Blocks Checked VectorFormat

section Upsert
variable {A : Arith} {t u : Table} {id : String} {row : ℕ} {vectors : GoMap (List F32)}
  {staged : String → Option StagedVector} {attrs : GoMap (Option AttributeValue)}

lemma insertRow_dims (t : Table) (id : String) (staged : String → Option StagedVector)
    (attrs : GoMap (Option AttributeValue)) : (t.insertRow id staged attrs).dims = t.dims := by
  funext col
  simp only [Table.dims, Table.insertRow]
  cases t.vectors col <;> rfl

/-- Reviving a row only takes vectors away. -/
lemma Table.WF.reviveRow_vec (h : t.WF) (hr : row < t.numRows) {r : ℕ} {col : String}
    {sv : StoredVec} (hs : ((t.reviveRow row staged attrs).docAt r).1 col = some sv) :
    (t.docAt r).1 col = some sv := by
  by_cases hne : r = row
  · subst hne
    unfold Table.reviveRow at hs
    split at hs
    · simp only [Table.docAt] at hs ⊢
      cases hc : t.vectors col with
      | none =>
        rw [hc] at hs
        cases hs
      | some c =>
        rw [hc] at hs
        simp only [Option.map_some, Option.bind_some] at hs ⊢
        split at hs
        · exact hs
        · rw [(h.vectors col c hc).clearRow_at hr, if_pos rfl] at hs
          cases hs
    · exact hs
  · rwa [h.reviveRow_docAt_ne hr hne] at hs

/-- What an accepted upsert may leave in the vector columns. -/
structure Wrote (A : Arith) (t u : Table) (id : String) (vectors : GoMap (List F32)) : Prop where
  kernels : u.kernels = t.kernels
  dims : ∀ col d, t.dims col = some d → u.dims col = some d
  vec : ∀ r col sv, (u.docAt r).1 col = some sv →
    (∃ vec, u.index id = some r ∧ vectors.lookup col = some vec ∧ vec ≠ [] ∧
      sv.invNorm = vectorInvNorm A vec) ∨
    ((t.docAt r).1 col = some sv ∧
      ∀ vec, u.index id = some r → vectors.lookup col = some vec → vec = [])

lemma stageVector_invNorm {is16 : Bool} {vec : List F32} {sv : StagedVector}
    (h : stageVector A is16 vec = .ok sv) : sv.invNorm = vectorInvNorm A vec := by
  unfold stageVector at h
  split at h
  · split at h
    · cases h
      rfl
    · cases h
  · cases h
    rfl

/-- A column of the written row holds what was staged for it, or what it held before. -/
lemma stored_or {is16 : Bool} {dims : String → Option ℕ}
    (hst : stage A is16 dims vectors.entries (fun _ => none) = .ok staged) (col : String)
    (old : Option StoredVec) (sv : StoredVec)
    (hsv : ((staged col).map fun s => s.stored is16).or old = some sv) :
    (∃ vec, vectors.lookup col = some vec ∧ vec ≠ [] ∧ sv.invNorm = vectorInvNorm A vec) ∨
      (old = some sv ∧ ∀ vec, vectors.lookup col = some vec → vec = []) := by
  cases hs : staged col with
  | some s =>
    obtain ⟨vec, hvec, hne, hok⟩ := (stage_lookup hst col s).mp hs
    rw [hs] at hsv
    cases hsv
    exact Or.inl ⟨vec, hvec, hne, stageVector_invNorm hok⟩
  | none =>
    rw [hs] at hsv
    refine Or.inr ⟨hsv, fun vec hvec => ?_⟩
    by_contra hne
    obtain ⟨-, s, -, hstaged⟩ := stage_supplied hst hvec hne
    rw [hs] at hstaged
    cases hstaged

lemma addColumns_dims {col : String} {d : ℕ} (hd : t.dims col = some d) :
    (t.addColumns staged attrs).dims col = some d := by
  obtain ⟨c, hc, rfl⟩ := Option.map_eq_some_iff.mp hd
  simp [Table.dims, Table.addColumns, hc]

section Written
variable {w : Table} {dims : String → Option ℕ} (hwf : w.WF) (hrd : w.Ready staged attrs)
  (hst : stage A w.kernels.is16 dims vectors.entries (fun _ => none) = .ok staged)

include hwf hrd hst in
lemma overwrite_wrote (hi : w.index id = some row) :
    Wrote A w ((w.reviveRow row staged attrs).overwriteRow row staged attrs) id vectors := by
  have hr := hwf.row_lt hi
  refine ⟨by simp [Table.overwriteRow], ?_, ?_⟩
  · intro col d hd
    rwa [overwriteRow_dims, reviveRow_dims]
  · intro r col sv hsv
    have hindex : ((w.reviveRow row staged attrs).overwriteRow row staged attrs).index id =
        some r ↔ row = r := by
      simp [Table.overwriteRow, hi]
    rw [(hwf.reviveRow row).overwriteRow_vec (by simpa using hr) (hrd.reviveRow row)] at hsv
    by_cases hrr : r = row
    · subst hrr
      rw [if_pos rfl, reviveRow_kernels] at hsv
      rcases stored_or hst col _ sv hsv with ⟨vec, hvec⟩ | ⟨hold, hno⟩
      · exact Or.inl ⟨vec, hindex.mpr rfl, hvec⟩
      · exact Or.inr ⟨hwf.reviveRow_vec hr hold, fun vec _ hvec => hno vec hvec⟩
    · rw [if_neg hrr, hwf.reviveRow_docAt_ne hr hrr] at hsv
      exact Or.inr ⟨hsv, fun vec hin => absurd (hindex.mp hin).symm hrr⟩

include hwf hrd hst in
lemma insert_wrote : Wrote A w (w.insertRow id staged attrs) id vectors := by
  refine ⟨rfl, ?_, ?_⟩
  · intro col d hd
    rwa [insertRow_dims]
  · intro r col sv hsv
    have hindex : (w.insertRow id staged attrs).index id = some r ↔ w.numRows = r := by
      simp [Table.insertRow]
    rw [hwf.insertRow_docAt hrd] at hsv
    by_cases hrr : r = w.numRows
    · rw [if_pos hrr] at hsv
      rcases stored_or hst col none sv hsv with ⟨vec, hvec⟩ | ⟨hold, -⟩
      · exact Or.inl ⟨vec, hindex.mpr hrr.symm, hvec⟩
      · cases hold
    · rw [if_neg hrr] at hsv
      exact Or.inr ⟨hsv, fun vec hin => absurd (hindex.mp hin).symm hrr⟩

end Written

/-- New columns hold no vector yet. -/
lemma Wrote.of_addColumns (h : Wrote A (t.addColumns staged attrs) u id vectors) :
    Wrote A t u id vectors := by
  refine ⟨h.kernels, fun col d hd => h.dims col d (addColumns_dims hd), fun r col sv hsv => ?_⟩
  have hvec := h.vec r col sv hsv
  rwa [addColumns_docAt] at hvec

lemma Table.WF.upsert_wrote (h : t.WF) (hu : t.Upsert A id vectors attrs = .ok u) :
    Wrote A t u id vectors := by
  obtain ⟨-, staged, hst, hwf, hrd, ⟨row, hi, rfl⟩ | ⟨-, rfl⟩⟩ := h.upsert_cases hu
  · exact (overwrite_wrote hwf hrd hst hi).of_addColumns
  · exact (insert_wrote hwf hrd hst).of_addColumns

end Upsert

inductive TableOp
  | upsert (R : RangeOrder String) (id : String) (vectors : GoMap (List F32))
    (attrs : GoMap (Option AttributeValue))
  | delete (id : String)
  | clone (R : RangeOrder String)

/-- A table and the last vector written to each row of each column. -/
structure Tracked where
  table : GoTable
  written : ℕ → String → Option (List F32)

/-- The rows of `u` that an accepted upsert of `id` wrote its non-empty vectors to. -/
def noteWrites (u : GoTable) (id : String) (vectors : GoMap (List F32))
    (written : ℕ → String → Option (List F32)) (row : ℕ) (col : String) : Option (List F32) :=
  if u.index.lookup id = some row then
    match vectors.lookup col with
    | some vec => if vec = [] then written row col else some vec
    | none => written row col
  else written row col

def Tracked.new (k : Kernels) : Tracked := ⟨GoTable.NewTable k, fun _ _ => none⟩

/-- One call; `none` is a panic. -/
def Tracked.step (A : Arith) (s : Tracked) : TableOp → Option Tracked
  | .upsert R id vectors attrs =>
    match s.table.Upsert A R attrs id vectors with
    | none => none
    | some (t, none) => some ⟨t, noteWrites t id vectors s.written⟩
    | some (t, some _) => some ⟨t, s.written⟩
  | .delete id =>
    match s.table.Delete id with
    | none => none
    | some (t, _) => some ⟨t, s.written⟩
  | .clone R => some ⟨s.table.Clone R, s.written⟩

def Tracked.run (A : Arith) : List TableOp → Tracked → Option Tracked
  | [], s => some s
  | op :: ops, s =>
    match s.step A op with
    | none => none
    | some s => Tracked.run A ops s

/-- No index or slice expression of a call on the table is out of range. -/
structure GoTable.NoPanic (A : Arith) (t : GoTable) : Prop where
  upsert : ∀ R attrs id vectors, (t.Upsert A R attrs id vectors).isSome
  delete : ∀ id, (t.Delete id).isSome
  recordAt : ∀ R row id, (t.recordAt R row id).isSome
  get : ∀ R id, (t.Get R id).isSome
  search : ∀ R col query topK metric filter,
    (t.Search A R col query topK metric filter).isSome

/-- A vector column over `numRows` rows: its kernels' slice is the one that is not nil. -/
structure GoCol.Shape (c : GoCol) (is16 : Bool) (numRows : ℕ) : Prop where
  dim : 0 < c.dim
  hasVec : c.hasVec.length = numRows
  invNorms : c.invNorms.length = numRows
  data : is16 = false →
    c.data16 = none ∧ ∃ d, c.data = some d ∧ d.length = numRows * c.dim
  data16 : is16 = true →
    c.data = none ∧ ∃ d, c.data16 = some d ∧ d.length = numRows * c.dim

structure Tracked.Invariant (A : Arith) (s : Tracked) : Prop where
  docIDs : s.table.docIDs.length = s.table.numRows
  tombstones : s.table.tombstones.length = s.table.numRows
  /-- The index holds the row of each id, and ids and rows correspond one to one. -/
  index : ∀ id row, s.table.index.lookup id = some row ↔ s.table.docIDs[row]? = some id
  bijection : Set.BijOn (fun id => s.table.index.lookup id) {id | id ∈ s.table.docIDs}
    {r | ∃ row < s.table.numRows, r = some row}
  vectors : ∀ col c, s.table.vectors.lookup col = some c →
    c.Shape s.table.kernels.is16 s.table.numRows
  invNorms : ∀ col c row, s.table.vectors.lookup col = some c → c.hasVec[row]? = some true →
    ∃ vec, s.written row col = some vec ∧ c.invNorms[row]? = some (vectorInvNorm A vec)
  attrs : ∀ k c, s.table.attrs.lookup k = some c → c.length = s.table.numRows

section Runs
variable {A : Arith} {s : Tracked}

structure Tracked.Inv (A : Arith) (s : Tracked) : Prop where
  wf : s.table.WF
  norm : ∀ row col sv, (s.table.abs.docAt row).1 col = some sv →
    ∃ vec, s.written row col = some vec ∧ sv.invNorm = vectorInvNorm A vec

/-- What a call keeps of the table before it. -/
structure Keeps (t u : GoTable) : Prop where
  kernels : u.kernels = t.kernels
  dims : ∀ col d, t.dims col = some d → u.dims col = some d

lemma Keeps.refl (t : GoTable) : Keeps t t := ⟨rfl, fun _ _ hd => hd⟩

lemma Keeps.trans {t u w : GoTable} (h : Keeps t u) (g : Keeps u w) : Keeps t w :=
  ⟨g.kernels.trans h.kernels, fun col d hd => g.dims col d (h.dims col d hd)⟩

/-- The same on the columns. -/
lemma Keeps.of_abs {t u : GoTable} (hk : u.abs.kernels = t.abs.kernels)
    (hd : ∀ col d, t.abs.dims col = some d → u.abs.dims col = some d) : Keeps t u := by
  refine ⟨hk, ?_⟩
  simp only [GoTable.dims_abs]
  exact hd

lemma Tracked.new_inv (A : Arith) (k : Kernels) : (Tracked.new k).Inv A :=
  ⟨newGoTable_wf k, fun _ _ _ h => by cases h⟩

lemma noteWrites_of_wrote {t : Table} {u : GoTable} {id : String} {vectors : GoMap (List F32)}
    {written : ℕ → String → Option (List F32)} (hw : Wrote A t u.abs id vectors)
    (hold : ∀ row col sv, (t.docAt row).1 col = some sv →
      ∃ vec, written row col = some vec ∧ sv.invNorm = vectorInvNorm A vec)
    {row : ℕ} {col : String} {sv : StoredVec} (hsv : (u.abs.docAt row).1 col = some sv) :
    ∃ vec, noteWrites u id vectors written row col = some vec ∧
      sv.invNorm = vectorInvNorm A vec := by
  unfold noteWrites
  rcases hw.vec row col sv hsv with ⟨vec, hi, hvec, hne, hnorm⟩ | ⟨hprev, hno⟩
  · rw [if_pos (show u.index.lookup id = some row from hi), hvec]
    exact ⟨vec, if_neg hne, hnorm⟩
  · obtain ⟨vec, hwr, hnorm⟩ := hold row col sv hprev
    refine ⟨vec, ?_, hnorm⟩
    split
    · rename_i hi
      cases hl : vectors.lookup col with
      | none => exact hwr
      | some w => simp only [hno w hi hl, if_true, hwr]
    · exact hwr

/-- `Delete` only sets a tombstone. -/
lemma Table.delete_rows (t : Table) (id : String) : (t.Delete id).1.docAt = t.docAt ∧
    (t.Delete id).1.index = t.index ∧ (t.Delete id).1.dims = t.dims ∧
    (t.Delete id).1.kernels = t.kernels := by
  unfold Table.Delete
  split
  · exact ⟨rfl, rfl, rfl, rfl⟩
  · split <;> exact ⟨rfl, rfl, rfl, rfl⟩

lemma Tracked.Inv.step (h : s.Inv A) (op : TableOp) :
    ∃ u, s.step A op = some u ∧ u.Inv A ∧ Keeps s.table u.table := by
  cases op with
  | upsert R id vectors attrs =>
    have hup := h.wf.upsert R A attrs id vectors
    generalize hx : s.table.Upsert A R attrs id vectors = x at hup
    generalize hy : s.table.abs.Upsert A id (R.range 0 vectors) attrs = y at hup
    cases hup with
    | error e => exact ⟨s, by simp only [Tracked.step, hx], h, Keeps.refl _⟩
    | ok hwf =>
      rename_i u
      have hw := h.wf.lengths.upsert_wrote hy
      have hw' : Wrote A s.table.abs u.abs id vectors :=
        ⟨hw.kernels, hw.dims, fun r col sv hsv => by simpa only [R.lookup] using hw.vec r col sv hsv⟩
      refine ⟨⟨u, noteWrites u id vectors s.written⟩, by simp only [Tracked.step, hx],
        ⟨hwf, fun row col sv hsv => noteWrites_of_wrote hw' h.norm hsv⟩, ?_⟩
      exact Keeps.of_abs hw.kernels hw.dims
  | delete id =>
    obtain ⟨u, hu, habs, hwf⟩ := h.wf.delete id
    obtain ⟨hdoc, -, hdims, hkern⟩ := s.table.abs.delete_rows id
    refine ⟨⟨u, s.written⟩, by simp only [Tracked.step, hu], ⟨hwf, ?_⟩, Keeps.of_abs ?_ ?_⟩
    · rw [habs, hdoc]
      exact h.norm
    · rw [habs, hkern]
    · rw [habs, hdims]
      exact fun _ _ hd => hd
  | clone R =>
    refine ⟨_, rfl, ⟨h.wf.clone R, ?_⟩, Keeps.of_abs rfl ?_⟩
    · rw [GoTable.clone_abs]
      exact h.norm
    · rw [GoTable.clone_abs]
      exact fun _ _ hd => hd

lemma Tracked.Inv.run (h : s.Inv A) (ops : List TableOp) :
    ∃ u, s.run A ops = some u ∧ u.Inv A ∧ Keeps s.table u.table := by
  induction ops generalizing s with
  | nil => exact ⟨s, rfl, h, Keeps.refl _⟩
  | cons op ops ih =>
    obtain ⟨s₁, h₁, hinv, hk₁⟩ := h.step op
    obtain ⟨u, hu, hinv', hk⟩ := ih hinv
    refine ⟨u, ?_, hinv', hk₁.trans hk⟩
    rw [Tracked.run, h₁]
    exact hu

lemma Tracked.Inv.of_step {op : TableOp} {u : Tracked} (h : s.Inv A) (hs : s.step A op = some u) :
    u.Inv A ∧ Keeps s.table u.table := by
  obtain ⟨u', hu', hinv⟩ := h.step op
  rw [hs] at hu'
  cases hu'
  exact hinv

lemma Tracked.Inv.of_run {ops : List TableOp} {u : Tracked} (h : s.Inv A)
    (hs : s.run A ops = some u) : u.Inv A ∧ Keeps s.table u.table := by
  obtain ⟨u', hu', hinv⟩ := h.run ops
  rw [hs] at hu'
  cases hu'
  exact hinv

lemma GoTable.WF.noPanic {t : GoTable} (h : t.WF) (A : Arith) : t.NoPanic A where
  upsert R attrs id vectors := by
    have hup := h.upsert R A attrs id vectors
    generalize t.Upsert A R attrs id vectors = x at hup
    generalize t.abs.Upsert A id (R.range 0 vectors) attrs = y at hup
    cases hup <;> rfl
  delete id := by
    obtain ⟨u, hu, -⟩ := h.delete id
    rw [hu]
    rfl
  recordAt R row id := by
    rw [h.recordAt]
    rfl
  get R id := by
    rw [h.get]
    rfl
  search R col query topK metric filter := by
    rw [h.search]
    rfl

lemma GoCol.WF.shape {c : GoCol} {is16 : Bool} {n : ℕ} (h : c.WF is16 n) : c.Shape is16 n where
  dim := h.lengths.dim_pos
  hasVec := h.lengths.hasVec
  invNorms := h.lengths.invNorms
  data := by
    rintro rfl
    obtain ⟨hnone, hlen⟩ := h.lengths.data rfl
    obtain ⟨d, hd⟩ := Option.isSome_iff_exists.mp h.data
    refine ⟨hnone, d, hd, ?_⟩
    simpa [GoCol.abs, hd] using hlen
  data16 := by
    rintro rfl
    refine ⟨?_, h.lengths.data16 rfl⟩
    have hnone := h.data
    cases hd : c.data with
    | none => rfl
    | some d => simp [hd] at hnone

lemma GoTable.WF.bijection {t : GoTable} (h : t.WF) :
    Set.BijOn (fun id => t.index.lookup id) {id | id ∈ t.docIDs}
      {r | ∃ row < t.numRows, r = some row} := by
  have hindex : ∀ id row, t.index.lookup id = some row ↔ t.docIDs[row]? = some id := h.lengths.index
  refine ⟨?_, ?_, ?_⟩
  · intro id hid
    obtain ⟨row, hrow⟩ := h.lengths.mem_docIDs.mp hid
    exact ⟨row, h.lengths.row_lt hrow, hrow⟩
  · intro id hid id' _ heq
    obtain ⟨row, hrow⟩ := h.lengths.mem_docIDs.mp hid
    exact (h.lengths.index_inj hrow (heq.symm.trans hrow)).symm
  · rintro _ ⟨row, hrow, rfl⟩
    have hlt : row < t.docIDs.length := by
      rwa [show t.docIDs.length = t.numRows from h.lengths.docIDs]
    exact ⟨t.docIDs[row], List.getElem_mem hlt,
      (hindex _ _).mpr (List.getElem?_eq_getElem hlt)⟩

lemma Tracked.Inv.invariant (h : s.Inv A) : s.Invariant A where
  docIDs := h.wf.lengths.docIDs
  tombstones := h.wf.lengths.tombstones
  index := h.wf.lengths.index
  bijection := h.wf.bijection
  vectors col c hc := (h.wf.col hc).shape
  invNorms := by
    intro col c row hc hv
    have hlt : row < c.invNorms.length := by
      rw [(h.wf.col hc).shape.invNorms, ← (h.wf.col hc).shape.hasVec]
      exact (List.getElem?_eq_some_iff.mp hv).1
    have hat : (s.table.abs.docAt row).1 col =
        some ⟨c.abs.cell row, c.invNorms.getD row F32.zero⟩ := by
      simp [Table.docAt, hc, FlatVectorCol.at, GoCol.abs, List.getD_eq_getElem?_getD, hv]
    obtain ⟨vec, hw, hnorm⟩ := h.norm row col _ hat
    refine ⟨vec, hw, ?_⟩
    rw [← hnorm]
    exact load_getD hlt F32.zero
  attrs := h.wf.lengths.attrs

end Runs

/-- At every point of every history the table keeps its representation, no call on
it panics, and the columns that exist keep their dimensions from then on. -/
theorem table_representation_invariant (A : Arith) (k : Kernels) (ops more : List TableOp) :
    ∃ s u, (Tracked.new k).run A ops = some s ∧ s.run A more = some u ∧
      s.Invariant A ∧ s.table.NoPanic A ∧
      ∀ col d, s.table.dims col = some d → u.table.dims col = some d := by
  obtain ⟨s, hs, hinv, -⟩ := (Tracked.new_inv A k).run ops
  obtain ⟨u, hu, -, hkeep⟩ := hinv.run more
  exact ⟨s, u, hs, hu, hinv.invariant, hinv.wf.noPanic A, hkeep.dims⟩

end CloudyNeigh.Query
