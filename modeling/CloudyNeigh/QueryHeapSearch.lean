import CloudyNeigh.QueryHeapUpsert

/-!
# Queries on the objects of a table

`Get` and `Search` on the heap return what they return for the value of the table, as
far as they read from the objects of that table alone.
-/
namespace CloudyNeigh.Query.OnHeap
open Blocks Checked HeapLogic VectorFormat

variable {W : HeapLogic.View Elem}

section Columns
variable {a : ℕ} {v : ColHeader} {c : FlatVectorCol} {is16 : Bool} {n row : ℕ}

lemma colWith_data (h : colWith a v c W) : isSlice Kind.f32 v.data c.data W :=
  Assertion.left_of_mul (Assertion.right_of_mul h.2)

lemma colWith_data16 (h : colWith a v c W) : isSlice Kind.f16 v.data16 (c.data16.getD []) W :=
  Assertion.left_of_mul (Assertion.right_of_mul (Assertion.right_of_mul h.2))

lemma colWith_hasVec (h : colWith a v c W) : isSlice Kind.bool v.hasVec c.hasVec W :=
  Assertion.left_of_mul (Assertion.right_of_mul (Assertion.right_of_mul (Assertion.right_of_mul h.2)))

lemma colWith_invNorms (h : colWith a v c W) : isSlice Kind.f32 v.invNorms c.invNorms W :=
  Assertion.right_of_mul (Assertion.right_of_mul (Assertion.right_of_mul (Assertion.right_of_mul h.2)))

lemma index_getD {k : Kind} {s : Option Slice} {l : List (Elem k)} (h : isSlice k s l W) {i : ℕ}
    (hi : i < l.length) (d : Elem k) : (Prog.index k s i).result W = some (l.getD i d) := by
  apply isSlice_index h
  rw [List.getD_eq_getElem?_getD, List.getElem?_eq_getElem hi]
  rfl

/-- The two branches in which a row of a column is read. -/
lemma readRow {α : Type} (h : colWith a v c W) (hc : c.WF is16 n) (hr : row < n)
    (f : List F16 → α) (g : List F32 → α) :
    (if v.data16.isSome then
        Prog.subElems Kind.f16 v.data16 (row * v.dim) (row * v.dim + v.dim) >>= fun d => .ret (f d)
      else
        Prog.subElems Kind.f32 v.data (row * v.dim) (row * v.dim + v.dim) >>= fun d => .ret (g d) :
      Cmd α).result W = some (c.data16.elim (g (slice c.data (row * c.dim) c.dim))
        fun d => f (slice d (row * c.dim) c.dim)) := by
  have hb := row_bound c.dim hr
  rw [h.1.1, h.1.2]
  cases is16 with
  | true =>
    obtain ⟨d, hd, hlen⟩ := hc.data16 rfl
    have hs := colWith_data16 h
    rw [hd, Option.getD_some] at hs
    rw [hd, if_pos (by rfl), Prog.result_bind, isSlice_subElems hs (by rw [hlen]; exact hb)]
    rfl
  | false =>
    obtain ⟨hd, hlen⟩ := hc.data rfl
    rw [hd, if_neg (by simp), Prog.result_bind,
      isSlice_subElems (colWith_data h) (by rw [hlen]; exact hb)]
    rfl

/-- What a record has for a column. -/
def vectorOf (k : Kernels) (row : ℕ) (c : FlatVectorCol) : Option (List F32) :=
  if c.hasVec.getD row false then
    c.data16.elim (some (slice c.data (row * c.dim) c.dim))
      fun d => some (k.Decode16 (slice d (row * c.dim) c.dim))
  else none

lemma vectorAt_result (h : colWith a v c W) (hc : c.WF is16 n) (k : Kernels) (row : ℕ) :
    (vectorAt k row a).result W = some (vectorOf k row c) := by
  have hlen : len v.hasVec = c.hasVec.length := isSlice_length (colWith_hasVec h)
  rw [vectorAt, Prog.result_bind, colWith_load h, Option.bind_some]
  dsimp only
  rw [hlen]
  unfold vectorOf
  by_cases hr : row < c.hasVec.length
  · rw [if_pos hr, Prog.result_bind, index_getD (k := Kind.bool) (colWith_hasVec h) hr false,
      Option.bind_some]
    cases c.hasVec.getD row false with
    | false => rfl
    | true =>
      rw [if_pos rfl, if_pos rfl, readRow h hc (by rwa [hc.hasVec] at hr)]
  · rw [if_neg hr, List.getD_eq_getElem?_getD, List.getElem?_eq_none (by omega)]
    rfl

end Columns

section Records
variable {p : ℕ} {h : TableHeader} {t : Table} (O : RangeOrder String)

lemma attrAt_result {s : Option Slice} {l : List (Option AttributeValue)}
    (hs : isSlice Kind.attr s l W) (row : ℕ) : (attrAt row s).result W = some (l.getD row none) := by
  have hlen : len s = l.length := isSlice_length hs
  unfold attrAt
  rw [hlen]
  by_cases hr : row < l.length
  · rw [if_pos hr]
    exact index_getD (k := Kind.attr) hs hr none
  · rw [if_neg hr, List.getD_eq_getElem?_getD, List.getElem?_eq_none (by omega)]
    rfl

/-- A loop that collects one value for each key. -/
lemma collect_entries {V α : Type} {m : GoMap V} {n : ℕ} {g : String → α} (body : V → Cmd α)
    (hb : ∀ k v, m.lookup k = some v → (body v).result W = some (g k)) :
    ∃ l : List (Σ _ : String, α), (Prog.collect (O.range n m).entries fun e => do
        let x ← body e.2
        .ret (⟨e.1, x⟩ : Σ _ : String, α)).result W = some l ∧
      ∀ k, l.dlookup k = (m.lookup k).map fun _ => g k := by
  refine ⟨(O.range n m).entries.map (.map id fun k _ => g k), ?_, fun k => ?_⟩
  · apply Prog.result_collect
    rw [List.forall₂_map_right_iff, List.forall₂_same]
    intro e he
    rw [Prog.result_bind, hb e.1 e.2 (mem_entries he)]
    rfl
  · rw [List.dlookup_map₂, ← O.lookup n m]
    rfl

lemma recordAt_result (hwf : t.WF) (hW : tableWith p h t W) (row : ℕ) (id : String) :
    (recordAt O h row id).result W = some (t.recordAt row id) := by
  obtain ⟨m, hm, ho⟩ := mapAt_read (vectorMap_reads h.vectors) (tableWith_vectors hW)
  obtain ⟨ms, hms, hos⟩ := mapAt_read (attrMap_reads h.attrs) (tableWith_attrs hW)
  obtain ⟨vs, hvs, hv⟩ := collect_entries (W := W) O (m := m) (n := 13)
    (g := fun col => (t.vectors col).bind (vectorOf t.kernels row))
    (fun a => vectorAt h.kernels row a) fun col a ha => by
      obtain ⟨c, hc, v, hv⟩ := owns_get ho ha
      rw [hc, Option.bind_some, hW.1.2]
      exact vectorAt_result hv (hwf.vectors col c hc) t.kernels row
  obtain ⟨as, has, hlook⟩ := collect_entries (W := W) O (m := ms) (n := 14)
    (g := fun k => (t.attrs k).bind fun l => l.getD row none) (fun s => attrAt row s)
    fun k s hs => by
      obtain ⟨l, hl, hs⟩ := owns_get hos hs
      rw [hl, Option.bind_some]
      exact attrAt_result hs row
  rw [recordAt, Prog.result_bind, hm, Option.bind_some, Prog.result_bind, hvs, Option.bind_some,
    Prog.result_bind, hms, Option.bind_some, Prog.result_bind, has, Option.bind_some, Prog.result_ret]
  congr 1
  ext1
  · rfl
  · funext col
    simp only [hv, Table.recordAt]
    cases hl : m.lookup col with
    | none =>
      rw [lookup_none (owns_lookup ho) hl]
      rfl
    | some a =>
      obtain ⟨c, hc, -⟩ := owns_get ho hl
      rw [hc, Option.map_some, Option.join_some, Option.bind_some]
      unfold vectorOf
      dsimp only
      cases c.data16 <;> rfl
  · funext k
    simp only [hlook, Table.recordAt]
    cases hl : ms.lookup k with
    | none =>
      rw [lookup_none (owns_lookup hos) hl]
      rfl
    | some s =>
      obtain ⟨l, hc, -⟩ := owns_get hos hl
      rw [hc, Option.map_some, Option.join_some, Option.bind_some]

theorem get_result (hwf : t.WF) (hW : tableAt p t W) (id : String) :
    (Get O p id).result W = some (t.Get id) := by
  obtain ⟨h, hW⟩ := hW
  obtain ⟨m, hm, hi⟩ := indexAt_read (tableWith_index hW)
  rw [Get, Prog.result_bind, tableWith_load hW, Option.bind_some, Prog.result_bind, hm,
    Option.bind_some, hi]
  unfold Table.Get
  cases hrow : t.index id with
  | none => rfl
  | some row =>
    have hlt : row < t.tombstones.length := by
      rw [hwf.tombstones]
      exact hwf.row_lt hrow
    have hlen : len h.tombstones = t.tombstones.length := isSlice_length (tableWith_tombstones hW)
    dsimp only
    rw [hlen, if_pos hlt, Prog.result_bind, tombstone_result hlt hW, Option.bind_some]
    cases t.isTombstoned row with
    | true => rfl
    | false =>
      simp only [Bool.false_eq_true, if_false, Prog.result_bind, recordAt_result O hwf hW]
      rfl

end Records

section Scan
variable {p : ℕ} {h : TableHeader} {t : Table} {a : ℕ} {v : ColHeader} {c : FlatVectorCol} {row : ℕ}

/-- The filter with its column, as the scan has it. -/
def FilterAt (t : Table) (W : HeapLogic.View Elem) (filter : Option EqualityFilter)
    (f : Option (EqualityFilter × Option Slice)) : Prop :=
  f.map Prod.fst = filter ∧ ∀ e s, f = some (e, s) →
    ∃ l, t.attrs e.Field = some l ∧ isSlice Kind.attr s l W

lemma filterValue_result {filter : Option EqualityFilter} {f : Option (EqualityFilter × Option Slice)}
    (hf : FilterAt t W filter f) (row : ℕ) : (filterValue f row).result W =
      some (filter.bind fun e => (t.attrs e.Field).bind fun col => col.getD row none) := by
  obtain ⟨rfl, hs⟩ := hf
  cases f with
  | none => rfl
  | some es =>
    obtain ⟨e, s⟩ := es
    obtain ⟨l, hl, hsl⟩ := hs e s rfl
    simp only [filterValue, Option.map_some, Option.bind_some, hl]
    exact attrAt_result hsl row

lemma cellAt_result (hv : colWith a v c W) {is16 : Bool} {n : ℕ} (hc : c.WF is16 n) (hr : row < n) :
    (cellAt v row).result W = some (c.cell row) := by
  have hread := readRow hv hc hr Cell.f16 Cell.f32
  unfold FlatVectorCol.cell
  rw [cellAt]
  refine hread.trans ?_
  cases c.data16 <;> rfl

lemma rowScore_result (hwf : t.WF) (hW : tableWith p h t W) (hv : colWith a v c W) {col : String}
    (hc : t.vectors col = some c) (hr : row < t.numRows) (A : Arith) (pl : Plan) (query : List F32)
    {filter : Option EqualityFilter} {f : Option (EqualityFilter × Option Slice)}
    (hf : FilterAt t W filter f) :
    (rowScore A h v pl query f row).result W = some (t.rowScore A c pl query filter row) := by
  have hcw := hwf.vectors col c hc
  have hhas := index_getD (k := Kind.bool) (colWith_hasVec hv) (by rwa [hcw.hasVec]) false
  have hinv := index_getD (k := Kind.f32) (colWith_invNorms hv) (by rwa [hcw.invNorms]) F32.zero
  rw [rowScore, Prog.result_bind, tombstone_result (by rwa [hwf.tombstones]) hW, Option.bind_some,
    Table.rowScore]
  cases t.isTombstoned row with
  | true => rfl
  | false =>
    simp only [Bool.false_eq_true, if_false, Bool.false_or, Prog.result_bind, hhas, Option.bind_some]
    cases c.hasVec.getD row false with
    | false => rfl
    | true =>
      simp only [Bool.not_true, Bool.false_eq_true, if_false, Prog.result_bind,
        filterValue_result hf, Option.bind_some, hf.1]
      split
      · rw [hW.1.2]
        cases hm : pl.metric with
        | cosine =>
          simp only [Prog.result_bind, hinv, Option.bind_some, score, hm]
          cases (c.invNorms.getD row F32.zero).eq F32.zero with
          | true => rfl
          | false =>
            simp only [Bool.false_eq_true, if_false, Prog.result_bind, cellAt_result hv hcw hr]
            rfl
        | _ =>
          simp only [Prog.result_bind, cellAt_result hv hcw hr, score, hm]
          rfl
      · rfl

lemma scanRow_result (hwf : t.WF) (hW : tableWith p h t W) (hv : colWith a v c W) {col : String}
    (hc : t.vectors col = some c) (hr : row < t.numRows) (A : Arith) (pl : Plan) (query : List F32)
    {topK : ℕ} (hk : 0 < topK) {filter : Option EqualityFilter}
    {f : Option (EqualityFilter × Option Slice)} (hf : FilterAt t W filter f) (hits : List SearchHit) :
    (scanRow A h v pl query topK f hits row).result W =
      some (t.scanRow A c pl query topK filter hits row) := by
  rw [scanRow, Prog.result_bind, rowScore_result hwf hW hv hc hr A pl query hf, Option.bind_some,
    Table.scanRow]
  cases t.rowScore A c pl query filter row with
  | none => rfl
  | some sc =>
    simp only [Prog.result_bind, index_getD (k := Kind.string) (tableWith_docIDs hW)
      (by rwa [hwf.docIDs]) "", Option.bind_some, offerAt_of_pos pl hk]
    rfl

/-- A filter on a field without a column ends the search. -/
lemma filterColumn_result (hW : tableWith p h t W) (filter : Option EqualityFilter) :
    ∃ r, (filterColumn h filter).result W = some r ∧
      ((r = none ∧ (filter.any fun f => (t.attrs f.Field).isNone) = true) ∨
        ∃ f, r = some f ∧ FilterAt t W filter f ∧
          (filter.any fun f => (t.attrs f.Field).isNone) = false) := by
  cases filter with
  | none => exact ⟨some none, rfl, Or.inr ⟨none, rfl, ⟨rfl, fun _ _ he => nomatch he⟩, rfl⟩⟩
  | some f =>
    obtain ⟨m, hm, ho⟩ := mapAt_read (attrMap_reads h.attrs) (tableWith_attrs hW)
    refine ⟨(m.lookup f.Field).map fun s => some (f, s), by
      rw [filterColumn, Prog.result_bind, hm]
      rfl, ?_⟩
    cases hl : m.lookup f.Field with
    | none => exact Or.inl ⟨rfl, by simp [lookup_none (owns_lookup ho) hl]⟩
    | some s =>
      obtain ⟨l, hc, hs⟩ := owns_get ho hl
      refine Or.inr ⟨some (f, s), rfl, ⟨rfl, ?_⟩, by simp [hc]⟩
      intro e s' he
      cases he
      exact ⟨l, hc, hs⟩

theorem search_result (hwf : t.WF) (hW : tableAt p t W) (A : Arith) (O : RangeOrder String)
    (col : String) (query : List F32) (topK : ℤ) (metric : DistanceMetric)
    (filter : Option EqualityFilter) :
    (Search A O p col query topK metric filter).result W =
      some (t.Search A col query topK metric filter) := by
  obtain ⟨h, hW⟩ := hW
  unfold Search Table.Search
  split
  · rfl
  · rename_i hk
    have hpos : 0 < topK.toNat := by omega
    obtain ⟨m, hm, ho⟩ := mapAt_read (vectorMap_reads h.vectors) (tableWith_vectors hW)
    rw [Prog.result_bind, tableWith_load hW, Option.bind_some, Prog.result_bind, hm, Option.bind_some]
    cases hl : m.lookup col with
    | none =>
      rw [lookup_none (owns_lookup ho) hl]
      rfl
    | some a =>
      obtain ⟨c, hc, v, hv⟩ := owns_get ho hl
      rw [hc]
      dsimp only
      rw [hW.1.1]
      by_cases hrows : t.numRows = 0
      · rw [if_pos hrows, if_pos hrows]
        rfl
      rw [if_neg hrows, if_neg hrows, Prog.result_bind, colWith_load hv, Option.bind_some, hv.1.1]
      by_cases hdim : query.length ≠ c.dim
      · rw [if_pos hdim, if_pos hdim]
        rfl
      rw [if_neg hdim, if_neg hdim]
      cases plan A query metric with
      | error e => rfl
      | ok pl =>
        obtain ⟨r, hr, ⟨rfl, hany⟩ | ⟨f, rfl, hf, hany⟩⟩ := filterColumn_result hW filter
        · simp only [Prog.result_bind, hr, Option.bind_some, hany, if_true]
          rfl
        · have hscan := Prog.result_fold (V := W) (l := List.range t.numRows)
            (f := scanRow A h v pl query topK.toNat f)
            (g := t.scanRow A c pl query topK.toNat filter)
            (fun row hrow hits => scanRow_result hwf hW hv hc (List.mem_range.mp hrow) A pl query
              hpos hf hits) []
          have hrec (hits : List SearchHit) : (Prog.collect hits fun hit => do
              let record ← recordAt O h hit.row hit.id
              .ret (⟨record, hit.score⟩ : ScoredResult)).result W =
              some (hits.map fun hit => ⟨t.recordAt hit.row hit.id, hit.score⟩) := by
            apply Prog.result_collect
            rw [List.forall₂_map_right_iff, List.forall₂_same]
            intro hit _
            rw [Prog.result_bind, recordAt_result O hwf hW]
            rfl
          simp only [Prog.result_bind, hr, Option.bind_some, hscan, hrec, hany, Bool.false_eq_true,
            if_false]
          rfl

end Scan

end CloudyNeigh.Query.OnHeap
