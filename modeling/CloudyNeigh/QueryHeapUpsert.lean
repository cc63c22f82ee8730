import CloudyNeigh.QueryGoReplay
import CloudyNeigh.QueryHeapColumns

/-!
# The operations on the objects of a table

`Clone`, `Upsert` and `Delete` on the heap do to the table behind a pointer what they
do to its value. They write nothing but the objects of that table and the objects they
allocate, so a clone shares nothing with the table it was made from.
-/
namespace CloudyNeigh.Query.OnHeap
open Blocks Checked HeapLogic VectorFormat

variable {R : HeapLogic.View Elem} {W : HeapLogic.View Elem}

section Maps
variable {V β : Type} {k : Kind} {put : GoMap V → Elem k} {P : V → β → Assertion Elem}
  {ref : Option ℕ} {read : Cmd (GoMap V)} {f : String → Option β} {O : RangeOrder String} {n : ℕ}

/-- `read` reads the map behind a reference. -/
def Reads (k : Kind) (put : GoMap V → Elem k) (ref : Option ℕ) (read : Cmd (GoMap V)) : Prop :=
  ∀ a ∈ ref, ∀ m W, W k a = some [put m] → read.result W = some m

lemma vectorMap_reads (ref : Option ℕ) : Reads Kind.vectors id ref (vectorMap ref) := by
  intro a ha m W hW
  rw [Option.mem_def.mp ha, vectorMap, mapOf, Prog.result_read, hW]
  rfl

lemma attrMap_reads (ref : Option ℕ) : Reads Kind.attrs id ref (attrMap ref) := by
  intro a ha m W hW
  rw [Option.mem_def.mp ha, attrMap, mapOf, Prog.result_read, hW]
  rfl

lemma mapAt_read (hr : Reads k put ref read) (h : mapAt k put P ref f W) :
    ∃ m, read.result W = some m ∧ owns P m f W := by
  cases ref with
  | none => exact h.1.elim
  | some a =>
    obtain ⟨m, hm⟩ := h
    exact ⟨m, hr a rfl m W (Assertion.left_of_mul hm), Assertion.right_of_mul hm⟩

lemma lookup_none {m : GoMap V} (h : ∀ k, (m.lookup k).isSome = (f k).isSome) {k : String}
    (hm : m.lookup k = none) : f k = none := by
  have hd := h k
  rw [hm] at hd
  exact Option.not_isSome_iff_eq_none.mp (by rw [← hd]; simp)

lemma keys_nodup {α : Type} (O : RangeOrder String) (n : ℕ) (m : GoMap α) :
    ((O.range n m).entries.map Sigma.fst).Nodup :=
  (O.range n m).keys_nodup

lemma notMem_keys {α : Type} {O : RangeOrder String} {n : ℕ} {m : GoMap α} {k : String}
    (h : k ∉ (O.range n m).entries.map Sigma.fst) : m.lookup k = none := by
  rw [← O.lookup n m]
  exact AList.lookup_eq_none.mpr h

lemma mem_entries {α : Type} {O : RangeOrder String} {n : ℕ} {m : GoMap α} {e : Σ _ : String, α}
    (h : e ∈ (O.range n m).entries) : m.lookup e.1 = some e.2 := by
  rw [← O.lookup n m]
  exact AList.mem_lookup_iff.mpr h

lemma setMap_spec (k : Kind) (F : Elem k → Elem k) (a : ℕ) (m : Elem k) :
    Triple R (.array k a [m]) (setMap k F (some a)) fun _ => .array k a [F m] := by
  refine Triple.bind_read (x := m) (fun W hW => ?_) ?_
  · rw [Prog.result_read, Assertion.array_holds.mp hW]
    rfl
  · exact Triple.write (E := Elem) (k := k) (l := [m]) (F m) (by simp)

lemma newMap_spec (k : Kind) (put : GoMap V → Elem k) (P : V → β → Assertion Elem) :
    Triple R 1 (.new k [put ∅]) fun a => mapAt k put P (some a) fun _ => none := by
  refine (Triple.new (E := Elem) k [put ∅]).post fun a W hW => ⟨∅, ?_⟩
  rw [← mul_one (Assertion.array k a [put ∅]), ← owns_empty (K := String) P] at hW
  exact hW

/-- What follows the reading of a map knows the map. -/
lemma withMap {body : GoMap V → Cmd Unit} {Q : Unit → Assertion Elem} (hr : Reads k put ref read)
    (h : ∀ a m, ref = some a → (∀ k, (m.lookup k).isSome = (f k).isSome) →
      Triple R (.array k a [put m] * owns P m f) (body m) Q) :
    Triple R (mapAt k put P ref f) (read >>= body) Q := by
  cases ref with
  | none => exact Triple.of_given fun h => h.elim
  | some a =>
    refine Triple.of_ex fun m => ?_
    refine Triple.assuming (fun W hW => owns_lookup (Assertion.right_of_mul hW)) fun hd => ?_
    exact Triple.bind_read (fun W hW => hr a rfl m W (Assertion.left_of_mul hW)) (h a m rfl hd)

/-- A step on what one key owns; the map itself stays. -/
lemma onEntry {body : Option V → Cmd Unit} {key : String} {b b' : β} (hr : Reads k put ref read)
    (hf : f key = some b) (hp : ∀ v, Triple R (P v b) (body (some v)) fun _ => P v b') :
    Triple R (mapAt k put P ref f) (read >>= fun m => body (m.lookup key)) fun _ =>
      mapAt k put P ref (Function.update f key (some b')) := by
  refine withMap hr fun a m ha hd => ?_
  have hkey := hd key
  rw [hf] at hkey
  obtain ⟨v, hv⟩ := Option.isSome_iff_exists.mp hkey
  rw [hv, ha]
  have hstep := (Triple.owns_step hv hf (hp v)).frame (.array k a [put m])
  refine hstep.conseq (le_of_eq (mul_comm _ _)) fun _ W hW => ⟨m, ?_⟩
  rw [mul_comm] at hW
  exact hW

/-- A step that makes something for a new key. -/
lemma addEntry {p : Cmd V} {b : β} {key : String} {next : V → Cmd Unit} {a : ℕ} {m : GoMap V}
    (hm : m.lookup key = none) (hf : f key = none) (hp : Triple R 1 p fun v => P v b)
    (hnext : ∀ v, Triple R (.array k a [put m]) (next v) fun _ => .array k a [put (m.insert key v)]) :
    Triple R (.array k a [put m] * owns P m f) (p >>= next) fun _ =>
      mapAt k put P (some a) (Function.update f key (some b)) := by
  refine Triple.bind (hp.also _) fun v => ?_
  have hpre : P v b * (Assertion.array k a [put m] * owns P m f) =
      .array k a [put m] * (P v b * owns P m f) := by ac_rfl
  rw [hpre]
  refine ((hnext v).frame _).post fun _ W hW => ⟨m.insert key v, ?_⟩
  rw [← owns_insert_new hm hf] at hW
  exact hW

lemma newEntry {p : Cmd V} {b : β} {key : String} {next : V → Cmd Unit} {a : ℕ}
    (hf : f key = none) (hp : Triple R 1 p fun v => P v b)
    (hnext : ∀ m v, Triple R (.array k a [put m]) (next v) fun _ => .array k a [put (m.insert key v)]) :
    Triple R (mapAt k put P (some a) f) (p >>= next) fun _ =>
      mapAt k put P (some a) (Function.update f key (some b)) := by
  refine Triple.of_ex fun m => ?_
  refine Triple.assuming (fun W hW => owns_lookup (Assertion.right_of_mul hW) key) fun hd => ?_
  rw [hf] at hd
  exact addEntry (Option.not_isSome_iff_eq_none.mp (by rw [hd]; simp)) hf hp (hnext m)

/-- A step that replaces the value of a key, and what it owns. -/
lemma moveEntry {p : Option V → Cmd V} {b b' : β} {key : String} {next : V → Cmd Unit}
    (hr : Reads k put ref read) (hf : f key = some b)
    (hp : ∀ v, Triple R (P v b) (p (some v)) fun v' => P v' b')
    (hnext : ∀ a m v, ref = some a → Triple R (.array k a [put m]) (next v) fun _ =>
      .array k a [put (m.insert key v)]) :
    Triple R (mapAt k put P ref f) (read >>= fun m => p (m.lookup key) >>= next) fun _ =>
      mapAt k put P ref (Function.update f key (some b')) := by
  refine withMap hr fun a m ha hd => ?_
  have hkey := hd key
  rw [hf] at hkey
  obtain ⟨v, hv⟩ := Option.isSome_iff_exists.mp hkey
  rw [hv, owns_at hv hf]
  have hpre : Assertion.array k a [put m] * (P v b * owns P (m.erase key) (Function.update f key none)) =
      P v b * (.array k a [put m] * owns P (m.erase key) (Function.update f key none)) := by ac_rfl
  rw [hpre]
  refine Triple.bind ((hp v).frame _) fun v' => ?_
  have hmid : P v' b' * (Assertion.array k a [put m] * owns P (m.erase key) (Function.update f key none)) =
      .array k a [put m] * (P v' b' * owns P (m.erase key) (Function.update f key none)) := by ac_rfl
  rw [hmid, ← owns_insert, ha]
  exact ((hnext a m v' ha).frame _).post fun _ W hW => ⟨m.insert key v', hW⟩

/-- A loop over a map of the table acts on each entry by itself. -/
lemma forEntries_spec {body : String → Option V → Cmd Unit} {G : String → β → β}
    (hr : Reads k put ref read) (hbody : ∀ key b, f key = some b → ∀ g : String → Option β,
      g key = some b → Triple R (mapAt k put P ref g) (read >>= fun m => body key (m.lookup key))
        fun _ => mapAt k put P ref (Function.update g key (some (G key b)))) :
    Triple R (mapAt k put P ref f) (forEntries O n read body) fun _ =>
      mapAt k put P ref fun key => (f key).map (G key) := by
  refine withMap hr fun a m ha hd => ?_
  refine (Triple.forEach_keys (I := mapAt k put P ref) (f := f) id ?_ ?_ ?_).pre
    fun W hW => by rw [ha]; exact ⟨m, hW⟩
  · rw [List.map_id]
    exact (O.range n m).keys_nodup
  · intro key hkey
    rw [List.map_id] at hkey
    rw [lookup_none hd (notMem_keys hkey)]
    rfl
  · intro key hkey g hg
    obtain ⟨b, hb⟩ : ∃ b, f key = some b := by
      rw [← Option.isSome_iff_exists, ← hd key, ← O.lookup n m]
      exact AList.lookup_isSome.mpr hkey
    simp only [id, hb, Option.map_some]
    exact hbody key b hb g (hg.trans hb)

end Maps

section Entries
variable {ref : Option ℕ} {O : RangeOrder String} {n : ℕ} {f : String → Option FlatVectorCol}
  {g : String → Option (List (Option AttributeValue))}

lemma onVector {col : String} {c : FlatVectorCol} (c' : FlatVectorCol)
    (body : Option ℕ → Cmd Unit) (hf : f col = some c) (hp : ∀ a, Triple R (colAt a c) (body (some a)) fun _ => colAt a c') :
    Triple R (vectorsAt ref f) (vectorMap ref >>= fun m => body (m.lookup col)) fun _ =>
      vectorsAt ref (Function.update f col (some c')) :=
  onEntry (vectorMap_reads ref) hf hp

lemma onAttr {k : String} {l : List (Option AttributeValue)} (l' : List (Option AttributeValue))
    (body : Option (Option Slice) → Cmd Unit) (hg : g k = some l)
    (hp : ∀ s, Triple R (isSlice Kind.attr s l) (body (some s)) fun _ => isSlice Kind.attr s l') :
    Triple R (attrsAt ref g) (attrMap ref >>= fun m => body (m.lookup k)) fun _ =>
      attrsAt ref (Function.update g k (some l')) :=
  onEntry (attrMap_reads ref) hg hp

lemma forVectors {body : String → Option ℕ → Cmd Unit} (G : String → FlatVectorCol → FlatVectorCol)
    (hbody : ∀ col c, f col = some c → ∀ a,
      Triple R (colAt a c) (body col (some a)) fun _ => colAt a (G col c)) :
    Triple R (vectorsAt ref f) (forEntries O n (vectorMap ref) body) fun _ =>
      vectorsAt ref fun col => (f col).map (G col) :=
  forEntries_spec (vectorMap_reads ref) fun col c hc _ hg => onVector _ _ hg (hbody col c hc)

lemma forAttrs {body : String → Option (Option Slice) → Cmd Unit}
    (G : String → List (Option AttributeValue) → List (Option AttributeValue))
    (hbody : ∀ k l, g k = some l → ∀ s,
      Triple R (isSlice Kind.attr s l) (body k (some s)) fun _ => isSlice Kind.attr s (G k l)) :
    Triple R (attrsAt ref g) (forEntries O n (attrMap ref) body) fun _ =>
      attrsAt ref fun k => (g k).map (G k) :=
  forEntries_spec (attrMap_reads ref) fun k l hl _ hg => onAttr _ _ hg (hbody k l hl)

end Entries

section Stage
variable {f : String → Option FlatVectorCol}

lemma dimOf_result (t : TableHeader) (h : vectorsAt t.vectors f W) (col : String) :
    (dimOf t col).result W = some ((f col).map FlatVectorCol.dim) := by
  obtain ⟨m, hm, ho⟩ := mapAt_read (vectorMap_reads t.vectors) h
  rw [dimOf, Prog.result_bind, hm, Option.bind_some]
  cases hc : m.lookup col with
  | none =>
    rw [lookup_none (owns_lookup ho) hc]
    rfl
  | some a =>
    obtain ⟨c, hf, v, hv⟩ := owns_get ho hc
    rw [hf, Prog.result_bind, colWith_load hv, Option.bind_some, hv.1.1]
    rfl

/-- The checks of an upsert read the table and do not write. -/
lemma stage_result (A : Arith) (is16 : Bool) (t : TableHeader) (h : vectorsAt t.vectors f W)
    (entries : List (Σ _ : String, List F32)) (staged : GoMap StagedVector) :
    ∃ r, (stage A is16 t entries staged).result W = some r ∧
      r.map (fun m col => m.lookup col) = Query.stage A is16
        (fun col => (f col).map FlatVectorCol.dim) entries (fun col => staged.lookup col) := by
  induction entries generalizing staged with
  | nil => exact ⟨.ok staged, rfl, rfl⟩
  | cons e entries ih =>
    obtain ⟨col, vec⟩ := e
    rw [stage, Query.stage]
    split
    · exact ih staged
    · rw [Prog.result_bind, dimOf_result t h col, Option.bind_some]
      split
      · exact ⟨_, rfl, rfl⟩
      · cases stageVector A is16 vec with
        | error e => exact ⟨_, rfl, rfl⟩
        | ok sv =>
          obtain ⟨r, hr, hmap⟩ := ih (staged.insert col sv)
          exact ⟨r, hr, by rw [hmap, lookup_insert_update]⟩

end Stage

section Parts
variable {p : ℕ} {h : TableHeader} {t : Table}

lemma tableWith_load (hW : tableWith p h t W) : (loadTable p).result W = some h := by
  have ha : W Kind.table p = some [h] := Assertion.left_of_mul hW.2
  rw [loadTable, Prog.result_read, ha]
  rfl

lemma tableWith_docIDs (hW : tableWith p h t W) : isSlice Kind.string h.docIDs t.docIDs W :=
  Assertion.left_of_mul (Assertion.right_of_mul hW.2)

lemma tableWith_tombstones (hW : tableWith p h t W) :
    isSlice Kind.bool h.tombstones t.tombstones W :=
  Assertion.left_of_mul (Assertion.right_of_mul (Assertion.right_of_mul hW.2))

lemma tableWith_index (hW : tableWith p h t W) : indexAt h.index t.index W :=
  Assertion.left_of_mul (Assertion.right_of_mul (Assertion.right_of_mul (Assertion.right_of_mul hW.2)))

lemma tableWith_vectors (hW : tableWith p h t W) : vectorsAt h.vectors t.vectors W :=
  Assertion.left_of_mul (Assertion.right_of_mul (Assertion.right_of_mul (Assertion.right_of_mul
    (Assertion.right_of_mul hW.2))))

lemma tableWith_attrs (hW : tableWith p h t W) : attrsAt h.attrs t.attrs W :=
  Assertion.right_of_mul (Assertion.right_of_mul (Assertion.right_of_mul (Assertion.right_of_mul
    (Assertion.right_of_mul hW.2))))

lemma indexAt_read {ref : Option ℕ} {f : String → Option ℕ} (h : indexAt ref f W) :
    ∃ m, (indexMap ref).result W = some m ∧ ∀ id, m.lookup id = f id := by
  cases ref with
  | none => exact h.1.elim
  | some a =>
    obtain ⟨m, hm, ha⟩ := h
    have ha : W Kind.index a = some [m] := ha
    exact ⟨m, by rw [indexMap, mapOf, Prog.result_read, ha]; rfl, hm⟩

/-- A step on one part of a table. -/
lemma onPart {P Q G : Assertion Elem} {t' : Table} {c : Cmd Unit} (hp : Triple R P c fun _ => Q)
    (hP : tableBody h t = P * G) (hQ : tableBody h t' = Q * G) (hn : t'.numRows = t.numRows)
    (hk : t'.kernels = t.kernels) :
    Triple R (tableWith p h t) c fun _ => tableWith p h t' := by
  refine Triple.of_given fun hh => ?_
  have hpre : Assertion.array Kind.table p [h] * tableBody h t =
      P * (G * .array Kind.table p [h]) := by
    rw [hP]
    ac_rfl
  have hpost : Assertion.array Kind.table p [h] * tableBody h t' =
      Q * (G * .array Kind.table p [h]) := by
    rw [hQ]
    ac_rfl
  refine (hp.frame _).conseq (le_of_eq hpre) fun _ W hW => ⟨?_, ?_⟩
  · rw [hn, hk]
    exact hh
  · rwa [hpost]

lemma onVectors {c : Cmd Unit} {f : String → Option FlatVectorCol}
    (hp : Triple R (vectorsAt h.vectors t.vectors) c fun _ => vectorsAt h.vectors f) :
    Triple R (tableWith p h t) c fun _ => tableWith p h { t with vectors := f } := by
  refine onPart (G := isSlice Kind.string h.docIDs t.docIDs * (isSlice Kind.bool h.tombstones t.tombstones *
    (indexAt h.index t.index * attrsAt h.attrs t.attrs))) hp ?_ ?_ rfl rfl <;>
    simp only [tableBody] <;> ac_rfl

lemma onAttrs {c : Cmd Unit} {f : String → Option (List (Option AttributeValue))}
    (hp : Triple R (attrsAt h.attrs t.attrs) c fun _ => attrsAt h.attrs f) :
    Triple R (tableWith p h t) c fun _ => tableWith p h { t with attrs := f } := by
  refine onPart (G := isSlice Kind.string h.docIDs t.docIDs * (isSlice Kind.bool h.tombstones t.tombstones *
    (indexAt h.index t.index * vectorsAt h.vectors t.vectors))) hp ?_ ?_ rfl rfl <;>
    simp only [tableBody] <;> ac_rfl

lemma onIndex {c : Cmd Unit} {f : String → Option ℕ}
    (hp : Triple R (indexAt h.index t.index) c fun _ => indexAt h.index f) :
    Triple R (tableWith p h t) c fun _ => tableWith p h { t with index := f } := by
  refine onPart (G := isSlice Kind.string h.docIDs t.docIDs * (isSlice Kind.bool h.tombstones t.tombstones *
    (vectorsAt h.vectors t.vectors * attrsAt h.attrs t.attrs))) hp ?_ ?_ rfl rfl <;>
    simp only [tableBody] <;> ac_rfl

lemma setTombstone_spec {row : ℕ} (b : Bool) (hr : row < t.tombstones.length) :
    Triple R (tableWith p h t) (.setIndex Kind.bool h.tombstones row b) fun _ =>
      tableWith p h { t with tombstones := t.tombstones.set row b } := by
  refine onPart (G := isSlice Kind.string h.docIDs t.docIDs * (indexAt h.index t.index *
    (vectorsAt h.vectors t.vectors * attrsAt h.attrs t.attrs)))
    (Triple.setIndex (E := Elem) (k := Kind.bool) (l := t.tombstones) b hr) ?_ ?_ rfl rfl <;>
    simp only [tableBody] <;> ac_rfl

lemma tombstone_result {row : ℕ} (hr : row < t.tombstones.length) (hW : tableWith p h t W) :
    (Prog.index Kind.bool h.tombstones row).result W = some (t.isTombstoned row) := by
  apply isSlice_index (E := Elem) (k := Kind.bool) (tableWith_tombstones hW)
  rw [Table.isTombstoned, List.getD_eq_getElem?_getD, List.getElem?_eq_getElem hr]
  rfl

end Parts

section Phases
variable {p : ℕ} {h : TableHeader} {t : Table} {O : RangeOrder String} {grow : Kind → ℕ → ℕ → ℕ}
  {staged : GoMap StagedVector} {attrs : GoMap (Option AttributeValue)} {row : ℕ} {id : String}

lemma createVector_spec {f : String → Option FlatVectorCol} (e : Σ _ : String, StagedVector) :
    Triple R (vectorsAt h.vectors f) (createVector h e) fun _ =>
      vectorsAt h.vectors (Function.update f e.1
        ((f e.1).or (some (newVectorCol h.kernels.is16 h.numRows e.2.values.length)))) := by
  refine withMap (vectorMap_reads h.vectors) fun a m ha hd => ?_
  cases hm : m.lookup e.1 with
  | some v =>
    have hkey := hd e.1
    rw [hm] at hkey
    obtain ⟨c, hc⟩ := Option.isSome_iff_exists.mp hkey.symm
    rw [hc, Option.some_or, ← hc, Function.update_eq_self, ha]
    exact Triple.ret fun W hW => ⟨m, hW⟩
  | none =>
    rw [lookup_none hd hm, Option.none_or, ha]
    exact addEntry hm (lookup_none hd hm) (newCol_spec _ _ _) fun v => setMap_spec _ _ _ _

lemma createAttr_spec {f : String → Option (List (Option AttributeValue))}
    (e : Σ _ : String, Option AttributeValue) :
    Triple R (attrsAt h.attrs f) (createAttr h e) fun _ =>
      attrsAt h.attrs (Function.update f e.1
        ((f e.1).or (e.2.map fun _ => List.replicate h.numRows none))) := by
  obtain ⟨k, v⟩ := e
  cases v with
  | none =>
    rw [Option.map_none, Option.or_none, Function.update_eq_self]
    exact Triple.ret le_rfl
  | some v =>
    refine withMap (attrMap_reads h.attrs) fun a m ha hd => ?_
    dsimp only
    cases hm : m.lookup k with
    | some s =>
      have hkey := hd k
      rw [hm] at hkey
      obtain ⟨c, hc⟩ := Option.isSome_iff_exists.mp hkey.symm
      rw [hc, Option.some_or, ← hc, Function.update_eq_self, ha]
      exact Triple.ret fun W hW => ⟨m, hW⟩
    | none =>
      rw [lookup_none hd hm, Option.none_or, ha]
      refine addEntry hm (lookup_none hd hm) ?_ fun v => setMap_spec _ _ _ _
      exact (Triple.make (E := Elem) (k := Kind.attr) h.numRows none).post fun _ _ hW => hW.2

lemma addColumns_spec : Triple R (tableWith p h t) (addColumns O h staged attrs) fun _ =>
    tableWith p h (t.addColumns (fun col => staged.lookup col) attrs) := by
  refine Triple.assuming (fun _ hW => hW.1) fun hh => ?_
  refine Triple.bind (onVectors (f := (t.addColumns (fun col => staged.lookup col) attrs).vectors)
    (Triple.forEach_keys (I := vectorsAt h.vectors) Sigma.fst (keys_nodup O 1 staged) ?_ ?_))
    fun _ => ?_
  · intro col hcol
    simp [Table.addColumns, notMem_keys hcol]
  · intro e he g hg
    have hspec := createVector_spec (R := R) (h := h) (f := g) e
    simpa only [Table.addColumns, mem_entries he, hg, hh.1, hh.2, Option.map_some] using hspec
  · refine onAttrs (Triple.forEach_keys (I := attrsAt h.attrs) Sigma.fst
      (keys_nodup O 2 attrs) ?_ ?_)
    · intro k hk
      simp [notMem_keys hk]
    · intro e he g hg
      have hspec := createAttr_spec (R := R) (h := h) (f := g) e
      simpa only [Table.addColumns, mem_entries he, hg, hh.1, Option.join_some] using hspec

lemma reviveRow_spec (hwf : t.WF) (hr : row < t.numRows) :
    Triple R (tableWith p h t) (reviveRow O h row staged attrs) fun _ =>
      tableWith p h (t.reviveRow row (fun col => staged.lookup col) attrs) := by
  refine Triple.bind_read (fun W hW => tombstone_result (by rwa [hwf.tombstones]) hW) ?_
  unfold Table.reviveRow
  cases t.isTombstoned row with
  | false => exact Triple.ret le_rfl
  | true =>
    refine Triple.bind (onAttrs (forAttrs
      (fun k c => if (attrs.lookup k).isSome then c else c.set row none) ?_)) fun _ =>
      onVectors (forVectors
        (fun col c => if (staged.lookup col).isSome then c else c.clearRow row) ?_)
    · intro k c hc s
      split
      · exact Triple.ret le_rfl
      · exact Triple.setIndex (E := Elem) (k := Kind.attr) none (by rwa [hwf.attrs k c hc])
    · intro col c hc a
      split
      · exact Triple.ret le_rfl
      · exact Triple.bind_read (x := a) (fun _ _ => rfl) (clearRow_spec (hwf.vectors col c hc) hr)

lemma overwriteRow_spec (hwf : t.WF) (hr : row < t.numRows)
    (hrd : t.Ready (fun col => staged.lookup col) attrs) :
    Triple R (tableWith p h t) (overwriteRow O h row staged attrs) fun _ =>
      tableWith p h (t.overwriteRow row (fun col => staged.lookup col) attrs) := by
  refine Triple.assuming (fun _ hW => hW.1) fun hh => ?_
  refine Triple.bind (setTombstone_spec false (by rwa [hwf.tombstones])) fun _ => ?_
  refine Triple.bind (onVectors (f := (t.overwriteRow row (fun col => staged.lookup col) attrs).vectors)
    (Triple.forEach_keys (I := vectorsAt h.vectors) Sigma.fst (keys_nodup O 5 staged) ?_ ?_))
    fun _ => onAttrs (Triple.forEach_keys (I := attrsAt h.attrs) Sigma.fst
      (keys_nodup O 6 attrs) ?_ ?_)
  · intro col hcol
    simp [Table.overwriteRow, notMem_keys hcol]
  · intro e he g hg
    obtain ⟨c, hc, hfit⟩ := hrd.vectors e.1 e.2 (mem_entries he)
    have hstep := @onVector R h.vectors g e.1 c (c.setRow t.kernels.is16 row e.2)
      (fun o => do
        let a ← ofOption o
        setRow row h.kernels.is16 a e.2) (hg.trans hc) fun a =>
        Triple.bind_read (x := a) (fun _ _ => rfl) (by
          rw [hh.2]
          exact setRow_spec (hwf.vectors e.1 c hc) hr hfit)
    simpa only [Table.overwriteRow, hc, mem_entries he, Option.map_some] using hstep
  · intro k hk
    simp [notMem_keys hk]
  · intro e he g hg
    obtain ⟨k, v⟩ := e
    have hk : attrs.lookup k = some v := mem_entries he
    cases v with
    | none =>
      have hg' : g k = t.attrs k := hg
      simp only [hk, Option.join_some, Option.map_id', ← hg',
        Function.update_eq_self]
      exact Triple.ret le_rfl
    | some v =>
      obtain ⟨c, hc⟩ := Option.isSome_iff_exists.mp (hrd.attrs k v hk)
      have hstep := @onAttr R h.attrs g k c (c.set row (some v))
        (fun o => Prog.setIndex Kind.attr o.join row (some v)) (hg.trans hc)
        fun s => Triple.setIndex (E := Elem) (k := Kind.attr) (some v)
          (by rwa [hwf.attrs k c hc])
      simpa only [Table.overwriteRow, hc, hk, Option.join_some, Option.map_some] using hstep

/-- A step that replaces one slice in the header of a table. -/
lemma onTableHeader {P G : Assertion Elem} {Q : Option Slice → Assertion Elem} {t' : Table}
    {c : Cmd (Option Slice)} (h' : Option Slice → TableHeader) (hp : Triple R P c Q)
    (hP : tableBody h t = P * G) (hQ : ∀ s, Q s * G ≤ tableBody (h' s) t')
    (hh : ∀ s, h.numRows = t.numRows ∧ h.kernels = t.kernels →
      (h' s).numRows = t'.numRows ∧ (h' s).kernels = t'.kernels) :
    Triple R (tableWith p h t) (do
      let s ← c
      saveTable p (h' s)
      .ret (h' s)) fun w => tableWith p w t' := by
  refine Triple.of_given fun hok => ?_
  have hpre : Assertion.array Kind.table p [h] * tableBody h t =
      P * (G * .array Kind.table p [h]) := by
    rw [hP]
    ac_rfl
  refine Triple.bind ((hp.frame _).pre (le_of_eq hpre)) fun s => ?_
  have hmid : Q s * (G * .array Kind.table p [h]) = .array Kind.table p [h] * (Q s * G) := by ac_rfl
  rw [hmid]
  refine Triple.bind ((Triple.write (k := Kind.table) (l := [h]) (h' s) (by simp)).frame (Q s * G))
    fun _ => Triple.ret fun W hW => ⟨hh s hok, ?_⟩
  exact mul_le_mul_right (hQ s) _ W hW

lemma pushID_spec : Triple R (tableWith p h t) (pushID grow h p id) fun w =>
    tableWith p w { t with docIDs := t.docIDs ++ [id] } := by
  refine onTableHeader (fun s => { h with docIDs := s })
    (Triple.append (E := Elem) (k := Kind.string) _ _ h.docIDs t.docIDs _) rfl ?_ fun _ hh => hh
  intro s W hW
  rw [Assertion.given_mul] at hW
  exact hW.2

lemma pushTombstone_spec : Triple R (tableWith p h t) (pushTombstone grow h p) fun w =>
    tableWith p w { t with tombstones := t.tombstones ++ [false] } := by
  refine onTableHeader (G := isSlice Kind.string h.docIDs t.docIDs * (indexAt h.index t.index *
      (vectorsAt h.vectors t.vectors * attrsAt h.attrs t.attrs)))
    (fun s => { h with tombstones := s })
    (Triple.append (E := Elem) (k := Kind.bool) _ _ h.tombstones t.tombstones _) ?_ ?_ fun _ hh => hh
  · simp only [tableBody]
    ac_rfl
  · intro s W hW
    rw [Assertion.given_mul] at hW
    convert hW.2 using 1
    simp only [tableBody]
    ac_rfl

lemma setIndexMap_spec {ref : Option ℕ} {f : String → Option ℕ} (id : String) {row row' : ℕ}
    (hrow : row = row') :
    Triple R (indexAt ref f) (setMap Kind.index (fun m => m.insert id row) ref) fun _ =>
      indexAt ref (Function.update f id (some row')) := by
  subst hrow
  cases ref with
  | none => exact Triple.of_given fun h => h.elim
  | some a =>
    refine Triple.of_ex fun m => Triple.of_given fun hm => ?_
    refine (setMap_spec Kind.index (fun m => m.insert id row) a m).post fun _ W hW =>
      ⟨m.insert id row, fun k => ?_, hW⟩
    rw [← funext hm, ← lookup_insert_update]

lemma pushAttr_spec {f : String → Option (List (Option AttributeValue))} {ref : Option ℕ} {k : String}
    {l : List (Option AttributeValue)} (hf : f k = some l) (x : Option AttributeValue) :
    Triple R (attrsAt ref f) (attrMap ref >>= fun m =>
        Prog.append Kind.attr (grow Kind.attr) none (m.lookup k).join [x] >>= fun s =>
          setMap Kind.attrs (fun m => m.insert k s) ref) fun _ =>
      attrsAt ref (Function.update f k (some (l ++ [x]))) := by
  refine moveEntry (p := fun o => Prog.append Kind.attr (grow Kind.attr) none o.join [x])
    (attrMap_reads ref) hf (fun s => ?_) fun a m s ha => ?_
  · exact (Triple.append (E := Elem) (k := Kind.attr) _ _ s l [x]).post fun _ _ hW => hW.2
  · rw [ha]
    exact setMap_spec Kind.attrs _ a m

lemma insertRow_spec (hwf : t.WF) : Triple R (tableWith p h t) (insertRow O grow h staged attrs p id)
    fun _ => tableAt p (t.insertRow id (fun col => staged.lookup col) attrs) := by
  refine Triple.bind pushID_spec fun h => ?_
  refine Triple.bind pushTombstone_spec fun h => ?_
  refine Triple.assuming (fun _ hW => hW.1) fun hh => ?_
  refine Triple.bind (onIndex (setIndexMap_spec id hh.1)) fun _ => ?_
  refine Triple.bind (onVectors (forVectors
    (fun col c => c.pushRow t.kernels.is16 (staged.lookup col)) ?_)) fun _ => ?_
  · intro col c hc a
    rw [hh.2]
    exact Triple.bind_read (x := a) (fun _ _ => rfl) (pushRow_spec grow (hwf.vectors col c hc) _)
  refine Triple.bind (onAttrs (f := fun k => (t.attrs k).map fun c => c ++ [(attrs.lookup k).join])
    (forEntries_spec (attrMap_reads h.attrs) ?_)) fun _ => ?_
  · intro k l _ g hg
    exact pushAttr_spec hg _
  refine Triple.of_given fun _ => ?_
  refine ((Triple.write (E := Elem) (k := Kind.table) (l := [h]) { h with numRows := h.numRows + 1 }
    (by simp)).frame _).post fun _ W hW =>
      ⟨{ h with numRows := h.numRows + 1 }, ⟨congrArg (· + 1) hh.1, hh.2⟩, hW⟩

end Phases

section Calls
variable {p : ℕ} {t : Table} {O : RangeOrder String} {grow : Kind → ℕ → ℕ → ℕ}

/-- What an upsert leaves behind a pointer and returns. -/
def upserted (p : ℕ) (t : Table) : Except UpsertErr Table → Option UpsertErr → Assertion Elem
  | .ok u, e => .given (e = none) (tableAt p u)
  | .error e, e' => .given (e' = some e) (tableAt p t)

lemma tableWith_maps {h : TableHeader} (hW : tableWith p h t W) : h.index ≠ none := by
  intro hn
  have hi := tableWith_index hW
  rw [hn] at hi
  exact hi.1

theorem upsert_spec (hwf : t.WF) (A : Arith) (id : String) (vectors : GoMap (List F32))
    (attrs : GoMap (Option AttributeValue)) :
    Triple R (tableAt p t) (Upsert A O grow p id vectors attrs)
      (upserted p t (t.Upsert A id (O.range 0 vectors) attrs)) := by
  unfold Upsert Table.Upsert
  split
  · exact Triple.ret fun W hW => ⟨rfl, hW⟩
  · refine Triple.of_ex fun h => ?_
    refine Triple.assuming (fun W hW => tableWith_maps hW) fun hmaps => ?_
    refine Triple.assuming (fun _ hW => hW.1) fun hh => ?_
    refine Triple.bind_read (fun W hW => tableWith_load hW) ?_
    refine Triple.bind_read (x := h) (fun W _ => by rw [initMaps, if_neg hmaps]; rfl) ?_
    refine Triple.bind_reads (fun W hW => stage_result A h.kernels.is16 h (tableWith_vectors hW) _ _)
      fun r hr => ?_
    simp only [AList.lookup_empty, hh.2] at hr
    have hdims : (fun col => (t.vectors col).map FlatVectorCol.dim) = t.dims := rfl
    rw [hdims] at hr
    cases r with
    | error e =>
      rw [← hr]
      exact Triple.ret fun W hW => ⟨rfl, h, hW⟩
    | ok staged =>
      rw [← hr]
      have hok : ∀ col sv, staged.lookup col = some sv → _ := fun col sv hsv => staged_fits hr.symm hsv
      have hwf₁ : (t.addColumns (fun col => staged.lookup col) attrs).WF :=
        hwf.addColumns fun col sv hsv => (hok col sv hsv).1
      have hrd : (t.addColumns (fun col => staged.lookup col) attrs).Ready
          (fun col => staged.lookup col) attrs :=
        addColumns_ready fun col sv hsv => (hok col sv hsv).2
      refine Triple.bind addColumns_spec fun _ => ?_
      refine Triple.bind_reads (fun W hW => indexAt_read (tableWith_index hW)) fun index hi => ?_
      rw [hi]
      dsimp only [Except.map]
      cases hrow : (t.addColumns (fun col => staged.lookup col) attrs).index id with
      | some row =>
        have hlt := hwf₁.row_lt hrow
        refine Triple.bind (reviveRow_spec hwf₁ hlt) fun _ => ?_
        refine Triple.bind (overwriteRow_spec (hwf₁.reviveRow row)
          (by rw [reviveRow_numRows]; exact hlt) (hrd.reviveRow row)) fun _ => ?_
        exact Triple.ret fun W hW => ⟨rfl, h, hW⟩
      | none =>
        exact Triple.bind (insertRow_spec hwf₁) fun _ => Triple.ret fun W hW => ⟨rfl, hW⟩

theorem delete_spec (hwf : t.WF) (id : String) : Triple R (tableAt p t) (Delete p id) fun b =>
    .given (b = (t.Delete id).2) (tableAt p (t.Delete id).1) := by
  refine Triple.of_ex fun h => ?_
  refine Triple.bind_read (fun W hW => tableWith_load hW) ?_
  refine Triple.bind_reads (fun W hW => indexAt_read (tableWith_index hW)) fun index hi => ?_
  rw [hi]
  unfold Table.Delete
  cases hrow : t.index id with
  | none => exact Triple.ret fun W hW => ⟨rfl, h, hW⟩
  | some row =>
    have hlt : row < t.tombstones.length := by
      rw [hwf.tombstones]
      exact hwf.row_lt hrow
    refine Triple.bind_read (fun W hW => tombstone_result hlt hW) ?_
    dsimp only
    cases t.isTombstoned row with
    | true => exact Triple.ret fun W hW => ⟨rfl, h, hW⟩
    | false =>
      refine Triple.bind (setTombstone_spec true hlt) fun _ => ?_
      exact Triple.ret fun W hW => ⟨rfl, h, hW⟩

lemma Table.upsert_range (A : Arith) (n : ℕ) {id : String} {vectors : GoMap (List F32)}
    {attrs : GoMap (Option AttributeValue)} {u : Table} :
    t.Upsert A id (O.range n vectors) attrs = .ok u ↔ t.Upsert A id vectors attrs = .ok u := by
  have hok : ∀ vectors vectors' : GoMap (List F32), (∀ staged,
      Query.stage A t.kernels.is16 t.dims vectors.entries (fun _ => none) = .ok staged →
        Query.stage A t.kernels.is16 t.dims vectors'.entries (fun _ => none) = .ok staged) →
      t.Upsert A id vectors attrs = .ok u → t.Upsert A id vectors' attrs = .ok u := by
    intro vectors vectors' hst h
    unfold Table.Upsert at h ⊢
    by_cases hid : id = ""
    · rw [if_pos hid] at h
      cases h
    · rw [if_neg hid] at h ⊢
      cases hs : Query.stage A t.kernels.is16 t.dims vectors.entries (fun _ => none) with
      | error e =>
        rw [hs] at h
        cases h
      | ok staged =>
        rw [hs] at h
        rw [hst staged hs]
        exact h
  exact ⟨hok _ _ fun _ => (stage_range O n).mp, hok _ _ fun _ => (stage_range O n).mpr⟩

/-- Which error is reported depends on the order of the maps, the rest does not. -/
theorem upsertRecord_spec (hwf : t.WF) (A : Arith) (rec : Option Record) :
    ∃ x : Except UpsertErr Table, (∀ u, x = .ok u ↔ t.UpsertRecord A rec = .ok u) ∧
      Triple R (tableAt p t) (UpsertRecord A O grow p rec) (upserted p t x) := by
  cases rec with
  | none =>
    exact ⟨.error .nilRecord, fun u => Iff.rfl, Triple.ret fun W hW => ⟨rfl, hW⟩⟩
  | some rec =>
    have hnil : ((O.range 9 rec.Vectors).entries.find? fun e => e.2.isNone).isSome =
        (rec.Vectors.entries.find? fun e => e.2.isNone).isSome := by
      rw [Bool.eq_iff_iff, List.find?_isSome, List.find?_isSome]
      simp only [(O.perm 9 rec.Vectors).mem_iff]
    simp only [UpsertRecord, Table.UpsertRecord]
    cases hf : (O.range 9 rec.Vectors).entries.find? fun e => e.2.isNone with
    | some e =>
      rw [hf] at hnil
      obtain ⟨e', he'⟩ := Option.isSome_iff_exists.mp hnil.symm
      refine ⟨.error (.nilVector e.1), fun u => ?_, Triple.ret fun W hW => ⟨rfl, hW⟩⟩
      simp [he']
    | none =>
      rw [hf] at hnil
      have he' : (rec.Vectors.entries.find? fun e => e.2.isNone) = none :=
        Option.not_isSome_iff_eq_none.mp (by rw [← hnil]; simp)
      refine ⟨_, fun u => ?_, upsert_spec hwf A rec.Id _ rec.Attributes⟩
      rw [he']
      exact Table.upsert_range A 0

lemma newIndex_spec : Triple R 1 (.new Kind.index [∅]) fun a => indexAt (some a) fun _ => none :=
  (Triple.new (E := Elem) Kind.index [∅]).post fun _ _ hW => ⟨∅, fun _ => rfl, hW⟩

/-- The table without the entries of its maps. -/
def withoutMaps (t : Table) : Table :=
  { t with index := fun _ => none, vectors := fun _ => none, attrs := fun _ => none }

/-- A clone has a header, maps, columns and arrays of its own. -/
theorem clone_spec (hR : tableAt p t R) : Triple R 1 (Clone O grow p) fun p' => tableAt p' t := by
  obtain ⟨h, hh⟩ := hR
  refine Triple.bind_view (tableWith_load hh) ?_
  refine Triple.bind (Triple.clone (E := Elem) (k := Kind.string) _ _ (tableWith_docIDs hh))
    fun docIDs => Triple.of_given fun _ => ?_
  refine Triple.bind (newIndex_spec.also _) fun index => ?_
  refine Triple.bind ((Triple.clone (E := Elem) (k := Kind.bool) _ _ (tableWith_tombstones hh)).also _)
    fun tombstones => ?_
  rw [Assertion.given_mul]
  refine Triple.of_given fun _ => ?_
  refine Triple.bind ((newMap_spec Kind.vectors id colAt).also _) fun vectors => ?_
  refine Triple.bind ((newMap_spec Kind.attrs id (isSlice (E := Elem) Kind.attr)).also _) fun attrs => ?_
  refine Triple.bind (Q := fun c => tableWith c ⟨h.numRows, docIDs, some index, tombstones,
    some vectors, some attrs, h.kernels⟩ (withoutMaps t)) ?_ fun c => ?_
  · refine ((Triple.new (E := Elem) Kind.table _).also _).post fun c W hW => ⟨hh.1, ?_⟩
    convert hW using 1
    simp only [tableBody, withoutMaps, vectorsAt, attrsAt]
    ac_rfl
  obtain ⟨m, hm, hlook⟩ := indexAt_read (tableWith_index hh)
  refine Triple.bind_view hm ?_
  refine Triple.bind (onIndex (f := t.index) (Triple.forEach_keys (I := indexAt (some index))
    Sigma.fst (keys_nodup O 10 m) ?_ ?_)) fun _ => ?_
  · intro k hk
    rw [← hlook, notMem_keys hk]
    rfl
  · intro e he g _
    rw [← hlook, mem_entries he]
    exact setIndexMap_spec e.1 rfl
  obtain ⟨m, hm, ho⟩ := mapAt_read (vectorMap_reads h.vectors) (tableWith_vectors hh)
  refine Triple.bind_view hm ?_
  refine Triple.bind (onVectors (f := t.vectors) (Triple.forEach_keys (I := vectorsAt (some vectors))
    Sigma.fst (keys_nodup O 11 m) ?_ ?_)) fun _ => ?_
  · intro k hk
    rw [lookup_none (owns_lookup ho) (notMem_keys hk)]
    rfl
  · intro e he g hg
    obtain ⟨c, hc, v, hv⟩ := owns_get ho (mem_entries he)
    refine Triple.bind_view (colWith_load hv) ?_
    rw [hc]
    exact newEntry hg (cloneCol_spec grow hv) fun m' a => setMap_spec _ _ _ _
  obtain ⟨m, hm, ho⟩ := mapAt_read (attrMap_reads h.attrs) (tableWith_attrs hh)
  refine Triple.bind_view hm ?_
  refine Triple.bind (onAttrs (f := t.attrs) (Triple.forEach_keys (I := attrsAt (some attrs))
    Sigma.fst (keys_nodup O 12 m) ?_ ?_)) fun _ => Triple.ret fun W hW => ⟨_, hW⟩
  · intro k hk
    rw [lookup_none (owns_lookup ho) (notMem_keys hk)]
    rfl
  · intro e he g hg
    obtain ⟨l, hl, hs⟩ := owns_get ho (mem_entries he)
    rw [hl]
    exact newEntry hg (cloneAttrs_spec hs) fun m' s => setMap_spec _ _ _ _

theorem newTable_spec (k : Kernels) : Triple R 1 (NewTable k) fun p => tableAt p (Query.NewTable k) := by
  refine Triple.bind newIndex_spec fun index => ?_
  refine Triple.bind ((newMap_spec Kind.vectors id colAt).also _) fun vectors => ?_
  refine Triple.bind ((newMap_spec Kind.attrs id (isSlice (E := Elem) Kind.attr)).also _) fun attrs => ?_
  refine ((Triple.new (E := Elem) Kind.table _).also _).post fun c W hW =>
    ⟨⟨0, none, some index, none, some vectors, some attrs, k⟩, ⟨rfl, rfl⟩, ?_⟩
  convert hW using 1
  simp only [tableBody, Query.NewTable, vectorsAt, attrsAt, isSlice_nil, one_mul]
  ac_rfl

end Calls

end CloudyNeigh.Query.OnHeap
