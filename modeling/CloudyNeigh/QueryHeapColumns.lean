import CloudyNeigh.QueryHeapTable
import CloudyNeigh.QueryRefine

/-!
# What the objects of a table stand for

A table on the heap owns its header, its maps, its columns and all their arrays. The
operations on one column do to the column what they do to its value.
-/
namespace CloudyNeigh.Query.OnHeap
open Blocks Checked HeapLogic VectorFormat

section Representation

/-- The parts of a column behind its header. -/
def colBody (v : ColHeader) (c : FlatVectorCol) : Assertion Elem :=
  isSlice Kind.f32 v.data c.data * (isSlice Kind.f16 v.data16 (c.data16.getD []) *
    (isSlice Kind.bool v.hasVec c.hasVec * isSlice Kind.f32 v.invNorms c.invNorms))

def colWith (a : ℕ) (v : ColHeader) (c : FlatVectorCol) : Assertion Elem :=
  .given (v.dim = c.dim ∧ v.data16.isSome = c.data16.isSome) (.array Kind.col a [v] * colBody v c)

def colAt (a : ℕ) (c : FlatVectorCol) : Assertion Elem := .ex fun v => colWith a v c

def indexAt : Option ℕ → (String → Option ℕ) → Assertion Elem
  | none, _ => .given False 1
  | some a, f => .ex fun m : GoMap ℕ => .given (∀ id, m.lookup id = f id) (.array Kind.index a [m])

/-- A map of the table and what its values refer to. `put` makes it an object. -/
def mapAt {V β : Type} (k : Kind) (put : GoMap V → Elem k) (P : V → β → Assertion Elem) :
    Option ℕ → (String → Option β) → Assertion Elem
  | none, _ => .given False 1
  | some a, f => .ex fun m => .array k a [put m] * owns P m f

def vectorsAt : Option ℕ → (String → Option FlatVectorCol) → Assertion Elem :=
  mapAt Kind.vectors id colAt

def attrsAt : Option ℕ → (String → Option (List (Option AttributeValue))) → Assertion Elem :=
  mapAt Kind.attrs id (isSlice (E := Elem) Kind.attr)

def tableBody (h : TableHeader) (t : Table) : Assertion Elem :=
  isSlice Kind.string h.docIDs t.docIDs * (isSlice Kind.bool h.tombstones t.tombstones *
    (indexAt h.index t.index * (vectorsAt h.vectors t.vectors * attrsAt h.attrs t.attrs)))

def tableWith (p : ℕ) (h : TableHeader) (t : Table) : Assertion Elem :=
  .given (h.numRows = t.numRows ∧ h.kernels = t.kernels) (.array Kind.table p [h] * tableBody h t)

/-- The pointer refers to the table. -/
def tableAt (p : ℕ) (t : Table) : Assertion Elem := .ex fun h => tableWith p h t

end Representation

section Columns
variable {R : HeapLogic.View Elem} {W : HeapLogic.View Elem} {a : ℕ} {v : ColHeader}
  {c : FlatVectorCol} {is16 : Bool} {n row : ℕ} {sv : StagedVector}

lemma colWith_load (h : colWith a v c W) : (loadCol a).result W = some v := by
  have ha : W Kind.col a = some [v] := Assertion.left_of_mul h.2
  rw [loadCol, Prog.result_read, ha]
  rfl

/-- A step on one slice of a column. -/
lemma onBody {P Q G : Assertion Elem} {c' : FlatVectorCol} {p : Cmd Unit} (hp : Triple R P p fun _ => Q)
    (hP : colBody v c = P * G) (hQ : colBody v c' = Q * G) (hdim : c'.dim = c.dim)
    (h16 : c'.data16.isSome = c.data16.isSome) :
    Triple R (colWith a v c) p fun _ => colWith a v c' := by
  refine Triple.of_given fun hv => ?_
  have hpre : Assertion.array Kind.col a [v] * colBody v c =
      P * (G * .array Kind.col a [v]) := by
    rw [hP]
    ac_rfl
  have hpost : Assertion.array Kind.col a [v] * colBody v c' =
      Q * (G * .array Kind.col a [v]) := by
    rw [hQ]
    ac_rfl
  refine (hp.frame _).conseq (le_of_eq hpre) fun _ W hW => ⟨?_, ?_⟩
  · rw [hdim, h16]
    exact hv
  · rwa [hpost]

lemma setHasVec (b : Bool) (hr : row < c.hasVec.length) :
    Triple R (colWith a v c) (.setIndex Kind.bool v.hasVec row b) fun _ =>
      colWith a v { c with hasVec := c.hasVec.set row b } := by
  refine onBody (G := isSlice Kind.f32 v.data c.data * (isSlice Kind.f16 v.data16 (c.data16.getD []) *
    isSlice Kind.f32 v.invNorms c.invNorms)) (Triple.setIndex (E := Elem) (k := Kind.bool) (l := c.hasVec) b hr) ?_ ?_ rfl rfl <;>
    simp only [colBody] <;> ac_rfl

lemma setInvNorm (x : F32) (hr : row < c.invNorms.length) :
    Triple R (colWith a v c) (.setIndex Kind.f32 v.invNorms row x) fun _ =>
      colWith a v { c with invNorms := c.invNorms.set row x } := by
  refine onBody (G := isSlice Kind.f32 v.data c.data * (isSlice Kind.f16 v.data16 (c.data16.getD []) *
    isSlice Kind.bool v.hasVec c.hasVec)) (Triple.setIndex (E := Elem) (k := Kind.f32) (l := c.invNorms) x hr) ?_ ?_ rfl rfl <;>
    simp only [colBody] <;> ac_rfl

lemma clearRow_spec (hc : c.WF is16 n) (hr : row < n) :
    Triple R (colAt a c) (clearRow row a) fun _ => colAt a (c.clearRow row) := by
  refine Triple.of_ex fun v => ?_
  refine Triple.bind_read (fun W hW => colWith_load hW) ?_
  refine Triple.bind (setHasVec false (by rw [hc.hasVec]; exact hr)) fun _ => ?_
  refine (setInvNorm F32.zero (by rw [hc.invNorms]; exact hr)).post fun _ W hW => ⟨v, hW⟩

lemma copyVector_spec (hc : c.WF is16 n) (hr : row < n) (hf : sv.Fits is16 c.dim) (hd : v.dim = c.dim) :
    Triple R (colWith a v c) (copyVector row is16 v sv) fun _ =>
      colWith a v { c with
        data := if is16 then c.data else copyAt c.data (row * c.dim) sv.values
        data16 := if is16 then c.data16.map fun d => copyAt d (row * c.dim) sv.data16
          else c.data16 } := by
  have hb := row_bound c.dim hr
  unfold copyVector
  rw [hd]
  cases is16 with
  | true =>
    obtain ⟨d, hd16, hlen⟩ := hc.data16 rfl
    refine onBody (G := isSlice Kind.f32 v.data c.data * (isSlice Kind.bool v.hasVec c.hasVec *
      isSlice Kind.f32 v.invNorms c.invNorms))
      (Triple.copyInto (k := Kind.f16) (l := d) (by rw [hlen]; exact hb) (hf.data16 rfl)) ?_ ?_ rfl
      (by simp [hd16]) <;>
      simp only [colBody, hd16, if_true, Option.map_some, Option.getD_some] <;> ac_rfl
  | false =>
    obtain ⟨-, hlen⟩ := hc.data rfl
    refine onBody (G := isSlice Kind.f16 v.data16 (c.data16.getD []) *
      (isSlice Kind.bool v.hasVec c.hasVec * isSlice Kind.f32 v.invNorms c.invNorms))
      (Triple.copyInto (k := Kind.f32) (l := c.data) (by rw [hlen]; exact hb) hf.values) rfl ?_ rfl
      rfl
    simp only [colBody, Bool.false_eq_true, if_false]

lemma setRow_spec (hc : c.WF is16 n) (hr : row < n) (hf : sv.Fits is16 c.dim) :
    Triple R (colAt a c) (setRow row is16 a sv) fun _ => colAt a (c.setRow is16 row sv) := by
  refine Triple.of_ex fun v => ?_
  refine Triple.bind_read (fun W hW => colWith_load hW) ?_
  refine Triple.assuming (fun _ hW => hW.1) fun hv => ?_
  refine Triple.bind (copyVector_spec hc hr hf hv.1) fun _ => ?_
  refine Triple.bind (setHasVec true (by rw [hc.hasVec]; exact hr)) fun _ => ?_
  exact (setInvNorm sv.invNorm (by rw [hc.invNorms]; exact hr)).post fun _ W hW => ⟨v, hW⟩

/-- A step that replaces one slice in the header of a column. -/
lemma onHeader {P G : Assertion Elem} {Q : Option Slice → Assertion Elem} {c' : FlatVectorCol}
    {p : Cmd (Option Slice)} (v' : Option Slice → ColHeader) (hp : Triple R P p Q)
    (hP : colBody v c = P * G) (hQ : ∀ s, Q s * G ≤ .given
      ((v' s).dim = c'.dim ∧ (v' s).data16.isSome = c'.data16.isSome) (colBody (v' s) c')) :
    Triple R (colWith a v c) (do
      let s ← p
      saveCol a (v' s)
      .ret (v' s)) fun w => colWith a w c' := by
  refine Triple.of_given fun hv => ?_
  have hpre : Assertion.array Kind.col a [v] * colBody v c =
      P * (G * .array Kind.col a [v]) := by
    rw [hP]
    ac_rfl
  refine Triple.bind ((hp.frame _).pre (le_of_eq hpre)) fun s => ?_
  have hmid : Q s * (G * .array Kind.col a [v]) = .array Kind.col a [v] * (Q s * G) := by ac_rfl
  rw [hmid]
  refine Triple.bind ((Triple.write (k := Kind.col) (l := [v]) (v' s) (by simp)).frame (Q s * G))
    fun _ => Triple.ret fun W hW => ?_
  obtain ⟨S, ha, hQG⟩ := hW
  obtain ⟨hok, hbody⟩ := hQ s _ hQG
  exact ⟨hok, S, ha, hbody⟩

lemma pushVector_spec (grow : Kind → ℕ → ℕ → ℕ) (hc : c.WF is16 n) (o : Option StagedVector) :
    Triple R (colWith a v c) (pushVector grow is16 a v o) fun w =>
      colWith a w { c with
        data := (c.pushRow is16 o).data
        data16 := (c.pushRow is16 o).data16 } := by
  refine Triple.assuming (fun _ hW => hW.1) fun hv => ?_
  unfold pushVector
  cases is16 with
  | true =>
    obtain ⟨d, hd16, -⟩ := hc.data16 rfl
    rw [if_pos rfl]
    refine onHeader (G := isSlice Kind.f32 v.data c.data * (isSlice Kind.bool v.hasVec c.hasVec *
      isSlice Kind.f32 v.invNorms c.invNorms)) (fun s => { v with data16 := s })
      (Triple.append (E := Elem) (k := Kind.f16) _ _ v.data16 d _) ?_ ?_
    · simp only [colBody, hd16, Option.getD_some]
      ac_rfl
    · intro s W hW
      rw [Assertion.given_mul] at hW
      obtain ⟨hs, hW⟩ := hW
      have hsome : v.data16.isSome = true := by rw [hv.2, hd16]; rfl
      refine ⟨⟨hv.1, ?_⟩, ?_⟩
      · simp [FlatVectorCol.pushRow, hd16, hs hsome]
      · simp only [colBody, FlatVectorCol.pushRow, hd16, if_true, Option.map_some, Option.getD_some,
          ← hv.1]
        convert hW using 1
        ac_rfl
  | false =>
    obtain ⟨hd16, -⟩ := hc.data rfl
    rw [if_neg Bool.false_ne_true]
    refine onHeader (G := isSlice Kind.f16 v.data16 (c.data16.getD []) *
      (isSlice Kind.bool v.hasVec c.hasVec * isSlice Kind.f32 v.invNorms c.invNorms))
      (fun s => { v with data := s })
      (Triple.append (E := Elem) (k := Kind.f32) _ _ v.data c.data _) rfl ?_
    intro s W hW
    rw [Assertion.given_mul] at hW
    refine ⟨hv, ?_⟩
    simp only [colBody, FlatVectorCol.pushRow, Bool.false_eq_true, if_false, ← hv.1]
    exact hW.2

lemma pushHasVec_spec (grow : Kind → ℕ → ℕ → ℕ) (o : Option StagedVector) :
    Triple R (colWith a v c) (pushHasVec grow a v o) fun w =>
      colWith a w { c with hasVec := c.hasVec ++ [o.isSome] } := by
  refine Triple.assuming (fun _ hW => hW.1) fun hv => ?_
  refine onHeader (G := isSlice Kind.f32 v.data c.data * (isSlice Kind.f16 v.data16 (c.data16.getD []) *
    isSlice Kind.f32 v.invNorms c.invNorms)) (fun s => { v with hasVec := s })
    (Triple.append (E := Elem) (k := Kind.bool) _ _ v.hasVec c.hasVec _) ?_ ?_
  · simp only [colBody]
    ac_rfl
  · intro s W hW
    rw [Assertion.given_mul] at hW
    refine ⟨hv, ?_⟩
    convert hW.2 using 1
    simp only [colBody]
    ac_rfl

lemma pushInvNorm_spec (grow : Kind → ℕ → ℕ → ℕ) (o : Option StagedVector) :
    Triple R (colWith a v c) (pushInvNorm grow a v o) fun w =>
      colWith a w { c with invNorms := c.invNorms ++ [(o.map StagedVector.invNorm).getD F32.zero] } := by
  refine Triple.assuming (fun _ hW => hW.1) fun hv => ?_
  refine onHeader (G := isSlice Kind.f32 v.data c.data * (isSlice Kind.f16 v.data16 (c.data16.getD []) *
    isSlice Kind.bool v.hasVec c.hasVec)) (fun s => { v with invNorms := s })
    (Triple.append (E := Elem) (k := Kind.f32) _ _ v.invNorms c.invNorms _) ?_ ?_
  · simp only [colBody]
    ac_rfl
  · intro s W hW
    rw [Assertion.given_mul] at hW
    refine ⟨hv, ?_⟩
    convert hW.2 using 1
    simp only [colBody]
    ac_rfl

lemma pushRow_spec (grow : Kind → ℕ → ℕ → ℕ) (hc : c.WF is16 n) (o : Option StagedVector) :
    Triple R (colAt a c) (pushRow grow is16 a o) fun _ => colAt a (c.pushRow is16 o) := by
  refine Triple.of_ex fun v => ?_
  refine Triple.bind_read (fun W hW => colWith_load hW) ?_
  refine Triple.bind (pushVector_spec grow hc o) fun v => ?_
  refine Triple.bind (pushHasVec_spec grow o) fun v => ?_
  exact Triple.bind (pushInvNorm_spec grow o) fun v => Triple.ret fun W hW => ⟨v, hW⟩

lemma newHeader_spec (hv : v.dim = c.dim ∧ v.data16.isSome = c.data16.isSome) :
    Triple R (colBody v c) (.new Kind.col [v]) fun a => colAt a c :=
  ((Triple.new (E := Elem) Kind.col [v]).also _).post fun _ _ hW => ⟨v, hv, hW⟩

lemma newCol_spec (n dim : ℕ) (is16 : Bool) :
    Triple R 1 (newCol n dim is16) fun a => colAt a (newVectorCol is16 n dim) := by
  refine Triple.bind (Triple.make (E := Elem) (k := Kind.bool) n false) fun hasVec => ?_
  refine Triple.of_given fun _ => ?_
  refine Triple.bind ((Triple.make (E := Elem) (k := Kind.f32) n F32.zero).also _) fun invNorms => ?_
  rw [Assertion.given_mul]
  refine Triple.of_given fun _ => ?_
  cases is16 with
  | true =>
    refine Triple.bind ((Triple.make (E := Elem) (k := Kind.f16) (n * dim) 0).also _) fun data16 => ?_
    rw [Assertion.given_mul]
    refine Triple.of_given fun hs => ?_
    refine (newHeader_spec (c := newVectorCol true n dim) ⟨rfl, hs⟩).pre (le_of_eq ?_)
    simp only [colBody, newVectorCol, if_true, Option.getD_some, isSlice_nil, one_mul]
    ac_rfl
  | false =>
    refine Triple.bind ((Triple.make (E := Elem) (k := Kind.f32) (n * dim) F32.zero).also _)
      fun data => ?_
    rw [Assertion.given_mul]
    refine Triple.of_given fun _ => ?_
    refine (newHeader_spec (c := newVectorCol false n dim) ⟨rfl, rfl⟩).pre (le_of_eq ?_)
    simp only [colBody, newVectorCol, Bool.false_eq_true, if_false, Option.getD_none, isSlice_nil,
      one_mul]
    ac_rfl

/-- A copy of a column has arrays of its own. -/
lemma cloneCol_spec (grow : Kind → ℕ → ℕ → ℕ) (hR : colWith a v c R) :
    Triple R 1 (cloneCol grow v) fun a' => colAt a' c := by
  obtain ⟨⟨hdim, h16⟩, hbody⟩ := hR
  have hbody := Assertion.right_of_mul hbody
  have h₁ := Assertion.right_of_mul hbody
  have h₂ := Assertion.right_of_mul h₁
  refine Triple.bind (Triple.clone (E := Elem) (k := Kind.f32) _ _ (Assertion.left_of_mul hbody))
    fun data => ?_
  refine Triple.of_given fun _ => ?_
  refine Triple.bind ((Triple.clone (E := Elem) (k := Kind.f16) _ _ (Assertion.left_of_mul h₁)).also _)
    fun data16 => ?_
  rw [Assertion.given_mul]
  refine Triple.of_given fun hs => ?_
  refine Triple.bind ((Triple.clone (E := Elem) (k := Kind.bool) _ _ (Assertion.left_of_mul h₂)).also _)
    fun hasVec => ?_
  rw [Assertion.given_mul]
  refine Triple.of_given fun _ => ?_
  refine Triple.bind ((Triple.clone (E := Elem) (k := Kind.f32) _ _ (Assertion.right_of_mul h₂)).also _)
    fun invNorms => ?_
  rw [Assertion.given_mul]
  refine Triple.of_given fun _ => ?_
  refine (newHeader_spec (v := ⟨v.dim, data, data16, hasVec, invNorms⟩) ⟨hdim, hs.trans h16⟩).pre
    (le_of_eq ?_)
  simp only [colBody]
  ac_rfl

end Columns

section Attributes
variable {R : HeapLogic.View Elem} {s : Option Slice} {l : List (Option AttributeValue)}

/-- The copy of an attribute column up to the elements `is` that are left. -/
def cloned (newCol : Option Slice) (l : List (Option AttributeValue)) (is : List ℕ) :
    Assertion Elem :=
  .given (is.length ≤ l.length ∧ is = List.range' (l.length - is.length) is.length)
    (isSlice Kind.attr newCol
      (l.take (l.length - is.length) ++ List.replicate is.length none))

lemma cloneAttrs_spec (hR : isSlice Kind.attr s l R) :
    Triple R 1 (cloneAttrs s) fun s' => isSlice Kind.attr s' l := by
  have hlen : len s = l.length := isSlice_length hR
  unfold cloneAttrs
  rw [hlen]
  refine Triple.bind (Triple.make (E := Elem) (k := Kind.attr) l.length none) fun newCol => ?_
  refine Triple.of_given fun _ => ?_
  refine Triple.bind ((Triple.forEach_inv (I := cloned newCol l) ?_ (List.range l.length)).pre ?_)
    fun _ => Triple.ret ?_
  · intro i is
    refine Triple.of_given fun hi => ?_
    rw [List.length_cons, List.range'_succ, List.cons.injEq] at hi
    obtain ⟨hle, rfl, his⟩ := hi
    have hlt : l.length - (is.length + 1) < l.length := by omega
    have hsucc : l.length - is.length = l.length - (is.length + 1) + 1 := by omega
    rw [← hsucc] at his
    refine Triple.bind_view (isSlice_index hR (List.getElem?_eq_getElem hlt)) ?_
    -- the element is nil already if nothing is stored
    have hstep : (l.take (l.length - (is.length + 1)) ++
          List.replicate (is.length + 1) (none : Option AttributeValue)).set
          (l.length - (is.length + 1)) l[l.length - (is.length + 1)] =
        l.take (l.length - is.length) ++ List.replicate is.length none := by
      rw [List.set_append_right _ _ (by rw [List.length_take]; omega), List.length_take,
        Nat.min_eq_left hlt.le, Nat.sub_self, List.replicate_succ, List.set_cons_zero, hsucc,
        List.take_add_one, List.getElem?_eq_getElem hlt, List.append_assoc]
      rfl
    split
    · refine (Triple.setIndex (E := Elem) (k := Kind.attr) _ ?_).post fun _ W hW => ⟨⟨by omega, his⟩, ?_⟩
      · rw [List.length_append, List.length_take, List.length_replicate, List.length_cons]
        omega
      · rw [List.length_cons, hstep] at hW
        exact hW
    · rename_i hnone
      refine Triple.ret fun W hW => ⟨⟨by omega, his⟩, ?_⟩
      rw [← hstep]
      have hx : l[l.length - (is.length + 1)] = none := by simpa using hnone
      rw [hx, List.set_append_right _ _ (by rw [List.length_take]; omega), List.length_take,
        Nat.min_eq_left hlt.le, Nat.sub_self, List.replicate_succ, List.set_cons_zero]
      exact hW
  · intro W hW
    refine ⟨⟨by simp, by simp [List.range_eq_range']⟩, ?_⟩
    simpa using hW
  · intro W hW
    simpa [cloned] using hW.2

end Attributes

end CloudyNeigh.Query.OnHeap
