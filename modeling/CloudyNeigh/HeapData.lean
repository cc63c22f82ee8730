import CloudyNeigh.Blocks
import CloudyNeigh.HeapLogic
import Mathlib.Data.List.AList

/-!
# Slices and maps on a heap

Slices as Go has them: an array, a length and a capacity, with an `append` that
writes into the array of its argument while there is room. What a slice stands for
is the first part of its array; the room behind it belongs to the slice too. A map
owns what its values refer to.
-/
namespace CloudyNeigh.HeapLogic
open Blocks

variable {κ : Type} {E : κ → Type}

section Slices

/-- The header of a slice that is not nil and begins with its array. -/
structure Slice where
  addr : ℕ
  len : ℕ
  cap : ℕ
  deriving DecidableEq, Repr

namespace Prog
variable (k : κ)

/-- `s[i]`. -/
def index : Option Slice → ℕ → Prog E (E k)
  | none, _ => .panic
  | some s, i => if i < s.len then .read k s.addr i else .panic

/-- `s[i] = v`. -/
def setIndex : Option Slice → ℕ → E k → Prog E Unit
  | none, _, _ => .panic
  | some s, i, v => if i < s.len then .write k s.addr i v else .panic

def writeAll (a : ℕ) : ℕ → List (E k) → Prog E Unit
  | _, [] => .ret ()
  | i, v :: vs => do
    .write k a i v
    writeAll a (i + 1) vs

/-- `make([]T, n)`. -/
def make (n : ℕ) (zero : E k) : Prog E (Option Slice) := do
  let a ← .new k (List.replicate n zero)
  .ret (some ⟨a, n, n⟩)

def elems : Option Slice → Prog E (List (E k))
  | none => .ret []
  | some s => .collect (List.range s.len) (.read k s.addr)

/-- The elements of `s[lo:hi]`. -/
def subElems (s : Option Slice) (lo hi : ℕ) : Prog E (List (E k)) :=
  match s with
  | none => if lo = 0 ∧ hi = 0 then .ret [] else .panic
  | some s =>
    if lo ≤ hi ∧ hi ≤ s.cap then .collect (List.range (hi - lo)) fun i => .read k s.addr (lo + i)
    else .panic

/-- `copy(s[lo:hi], vs)`. -/
def copyInto (s : Option Slice) (lo hi : ℕ) (vs : List (E k)) : Prog E Unit :=
  match s with
  | none => if lo = 0 ∧ hi = 0 then .ret () else .panic
  | some s =>
    if lo ≤ hi ∧ hi ≤ s.cap then writeAll k s.addr lo (vs.take (hi - lo)) else .panic

/-- An array for `vs` with room for `grow` more elements. -/
def grown (grow : ℕ) (zero : E k) (vs : List (E k)) : Prog E (Option Slice) := do
  let a ← .new k (vs ++ List.replicate grow zero)
  .ret (some ⟨a, vs.length, vs.length + grow⟩)

/-- `append(s, vs...)`; `grow` says how much room a new array gets for a capacity that
was too small and a length that is needed. -/
def append (grow : ℕ → ℕ → ℕ) (zero : E k) (s : Option Slice) (vs : List (E k)) :
    Prog E (Option Slice) :=
  if vs = [] then .ret s
  else
    match s with
    | none => grown k (grow 0 vs.length) zero vs
    | some s =>
      if s.len + vs.length ≤ s.cap then do
        writeAll k s.addr s.len vs
        .ret (some { s with len := s.len + vs.length })
      else do
        let old ← elems k (some s)
        grown k (grow s.cap (s.len + vs.length)) zero (old ++ vs)

/-- `slices.Clone`. -/
def clone (grow : ℕ → ℕ → ℕ) (zero : E k) : Option Slice → Prog E (Option Slice)
  | none => .ret none
  | some s => do
    let vs ← elems k (some s)
    grown k (grow 0 vs.length) zero vs

end Prog

/-- The slice has these elements, and owns its array. -/
def isSlice (k : κ) : Option Slice → List (E k) → Assertion E
  | none, l => .given (l = []) 1
  | some s, l => .ex fun rest : List (E k) =>
      .given (s.len = l.length ∧ s.cap = l.length + rest.length) (.array k s.addr (l ++ rest))

lemma isSlice_nil (k : κ) : isSlice k none ([] : List (E k)) = 1 := by
  ext V
  exact ⟨fun _ => trivial, fun _ => ⟨rfl, trivial⟩⟩

section Reading
variable {k : κ} {s : Option Slice} {l : List (E k)} {V : View E}

lemma isSlice_length (h : isSlice k s l V) : (s.map Slice.len).getD 0 = l.length := by
  cases s with
  | none =>
    obtain ⟨rfl, -⟩ := h
    rfl
  | some s =>
    obtain ⟨rest, ⟨hlen, -⟩, -⟩ := h
    exact hlen

lemma isSlice_index (h : isSlice k s l V) {i : ℕ} {v : E k} (hi : l[i]? = some v) :
    (Prog.index k s i).result V = some v := by
  have hlt : i < l.length := (List.getElem?_eq_some_iff.mp hi).1
  cases s with
  | none =>
    obtain ⟨rfl, -⟩ := h
    cases hi
  | some s =>
    obtain ⟨rest, ⟨hlen, -⟩, ha⟩ := h
    rw [Prog.index, if_pos (by omega), Prog.result_read, Assertion.array_holds.mp ha,
      Option.bind_some, List.getElem?_append_left hlt, hi]

lemma collect_read {a : ℕ} {l : List (E k)} (lo n : ℕ) (ha : V k a = some l) (hn : lo + n ≤ l.length) :
    (Prog.collect (List.range n) fun i => Prog.read k a (lo + i)).result V =
      some (slice l lo n) := by
  apply Prog.result_collect
  have hlen : (slice l lo n).length = n := by
    simp only [slice, List.length_take, List.length_drop]
    omega
  refine List.forall₂_iff_get.mpr ⟨by rw [List.length_range, hlen], ?_⟩
  intro i hi hi'
  have hget : l[lo + i]? = some ((slice l lo n).get ⟨i, hi'⟩) := by
    rw [List.get_eq_getElem, ← List.getElem?_eq_getElem hi', getElem?_slice, if_pos (by omega)]
  rw [List.get_eq_getElem, List.getElem_range, Prog.result_read, ha, Option.bind_some, hget]

lemma isSlice_subElems (h : isSlice k s l V) {lo n : ℕ} (hn : lo + n ≤ l.length) :
    (Prog.subElems k s lo (lo + n)).result V = some (slice l lo n) := by
  cases s with
  | none =>
    obtain ⟨rfl, -⟩ := h
    rw [List.length_nil] at hn
    obtain ⟨rfl, rfl⟩ : lo = 0 ∧ n = 0 := by omega
    rfl
  | some s =>
    obtain ⟨rest, ⟨hlen, hcap⟩, ha⟩ := h
    rw [Prog.subElems, if_pos ⟨by omega, by omega⟩, Nat.add_sub_cancel_left,
      collect_read _ _ (Assertion.array_holds.mp ha) (by rw [List.length_append]; omega), slice, slice,
      List.drop_append_of_le_length (by omega), List.take_append_of_le_length (by
        rw [List.length_drop]
        omega)]

lemma isSlice_elems (h : isSlice k s l V) : (Prog.elems k s).result V = some l := by
  cases s with
  | none =>
    obtain ⟨rfl, -⟩ := h
    rfl
  | some s =>
    obtain ⟨rest, ⟨hlen, hcap⟩, ha⟩ := h
    have hread := collect_read 0 s.len (Assertion.array_holds.mp ha)
      (by rw [List.length_append]; omega)
    simp only [Nat.zero_add] at hread
    rw [Prog.elems, hread, slice, List.drop_zero, hlen, List.take_left]

end Reading

lemma copyAt_cons {k : κ} {l : List (E k)} {i : ℕ} (v : E k) (vs : List (E k)) (hi : i < l.length) :
    copyAt (l.set i v) (i + 1) vs = copyAt l i (v :: vs) := by
  have htake : (l.set i v).take (i + 1) = l.take i ++ [v] := by
    rw [List.take_add_one, List.take_set_of_le le_rfl, List.getElem?_set_self hi]
    rfl
  unfold copyAt
  rw [htake, List.drop_set_of_lt (by omega), List.length_cons, List.append_assoc, List.append_assoc,
    List.append_assoc, Nat.add_assoc, Nat.add_comm 1]
  rfl

section Writing
variable [DecidableEq κ] {k : κ} {R : View E} {s : Option Slice} {l : List (E k)}

lemma Triple.writeAll {a i : ℕ} {l : List (E k)} {vs : List (E k)} (hi : i + vs.length ≤ l.length) :
    Triple R (.array k a l) (.writeAll k a i vs) fun _ => .array k a (copyAt l i vs) := by
  induction vs generalizing i l with
  | nil =>
    refine Triple.ret (le_of_eq ?_)
    rw [copyAt, List.append_nil, List.length_nil, Nat.add_zero, List.take_append_drop]
  | cons v vs ih =>
    rw [List.length_cons] at hi
    refine Triple.bind (Triple.write v (by omega)) fun _ => ?_
    rw [← copyAt_cons v vs (by omega)]
    exact ih (by rw [List.length_set]; omega)

lemma Triple.setIndex {i : ℕ} (v : E k) (hi : i < l.length) :
    Triple R (isSlice k s l) (.setIndex k s i v) fun _ => isSlice k s (l.set i v) := by
  cases s with
  | none =>
    refine Triple.of_given fun hl => ?_
    rw [hl] at hi
    cases hi
  | some s =>
    refine Triple.of_ex fun rest => Triple.of_given fun hs => ?_
    rw [Prog.setIndex, if_pos (by omega)]
    refine (Triple.write v (by rw [List.length_append]; omega)).post fun _ V hV => ?_
    rw [List.set_append_left _ _ hi] at hV
    exact ⟨rest, by rwa [List.length_set], hV⟩

lemma Triple.copyInto {lo n : ℕ} {vs : List (E k)} (hn : lo + n ≤ l.length) (hv : vs.length = n) :
    Triple R (isSlice k s l) (.copyInto k s lo (lo + n) vs) fun _ =>
      isSlice k s (copyAt l lo vs) := by
  cases s with
  | none =>
    refine Triple.of_given fun hl => ?_
    subst hl
    rw [List.length_nil] at hn
    obtain ⟨rfl, rfl⟩ : lo = 0 ∧ n = 0 := by omega
    rw [List.length_eq_zero_iff.mp hv]
    exact Triple.ret fun V _ => ⟨rfl, trivial⟩
  | some s =>
    refine Triple.of_ex fun rest => Triple.of_given fun hs => ?_
    rw [Prog.copyInto, if_pos ⟨by omega, by omega⟩, Nat.add_sub_cancel_left, ← hv, List.take_length]
    refine (Triple.writeAll (by rw [List.length_append]; omega)).post fun _ V hV => ?_
    have hcopy : copyAt (l ++ rest) lo vs = copyAt l lo vs ++ rest := by
      unfold copyAt
      rw [List.take_append_of_le_length (by omega), List.drop_append_of_le_length (by omega),
        List.append_assoc, List.append_assoc, List.append_assoc]
    rw [hcopy] at hV
    exact ⟨rest, by rwa [length_copyAt (by omega)], hV⟩

lemma Triple.make (n : ℕ) (zero : E k) :
    Triple R 1 (.make k n zero) fun s =>
      .given (s.isSome = true) (isSlice k s (List.replicate n zero)) := by
  refine Triple.bind (Triple.new k _) fun a => Triple.ret fun V hV => ⟨rfl, [], ?_, ?_⟩
  · simp
  · rwa [List.append_nil]

lemma Triple.grown (grow : ℕ) (zero : E k) (vs : List (E k)) :
    Triple R 1 (.grown k grow zero vs) fun s => .given (s.isSome = true) (isSlice k s vs) := by
  refine Triple.bind (Triple.new k _) fun a => Triple.ret fun V hV => ⟨rfl, _, ?_, hV⟩
  simp

/-- Whatever room the arrays have, `append` gives the elements of both arguments. -/
lemma Triple.append (grow : ℕ → ℕ → ℕ) (zero : E k) (s : Option Slice) (l vs : List (E k)) :
    Triple R (isSlice k s l) (.append k grow zero s vs) fun s' =>
      .given (s.isSome = true → s'.isSome = true) (isSlice k s' (l ++ vs)) := by
  unfold Prog.append
  split
  · rename_i hvs
    rw [hvs, List.append_nil]
    exact Triple.ret fun V hV => ⟨id, hV⟩
  · cases s with
    | none =>
      refine Triple.of_given fun hl => ?_
      rw [hl, List.nil_append]
      exact (Triple.grown _ zero vs).post fun s' V hV => ⟨fun _ => hV.1, hV.2⟩
    | some s =>
      by_cases hcap : s.len + vs.length ≤ s.cap
      · simp only [if_pos hcap]
        refine Triple.of_ex fun rest => Triple.of_given fun hs => ?_
        refine Triple.bind (Triple.writeAll (by rw [List.length_append]; omega)) fun _ =>
          Triple.ret fun V hV => ⟨fun _ => rfl, rest.drop vs.length, ?_, ?_⟩
        · simp only [List.length_append, List.length_drop]
          omega
        · have hcopy : copyAt (l ++ rest) s.len vs = l ++ vs ++ rest.drop vs.length := by
            rw [copyAt, hs.1, List.take_left, List.drop_length_add_append]
          rwa [hcopy] at hV
      · simp only [if_neg hcap]
        refine Triple.bind_read (fun V hV => isSlice_elems hV) ?_
        exact ((Triple.grown _ zero (l ++ vs)).pre (Assertion.le_one _)).post
          fun s' V hV => ⟨fun _ => hV.1, hV.2⟩

lemma Triple.clone (grow : ℕ → ℕ → ℕ) (zero : E k) (hR : isSlice k s l R) :
    Triple R 1 (.clone k grow zero s) fun s' =>
      .given (s'.isSome = s.isSome) (isSlice k s' l) := by
  cases s with
  | none => exact Triple.ret fun V _ => ⟨rfl, hR.1, trivial⟩
  | some s => exact Triple.bind_view (isSlice_elems hR) (Triple.grown _ zero l)

end Writing

end Slices

section Maps
variable {K V β : Type} [DecidableEq K]

/-- What a value that is there owns; nothing fits a value that is not. -/
def Assertion.get (P : β → Assertion E) : Option β → Assertion E
  | some b => P b
  | none => .given False 1

/-- The values of a map own what a function says of the keys. -/
def owns (P : V → β → Assertion E) (m : AList fun _ : K => V) (f : K → Option β) : Assertion E :=
  .given (∀ k, (m.lookup k).isSome = (f k).isSome)
    (m.entries.map fun e => Assertion.get (P e.2) (f e.1)).prod

variable {P : V → β → Assertion E} {m m' : AList fun _ : K => V} {f f' : K → Option β} {k : K} {v : V}
  {b : β}

lemma owns_perm (h : m.entries.Perm m'.entries) : owns P m f = owns P m' f := by
  unfold owns
  rw [(h.map _).prod_eq]
  simp only [AList.perm_lookup h]

lemma owns_insert (P : V → β → Assertion E) (m : AList fun _ : K => V) (f : K → Option β) (k : K)
    (v : V) (b : β) : owns P (m.insert k v) (Function.update f k (some b)) =
      P v b * owns P (m.erase k) (Function.update f k none) := by
  have hdom : (∀ k', ((m.insert k v).lookup k').isSome = (Function.update f k (some b) k').isSome) ↔
      ∀ k', ((m.erase k).lookup k').isSome = (Function.update f k none k').isSome := by
    refine forall_congr' fun k' => ?_
    by_cases hk : k' = k
    · subst hk
      simp
    · rw [AList.lookup_insert_ne hk, AList.lookup_erase_ne hk, Function.update_of_ne hk,
        Function.update_of_ne hk]
  have htail : ((m.erase k).entries.map fun e =>
        Assertion.get (P e.2) (Function.update f k (some b) e.1)) =
      (m.erase k).entries.map fun e => Assertion.get (P e.2) (Function.update f k none e.1) := by
    apply List.map_congr_left
    intro e he
    have hk : e.1 ≠ k := by
      intro hk
      have hmem : e.1 ∈ (m.erase k).keys := List.mem_map_of_mem he
      rw [hk] at hmem
      exact (AList.mem_erase.mp (AList.mem_keys.mpr hmem)).1 rfl
    rw [Function.update_of_ne hk, Function.update_of_ne hk]
  unfold owns
  rw [hdom, mul_comm (P v b), Assertion.given_mul, mul_comm _ (P v b), ← htail,
    AList.entries_insert, List.map_cons, List.prod_cons]
  simp only [Function.update_self]
  rfl

/-- What one key owns, apart from the rest. -/
lemma owns_at (hm : m.lookup k = some v) (hf : f k = some b) :
    owns P m f = P v b * owns P (m.erase k) (Function.update f k none) := by
  rw [← owns_insert, ← hf, Function.update_eq_self]
  apply owns_perm
  apply List.lookup_ext m.nodupKeys (m.insert k v).nodupKeys
  intro k' v'
  change v' ∈ m.lookup k' ↔ v' ∈ (m.insert k v).lookup k'
  by_cases hk : k' = k
  · subst hk
    rw [AList.lookup_insert, hm]
  · rw [AList.lookup_insert_ne hk]

lemma owns_insert_new (hm : m.lookup k = none) (hf : f k = none) (v : V) (b : β) :
    owns P (m.insert k v) (Function.update f k (some b)) = P v b * owns P m f := by
  have he : m.erase k = m :=
    AList.ext (List.kerase_of_notMem_keys (AList.lookup_eq_none.mp hm))
  rw [owns_insert, he, ← hf, Function.update_eq_self]

lemma owns_lookup {W : View E} (h : owns P m f W) (k : K) : (m.lookup k).isSome = (f k).isSome :=
  h.1 k

lemma owns_get {W : View E} (h : owns P m f W) (hm : m.lookup k = some v) :
    ∃ b, f k = some b ∧ P v b W := by
  obtain ⟨b, hf⟩ := Option.isSome_iff_exists.mp ((h.1 k).symm.trans (by rw [hm]; rfl))
  rw [owns_at hm hf] at h
  exact ⟨b, hf, Assertion.left_of_mul h⟩

lemma owns_empty (P : V → β → Assertion E) : owns P (∅ : AList fun _ : K => V) (fun _ => none) = 1 := by
  ext W
  exact ⟨fun _ => trivial, fun _ => ⟨fun _ => rfl, trivial⟩⟩

variable [DecidableEq κ] {R : View E} {ι : Type}

/-- A step on what one key owns. -/
lemma Triple.owns_step {p : Prog E Unit} {b' : β} (hm : m.lookup k = some v) (hf : f k = some b)
    (hp : Triple R (P v b) p fun _ => P v b') :
    Triple R (owns P m f) p fun _ => owns P m (Function.update f k (some b')) := by
  rw [owns_at hm hf, owns_at (f := Function.update f k (some b')) hm (Function.update_self ..),
    Function.update_idem]
  exact hp.frame _

/-- A loop that visits keys and settles each of them. -/
lemma Triple.forEach_keys {I : (K → Option β) → Assertion E} (key : ι → K)
    {body : ι → Prog E Unit} {l : List ι} (hn : (l.map key).Nodup)
    (hf : ∀ k, k ∉ l.map key → f k = f' k)
    (h : ∀ i ∈ l, ∀ g : K → Option β, g (key i) = f (key i) →
      Triple R (I g) (body i) fun _ => I (Function.update g (key i) (f' (key i)))) :
    Triple R (I f) (.forEach l body) fun _ => I f' := by
  induction l generalizing f with
  | nil => exact Triple.ret (le_of_eq (congrArg I (funext fun k => hf k List.not_mem_nil)))
  | cons i l ih =>
    rw [List.map_cons, List.nodup_cons] at hn
    refine Triple.bind (h i List.mem_cons_self f rfl) fun _ => ih hn.2 ?_ ?_
    · intro k hk
      by_cases hi : k = key i
      · rw [hi, Function.update_self]
      · rw [Function.update_of_ne hi]
        exact hf k (by simp [hi, hk])
    · intro j hj g hg
      have hne : key j ≠ key i := fun he => hn.1 (he ▸ List.mem_map_of_mem hj)
      rw [Function.update_of_ne hne] at hg
      exact h j (List.mem_cons_of_mem i hj) g hg

end Maps

end CloudyNeigh.HeapLogic
