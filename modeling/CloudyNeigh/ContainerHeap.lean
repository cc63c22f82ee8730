import Mathlib.Data.List.Basic
import Mathlib.Order.WithBot

/-!
# `container/heap` on a slice

The sift loops over an arbitrary element type and an arbitrary `less`. They only
exchange elements, so whatever `less` is, no element is invented or lost. Where
`less` is the order of a key on the elements of the slice, the loops keep the heap
order and the root has the least key.
-/
namespace CloudyNeigh.ContainerHeap

variable {α : Type*}

def swap (l : List α) (i j : ℕ) : List α :=
  match l[i]?, l[j]? with
  | some a, some b => (l.set i b).set j a
  | _, _ => l

/-- `less` of the elements at two positions; false outside of the slice. -/
def lessAt (less : α → α → Bool) (l : List α) (i j : ℕ) : Bool :=
  match l[i]?, l[j]? with
  | some a, some b => less a b
  | _, _ => false

def up (less : α → α → Bool) (l : List α) (j : ℕ) : List α :=
  let i := (j - 1) / 2
  if i ≠ j ∧ lessAt less l j i = true then up less (swap l i j) i else l
termination_by j
decreasing_by omega

def down (less : α → α → Bool) (l : List α) (i n : ℕ) : List α :=
  let j1 := 2 * i + 1
  if j1 < n then
    let j := if j1 + 1 < n ∧ lessAt less l (j1 + 1) j1 = true then j1 + 1 else j1
    if lessAt less l j i then down less (swap l i j) j n else l
  else l
termination_by n - i
decreasing_by
  split <;> omega

def push (less : α → α → Bool) (l : List α) (x : α) : List α := up less (l ++ [x]) l.length

/-- `heap.Fix(h, 0)`: the sift up from the root that follows an idle sift down does nothing. -/
def fixRoot (less : α → α → Bool) (l : List α) : List α := down less l 0 l.length

lemma swap_perm (l : List α) (i j : ℕ) : (swap l i j).Perm l := by
  unfold swap
  split
  · rename_i a b ha hb
    obtain ⟨hi, rfl⟩ := List.getElem?_eq_some_iff.mp ha
    obtain ⟨hj, rfl⟩ := List.getElem?_eq_some_iff.mp hb
    exact List.set_set_perm hi hj
  · exact List.Perm.refl l

lemma up_perm (less : α → α → Bool) (l : List α) (j : ℕ) : (up less l j).Perm l := by
  fun_induction up less l j with
  | case1 l j i h ih => exact ih.trans (swap_perm l i j)
  | case2 => exact List.Perm.refl _

lemma down_perm (less : α → α → Bool) (l : List α) (i n : ℕ) : (down less l i n).Perm l := by
  fun_induction down less l i n with
  | case1 l i j1 h j hl ih => exact ih.trans (swap_perm l i j)
  | case2 | case3 => exact List.Perm.refl _

lemma push_perm (less : α → α → Bool) (l : List α) (x : α) : (push less l x).Perm (l ++ [x]) :=
  up_perm less _ _

lemma fixRoot_perm (less : α → α → Bool) (l : List α) : (fixRoot less l).Perm l :=
  down_perm less l 0 _

section Ranks
variable {γ : Type*} {key : α → γ} {l : List α} {i j : ℕ}

/-- The key at a position; a position outside of the slice is above every key. -/
def rankAt (key : α → γ) (l : List α) (i : ℕ) : WithTop γ :=
  match l[i]? with
  | some a => (key a : WithTop γ)
  | none => ⊤

lemma rankAt_of_lt (h : i < l.length) : rankAt key l i = (key l[i] : WithTop γ) := by
  simp [rankAt, h]

lemma rankAt_of_le (h : l.length ≤ i) : rankAt key l i = ⊤ := by
  simp [rankAt, h]

lemma rankAt_swap (hi : i < l.length) (hj : j < l.length) (m : ℕ) :
    rankAt key (swap l i j) m =
      if m = j then rankAt key l i else if m = i then rankAt key l j else rankAt key l m := by
  have hs : swap l i j = (l.set i l[j]).set j l[i] := by simp [swap, hi, hj]
  rw [hs]
  unfold rankAt
  by_cases hmj : m = j
  · subst hmj
    simp [hi, hj]
  · by_cases hmi : m = i
    · subst hmi
      simp [hmj, Ne.symm hmj, hi, hj]
    · simp [hmj, hmi, Ne.symm hmj, Ne.symm hmi]

end Ranks

section Order
variable {γ : Type*} [LinearOrder γ] {less : α → α → Bool} {key : α → γ} {l : List α} {i j : ℕ}

/-- `less` compares the keys of the elements of `l`. -/
def Sorts (less : α → α → Bool) (key : α → γ) (l : List α) : Prop :=
  ∀ a ∈ l, ∀ b ∈ l, less a b = true ↔ key a < key b

/-- No element is below its parent. -/
def Ordered (key : α → γ) (l : List α) : Prop :=
  ∀ i, 0 < i → rankAt key l ((i - 1) / 2) ≤ rankAt key l i

lemma Sorts.perm {l' : List α} (h : Sorts less key l) (hp : l'.Perm l) : Sorts less key l' :=
  fun a ha b hb => h a (hp.mem_iff.mp ha) b (hp.mem_iff.mp hb)

lemma Sorts.lessAt (h : Sorts less key l) (hi : i < l.length) (hj : j < l.length) :
    lessAt less l i j = true ↔ rankAt key l i < rankAt key l j := by
  rw [rankAt_of_lt hi, rankAt_of_lt hj, WithTop.coe_lt_coe, ← h _ (List.getElem_mem hi) _
    (List.getElem_mem hj)]
  simp [ContainerHeap.lessAt, hi, hj]

/-- Only the element at `j` may be below its parent; its children are above that parent. -/
structure UpOrder (key : α → γ) (l : List α) (j : ℕ) : Prop where
  pair : ∀ i, 0 < i → i ≠ j → rankAt key l ((i - 1) / 2) ≤ rankAt key l i
  grand : 0 < j → ∀ c, 0 < c → (c - 1) / 2 = j → rankAt key l ((j - 1) / 2) ≤ rankAt key l c

lemma UpOrder.move (h : UpOrder key l j) (hj : 0 < j) (hlen : j < l.length)
    (hlt : rankAt key l j < rankAt key l ((j - 1) / 2)) :
    UpOrder key (swap l ((j - 1) / 2) j) ((j - 1) / 2) := by
  have hi : (j - 1) / 2 < l.length := by omega
  constructor
  · intro m hm hne
    rw [rankAt_swap hi hlen, rankAt_swap hi hlen]
    by_cases hmj : m = j
    · subst hmj
      rw [if_pos rfl, if_neg (by omega), if_pos rfl]
      exact hlt.le
    · rw [if_neg hmj, if_neg hne]
      by_cases hpj : (m - 1) / 2 = j
      · rw [if_pos hpj]
        exact h.grand hj m hm hpj
      · rw [if_neg hpj]
        have hpair := h.pair m hm hmj
        by_cases hpi : (m - 1) / 2 = (j - 1) / 2
        · rw [if_pos hpi]
          rw [hpi] at hpair
          exact hlt.le.trans hpair
        · rw [if_neg hpi]
          exact hpair
  · intro hpos c hc hci
    have hup := h.pair ((j - 1) / 2) hpos (by omega)
    rw [rankAt_swap hi hlen, rankAt_swap hi hlen, if_neg (by omega), if_neg (by omega)]
    by_cases hcj : c = j
    · rw [if_pos hcj]
      exact hup
    · rw [if_neg hcj, if_neg (by omega)]
      have hpair := h.pair c hc hcj
      rw [hci] at hpair
      exact hup.trans hpair

lemma up_ordered (h : UpOrder key l j) (hs : Sorts less key l) (hj : j < l.length) :
    Ordered key (up less l j) := by
  fun_induction up less l j with
  | case1 l j i hcond ih =>
    obtain ⟨hne, hless⟩ := hcond
    have hpos : 0 < j := by omega
    have hi : i < l.length := by omega
    apply ih
    · exact h.move hpos hj ((hs.lessAt hj hi).mp hless)
    · exact hs.perm (swap_perm l i j)
    · rw [(swap_perm l i j).length_eq]
      exact hi
  | case2 l j i hcond =>
    intro m hm
    by_cases hmj : m = j
    · subst hmj
      have hi : i < l.length := by omega
      have hnot : ¬rankAt key l m < rankAt key l i := by
        rw [← hs.lessAt hj hi]
        exact fun hless => hcond ⟨by omega, hless⟩
      exact not_lt.mp hnot
    · exact h.pair m hm hmj

lemma push_ordered {x : α} (h : Ordered key l) (hs : Sorts less key (l ++ [x])) :
    Ordered key (push less l x) := by
  apply up_ordered _ hs (by simp)
  have hold : ∀ i, i ≠ l.length → rankAt key (l ++ [x]) i = rankAt key l i := by
    intro i hi
    unfold rankAt
    rcases Nat.lt_or_gt_of_ne hi with hlt | hgt
    · rw [List.getElem?_append_left hlt]
    · rw [List.getElem?_eq_none (by simp; omega), List.getElem?_eq_none (by omega)]
  constructor
  · intro i hi hne
    rw [hold i hne]
    by_cases hp : (i - 1) / 2 = l.length
    · rw [rankAt_of_le (by omega : l.length ≤ i)]
      exact le_top
    · rw [hold _ hp]
      exact h i hi
  · intro _ c hc hcj
    rw [rankAt_of_le (by simp; omega : (l ++ [x]).length ≤ c)]
    exact le_top

/-- Only the children of `i` may be below it; they are above the parent of `i`. -/
structure DownOrder (key : α → γ) (l : List α) (i : ℕ) : Prop where
  pair : ∀ m, 0 < m → (m - 1) / 2 ≠ i → rankAt key l ((m - 1) / 2) ≤ rankAt key l m
  grand : 0 < i → ∀ c, 0 < c → (c - 1) / 2 = i → rankAt key l ((i - 1) / 2) ≤ rankAt key l c

lemma DownOrder.move (h : DownOrder key l i) (hj : (j - 1) / 2 = i) (hpos : 0 < j)
    (hlen : j < l.length) (hlt : rankAt key l j < rankAt key l i)
    (hmin : ∀ c, 0 < c → (c - 1) / 2 = i → rankAt key l j ≤ rankAt key l c) :
    DownOrder key (swap l i j) j := by
  have hi : i < l.length := by omega
  constructor
  · intro m hm hne
    rw [rankAt_swap hi hlen, rankAt_swap hi hlen, if_neg hne]
    by_cases hmj : m = j
    · subst hmj
      rw [if_pos hj, if_pos rfl]
      exact hlt.le
    · rw [if_neg hmj]
      by_cases hpi : (m - 1) / 2 = i
      · rw [if_pos hpi, if_neg (by omega)]
        exact hmin m hm hpi
      · rw [if_neg hpi]
        by_cases hmi : m = i
        · subst hmi
          rw [if_pos rfl]
          exact h.grand hm j hpos hj
        · rw [if_neg hmi]
          exact h.pair m hm hpi
  · intro _ c hc hcj
    rw [rankAt_swap hi hlen, rankAt_swap hi hlen, hj, if_neg (by omega), if_pos rfl,
      if_neg (by omega), if_neg (by omega)]
    have hpair := h.pair c hc (by omega)
    rwa [hcj] at hpair

lemma down_ordered {n : ℕ} (h : DownOrder key l i) (hs : Sorts less key l) (hn : l.length = n) :
    Ordered key (down less l i n) := by
  -- the child that the loop picks has the least key among the children
  have hpick : ∀ (l : List α) (i : ℕ), Sorts less key l → l.length = n → 2 * i + 1 < n →
      ∀ c, 0 < c → (c - 1) / 2 = i →
        rankAt key l (if 2 * i + 1 + 1 < n ∧ lessAt less l (2 * i + 1 + 1) (2 * i + 1) = true
          then 2 * i + 1 + 1 else 2 * i + 1) ≤ rankAt key l c := by
    intro l i hs hn hj1 c hc hci
    have hcases : c = 2 * i + 1 ∨ c = 2 * i + 1 + 1 := by omega
    by_cases hr : 2 * i + 1 + 1 < n
    · have hless := hs.lessAt (i := 2 * i + 1 + 1) (j := 2 * i + 1) (by omega) (by omega)
      split
      · rename_i hcond
        rcases hcases with rfl | rfl
        · exact (hless.mp hcond.2).le
        · exact le_refl _
      · rename_i hcond
        rcases hcases with rfl | rfl
        · exact le_refl _
        · exact not_lt.mp fun hlt => hcond ⟨hr, hless.mpr hlt⟩
    · rw [if_neg (by omega)]
      rcases hcases with rfl | rfl
      · exact le_refl _
      · rw [rankAt_of_le (by omega : l.length ≤ 2 * i + 1 + 1)]
        exact le_top
  fun_induction down less l i n with
  | case1 l i j1 hj1 j hless ih =>
    have hjlt : j < l.length := by
      simp only [j]
      split <;> omega
    have hpar : (j - 1) / 2 = i := by
      simp only [j]
      split <;> omega
    have hpos : 0 < j := by
      simp only [j]
      split <;> omega
    apply ih
    · exact h.move hpar hpos hjlt ((hs.lessAt hjlt (by omega)).mp hless) (hpick l i hs hn hj1)
    · exact hs.perm (swap_perm l i j)
    · rw [(swap_perm l i j).length_eq, hn]
  | case2 l i j1 hj1 j hless =>
    have hjlt : j < l.length := by
      simp only [j]
      split <;> omega
    intro m hm
    by_cases hp : (m - 1) / 2 = i
    · have hnot : ¬rankAt key l j < rankAt key l i := by
        rw [← hs.lessAt hjlt (by omega)]
        exact hless
      rw [hp]
      exact (not_lt.mp hnot).trans (hpick l i hs hn hj1 m hm hp)
    · exact h.pair m hm hp
  | case3 l i j1 hj1 =>
    intro m hm
    by_cases hp : (m - 1) / 2 = i
    · rw [rankAt_of_le (by omega : l.length ≤ m)]
      exact le_top
    · exact h.pair m hm hp

/-- Replacing the root of a heap and sifting it down gives a heap. -/
lemma fixRoot_ordered {x y : α} (h : Ordered key (x :: l)) (hs : Sorts less key (y :: l)) :
    Ordered key (fixRoot less (y :: l)) := by
  apply down_ordered _ hs rfl
  constructor
  · intro m hm hne
    have hsame : ∀ i, i ≠ 0 → rankAt key (y :: l) i = rankAt key (x :: l) i := by
      intro i hi
      obtain ⟨i, rfl⟩ := Nat.exists_eq_succ_of_ne_zero hi
      rfl
    rw [hsame _ hne, hsame _ (by omega)]
    exact h m hm
  · intro hpos
    omega

/-- The root of a heap has the least key. -/
lemma Ordered.root_le {x a : α} (h : Ordered key (x :: l)) (ha : a ∈ x :: l) : key x ≤ key a := by
  have hroot : ∀ i, rankAt key (x :: l) 0 ≤ rankAt key (x :: l) i := by
    intro i
    induction i using Nat.strong_induction_on with
    | _ i ih =>
      rcases Nat.eq_zero_or_pos i with rfl | hpos
      · exact le_refl _
      · exact (ih _ (by omega)).trans (h i hpos)
  obtain ⟨i, hi, rfl⟩ := List.mem_iff_getElem.mp ha
  have hle := hroot i
  rw [rankAt_of_lt hi, rankAt_of_lt (by simp)] at hle
  exact WithTop.coe_le_coe.mp hle

end Order

example : push (fun a b => decide (b < a)) [7, 5, 3] 9 = [9, 7, 3, 5] := by decide +kernel

end CloudyNeigh.ContainerHeap
