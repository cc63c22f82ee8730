import Mathlib.Data.List.Basic

/-!
# Lists as rows of equal width

A flat list of `n * dim` elements read and written in blocks of `dim`.
-/
namespace CloudyNeigh.Blocks

variable {α : Type*}

def slice (l : List α) (offset len : ℕ) : List α := (l.drop offset).take len

/-- Overwrite the elements from `offset` on. -/
def copyAt (dst : List α) (offset : ℕ) (src : List α) : List α :=
  dst.take offset ++ src ++ dst.drop (offset + src.length)

lemma getElem?_slice (l : List α) (offset len i : ℕ) :
    (slice l offset len)[i]? = if i < len then l[offset + i]? else none := by
  simp [slice, List.getElem?_take]

lemma length_copyAt {dst src : List α} {offset : ℕ} (h : offset + src.length ≤ dst.length) :
    (copyAt dst offset src).length = dst.length := by
  simp only [copyAt, List.length_append, List.length_take, List.length_drop]
  omega

lemma getElem?_copyAt {dst src : List α} {offset : ℕ} (h : offset + src.length ≤ dst.length)
    (i : ℕ) : (copyAt dst offset src)[i]? =
      if offset ≤ i ∧ i < offset + src.length then src[i - offset]? else dst[i]? := by
  have hlen : (dst.take offset).length = offset := by
    rw [List.length_take]
    omega
  unfold copyAt
  by_cases hlow : i < offset
  · rw [if_neg (by omega), List.append_assoc, List.getElem?_append_left (by omega),
      List.getElem?_take, if_pos hlow]
  · by_cases hmid : i < offset + src.length
    · rw [if_pos ⟨by omega, hmid⟩, List.getElem?_append_left (by simp only [List.length_append]; omega),
        List.getElem?_append_right (by omega), hlen]
    · rw [if_neg (by omega), List.getElem?_append_right (by simp only [List.length_append]; omega),
        List.getElem?_drop, List.length_append, hlen]
      congr 1
      omega

/-- Two different rows do not overlap. -/
lemma row_disjoint {dim row row' i : ℕ} (hi : i < dim) (hne : row' ≠ row) :
    ¬ (row * dim ≤ row' * dim + i ∧ row' * dim + i < row * dim + dim) := by
  rcases Nat.lt_or_gt_of_ne hne with hlt | hgt
  · have := Nat.mul_le_mul_right dim (Nat.succ_le_of_lt hlt)
    rw [Nat.succ_mul] at this
    omega
  · have := Nat.mul_le_mul_right dim (Nat.succ_le_of_lt hgt)
    rw [Nat.succ_mul] at this
    omega

lemma row_bound {n row : ℕ} (dim : ℕ) (h : row < n) : row * dim + dim ≤ n * dim := by
  have := Nat.mul_le_mul_right dim (Nat.succ_le_of_lt h)
  rwa [Nat.succ_mul] at this

theorem slice_copyAt {dst src : List α} {n dim row : ℕ} (hdst : dst.length = n * dim)
    (hsrc : src.length = dim) (hrow : row < n) (row' : ℕ) :
    slice (copyAt dst (row * dim) src) (row' * dim) dim =
      if row' = row then src else slice dst (row' * dim) dim := by
  have hb : row * dim + src.length ≤ dst.length := by
    rw [hsrc, hdst]
    exact row_bound dim hrow
  apply List.ext_getElem?
  intro i
  rw [getElem?_slice, getElem?_copyAt hb]
  by_cases hi : i < dim
  · by_cases heq : row' = row
    · subst heq
      rw [if_pos hi, if_pos ⟨by omega, by omega⟩, if_pos rfl]
      congr 1
      omega
    · have hdis := row_disjoint hi heq
      rw [if_pos hi, if_neg (by rwa [hsrc]), if_neg heq, getElem?_slice, if_pos hi]
  · rw [if_neg hi]
    split
    · rw [List.getElem?_eq_none (by omega)]
    · rw [getElem?_slice, if_neg hi]

theorem slice_append {l src : List α} {n dim : ℕ} (hl : l.length = n * dim)
    (hsrc : src.length = dim) {row : ℕ} (hrow : row ≤ n) :
    slice (l ++ src) (row * dim) dim = if row = n then src else slice l (row * dim) dim := by
  split
  · rename_i heq
    rw [heq, ← hl, slice, List.drop_left, ← hsrc, List.take_length]
  · have hb := row_bound dim (by omega : row < n)
    rw [slice, List.drop_append_of_le_length (by omega), List.take_append_of_le_length]
    · rfl
    · rw [List.length_drop]
      omega

lemma getD_set (l : List α) {i : ℕ} (hi : i < l.length) (x d : α) (j : ℕ) :
    (l.set i x).getD j d = if j = i then x else l.getD j d := by
  by_cases h : j = i
  · subst h
    simp [List.getD_eq_getElem?_getD, hi]
  · simp [List.getD_eq_getElem?_getD, h, List.getElem?_set_ne (Ne.symm h)]

lemma getD_append_one (l : List α) (x d : α) (j : ℕ) :
    (l ++ [x]).getD j d = if j = l.length then x else l.getD j d := by
  by_cases h : j = l.length
  · subst h
    simp
  · by_cases hlt : j < l.length
    · simp [List.getD_eq_getElem?_getD, List.getElem?_append_left hlt, h]
    · simp only [List.getD_eq_getElem?_getD, h, if_false]
      rw [List.getElem?_eq_none (by simp only [List.length_append, List.length_singleton]; omega),
        List.getElem?_eq_none (by omega)]

lemma getD_replicate_self (n : ℕ) (d : α) (j : ℕ) : (List.replicate n d).getD j d = d := by
  simp only [List.getD_eq_getElem?_getD, List.getElem?_replicate]
  split <;> rfl

end CloudyNeigh.Blocks
