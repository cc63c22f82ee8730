import Mathlib.Algebra.Order.Ring.Abs
import Mathlib.Algebra.Order.Ring.Cast
import Mathlib.Order.Monotone.Basic
import Mathlib.Tactic.Linarith
import Mathlib.Tactic.Ring

/-!
# Rounding to the nearest point of a grid

A grid is an increasing sequence of values, such as those of the bit patterns of a binary
format. The quotient and the remainder of a value decide which point is nearest to it,
and the parity of the point decides a tie.
-/
namespace CloudyNeigh.FloatGrid

section Magnitude

/-- The value of the exponent and mantissa bits `m` of a format with `p` mantissa bits, in units
of its smallest subnormal. -/
def magnitude (p m : ℕ) : ℕ :=
  if m / 2 ^ p = 0 then m % 2 ^ p else (2 ^ p + m % 2 ^ p) * 2 ^ (m / 2 ^ p - 1)

variable {p : ℕ}

lemma magnitude_subnormal {m : ℕ} (h : m < 2 ^ p) : magnitude p m = m := by
  rw [magnitude, if_pos (Nat.div_eq_of_lt h), Nat.mod_eq_of_lt h]

lemma magnitude_normal {e f : ℕ} (he : 0 < e) (hf : f < 2 ^ p) :
    magnitude p (e * 2 ^ p + f) = (2 ^ p + f) * 2 ^ (e - 1) := by
  have hdiv : (e * 2 ^ p + f) / 2 ^ p = e := by
    rw [Nat.add_comm, Nat.add_mul_div_right _ _ (Nat.two_pow_pos p), Nat.div_eq_of_lt hf,
      Nat.zero_add]
  have hmod : (e * 2 ^ p + f) % 2 ^ p = f := by
    rw [Nat.add_comm, Nat.add_mul_mod_self_right, Nat.mod_eq_of_lt hf]
  rw [magnitude, hdiv, hmod, if_neg he.ne']

/-- The exponent and the mantissa of some bits. -/
lemma exists_fields (p m : ℕ) : ∃ e f, f < 2 ^ p ∧ m = e * 2 ^ p + f :=
  ⟨m / 2 ^ p, m % 2 ^ p, Nat.mod_lt _ (Nat.two_pow_pos p), (Nat.div_add_mod' m _).symm⟩

/-- Neighbouring bits differ by one unit in the last place, also across a power of two. -/
lemma magnitude_succ (e : ℕ) {f : ℕ} (hf : f < 2 ^ p) :
    magnitude p (e * 2 ^ p + f + 1) = magnitude p (e * 2 ^ p + f) + 2 ^ (e - 1) := by
  rcases Nat.lt_or_ge (f + 1) (2 ^ p) with hlt | hge
  · cases e with
    | zero =>
      rw [Nat.zero_mul, Nat.zero_add, magnitude_subnormal hf, magnitude_subnormal hlt]
      rfl
    | succ e =>
      rw [Nat.add_assoc, magnitude_normal e.succ_pos hf, magnitude_normal e.succ_pos hlt]
      ring
  · have hend : f + 1 = 2 ^ p := by omega
    have hnext : e * 2 ^ p + f + 1 = (e + 1) * 2 ^ p + 0 := by
      rw [Nat.add_assoc, hend]
      ring
    rw [hnext, magnitude_normal e.succ_pos (Nat.two_pow_pos p), Nat.succ_sub_one, Nat.add_zero]
    cases e with
    | zero =>
      rw [Nat.zero_mul, Nat.zero_add, magnitude_subnormal hf, ← hend, pow_zero,
        Nat.mul_one]
    | succ e =>
      rw [magnitude_normal e.succ_pos hf, Nat.succ_sub_one, ← hend]
      ring

lemma magnitude_strictMono (p : ℕ) : StrictMono (magnitude p) := by
  refine strictMono_nat_of_lt_succ fun m => ?_
  obtain ⟨e, f, hf, rfl⟩ := exists_fields p m
  rw [magnitude_succ e hf]
  exact Nat.lt_add_of_pos_right (Nat.two_pow_pos _)

end Magnitude

section Nearest
variable {α : Type*} [CommRing α] [LinearOrder α] [IsStrictOrderedRing α] {grid : ℕ → α}
  {M M' a b : α} {R R' c k : ℕ}

/-- No point is nearer to `M`, and a point as near leaves an even `R`. -/
structure Nearest (grid : ℕ → α) (M : α) (R : ℕ) : Prop where
  le : ∀ k, |M - grid R| ≤ |M - grid k|
  even : ∀ k, k ≠ R → |M - grid k| = |M - grid R| → R % 2 = 0

/-- Of two points the lower one is nearer below their middle. -/
lemma abs_sub_le_iff_lower (h : a < b) : |M - a| ≤ |M - b| ↔ 2 * M ≤ a + b := by
  rw [← sq_le_sq, ← sub_nonneg, show (M - b) ^ 2 - (M - a) ^ 2 = (b - a) * (a + b - 2 * M) by ring,
    mul_nonneg_iff_of_pos_left (sub_pos.mpr h), sub_nonneg]

lemma abs_sub_le_iff_upper (h : a < b) : |M - b| ≤ |M - a| ↔ a + b ≤ 2 * M := by
  rw [← sq_le_sq, ← sub_nonneg, show (M - a) ^ 2 - (M - b) ^ 2 = (b - a) * (2 * M - (a + b)) by ring,
    mul_nonneg_iff_of_pos_left (sub_pos.mpr h), sub_nonneg]

lemma Nearest.le_of_lt (h : Nearest grid M R) (hg : StrictMono grid) (hk : R < k) :
    2 * M ≤ grid R + grid k :=
  (abs_sub_le_iff_lower (hg hk)).mp (h.le k)

lemma Nearest.ge_of_lt (h : Nearest grid M R) (hg : StrictMono grid) (hk : k < R) :
    grid k + grid R ≤ 2 * M :=
  (abs_sub_le_iff_upper (hg hk)).mp (h.le k)

/-- In the lower half of the gap above it, the point is nearest. -/
lemma nearest_lower (hg : StrictMono grid) (hle : grid c ≤ M)
    (hmid : 2 * M ≤ grid c + grid (c + 1)) (htie : 2 * M = grid c + grid (c + 1) → c % 2 = 0) :
    Nearest grid M c := by
  refine ⟨fun k => ?_, fun k hne heq => ?_⟩
  · rcases lt_trichotomy k c with hlt | rfl | hgt
    · have := hg hlt
      exact (abs_sub_le_iff_upper this).mpr (by linarith)
    · exact le_rfl
    · have := hg.monotone (Nat.succ_le_of_lt hgt)
      exact (abs_sub_le_iff_lower (hg hgt)).mpr (by linarith)
  · rcases lt_or_gt_of_ne hne with hlt | hgt
    · have hlow := hg hlt
      have := (abs_sub_le_iff_lower hlow).mp heq.le
      linarith
    · have hup := hg.monotone (Nat.succ_le_of_lt hgt)
      have := (abs_sub_le_iff_upper (hg hgt)).mp heq.le
      exact htie (by linarith)

lemma nearest_upper (hg : StrictMono grid) (hle : M ≤ grid (c + 1))
    (hmid : grid c + grid (c + 1) ≤ 2 * M)
    (htie : grid c + grid (c + 1) = 2 * M → (c + 1) % 2 = 0) : Nearest grid M (c + 1) := by
  refine ⟨fun k => ?_, fun k hne heq => ?_⟩
  · rcases lt_trichotomy k (c + 1) with hlt | rfl | hgt
    · have := hg.monotone (Nat.le_of_lt_succ hlt)
      exact (abs_sub_le_iff_upper (hg hlt)).mpr (by linarith)
    · exact le_rfl
    · have := hg hgt
      exact (abs_sub_le_iff_lower this).mpr (by linarith)
  · rcases lt_or_gt_of_ne hne with hlt | hgt
    · have hlow := hg.monotone (Nat.le_of_lt_succ hlt)
      have := (abs_sub_le_iff_lower (hg hlt)).mp heq.le
      exact htie (by linarith)
    · have hup := hg hgt
      have := (abs_sub_le_iff_upper hup).mp heq.le
      linarith

/-- Two nearest points would both be even, and the one between them nearer. -/
lemma Nearest.unique (hg : StrictMono grid) (h : Nearest grid M R) (h' : Nearest grid M R') :
    R = R' := by
  have hnot : ∀ {R R' : ℕ}, Nearest grid M R → Nearest grid M R' → ¬ R < R' := by
    intro R R' h h' hlt
    have heq := le_antisymm (h'.le R) (h.le R')
    have hR := h.even R' hlt.ne' heq
    have hR' := h'.even R hlt.ne heq.symm
    have hbetween : R + 1 < R' := by omega
    have hmid := h.le_of_lt hg R.lt_succ_self
    have hmid' := h'.ge_of_lt hg hlt
    have := hg hbetween
    linarith
  rcases lt_trichotomy R R' with hlt | heq | hgt
  · exact (hnot h h' hlt).elim
  · exact heq
  · exact (hnot h' h hgt).elim

lemma Nearest.mono (hg : StrictMono grid) (h : Nearest grid M R) (h' : Nearest grid M' R')
    (hle : M ≤ M') : R ≤ R' := by
  by_contra hlt
  have hlow := h.ge_of_lt hg (not_le.mp hlt)
  have hup := h'.le_of_lt hg (not_le.mp hlt)
  obtain rfl : M = M' := by linarith
  exact hlt (h.unique hg h').le

/-- An odd point loses the tie with the next one. -/
lemma Nearest.lt_iff_of_odd (hg : StrictMono grid) (h : Nearest grid M R) (hk : k % 2 = 1) :
    k < R ↔ grid k + grid (k + 1) ≤ 2 * M := by
  constructor
  · intro hlt
    have hup := hg.monotone (Nat.succ_le_of_lt hlt)
    have hmid := h.ge_of_lt hg hlt
    linarith
  · intro hmid
    by_contra hle
    have hRk : R ≤ k := not_lt.mp hle
    have hup := h.le_of_lt hg (Nat.lt_succ_of_le hRk)
    have hlow := hg.monotone hRk
    obtain rfl : R = k := hg.injective (by linarith)
    have htie : |M - grid (R + 1)| = |M - grid R| :=
      le_antisymm ((abs_sub_le_iff_upper (hg R.lt_succ_self)).mpr hmid) (h.le _)
    have := h.even (R + 1) R.succ_ne_self htie
    omega

lemma Nearest.scale (h : Nearest grid M R) {u : α} (hu : 0 < u) :
    Nearest (fun k => grid k * u) (M * u) R := by
  have habs : ∀ k, |M * u - grid k * u| = |M - grid k| * u := fun k => by
    rw [← sub_mul, abs_mul, abs_of_pos hu]
  refine ⟨fun k => ?_, fun k hne heq => ?_⟩
  · rw [habs, habs]
    exact mul_le_mul_of_nonneg_right (h.le k) hu.le
  · rw [habs, habs] at heq
    exact h.even k hne (mul_right_cancel₀ hu.ne' heq)

lemma nearest_self (hg : StrictMono grid) (R : ℕ) : Nearest grid (grid R) R := by
  refine ⟨fun k => ?_, fun k hne heq => ?_⟩
  · rw [sub_self, abs_zero]
    exact abs_nonneg _
  · rw [sub_self, abs_zero, abs_eq_zero, sub_eq_zero] at heq
    exact (hne (hg.injective heq).symm).elim

/-- The remainder against the half decides, and the quotient's parity where they are equal. -/
def halfEven (c rem mid : ℕ) : ℕ := if mid < rem ∨ (rem = mid ∧ c % 2 = 1) then c + 1 else c

lemma halfEven_le (c rem mid : ℕ) : halfEven c rem mid ≤ c + 1 := by
  rw [halfEven]
  split <;> omega

/-- `M` is `rem` units above the point `c`, and the next one is `2 * mid` units above it. -/
lemma nearest_halfEven (hg : StrictMono grid) {rem mid : ℕ} {unit : α} (hu : 0 < unit)
    (hM : M = grid c + rem * unit) (hnext : grid (c + 1) = grid c + 2 * mid * unit)
    (hrem : rem < 2 * mid) : Nearest grid M (halfEven c rem mid) ∧
      |M - grid (halfEven c rem mid)| ≤ mid * unit := by
  have hrem' : (rem : α) * unit < 2 * mid * unit :=
    mul_lt_mul_of_pos_right (by exact_mod_cast hrem) hu
  have hpos : 0 ≤ (rem : α) * unit := mul_nonneg (Nat.cast_nonneg _) hu.le
  rw [halfEven]
  split_ifs with h
  · have hmid : (mid : α) * unit ≤ rem * unit :=
      mul_le_mul_of_nonneg_right (by exact_mod_cast (by omega : mid ≤ rem)) hu.le
    refine ⟨nearest_upper hg (by linarith) (by linarith) fun htie => ?_, ?_⟩
    · have heq : (mid : α) * unit = rem * unit := by linarith
      have : mid = rem := by exact_mod_cast mul_right_cancel₀ hu.ne' heq
      omega
    · rw [abs_sub_comm, abs_of_nonneg (by linarith)]
      linarith
  · have hmid : (rem : α) * unit ≤ mid * unit :=
      mul_le_mul_of_nonneg_right (by exact_mod_cast (by omega : rem ≤ mid)) hu.le
    refine ⟨nearest_lower hg (by linarith) (by linarith) fun htie => ?_, ?_⟩
    · have heq : (rem : α) * unit = mid * unit := by linarith
      have : rem = mid := by exact_mod_cast mul_right_cancel₀ hu.ne' heq
      omega
    · rw [abs_of_nonneg (by linarith)]
      linarith

end Nearest

end CloudyNeigh.FloatGrid
