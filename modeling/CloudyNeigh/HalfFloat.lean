import Mathlib.Algebra.Order.Field.Rat
import Mathlib.Data.Nat.Bitwise
import Mathlib.Tactic.NormNum
import Mathlib.Tactic.Positivity
import CloudyNeigh.FloatGrid
import CloudyNeigh.VectorFormat

/-!
# Conversions between float32 and binary16

The exact rational of a bit pattern, the decoding of a half, and `fp16FromFloat32` as the
rounding to the nearest half, ties to even. The finite halves of one sign are a grid in
the order of their bits, and both formats are counted in the units of float32.
-/
namespace CloudyNeigh.VectorFormat
open FloatGrid

section Values

def signed (negative : Bool) (v : ℚ) : ℚ := if negative then -v else v

/-- The bits of the exponent and the mantissa. -/
def F32.bits (x : F32) : ℕ := x.toNat % 2 ^ 31

/-- The number that a finite `float32` is: the smallest subnormal is `2 ^ -149`. -/
def F32.value (x : F32) : ℚ := signed x.msb (magnitude 23 x.bits / 2 ^ 149)

def F32.isFinite (x : F32) : Bool := !(x.isNaN || x.isInf)

def F16.bits (h : F16) : ℕ := h.toNat % 2 ^ 15

/-- The number that a finite half is: the smallest subnormal is `2 ^ -24`. -/
def F16.value (h : F16) : ℚ := signed h.msb (magnitude 10 h.bits / 2 ^ 24)

def F16.isFinite (h : F16) : Bool := (h >>> 10) &&& 0x1f#16 != 0x1f#16

end Values

section Decode

/-- `float32(n)` of an integer of at most 24 bits. -/
def ofUint (n : F32) : F32 :=
  let k := n.toNat.log2
  if n = 0#32 then 0#32 else BitVec.ofNat 32 ((k + 127) * 2 ^ 23 + (n.toNat * 2 ^ (23 - k) - 2 ^ 23))

/-- The product with `2 ^ -k` where it is a normal number again: the exponent goes down. -/
def divPow2 (x : F32) (k : ℕ) : F32 := if x = 0#32 then 0#32 else x - BitVec.ofNat 32 (k * 2 ^ 23)

def neg (x : F32) : F32 := x ^^^ 0x80000000#32

def fp16ToFloat32 (h : F16) : F32 :=
  let sign : F32 := (h &&& 0x8000#16).setWidth 32 <<< 16
  let exp : F32 := (h >>> 10).setWidth 32 &&& 0x1f#32
  let mant : F32 := (h &&& 0x3ff#16).setWidth 32
  if exp = 0#32 then
    let f := divPow2 (ofUint mant) 24
    if sign ≠ 0#32 then neg f else f
  else if exp = 31#32 then sign ||| 0x7f800000#32 ||| mant <<< 13
  else sign ||| (exp + 112#32) <<< 23 ||| mant <<< 13

-- 1, -0, 2^-24, 3 * 2^-24, 65504
example : [0x3c00, 0x8000, 0x0001, 0x0003, 0x7bff].map fp16ToFloat32 =
    [0x3f800000, 0x80000000, 0x33800000, 0x34400000, 0x477fe000] := by decide

end Decode

section Fields

/-- A word is its sign and the bits below it. -/
lemma toNat_eq_sign {w : ℕ} (x : BitVec (w + 1)) :
    x.toNat = x.msb.toNat * 2 ^ w + x.toNat % 2 ^ w := by
  have hlt := x.isLt
  rw [Nat.pow_succ] at hlt
  rw [BitVec.msb_eq_decide, Nat.add_sub_cancel]
  by_cases h : 2 ^ w ≤ x.toNat
  · rw [decide_eq_true h, Bool.toNat_true, Nat.one_mul, Nat.mod_eq_sub_mod h,
      Nat.mod_eq_of_lt (by omega)]
    omega
  · rw [decide_eq_false h, Bool.toNat_false, Nat.zero_mul, Nat.zero_add,
      Nat.mod_eq_of_lt (by omega)]

lemma msb_of_toNat {w b : ℕ} {s : Bool} {x : BitVec (w + 1)} (h : x.toNat = s.toNat * 2 ^ w + b)
    (hb : b < 2 ^ w) : x.msb = s ∧ x.toNat % 2 ^ w = b := by
  refine ⟨?_, by rw [h, Nat.add_comm, Nat.add_mul_mod_self_right, Nat.mod_eq_of_lt hb]⟩
  rw [BitVec.msb_eq_decide, Nat.add_sub_cancel, h]
  cases s with
  | false => exact decide_eq_false (by simpa using hb)
  | true => exact decide_eq_true (by simp)

lemma F32.expBits_eq (x : F32) : x.expBits = x.bits / 2 ^ 23 := by
  rw [F32.expBits, BitVec.toNat_and, BitVec.toNat_ushiftRight, Nat.shiftRight_eq_div_pow,
    show (0xff#32).toNat = 2 ^ 8 - 1 from rfl, Nat.and_two_pow_sub_one_eq_mod, F32.bits]
  omega

lemma F32.mantBits_toNat (x : F32) : x.mantBits.toNat = x.bits % 2 ^ 23 := by
  rw [F32.mantBits, BitVec.toNat_and, show (0x7fffff#32).toNat = 2 ^ 23 - 1 from rfl,
    Nat.and_two_pow_sub_one_eq_mod, F32.bits]
  omega

/-- The sign of a `float32` in the place of the sign of a half. -/
lemma sign_toNat (x : F32) :
    ((x >>> 16).truncate 16 &&& 0x8000#16 : F16).toNat = x.msb.toNat * 2 ^ 15 := by
  rw [BitVec.toNat_and, BitVec.truncate_eq_setWidth, BitVec.toNat_setWidth,
    BitVec.toNat_ushiftRight, show (0x8000#16).toNat = 2 ^ 15 from rfl, Nat.and_two_pow,
    BitVec.msb_eq_getLsbD_last, Nat.testBit_mod_two_pow, Nat.testBit_shiftRight]
  rfl

/-- A sign above the bits of a half. -/
lemma sign_or_toNat (x half : F32) (h : half.toNat < 2 ^ 15) :
    ((x >>> 16).truncate 16 &&& 0x8000#16 ||| half.truncate 16 : F16).toNat =
      x.msb.toNat * 2 ^ 15 + half.toNat := by
  rw [BitVec.toNat_or, sign_toNat, BitVec.truncate_eq_setWidth, BitVec.toNat_setWidth,
    Nat.mod_eq_of_lt (by omega), Nat.mul_comm, Nat.two_pow_add_eq_or_of_lt h]

lemma roundShift_toNat (v : F32) {shift : ℕ} (hpos : 0 < shift) (hlt : shift < 32) {half : F32}
    (hhalf : half.toNat + 1 < 2 ^ 32) : (roundShift v shift half).toNat =
      halfEven half.toNat (v.toNat % 2 ^ shift) (2 ^ (shift - 1)) := by
  have hpow : ∀ k, k < 32 → (1#32 <<< k).toNat = 2 ^ k := fun k hk => by
    rw [BitVec.toNat_shiftLeft, Nat.shiftLeft_eq, show (1#32).toNat = 1 from rfl, Nat.one_mul,
      Nat.mod_eq_of_lt (Nat.pow_lt_pow_right (by decide) hk)]
  have hmask : (1#32 <<< shift - 1#32).toNat = 2 ^ shift - 1 := by
    have hone : (1#32).toNat ≤ (1#32 <<< shift).toNat := by
      rw [hpow shift hlt]
      exact Nat.one_le_two_pow
    rw [BitVec.toNat_sub_of_le hone, hpow shift hlt]
    rfl
  have hrem : (v &&& (1#32 <<< shift - 1#32)).toNat = v.toNat % 2 ^ shift := by
    rw [BitVec.toNat_and, hmask, Nat.and_two_pow_sub_one_eq_mod]
  have hodd : half &&& 1#32 = 1#32 ↔ half.toNat % 2 = 1 := by
    rw [← BitVec.toNat_inj, BitVec.toNat_and, show (1#32).toNat = 1 from rfl,
      Nat.and_one_is_mod]
  rw [roundShift, halfEven]
  simp only [BitVec.lt_def, ← BitVec.toNat_inj (y := 1#32 <<< (shift - 1)), hrem,
    hpow (shift - 1) (by omega), hodd]
  split
  · rw [BitVec.toNat_add, show (1#32).toNat = 1 from rfl, Nat.mod_eq_of_lt hhalf]
  · rfl

end Fields

section Grid

/-- The magnitudes of the halves in the units of `float32`, in the order of their bits. -/
def grid (b : ℕ) : ℚ := (magnitude 10 b * 2 ^ 125 : ℕ)

lemma grid_strictMono : StrictMono grid := fun _ _ h =>
  Nat.cast_lt.mpr (Nat.mul_lt_mul_of_pos_right (magnitude_strictMono 10 h) (Nat.two_pow_pos _))

lemma grid_zero : grid 0 = 0 := by
  rw [grid, magnitude_subnormal (by decide), Nat.zero_mul, Nat.cast_zero]

lemma grid_div (b : ℕ) : grid b / 2 ^ 149 = magnitude 10 b / 2 ^ 24 := by
  rw [grid, Nat.cast_mul, Nat.cast_pow, Nat.cast_ofNat, show (149 : ℕ) = 24 + 125 from rfl, pow_add,
    mul_div_mul_right _ _ (by positivity)]

/-- Below the normal halves: `shift` bits of the mantissa with its leading one are lost. -/
lemma floor_subnormal {e f shift : ℕ} (hshift : e + shift = 126) (he : 0 < e) (h14 : 14 ≤ shift)
    (hf : f < 2 ^ 23) :
    magnitude 23 (e * 2 ^ 23 + f) = magnitude 10 ((2 ^ 23 + f) / 2 ^ shift) * 2 ^ 125 +
        (2 ^ 23 + f) % 2 ^ shift * 2 ^ (e - 1) ∧
      magnitude 10 ((2 ^ 23 + f) / 2 ^ shift + 1) * 2 ^ 125 =
        magnitude 10 ((2 ^ 23 + f) / 2 ^ shift) * 2 ^ 125 +
          2 * 2 ^ (shift - 1) * 2 ^ (e - 1) ∧
      (2 ^ 23 + f) / 2 ^ shift < 2 ^ 10 := by
  have hc : (2 ^ 23 + f) / 2 ^ shift < 2 ^ 10 := by
    have hle : (2 ^ 23 + f) / 2 ^ shift ≤ (2 ^ 23 + f) / 2 ^ 14 :=
      Nat.div_le_div_left (Nat.pow_le_pow_right (by decide) h14) (by decide)
    omega
  have hpow : 2 ^ shift * 2 ^ (e - 1) = 2 ^ 125 := by
    rw [← Nat.pow_add]
    congr 1
    omega
  have hnext : magnitude 10 ((2 ^ 23 + f) / 2 ^ shift + 1) =
      magnitude 10 ((2 ^ 23 + f) / 2 ^ shift) + 1 := by
    have := magnitude_succ 0 hc
    rwa [Nat.zero_mul, Nat.zero_add] at this
  refine ⟨?_, ?_, hc⟩
  · rw [magnitude_normal he hf, magnitude_subnormal hc, ← hpow, ← Nat.mul_assoc, ← Nat.add_mul,
      Nat.div_add_mod']
  · rw [hnext, Nat.add_mul, Nat.one_mul, ← Nat.pow_succ', Nat.succ_eq_add_one,
      Nat.sub_add_cancel (by omega), hpow]

/-- Among the normal halves: 13 bits of the mantissa are lost. -/
lemma floor_normal {e f : ℕ} (he : 0 < e) (hf : f < 2 ^ 23) :
    magnitude 23 ((e + 112) * 2 ^ 23 + f) = magnitude 10 (e * 2 ^ 10 + f / 2 ^ 13) * 2 ^ 125 +
        f % 2 ^ 13 * 2 ^ (e + 111) ∧
      magnitude 10 (e * 2 ^ 10 + f / 2 ^ 13 + 1) * 2 ^ 125 =
        magnitude 10 (e * 2 ^ 10 + f / 2 ^ 13) * 2 ^ 125 + 2 * 2 ^ 12 * 2 ^ (e + 111) := by
  have hq : f / 2 ^ 13 < 2 ^ 10 := by omega
  obtain ⟨d, rfl⟩ : ∃ d, e = d + 1 := ⟨e - 1, by omega⟩
  have hfloor : f = f / 2 ^ 13 * 2 ^ 13 + f % 2 ^ 13 := (Nat.div_add_mod' f _).symm
  refine ⟨?_, ?_⟩
  · rw [magnitude_normal (by omega) hf, magnitude_normal he hq, Nat.add_sub_cancel]
    generalize f / 2 ^ 13 = q at hfloor
    generalize f % 2 ^ 13 = r at hfloor
    rw [hfloor, show d + 1 + 112 - 1 = d + 112 by omega, show d + 1 + 111 = d + 112 by omega]
    ring
  · rw [magnitude_succ _ hq, Nat.add_sub_cancel]
    ring

end Grid

section Encode

/-- Magnitudes below `2 ^ 16` go to the nearest point of the grid, if a half has its bits. -/
structure Rounds (x : F32) (R : ℕ) : Prop where
  nearest : Nearest grid (magnitude 23 x.bits) R
  error : |(magnitude 23 x.bits : ℚ) - grid R| ≤
    max ((magnitude 23 x.bits : ℚ) / 2 ^ 11) (2 ^ 124)
  some : R < 0x7c00 → ∃ h, fp16FromFloat32 x = some h ∧ h.msb = x.msb ∧ h.bits = R
  none : 0x7c00 ≤ R → fp16FromFloat32 x = none

lemma sign_or_half (x half : F32) (h : half.toNat < 2 ^ 15) :
    ((x >>> 16).truncate 16 &&& 0x8000#16 ||| half.truncate 16 : F16).msb = x.msb ∧
      F16.bits ((x >>> 16).truncate 16 &&& 0x8000#16 ||| half.truncate 16) = half.toNat :=
  msb_of_toNat (w := 15) (sign_or_toNat x half h) h

lemma rounds_underflow {x : F32} {e f : ℕ} (hf : f < 2 ^ 23) (hx : x.bits = e * 2 ^ 23 + f)
    (he : e < 102) : Rounds x 0 := by
  have hexp : x.expBits = e := by
    rw [F32.expBits_eq, hx]
    omega
  have hlt : magnitude 23 x.bits < 2 ^ 124 := by
    have := magnitude_strictMono 23 (show x.bits < 102 * 2 ^ 23 + 0 by omega)
    rwa [magnitude_normal (by decide) (Nat.two_pow_pos 23)] at this
  have hlt' : (magnitude 23 x.bits : ℚ) < 2 ^ 124 := by exact_mod_cast hlt
  have hone : grid 1 = 2 ^ 125 := by
    rw [grid, magnitude_subnormal (by decide), Nat.one_mul, Nat.cast_pow, Nat.cast_ofNat]
  have hpos : (0 : ℚ) ≤ magnitude 23 x.bits := Nat.cast_nonneg _
  refine ⟨nearest_lower grid_strictMono ?_ ?_ fun _ => rfl, ?_, fun _ => ?_, fun h => ?_⟩
  · rw [grid_zero]
    exact hpos
  · rw [grid_zero, hone, zero_add]
    linarith
  · rw [grid_zero, sub_zero, abs_of_nonneg hpos]
    exact le_max_of_le_right hlt'.le
  · have hsign : ((x >>> 16).truncate 16 &&& 0x8000#16 : F16).toNat = x.msb.toNat * 2 ^ 15 + 0 := by
      rw [Nat.add_zero, sign_toNat]
    refine ⟨_, ?_, msb_of_toNat hsign (Nat.two_pow_pos 15)⟩
    rw [fp16FromFloat32, hexp]
    simp only [if_neg (show ¬ (31 : ℤ) ≤ (e : ℤ) - 127 + 15 by omega),
      if_pos (show (e : ℤ) - 127 + 15 < -10 by omega)]
  · exact absurd h (by decide)

/-- The quotient and the remainder of the magnitude give the point and the half gap its error. -/
lemma rounds_of_floor {x : F32} {c rem mid unit : ℕ} (hu : 0 < unit)
    (hM : magnitude 23 x.bits = magnitude 10 c * 2 ^ 125 + rem * unit)
    (hnext : magnitude 10 (c + 1) * 2 ^ 125 = magnitude 10 c * 2 ^ 125 + 2 * mid * unit)
    (hrem : rem < 2 * mid)
    (herr : mid * unit ≤ 2 ^ 124 ∨ mid * unit * 2 ^ 11 ≤ magnitude 23 x.bits)
    (hsome : halfEven c rem mid < 0x7c00 →
      ∃ h, fp16FromFloat32 x = some h ∧ h.msb = x.msb ∧ h.bits = halfEven c rem mid)
    (hnone : 0x7c00 ≤ halfEven c rem mid → fp16FromFloat32 x = none) :
    Rounds x (halfEven c rem mid) := by
  have hM' : (magnitude 23 x.bits : ℚ) = grid c + rem * unit := by
    rw [grid]
    exact_mod_cast hM
  have hnext' : grid (c + 1) = grid c + 2 * mid * unit := by
    rw [grid, grid]
    exact_mod_cast hnext
  obtain ⟨hnear, herror⟩ :=
    nearest_halfEven grid_strictMono (Nat.cast_pos.mpr hu) hM' hnext' hrem
  refine ⟨hnear, herror.trans ?_, hsome, hnone⟩
  rcases herr with h | h
  · exact le_max_of_le_right (by exact_mod_cast h)
  · refine le_max_of_le_left ((le_div_iff₀ (by positivity)).mpr ?_)
    exact_mod_cast h

lemma rounds_subnormal {x : F32} {e f : ℕ} (hf : f < 2 ^ 23) (hx : x.bits = e * 2 ^ 23 + f)
    (he : 102 ≤ e) (he' : e ≤ 112) : ∃ R, Rounds x R := by
  obtain ⟨shift, hshift⟩ : ∃ shift, e + shift = 126 := ⟨126 - e, by omega⟩
  have hexp : x.expBits = e := by
    rw [F32.expBits_eq, hx]
    omega
  have hmant : (x.mantBits ||| 0x800000#32).toNat = 2 ^ 23 + f := by
    rw [BitVec.toNat_or, F32.mantBits_toNat, hx, Nat.mul_add_mod_self_right, Nat.mod_eq_of_lt hf,
      Nat.or_comm, show (0x800000#32).toNat = 2 ^ 23 * 1 from rfl, ← Nat.two_pow_add_eq_or_of_lt hf,
      Nat.mul_one]
  obtain ⟨hM, hnext, hc⟩ := floor_subnormal hshift (by omega) (by omega) hf
  have hhalf : ((x.mantBits ||| 0x800000#32) >>> shift).toNat = (2 ^ 23 + f) / 2 ^ shift := by
    rw [BitVec.toNat_ushiftRight, hmant, Nat.shiftRight_eq_div_pow]
  have hround := roundShift_toNat (x.mantBits ||| 0x800000#32) (by omega) (by omega : shift < 32)
    (by omega : ((x.mantBits ||| 0x800000#32) >>> shift).toNat + 1 < 2 ^ 32)
  rw [hhalf, hmant] at hround
  have hle := halfEven_le ((2 ^ 23 + f) / 2 ^ shift) ((2 ^ 23 + f) % 2 ^ shift) (2 ^ (shift - 1))
  have hpow : 2 * 2 ^ (shift - 1) = 2 ^ shift := by
    rw [← Nat.pow_succ', Nat.succ_eq_add_one, Nat.sub_add_cancel (by omega)]
  rw [← hx] at hM
  refine ⟨_, rounds_of_floor (Nat.two_pow_pos _) hM hnext ?_ (Or.inl ?_) (fun _ => ?_) fun h => ?_⟩
  · rw [hpow]
    exact Nat.mod_lt _ (Nat.two_pow_pos _)
  · rw [← Nat.pow_add]
    exact Nat.pow_le_pow_right (by decide) (by omega)
  · rw [← hround] at hle ⊢
    refine ⟨_, ?_, sign_or_half x _ (by omega)⟩
    have hnat : (14 - ((e : ℤ) - 127 + 15)).toNat = shift := by omega
    rw [fp16FromFloat32, hexp]
    simp only [if_neg (show ¬ (31 : ℤ) ≤ (e : ℤ) - 127 + 15 by omega),
      if_neg (show ¬ (e : ℤ) - 127 + 15 < -10 by omega),
      if_pos (show (e : ℤ) - 127 + 15 ≤ 0 by omega), hnat]
  · omega

lemma rounds_normal {x : F32} {e f : ℕ} (hf : f < 2 ^ 23) (hx : x.bits = (e + 112) * 2 ^ 23 + f)
    (he : 0 < e) (he' : e ≤ 30) : ∃ R, Rounds x R := by
  have hexp : x.expBits = e + 112 := by
    rw [F32.expBits_eq, hx]
    omega
  have hmant : x.mantBits.toNat = f := by
    rw [F32.mantBits_toNat, hx, Nat.mul_add_mod_self_right, Nat.mod_eq_of_lt hf]
  have hq : f / 2 ^ 13 < 2 ^ 10 := by omega
  have hint : ((e + 112 : ℕ) : ℤ) - 127 + 15 = (e : ℤ) := by omega
  have hhalf : (BitVec.ofInt 32 (((e + 112 : ℕ) : ℤ) - 127 + 15) <<< 10 |||
      x.mantBits >>> 13).toNat = e * 2 ^ 10 + f / 2 ^ 13 := by
    rw [hint, BitVec.ofInt_natCast, BitVec.toNat_or, BitVec.toNat_shiftLeft, BitVec.toNat_ofNat,
      BitVec.toNat_ushiftRight, hmant, Nat.shiftLeft_eq, Nat.shiftRight_eq_div_pow,
      Nat.mod_eq_of_lt (by omega : e < 2 ^ 32), Nat.mod_eq_of_lt (by omega : e * 2 ^ 10 < 2 ^ 32),
      Nat.mul_comm e, Nat.two_pow_add_eq_or_of_lt hq]
  have hround := roundShift_toNat x.mantBits (by decide) (by decide : 13 < 32)
    (by rw [hhalf]; omega : (BitVec.ofInt 32 (((e + 112 : ℕ) : ℤ) - 127 + 15) <<< 10 |||
      x.mantBits >>> 13).toNat + 1 < 2 ^ 32)
  rw [hhalf, hmant] at hround
  obtain ⟨hM, hnext⟩ := floor_normal he hf
  rw [← hx] at hM
  have hbig : 2 ^ 12 * 2 ^ (e + 111) * 2 ^ 11 ≤ magnitude 23 x.bits := by
    rw [hx, magnitude_normal (by omega) hf, Nat.mul_right_comm, ← Nat.pow_add]
    exact Nat.mul_le_mul_right _ (Nat.le_add_right _ _)
  have hcode : fp16FromFloat32 x =
      if 0x7c00 ≤ halfEven (e * 2 ^ 10 + f / 2 ^ 13) (f % 2 ^ 13) (2 ^ 12) then none
      else some ((x >>> 16).truncate 16 &&& 0x8000#16 ||| (roundShift x.mantBits 13
        (BitVec.ofInt 32 (((e + 112 : ℕ) : ℤ) - 127 + 15) <<< 10 |||
          x.mantBits >>> 13)).truncate 16) := by
    rw [fp16FromFloat32, hexp]
    simp only [if_neg (show ¬ (31 : ℤ) ≤ ((e + 112 : ℕ) : ℤ) - 127 + 15 by omega),
      if_neg (show ¬ ((e + 112 : ℕ) : ℤ) - 127 + 15 < -10 by omega),
      if_neg (show ¬ ((e + 112 : ℕ) : ℤ) - 127 + 15 ≤ 0 by omega), BitVec.le_def, hround]
    rfl
  refine ⟨_, rounds_of_floor (Nat.two_pow_pos _) hM hnext (Nat.mod_lt _ (by decide)) (Or.inr hbig)
    (fun h => ?_) fun h => ?_⟩
  · rw [hcode, if_neg (not_le.mpr h)]
    rw [← hround] at h ⊢
    exact ⟨_, rfl, sign_or_half x _ (by omega)⟩
  · rw [hcode, if_pos h]

/-- Every magnitude below `2 ^ 16` is rounded. -/
lemma rounds_of_small {x : F32} (h : x.bits < 143 * 2 ^ 23) : ∃ R, Rounds x R := by
  obtain ⟨e, f, hf, hx⟩ := exists_fields 23 x.bits
  rcases Nat.lt_or_ge e 102 with hlow | hge
  · exact ⟨0, rounds_underflow hf hx hlow⟩
  · rcases Nat.lt_or_ge 112 e with hnormal | hsub
    · obtain ⟨d, rfl⟩ : ∃ d, e = d + 112 := ⟨e - 112, by omega⟩
      exact rounds_normal hf hx (by omega) (by omega)
    · exact rounds_subnormal hf hx hge hsub

lemma fp16FromFloat32_big {x : F32} (h : 143 * 2 ^ 23 ≤ x.bits) : fp16FromFloat32 x = none := by
  have hexp : 143 ≤ x.expBits := by
    rw [F32.expBits_eq]
    omega
  rw [fp16FromFloat32]
  exact if_pos (by omega)

end Encode

section DecodeSpec

/-- `x` is the number of the half `h`, with its sign. -/
structure Decodes (h : F16) (x : F32) : Prop where
  sign : x.msb = h.msb
  small : x.bits < 143 * 2 ^ 23
  magnitude : magnitude 23 x.bits = FloatGrid.magnitude 10 h.bits * 2 ^ 125

lemma decodes_of_toNat {h : F16} {x : F32} {b : ℕ} (hx : x.toNat = h.msb.toNat * 2 ^ 31 + b)
    (hb : b < 143 * 2 ^ 23) (hm : magnitude 23 b = magnitude 10 h.bits * 2 ^ 125) :
    Decodes h x := by
  obtain ⟨hsign, hbits⟩ := msb_of_toNat (w := 31) hx (by omega)
  have hbits' : x.bits = b := hbits
  exact ⟨hsign, hbits'.trans_lt hb, hbits'.symm ▸ hm⟩

lemma sign32_toNat (h : F16) :
    ((h &&& 0x8000#16).setWidth 32 <<< 16 : F32).toNat = h.msb.toNat * 2 ^ 31 := by
  have hand : h.toNat &&& 2 ^ 15 = h.msb.toNat * 2 ^ 15 := by
    rw [Nat.and_two_pow, BitVec.msb_eq_getLsbD_last]
    rfl
  have hle := h.msb.toNat_le
  rw [BitVec.toNat_shiftLeft, BitVec.toNat_setWidth, BitVec.toNat_and,
    show (0x8000#16).toNat = 2 ^ 15 from rfl, hand, Nat.shiftLeft_eq]
  omega

lemma exp32_toNat (h : F16) : ((h >>> 10).setWidth 32 &&& 0x1f#32 : F32).toNat = h.bits / 2 ^ 10 := by
  rw [BitVec.toNat_and, BitVec.toNat_setWidth, BitVec.toNat_ushiftRight,
    Nat.shiftRight_eq_div_pow, show (0x1f#32).toNat = 2 ^ 5 - 1 from rfl,
    Nat.and_two_pow_sub_one_eq_mod, F16.bits]
  have hlt := h.isLt
  omega

lemma mant32_toNat (h : F16) : ((h &&& 0x3ff#16).setWidth 32 : F32).toNat = h.bits % 2 ^ 10 := by
  rw [BitVec.toNat_setWidth, BitVec.toNat_and, show (0x3ff#16).toNat = 2 ^ 10 - 1 from rfl,
    Nat.and_two_pow_sub_one_eq_mod, F16.bits]
  omega

/-- `float32(mant) * 2 ^ -24` of ten bits is exact. -/
lemma divPow2_ofUint {n : F32} (h : n.toNat < 2 ^ 10) :
    (divPow2 (ofUint n) 24).toNat < 113 * 2 ^ 23 ∧
      magnitude 23 (divPow2 (ofUint n) 24).toNat = n.toNat * 2 ^ 125 := by
  by_cases hn : n = 0#32
  · subst hn
    exact ⟨by decide, rfl⟩
  · have hpos : n.toNat ≠ 0 := fun h0 => hn (BitVec.eq_of_toNat_eq h0)
    obtain ⟨k, hk⟩ : ∃ k, n.toNat.log2 = k := ⟨_, rfl⟩
    have hlow : 2 ^ k ≤ n.toNat := (Nat.le_log2 hpos).mp hk.ge
    have hhigh : n.toNat < 2 ^ (k + 1) := (Nat.log2_lt hpos).mp (by omega)
    have hk10 : k < 10 := (Nat.pow_lt_pow_iff_right (by decide)).mp (hlow.trans_lt h)
    -- the mantissa is shifted until its leading one is the hidden bit
    have hp : 2 ^ k * 2 ^ (23 - k) = 2 ^ 23 := by rw [← Nat.pow_add, Nat.add_sub_cancel' (by omega)]
    have hge : 2 ^ 23 ≤ n.toNat * 2 ^ (23 - k) := hp ▸ Nat.mul_le_mul_right _ hlow
    have hlt : n.toNat * 2 ^ (23 - k) < 2 ^ 24 := by
      have := Nat.mul_lt_mul_of_pos_right hhigh (Nat.two_pow_pos (23 - k))
      rw [Nat.pow_succ, Nat.mul_right_comm, hp] at this
      exact this
    obtain ⟨f, hf⟩ : ∃ f, n.toNat * 2 ^ (23 - k) = 2 ^ 23 + f := ⟨_, (Nat.add_sub_cancel' hge).symm⟩
    have huint : (ofUint n).toNat = (k + 127) * 2 ^ 23 + f := by
      rw [ofUint, if_neg hn, hk, hf, BitVec.toNat_ofNat, Nat.add_sub_cancel_left]
      exact Nat.mod_eq_of_lt (by omega)
    have hne : ofUint n ≠ 0#32 := fun h0 => by
      rw [h0] at huint
      simp at huint
      omega
    have hdiv : (divPow2 (ofUint n) 24).toNat = (k + 103) * 2 ^ 23 + f := by
      rw [divPow2, if_neg hne, BitVec.toNat_sub_of_le, huint, BitVec.toNat_ofNat]
      · omega
      · rw [BitVec.le_def, huint, BitVec.toNat_ofNat]
        omega
    rw [hdiv]
    refine ⟨by omega, ?_⟩
    rw [magnitude_normal (by omega) (by omega), ← hf, Nat.mul_assoc, ← Nat.pow_add]
    congr 2
    omega

lemma neg_toNat {x : F32} (h : x.toNat < 2 ^ 31) : (neg x).toNat = 2 ^ 31 + x.toNat := by
  have hsplit := Nat.div_add_mod (x.toNat ^^^ 2 ^ 31) (2 ^ 31)
  rw [Nat.xor_div_two_pow, Nat.xor_mod_two_pow, Nat.div_eq_of_lt h, Nat.mod_eq_of_lt h,
    Nat.div_self (Nat.two_pow_pos 31), Nat.mod_self, Nat.xor_zero, Nat.zero_xor, Nat.mul_one] at hsplit
  rw [neg, BitVec.toNat_xor]
  exact hsplit.symm

lemma fp16ToFloat32_subnormal {h : F16} (hlt : h.bits < 2 ^ 10) : Decodes h (fp16ToFloat32 h) := by
  have hexp : ((h >>> 10).setWidth 32 &&& 0x1f#32 : F32) = 0#32 := by
    refine BitVec.eq_of_toNat_eq ?_
    rw [exp32_toNat, Nat.div_eq_of_lt hlt]
    rfl
  have hmant := mant32_toNat h
  rw [Nat.mod_eq_of_lt hlt] at hmant
  obtain ⟨hsmall, hmag⟩ := divPow2_ofUint (hmant.trans_lt hlt)
  rw [hmant, ← magnitude_subnormal hlt] at hmag
  have hsign := sign32_toNat h
  simp only [fp16ToFloat32, hexp, if_true]
  refine decodes_of_toNat ?_ (hsmall.trans_le (by decide)) hmag
  cases hmsb : h.msb with
  | false =>
    rw [hmsb, Bool.toNat_false, Nat.zero_mul] at hsign
    rw [if_neg (not_not.mpr (BitVec.eq_of_toNat_eq hsign))]
    simp
  | true =>
    have hne : ((h &&& 0x8000#16).setWidth 32 <<< 16 : F32) ≠ 0#32 := fun h0 => by
      rw [hmsb, h0] at hsign
      cases hsign
    rw [if_pos hne, neg_toNat (by omega), Bool.toNat_true, Nat.one_mul]

lemma fp16ToFloat32_normal {h : F16} {e f : ℕ} (hf : f < 2 ^ 10) (hbits : h.bits = e * 2 ^ 10 + f)
    (he : 0 < e) (he' : e < 31) : Decodes h (fp16ToFloat32 h) := by
  have hexp : ((h >>> 10).setWidth 32 &&& 0x1f#32 : F32).toNat = e := by
    rw [exp32_toNat, hbits]
    omega
  have hmant : ((h &&& 0x3ff#16).setWidth 32 : F32).toNat = f := by
    rw [mant32_toNat, hbits]
    omega
  have hne : ∀ k : F32, k.toNat = 0 ∨ k.toNat = 31 →
      ((h >>> 10).setWidth 32 &&& 0x1f#32 : F32) ≠ k := fun k hk heq => by
    rw [heq] at hexp
    omega
  have hsign := sign32_toNat h
  have hle := h.msb.toNat_le
  simp only [fp16ToFloat32, if_neg (hne 0#32 (Or.inl rfl)), if_neg (hne 31#32 (Or.inr rfl))]
  -- the three fields do not overlap
  have hfields : 2 ^ 31 * h.msb.toNat ||| (e + 112) * 2 ^ 23 ||| f * 2 ^ 13 =
      h.msb.toNat * 2 ^ 31 + ((e + 112) * 2 ^ 23 + f * 2 ^ 13) := by
    rw [← Nat.two_pow_add_eq_or_of_lt (by omega),
      show 2 ^ 31 * h.msb.toNat + (e + 112) * 2 ^ 23 = 2 ^ 23 * (2 ^ 8 * h.msb.toNat + (e + 112)) by
        ring, ← Nat.two_pow_add_eq_or_of_lt (by omega)]
    ring
  refine decodes_of_toNat (b := (e + 112) * 2 ^ 23 + f * 2 ^ 13) ?_ (by omega) ?_
  · rw [← hfields, BitVec.toNat_or, BitVec.toNat_or, hsign, BitVec.toNat_shiftLeft,
      BitVec.toNat_shiftLeft, BitVec.toNat_add, hexp, hmant, Nat.shiftLeft_eq, Nat.shiftLeft_eq,
      show (112#32).toNat = 112 from rfl, Nat.mod_eq_of_lt (by omega : e + 112 < 2 ^ 32),
      Nat.mod_eq_of_lt (by omega : (e + 112) * 2 ^ 23 < 2 ^ 32),
      Nat.mod_eq_of_lt (by omega : f * 2 ^ 13 < 2 ^ 32), Nat.mul_comm (2 ^ 31)]
  · obtain ⟨d, rfl⟩ : ∃ d, e = d + 1 := ⟨e - 1, by omega⟩
    rw [hbits, magnitude_normal (by omega) (by omega), magnitude_normal he hf, Nat.add_sub_cancel,
      show d + 1 + 112 - 1 = d + 112 by omega]
    ring

lemma fp16ToFloat32_decodes {h : F16} (hfin : h.bits < 0x7c00) : Decodes h (fp16ToFloat32 h) := by
  obtain ⟨e, f, hf, hbits⟩ := exists_fields 10 h.bits
  rcases Nat.eq_zero_or_pos e with rfl | he
  · exact fp16ToFloat32_subnormal (by omega)
  · exact fp16ToFloat32_normal hf hbits he (by omega)

end DecodeSpec

section Rounding

lemma abs_signed (s : Bool) (v : ℚ) : |signed s v| = |v| := by
  cases s with
  | false => rfl
  | true => exact abs_neg v

lemma F32.abs_value (x : F32) : |x.value| = magnitude 23 x.bits / 2 ^ 149 := by
  rw [F32.value, abs_signed, abs_of_nonneg (by positivity)]

lemma F16.value_eq (h : F16) : h.value = signed h.msb (grid h.bits / 2 ^ 149) := by
  rw [F16.value, grid_div]

lemma F16.isFinite_iff (h : F16) : h.isFinite = true ↔ h.bits < 0x7c00 := by
  have hlt := h.isLt
  have hexp : ((h >>> 10) &&& 0x1f#16).toNat = h.bits / 2 ^ 10 := by
    rw [BitVec.toNat_and, BitVec.toNat_ushiftRight, Nat.shiftRight_eq_div_pow,
      show (0x1f#16).toNat = 2 ^ 5 - 1 from rfl, Nat.and_two_pow_sub_one_eq_mod, F16.bits]
    omega
  have hbits : h.bits < 2 ^ 15 := Nat.mod_lt _ (Nat.two_pow_pos 15)
  rw [F16.isFinite, bne_iff_ne, ne_eq, ← BitVec.toNat_inj, hexp, show (0x1f#16).toNat = 31 from rfl]
  omega

lemma Decodes.value {h : F16} {x : F32} (hd : Decodes h x) : x.value = h.value := by
  rw [F32.value, F16.value_eq, hd.sign, hd.magnitude, grid]

lemma signed_sub_self (s : Bool) (v w : ℚ) : |signed s v - signed s w| = |v - w| := by
  cases s with
  | false => rfl
  | true => rw [signed, signed, if_pos rfl, if_pos rfl, neg_sub_neg, abs_sub_comm]

/-- Numbers of the two signs are as far apart as their magnitudes together. -/
lemma signed_sub_of_ne {s t : Bool} (hne : t ≠ s) {v w : ℚ} (hv : 0 ≤ v) (hw : 0 ≤ w) :
    |signed s v - signed t w| = v + w := by
  cases s <;> cases t
  · exact absurd rfl hne
  · rw [signed, signed, if_neg Bool.false_ne_true, if_pos rfl, sub_neg_eq_add,
      abs_of_nonneg (add_nonneg hv hw)]
  · rw [signed, signed, if_neg Bool.false_ne_true, if_pos rfl, ← neg_add', abs_neg,
      abs_of_nonneg (add_nonneg hv hw)]
  · exact absurd rfl hne

/-- `h` is a finite half nearest to `v`, and even where another number is as near. -/
structure NearestHalf (v : ℚ) (h : F16) : Prop where
  finite : h.isFinite = true
  le : ∀ g : F16, g.isFinite = true → |v - h.value| ≤ |v - g.value|
  even : ∀ g : F16, g.isFinite = true → g.value ≠ h.value → |v - g.value| = |v - h.value| →
    h &&& 1#16 = 0#16

lemma F16.and_one_iff (h : F16) : h &&& 1#16 = 0#16 ↔ h.bits % 2 = 0 := by
  rw [← BitVec.toNat_inj, BitVec.toNat_and, show (1#16).toNat = 1 from rfl, Nat.and_one_is_mod,
    F16.bits, show (0#16).toNat = 0 from rfl]
  omega

lemma nearestHalf_of_nearest {x : F32} {h : F16} (hs : h.msb = x.msb) (hfin : h.bits < 0x7c00)
    (hn : Nearest grid (magnitude 23 x.bits) h.bits) : NearestHalf x.value h := by
  have hscale := hn.scale (show (0 : ℚ) < (2 ^ 149)⁻¹ by positivity)
  simp only [← div_eq_mul_inv] at hscale
  have hM : 0 ≤ (magnitude 23 x.bits : ℚ) / 2 ^ 149 := by positivity
  have hpos : ∀ k, 0 ≤ grid k / 2 ^ 149 := fun k => div_nonneg (Nat.cast_nonneg _) (by positivity)
  have hzero : grid 0 / 2 ^ 149 = 0 := by rw [grid_zero, zero_div]
  have hsame : ∀ g : F16, g.msb = x.msb → |x.value - g.value| =
      |(magnitude 23 x.bits : ℚ) / 2 ^ 149 - grid g.bits / 2 ^ 149| := fun g hg => by
    rw [F32.value, F16.value_eq, hg, signed_sub_self]
  have hother : ∀ g : F16, g.msb ≠ x.msb → |x.value - g.value| =
      (magnitude 23 x.bits : ℚ) / 2 ^ 149 + grid g.bits / 2 ^ 149 := fun g hg => by
    rw [F32.value, F16.value_eq, signed_sub_of_ne hg hM (hpos _)]
  -- zero is a candidate, so no half of the other sign is nearer
  have hle0 := hscale.le 0
  rw [hzero, sub_zero, abs_of_nonneg hM] at hle0
  refine ⟨(F16.isFinite_iff h).mpr hfin, fun g _ => ?_, fun g _ hne heq => ?_⟩
  · rw [hsame h hs]
    by_cases hg : g.msb = x.msb
    · rw [hsame g hg]
      exact hscale.le _
    · rw [hother g hg]
      exact hle0.trans (le_add_of_nonneg_right (hpos _))
  · rw [F16.and_one_iff]
    rw [hsame h hs] at heq
    by_cases hg : g.msb = x.msb
    · rw [hsame g hg] at heq
      refine hscale.even g.bits (fun hb => hne ?_) heq
      rw [F16.value_eq, F16.value_eq, hb, hg, hs]
    · rw [hother g hg] at heq
      by_cases hb : h.bits = 0
      · rw [hb]
      · refine hscale.even 0 (Ne.symm hb) ?_
        rw [hzero, sub_zero, abs_of_nonneg hM]
        have := hpos g.bits
        linarith

/-- The overflow bound is the middle between the last half and the next power of two. -/
lemma overflow_iff (x : F32) : fp16FromFloat32 x = none ↔ 65520 ≤ |x.value| := by
  rw [F32.abs_value, le_div_iff₀ (by positivity)]
  rcases Nat.lt_or_ge x.bits (143 * 2 ^ 23) with hlt | hge
  · obtain ⟨R, hR⟩ := rounds_of_small hlt
    have hodd := hR.nearest.lt_iff_of_odd grid_strictMono (k := 0x7bff) rfl
    have hlast : grid 0x7bff + grid (0x7bff + 1) = 2 * (65520 * 2 ^ 149) := by
      norm_num [grid, magnitude]
    rw [hlast, mul_le_mul_iff_right₀ (by decide)] at hodd
    rw [← hodd]
    refine ⟨fun hnone => ?_, fun h => hR.none h⟩
    by_contra hle
    obtain ⟨h, hsome, -⟩ := hR.some (by omega)
    rw [hnone] at hsome
    cases hsome
  · refine iff_of_true (fp16FromFloat32_big hge) ?_
    have hmono := (magnitude_strictMono 23).monotone hge
    rw [show 143 * 2 ^ 23 = 143 * 2 ^ 23 + 0 from rfl,
      magnitude_normal (by decide) (Nat.two_pow_pos 23)] at hmono
    have hbig : 65520 * 2 ^ 149 ≤ magnitude 23 x.bits := le_trans (by norm_num) hmono
    exact_mod_cast hbig

/-- The rounding of a conversion that gives a half. -/
lemma rounds_of_some {x : F32} {h : F16} (hx : fp16FromFloat32 x = some h) :
    Rounds x h.bits ∧ h.msb = x.msb ∧ h.bits < 0x7c00 := by
  rcases Nat.lt_or_ge x.bits (143 * 2 ^ 23) with hlt | hge
  · obtain ⟨R, hR⟩ := rounds_of_small hlt
    rcases Nat.lt_or_ge R 0x7c00 with hfin | hinf
    · obtain ⟨h', hsome, hs, rfl⟩ := hR.some hfin
      rw [hx] at hsome
      cases hsome
      exact ⟨hR, hs, hfin⟩
    · rw [hR.none hinf] at hx
      cases hx
  · rw [fp16FromFloat32_big hge] at hx
    cases hx

lemma Rounds.zero {x : F32} {R : ℕ} (hR : Rounds x R) (hx : (magnitude 23 x.bits : ℚ) = 0) :
    R = 0 := by
  have hself := nearest_self grid_strictMono 0
  rw [grid_zero, ← hx] at hself
  exact hR.nearest.unique grid_strictMono hself

lemma magnitude_mono_iff {x y : F32} :
    (magnitude 23 x.bits : ℚ) / 2 ^ 149 ≤ magnitude 23 y.bits / 2 ^ 149 ↔
      (magnitude 23 x.bits : ℚ) ≤ magnitude 23 y.bits :=
  div_le_div_iff_of_pos_right (by positivity)

/-- Larger numbers have larger halves; at zero the two signs have one value. -/
lemma value_mono {x y : F32} {h k : F16} (hle : x.value ≤ y.value)
    (hx : fp16FromFloat32 x = some h) (hy : fp16FromFloat32 y = some k) : h.value ≤ k.value := by
  obtain ⟨hrx, hsx, -⟩ := rounds_of_some hx
  obtain ⟨hry, hsy, -⟩ := rounds_of_some hy
  have hpos : ∀ b, 0 ≤ grid b / 2 ^ 149 := fun b => div_nonneg (Nat.cast_nonneg _) (by positivity)
  have hmono : ∀ {x y : F32} {R R' : ℕ}, Rounds x R → Rounds y R' →
      (magnitude 23 x.bits : ℚ) / 2 ^ 149 ≤ magnitude 23 y.bits / 2 ^ 149 →
      grid R / 2 ^ 149 ≤ grid R' / 2 ^ 149 := fun hR hR' h =>
    div_le_div_of_nonneg_right (grid_strictMono.monotone (hR.nearest.mono grid_strictMono
      hR'.nearest (magnitude_mono_iff.mp h))) (by positivity)
  rw [F32.value, F32.value] at hle
  rw [F16.value_eq, F16.value_eq, hsx, hsy]
  have hxpos : 0 ≤ (magnitude 23 x.bits : ℚ) / 2 ^ 149 := by positivity
  have hypos : 0 ≤ (magnitude 23 y.bits : ℚ) / 2 ^ 149 := by positivity
  have hh := hpos h.bits
  have hk := hpos k.bits
  cases hmx : x.msb <;> cases hmy : y.msb <;>
    simp only [hmx, hmy, signed, if_true, if_false, Bool.false_eq_true] at hle ⊢
  · exact hmono hrx hry hle
  · have hzero : ∀ {z : F32} {R : ℕ}, Rounds z R →
        (magnitude 23 z.bits : ℚ) / 2 ^ 149 = 0 → grid R = 0 := fun hR hz => by
      rw [hR.zero ((div_eq_zero_iff.mp hz).resolve_right (by positivity)), grid_zero]
    rw [hzero hrx (by linarith), hzero hry (by linarith), zero_div, neg_zero]
  · linarith
  · exact neg_le_neg (hmono hry hrx (by linarith))

/-- A decoded half is its own nearest one. -/
lemma roundtrip {h : F16} (hfin : h.bits < 0x7c00) {x : F32} (hd : Decodes h x) :
    fp16FromFloat32 x = some h := by
  obtain ⟨R, hR⟩ := rounds_of_small hd.small
  have hself := nearest_self grid_strictMono h.bits
  rw [grid, ← hd.magnitude] at hself
  obtain rfl := hR.nearest.unique grid_strictMono hself
  obtain ⟨h', hsome, hs, hb⟩ := hR.some hfin
  have heq : h' = h := by
    refine BitVec.eq_of_toNat_eq ?_
    rw [toNat_eq_sign (w := 15) h', toNat_eq_sign (w := 15) h, hs, hd.sign]
    exact congrArg _ hb
  rw [hsome, heq]

lemma abs_value_sub_le {x : F32} {h : F16} (hs : h.msb = x.msb) (hR : Rounds x h.bits) :
    |h.value - x.value| ≤ max (|x.value| / 2 ^ 11) (1 / 2 ^ 25) := by
  rw [abs_sub_comm, F32.abs_value, F32.value, F16.value_eq, hs, signed_sub_self, ← sub_div, abs_div,
    abs_of_pos (show (0 : ℚ) < 2 ^ 149 by positivity), div_le_iff₀ (by positivity)]
  refine hR.error.trans (max_le ?_ ?_)
  · refine le_trans (le_of_eq ?_) (mul_le_mul_of_nonneg_right (le_max_left _ _) (by positivity))
    rw [div_right_comm, div_mul_cancel₀ _ (by positivity)]
  · refine le_trans (le_of_eq ?_) (mul_le_mul_of_nonneg_right (le_max_right _ _) (by positivity))
    norm_num

/-- `fp16FromFloat32` rounds correctly: it overflows from the middle above the last half on, and
otherwise gives the nearest half with the sign of its argument, ties to even. -/
theorem fp16_conversion_rounds_correctly :
    (∀ x : F32, x.isFinite = true →
      (fp16FromFloat32 x = none ↔ 65520 ≤ |x.value|) ∧
      ∀ h, fp16FromFloat32 x = some h →
        h.msb = x.msb ∧ NearestHalf x.value h ∧
        |(fp16ToFloat32 h).value - x.value| ≤ max (|x.value| / 2 ^ 11) (1 / 2 ^ 25)) ∧
    (∀ x y : F32, x.isFinite = true → y.isFinite = true → x.value ≤ y.value →
      ∀ h k, fp16FromFloat32 x = some h → fp16FromFloat32 y = some k → h.value ≤ k.value) ∧
    ∀ h : F16, h.isFinite = true →
      (fp16ToFloat32 h).value = h.value ∧ fp16FromFloat32 (fp16ToFloat32 h) = some h := by
  refine ⟨fun x _ => ⟨overflow_iff x, fun h hx => ?_⟩, fun x y _ _ hle h k hx hy =>
    value_mono hle hx hy, fun h hfin => ?_⟩
  · obtain ⟨hR, hs, hfin⟩ := rounds_of_some hx
    refine ⟨hs, nearestHalf_of_nearest hs hfin hR.nearest, ?_⟩
    rw [(fp16ToFloat32_decodes hfin).value]
    exact abs_value_sub_le hs hR
  · have hd := fp16ToFloat32_decodes ((F16.isFinite_iff h).mp hfin)
    exact ⟨hd.value, roundtrip ((F16.isFinite_iff h).mp hfin) hd⟩

-- a third, 65520 and the negative zero
theorem fp16_conversion_rounds_correctly_third :
    NearestHalf (F32.value 0x3eaaaaab#32) 0x3555#16 ∧ 65520 ≤ |F32.value 0x477ff000#32| ∧
      fp16FromFloat32 (fp16ToFloat32 0x8000#16) = some 0x8000#16 := by
  obtain ⟨hround, -, htrip⟩ := fp16_conversion_rounds_correctly
  refine ⟨?_, ?_, (htrip 0x8000#16 (by decide)).2⟩
  · exact ((hround 0x3eaaaaab#32 (by decide)).2 0x3555#16 (by decide)).2.1
  · exact (hround 0x477ff000#32 (by decide)).1.mp (by decide)

end Rounding

end CloudyNeigh.VectorFormat
