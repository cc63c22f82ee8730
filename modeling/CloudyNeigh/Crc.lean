import Mathlib.Data.BitVec
import Mathlib.Data.Nat.Digits.Lemmas
import Mathlib.Logic.Function.Iterate

/-!
# Burst errors under a reflected CRC

The state of a cyclic redundancy check of width `w` whose bits are taken from the
low end. A step is linear, and injective where the polynomial has its top bit. So
the state after up to `w / 8` bytes is as many steps of the state before them with
their value added, and two such bursts that differ never meet again.
-/
namespace CloudyNeigh.Crc

variable {w : ℕ} {poly : BitVec w}

def bit (poly c : BitVec w) : BitVec w := if c.getLsbD 0 then (c >>> 1) ^^^ poly else c >>> 1

def byte (poly c : BitVec w) (b : UInt8) : BitVec w := (bit poly)^[8] (c ^^^ BitVec.ofNat w b.toNat)

def run (poly c : BitVec w) (bytes : List UInt8) : BitVec w := bytes.foldl (byte poly) c

/-- The bytes as a number, the first one lowest. -/
def value (bytes : List UInt8) : ℕ := Nat.ofDigits 256 (bytes.map UInt8.toNat)

lemma value_cons (b : UInt8) (bytes : List UInt8) :
    value (b :: bytes) = b.toNat + 256 * value bytes := Nat.ofDigits_cons ..

lemma toNat_map_lt (bytes : List UInt8) : ∀ d ∈ bytes.map UInt8.toNat, d < 256 := by
  intro d hd
  obtain ⟨b, -, rfl⟩ := List.mem_map.mp hd
  exact b.toNat_lt

lemma value_lt (bytes : List UInt8) : value bytes < 2 ^ (8 * bytes.length) := by
  have hlt := Nat.ofDigits_lt_base_pow_length (by decide) (toNat_map_lt bytes)
  rw [List.length_map] at hlt
  rw [Nat.pow_mul]
  exact hlt

lemma value_inj {a b : List UInt8} (hlen : a.length = b.length) (h : value a = value b) : a = b := by
  have hmap := Nat.ofDigits_inj_of_len_eq (by decide) (by simpa using hlen) (toNat_map_lt a)
    (toNat_map_lt b) h
  exact List.map_injective_iff.mpr (fun x y hxy => UInt8.toNat_inj.mp hxy) hmap

section Linear

lemma bit_xor (x y : BitVec w) : bit poly (x ^^^ y) = bit poly x ^^^ bit poly y := by
  unfold bit
  rw [BitVec.getLsbD_xor, BitVec.ushiftRight_xor_distrib]
  cases x.getLsbD 0 with
  | false =>
    cases y.getLsbD 0 with
    | false => simp
    | true => simp [BitVec.xor_assoc]
  | true =>
    cases y.getLsbD 0 with
    | false =>
      simp only [Bool.xor_false, if_true, Bool.false_eq_true, if_false]
      rw [BitVec.xor_assoc, BitVec.xor_assoc, BitVec.xor_comm (y >>> 1)]
    | true =>
      simp only [Bool.xor_self, if_true, Bool.false_eq_true, if_false]
      rw [BitVec.xor_assoc, BitVec.xor_comm (y >>> 1) poly, ← BitVec.xor_assoc poly poly]
      simp

lemma bits_xor (n : ℕ) (x y : BitVec w) :
    (bit poly)^[n] (x ^^^ y) = (bit poly)^[n] x ^^^ (bit poly)^[n] y := by
  induction n generalizing x y with
  | zero => rfl
  | succ n ih => rw [Function.iterate_succ_apply, bit_xor, ih]; rfl

/-- A step keeps apart what differs: the bit that it drops sets the top bit. -/
lemma bit_injective (hpoly : poly.msb = true) : Function.Injective (bit poly) := by
  have hzero : ∀ c, bit poly c = 0#w → c = 0#w := by
    intro c hc
    unfold bit at hc
    split at hc
    · have hmsb := congrArg BitVec.msb (BitVec.xor_eq_zero_iff.mp hc)
      rw [BitVec.msb_ushiftRight, hpoly] at hmsb
      cases hmsb
    · rename_i hlow
      apply BitVec.eq_of_toNat_eq
      have hhalf := congrArg BitVec.toNat hc
      rw [BitVec.toNat_ushiftRight, Nat.shiftRight_eq_div_pow, pow_one] at hhalf
      have heven : ¬ c.toNat % 2 = 1 := by
        simpa [BitVec.getLsbD, Nat.testBit_zero] using hlow
      rw [BitVec.toNat_ofNat, Nat.zero_mod] at hhalf ⊢
      omega
  intro x y hxy
  apply BitVec.xor_eq_zero_iff.mp
  apply hzero
  rw [bit_xor, hxy, BitVec.xor_self]

lemma byte_injective (hpoly : poly.msb = true) (b : UInt8) :
    Function.Injective fun c => byte poly c b := fun _ _ h =>
  (BitVec.xor_left_inj _).mp ((bit_injective hpoly).iterate 8 h)

lemma run_injective (hpoly : poly.msb = true) (bytes : List UInt8) :
    Function.Injective fun c => run poly c bytes := by
  induction bytes with
  | nil => exact fun _ _ h => h
  | cons b bytes ih => exact fun _ _ h => byte_injective hpoly b (ih h)

end Linear

section Burst

/-- A step halves an even number. -/
lemma bits_shift (n : ℕ) {x : ℕ} (hx : 2 ^ n * x < 2 ^ w) :
    (bit poly)^[n] (BitVec.ofNat w (2 ^ n * x)) = BitVec.ofNat w x := by
  induction n with
  | zero => simp
  | succ n ih =>
    have hdouble : 2 ^ (n + 1) * x = 2 * (2 ^ n * x) := by ring
    rw [hdouble] at hx ⊢
    have hstep : bit poly (BitVec.ofNat w (2 * (2 ^ n * x))) = BitVec.ofNat w (2 ^ n * x) := by
      have hlow : (BitVec.ofNat w (2 * (2 ^ n * x))).getLsbD 0 = false := by
        simp [BitVec.getLsbD_ofNat, Nat.testBit_zero]
      rw [bit, hlow, if_neg Bool.false_ne_true]
      apply BitVec.eq_of_toNat_eq
      rw [BitVec.toNat_ushiftRight, BitVec.toNat_ofNat, BitVec.toNat_ofNat, Nat.mod_eq_of_lt hx,
        Nat.mod_eq_of_lt (by omega), Nat.shiftRight_eq_div_pow]
      omega
    rw [Function.iterate_succ_apply, hstep]
    exact ih (by omega)

lemma ofNat_xor_shift {b x : ℕ} (hb : b < 256) :
    BitVec.ofNat w b ^^^ BitVec.ofNat w (2 ^ 8 * x) = BitVec.ofNat w (b + 256 * x) := by
  rw [← BitVec.ofNat_xor]
  congr 1
  rw [Nat.add_comm, show 256 * x = 2 ^ 8 * x by norm_num]
  apply Nat.eq_of_testBit_eq
  intro i
  rw [Nat.testBit_xor, Nat.testBit_two_pow_mul_add x (show b < 2 ^ 8 from hb),
    Nat.testBit_two_pow_mul]
  by_cases hi : i < 8
  · simp [hi, not_le.mpr hi]
  · have hbit : b.testBit i = false :=
      Nat.testBit_lt_two_pow (lt_of_lt_of_le hb (show 2 ^ 8 ≤ 2 ^ i from
        Nat.pow_le_pow_right (by decide) (by omega)))
    simp [hi, hbit, not_lt.mp hi]

/-- Bytes that fit the state are added to it at once. -/
theorem run_burst (bytes : List UInt8) (c : BitVec w) (h : 8 * bytes.length ≤ w) :
    run poly c bytes =
      (bit poly)^[8 * bytes.length] (c ^^^ BitVec.ofNat w (value bytes)) := by
  induction bytes generalizing c with
  | nil => simp [run, value]
  | cons b bytes ih =>
    have hlen : 8 * (b :: bytes).length = 8 * bytes.length + 8 := by
      rw [List.length_cons]
      ring
    have hfit : 2 ^ 8 * value bytes < 2 ^ w := by
      have hlt := value_lt bytes
      calc 2 ^ 8 * value bytes < 2 ^ 8 * 2 ^ (8 * bytes.length) := by omega
        _ = 2 ^ (8 * (b :: bytes).length) := by rw [← Nat.pow_add, hlen, Nat.add_comm]
        _ ≤ 2 ^ w := Nat.pow_le_pow_right (by decide) h
    have hnext : byte poly c b ^^^ BitVec.ofNat w (value bytes) =
        (bit poly)^[8] (c ^^^ BitVec.ofNat w (value (b :: bytes))) := by
      rw [byte, ← bits_shift 8 hfit, ← bits_xor, BitVec.xor_assoc,
        ofNat_xor_shift b.toNat_lt, value_cons]
    rw [show run poly c (b :: bytes) = run poly (byte poly c b) bytes from rfl,
      ih _ (by rw [hlen] at h; omega), hnext, hlen, Function.iterate_add_apply]

/-- Two messages that differ in one burst that fits the state leave different states. -/
theorem run_ne_of_burst (hpoly : poly.msb = true) {old new : List UInt8} (c : BitVec w)
    (front back : List UInt8) (hlen : old.length = new.length) (hfit : 8 * old.length ≤ w)
    (hne : old ≠ new) : run poly c (front ++ old ++ back) ≠ run poly c (front ++ new ++ back) := by
  intro heq
  have happend : ∀ c a b, run poly c (a ++ b) = run poly (run poly c a) b :=
    fun _ _ _ => List.foldl_append
  simp only [happend] at heq
  have hburst := run_injective hpoly back heq
  rw [run_burst old _ hfit, run_burst new _ (by omega), hlen] at hburst
  have hvalue := (BitVec.xor_right_inj _).mp ((bit_injective hpoly).iterate _ hburst)
  have hlt : ∀ bytes : List UInt8, 8 * bytes.length ≤ w → value bytes < 2 ^ w := fun bytes h =>
    (value_lt bytes).trans_le (Nat.pow_le_pow_right (by decide) h)
  have hnat := congrArg BitVec.toNat hvalue
  rw [BitVec.toNat_ofNat, BitVec.toNat_ofNat, Nat.mod_eq_of_lt (hlt old hfit),
    Nat.mod_eq_of_lt (hlt new (by omega))] at hnat
  exact hne (value_inj hlen hnat)

end Burst

end CloudyNeigh.Crc
