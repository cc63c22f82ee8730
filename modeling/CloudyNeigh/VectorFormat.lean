import Mathlib.Algebra.Group.Nat.Defs
import Mathlib.Data.Int.Order.Basic
import Mathlib.Data.List.Basic

/-!
# float32 bits, fp16 encoding, kernels

A `float32` is its bit pattern. Comparison, `cmp.Compare` and the conversion to
fp16 are computed on the bits. The rounded operations and the distance kernels
are parameters: nothing in the table depends on how they round.
-/
namespace CloudyNeigh.VectorFormat

abbrev F32 := BitVec 32
abbrev F16 := BitVec 16

namespace F32

def expBits (x : F32) : ℕ := ((x >>> 23) &&& 0xff#32).toNat
def mantBits (x : F32) : F32 := x &&& 0x7fffff#32
def isNaN (x : F32) : Bool := x.expBits == 255 && x.mantBits != 0
def isInf (x : F32) : Bool := x.expBits == 255 && x.mantBits == 0

/-- The numeric order of the values that are not NaN; both zeros are 0. -/
def rank (x : F32) : ℤ := if x.msb then -((x.toNat - 2 ^ 31 : ℕ) : ℤ) else (x.toNat : ℤ)

def eq (x y : F32) : Bool := !x.isNaN && !y.isNaN && x.rank == y.rank
def lt (x y : F32) : Bool := !x.isNaN && !y.isNaN && decide (x.rank < y.rank)

/-- `cmp.Compare`: a NaN is equal to a NaN and below every number. -/
def compare (x y : F32) : Ordering :=
  if x.isNaN then if y.isNaN then .eq else .lt
  else if y.isNaN then .gt
  else if x.lt y then .lt
  else if y.lt x then .gt
  else .eq

def zero : F32 := 0#32
def one : F32 := 0x3f800000#32
def negOne : F32 := 0xbf800000#32

end F32

/-- The rounded operations of `float32`; `invSqrt x` is `float32(1 / math.Sqrt(float64(x)))`. -/
structure Arith where
  add : F32 → F32 → F32
  sub : F32 → F32 → F32
  mul : F32 → F32 → F32
  invSqrt : F32 → F32

/-- `Dot16` is nil for the float32 variants. -/
structure Kernels where
  Dot : List F32 → List F32 → F32
  L2 : List F32 → List F32 → F32
  Dot16 : Option (List F32 → List F16 → F32) := none
  L216 : List F32 → List F16 → F32 := fun _ _ => F32.zero
  Decode16 : List F16 → List F32 := fun _ => []

def Kernels.is16 (k : Kernels) : Bool := k.Dot16.isSome

/-- Round `v / 2 ^ shift` to nearest, ties to even. -/
def roundShift (v : F32) (shift : ℕ) (half : F32) : F32 :=
  let rem := v &&& (1#32 <<< shift - 1#32)
  let mid := 1#32 <<< (shift - 1)
  if mid < rem ∨ (rem = mid ∧ half &&& 1#32 = 1#32) then half + 1#32 else half

def fp16FromFloat32 (x : F32) : Option F16 :=
  let sign : F16 := (x >>> 16).truncate 16 &&& 0x8000#16
  let exp : ℤ := (x.expBits : ℤ) - 127 + 15
  let mant := x.mantBits
  if 31 ≤ exp then none
  else if exp < -10 then some sign
  else if exp ≤ 0 then
    let mant := mant ||| 0x800000#32
    let shift := (14 - exp).toNat
    let half := roundShift mant shift (mant >>> shift)
    some (sign ||| half.truncate 16)
  else
    let half := roundShift mant 13 (BitVec.ofInt 32 exp <<< 10 ||| mant >>> 13)
    if 0x7c00#32 ≤ half then none else some (sign ||| half.truncate 16)

inductive EncodeErr
  | nonFinite
  | overflow
  deriving DecidableEq, Repr

/-- The destination has the length of the source at its only call. -/
def EncodeFP16 : List F32 → Except EncodeErr (List F16)
  | [] => .ok []
  | x :: xs =>
    if x.isNaN || x.isInf then .error .nonFinite
    else
      match fp16FromFloat32 x with
      | none => .error .overflow
      | some h =>
        match EncodeFP16 xs with
        | .error e => .error e
        | .ok hs => .ok (h :: hs)

lemma EncodeFP16_length {xs : List F32} {hs : List F16} (h : EncodeFP16 xs = .ok hs) :
    hs.length = xs.length := by
  induction xs generalizing hs with
  | nil =>
    cases h
    rfl
  | cons x xs ih =>
    unfold EncodeFP16 at h
    split at h
    · cases h
    · split at h
      · cases h
      · split at h
        · cases h
        · rename_i hs' htail
          cases h
          simp [ih htail]

-- 1, 1/3, 65519.996, 65520, 2^-24 and -2^-26
example : [0x3f800000, 0x3eaaaaab, 0x477fefff, 0x477ff000, 0x33800000, 0xb2800000].map
    fp16FromFloat32 =
    [some 0x3c00, some 0x3555, some 0x7bff, none, some 0x0001, some 0x8000] := by decide

end CloudyNeigh.VectorFormat
