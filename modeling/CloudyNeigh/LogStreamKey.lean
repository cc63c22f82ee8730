import CloudyNeigh.RecordIOFrame
import Mathlib.Data.List.Infix

/-!
# Write-ahead log keys

Go strings are byte strings here. `segmentKey` and `parseSeq` are the two
directions of the codec between sequence numbers and object keys.
-/
namespace CloudyNeigh.LogStream
open RecordIO

/-- The bytes of an ASCII literal. -/
def ascii (s : String) : Bytes := s.toList.map fun c => UInt8.ofNat c.toNat

def slash : UInt8 := 0x2f

/-- `%0wd` of a number below `10 ^ w`. -/
def fixedDigits : ℕ → ℕ → Bytes
  | 0, _ => []
  | w + 1, n => fixedDigits w (n / 10) ++ [UInt8.ofNat (48 + n % 10)]

def seqSuffix : Bytes := ascii ".recordio"

/-- Twenty digits hold every `uint64`. -/
def segmentKey (pfx : Bytes) (seq : ℕ) : Bytes :=
  pfx ++ [slash] ++ fixedDigits 20 seq ++ seqSuffix

/-- `path.Base`. -/
def pathBase (p : Bytes) : Bytes :=
  if p = [] then ascii "."
  else
    let last := ((p.reverse.dropWhile (· = slash)).takeWhile (· ≠ slash)).reverse
    if last = [] then [slash] else last

def isDigit (b : UInt8) : Bool := 48 ≤ b && b ≤ 57

def digitsValue (s : Bytes) : ℕ := s.foldl (fun acc b => acc * 10 + (b.toNat - 48)) 0

/-- `strconv.ParseUint(s, 10, 64)`. -/
def parseUint (s : Bytes) : Option ℕ :=
  if s ≠ [] ∧ s.all isDigit then
    if digitsValue s < 2 ^ 64 then some (digitsValue s) else none
  else none

inductive KeyErr
  | noSuffix
  | badLength (length : ℕ)
  | invalidNumber
  | zeroSeq
  deriving DecidableEq, Repr

def parseSeq (key : Bytes) : Except KeyErr ℕ :=
  let base := pathBase key
  if ¬ seqSuffix <:+ base then .error .noSuffix
  else
    let raw := base.take (base.length - seqSuffix.length)
    if raw.length ≠ 20 then .error (.badLength raw.length)
    else
      match parseUint raw with
      | none => .error .invalidNumber
      | some seq => if seq = 0 then .error .zeroSeq else .ok seq

/-- The prefixes that `New` accepts. -/
def validPrefix (pfx : Bytes) : Bool :=
  !(pfx.isEmpty || pfx.head? == some slash || pfx.getLast? == some slash ||
      decide ([slash, slash] <:+: pfx)) &&
    pfx.all fun c =>
      (97 ≤ c && c ≤ 122) || (65 ≤ c && c ≤ 90) || isDigit c || c == 0x5f || c == 0x2d || c == slash

@[simp] theorem fixedDigits_length (w n : ℕ) : (fixedDigits w n).length = w := by
  induction w generalizing n with
  | zero => rfl
  | succ w ih => simp [fixedDigits, ih]

theorem digit_toNat (n : ℕ) : (UInt8.ofNat (48 + n % 10)).toNat = 48 + n % 10 := by
  have : n % 10 < 10 := Nat.mod_lt _ (by norm_num)
  simp only [UInt8.toNat_ofNat', Nat.reducePow]
  omega

theorem fixedDigits_isDigit (w n : ℕ) : ∀ b ∈ fixedDigits w n, isDigit b = true := by
  induction w generalizing n with
  | zero => simp [fixedDigits]
  | succ w ih =>
    intro b hb
    rcases List.mem_append.mp hb with hb | hb
    · exact ih _ b hb
    · rw [List.mem_singleton.mp hb]
      have hd := digit_toNat n
      have : n % 10 < 10 := Nat.mod_lt _ (by norm_num)
      simp only [isDigit, Bool.and_eq_true, decide_eq_true_eq, UInt8.le_iff_toNat_le, hd]
      constructor
      · simp
      · simp only [UInt8.reduceToNat]
        omega

theorem digitsValue_fixedDigits (w n : ℕ) : digitsValue (fixedDigits w n) = n % 10 ^ w := by
  induction w generalizing n with
  | zero => simp [fixedDigits, digitsValue, Nat.mod_one]
  | succ w ih =>
    have hi := ih (n / 10)
    unfold digitsValue at hi ⊢
    rw [fixedDigits, List.foldl_append, hi]
    simp only [List.foldl_cons, List.foldl_nil, digit_toNat]
    rw [pow_succ', Nat.mod_mul]
    omega

theorem segmentKey_injective {pfx : Bytes} {m n : ℕ} (hm : m < 2 ^ 64) (hn : n < 2 ^ 64)
    (h : segmentKey pfx m = segmentKey pfx n) : m = n := by
  have hd : fixedDigits 20 m = fixedDigits 20 n := by
    simpa [segmentKey] using h
  have hv := congrArg digitsValue hd
  rw [digitsValue_fixedDigits, digitsValue_fixedDigits] at hv
  omega

/-- The last path element, after a slash. -/
theorem pathBase_append (pfx : Bytes) {name : Bytes} (hne : name ≠ []) (hs : slash ∉ name) :
    pathBase (pfx ++ slash :: name) = name := by
  have hall : ∀ b ∈ name.reverse, (decide (b ≠ slash)) = true := by
    intro b hb
    simpa using fun he : b = slash => hs (he ▸ List.mem_reverse.mp hb)
  have hrev : (pfx ++ slash :: name).reverse = name.reverse ++ slash :: pfx.reverse := by simp
  have hdrop : (pfx ++ slash :: name).reverse.dropWhile (· = slash) =
      (pfx ++ slash :: name).reverse := by
    obtain ⟨b, rest, hb⟩ := List.exists_cons_of_ne_nil (List.reverse_ne_nil_iff.mpr hne)
    have hbs : b ≠ slash := by simpa using hall b (by simp [hb])
    rw [hrev, hb, List.cons_append, List.dropWhile_cons_of_neg (by simpa using hbs)]
  have htake : (pfx ++ slash :: name).reverse.takeWhile (· ≠ slash) = name.reverse := by
    rw [hrev, List.takeWhile_append_of_pos hall, List.takeWhile_cons_of_neg (by simp)]
    simp
  unfold pathBase
  rw [if_neg (by simp)]
  simp only [hdrop, htake, List.reverse_reverse]
  rw [if_neg hne]

lemma slash_not_mem_digits (seq : ℕ) : slash ∉ fixedDigits 20 seq ++ seqSuffix := by
  intro hmem
  rcases List.mem_append.mp hmem with h | h
  · exact absurd (fixedDigits_isDigit 20 seq slash h) (by decide)
  · exact absurd h (by decide)

/-- The last path element of a log key is its twenty digits and the suffix. -/
theorem pathBase_segmentKey (pfx : Bytes) (seq : ℕ) :
    pathBase (segmentKey pfx seq) = fixedDigits 20 seq ++ seqSuffix := by
  have hkey : segmentKey pfx seq = pfx ++ slash :: (fixedDigits 20 seq ++ seqSuffix) := by
    simp [segmentKey]
  rw [hkey]
  exact pathBase_append pfx (by simp [seqSuffix, ascii]) (slash_not_mem_digits seq)

theorem parseSeq_segmentKey (pfx : Bytes) {seq : ℕ} (h : seq < 2 ^ 64) :
    parseSeq (segmentKey pfx seq) = if seq = 0 then .error .zeroSeq else .ok seq := by
  have hv : digitsValue (fixedDigits 20 seq) = seq := by
    rw [digitsValue_fixedDigits]
    omega
  have hne : fixedDigits 20 seq ≠ [] := by
    intro he
    simpa [he] using fixedDigits_length 20 seq
  have hall : (fixedDigits 20 seq).all isDigit = true :=
    List.all_eq_true.mpr (fixedDigits_isDigit 20 seq)
  have hp : parseUint (fixedDigits 20 seq) = some seq := by
    simp only [parseUint, ne_eq, hne, not_false_eq_true, hall, and_self, ↓reduceIte, hv, h]
  unfold parseSeq
  simp only [pathBase_segmentKey, List.suffix_append, not_true_eq_false, ↓reduceIte,
    List.length_append, Nat.add_sub_cancel, List.take_left', fixedDigits_length, ne_eq, hp]

end CloudyNeigh.LogStream
