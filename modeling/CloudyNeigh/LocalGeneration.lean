import CloudyNeigh.RecordIOFrame
import Mathlib.Data.Nat.Digits.Defs
import Mathlib.Data.Nat.Digits.Lemmas

/-!
# Generations of the local store

A generation is the modification time and the size of the file in hexadecimal.
Different pairs give different strings.
-/
namespace CloudyNeigh.LocalStore
open RecordIO

def minus : UInt8 := 0x2d
def plus : UInt8 := 0x2b

def maxInt64 : ℤ := 2 ^ 63 - 1
def minInt64 : ℤ := -2 ^ 63

def hexDigit (d : ℕ) : UInt8 := if d < 10 then UInt8.ofNat (48 + d) else UInt8.ofNat (87 + d)

def hex (n : ℕ) : Bytes := if n = 0 then [48] else (Nat.digits 16 n).reverse.map hexDigit

/-- `strconv.FormatInt(i, 16)`. -/
def formatInt (i : ℤ) : Bytes := if i < 0 then minus :: hex i.natAbs else hex i.natAbs

def localGeneration (modTime : ℤ) (size : ℕ) : Bytes := formatInt modTime ++ minus :: formatInt size

def hexValue (b : UInt8) : Option ℕ :=
  if 48 ≤ b ∧ b ≤ 57 then some (b.toNat - 48)
  else if 97 ≤ b ∧ b ≤ 102 then some (b.toNat - 87)
  else if 65 ≤ b ∧ b ≤ 70 then some (b.toNat - 55)
  else none

def parseHex (s : Bytes) : Option ℕ :=
  if s = [] then none else s.foldlM (fun acc b => (hexValue b).map fun d => acc * 16 + d) 0

/-- `strconv.ParseInt(s, 16, 64)`. -/
def parseInt (s : Bytes) : Option ℤ :=
  let negative := s.head? = some minus
  let digits := if negative ∨ s.head? = some plus then s.tail else s
  match parseHex digits with
  | none => none
  | some v =>
    if negative then if (v : ℤ) ≤ -minInt64 then some (-v) else none
    else if (v : ℤ) ≤ maxInt64 then some v else none

def validLocalGeneration (g : Bytes) : Bool :=
  decide (minus ∈ g) && (parseInt (g.takeWhile (· ≠ minus))).isSome &&
    (parseInt (g.dropWhile (· ≠ minus)).tail).isSome

lemma hexValue_hexDigit {d : ℕ} (h : d < 16) : hexValue (hexDigit d) = some d := by
  revert d
  decide

lemma parseHex_hex (n : ℕ) : parseHex (hex n) = some n := by
  unfold hex
  split
  · rename_i h
    rw [h]
    rfl
  · rename_i h
    have hne : Nat.digits 16 n ≠ [] := Nat.digits_ne_nil_iff_ne_zero.mpr h
    have hlt : ∀ d ∈ Nat.digits 16 n, d < 16 := fun d hd => Nat.digits_lt_base (by omega) hd
    -- the digits from the most significant one on, as the parser folds them
    have hfold : ∀ L : List ℕ, (∀ d ∈ L, d < 16) →
        (L.reverse.map hexDigit).foldlM (fun acc b => (hexValue b).map fun d => acc * 16 + d) 0 =
          some (Nat.ofDigits 16 L) := by
      intro L hL
      induction L with
      | nil => rfl
      | cons d L ih =>
        rw [List.reverse_cons, List.map_append, List.foldlM_append,
          ih fun e he => hL e (List.mem_cons_of_mem d he)]
        have hd : d < 16 := hL d List.mem_cons_self
        simp only [List.map_cons, List.map_nil, List.foldlM_cons, List.foldlM_nil,
          hexValue_hexDigit hd, Option.map_some, Option.bind_eq_bind, Option.bind_some,
          Option.pure_def, Option.some.injEq, Nat.ofDigits_cons]
        ring
    unfold parseHex
    rw [if_neg (by simpa using hne), hfold _ hlt, Nat.ofDigits_digits]

lemma hex_injective : Function.Injective hex := by
  intro m n h
  have := congrArg parseHex h
  rwa [parseHex_hex, parseHex_hex, Option.some.injEq] at this

lemma hexDigit_ne_minus {d : ℕ} (h : d < 16) : hexDigit d ≠ minus := by
  revert d
  decide

lemma hexDigit_ne_plus {d : ℕ} (h : d < 16) : hexDigit d ≠ plus := by
  revert d
  decide

lemma minus_not_mem_hex (n : ℕ) : minus ∉ hex n := by
  unfold hex
  split
  · decide
  · intro hm
    obtain ⟨d, hd, he⟩ := List.mem_map.mp hm
    have hlt : d < 16 := Nat.digits_lt_base (by omega) (List.mem_reverse.mp hd)
    exact hexDigit_ne_minus hlt he

lemma formatInt_injective : Function.Injective formatInt := by
  intro i j h
  unfold formatInt at h
  split at h <;> split at h
  · have := hex_injective (List.cons.inj h).2
    omega
  · exact absurd (h ▸ List.mem_cons_self) (minus_not_mem_hex _)
  · exact absurd (h ▸ List.mem_cons_self) (minus_not_mem_hex _)
  · have := hex_injective h
    omega

lemma minus_not_mem_formatInt_size (n : ℕ) : minus ∉ formatInt n := by
  unfold formatInt
  rw [if_neg (by omega)]
  exact minus_not_mem_hex _

/-- The last minus of a generation separates its two parts. -/
theorem localGeneration_injective {m m' : ℤ} {n n' : ℕ}
    (h : localGeneration m n = localGeneration m' n') : m = m' ∧ n = n' := by
  have hr := congrArg List.reverse h
  simp only [localGeneration, List.reverse_append, List.reverse_cons, List.append_assoc,
    List.singleton_append] at hr
  have hsplit : (formatInt n).reverse = (formatInt n').reverse ∧
      minus :: (formatInt m).reverse = minus :: (formatInt m').reverse := by
    have htake : ∀ k : ℕ, ∀ x : Bytes, ((formatInt k).reverse ++ minus :: x).takeWhile (· ≠ minus) =
        (formatInt k).reverse := by
      intro k x
      rw [List.takeWhile_append_of_pos, List.takeWhile_cons_of_neg (by simp), List.append_nil]
      intro b hb
      have : b ≠ minus := by
        rintro rfl
        exact minus_not_mem_formatInt_size k (List.mem_reverse.mp hb)
      simpa using this
    have hfirst : (formatInt n).reverse = (formatInt n').reverse := by
      rw [← htake n, hr, htake n']
    rw [hfirst] at hr
    exact ⟨hfirst, List.append_cancel_left hr⟩
  obtain ⟨hn, hm⟩ := hsplit
  refine ⟨formatInt_injective (List.reverse_injective (List.cons.inj hm).2), ?_⟩
  have := formatInt_injective (List.reverse_injective hn)
  omega

lemma parseInt_formatInt {n : ℕ} (h : (n : ℤ) ≤ maxInt64) :
    parseInt (formatInt n) = some (n : ℤ) := by
  have hformat : formatInt n = hex n := if_neg (by omega)
  have hhead : ∀ b ∈ hex n, b ≠ minus ∧ b ≠ plus := by
    unfold hex
    split
    · exact List.forall_mem_singleton.mpr (by decide)
    · intro b hb
      obtain ⟨d, hd, rfl⟩ := List.mem_map.mp hb
      have hlt : d < 16 := Nat.digits_lt_base (by omega) (List.mem_reverse.mp hd)
      exact ⟨hexDigit_ne_minus hlt, hexDigit_ne_plus hlt⟩
  have hminus : (hex n).head? ≠ some minus := fun he => (hhead _ (List.mem_of_head? he)).1 rfl
  have hplus : (hex n).head? ≠ some plus := fun he => (hhead _ (List.mem_of_head? he)).2 rfl
  rw [hformat]
  simp [parseInt, hminus, hplus, parseHex_hex, h]

/-- What the store hands out, it takes back. -/
lemma validLocalGeneration_localGeneration {m n : ℕ} (hm : (m : ℤ) ≤ maxInt64)
    (hn : (n : ℤ) ≤ maxInt64) : validLocalGeneration (localGeneration m n) = true := by
  have hne : ∀ b ∈ formatInt m, (b ≠ minus : Bool) = true := fun b hb =>
    decide_eq_true fun he => minus_not_mem_formatInt_size m (he ▸ hb)
  have htake : (localGeneration m n).takeWhile (· ≠ minus) = formatInt m := by
    rw [localGeneration, List.takeWhile_append_of_pos hne, List.takeWhile_cons_of_neg (by simp),
      List.append_nil]
  have hdrop : (localGeneration m n).dropWhile (· ≠ minus) = minus :: formatInt n := by
    rw [localGeneration, List.dropWhile_append_of_pos hne, List.dropWhile_cons_of_neg (by simp)]
  have hmem : minus ∈ localGeneration m n := List.mem_append_right _ List.mem_cons_self
  simp only [validLocalGeneration, htake, hdrop, List.tail_cons, parseInt_formatInt hm,
    parseInt_formatInt hn, Option.isSome_some, Bool.and_true, decide_eq_true hmem]

-- a modification time before 1970 would make a generation that `Put` calls malformed
example : validLocalGeneration (localGeneration 26 3) = true ∧
    validLocalGeneration (localGeneration (-26) 3) = false := by decide +kernel

end CloudyNeigh.LocalStore
