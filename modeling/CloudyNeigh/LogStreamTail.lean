import CloudyNeigh.LogStreamContiguity
import Mathlib.Data.List.Sort

/-!
# `Log.head` and `Log.Tail` on one store

`List` returns the first keys after `startAfter` in byte order and `Exists`
answers for the objects that are there. The digits of the keys have a fixed width,
so the byte order of the keys is the order of their numbers.
-/
namespace CloudyNeigh.LogStream
open RecordIO

/-- `Store.List` on the keys of the store, in the order of `sort.Strings`. -/
def State.List (s : State) (pfx startAfter : Bytes) (limit : ℕ) : List Bytes :=
  (((s.objects.map Obj.key).filter fun k => pfx.isPrefixOf k && decide (startAfter < k)).insertionSort
    (fun a b => a ≤ b)).take limit

/-- The probes of `jump`, one after the other. -/
def probeAll (found : ℕ → Bool) : ℕ → JumpNext → Option ℕ
  | _, .done head => some head
  | 0, .probe _ => none
  | fuel + 1, .probe j => probeAll found fuel (j.next (found j.target))

/-- The key that `head` lists after. -/
def headStart (pfx : Bytes) (lo : ℕ) : Bytes := if 0 < lo then segmentKey pfx lo else []

def head (fuel : ℕ) (pfx : Bytes) (s : State) (lo : ℕ) : Option (Except KeyErr ℕ) :=
  match headListed lo (s.List (pfx ++ [slash]) (headStart pfx lo) headListLimit) with
  | .error e => some (.error e)
  | .ok next => (probeAll (fun seq => s.present (segmentKey pfx seq)) fuel next).map .ok

def Tail (fuel : ℕ) (pfx : Bytes) (s : State) : Option (Except KeyErr ℕ) := head fuel pfx s 0

section Order

lemma lt_append_of_lt {a b : Bytes} (h : a < b) (hl : a.length = b.length) (x y : Bytes) :
    a ++ x < b ++ y := by
  induction h with
  | nil => simp at hl
  | rel hab => exact .rel hab
  | cons _ ih => exact .cons (ih (by simpa using hl))

/-- Fixed width makes the byte order of the digits the order of the numbers. -/
lemma fixedDigits_lt {w m n : ℕ} (h : m < n) (hn : n < 10 ^ w) :
    fixedDigits w m < fixedDigits w n := by
  induction w generalizing m n with
  | zero => omega
  | succ w ih =>
    simp only [fixedDigits]
    by_cases hq : m / 10 < n / 10
    · have hlt : n / 10 < 10 ^ w := by
        rw [pow_succ] at hn
        omega
      exact lt_append_of_lt (ih hq hlt) (by simp) _ _
    · have heq : m / 10 = n / 10 := by omega
      rw [heq]
      refine List.append_left_lt (.rel ?_)
      rw [UInt8.lt_iff_toNat_lt, digit_toNat, digit_toNat]
      omega

lemma segmentKey_lt (pfx : Bytes) {m n : ℕ} (h : m < n) (hn : n < 2 ^ 64) :
    segmentKey pfx m < segmentKey pfx n := by
  unfold segmentKey
  have hd := fixedDigits_lt (w := 20) h (by omega)
  exact lt_append_of_lt (List.append_left_lt hd) (by simp) _ _

lemma slash_isPrefixOf_segmentKey (pfx : Bytes) (seq : ℕ) :
    (pfx ++ [slash]).isPrefixOf (segmentKey pfx seq) = true := by
  rw [List.isPrefixOf_iff_prefix]
  exact ⟨fixedDigits 20 seq ++ seqSuffix, by simp [segmentKey]⟩

end Order

section Page

lemma take_range' (a k n : ℕ) : (List.range' a n).take k = List.range' a (min k n) := by
  apply List.ext_getElem (by simp)
  intro i _ _
  simp

/-- What `head` makes of a listing of consecutive numbers. -/
lemma headListed_range (pfx : Bytes) (lo n : ℕ) (h : lo + n < 2 ^ 64) :
    headListed lo ((List.range' (lo + 1) n).map (segmentKey pfx)) =
      .ok (if n < headListLimit then .done (lo + n) else jump (lo + n)) := by
  cases n with
  | zero => rfl
  | succ m =>
    have hlast : ((List.range' (lo + 1) (m + 1)).map (segmentKey pfx)).getLast? =
        some (segmentKey pfx (lo + (m + 1))) := by
      rw [List.range'_1_concat, List.map_append, Nat.add_assoc, Nat.add_comm 1 m]
      exact List.getLast?_concat ..
    have hparse : parseSeq (segmentKey pfx (lo + (m + 1))) = .ok (lo + (m + 1)) := by
      rw [parseSeq_segmentKey pfx h, if_neg (by omega)]
    unfold headListed
    simp only [hlast, hparse, List.length_map, List.length_range']
    split <;> rfl

end Page

end CloudyNeigh.LogStream
