import CloudyNeigh.LogStreamHead
import Mathlib.Data.List.Induction

/-!
# The codec of log keys

`parseSeq` accepts, of the keys directly under a prefix, exactly those that
`segmentKey` writes for a sequence number, and the byte order of the keys is the
order of the numbers. The last key of a listing has the largest number.
-/
namespace CloudyNeigh.LogStream
open RecordIO

/-- The key is the prefix, a slash and one path element. -/
def DirectlyUnder (pfx key : Bytes) : Prop := ∃ name, key = pfx ++ slash :: name ∧ slash ∉ name

section Parse
variable {pfx key : Bytes} {seq : ℕ}

lemma ofNat_digit {b : UInt8} (h : isDigit b = true) :
    UInt8.ofNat (48 + (b.toNat - 48) % 10) = b := by
  simp only [isDigit, Bool.and_eq_true, decide_eq_true_eq, UInt8.le_iff_toNat_le,
    UInt8.reduceToNat] at h
  rw [Nat.mod_eq_of_lt (by omega), Nat.add_sub_cancel' h.1]
  exact UInt8.ofNat_toNat

/-- Digits are what their value is written as. -/
lemma fixedDigits_digitsValue (s : Bytes) (h : ∀ b ∈ s, isDigit b = true) :
    fixedDigits s.length (digitsValue s) = s := by
  induction s using List.reverseRecOn with
  | nil => rfl
  | append_singleton s b ih =>
    have hb : isDigit b = true := h b (by simp)
    have hs : ∀ c ∈ s, isDigit c = true := fun c hc => h c (by simp [hc])
    have hlt : b.toNat - 48 < 10 := by
      simp only [isDigit, Bool.and_eq_true, decide_eq_true_eq, UInt8.le_iff_toNat_le,
        UInt8.reduceToNat] at hb
      omega
    have hv : digitsValue (s ++ [b]) = digitsValue s * 10 + (b.toNat - 48) := by
      simp [digitsValue, List.foldl_append]
    have hdiv : (digitsValue s * 10 + (b.toNat - 48)) / 10 = digitsValue s := by omega
    have hmod : (digitsValue s * 10 + (b.toNat - 48)) % 10 = (b.toNat - 48) % 10 := by omega
    rw [hv, List.length_append, List.length_singleton, fixedDigits, hdiv, hmod, ih hs,
      ofNat_digit hb]

/-- What the parser has checked when it accepts. -/
lemma pathBase_of_parseSeq (h : parseSeq key = .ok seq) :
    pathBase key = fixedDigits 20 seq ++ seqSuffix ∧ 1 ≤ seq ∧ seq < 2 ^ 64 := by
  simp only [parseSeq] at h
  split at h
  · cases h
  rename_i hsfx
  obtain ⟨raw, hraw⟩ := not_not.mp hsfx
  have htake : (pathBase key).take ((pathBase key).length - seqSuffix.length) = raw := by
    rw [← hraw, List.length_append, Nat.add_sub_cancel, List.take_left']
    rfl
  simp only [htake] at h
  split at h
  · cases h
  rename_i hlen
  split at h
  · cases h
  · rename_i n hn
    unfold parseUint at hn
    split at hn
    · rename_i hdig
      split at hn
      · rename_i hlt
        split at h
        · cases h
        · rename_i hzero
          cases hn
          cases h
          have hfix := fixedDigits_digitsValue raw (List.all_eq_true.mp hdig.2)
          rw [not_not.mp hlen] at hfix
          exact ⟨by rw [hfix, hraw], by omega, hlt⟩
      · cases hn
    · cases hn

lemma mem_of_mem_pathBase {b : UInt8} (hb : b ∈ pathBase key) (hs : b ≠ slash) (hne : key ≠ []) :
    b ∈ key := by
  simp only [pathBase, if_neg hne] at hb
  split at hb
  · exact absurd (List.mem_singleton.mp hb) hs
  · have hsub := List.mem_reverse.mp hb
    exact List.mem_reverse.mp
      ((List.dropWhile_suffix _).mem ((List.takeWhile_prefix _).mem hsub))

lemma dot_not_mem_of_validPrefix (hp : validPrefix pfx = true) : (0x2e : UInt8) ∉ pfx := by
  intro hmem
  simp only [validPrefix, Bool.and_eq_true, List.all_eq_true] at hp
  exact absurd (hp.2 _ hmem) (by decide)

/-- Of the keys directly under a prefix, the parser accepts only those of the log. -/
lemma segmentKey_of_parseSeq (hp : validPrefix pfx = true) (hu : DirectlyUnder pfx key)
    (h : parseSeq key = .ok seq) : key = segmentKey pfx seq := by
  obtain ⟨name, rfl, hname⟩ := hu
  obtain ⟨hbase, -, -⟩ := pathBase_of_parseSeq h
  by_cases hnil : name = []
  · -- the listing may show the bare directory, whose name has no dot
    subst hnil
    have hdot : (0x2e : UInt8) ∈ pathBase (pfx ++ [slash]) := by
      rw [hbase]
      exact List.mem_append_right _ (by decide)
    have hmem := mem_of_mem_pathBase hdot (by decide) (by simp)
    rcases List.mem_append.mp hmem with hmem | hmem
    · exact absurd hmem (dot_not_mem_of_validPrefix hp)
    · exact absurd hmem (by decide)
  · rw [pathBase_append pfx hnil hname] at hbase
    simp [hbase, segmentKey]

end Parse

/-- The last key of a sorted list is the largest. -/
lemma le_getLast_of_pairwise {keys : List Bytes} {last : Bytes} (hs : keys.Pairwise (· ≤ ·))
    (hlast : keys.getLast? = some last) : ∀ key ∈ keys, key ≤ last := by
  obtain ⟨init, rfl⟩ := List.getLast?_eq_some_iff.mp hlast
  intro key hkey
  rcases List.mem_append.mp hkey with hk | hk
  · exact (List.pairwise_append.mp hs).2.2 key hk last (by simp)
  · rw [List.mem_singleton.mp hk]
    exact List.le_refl last

lemma list_sorted (s : State) (pfx startAfter : Bytes) (limit : ℕ) :
    (s.List pfx startAfter limit).Pairwise (· ≤ ·) :=
  (List.pairwise_insertionSort (fun a b : Bytes => a ≤ b) _).sublist (List.take_sublist _ _)

/-- Keys and sequence numbers correspond one to one and in order, and of the keys
directly under the prefix that a listing returns, the last one that is an entry has
the largest number. -/
theorem log_keys_order_isomorphic (pfx : Bytes) (hp : validPrefix pfx = true) :
    (∀ seq, 1 ≤ seq → seq < 2 ^ 64 → parseSeq (segmentKey pfx seq) = .ok seq) ∧
    (∀ m n, m < 2 ^ 64 → n < 2 ^ 64 → (segmentKey pfx m < segmentKey pfx n ↔ m < n)) ∧
    (∀ key seq, DirectlyUnder pfx key → parseSeq key = .ok seq →
      key = segmentKey pfx seq ∧ 1 ≤ seq ∧ seq < 2 ^ 64) ∧
    ∀ (s : State) (startAfter : Bytes) (limit : ℕ) (last : Bytes) (n : ℕ),
      (s.List (pfx ++ [slash]) startAfter limit).getLast? = some last →
      DirectlyUnder pfx last → parseSeq last = .ok n →
      ∀ key ∈ s.List (pfx ++ [slash]) startAfter limit, ∀ m, DirectlyUnder pfx key →
        parseSeq key = .ok m → m ≤ n := by
  refine ⟨?_, fun m n hm hn => segmentKey_lt_iff pfx hm hn, ?_, ?_⟩
  · intro seq hpos hlt
    rw [parseSeq_segmentKey pfx hlt, if_neg (by omega)]
  · intro key seq hu h
    exact ⟨segmentKey_of_parseSeq hp hu h, (pathBase_of_parseSeq h).2⟩
  · intro s startAfter limit last n hlast hul hn key hkey m huk hm
    have hle := le_getLast_of_pairwise (list_sorted s _ startAfter limit) hlast key hkey
    rw [segmentKey_of_parseSeq hp huk hm, segmentKey_of_parseSeq hp hul hn] at hle
    have hmlt := (pathBase_of_parseSeq hm).2.2
    have hnlt := (pathBase_of_parseSeq hn).2.2
    by_contra hgt
    exact hle ((segmentKey_lt_iff pfx hnlt hmlt).mpr (by omega))

-- Two entries that were committed out of order.
def outOfOrder : State :=
  ⟨[⟨segmentKey (ascii "a/wal") 10, [], 0⟩, ⟨segmentKey (ascii "a/wal") 9, [], 0⟩], fun _ => 0,
    fun _ => {}⟩

theorem log_keys_order_isomorphic_two : validPrefix (ascii "a/wal") = true ∧
    parseSeq (segmentKey (ascii "a/wal") 9) = .ok 9 ∧
    segmentKey (ascii "a/wal") 9 < segmentKey (ascii "a/wal") 10 ∧
    (outOfOrder.List (ascii "a/wal" ++ [slash]) [] 1000).getLast? =
      some (segmentKey (ascii "a/wal") 10) ∧
    ∀ key ∈ outOfOrder.List (ascii "a/wal" ++ [slash]) [] 1000, ∀ m,
      DirectlyUnder (ascii "a/wal") key → parseSeq key = .ok m → m ≤ 10 := by
  have hp : validPrefix (ascii "a/wal") = true := by decide
  obtain ⟨hparse, hlt, -, hlast⟩ := log_keys_order_isomorphic (ascii "a/wal") hp
  have hlist : (outOfOrder.List (ascii "a/wal" ++ [slash]) [] 1000).getLast? =
      some (segmentKey (ascii "a/wal") 10) := by decide +kernel
  have hu : DirectlyUnder (ascii "a/wal") (segmentKey (ascii "a/wal") 10) :=
    ⟨fixedDigits 20 10 ++ seqSuffix, by simp [segmentKey], slash_not_mem_digits 10⟩
  exact ⟨hp, hparse 9 (by omega) (by omega), (hlt 9 10 (by omega) (by omega)).mpr (by omega), hlist,
    hlast outOfOrder [] 1000 _ 10 hlist hu (hparse 10 (by omega) (by omega))⟩

end CloudyNeigh.LogStream
