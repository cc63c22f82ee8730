import CloudyNeigh.LocalDisk

/-!
# Reading a range of an object

`ReadRange` in memory and on the local disk, for all `int64` offsets and lengths.
The end of the range is their sum: the memory store computes it as an `int64` that
may wrap, the reader of the local store does not let it.
-/
namespace CloudyNeigh.ObjectStore
open RecordIO

/-- `data[lo:hi]`. -/
def sliceInt64 (data : Bytes) (lo hi : Int64) : Option Bytes :=
  if 0 ≤ lo ∧ 0 ≤ hi then Checked.sub data lo.toInt.toNat hi.toInt.toNat else none

/-- `none` is a panic. -/
def MemStore.ReadRange (m : MemStore) (key : Bytes) (offset length : Int64) :
    Option (Except StoreErr (Bytes × Object)) :=
  if offset < 0 ∨ length < 0 then some (.error (.invalidRange offset length))
  else
    match m.objects.lookup key with
    | none => some (.error (.notFound key))
    | some e =>
      let size := Int64.ofNat e.data.length
      if size < offset then some (.error (.offsetExceeds offset e.data.length))
      else
        let sum := offset + length
        let stop := if size < sum then size else sum
        (sliceInt64 e.data offset stop).map fun data => .ok (data, object key e)

/-- What is read from `io.NewSectionReader(f, off, n)` up to its end. -/
def sectionReader (data : Bytes) (off n : Int64) : Bytes :=
  let limit := if off ≤ Int64.maxValue - n then n + off else Int64.maxValue
  (data.take limit.toInt.toNat).drop off.toInt.toNat

end CloudyNeigh.ObjectStore

namespace CloudyNeigh.LocalDisk
open RecordIO SlashPath ObjectStore

def Store.ReadRange (s : Store) (d : Disk) (key : Path) (offset length : Int64) :
    Except StoreErr (Bytes × Object) :=
  if offset < 0 ∨ length < 0 then .error (.invalidRange offset length)
  else
    match s.open d key with
    | .error e => .error e
    | .ok f =>
      if Int64.ofNat f.data.length < offset then .error (.offsetExceeds offset f.data.length)
      else .ok (sectionReader f.data offset length, object key f)

end CloudyNeigh.LocalDisk

namespace CloudyNeigh.ObjectStore
open RecordIO
open LogStream (ascii)

/-- The bytes of a range, by integers: from the offset up to the end of the range or
of the data. -/
def rangeOf (data : Bytes) (offset length : ℤ) : Option Bytes :=
  if offset < 0 ∨ length < 0 ∨ data.length < offset then none
  else some ((data.take (min (offset + length) data.length).toNat).drop offset.toNat)

/-- The call returns the bytes of the range, or an error if there is no such range. -/
def Serves (data : Bytes) (offset length : Int64) (r : Option (Except StoreErr (Bytes × Object))) :
    Prop :=
  match rangeOf data offset.toInt length.toInt with
  | none => ∃ e, r = some (.error e)
  | some bytes => ∃ o, r = some (.ok (bytes, o)) ∧ o.Size = data.length

section Ranges
variable {data : Bytes} {offset length : Int64}

lemma lt_zero_iff {x : Int64} : x < 0 ↔ x.toInt < 0 := Int64.lt_iff_toInt_lt

lemma ofNat_lt_iff (hlen : data.length < 2 ^ 63) :
    Int64.ofNat data.length < offset ↔ (data.length : ℤ) < offset.toInt := by
  rw [Int64.lt_iff_toInt_lt, Int64.toInt_ofNat_of_lt hlen]

/-- The sum of two numbers that are not negative wraps at most once. -/
lemma toInt_add_of_nonneg (ho : 0 ≤ offset.toInt) (hl : 0 ≤ length.toInt) :
    (offset + length).toInt = if offset.toInt + length.toInt < 2 ^ 63 then
      offset.toInt + length.toInt else offset.toInt + length.toInt - 2 ^ 64 := by
  have ho' := offset.toInt_lt
  have hl' := length.toInt_lt
  rw [Int64.toInt_add, Int.bmod_def]
  split <;> split <;> omega

/-- The reader ends where the range does, or at the last offset there is. -/
lemma sectionReader_limit (ho : 0 ≤ offset.toInt) (hl : 0 ≤ length.toInt) :
    (if offset ≤ Int64.maxValue - length then length + offset else Int64.maxValue).toInt =
      min (offset.toInt + length.toInt) (2 ^ 63 - 1) := by
  have hl' := length.toInt_lt
  have hle : offset ≤ Int64.maxValue - length ↔ offset.toInt + length.toInt < 2 ^ 63 := by
    have hsub : (Int64.maxValue - length).toInt = 2 ^ 63 - 1 - length.toInt := by
      rw [Int64.toInt_sub, Int64.toInt_maxValue, Int.bmod_eq_of_le] <;> omega
    rw [Int64.le_iff_toInt_le, hsub]
    omega
  by_cases h : offset.toInt + length.toInt < 2 ^ 63
  · rw [if_pos (hle.mpr h), toInt_add_of_nonneg hl ho, if_pos (by omega)]
    omega
  · rw [if_neg fun hn => h (hle.mp hn), Int64.toInt_maxValue]
    omega

lemma sectionReader_eq (hlen : data.length < 2 ^ 63) (ho : 0 ≤ offset.toInt)
    (hl : 0 ≤ length.toInt) : sectionReader data offset length =
      (data.take (min (offset.toInt + length.toInt) data.length).toNat).drop offset.toInt.toNat := by
  simp only [sectionReader, sectionReader_limit ho hl]
  congr 1
  rw [List.take_eq_take_iff]
  omega

lemma sliceInt64_eq {stop : Int64} (ho : 0 ≤ offset.toInt) : sliceInt64 data offset stop =
    if offset.toInt ≤ stop.toInt ∧ stop.toInt ≤ data.length then
      some ((data.take stop.toInt.toNat).drop offset.toInt.toNat) else none := by
  have hpos : 0 ≤ offset ∧ 0 ≤ stop ↔ 0 ≤ stop.toInt := by
    rw [Int64.le_iff_toInt_le, Int64.le_iff_toInt_le, Int64.toInt_zero]
    exact and_iff_right ho
  unfold sliceInt64
  by_cases hstop : 0 ≤ stop.toInt
  · rw [if_pos (hpos.mpr hstop), Checked.sub, Blocks.slice, List.drop_take]
    refine if_congr ?_ rfl rfl
    omega
  · rw [if_neg fun h => hstop (hpos.mp h), if_neg (by omega)]

lemma rangeOf_eq (ho : 0 ≤ offset.toInt) (hl : 0 ≤ length.toInt)
    (hle : offset.toInt ≤ data.length) :
    rangeOf data offset.toInt length.toInt =
      some ((data.take (min (offset.toInt + length.toInt) data.length).toNat).drop
        offset.toInt.toNat) :=
  if_neg (by omega)

lemma serves_refused (h : offset.toInt < 0 ∨ length.toInt < 0 ∨ (data.length : ℤ) < offset.toInt)
    (e : StoreErr) : Serves data offset length (some (.error e)) := by
  rw [Serves, rangeOf, if_pos h]
  exact ⟨e, rfl⟩

/-- The reader of the local store serves every range. -/
theorem local_serves {s : LocalDisk.Store} {d : LocalDisk.Disk} {key : Bytes} {f : LocalStore.File}
    (hopen : s.open d key = .ok f) (hlen : f.data.length < 2 ^ 63) (offset length : Int64) :
    Serves f.data offset length (some (s.ReadRange d key offset length)) := by
  unfold LocalDisk.Store.ReadRange
  simp only [hopen, lt_zero_iff, ofNat_lt_iff hlen]
  split
  · rename_i hneg
    exact serves_refused (by omega) _
  split
  · rename_i hexc
    exact serves_refused (by omega) _
  rename_i hneg hexc
  rw [Serves, rangeOf_eq (by omega) (by omega) (by omega)]
  refine ⟨LocalDisk.object key f, ?_, rfl⟩
  rw [sectionReader_eq hlen (by omega) (by omega)]

/-- The slice of the memory store is the range if the sum of offset and length is an
`int64`, and panics if it wraps. -/
lemma mem_slice (hlen : data.length < 2 ^ 63) (ho : 0 ≤ offset.toInt) (hl : 0 ≤ length.toInt)
    (hle : offset.toInt ≤ data.length) :
    sliceInt64 data offset (if Int64.ofNat data.length < offset + length then
      Int64.ofNat data.length else offset + length) =
    if offset.toInt + length.toInt < 2 ^ 63 then
      some ((data.take (min (offset.toInt + length.toInt) data.length).toNat).drop
        offset.toInt.toNat)
    else none := by
  have hsum := toInt_add_of_nonneg ho hl
  have hstop : (if Int64.ofNat data.length < offset + length then
      Int64.ofNat data.length else offset + length).toInt =
        min (offset + length).toInt data.length := by
    split
    · rename_i h
      rw [ofNat_lt_iff hlen] at h
      rw [Int64.toInt_ofNat_of_lt hlen]
      omega
    · rename_i h
      rw [ofNat_lt_iff hlen] at h
      omega
  rw [sliceInt64_eq ho, hstop, hsum]
  by_cases h : offset.toInt + length.toInt < 2 ^ 63
  · rw [if_pos h, if_pos h, if_pos (by omega)]
  · have hl' := length.toInt_lt
    rw [if_neg h, if_neg h, if_neg (by omega)]

theorem mem_serves_iff {m : MemStore} {key : Bytes} {e : MemEntry}
    (hkey : m.objects.lookup key = some e) (hlen : e.data.length < 2 ^ 63) (offset length : Int64) :
    Serves e.data offset length (m.ReadRange key offset length) ↔
      (0 ≤ offset.toInt → 0 ≤ length.toInt → offset.toInt ≤ e.data.length →
        offset.toInt + length.toInt < 2 ^ 63) := by
  unfold MemStore.ReadRange
  simp only [hkey]
  split
  · rename_i hneg
    rw [lt_zero_iff, lt_zero_iff] at hneg
    exact iff_of_true (serves_refused (by omega) _) (by omega)
  split
  · rename_i hexc
    rw [ofNat_lt_iff hlen] at hexc
    exact iff_of_true (serves_refused (by omega) _) (by omega)
  rename_i hneg hexc
  rw [lt_zero_iff, lt_zero_iff] at hneg
  rw [ofNat_lt_iff hlen] at hexc
  have ho : 0 ≤ offset.toInt := by omega
  have hl : 0 ≤ length.toInt := by omega
  have hle : offset.toInt ≤ e.data.length := by omega
  rw [mem_slice hlen ho hl hle, Serves, rangeOf_eq ho hl hle]
  by_cases h : offset.toInt + length.toInt < 2 ^ 63
  · rw [if_pos h]
    exact iff_of_true ⟨MemStore.object key e, rfl, rfl⟩ fun _ _ _ => h
  · rw [if_neg h]
    refine iff_of_false ?_ fun hcond => h (hcond ho hl hle)
    rintro ⟨o, ho', -⟩
    cases ho'

/-- Both stores serve every range of the same data, unless offset and length are both
admitted and their sum is not an `int64`; the local store serves every range. -/
theorem range_reads_agree_iff {m : MemStore} {key : Bytes} {e : MemEntry}
    (hmem : m.objects.lookup key = some e) {s : LocalDisk.Store} {d : LocalDisk.Disk} {key' : Bytes}
    {f : LocalStore.File} (hopen : s.open d key' = .ok f) (hdata : f.data = e.data)
    (hlen : e.data.length < 2 ^ 63) (offset length : Int64) :
    (Serves e.data offset length (m.ReadRange key offset length) ∧
      Serves e.data offset length (some (s.ReadRange d key' offset length)) ↔
        (0 ≤ offset.toInt → 0 ≤ length.toInt → offset.toInt ≤ e.data.length →
          offset.toInt + length.toInt < 2 ^ 63)) ∧
    Serves e.data offset length (some (s.ReadRange d key' offset length)) := by
  have hlocal := local_serves hopen (by rwa [hdata]) offset length
  rw [hdata] at hlocal
  exact ⟨(and_iff_left hlocal).trans (mem_serves_iff hmem hlen offset length), hlocal⟩

def twoBytes : MemStore := ⟨AList.singleton (ascii "k") ⟨[8, 9], []⟩, 0⟩

def twoBytesDisk : LocalDisk.Disk :=
  ⟨⟨.dir (ascii "data") (.file (ascii "k") ⟨[8, 9], 5⟩ .nil) .nil, rfl, ⟨rfl, trivial⟩, trivial⟩, 0⟩

theorem range_reads_agree_iff_tail : rangeOf [8, 9] 1 5 = some [9] ∧
    Serves [8, 9] 1 5 (twoBytes.ReadRange (ascii "k") 1 5) ∧
    Serves [8, 9] 1 5 (some (LocalDisk.dataRoot.ReadRange twoBytesDisk (ascii "k") 1 5)) := by
  have hmem : twoBytes.objects.lookup (ascii "k") = some ⟨[8, 9], []⟩ := by rfl
  have hopen : LocalDisk.dataRoot.open twoBytesDisk (ascii "k") = .ok ⟨[8, 9], 5⟩ := by rfl
  exact ⟨by decide, (range_reads_agree_iff hmem hopen rfl (by decide) 1 5).1.mpr (by decide)⟩

/-- The sum wraps to a negative number, and the slice with it as its end panics. -/
theorem long_range_panics : twoBytes.ReadRange (ascii "k") 1 Int64.maxValue = none ∧
    rangeOf [8, 9] 1 Int64.maxValue.toInt = some [9] ∧
    ¬ Serves [8, 9] 1 Int64.maxValue (twoBytes.ReadRange (ascii "k") 1 Int64.maxValue) := by
  have hpanic : twoBytes.ReadRange (ascii "k") 1 Int64.maxValue = none := by rfl
  have hrange : rangeOf [8, 9] 1 Int64.maxValue.toInt = some [9] := by decide +kernel
  refine ⟨hpanic, hrange, ?_⟩
  have hone : (1 : Int64).toInt = 1 := rfl
  rw [hpanic, Serves, hone, hrange]
  rintro ⟨o, ho, -⟩
  cases ho

end Ranges

end CloudyNeigh.ObjectStore
