import Mathlib.Data.List.Basic
import Mathlib.Tactic.Ring

/-!
# RecordIO framing

Byte strings, CRC-32C with the rotate-and-add mask, and the frame that
`WriteRecord` appends for one record: an 8-byte little-endian length, its masked
checksum, the payload, and the payload's masked checksum.
-/
namespace CloudyNeigh.RecordIO

abbrev Bytes := List UInt8

def headerSize : ℕ := 12
def footerSize : ℕ := 4
def frameOverhead : ℕ := 16
def DefaultMaxRecordSize : ℕ := 64 * 1024 * 1024

def maskDelta : BitVec 32 := 0xa282ead8#32

/-- One bit of the reflected Castagnoli division. -/
def crcBit (c : BitVec 32) : BitVec 32 :=
  if c.getLsbD 0 then (c >>> 1) ^^^ 0x82f63b78#32 else c >>> 1

def crcByte (c : BitVec 32) (b : UInt8) : BitVec 32 :=
  crcBit (crcBit (crcBit (crcBit (crcBit (crcBit (crcBit (crcBit
    (c ^^^ BitVec.ofNat 32 b.toNat))))))))

/-- `crc32.Checksum` with the Castagnoli table. -/
def checksum (data : Bytes) : BitVec 32 :=
  data.foldl crcByte 0xffffffff#32 ^^^ 0xffffffff#32

def computeMaskedCRC (data : Bytes) : BitVec 32 :=
  let crc := checksum data
  ((crc >>> 15) ||| (crc <<< 17)) + maskDelta

/-- `PutUint64` and `PutUint32` of `encoding/binary.LittleEndian`, by width. -/
def leBytes : ℕ → ℕ → Bytes
  | 0, _ => []
  | w + 1, n => UInt8.ofNat (n % 256) :: leBytes w (n / 256)

def leNat : Bytes → ℕ
  | [] => 0
  | b :: bs => b.toNat + 256 * leNat bs

@[simp] theorem leBytes_length (w n : ℕ) : (leBytes w n).length = w := by
  induction w generalizing n with
  | zero => rfl
  | succ w ih => simp [leBytes, ih]

theorem leNat_leBytes (w n : ℕ) (h : n < 256 ^ w) : leNat (leBytes w n) = n := by
  induction w generalizing n with
  | zero =>
    simp only [pow_zero, Nat.lt_one_iff] at h
    simp [leBytes, leNat, h]
  | succ w ih =>
    have hq : n / 256 < 256 ^ w := by
      rw [pow_succ] at h
      exact Nat.div_lt_of_lt_mul (by omega)
    have hb : (UInt8.ofNat (n % 256)).toNat = n % 256 := by
      simp
    simp only [leBytes, leNat, ih _ hq, hb]
    omega

/-- The first twelve bytes of a frame. -/
def header (length : ℕ) : Bytes :=
  leBytes 8 length ++ leBytes 4 (computeMaskedCRC (leBytes 8 length)).toNat

def footer (record : Bytes) : Bytes := leBytes 4 (computeMaskedCRC record).toNat

@[simp] theorem header_length (n : ℕ) : (header n).length = headerSize := by
  simp [header, headerSize]

@[simp] theorem footer_length (record : Bytes) : (footer record).length = footerSize := by
  simp [footer, footerSize]

/-- A writer over an in-memory buffer, which accepts every write. -/
structure Writer where
  out : Bytes := []
  offset : ℕ := 0
  closed : Bool := false
  deriving DecidableEq, Repr

def NewWriter : Writer := {}

/-- Returns the bytes written and the offset of the frame; a closed writer
refuses the record (`os.ErrClosed`). -/
def Writer.WriteRecord (w : Writer) (record : Bytes) : Option (Writer × ℕ × ℕ) :=
  if w.closed then none
  else
    let frame := header record.length ++ record ++ footer record
    let totalWritten := frameOverhead + record.length
    some ({ w with out := w.out ++ frame, offset := w.offset + totalWritten },
      totalWritten, w.offset)

def Writer.Close (w : Writer) : Writer := { w with closed := true }

/-- `WriteRecord` on each record in turn, as in the loop of `Append`. -/
def Writer.writeAll (w : Writer) : List Bytes → Option Writer
  | [] => some w
  | r :: rs =>
    match w.WriteRecord r with
    | some (w', _, _) => w'.writeAll rs
    | none => none

def frame (record : Bytes) : Bytes := header record.length ++ record ++ footer record

/-- The stream that holds exactly these records. -/
def encode (records : List Bytes) : Bytes := records.flatMap frame

@[simp] theorem encode_nil : encode [] = [] := rfl

@[simp] theorem encode_cons (r : Bytes) (rs : List Bytes) :
    encode (r :: rs) = frame r ++ encode rs := rfl

lemma encode_append (rs rs' : List Bytes) : encode (rs ++ rs') = encode rs ++ encode rs' :=
  List.flatMap_append

theorem frame_length (r : Bytes) : (frame r).length = frameOverhead + r.length := by
  simp [frame, headerSize, footerSize, frameOverhead]
  omega

theorem writeAll_encode (w : Writer) (records : List Bytes) (h : w.closed = false) :
    ∃ w', w.writeAll records = some w' ∧ w'.out = w.out ++ encode records ∧
      w'.offset = w.offset + (encode records).length ∧ w'.closed = false := by
  induction records generalizing w with
  | nil => exact ⟨w, rfl, by simp, by simp, h⟩
  | cons r rs ih =>
    let w₁ : Writer := ⟨w.out ++ frame r, w.offset + (frameOverhead + r.length), false⟩
    have hw : w.WriteRecord r = some (w₁, frameOverhead + r.length, w.offset) := by
      simp [Writer.WriteRecord, h, w₁, frame]
    obtain ⟨w', hw', ho, hoff, hc⟩ := ih w₁ rfl
    refine ⟨w', by simp only [Writer.writeAll, hw, hw'], ?_, ?_, hc⟩
    · simp only [ho, w₁, encode_cons, List.append_assoc]
    · simp only [hoff, w₁, encode_cons, List.length_append, frame_length]
      omega

end CloudyNeigh.RecordIO
