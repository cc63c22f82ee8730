import CloudyNeigh.Crc
import CloudyNeigh.RecordIOExact

/-!
# Localised corruption

A frame of which up to four neighbouring bytes of one field were changed. The
checksum of the altered length or payload cannot be the one that was written, so
the scan stops at the frame, before it has used the length or returned the record.
-/
namespace CloudyNeigh.RecordIO
open WhileLoop

def castagnoli : BitVec 32 := 0x82f63b78#32

section Checksums

lemma checksum_eq (data : Bytes) :
    checksum data = Crc.run castagnoli 0xffffffff#32 data ^^^ 0xffffffff#32 := rfl

/-- The mask rotates and adds, so it keeps every bit. -/
lemma mask_injective {c d : BitVec 32}
    (h : ((c >>> 15) ||| (c <<< 17)) + maskDelta = ((d >>> 15) ||| (d <<< 17)) + maskDelta) :
    c = d := by
  have hrot : (c >>> 15) ||| (c <<< 17) = (d >>> 15) ||| (d <<< 17) := by
    simpa using h
  apply BitVec.eq_of_getLsbD_eq
  intro i hi
  by_cases hlow : i < 15
  · have hbit := congrArg (fun x => x.getLsbD (i + 17)) hrot
    simpa [show i + 17 < 32 by omega, show 32 ≤ 15 + (i + 17) by omega, BitVec.getLsbD_eq_getElem hi]
      using hbit
  · have hbit := congrArg (fun x => x.getLsbD (i - 15)) hrot
    simpa [show i - 15 < 17 by omega, show 15 + (i - 15) = i by omega] using hbit

theorem computeMaskedCRC_ne {old new : Bytes} (front back : Bytes) (hlen : old.length = new.length)
    (hfit : old.length ≤ 4) (hne : old ≠ new) :
    computeMaskedCRC (front ++ old ++ back) ≠ computeMaskedCRC (front ++ new ++ back) := by
  intro heq
  have hsum := mask_injective heq
  rw [checksum_eq, checksum_eq, BitVec.xor_left_inj] at hsum
  exact Crc.run_ne_of_burst (by decide) _ front back hlen (by omega) hne hsum

lemma leNat_inj {a b : Bytes} (hlen : a.length = b.length) (h : leNat a = leNat b) : a = b := by
  calc a = leBytes a.length (leNat a) := (leBytes_leNat rfl).symm
    _ = leBytes b.length (leNat b) := by rw [hlen, h]
    _ = b := leBytes_leNat rfl

lemma leNat_crc (data : Bytes) :
    leNat (leBytes 4 (computeMaskedCRC data).toNat) = (computeMaskedCRC data).toNat := by
  apply leNat_leBytes
  have := (computeMaskedCRC data).isLt
  omega

end Checksums

/-- The fields of a frame. -/
inductive Field
  | length
  | lengthCRC
  | payload
  | payloadCRC
  deriving DecidableEq, Repr

namespace Field

def bytes (r : Bytes) : Field → Bytes
  | .length => leBytes 8 r.length
  | .lengthCRC => leBytes 4 (computeMaskedCRC (leBytes 8 r.length)).toNat
  | .payload => r
  | .payloadCRC => footer r

/-- The part of the frame in front of the field. -/
def front (r : Bytes) : Field → Bytes
  | .length => []
  | .lengthCRC => leBytes 8 r.length
  | .payload => header r.length
  | .payloadCRC => header r.length ++ r

def back (r : Bytes) : Field → Bytes
  | .length => leBytes 4 (computeMaskedCRC (leBytes 8 r.length)).toNat ++ r ++ footer r
  | .lengthCRC => r ++ footer r
  | .payload => footer r
  | .payloadCRC => []

def inHeader : Field → Bool
  | .length => true
  | .lengthCRC => true
  | .payload => false
  | .payloadCRC => false

/-- What `Scan` reports when a checksum does not match because of the field. -/
def err (f : Field) : ScanErr := if f.inHeader then .headerCorrupted else .dataCorrupted

/-- How much of the frame `Scan` has read when it reports it. -/
def read (r : Bytes) (f : Field) : ℕ := if f.inHeader then headerSize else (frame r).length

lemma frame_eq (r : Bytes) (f : Field) : frame r = f.front r ++ f.bytes r ++ f.back r := by
  cases f <;> simp [frame, front, bytes, back, header, List.append_assoc]

end Field

section Detect
variable {s : Scanner} {r rest : Bytes}

lemma readHeader_corrupted {len crc : Bytes} (hlen : len.length = 8) (hcrc : crc.length = 4)
    (hr : s.rest = len ++ crc ++ rest) (hne : (computeMaskedCRC len).toNat ≠ leNat crc) :
    s.readHeader = (none, Scanner.fail { s with record := [] } rest .headerCorrupted) := by
  have hsize : (len ++ crc).length = headerSize := by
    rw [List.length_append, hlen, hcrc]
    rfl
  have hf : readFull headerSize (len ++ crc ++ rest) = .ok (len ++ crc, rest) := by
    rw [← hsize, readFull_append]
  have ht : (len ++ crc).take 8 = len := by rw [← hlen, List.take_left]
  have hd : (len ++ crc).drop 8 = crc := by rw [← hlen, List.drop_left]
  simp only [Scanner.readHeader, hr, hf, ht, hd, if_pos hne]

lemma scan_header_corrupted {len crc : Bytes} (he : s.err = none) (hlen : len.length = 8)
    (hcrc : crc.length = 4) (hr : s.rest = len ++ crc ++ rest)
    (hne : (computeMaskedCRC len).toNat ≠ leNat crc) :
    s.Scan = (false, Scanner.fail { s with record := [] } rest .headerCorrupted) := by
  simp only [Scanner.Scan, he, Option.isSome_none, Bool.false_eq_true, if_false,
    readHeader_corrupted hlen hcrc hr hne]

lemma scan_data_corrupted {payload foot : Bytes} (he : s.err = none)
    (hp : payload.length = r.length) (hf : foot.length = 4)
    (hr : s.rest = header r.length ++ (payload ++ (foot ++ rest)))
    (hl : r.length ≤ s.maxRecordSize) (hw : r.length < 256 ^ 8)
    (hne : (computeMaskedCRC payload).toNat ≠ leNat foot) :
    s.Scan = (false, Scanner.fail { s with record := [], offset := s.lastValidOffset } rest
      .dataCorrupted) := by
  have hh := readHeader_header hw hr
  rw [if_neg (not_lt.mpr hl)] at hh
  have hpay : readFull r.length (payload ++ (foot ++ rest)) = .ok (payload, foot ++ rest) := by
    rw [← hp, readFull_append]
  have hfoot : readFull footerSize (foot ++ rest) = .ok (foot, rest) := by
    rw [show footerSize = foot.length from hf.symm, readFull_append]
  simp only [Scanner.Scan, he, Option.isSome_none, Bool.false_eq_true, if_false, hh, hpay, hfoot,
    if_pos hne]
  rfl

/-- A header, a payload and a footer of the right lengths are a frame to be passed over. -/
lemma drop_fields {head payload foot : Bytes} (hh : head.length = headerSize)
    (hp : payload.length = r.length) (hf : foot.length = footerSize) :
    (head ++ (payload ++ (foot ++ rest))).drop (frame r).length = rest := by
  have hlen : (head ++ (payload ++ foot)).length = (frame r).length := by
    rw [List.length_append, List.length_append, hh, hp, hf, frame_length]
    simp only [headerSize, footerSize, frameOverhead]
    omega
  rw [← List.append_assoc payload, ← List.append_assoc head, List.drop_left' hlen]

/-- A burst in one field of the frame that is read next. -/
lemma scan_burst {f : Field} {a b old new : Bytes} (he : s.err = none)
    (hf : f.bytes r = a ++ old ++ b) (hlen : old.length = new.length) (hfit : old.length ≤ 4)
    (hne : old ≠ new) (hr : s.rest = f.front r ++ (a ++ new ++ b) ++ f.back r ++ rest)
    (hl : r.length ≤ s.maxRecordSize) (hw : r.length < 256 ^ 8) :
    ∃ fin, s.Scan = (false, fin) ∧ fin.err = some f.err ∧
      fin.lastValidOffset = s.lastValidOffset ∧ fin.rest = s.rest.drop (f.read r) := by
  have hlen' : (a ++ new ++ b).length = (f.bytes r).length := by
    rw [hf]
    simp only [List.length_append, hlen]
  have hcrc := computeMaskedCRC_ne a b hlen hfit hne
  rw [← hf, Ne, ← BitVec.toNat_inj] at hcrc
  have hfield : f.bytes r ≠ a ++ new ++ b := by
    rw [hf]
    simpa using hne
  generalize a ++ new ++ b = field at hlen' hcrc hfield hr
  cases f with
  | length =>
    have hrest : s.rest = field ++ leBytes 4 (computeMaskedCRC (leBytes 8 r.length)).toNat ++
        (r ++ footer r ++ rest) := by
      rw [hr]
      simp [Field.front, Field.back, List.append_assoc]
    have hsize : field.length = 8 := by rw [hlen', Field.bytes, leBytes_length]
    refine ⟨_, scan_header_corrupted he hsize (leBytes_length _ _) hrest ?_, rfl, rfl, ?_⟩
    · rw [leNat_crc]
      exact Ne.symm hcrc
    · rw [hrest, Field.read, List.drop_left' (by simp [hsize, headerSize, Field.inHeader])]
      rfl
  | lengthCRC =>
    have hrest : s.rest = leBytes 8 r.length ++ field ++ (r ++ footer r ++ rest) := by
      rw [hr]
      simp [Field.front, Field.back, List.append_assoc]
    have hsize : field.length = 4 := by rw [hlen', Field.bytes, leBytes_length]
    refine ⟨_, scan_header_corrupted he (leBytes_length _ _) hsize hrest ?_, rfl, rfl, ?_⟩
    · intro heq
      apply hfield
      apply leNat_inj hlen'.symm
      rw [← heq, Field.bytes, leNat_crc]
    · rw [hrest, Field.read, List.drop_left' (by simp [hsize, headerSize, Field.inHeader])]
      rfl
  | payload =>
    have hrest : s.rest = header r.length ++ (field ++ (footer r ++ rest)) := by
      rw [hr]
      simp [Field.front, Field.back, List.append_assoc]
    refine ⟨_, scan_data_corrupted he hlen' (footer_length r) hrest hl hw ?_, rfl, rfl, ?_⟩
    · rw [footer, leNat_crc]
      exact Ne.symm hcrc
    · rw [hrest]
      exact (drop_fields (header_length _) hlen' (footer_length r)).symm
  | payloadCRC =>
    have hrest : s.rest = header r.length ++ (r ++ (field ++ rest)) := by
      rw [hr]
      simp [Field.front, Field.back, List.append_assoc]
    have hsize : field.length = 4 := hlen'.trans (footer_length r)
    refine ⟨_, scan_data_corrupted he rfl hsize hrest hl hw ?_, rfl, rfl, ?_⟩
    · intro heq
      apply hfield
      apply leNat_inj hlen'.symm
      rw [← heq, Field.bytes, footer, leNat_crc]
    · rw [hrest]
      exact (drop_fields (header_length _) rfl hsize).symm

end Detect

/-- A list that agrees with another one outside a window. -/
lemma eq_splice {α : Type*} {old new : List α} {lo width : ℕ}
    (hsame : ∀ j, j < lo ∨ lo + width ≤ j → new[j]? = old[j]?) :
    new = old.take lo ++ (new.drop lo).take width ++ old.drop (lo + width) := by
  have hfront : new.take lo = old.take lo := by
    apply List.ext_getElem?
    intro j
    rw [List.getElem?_take, List.getElem?_take]
    split
    · exact hsame j (Or.inl ‹_›)
    · rfl
  have hback : new.drop (lo + width) = old.drop (lo + width) := by
    apply List.ext_getElem?
    intro j
    rw [List.getElem?_drop, List.getElem?_drop]
    exact hsame _ (Or.inr (by omega))
  rw [← hfront, ← hback, ← List.drop_drop, List.append_assoc, List.take_append_drop,
    List.take_append_drop]

/-- The window of a list at `first`. -/
lemma exists_window {α : Type*} {l : List α} {first width : ℕ} (h : first + width ≤ l.length) :
    ∃ a old b, l = a ++ old ++ b ∧ a.length = first ∧ old.length = width := by
  refine ⟨l.take first, (l.drop first).take width, l.drop (first + width), ?_, ?_, ?_⟩
  · rw [List.append_assoc, ← List.drop_drop, List.take_append_drop, List.take_append_drop]
  · rw [List.length_take]
    omega
  · rw [List.length_take, List.length_drop]
    omega

/-- What stands in the window of a list that agrees with `l ++ old ++ r` outside of it. -/
lemma exists_replaced {α : Type*} {data l old r : List α}
    (hlen : data.length = (l ++ (old ++ r)).length)
    (hsame : ∀ j, j < l.length ∨ l.length + old.length ≤ j →
      data[j]? = (l ++ (old ++ r))[j]?) :
    ∃ new, new.length = old.length ∧ data = l ++ (new ++ r) := by
  have hsplice := eq_splice hsame
  rw [List.take_left, ← List.drop_drop, List.drop_left, List.drop_left, List.append_assoc] at hsplice
  refine ⟨_, ?_, hsplice⟩
  simp only [List.length_append] at hlen
  rw [List.length_take, List.length_drop]
  omega

/-- Records within the limit, of which up to four neighbouring bytes in one field of one
frame were changed, read through any buffer: the records before the frame are returned,
and the scan stops behind the header or behind the frame, depending on the field. -/
theorem localised_corruption_detected (opts : List ScannerOption) (seeker : Bool)
    (grants : List ℕ) (records : List Bytes) (hl : ∀ r ∈ records, r.length ≤ recordLimit opts)
    (before after : List Bytes) (r : Bytes) (hrecords : records = before ++ r :: after)
    (f : Field) (first width : ℕ) (hwidth : width ≤ 4) (hfield : first + width ≤ (f.bytes r).length)
    (data : Bytes) (hlen : data.length = (encode records).length) (hne : data ≠ encode records)
    (hsame : ∀ j, j < (encode before).length + (f.front r).length + first ∨
      (encode before).length + (f.front r).length + first + width ≤ j →
      data[j]? = (encode records)[j]?) :
    ∃ fin, Scans BufferedScanner.Scan BufferedScanner.current
        (NewBufferedScanner ⟨data, grants⟩ seeker opts)
        (before.zip (frameOffsets 0 before)) fin ∧
      fin.err = some f.err ∧ fin.lastValidOffset = (encode before).length ∧
      fin.br.rest = data.drop ((encode before).length + f.read r) ∧ fin.Scan = (false, fin) := by
  have hold : encode records =
      (encode before ++ f.front r) ++ (f.bytes r ++ (f.back r ++ encode after)) := by
    rw [hrecords, encode_append, encode_cons, f.frame_eq r]
    simp only [List.append_assoc]
  obtain ⟨a, old, b, hsplit, ha, hw⟩ := exists_window hfield
  have hparts : encode records =
      (encode before ++ f.front r ++ a) ++ (old ++ (b ++ (f.back r ++ encode after))) := by
    rw [hold, hsplit]
    simp only [List.append_assoc]
  obtain ⟨new, hnew, hdata⟩ : ∃ new : Bytes, new.length = width ∧
      data = encode before ++ (f.front r ++ (a ++ new ++ b) ++ f.back r ++ encode after) := by
    rw [hparts] at hlen hsame
    have hlo : (encode before ++ f.front r ++ a).length =
        (encode before).length + (f.front r).length + first := by
      rw [List.length_append, List.length_append, ha]
    rw [← hlo, ← hw] at hsame
    obtain ⟨new, hnew, hdata⟩ := exists_replaced hlen hsame
    refine ⟨new, hnew.trans hw, ?_⟩
    rw [hdata]
    simp only [List.append_assoc]
  have hchanged : old ≠ new := by
    rintro rfl
    apply hne
    rw [hdata, hparts]
    simp only [List.append_assoc]
  have hlim := recordLimit_lt opts
  have hlr : r.length ≤ recordLimit opts := hl r (by simp [hrecords])
  obtain ⟨t, hadv, htail, herr, hmax, hlvo⟩ := advances_encode before _
    { NewScanner data with maxRecordSize := recordLimit opts } rfl hdata
    (fun x hx => hl x (by simp [hrecords, hx])) hlim
  obtain ⟨fin, hscan, hferr, hflvo, hfrest⟩ := scan_burst herr hsplit (hw.trans hnew.symm)
    (by omega) hchanged htail (hmax ▸ hlr) (by omega)
  obtain ⟨fin', hrun, rfl⟩ := buffered_scans ⟨data, grants⟩ seeker opts ⟨t, hadv, hscan⟩
  refine ⟨fin', hrun, hferr, ?_, ?_, ?_⟩
  · rw [show fin'.lastValidOffset = _ from hflvo, hlvo]
    exact Nat.zero_add _
  · rw [show fin'.br.rest = _ from hfrest, htail, ← List.drop_drop, hdata, List.drop_left]
  · rw [BufferedScanner.Scan, show fin'.err = _ from hferr]
    rfl

/-- The first payload byte of the second record is changed. -/
theorem localised_corruption_detected_payload :
    ∃ fin, Scans BufferedScanner.Scan BufferedScanner.current
        (NewBufferedScanner ⟨encode [[1]] ++ header 2 ++ [7] ++ ([3] ++ footer [2, 3]), [0, 4]⟩ true
          [.bufferSize 16]) [([1], 0)] fin ∧ fin.err = some .dataCorrupted := by
  have hold : encode [[1], [2, 3]] = encode [[1]] ++ header 2 ++ [2] ++ ([3] ++ footer [2, 3]) := by
    simp [encode, frame]
  have hstart : (encode [[1]]).length + (header 2).length + 0 = (encode [[1]] ++ header 2).length := by
    rw [List.length_append]
    rfl
  obtain ⟨fin, hrun, herr, -⟩ := localised_corruption_detected [.bufferSize 16] true [0, 4]
    [[1], [2, 3]] (by decide) [[1]] [] [2, 3] rfl .payload 0 1 (by decide) (by decide)
    (encode [[1]] ++ header 2 ++ [7] ++ ([3] ++ footer [2, 3]))
    (by rw [hold]; simp only [List.length_append, List.length_cons]) (by rw [hold]; simp)
    (fun j hj => by
      rw [show (Field.front [2, 3] .payload).length = (header 2).length from rfl, hstart] at hj
      rw [hold]
      generalize encode [[1]] ++ header 2 = start at hj ⊢
      generalize [3] ++ footer [2, 3] = tail
      rcases hj with hlt | hge
      · rw [List.append_assoc, List.append_assoc, List.getElem?_append_left hlt,
          List.getElem?_append_left hlt]
      · rw [List.getElem?_append_right (by simpa using hge),
          List.getElem?_append_right (by simpa using hge), List.length_append, List.length_append]
        rfl)
  exact ⟨fin, hrun, herr⟩

end CloudyNeigh.RecordIO
