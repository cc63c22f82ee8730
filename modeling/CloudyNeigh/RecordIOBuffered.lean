import CloudyNeigh.Bufio
import CloudyNeigh.RecordIOScanner

/-!
# Scanner and writer over buffered streams

The scanner of the source reads through a `bufio.Reader` whose size its caller
chooses, and `Skip` looks at what is buffered and may seek. The writer goes
through a `bufio.Writer`. Both are the scanner and the writer over plain byte
strings, whatever the buffers do.
-/
namespace CloudyNeigh.RecordIO
open Bufio (Source Reader)

def DefaultBufferSize : ℕ := 64 * 1024

/-- An option for a Go `int`; both ignore a value that is not positive. -/
inductive ScannerOption
  | bufferSize (size : Int64)
  | maxRecordSize (max : Int64)
  deriving DecidableEq

structure BufferedScanner where
  br : Reader UInt8
  -- the underlying reader implements `io.Seeker`
  seeker : Bool
  record : Bytes := []
  offset : ℕ := 0
  lastValidOffset : ℕ := 0
  maxRecordSize : ℕ := DefaultMaxRecordSize
  err : Option ScanErr := none

/-- The buffer size and the record limit that a list of options leaves. -/
def applyOption (sizes : ℕ × ℕ) : ScannerOption → ℕ × ℕ
  | .bufferSize size => if 0 < size then (size.toInt.toNat, sizes.2) else sizes
  | .maxRecordSize max => if 0 < max then (sizes.1, max.toInt.toNat) else sizes

def scannerSizes (opts : List ScannerOption) : ℕ × ℕ :=
  opts.foldl applyOption (DefaultBufferSize, DefaultMaxRecordSize)

/-- The record limit that the options set. -/
def recordLimit (opts : List ScannerOption) : ℕ := (scannerSizes opts).2

/-- `NewScanner` with options, over any source. -/
def NewBufferedScanner (src : Source UInt8) (seeker : Bool) (opts : List ScannerOption) :
    BufferedScanner where
  br := Bufio.NewReaderSize src (scannerSizes opts).1
  seeker := seeker
  maxRecordSize := recordLimit opts

namespace BufferedScanner

def fail (s : BufferedScanner) (br : Reader UInt8) (e : ScanErr) : BufferedScanner :=
  { s with br := br, err := some e }

def readHeader (s : BufferedScanner) : Option ℕ × BufferedScanner :=
  let s := { s with record := [] }
  match s.br.ReadFull headerSize with
  | (hdr, some _, br) =>
    if hdr.length = 0 then (none, { s with br := br }) else (none, s.fail br .tornWrite)
  | (hdr, none, br) =>
    let length := leNat (hdr.take 8)
    let headerCRC := leNat (hdr.drop 8)
    if (computeMaskedCRC (hdr.take 8)).toNat ≠ headerCRC then
      (none, s.fail br .headerCorrupted)
    else if s.maxRecordSize < length then
      (none, s.fail br .recordTooLarge)
    else (some length, { s with br := br })

def Scan (s : BufferedScanner) : Bool × BufferedScanner :=
  if s.err.isSome then (false, s)
  else
    let startOffset := s.lastValidOffset
    match s.readHeader with
    | (none, s) => (false, s)
    | (some reqLen, s) =>
      let s := { s with offset := startOffset }
      -- an empty payload is not read at all
      match if 0 < reqLen then s.br.ReadFull reqLen else ([], none, s.br) with
      | (_, some _, br) => (false, s.fail br .tornWrite)
      | (payload, none, br) =>
        match br.ReadFull footerSize with
        | (_, some _, br) => (false, s.fail br .tornWrite)
        | (foot, none, br) =>
          if (computeMaskedCRC payload).toNat ≠ leNat foot then
            (false, s.fail br .dataCorrupted)
          else (true, { s with
            br := br
            record := payload
            lastValidOffset := startOffset + frameOverhead + reqLen })

/-- Pass over `payload` bytes: first those that are buffered, then, for the rest,
a seek of the underlying reader or a read that drops them. -/
def passOver (seeker : Bool) (br : Reader UInt8) (payload : ℕ) : Bool × Reader UInt8 :=
  let buffered := br.Buffered
  let br := br.Discard (min payload buffered)
  if buffered < payload then
    let remain := payload - buffered
    if seeker then (true, br.Reset (br.src.seek remain)) else br.copyDiscard remain
  else (true, br)

def Skip (s : BufferedScanner) : Bool × BufferedScanner :=
  if s.err.isSome then (false, s)
  else
    let startOffset := s.lastValidOffset
    match s.readHeader with
    | (none, s) => (false, s)
    | (some length, s) =>
      match passOver s.seeker s.br length with
      | (false, br) => (false, s.fail br .tornWrite)
      | (true, br) =>
        match br.ReadFull footerSize with
        | (_, some _, br) => (false, s.fail br .tornWrite)
        | (_, none, br) => (true, { s with
            br := br
            offset := startOffset
            lastValidOffset := startOffset + frameOverhead + length })

/-- The scanner over the bytes that the reader still has to deliver. -/
def plain (s : BufferedScanner) : Scanner where
  rest := s.br.rest
  record := s.record
  offset := s.offset
  lastValidOffset := s.lastValidOffset
  maxRecordSize := s.maxRecordSize
  err := s.err

end BufferedScanner

/-- `Skip` over a byte string: the payload is not checked. -/
def Scanner.Skip (s : Scanner) : Bool × Scanner :=
  if s.err.isSome then (false, s)
  else
    let startOffset := s.lastValidOffset
    match s.readHeader with
    | (none, s) => (false, s)
    | (some length, s) =>
      match readFull length s.rest with
      | .error _ => (false, s.fail [] .tornWrite)
      | .ok (_, rest) =>
        match readFull footerSize rest with
        | .error _ => (false, s.fail [] .tornWrite)
        | .ok (_, rest) => (true, { s with
            rest := rest
            offset := startOffset
            lastValidOffset := startOffset + frameOverhead + length })

section Refinement

/-- `ReadFull` through a buffer is `readFull` on what the reader still has to deliver. -/
lemma ReadFull_cases (b : Reader UInt8) (n : ℕ) :
    (∃ p b', b.ReadFull n = (p, none, b') ∧ readFull n b.rest = .ok (p, b'.rest)) ∨
    ∃ p e b', b.ReadFull n = (p, some e, b') ∧ b'.rest = [] ∧
      readFull n b.rest = .error (if p.length = 0 then .eof else .unexpectedEOF) := by
  obtain ⟨hp, hrest⟩ := b.ReadFull_rest n
  have herr := b.ReadFull_err n
  by_cases hn : n ≤ b.rest.length
  · left
    refine ⟨(b.ReadFull n).1, (b.ReadFull n).2.2, ?_, ?_⟩
    · rw [if_pos hn] at herr
      rw [← herr]
    · rw [hp, hrest, readFull, if_pos hn]
  · right
    rw [if_neg hn] at herr
    have hall : (b.ReadFull n).1 = b.rest := by rw [hp, List.take_of_length_le (by omega)]
    have hnone : (b.ReadFull n).2.2.rest = [] := by rw [hrest, List.drop_of_length_le (by omega)]
    refine ⟨(b.ReadFull n).1, if b.rest = [] then .eof else .unexpectedEOF,
      (b.ReadFull n).2.2, ?_, hnone, ?_⟩
    · have : some (if b.rest = [] then Bufio.ReadErr.eof else .unexpectedEOF) =
          (b.ReadFull n).2.1 := by
        rw [herr]
        split <;> rfl
      rw [this]
    · simp only [hall, readFull, if_neg hn, List.length_eq_zero_iff]
      split <;> rfl

namespace BufferedScanner

lemma readHeader_plain (s : BufferedScanner) :
    Prod.map id plain s.readHeader = s.plain.readHeader := by
  rcases ReadFull_cases s.br headerSize with ⟨p, b', hb, hr⟩ | ⟨p, e, b', hb, hnil, hr⟩
  · have hr' : readFull headerSize s.plain.rest = .ok (p, b'.rest) := hr
    simp only [readHeader, hb, Scanner.readHeader, hr']
    by_cases hcrc : (computeMaskedCRC (p.take 8)).toNat ≠ leNat (p.drop 8)
    · simp only [if_pos hcrc]
      rfl
    · simp only [if_neg hcrc]
      by_cases hmax : s.maxRecordSize < leNat (p.take 8)
      · rw [if_pos hmax, if_pos (show s.plain.maxRecordSize < _ from hmax)]
        rfl
      · rw [if_neg hmax, if_neg (show ¬ s.plain.maxRecordSize < _ from hmax)]
        rfl
  · have hr' : readFull headerSize s.plain.rest = _ := hr
    simp only [readHeader, hb, Scanner.readHeader, hr']
    by_cases hp : p.length = 0
    · simp [hp, plain, hnil]
    · simp [hp, plain, hnil, fail, Scanner.fail]

lemma readHeader_plain_none {s s' : BufferedScanner} (h : s.readHeader = (none, s')) :
    s.plain.readHeader = (none, s'.plain) := by
  rw [← readHeader_plain, h]
  rfl

lemma readHeader_plain_some {s s' : BufferedScanner} {n : ℕ} (h : s.readHeader = (some n, s')) :
    s.plain.readHeader = (some n, s'.plain) := by
  rw [← readHeader_plain, h]
  rfl

/-- The payload of length zero that `Scan` does not read. -/
lemma readFull_zero (data : Bytes) : readFull 0 data = .ok ([], data) := by
  simp [readFull]

lemma payload_cases (b : Reader UInt8) (n : ℕ) :
    (∃ p b', (if 0 < n then b.ReadFull n else ([], none, b)) = (p, none, b') ∧
      readFull n b.rest = .ok (p, b'.rest)) ∨
    ∃ p e b' e', (if 0 < n then b.ReadFull n else ([], none, b)) = (p, some e, b') ∧
      b'.rest = [] ∧ readFull n b.rest = .error e' := by
  by_cases hn : 0 < n
  · simp only [if_pos hn]
    rcases ReadFull_cases b n with h | ⟨p, e, b', hb, hnil, hr⟩
    · exact Or.inl h
    · exact Or.inr ⟨p, e, b', _, hb, hnil, hr⟩
  · have hz : n = 0 := by omega
    subst hz
    exact Or.inl ⟨[], b, by simp, readFull_zero _⟩

theorem scan_plain (s : BufferedScanner) : Prod.map id plain s.Scan = s.plain.Scan := by
  unfold Scan Scanner.Scan
  by_cases he : s.err.isSome
  · simp [he, plain]
  · rw [if_neg he, if_neg (show ¬ s.plain.err.isSome = true from he)]
    dsimp only
    cases hh : s.readHeader with
    | mk o s₁ =>
      cases o with
      | none => rw [readHeader_plain_none hh]; rfl
      | some n =>
        rw [readHeader_plain_some hh]
        dsimp only
        rcases payload_cases s₁.br n with ⟨p, b', hb, hr⟩ | ⟨p, e, b', e', hb, hnil, hr⟩
        · simp only [hb, show s₁.plain.rest = s₁.br.rest from rfl, hr]
          rcases ReadFull_cases b' footerSize with ⟨f, b₂, hf, hrf⟩ | ⟨f, e, b₂, hf, hnil, hrf⟩
          · simp only [hf, hrf]
            split <;> rfl
          · simp only [hf, hrf]
            simp [plain, fail, Scanner.fail, hnil]
        · simp only [hb, show s₁.plain.rest = s₁.br.rest from rfl, hr]
          simp [plain, fail, Scanner.fail, hnil]

/-- Passing over a payload that is there leaves what follows it; past the end, a
seek says nothing and a read reports the end, and nothing is left either way. -/
lemma passOver_rest (seeker : Bool) (br : Reader UInt8) (n : ℕ) :
    (passOver seeker br n).2.rest = br.rest.drop n ∧
      (n ≤ br.rest.length → (passOver seeker br n).1 = true) := by
  have hlen : br.rest.length = br.buf.length + br.src.unread.length := List.length_append
  by_cases hb : br.Buffered < n
  · have hmin : min n br.Buffered = br.Buffered := by omega
    have hdrop : (br.Discard br.Buffered).rest = br.src.unread := by
      rw [Reader.Discard_rest _ le_rfl]
      simp [Reader.rest, Reader.Buffered]
    have hrest : br.rest.drop n = br.src.unread.drop (n - br.Buffered) := by
      rw [Reader.rest, List.drop_append, List.drop_of_length_le (le_of_lt hb), List.nil_append]
      rfl
    cases seeker with
    | true =>
      simp only [passOver, hmin, if_pos hb, if_true]
      exact ⟨by rw [hrest]; rfl, fun _ => trivial⟩
    | false =>
      simp only [passOver, hmin, if_pos hb, Bool.false_eq_true, if_false]
      obtain ⟨h1, h2⟩ := (br.Discard br.Buffered).copyDiscard_spec (n - br.Buffered)
      rw [hdrop] at h1 h2
      refine ⟨by rw [h2, hrest], fun hn => ?_⟩
      rw [h1, decide_eq_true_eq]
      simp only [Reader.Buffered] at hb ⊢
      omega
  · have hmin : min n br.Buffered = n := by omega
    simp only [passOver, hmin, if_neg hb]
    exact ⟨Reader.Discard_rest _ (by omega), fun _ => trivial⟩

theorem skip_plain (s : BufferedScanner) : Prod.map id plain s.Skip = s.plain.Skip := by
  unfold Skip Scanner.Skip
  by_cases he : s.err.isSome
  · simp [he, plain]
  · rw [if_neg he, if_neg (show ¬ s.plain.err.isSome = true from he)]
    dsimp only
    cases hh : s.readHeader with
    | mk o s₁ =>
      cases o with
      | none => rw [readHeader_plain_none hh]; rfl
      | some n =>
        rw [readHeader_plain_some hh]
        dsimp only
        obtain ⟨hrest, hok⟩ := passOver_rest s₁.seeker s₁.br n
        cases hp : passOver s₁.seeker s₁.br n with
        | mk ok b' =>
          rw [hp] at hrest hok
          dsimp only at hrest hok ⊢
          by_cases hn : n ≤ s₁.br.rest.length
          · have hr : readFull n s₁.br.rest = .ok (s₁.br.rest.take n, b'.rest) := by
              rw [readFull, if_pos hn, hrest]
            rw [hok hn]
            simp only [show s₁.plain.rest = s₁.br.rest from rfl, hr]
            rcases ReadFull_cases b' footerSize with ⟨f, b₂, hf, hrf⟩ | ⟨f, e, b₂, hf, hnil, hrf⟩
            · simp only [hf, hrf]
              rfl
            · simp only [hf, hrf]
              simp [plain, fail, Scanner.fail, hnil]
          · -- the payload is cut: a read says so, after a seek the footer is missing
            have hnil : b'.rest = [] := by rw [hrest, List.drop_of_length_le (by omega)]
            obtain ⟨e', hr⟩ : ∃ e', readFull n s₁.br.rest = .error e' := by
              unfold readFull
              rw [if_neg hn]
              split <;> exact ⟨_, rfl⟩
            simp only [show s₁.plain.rest = s₁.br.rest from rfl, hr]
            cases ok with
            | false => simp [plain, fail, Scanner.fail, hnil]
            | true =>
              rcases ReadFull_cases b' footerSize with ⟨f, b₂, -, hrf⟩ | ⟨f, e, b₂, hf, hnil₂, -⟩
              · rw [hnil] at hrf
                simp [readFull, footerSize] at hrf
              · simp only [hf]
                simp [plain, fail, Scanner.fail, hnil₂]

end BufferedScanner

lemma applyOption_limit (sizes : ℕ × ℕ) (o : ScannerOption) (h : sizes.2 < 2 ^ 63) :
    (applyOption sizes o).2 < 2 ^ 63 := by
  cases o with
  | bufferSize size =>
    simp only [applyOption]
    split <;> exact h
  | maxRecordSize max =>
    simp only [applyOption]
    split
    · have := Int64.toInt_lt max
      dsimp only
      omega
    · exact h

/-- The limit is a Go `int`, so no length within it wraps in the header. -/
lemma recordLimit_lt (opts : List ScannerOption) : recordLimit opts < 2 ^ 63 := by
  have hfold : ∀ sizes : ℕ × ℕ, sizes.2 < 2 ^ 63 → (opts.foldl applyOption sizes).2 < 2 ^ 63 := by
    induction opts with
    | nil => exact fun sizes h => h
    | cons o opts ih => exact fun sizes h => ih _ (applyOption_limit sizes o h)
  exact hfold _ (by simp [DefaultMaxRecordSize])

end Refinement

structure BufferedWriter where
  bw : Bufio.Writer UInt8
  offset : ℕ := 0
  closed : Bool := false

/-- The buffer size that calls of `WithWriterBufferSize` leave. -/
def writerSize (sizes : List Int64) : ℕ :=
  sizes.foldl (fun n size => if 0 < size then size.toInt.toNat else n) DefaultBufferSize

def NewBufferedWriter (sizes : List Int64) : BufferedWriter :=
  { bw := Bufio.NewWriterSize (writerSize sizes) }

namespace BufferedWriter

def WriteRecord (w : BufferedWriter) (record : Bytes) : Option (BufferedWriter × ℕ × ℕ) :=
  if w.closed then none
  else
    let bw := w.bw.Write (header record.length)
    let bw := if 0 < record.length then bw.Write record else bw
    let bw := bw.Write (footer record)
    let totalWritten := frameOverhead + record.length
    some ({ w with bw := bw, offset := w.offset + totalWritten }, totalWritten, w.offset)

def Flush (w : BufferedWriter) : BufferedWriter := { w with bw := w.bw.Flush }

def Close (w : BufferedWriter) : BufferedWriter :=
  if w.closed then w else { w.Flush with closed := true }

/-- `WriteRecord` on each record in turn, with what it returned for each. -/
def writeAll (w : BufferedWriter) : List Bytes → Option (BufferedWriter × List (ℕ × ℕ))
  | [] => some (w, [])
  | r :: rs => do
    let (w, report) ← w.WriteRecord r
    let (w, reports) ← w.writeAll rs
    return (w, report :: reports)

def plain (w : BufferedWriter) : Writer := ⟨w.bw.given, w.offset, w.closed⟩

theorem writeRecord_plain (w : BufferedWriter) (record : Bytes) :
    (w.WriteRecord record).map (Prod.map plain id) = w.plain.WriteRecord record := by
  unfold WriteRecord Writer.WriteRecord
  by_cases hc : w.closed
  · simp [hc, plain]
  · by_cases hr : 0 < record.length
    · simp [hc, hr, plain, Bufio.Writer.Write_given, List.append_assoc]
    · have hnil : record = [] := List.length_eq_zero_iff.mp (by omega)
      simp [hc, hnil, plain, Bufio.Writer.Write_given, List.append_assoc]

end BufferedWriter

/-- The bytes of a buffered stream that holds these records, once it is closed,
with the length and the offset that each `WriteRecord` reported. -/
def written (sizes : List Int64) (records : List Bytes) : Option (Bytes × List (ℕ × ℕ)) :=
  ((NewBufferedWriter sizes).writeAll records).map fun (w, reports) => (w.Close.bw.out, reports)

/-- Length and offset of each frame in a stream whose first frame is at `start`. -/
def frameReports (start : ℕ) : List Bytes → List (ℕ × ℕ)
  | [] => []
  | r :: rs => ((frame r).length, start) :: frameReports (start + (frame r).length) rs

namespace BufferedWriter

lemma writeAll_spec (w : BufferedWriter) (records : List Bytes) (hc : w.closed = false) :
    ∃ w', w.writeAll records = some (w', frameReports w.offset records) ∧
      w'.bw.given = w.bw.given ++ encode records ∧ w'.closed = false := by
  induction records generalizing w with
  | nil => exact ⟨w, rfl, by simp, hc⟩
  | cons r rs ih =>
    have hplain := w.writeRecord_plain r
    simp only [Writer.WriteRecord, plain, hc, Bool.false_eq_true, if_false,
      Option.map_eq_some_iff] at hplain
    obtain ⟨⟨w₁, report⟩, hw, heq⟩ := hplain
    obtain ⟨hw₁, rfl⟩ := Prod.mk.inj heq
    obtain ⟨hgiven, hoff, hclosed⟩ := Writer.mk.inj hw₁
    obtain ⟨w', hw', hg, hc'⟩ := ih w₁ hclosed
    refine ⟨w', ?_, ?_, hc'⟩
    · simp only [writeAll, hw, hw', frameReports, frame_length, hoff, Option.bind_eq_bind,
        Option.bind_some, Option.pure_def]
    · rw [hg, hgiven, encode_cons, frame, List.append_assoc]

end BufferedWriter

/-- What a buffered writer writes does not depend on its buffer. -/
theorem written_encode (sizes : List Int64) (records : List Bytes) :
    written sizes records = some (encode records, frameReports 0 records) := by
  obtain ⟨w, hw, hg, hc⟩ := (NewBufferedWriter sizes).writeAll_spec records rfl
  have hout : w.Close.bw.out = encode records := by
    rw [BufferedWriter.Close, if_neg (by simp [hc])]
    change w.bw.Flush.out = _
    rw [(Bufio.Writer.Flush_given w.bw).2, hg]
    rfl
  simp only [written, hw, Option.map_some, hout]
  rfl

end CloudyNeigh.RecordIO
