import CloudyNeigh.Bufio
import CloudyNeigh.RecordIOFrame
import CloudyNeigh.WhileLoop

/-!
# RecordIO scanner

`Scan` over a byte string, with each of its exits, and the loop that its callers
run. The length of the unread bytes is fuel enough for it.
-/
namespace CloudyNeigh.RecordIO
open Bufio (ReadErr)

inductive ScanErr
  | tornWrite
  | headerCorrupted
  | dataCorrupted
  | recordTooLarge
  deriving DecidableEq, Repr

/-- `io.ReadFull` of `n` bytes; an error has consumed everything that was left. -/
def readFull (n : ℕ) (data : Bytes) : Except ReadErr (Bytes × Bytes) :=
  if n ≤ data.length then .ok (data.take n, data.drop n)
  else if data = [] then .error .eof
  else .error .unexpectedEOF

/-- `rest` is what the buffered reader still has to deliver. `record` is what
`Record` returns after a `Scan` that returned true. -/
structure Scanner where
  rest : Bytes
  record : Bytes := []
  offset : ℕ := 0
  lastValidOffset : ℕ := 0
  maxRecordSize : ℕ := DefaultMaxRecordSize
  err : Option ScanErr := none
  deriving DecidableEq, Repr

def NewScanner (data : Bytes) : Scanner := { rest := data }

def Scanner.fail (s : Scanner) (rest : Bytes) (e : ScanErr) : Scanner :=
  { s with rest := rest, err := some e }

def Scanner.readHeader (s : Scanner) : Option ℕ × Scanner :=
  let s := { s with record := [] }
  match readFull headerSize s.rest with
  -- nothing at all was read: a clean end, not a torn write
  | .error .eof => (none, { s with rest := [] })
  | .error .unexpectedEOF => (none, s.fail [] .tornWrite)
  | .ok (hdr, rest) =>
    let length := leNat (hdr.take 8)
    let headerCRC := leNat (hdr.drop 8)
    if (computeMaskedCRC (hdr.take 8)).toNat ≠ headerCRC then
      (none, s.fail rest .headerCorrupted)
    else if s.maxRecordSize < length then
      (none, s.fail rest .recordTooLarge)
    else (some length, { s with rest := rest })

def Scanner.Scan (s : Scanner) : Bool × Scanner :=
  if s.err.isSome then (false, s)
  else
    let startOffset := s.lastValidOffset
    match s.readHeader with
    | (none, s) => (false, s)
    | (some reqLen, s) =>
      let s := { s with offset := startOffset }
      match readFull reqLen s.rest with
      | .error _ => (false, s.fail [] .tornWrite)
      | .ok (payload, rest) =>
        match readFull footerSize rest with
        | .error _ => (false, s.fail [] .tornWrite)
        | .ok (foot, rest) =>
          if (computeMaskedCRC payload).toNat ≠ leNat foot then
            (false, s.fail rest .dataCorrupted)
          else (true, { s with
            rest := rest
            record := payload
            lastValidOffset := startOffset + frameOverhead + reqLen })

/-- `for s.Scan() { ... s.Record() ... }`: the records returned and the scanner at exit. -/
def readAll (data : Bytes) : List Bytes × Scanner :=
  WhileLoop.run Scanner.Scan Scanner.record (data.length + 1) (NewScanner data)

theorem readFull_append (a b : Bytes) : readFull a.length (a ++ b) = .ok (a, b) := by
  simp [readFull]

theorem readFull_ok {n : ℕ} {data a b : Bytes} (h : readFull n data = .ok (a, b)) :
    data = a ++ b ∧ a.length = n := by
  unfold readFull at h
  split_ifs at h with hn
  simp only [Except.ok.injEq, Prod.mk.injEq] at h
  obtain ⟨rfl, rfl⟩ := h
  exact ⟨(List.take_append_drop n data).symm, by simp [hn]⟩

/-- Reading the header that `WriteRecord` wrote recovers the length, unless it is
over the limit. -/
theorem readHeader_header {s : Scanner} {n : ℕ} {rest : Bytes} (hw : n < 256 ^ 8)
    (hr : s.rest = header n ++ rest) :
    s.readHeader = if s.maxRecordSize < n
      then (none, Scanner.fail { s with record := [] } rest .recordTooLarge)
      else (some n, { s with record := [], rest := rest }) := by
  have hcrc : (computeMaskedCRC (leBytes 8 n)).toNat < 256 ^ 4 := by
    have := (computeMaskedCRC (leBytes 8 n)).isLt
    omega
  have ht : (header n).take 8 = leBytes 8 n := by simp [header]
  have hd : (header n).drop 8 = leBytes 4 (computeMaskedCRC (leBytes 8 n)).toNat := by
    simp [header]
  have hf : readFull headerSize (header n ++ rest) = .ok (header n, rest) := by
    rw [← header_length n]
    exact readFull_append _ _
  simp only [Scanner.readHeader, hr, hf, ht, hd, leNat_leBytes 8 n hw, leNat_leBytes 4 _ hcrc,
    ne_eq, not_true_eq_false, ↓reduceIte]

/-- `Scan` in front of a frame returns its record and stands behind it. -/
theorem scan_frame {s : Scanner} {r rest : Bytes} (he : s.err = none)
    (hr : s.rest = frame r ++ rest) (hl : r.length ≤ s.maxRecordSize) (hw : r.length < 256 ^ 8) :
    s.Scan = (true, { s with
      rest := rest
      record := r
      offset := s.lastValidOffset
      lastValidOffset := s.lastValidOffset + frameOverhead + r.length }) := by
  have hcrc : (computeMaskedCRC r).toNat < 256 ^ 4 := by
    have := (computeMaskedCRC r).isLt
    omega
  have hh : s.readHeader =
      (some r.length, { s with record := [], rest := r ++ (footer r ++ rest) }) := by
    have hrest : s.rest = header r.length ++ (r ++ (footer r ++ rest)) := by
      simp [hr, frame, List.append_assoc]
    rw [readHeader_header hw hrest, if_neg (not_lt.mpr hl)]
  have hf : readFull footerSize (footer r ++ rest) = .ok (footer r, rest) := by
    rw [← footer_length r]
    exact readFull_append _ _
  have hc : leNat (footer r) = (computeMaskedCRC r).toNat := leNat_leBytes 4 _ hcrc
  simp only [Scanner.Scan, he, hh, readFull_append, hf, hc, Option.isSome_none,
    Bool.false_eq_true, ↓reduceIte, ne_eq, not_true_eq_false]

/-- A `Scan` with nothing left ends the loop without an error. -/
theorem scan_nil {s : Scanner} (he : s.err = none) (hr : s.rest = []) :
    s.Scan = (false, { s with record := [] }) := by
  simp [Scanner.Scan, Scanner.readHeader, readFull, he, hr, headerSize]

theorem scan_too_large {s : Scanner} {r rest : Bytes} (he : s.err = none)
    (hr : s.rest = frame r ++ rest) (hl : s.maxRecordSize < r.length) (hw : r.length < 256 ^ 8) :
    ∃ s', s.Scan = (false, s') ∧ s'.err = some .recordTooLarge := by
  have hrest : s.rest = header r.length ++ (r ++ (footer r ++ rest)) := by
    simp [hr, frame, List.append_assoc]
  have hh := readHeader_header hw hrest
  rw [if_pos hl] at hh
  refine ⟨Scanner.fail { s with record := [] } (r ++ (footer r ++ rest)) .recordTooLarge, ?_, rfl⟩
  simp only [Scanner.Scan, he, hh, Option.isSome_none, Bool.false_eq_true, ↓reduceIte]

end CloudyNeigh.RecordIO
