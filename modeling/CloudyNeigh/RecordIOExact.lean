import CloudyNeigh.RecordIOBuffered

/-!
# The scanner accepts exactly what the writer writes

The loop that every caller of `Scan` runs, for the scanner over a byte string and for
the buffered one. A scan splits any byte string into the frames it returned and a rest that
does not begin with a frame within the limit.
-/
namespace CloudyNeigh.RecordIO
open WhileLoop

/-- `Record` and `Offset` after a `Scan` that returned true. -/
def Scanner.current (s : Scanner) : Bytes × ℕ := (s.record, s.offset)

def BufferedScanner.current (s : BufferedScanner) : Bytes × ℕ := (s.record, s.offset)

lemma leBytes_leNat {w : ℕ} {bs : Bytes} (hw : bs.length = w) : leBytes w (leNat bs) = bs := by
  subst hw
  induction bs with
  | nil => rfl
  | cons b bs ih =>
    have hb := b.toNat_lt
    have hmod : (b.toNat + 256 * leNat bs) % 256 = b.toNat := by omega
    have hdiv : (b.toNat + 256 * leNat bs) / 256 = leNat bs := by omega
    simp only [List.length_cons, leNat, leBytes, hmod, hdiv, ih, UInt8.ofNat_toNat]

section Exact
variable {s s' : Scanner}

/-- An accepted header is the header of the length it gives. -/
lemma readHeader_exact {n : ℕ} (h : s.readHeader = (some n, s')) :
    s.rest = header n ++ s'.rest ∧ n ≤ s.maxRecordSize ∧ s' = { s with
      record := []
      rest := s'.rest } := by
  unfold Scanner.readHeader at h
  dsimp only at h
  split at h
  · cases h
  · cases h
  · rename_i hdr rest hr
    obtain ⟨he, hl⟩ := readFull_ok hr
    split at h
    · cases h
    · rename_i hcrc
      split at h
      · cases h
      · rename_i hmax
        cases h
        refine ⟨?_, not_lt.mp hmax, rfl⟩
        have h8 : (hdr.take 8).length = 8 := by simp [hl, headerSize]
        have h4 : (hdr.drop 8).length = 4 := by simp [hl, headerSize]
        rw [header, leBytes_leNat h8, not_not.mp hcrc, leBytes_leNat h4, List.take_append_drop]
        exact he

/-- A true `Scan` has read one frame. -/
lemma scan_true_exact (h : s.Scan = (true, s')) :
    s.rest = frame s'.record ++ s'.rest ∧ s'.record.length ≤ s.maxRecordSize ∧ s.err = none ∧
      s' = { s with
        rest := s'.rest
        record := s'.record
        offset := s.lastValidOffset
        lastValidOffset := s.lastValidOffset + (frame s'.record).length } := by
  unfold Scanner.Scan at h
  split at h
  · cases h
  · rename_i hok
    dsimp only at h
    split at h
    · cases h
    · rename_i n s₁ hh
      obtain ⟨hrest, hmax, hs₁⟩ := readHeader_exact hh
      split at h
      · cases h
      · rename_i payload rest hp
        obtain ⟨he, hn⟩ := readFull_ok hp
        split at h
        · cases h
        · rename_i foot rest' hf
          obtain ⟨he', hn'⟩ := readFull_ok hf
          split at h
          · cases h
          · rename_i hcrc
            cases h
            have hfoot : foot = footer payload := by
              rw [footer, not_not.mp hcrc, leBytes_leNat (w := 4) hn']
            refine ⟨?_, hn ▸ hmax, by simpa using hok, ?_⟩
            · rw [hrest, he, he', hfoot, ← hn, frame]
              simp only [List.append_assoc]
            · rw [hs₁]
              simp only [frame_length, hn]
              rw [Nat.add_assoc]

/-- A `Scan` that returns false moves no valid offset, and reports an error unless
nothing was left. -/
lemma scan_false_exact (h : s.Scan = (false, s')) (he : s.err = none) :
    s'.lastValidOffset = s.lastValidOffset ∧ (s'.err = none ↔ s.rest = []) := by
  have herr : s.err.isSome = false := by simp [he]
  unfold Scanner.Scan at h
  simp only [herr, Bool.false_eq_true, if_false] at h
  split at h
  · rename_i s₁ hh
    cases h
    unfold Scanner.readHeader readFull at hh
    dsimp only at hh
    by_cases hlen : headerSize ≤ s.rest.length
    · have hne : s.rest ≠ [] := by
        intro hnil
        simp [hnil, headerSize] at hlen
      simp only [if_pos hlen] at hh
      split at hh
      · cases hh
        simp [Scanner.fail, hne]
      · split at hh
        · cases hh
          simp [Scanner.fail, hne]
        · cases hh
    · by_cases hnil : s.rest = []
      · simp only [if_neg hlen, if_pos hnil] at hh
        cases hh
        simp [he, hnil]
      · simp only [if_neg hlen, if_neg hnil] at hh
        cases hh
        simp [Scanner.fail, hnil]
  · rename_i n s₁ hh
    obtain ⟨hrest, -, hs₁⟩ := readHeader_exact hh
    have hne : s.rest ≠ [] := by
      intro hnil
      have := congrArg List.length hrest
      simp only [hnil, List.length_nil, List.length_append, header_length, headerSize] at this
      omega
    have hlvo : s₁.lastValidOffset = s.lastValidOffset := by rw [hs₁]
    split at h
    · cases h
      simp [Scanner.fail, hne, hlvo]
    · split at h
      · cases h
        simp [Scanner.fail, hne, hlvo]
      · split at h
        · cases h
          simp [Scanner.fail, hne, hlvo]
        · cases h

/-- Each round consumes a frame. -/
lemma scan_shrinks (s s' : Scanner) (h : s.Scan = (true, s')) :
    s'.rest.length < s.rest.length := by
  have hlen := congrArg List.length (scan_true_exact h).1
  simp only [List.length_append, frame_length, frameOverhead] at hlen
  omega

lemma scans_exists (s : Scanner) : ∃ out fin, Scans Scanner.Scan Scanner.current s out fin :=
  ⟨_, _, scans_run scan_shrinks (Nat.lt_succ_self s.rest.length)⟩

/-- `readAll` does not run out of fuel. -/
theorem readAll_scans (data : Bytes) :
    Scans Scanner.Scan Scanner.record (NewScanner data) (readAll data).1 (readAll data).2 :=
  scans_run scan_shrinks (Nat.lt_succ_self data.length)

/-- Offsets of the frames of a stream whose first frame is at `start`. -/
def frameOffsets (start : ℕ) (records : List Bytes) : List ℕ :=
  (frameReports start records).map Prod.snd

/-- What a whole scan leaves: the frames it returned, and a rest that is empty
exactly if there is no error. -/
structure ScanSpec (s : Scanner) (out : List (Bytes × ℕ)) (fin : Scanner) : Prop where
  split : ∃ tail, s.rest = encode (out.map Prod.fst) ++ tail ∧ (fin.err = none ↔ tail = [])
  limit : ∀ r ∈ out.map Prod.fst, r.length ≤ s.maxRecordSize
  offsets : out.map Prod.snd = frameOffsets s.lastValidOffset (out.map Prod.fst)
  valid : fin.lastValidOffset = s.lastValidOffset + (encode (out.map Prod.fst)).length

theorem scans_spec {fin : Scanner} {out : List (Bytes × ℕ)}
    (h : Scans Scanner.Scan Scanner.current s out fin) (he : s.err = none) :
    ScanSpec s out fin := by
  obtain ⟨t, ht, hstop⟩ := h
  induction ht with
  | here s =>
    obtain ⟨hlvo, herr⟩ := scan_false_exact hstop he
    exact ⟨⟨_, rfl, herr⟩, by simp, rfl, by simpa using hlvo⟩
  | @next s s' t out h _ ih =>
    obtain ⟨hrest, hle, -, hs'⟩ := scan_true_exact h
    have herr : s'.err = none := by rw [hs']; exact he
    have hmax : s'.maxRecordSize = s.maxRecordSize := by rw [hs']
    have hoff : s'.offset = s.lastValidOffset := by rw [hs']
    have hlvo : s'.lastValidOffset = s.lastValidOffset + (frame s'.record).length := by rw [hs']
    obtain ⟨⟨tail, htail, hiff⟩, hlimit, hoffs, hvalid⟩ := ih herr hstop
    refine ⟨⟨tail, ?_, hiff⟩, ?_, ?_, ?_⟩
    · simp only [List.map_cons, encode_cons, Scanner.current]
      rw [hrest, htail, List.append_assoc]
    · intro r hr
      rcases List.mem_cons.mp hr with rfl | hr
      · exact hle
      · exact hmax ▸ hlimit r hr
    · simp only [List.map_cons, Scanner.current, frameOffsets, frameReports, hoff]
      rw [hoffs, hlvo, frameOffsets]
    · simp only [List.map_cons, encode_cons, Scanner.current, List.length_append]
      rw [hvalid, hlvo, Nat.add_assoc]

/-- The rounds over frames within the limit, whatever follows them. -/
theorem advances_encode (records : List Bytes) (tail : Bytes) (s : Scanner) (he : s.err = none)
    (hr : s.rest = encode records ++ tail) (hl : ∀ r ∈ records, r.length ≤ s.maxRecordSize)
    (hm : s.maxRecordSize < 2 ^ 63) :
    ∃ t, Advances Scanner.Scan Scanner.current s
        (records.zip (frameOffsets s.lastValidOffset records)) t ∧
      t.rest = tail ∧ t.err = none ∧ t.maxRecordSize = s.maxRecordSize ∧
      t.lastValidOffset = s.lastValidOffset + (encode records).length := by
  induction records generalizing s with
  | nil => exact ⟨s, .here s, hr, he, rfl, rfl⟩
  | cons r rs ih =>
    have hlr : r.length ≤ s.maxRecordSize := hl r (by simp)
    have hrest : s.rest = frame r ++ (encode rs ++ tail) := by
      rw [hr, encode_cons, List.append_assoc]
    have hscan := scan_frame he hrest hlr (by omega)
    rw [Nat.add_assoc, ← frame_length] at hscan
    obtain ⟨t, hadv, htail, herr, hmax, hlvo⟩ := ih { s with
      rest := encode rs ++ tail
      record := r
      offset := s.lastValidOffset
      lastValidOffset := s.lastValidOffset + (frame r).length } he rfl
      (fun x hx => hl x (by simp [hx])) hm
    refine ⟨t, .next hscan hadv, htail, herr, hmax, ?_⟩
    rw [hlvo, encode_cons, List.length_append, Nat.add_assoc]

/-- The scan of a stream of frames within the limit returns them all. -/
theorem scans_encode (records : List Bytes) (s : Scanner) (he : s.err = none)
    (hr : s.rest = encode records) (hl : ∀ r ∈ records, r.length ≤ s.maxRecordSize)
    (hm : s.maxRecordSize < 2 ^ 63) :
    ∃ fin, Scans Scanner.Scan Scanner.current s
      (records.zip (frameOffsets s.lastValidOffset records)) fin ∧ fin.err = none := by
  obtain ⟨t, hadv, hnil, herr, -⟩ := advances_encode records [] s he (by simpa using hr) hl hm
  exact ⟨_, ⟨t, hadv, scan_nil herr hnil⟩, herr⟩

end Exact

/-- The offset of a frame is the length of the encoding of the records before it. -/
lemma getElem_frameOffsets (records : List Bytes) (start i : ℕ)
    (hi : i < (frameOffsets start records).length) :
    (frameOffsets start records)[i] = start + (encode (records.take i)).length := by
  induction records generalizing start i with
  | nil => simp [frameOffsets, frameReports] at hi
  | cons r rs ih =>
    cases i with
    | zero => simp [frameOffsets, frameReports]
    | succ i =>
      have := ih (start + (frame r).length) i (by simpa [frameOffsets, frameReports] using hi)
      simp only [frameOffsets, frameReports, List.map_cons, List.getElem_cons_succ] at this ⊢
      rw [this, List.take_succ_cons, encode_cons, List.length_append, Nat.add_assoc]

lemma length_frameOffsets (records : List Bytes) (start : ℕ) :
    (frameOffsets start records).length = records.length := by
  induction records generalizing start with
  | nil => rfl
  | cons r rs ih =>
    have := ih (start + (frame r).length)
    simpa [frameOffsets, frameReports] using this

section ReadAll
variable {data : Bytes}

lemma readAll_eq {out : List (Bytes × ℕ)} {fin : Scanner}
    (h : Scans Scanner.Scan Scanner.current (NewScanner data) out fin) :
    readAll data = (out.map Prod.fst, fin) := by
  obtain ⟨hout, hfin⟩ := (h.map Prod.fst).unique (readAll_scans data)
  exact Prod.ext hout hfin

/-- What a reader returns is never longer than the default limit. -/
theorem readAll_le (data : Bytes) : ∀ r ∈ (readAll data).1, r.length ≤ DefaultMaxRecordSize := by
  obtain ⟨out, fin, h⟩ := scans_exists (NewScanner data)
  rw [readAll_eq h]
  exact (scans_spec h rfl).limit

/-- Scanning what `WriteRecord` wrote returns the records, whatever they hold,
as long as none exceeds the scanner's limit. -/
theorem readAll_encode (records : List Bytes)
    (hl : ∀ r ∈ records, r.length ≤ DefaultMaxRecordSize) :
    (readAll (encode records)).1 = records ∧ (readAll (encode records)).2.err = none := by
  obtain ⟨fin, h, herr⟩ := scans_encode records (NewScanner (encode records)) rfl rfl hl
    (by simp [NewScanner, DefaultMaxRecordSize])
  rw [readAll_eq h]
  exact ⟨List.map_fst_zip (length_frameOffsets records _).ge, herr⟩

/-- A record over the limit is written but not read. -/
theorem readAll_too_large {r : Bytes} (hl : DefaultMaxRecordSize < r.length)
    (hw : r.length < 256 ^ 8) : (readAll (encode [r])).2.err = some .recordTooLarge := by
  have hrest : (NewScanner (encode [r])).rest = frame r ++ [] := by simp [NewScanner, encode]
  have hmax : (NewScanner (encode [r])).maxRecordSize = DefaultMaxRecordSize := rfl
  obtain ⟨s', hscan, herr⟩ := scan_too_large rfl hrest (hmax.trans_lt hl) hw
  rw [readAll_eq (.stop hscan)]
  exact herr

end ReadAll

lemma newBufferedScanner_plain (src : Bufio.Source UInt8) (seeker : Bool)
    (opts : List ScannerOption) : (NewBufferedScanner src seeker opts).plain =
      { NewScanner src.unread with maxRecordSize := recordLimit opts } := by
  simp [NewBufferedScanner, NewScanner, BufferedScanner.plain, Bufio.NewReaderSize,
    Bufio.Reader.rest]

/-- Over a new scanner, from any source, the loop ends and is that of the scanner
over the bytes of the source. -/
lemma buffered_scans (src : Bufio.Source UInt8) (seeker : Bool) (opts : List ScannerOption)
    {out : List (Bytes × ℕ)} {fin : Scanner}
    (h : Scans Scanner.Scan Scanner.current
      { NewScanner src.unread with maxRecordSize := recordLimit opts } out fin) :
    ∃ fin', Scans BufferedScanner.Scan BufferedScanner.current
      (NewBufferedScanner src seeker opts) out fin' ∧ fin'.plain = fin := by
  exact h.lift BufferedScanner.scan_plain (fun _ => rfl) (newBufferedScanner_plain src seeker opts)

/-- Scanning any byte string, through any buffer. -/
theorem scanner_accepts_exactly (src : Bufio.Source UInt8) (seeker : Bool)
    (opts : List ScannerOption) (sizes : List Int64) :
    ∃ out fin, Scans BufferedScanner.Scan BufferedScanner.current
        (NewBufferedScanner src seeker opts) out fin ∧
      (∀ out' fin', Scans BufferedScanner.Scan BufferedScanner.current
        (NewBufferedScanner src seeker opts) out' fin' → out' = out ∧ fin' = fin) ∧
      (written sizes (out.map Prod.fst)).map Prod.fst =
        some (src.unread.take fin.lastValidOffset) ∧
      fin.lastValidOffset ≤ src.unread.length ∧
      (∀ i (hi : i < out.length),
        out[i].2 = (encode ((out.map Prod.fst).take i)).length) ∧
      (fin.err = none ↔ ∃ records, (∀ r ∈ records, r.length ≤ recordLimit opts) ∧
        (written sizes records).map Prod.fst = some src.unread) ∧
      (∀ records reports, (∀ r ∈ records, r.length ≤ recordLimit opts) →
        written sizes records = some (src.unread, reports) →
        out = records.zip (reports.map Prod.snd)) := by
  have hlim := recordLimit_lt opts
  obtain ⟨out, fin, hrun⟩ := scans_exists
    { NewScanner src.unread with maxRecordSize := recordLimit opts }
  obtain ⟨⟨tail, htail, herr⟩, hlimit, hoffs, hvalid⟩ := scans_spec hrun rfl
  obtain ⟨fin', hrun', rfl⟩ := buffered_scans src seeker opts hrun
  have hdata : src.unread = encode (out.map Prod.fst) ++ tail := htail
  have hlvo : fin'.lastValidOffset = (encode (out.map Prod.fst)).length := by
    rw [show fin'.lastValidOffset = _ from hvalid]
    exact Nat.zero_add _
  -- a stream of frames within the limit has only one scan
  have hframes : ∀ records, (∀ r ∈ records, r.length ≤ recordLimit opts) →
      src.unread = encode records →
      out = records.zip (frameOffsets 0 records) ∧ fin'.err = none := by
    intro records hl he
    obtain ⟨fin₂, hrun₂, hnone⟩ := scans_encode records
      { NewScanner src.unread with maxRecordSize := recordLimit opts } rfl he hl hlim
    obtain ⟨hout, hfin⟩ := hrun₂.unique hrun
    refine ⟨hout, ?_⟩
    rw [← hfin] at hnone
    exact hnone
  refine ⟨out, fin', hrun', fun _ _ h => hrun'.unique h, ?_, ?_, ?_, ⟨?_, ?_⟩, ?_⟩
  · rw [written_encode, hlvo, hdata, List.take_left]
    rfl
  · rw [hlvo, hdata, List.length_append]
    omega
  · intro i hi
    have hi' : i < (frameOffsets 0 (out.map Prod.fst)).length := by
      simpa [length_frameOffsets] using hi
    have h1 : (out.map Prod.snd)[i]? = (frameOffsets 0 (out.map Prod.fst))[i]? := by
      rw [hoffs]
      rfl
    rw [List.getElem?_map, List.getElem?_eq_getElem hi, List.getElem?_eq_getElem hi',
      getElem_frameOffsets] at h1
    simpa using h1
  · intro hnone
    refine ⟨out.map Prod.fst, hlimit, ?_⟩
    rw [written_encode, hdata, herr.mp hnone, List.append_nil]
    rfl
  · rintro ⟨records, hl, he⟩
    rw [written_encode] at he
    exact (hframes records hl (Option.some.inj he).symm).2
  · intro records reports hl he
    rw [written_encode] at he
    obtain ⟨hbytes, rfl⟩ := Prod.mk.inj (Option.some.inj he)
    exact (hframes records hl hbytes.symm).1

end CloudyNeigh.RecordIO
