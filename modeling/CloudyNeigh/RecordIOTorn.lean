import CloudyNeigh.RecordIOExact

/-!
# Torn tails

A stream that was cut inside a frame. Whichever field the cut falls into, the
frame before the cut is the last one returned and the error is a torn write, for
`Scan` and for `Skip`.
-/
namespace CloudyNeigh.RecordIO
open WhileLoop

section Cut
variable {s : Scanner} {r : Bytes} {cut : ℕ}

lemma readFull_short {n : ℕ} {data : Bytes} (h : data.length < n) :
    ∃ e, readFull n data = .error e := by
  unfold readFull
  rw [if_neg (by omega)]
  split
  · exact ⟨_, rfl⟩
  · exact ⟨_, rfl⟩

/-- A cut behind the header: the payload or the footer is short. -/
lemma cut_payload (h : cut < r.length + footerSize) :
    (∃ e, readFull r.length ((r ++ footer r).take cut) = .error e) ∨
    ∃ rest e, readFull r.length ((r ++ footer r).take cut) = .ok (r, rest) ∧
      readFull footerSize rest = .error e := by
  by_cases hc : cut < r.length
  · left
    apply readFull_short
    rw [List.length_take]
    omega
  · right
    have hsplit : (r ++ footer r).take cut = r ++ (footer r).take (cut - r.length) := by
      rw [List.take_append, List.take_of_length_le (by omega)]
    have hshort : ((footer r).take (cut - r.length)).length < footerSize := by
      rw [List.length_take, footer_length]
      omega
    obtain ⟨e, he⟩ := readFull_short hshort
    exact ⟨_, e, by rw [hsplit, readFull_append], he⟩

/-- What stays of a scanner when the frame in front of it is cut. -/
structure Torn (s s' : Scanner) : Prop where
  err : s'.err = some .tornWrite
  valid : s'.lastValidOffset = s.lastValidOffset

/-- The header of a cut frame is short itself, or it is read and what follows is short. -/
lemma cut_frame (hr : s.rest = (frame r).take cut) (hpos : 0 < cut)
    (hcut : cut < (frame r).length) (hl : r.length ≤ s.maxRecordSize) (hw : r.length < 256 ^ 8) :
    (∃ s', s.readHeader = (none, s') ∧ Torn s s') ∨
    ∃ rest, s.readHeader = (some r.length, { s with record := [], rest := rest }) ∧
      ((∃ e, readFull r.length rest = .error e) ∨
        ∃ payload foot e, readFull r.length rest = .ok (payload, foot) ∧
          readFull footerSize foot = .error e) := by
  by_cases hc : cut < headerSize
  · left
    have hne : s.rest ≠ [] := by
      rw [hr, ne_eq, List.take_eq_nil_iff]
      rintro (h0 | hnil)
      · omega
      · rw [hnil] at hcut
        simp at hcut
    have hshort : ¬ headerSize ≤ s.rest.length := by
      rw [hr, List.length_take]
      omega
    refine ⟨Scanner.fail { s with record := [] } [] .tornWrite, ?_, rfl, rfl⟩
    simp only [Scanner.readHeader, readFull, if_neg hshort, if_neg hne]
  · right
    have hrest : s.rest = header r.length ++ (r ++ footer r).take (cut - headerSize) := by
      rw [hr, frame, List.append_assoc, List.take_append, header_length,
        List.take_of_length_le (by rw [header_length]; omega)]
    have hshort : cut - headerSize < r.length + footerSize := by
      rw [frame_length] at hcut
      simp only [frameOverhead, headerSize, footerSize] at hcut ⊢
      omega
    refine ⟨(r ++ footer r).take (cut - headerSize), ?_, ?_⟩
    · rw [readHeader_header hw hrest, if_neg (not_lt.mpr hl)]
    · rcases cut_payload hshort with h | ⟨rest, e, hp, hf⟩
      · exact Or.inl h
      · exact Or.inr ⟨r, rest, e, hp, hf⟩

/-- A frame that is cut after its first byte is a torn write for `Scan`. -/
lemma scan_torn (he : s.err = none) (hr : s.rest = (frame r).take cut) (hpos : 0 < cut)
    (hcut : cut < (frame r).length) (hl : r.length ≤ s.maxRecordSize) (hw : r.length < 256 ^ 8) :
    ∃ s', s.Scan = (false, s') ∧ Torn s s' := by
  have herr : s.err.isSome = false := by simp [he]
  rcases cut_frame hr hpos hcut hl hw with ⟨s', hh, ht⟩ | ⟨rest, hh, hshort⟩
  · refine ⟨s', ?_, ht⟩
    simp only [Scanner.Scan, herr, Bool.false_eq_true, if_false, hh]
  · refine ⟨Scanner.fail { s with record := [], rest := rest, offset := s.lastValidOffset } []
      .tornWrite, ?_, rfl, rfl⟩
    rcases hshort with ⟨e, hp⟩ | ⟨payload, foot, e, hp, hf⟩
    · simp only [Scanner.Scan, herr, Bool.false_eq_true, if_false, hh, hp]
    · simp only [Scanner.Scan, herr, Bool.false_eq_true, if_false, hh, hp, hf]

/-- And it is one for `Skip`, which leaves `Offset` at the frame before. -/
lemma skip_torn (he : s.err = none) (hr : s.rest = (frame r).take cut) (hpos : 0 < cut)
    (hcut : cut < (frame r).length) (hl : r.length ≤ s.maxRecordSize) (hw : r.length < 256 ^ 8) :
    ∃ s', s.Skip = (false, s') ∧ Torn s s' := by
  have herr : s.err.isSome = false := by simp [he]
  rcases cut_frame hr hpos hcut hl hw with ⟨s', hh, ht⟩ | ⟨rest, hh, hshort⟩
  · refine ⟨s', ?_, ht⟩
    simp only [Scanner.Skip, herr, Bool.false_eq_true, if_false, hh]
  · refine ⟨Scanner.fail { s with record := [], rest := rest } [] .tornWrite, ?_, rfl, rfl⟩
    rcases hshort with ⟨e, hp⟩ | ⟨payload, foot, e, hp, hf⟩
    · simp only [Scanner.Skip, herr, Bool.false_eq_true, if_false, hh, hp]
    · simp only [Scanner.Skip, herr, Bool.false_eq_true, if_false, hh, hp, hf]

lemma skip_nil (he : s.err = none) (hr : s.rest = []) : s.Skip = (false, { s with record := [] }) := by
  simp [Scanner.Skip, Scanner.readHeader, readFull, he, hr, headerSize]

end Cut

/-- The number of leading records whose frames end at or before the cut. -/
def wholeFrames : List Bytes → ℕ → ℕ
  | [], _ => 0
  | r :: rs, cut => if (frame r).length ≤ cut then wholeFrames rs (cut - (frame r).length) + 1 else 0

lemma wholeFrames_le (records : List Bytes) (cut : ℕ) :
    wholeFrames records cut ≤ records.length ∧
      (encode (records.take (wholeFrames records cut))).length ≤ cut := by
  induction records generalizing cut with
  | nil => simp [wholeFrames]
  | cons r rs ih =>
    unfold wholeFrames
    split
    · obtain ⟨h1, h2⟩ := ih (cut - (frame r).length)
      simp only [List.length_cons, List.take_succ_cons, encode_cons, List.length_append]
      omega
    · simp

/-- It is the largest such number: the last frame boundary that is not after the cut. -/
lemma le_wholeFrames (records : List Bytes) (cut j : ℕ) (hj : j ≤ records.length)
    (hcut : (encode (records.take j)).length ≤ cut) : j ≤ wholeFrames records cut := by
  induction records generalizing cut j with
  | nil => simpa [wholeFrames] using hj
  | cons r rs ih =>
    cases j with
    | zero => omega
    | succ j =>
      simp only [List.take_succ_cons, encode_cons, List.length_append] at hcut
      unfold wholeFrames
      rw [if_pos (by omega)]
      have := ih (cut - (frame r).length) j (by simpa using hj) (by omega)
      omega

lemma encode_take_initial (records : List Bytes) (k : ℕ) :
    encode (records.take k) <+: encode records := by
  conv_rhs => rw [← List.take_append_drop k records]
  rw [encode_append]
  exact List.prefix_append _ _

lemma encode_take_mono (records : List Bytes) {j k : ℕ} (h : j ≤ k) :
    (encode (records.take j)).length ≤ (encode (records.take k)).length := by
  have hp := (encode_take_initial (records.take k) j).length_le
  rwa [List.take_take, min_eq_left h] at hp

/-- A cut leaves whole frames and an initial part of the next one, empty at a boundary. -/
lemma encode_take_cut (records : List Bytes) (cut : ℕ) (hcut : cut ≤ (encode records).length) :
    ∃ torn, (encode records).take cut = encode (records.take (wholeFrames records cut)) ++ torn ∧
      ((encode (records.take (wholeFrames records cut))).length = cut ∧ torn = [] ∨
        (encode (records.take (wholeFrames records cut))).length ≠ cut ∧
          ∃ r ∈ records, ∃ n, 0 < n ∧ n < (frame r).length ∧ torn = (frame r).take n) := by
  induction records generalizing cut with
  | nil =>
    have hz : cut = 0 := by simpa using hcut
    exact ⟨[], by simp, Or.inl ⟨by simp [hz], rfl⟩⟩
  | cons r rs ih =>
    by_cases hc : (frame r).length ≤ cut
    · rw [encode_cons, List.length_append] at hcut
      obtain ⟨torn, htake, hends⟩ := ih (cut - (frame r).length) (by omega)
      rw [wholeFrames, if_pos hc, List.take_succ_cons, encode_cons, encode_cons, List.take_append,
        List.take_of_length_le hc, List.length_append]
      refine ⟨torn, by rw [htake, List.append_assoc], ?_⟩
      rcases hends with ⟨hlen, hnil⟩ | ⟨hlen, r', hr', hn⟩
      · exact Or.inl ⟨by omega, hnil⟩
      · exact Or.inr ⟨by omega, r', List.mem_cons_of_mem _ hr', hn⟩
    · rw [wholeFrames, if_neg hc, List.take_zero, encode_cons,
        List.take_append_of_le_length (by omega)]
      refine ⟨(frame r).take cut, rfl, ?_⟩
      by_cases hz : cut = 0
      · exact Or.inl ⟨hz.symm, by rw [hz, List.take_zero]⟩
      · exact Or.inr ⟨Ne.symm hz, r, List.mem_cons_self, cut, by omega, by omega, rfl⟩

/-- Scanning a cut stream: the rounds up to the cut, and what `Scan` and `Skip` do there. -/
theorem scans_cut (records : List Bytes) (cut : ℕ) (s : Scanner) (he : s.err = none)
    (hr : s.rest = (encode records).take cut) (hl : ∀ r ∈ records, r.length ≤ s.maxRecordSize)
    (hm : s.maxRecordSize < 2 ^ 63) (hcut : cut ≤ (encode records).length) :
    let whole := records.take (wholeFrames records cut)
    let err := if (encode whole).length = cut then none else some ScanErr.tornWrite
    ∃ t fin fin', Advances Scanner.Scan Scanner.current s
        (whole.zip (frameOffsets s.lastValidOffset whole)) t ∧
      t.Scan = (false, fin) ∧ t.Skip = (false, fin') ∧
      fin.err = err ∧ fin'.err = err ∧
      fin.lastValidOffset = s.lastValidOffset + (encode whole).length ∧
      fin'.lastValidOffset = fin.lastValidOffset := by
  intro whole err
  obtain ⟨torn, htake, hends⟩ := encode_take_cut records cut hcut
  obtain ⟨t, hadv, htorn, herr, hmax, hlvo⟩ := advances_encode whole torn s he (hr.trans htake)
    (fun r hr => hl r (List.mem_of_mem_take hr)) hm
  rcases hends with ⟨hlen, hnil⟩ | ⟨hlen, r, hmem, n, hpos, hlt, hn⟩
  · have hnone : err = none := if_pos hlen
    rw [hnone]
    exact ⟨t, _, _, hadv, scan_nil herr (htorn.trans hnil), skip_nil herr (htorn.trans hnil), herr,
      herr, hlvo, rfl⟩
  · have hsome : err = some .tornWrite := if_neg hlen
    have hlr := hl r hmem
    obtain ⟨fin, hscan, hfin⟩ := scan_torn herr (htorn.trans hn) hpos hlt (hmax ▸ hlr) (by omega)
    obtain ⟨fin', hskip, hfin'⟩ := skip_torn herr (htorn.trans hn) hpos hlt (hmax ▸ hlr) (by omega)
    rw [hsome]
    exact ⟨t, fin, fin', hadv, hscan, hskip, hfin.err, hfin'.err, hfin.valid.trans hlvo,
      hfin'.valid.trans hfin.valid.symm⟩

lemma map_fst_zip_offsets (records : List Bytes) (start : ℕ) :
    (records.zip (frameOffsets start records)).map Prod.fst = records :=
  List.map_fst_zip (length_frameOffsets records start).ge

/-- A stream of records within the limit that was cut anywhere, read through any
buffer: what is returned, how the cut is reported, and how writing goes on. -/
theorem torn_tail_recoverable (opts : List ScannerOption) (seeker : Bool) (grants : List ℕ)
    (records : List Bytes) (hl : ∀ r ∈ records, r.length ≤ recordLimit opts) (cut : ℕ)
    (hcut : cut ≤ (encode records).length) :
    ∃ k out t fin fin', k ≤ records.length ∧ (encode (records.take k)).length ≤ cut ∧
      (∀ j ≤ records.length, (encode (records.take j)).length ≤ cut → j ≤ k) ∧
      Advances BufferedScanner.Scan BufferedScanner.current
        (NewBufferedScanner ⟨(encode records).take cut, grants⟩ seeker opts) out t ∧
      t.Scan = (false, fin) ∧ out.map Prod.fst = records.take k ∧
      ((∃ j ≤ records.length, (encode (records.take j)).length = cut) → fin.err = none) ∧
      ((∀ j ≤ records.length, (encode (records.take j)).length ≠ cut) →
        fin.err = some .tornWrite) ∧
      fin.lastValidOffset = (encode (records.take k)).length ∧
      (∀ more, (∀ r ∈ more, r.length ≤ recordLimit opts) → ∀ src : Bufio.Source UInt8,
        src.unread = ((encode records).take cut).take fin.lastValidOffset ++ encode more →
        ∃ out' end', Scans BufferedScanner.Scan BufferedScanner.current
          (NewBufferedScanner src seeker opts) out' end' ∧
          out'.map Prod.fst = records.take k ++ more ∧ end'.err = none) ∧
      t.Skip = (false, fin') ∧ fin'.err = fin.err ∧
      fin'.lastValidOffset = fin.lastValidOffset := by
  have hlim := recordLimit_lt opts
  obtain ⟨hk, hkcut⟩ := wholeFrames_le records cut
  have hmax := le_wholeFrames records cut
  obtain ⟨t, fin, fin', hadv, hscan, hskip, herr, herr', hlvo, hlvo'⟩ := scans_cut records cut
    { NewScanner ((encode records).take cut) with maxRecordSize := recordLimit opts } rfl rfl hl
    hlim hcut
  generalize wholeFrames records cut = k at *
  obtain ⟨bt, hbadv, rfl⟩ := hadv.lift BufferedScanner.scan_plain
    (fun t => show BufferedScanner.current t = _ from rfl)
    (newBufferedScanner_plain ⟨(encode records).take cut, grants⟩ seeker opts)
  obtain ⟨bfin, hbscan, rfl⟩ := lift_call BufferedScanner.scan_plain hscan
  obtain ⟨bfin', hbskip, rfl⟩ := lift_call BufferedScanner.skip_plain hskip
  have hvalid : bfin.lastValidOffset = (encode (records.take k)).length := by
    rw [show bfin.lastValidOffset = _ from hlvo]
    exact Nat.zero_add _
  refine ⟨k, _, bt, bfin, bfin', hk, hkcut, hmax, hbadv, hbscan, map_fst_zip_offsets _ _, ?_, ?_,
    hvalid, ?_, hbskip, herr'.trans herr.symm, hlvo'⟩
  · rintro ⟨j, hj, hb⟩
    -- a boundary at the cut is the last boundary before it
    have hjk := hmax j hj hb.le
    have hmono := encode_take_mono records hjk
    rw [show bfin.err = _ from herr, if_pos (by omega)]
  · intro hnot
    rw [show bfin.err = _ from herr, if_neg (hnot k hk)]
  · intro more hmore src hsrc
    have hkeep : ((encode records).take cut).take bfin.lastValidOffset =
        encode (records.take k) := by
      rw [hvalid, List.take_take, min_eq_left hkcut]
      exact (List.prefix_iff_eq_take.mp (encode_take_initial records k)).symm
    have hdata : src.unread = encode (records.take k ++ more) := by
      rw [hsrc, hkeep, encode_append]
    have hall : ∀ r ∈ records.take k ++ more, r.length ≤ recordLimit opts := by
      intro r hr
      rcases List.mem_append.mp hr with hr | hr
      · exact hl r (List.mem_of_mem_take hr)
      · exact hmore r hr
    obtain ⟨end₁, hrun, hnone⟩ := scans_encode (records.take k ++ more)
      { NewScanner src.unread with maxRecordSize := recordLimit opts } rfl hdata hall hlim
    obtain ⟨end', hrun', rfl⟩ := buffered_scans src seeker opts hrun
    exact ⟨_, end', hrun', map_fst_zip_offsets _ _, hnone⟩

/-- The second of two frames is cut in its payload. -/
theorem torn_tail_recoverable_payload :
    ∃ out t fin, Advances BufferedScanner.Scan BufferedScanner.current
      (NewBufferedScanner ⟨(encode [[1], [2, 3]]).take 30, [0, 4]⟩ true [.bufferSize 16]) out t ∧
      t.Scan = (false, fin) ∧ out.map Prod.fst = [[1]] ∧ fin.err = some .tornWrite ∧
      fin.lastValidOffset = 17 := by
  obtain ⟨k, out, t, fin, -, hk, hkcut, hmax, hadv, hscan, hout, -, htorn, hlvo, -⟩ :=
    torn_tail_recoverable [.bufferSize 16] true [0, 4] [[1], [2, 3]] (by decide) 30
      (by simp [encode, frame_length, frameOverhead])
  have hlen : ∀ j, (encode (([[1], [2, 3]] : List Bytes).take j)).length =
      if j = 0 then 0 else if j = 1 then 17 else 35 := by
    rintro (_ | _ | j)
    · rfl
    · simp [encode, frame_length, frameOverhead]
    · simp [encode, frame_length, frameOverhead]
  have hk1 : k = 1 := by
    have := hmax 1 (by decide) (by rw [hlen]; decide)
    rw [hlen] at hkcut
    split at hkcut
    · omega
    · split at hkcut
      · assumption
      · omega
  subst hk1
  refine ⟨out, t, fin, hadv, hscan, hout, htorn ?_, by rw [hlvo, hlen]; rfl⟩
  intro j hj
  rw [hlen]
  split
  · omega
  · split <;> omega

end CloudyNeigh.RecordIO
