import CloudyNeigh.RecordIOExact

/-!
# Skip moves like Scan

Any sequence of `Scan` and `Skip` calls over any bytes, through any buffer and any
source. While the calls succeed the unread bytes are those from `LastValidOffset`
on, so what a call does depends on the bytes there alone.
-/
namespace CloudyNeigh.RecordIO
open WhileLoop

inductive ScannerCall
  | scan
  | skip
  deriving DecidableEq, Repr

def Scanner.call (s : Scanner) : ScannerCall → Bool × Scanner
  | .scan => s.Scan
  | .skip => s.Skip

def BufferedScanner.call (s : BufferedScanner) : ScannerCall → Bool × BufferedScanner
  | .scan => s.Scan
  | .skip => s.Skip

/-- The scanner after calls that all returned true. -/
def BufferedScanner.proceed (s : BufferedScanner) : List ScannerCall → Option BufferedScanner
  | [] => some s
  | c :: cs =>
    match s.call c with
    | (true, s') => s'.proceed cs
    | (false, _) => none

/-- What a caller sees after a call. -/
structure Seen where
  ok : Bool
  record : Bytes
  offset : ℕ
  lastValidOffset : ℕ
  err : Option ScanErr
  deriving DecidableEq, Repr

/-- What a caller sees after each of its calls, failed ones included. -/
def BufferedScanner.seen (s : BufferedScanner) : List ScannerCall → List Seen
  | [] => []
  | c :: cs =>
    let (ok, s') := s.call c
    ⟨ok, s'.record, s'.offset, s'.lastValidOffset, s'.err⟩ :: s'.seen cs

/-- A frame with the header of its length at the front of the bytes; the last four
bytes of it need not be the checksum of the payload. -/
structure FrameAt (limit : ℕ) (data payload foot rest : Bytes) : Prop where
  bytes : data = header payload.length ++ (payload ++ (foot ++ rest))
  foot : foot.length = footerSize
  limit : payload.length ≤ limit

section Skip
variable {s s' : Scanner} {payload foot rest : Bytes}

lemma FrameAt.drop {limit : ℕ} {data : Bytes} (h : FrameAt limit data payload foot rest) :
    rest = data.drop (frameOverhead + payload.length) := by
  have hlen : (header payload.length ++ (payload ++ foot)).length =
      frameOverhead + payload.length := by
    simp only [List.length_append, header_length, h.foot, headerSize, footerSize, frameOverhead]
    omega
  have hdata : data = header payload.length ++ (payload ++ foot) ++ rest := by
    rw [h.bytes]
    simp only [List.append_assoc]
  rw [hdata, List.drop_left' hlen]

lemma skip_frameAt (he : s.err = none) (hm : s.maxRecordSize < 2 ^ 63)
    (h : FrameAt s.maxRecordSize s.rest payload foot rest) :
    s.Skip = (true, { s with
      rest := rest
      record := []
      offset := s.lastValidOffset
      lastValidOffset := s.lastValidOffset + frameOverhead + payload.length }) := by
  have hle := h.limit
  have hh := readHeader_header (by omega) h.bytes
  rw [if_neg (not_lt.mpr hle)] at hh
  have hf : readFull footerSize (foot ++ rest) = .ok (foot, rest) := by
    rw [← h.foot, readFull_append]
  simp only [Scanner.Skip, he, Option.isSome_none, Bool.false_eq_true, if_false, hh,
    readFull_append, hf]

/-- A `Scan` over such a frame differs in the record and in the check of the payload. -/
lemma scan_frameAt (he : s.err = none) (hm : s.maxRecordSize < 2 ^ 63)
    (h : FrameAt s.maxRecordSize s.rest payload foot rest) (hs : s.Scan = (true, s')) :
    s'.offset = s.lastValidOffset ∧
      s'.lastValidOffset = s.lastValidOffset + frameOverhead + payload.length ∧
      s'.rest = rest := by
  have hle := h.limit
  have hh := readHeader_header (by omega) h.bytes
  rw [if_neg (not_lt.mpr hle)] at hh
  have hf : readFull footerSize (foot ++ rest) = .ok (foot, rest) := by
    rw [← h.foot, readFull_append]
  simp only [Scanner.Scan, he, Option.isSome_none, Bool.false_eq_true, if_false, hh,
    readFull_append, hf] at hs
  split at hs
  · cases hs
  · cases hs
    exact ⟨rfl, rfl, rfl⟩

lemma skip_true_exact (h : s.Skip = (true, s')) :
    s.err = none ∧ ∃ payload foot, FrameAt s.maxRecordSize s.rest payload foot s'.rest := by
  unfold Scanner.Skip at h
  split at h
  · cases h
  · rename_i hok
    dsimp only at h
    split at h
    · cases h
    · rename_i n s₁ hh
      obtain ⟨hrest, hmax, -⟩ := readHeader_exact hh
      split at h
      · cases h
      · rename_i payload rest hp
        obtain ⟨he, hn⟩ := readFull_ok hp
        split at h
        · cases h
        · rename_i foot rest' hf
          obtain ⟨he', hn'⟩ := readFull_ok hf
          cases h
          refine ⟨by simpa using hok, payload, foot, ?_, hn', hn ▸ hmax⟩
          rw [hrest, he, he', hn]

/-- `Skip` fails only where `Scan` fails, and for the same reason. -/
lemma skip_false_scan (h : s.Skip = (false, s')) :
    ∃ t, s.Scan = (false, t) ∧ t.err = s'.err := by
  by_cases hok : s.err.isSome = true
  · simp only [Scanner.Skip, if_pos hok] at h
    cases h
    exact ⟨s, if_pos hok, rfl⟩
  · cases hh : s.readHeader with
    | mk length s₁ =>
      simp only [Scanner.Skip, Scanner.Scan, if_neg hok, hh] at h ⊢
      cases length with
      | none =>
        cases h
        exact ⟨_, rfl, rfl⟩
      | some n =>
        cases hp : readFull n s₁.rest with
        | error e =>
          simp only [hp] at h ⊢
          cases h
          exact ⟨_, rfl, rfl⟩
        | ok read =>
          cases hf : readFull footerSize read.2 with
          | error e =>
            simp only [hp, hf] at h ⊢
            cases h
            exact ⟨_, rfl, rfl⟩
          | ok foot =>
            simp only [hp, hf] at h
            cases h

/-- A true `Scan` or `Skip` passes over one frame. -/
lemma call_true {c : ScannerCall} (hm : s.maxRecordSize < 2 ^ 63) (h : s.call c = (true, s')) :
    s'.err = none ∧ s'.maxRecordSize = s.maxRecordSize ∧ s'.offset = s.lastValidOffset ∧
      ∃ n, s'.lastValidOffset = s.lastValidOffset + n ∧ s'.rest = s.rest.drop n := by
  cases c with
  | scan =>
    obtain ⟨hrest, -, he, hs'⟩ := scan_true_exact h
    rw [hs']
    refine ⟨he, rfl, rfl, (frame s'.record).length, rfl, ?_⟩
    rw [hrest, List.drop_left]
  | skip =>
    obtain ⟨he, payload, foot, hframe⟩ := skip_true_exact h
    have hskip := skip_frameAt he hm hframe
    rw [show s.Skip = _ from h] at hskip
    obtain ⟨-, hs'⟩ := Prod.mk.inj hskip
    rw [hs']
    exact ⟨he, rfl, rfl, frameOverhead + payload.length, Nat.add_assoc .., hframe.drop⟩

end Skip

section Calls
variable {s t : BufferedScanner}

lemma BufferedScanner.call_plain (s : BufferedScanner) (c : ScannerCall) :
    Prod.map id plain (s.call c) = s.plain.call c := by
  cases c with
  | scan => exact s.scan_plain
  | skip => exact s.skip_plain

lemma BufferedScanner.call_plain_eq {c : ScannerCall} {b : Bool} (h : s.call c = (b, t)) :
    s.plain.call c = (b, t.plain) := by
  rw [← call_plain, h]
  rfl

lemma BufferedScanner.skip_plain_eq {b : Bool} (h : s.Skip = (b, t)) :
    s.plain.Skip = (b, t.plain) := by
  rw [← skip_plain, h]
  rfl

lemma BufferedScanner.scan_plain_eq {b : Bool} (h : s.Scan = (b, t)) :
    s.plain.Scan = (b, t.plain) := by
  rw [← scan_plain, h]
  rfl

/-- The scanner reads where it says it is. -/
structure InPlace (data : Bytes) (limit : ℕ) (s : Scanner) : Prop where
  rest : s.rest = data.drop s.lastValidOffset
  err : s.err = none
  limit : s.maxRecordSize = limit

lemma InPlace.new (data : Bytes) (grants : List ℕ) (seeker : Bool) (opts : List ScannerOption) :
    InPlace data (recordLimit opts) (NewBufferedScanner ⟨data, grants⟩ seeker opts).plain := by
  rw [newBufferedScanner_plain]
  exact ⟨rfl, rfl, rfl⟩

/-- `Skip` passes over the frame at the offset. -/
lemma InPlace.skip {data payload foot rest : Bytes} {limit : ℕ} {s : Scanner}
    (hlim : limit < 2 ^ 63) (h : InPlace data limit s)
    (hframe : FrameAt limit (data.drop s.lastValidOffset) payload foot rest) :
    s.Skip = (true, { s with
      rest := rest
      record := []
      offset := s.lastValidOffset
      lastValidOffset := s.lastValidOffset + frameOverhead + payload.length }) := by
  rw [← h.rest, ← h.limit] at hframe
  exact skip_frameAt h.err (by rw [h.limit]; exact hlim) hframe

lemma InPlace.call {data : Bytes} {limit : ℕ} {s s' : Scanner} {c : ScannerCall}
    (hlim : limit < 2 ^ 63) (h : InPlace data limit s) (hc : s.call c = (true, s')) :
    InPlace data limit s' := by
  obtain ⟨herr, hmax, -, n, hlvo, hrest⟩ := call_true (by rw [h.limit]; exact hlim) hc
  refine ⟨?_, herr, hmax.trans h.limit⟩
  rw [hrest, h.rest, List.drop_drop, hlvo]

lemma InPlace.proceed {data : Bytes} {limit : ℕ} (hlim : limit < 2 ^ 63) {cs : List ScannerCall}
    (h : InPlace data limit s.plain) (hs : s.proceed cs = some t) : InPlace data limit t.plain := by
  induction cs generalizing s with
  | nil =>
    cases hs
    exact h
  | cons c cs ih =>
    unfold BufferedScanner.proceed at hs
    split at hs
    · rename_i s' hc
      exact ih (h.call hlim (BufferedScanner.call_plain_eq hc)) hs
    · cases hs

/-- Scanners over the same bytes look the same after every call. -/
lemma seen_plain (cs : List ScannerCall) {s t : BufferedScanner} (h : s.plain = t.plain) :
    s.seen cs = t.seen cs := by
  induction cs generalizing s t with
  | nil => rfl
  | cons c cs ih =>
    have hcall : Prod.map id BufferedScanner.plain (s.call c) =
        Prod.map id BufferedScanner.plain (t.call c) := by
      rw [BufferedScanner.call_plain, BufferedScanner.call_plain, h]
    have hok : (s.call c).1 = (t.call c).1 := (Prod.mk.inj hcall).1
    have hnext : (s.call c).2.plain = (t.call c).2.plain := (Prod.mk.inj hcall).2
    have hrecord : (s.call c).2.record = (t.call c).2.record := congrArg Scanner.record hnext
    have hoffset : (s.call c).2.offset = (t.call c).2.offset := congrArg Scanner.offset hnext
    have hvalid : (s.call c).2.lastValidOffset = (t.call c).2.lastValidOffset :=
      congrArg Scanner.lastValidOffset hnext
    have herr : (s.call c).2.err = (t.call c).2.err := congrArg Scanner.err hnext
    simp only [BufferedScanner.seen, hok, hrecord, hoffset, hvalid, herr, ih hnext]

end Calls

/-- After any calls that succeeded, over any bytes, through any buffer and any source:
when `Skip` succeeds, where it leaves the scanner, what it reports otherwise, and that
callers cannot tell a seeking scanner from one that reads. -/
theorem skip_moves_like_scan (data : Bytes) (grants : List ℕ) (seeker : Bool)
    (opts : List ScannerOption) (cs : List ScannerCall) (t : BufferedScanner)
    (ht : (NewBufferedScanner ⟨data, grants⟩ seeker opts).proceed cs = some t) :
    (t.Skip.1 = true ↔ ∃ payload foot rest,
      FrameAt (recordLimit opts) (data.drop t.lastValidOffset) payload foot rest) ∧
    (∀ t', t.Skip = (true, t') → ∀ payload foot rest,
      FrameAt (recordLimit opts) (data.drop t.lastValidOffset) payload foot rest →
      t'.offset = t.lastValidOffset ∧
      t'.lastValidOffset = t.lastValidOffset + frameOverhead + payload.length ∧
      t'.br.rest = rest ∧ t'.br.rest = data.drop t'.lastValidOffset ∧
      -- a scanner at the same offset that has the same payload before it and accepts it
      ∀ v v' : BufferedScanner, v.err = none → v.maxRecordSize = recordLimit opts →
        v.lastValidOffset = t.lastValidOffset →
        (∃ foot', FrameAt (recordLimit opts) v.br.rest payload foot' rest) →
        v.Scan = (true, v') → v'.offset = t'.offset ∧
          v'.lastValidOffset = t'.lastValidOffset ∧ v'.br.rest = t'.br.rest) ∧
    (∀ t', t.Skip = (false, t') → ∃ u, t.Scan = (false, u) ∧ u.err = t'.err) ∧
    ∀ grants' seeker' opts', recordLimit opts' = recordLimit opts → ∀ cs',
      (NewBufferedScanner ⟨data, grants'⟩ seeker' opts').seen cs' =
        (NewBufferedScanner ⟨data, grants⟩ seeker opts).seen cs' := by
  have hlim := recordLimit_lt opts
  have hplace : InPlace data (recordLimit opts) t.plain :=
    (InPlace.new data grants seeker opts).proceed hlim ht
  have hrest : t.plain.rest = data.drop t.lastValidOffset := hplace.rest
  refine ⟨⟨fun htrue => ?_, ?_⟩, ?_, ?_, ?_⟩
  · have hcall : t.Skip = (true, t.Skip.2) := Prod.ext htrue rfl
    obtain ⟨-, payload, foot, hframe⟩ :=
      skip_true_exact (BufferedScanner.skip_plain_eq hcall)
    rw [hrest, hplace.limit] at hframe
    exact ⟨payload, foot, _, hframe⟩
  · rintro ⟨payload, foot, rest, hframe⟩
    obtain ⟨t', hcall, -⟩ := lift_call BufferedScanner.skip_plain (hplace.skip hlim hframe)
    rw [hcall]
  · intro t' hcall payload foot rest hframe
    have hplain := hplace.skip hlim hframe
    rw [BufferedScanner.skip_plain_eq hcall] at hplain
    obtain ⟨-, ht'⟩ := Prod.mk.inj hplain
    have hoffset : t'.offset = t.lastValidOffset := congrArg Scanner.offset ht'
    have hvalid : t'.lastValidOffset = t.lastValidOffset + frameOverhead + payload.length :=
      congrArg Scanner.lastValidOffset ht'
    have hnext : t'.br.rest = rest := congrArg Scanner.rest ht'
    refine ⟨hoffset, hvalid, hnext, ?_, ?_⟩
    · rw [hnext, hframe.drop, List.drop_drop, hvalid, Nat.add_assoc]
    · rintro v v' herr hv hlvo ⟨foot', hframe'⟩ hscan
      rw [← hv] at hframe'
      have hv' : v.plain.maxRecordSize < 2 ^ 63 := by
        rw [show v.plain.maxRecordSize = recordLimit opts from hv]
        exact hlim
      obtain ⟨h1, h2, h3⟩ := scan_frameAt (s := v.plain) herr hv' hframe'
        (BufferedScanner.scan_plain_eq hscan)
      refine ⟨?_, ?_, ?_⟩
      · rw [show v'.offset = _ from h1, hoffset]
        exact hlvo
      · rw [show v'.lastValidOffset = _ from h2, hvalid, ← hlvo]
        rfl
      · rw [show v'.br.rest = _ from h3, hnext]
  · intro t' hcall
    obtain ⟨u, hscan, herr⟩ :=
      skip_false_scan (BufferedScanner.skip_plain_eq hcall)
    obtain ⟨u', hu', rfl⟩ := lift_call BufferedScanner.scan_plain hscan
    exact ⟨u', hu', herr⟩
  · intro grants' seeker' opts' hopts cs'
    apply seen_plain
    rw [newBufferedScanner_plain, newBufferedScanner_plain, hopts]

/-- Two frames, a buffer that ends inside the first one, and a source that seeks. -/
theorem skip_moves_like_scan_seeking : ∃ t t',
    (NewBufferedScanner ⟨encode [List.replicate 30 1, [2, 3]], [19]⟩ true [.bufferSize 16]).proceed
      [.skip] = some t ∧ t.Skip = (true, t') ∧ t'.offset = 46 ∧ t'.lastValidOffset = 64 := by
  have hrun : ((NewBufferedScanner ⟨encode [List.replicate 30 1, [2, 3]], [19]⟩ true
      [.bufferSize 16]).proceed [.skip]).map (fun t => t.lastValidOffset) = some 46 := by
    decide +kernel
  obtain ⟨t, ht, hlvo⟩ := Option.map_eq_some_iff.mp hrun
  have hframe : FrameAt (recordLimit [.bufferSize 16])
      ((encode [List.replicate 30 1, [2, 3]]).drop t.lastValidOffset) [2, 3] (footer [2, 3]) [] := by
    refine ⟨?_, footer_length _, by decide⟩
    rw [hlvo, encode_cons, List.drop_left' (by rw [frame_length]; decide)]
    simp [encode, frame]
  obtain ⟨hiff, hmove, -⟩ := skip_moves_like_scan _ _ _ _ _ t ht
  have htrue := hiff.mpr ⟨_, _, _, hframe⟩
  obtain ⟨hoffset, hvalid, -⟩ := hmove t.Skip.2 (Prod.ext htrue rfl) _ _ _ hframe
  refine ⟨t, t.Skip.2, ht, Prod.ext htrue rfl, hoffset.trans hlvo, ?_⟩
  rw [hvalid, hlvo]
  decide

end CloudyNeigh.RecordIO
