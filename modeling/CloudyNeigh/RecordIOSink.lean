import CloudyNeigh.BufioSink
import CloudyNeigh.RecordIOTorn
import CloudyNeigh.Transition

/-!
# The writer over a device that can fail

`recordio.Writer` with its sticky error, for every order of `WriteRecord`, `Flush`,
`Sync`, `Close` and `Reset` and every device. What reached the device is an initial part
of the frames of the records that were accepted and of the one that failed, so a scan of
it finds whole records and at worst a torn tail.
-/
namespace CloudyNeigh.RecordIO
open Bufio Transition WhileLoop

variable {ε : Type}

inductive StreamErr (ε : Type)
  | write (e : WriteErr ε)
  | closed
  deriving DecidableEq, Repr

structure StreamWriter (ε : Type) where
  bw : SinkWriter UInt8 ε
  offset : ℕ := 0
  syncOnFlush : Bool := false
  closed : Bool := false
  err : Option (WriteErr ε) := none

def NewStreamWriter (dev : Device UInt8 ε) (sizes : List Int64) (syncOnFlush : Bool) :
    StreamWriter ε where
  bw := { size := writerSize sizes, sink := { dev := dev } }
  syncOnFlush := syncOnFlush

namespace StreamWriter

def Reset (w : StreamWriter ε) (dev : Device UInt8 ε) : StreamWriter ε :=
  { w with bw := w.bw.Reset { dev := dev }, offset := 0, closed := false, err := none }

/-- The three writes of a frame, up to the first that fails. -/
def writeFrame (bw : SinkWriter UInt8 ε) (record : Bytes) : SinkWriter UInt8 ε :=
  let bw := bw.Write (header record.length)
  if bw.err.isSome then bw
  else
    let bw := if 0 < record.length then bw.Write record else bw
    if bw.err.isSome then bw else bw.Write (footer record)

/-- The bytes written, the offset of the frame and the error. -/
def WriteRecord (w : StreamWriter ε) (record : Bytes) :
    (ℕ × ℕ × Option (StreamErr ε)) × StreamWriter ε :=
  match w.err with
  | some e => ((0, w.offset, some (.write e)), w)
  | none =>
    if w.closed then ((0, w.offset, some .closed), w)
    else
      let bw := writeFrame w.bw record
      match bw.err with
      | some e => ((0, w.offset, some (.write e)), { w with bw := bw, err := some e })
      | none =>
        let totalWritten := frameOverhead + record.length
        ((totalWritten, w.offset, none), { w with bw := bw, offset := w.offset + totalWritten })

def Sync (w : StreamWriter ε) : Option (WriteErr ε) × StreamWriter ε :=
  match w.err with
  | some e => (some e, w)
  | none =>
    let bw := w.bw.Flush
    match bw.err with
    | some e => (some e, { w with bw := bw, err := some e })
    | none => (none, { w with bw := bw })

def Flush (w : StreamWriter ε) : Option (WriteErr ε) × StreamWriter ε :=
  if w.syncOnFlush then w.Sync
  else
    match w.err with
    | some e => (some e, w)
    | none =>
      let bw := w.bw.Flush
      match bw.err with
      | some e => (some e, { w with bw := bw, err := some e })
      | none => (none, { w with bw := bw })

/-- The error of the flush goes before that of the device's own `Close`. -/
def Close (w : StreamWriter ε) : Option (WriteErr ε) × StreamWriter ε :=
  if w.closed then (none, w)
  else
    let (flushErr, w) := w.Flush
    (flushErr.or (w.bw.sink.dev.close.join.map .device), { w with closed := true })

end StreamWriter

inductive StreamOp (ε : Type)
  | write (record : Bytes)
  | flush
  | sync
  | close
  | reset (dev : Device UInt8 ε)

inductive StreamReply (ε : Type)
  | wrote (n offset : ℕ) (err : Option (StreamErr ε))
  | returned (err : Option (WriteErr ε))

def StreamWriter.call (w : StreamWriter ε) : StreamOp ε → StreamReply ε × StreamWriter ε
  | .write record =>
    let r := w.WriteRecord record
    (.wrote r.1.1 r.1.2.1 r.1.2.2, r.2)
  | .flush => (.returned w.Flush.1, w.Flush.2)
  | .sync => (.returned w.Sync.1, w.Sync.2)
  | .close => (.returned w.Close.1, w.Close.2)
  | .reset dev => (.returned none, w.Reset dev)

abbrev StreamReport (ε : Type) := StreamOp ε × StreamReply ε

/-- Any calls in any order, with what each of them returned. -/
def streamMachine (dev : Device UInt8 ε) (sizes : List Int64) (syncOnFlush : Bool) :
    Machine (Recorded (StreamWriter ε) (StreamReport ε)) (StreamOp ε) :=
  recorded (NewStreamWriter dev sizes syncOnFlush) fun w op =>
    (some (op, (w.call op).1), (w.call op).2)

/-- The records since the last `Reset`: those that were accepted, and the first that was not. -/
structure Attempts where
  accepted : List Bytes := []
  refused : Option Bytes := none
  deriving DecidableEq, Repr

def Attempts.add (a : Attempts) : StreamReport ε → Attempts
  | (.write r, .wrote _ _ none) => { a with accepted := a.accepted ++ [r] }
  | (.write r, .wrote _ _ (some _)) => { a with refused := a.refused.or (some r) }
  | (.reset _, _) => {}
  | _ => a

def attempts (l : List (StreamReport ε)) : Attempts := l.foldl Attempts.add {}

def Attempts.records (a : Attempts) : List Bytes := a.accepted ++ a.refused.toList

section Invariant
variable {w : StreamWriter ε} {a : Attempts}

/-- What a writer knows of the records that it was given. -/
structure StreamWriter.Holds (w : StreamWriter ε) (a : Attempts) : Prop where
  err : w.bw.err = w.err
  offset : w.offset = (encode a.accepted).length
  fresh : w.err = none → w.closed = false → a.refused = none
  all : w.err = none → w.bw.given = encode a.accepted
  initial : w.bw.given <+: encode a.records
  empty : w.closed = true → w.err = none → w.bw.buf = []

/-- A write took an initial part of its data, and all of it unless there is an error. -/
def Took (bw : SinkWriter UInt8 ε) (data : Bytes) (bw' : SinkWriter UInt8 ε) : Prop :=
  bw'.given <+: bw.given ++ data ∧ (bw'.err = none → bw'.given = bw.given ++ data)

lemma Took.write (bw : SinkWriter UInt8 ε) (data : Bytes) : Took bw data (bw.Write data) :=
  ⟨bw.write_initial data, SinkWriter.write_given⟩

lemma Took.nil (bw : SinkWriter UInt8 ε) : Took bw [] bw := by
  simp [Took]

/-- What follows a write is done only if there was no error. -/
lemma Took.and_then {bw bw' : SinkWriter UInt8 ε} {data data' : Bytes} (h : Took bw data bw')
    {next : SinkWriter UInt8 ε} (hnext : Took bw' data' next) :
    Took bw (data ++ data') (if bw'.err.isSome then bw' else next) := by
  rw [Took, ← List.append_assoc]
  cases he : bw'.err with
  | some e => exact ⟨h.1.trans (List.prefix_append _ _), fun hn => by simp [he] at hn⟩
  | none =>
    rw [← h.2 he]
    exact hnext

lemma StreamWriter.writeFrame_took (bw : SinkWriter UInt8 ε) (record : Bytes) :
    Took bw (frame record) (writeFrame bw record) := by
  have hbody (bw : SinkWriter UInt8 ε) :
      Took bw record (if 0 < record.length then bw.Write record else bw) := by
    split
    · exact Took.write bw record
    · rename_i h
      rw [List.length_eq_zero_iff.mp (Nat.eq_zero_of_not_pos h)]
      exact Took.nil bw
  rw [frame, List.append_assoc]
  exact (Took.write bw _).and_then ((hbody _).and_then (Took.write _ _))

lemma holds_init (dev : Device UInt8 ε) (sizes : List Int64) (syncOnFlush : Bool) :
    (NewStreamWriter dev sizes syncOnFlush).Holds {} where
  err := rfl
  offset := rfl
  fresh := fun _ _ => rfl
  all := fun _ => rfl
  initial := List.nil_prefix
  empty := fun h => nomatch h

lemma StreamWriter.Holds.reset (w : StreamWriter ε) (dev : Device UInt8 ε) :
    (w.Reset dev).Holds {} where
  err := rfl
  offset := rfl
  fresh := fun _ _ => rfl
  all := fun _ => rfl
  initial := List.nil_prefix
  empty := fun h => nomatch h

lemma StreamWriter.Holds.refuse (h : w.Holds a) (r : Bytes)
    (hw : w.err.isSome ∨ w.closed = true) :
    w.Holds { a with refused := a.refused.or (some r) } where
  err := h.err
  offset := h.offset
  fresh := by
    intro he hc
    rcases hw with hs | hs
    · rw [he] at hs
      cases hs
    · rw [hc] at hs
      cases hs
  all := h.all
  initial := by
    cases hr : a.refused with
    | some r' =>
      have hi := h.initial
      rwa [Attempts.records, hr] at hi
    | none =>
      have hi := h.initial
      rw [Attempts.records, hr, Option.toList_none, List.append_nil] at hi
      refine hi.trans ?_
      rw [Attempts.records, encode_append]
      exact List.prefix_append _ _
  empty := h.empty

lemma StreamWriter.Holds.write (h : w.Holds a) (r : Bytes) :
    (w.WriteRecord r).2.Holds (a.add (.write r, (w.call (.write r)).1)) := by
  unfold StreamWriter.call StreamWriter.WriteRecord
  cases he : w.err with
  | some e => exact h.refuse r (Or.inl (by rw [he]; rfl))
  | none =>
    dsimp only
    cases hc : w.closed with
    | true => exact h.refuse r (Or.inr hc)
    | false =>
      have hnone := h.fresh he hc
      obtain ⟨hinit, hall⟩ := StreamWriter.writeFrame_took w.bw r
      rw [h.all he] at hinit hall
      have hframe : encode a.accepted ++ frame r = encode (a.accepted ++ [r]) := by
        rw [encode_append, encode_cons, encode_nil, List.append_nil]
      rw [hframe] at hinit hall
      rw [if_neg Bool.false_ne_true]
      cases hf : (StreamWriter.writeFrame w.bw r).err with
      | some e =>
        refine ⟨hf, h.offset, fun hn => (nomatch hn), fun hn => (nomatch hn), ?_,
          fun hn => (nomatch hn)⟩
        simpa only [Attempts.add, Attempts.records, hnone, Option.none_or, Option.toList_some]
          using hinit
      | none =>
        refine ⟨hf, ?_, fun _ _ => hnone, fun _ => hall hf, ?_, fun hn => (nomatch hn)⟩
        · simp only [Attempts.add, h.offset, encode_append, List.length_append, encode_cons,
            encode_nil, List.append_nil, frame_length]
        · simpa only [Attempts.add, Attempts.records, hnone, Option.toList_none, List.append_nil]
            using hinit

/-- `Flush`, however it is configured, is `Sync`. -/
lemma StreamWriter.flush_eq (w : StreamWriter ε) : w.Flush = w.Sync := by
  unfold StreamWriter.Flush
  split
  · rfl
  · rfl

lemma StreamWriter.Holds.sync (h : w.Holds a) :
    w.Sync.2.Holds a ∧ w.Sync.2.closed = w.closed ∧ w.Sync.1 = w.Sync.2.err ∧
      (w.Sync.1 = none → w.Sync.2.bw.buf = []) := by
  unfold StreamWriter.Sync
  cases he : w.err with
  | some e => exact ⟨h, rfl, he.symm, fun hn => (nomatch hn)⟩
  | none =>
    have hg := SinkWriter.flush_given w.bw
    have hi := h.initial
    rw [← hg] at hi
    dsimp only
    cases hf : w.bw.Flush.err with
    | some e =>
      exact ⟨⟨hf, h.offset, fun hn => (nomatch hn), fun hn => (nomatch hn), hi,
        fun _ hn => (nomatch hn)⟩, rfl, rfl, fun hn => (nomatch hn)⟩
    | none =>
      exact ⟨⟨hf, h.offset, fun _ => h.fresh he, fun _ => hg.trans (h.all he), hi,
        fun _ _ => SinkWriter.flush_buf hf⟩, rfl, rfl, fun _ => SinkWriter.flush_buf hf⟩

lemma StreamWriter.Holds.close (h : w.Holds a) : w.Close.2.Holds a := by
  unfold StreamWriter.Close
  split
  · exact h
  · rw [StreamWriter.flush_eq]
    obtain ⟨hs, -, herr, hbuf⟩ := h.sync
    refine ⟨hs.err, hs.offset, fun _ hn => (nomatch hn), hs.all, hs.initial, fun _ hn => ?_⟩
    exact hbuf (herr.trans hn)

theorem StreamWriter.Holds.call (h : w.Holds a) (op : StreamOp ε) :
    (w.call op).2.Holds (a.add (op, (w.call op).1)) := by
  cases op with
  | write r => exact h.write r
  | flush =>
    change w.Flush.2.Holds a
    rw [StreamWriter.flush_eq]
    exact h.sync.1
  | sync => exact h.sync.1
  | close => exact h.close
  | reset dev => exact StreamWriter.Holds.reset w dev

variable {dev : Device UInt8 ε} {sizes : List Int64} {syncOnFlush : Bool}
  {t : Recorded (StreamWriter ε) (StreamReport ε)}

theorem holds_reachable (h : (streamMachine dev sizes syncOnFlush).Reachable t) :
    t.state.Holds (attempts t.reports) := by
  refine Recorded.invariant (P := fun w l => w.Holds (attempts l)) (holds_init dev sizes syncOnFlush)
    ?_ h
  intro w l op hw _
  have hadd := hw.call op
  rwa [Option.toList_some, attempts, List.foldl_concat]

/-- A successful return of these calls promises that the device has everything. A second
`Close` promises nothing: it returns nil also after one that failed. -/
def StreamWriter.Confirms (w : StreamWriter ε) : StreamOp ε → Prop
  | .flush | .sync => True
  | .close => w.closed = false
  | _ => False

lemma StreamWriter.Holds.confirmed (h : w.Holds a) {op : StreamOp ε} (hop : w.Confirms op)
    (hr : (w.call op).1 = .returned none) : (w.call op).2.bw.sink.got = encode a.accepted := by
  have hsync (hn : w.Sync.1 = none) : w.Sync.2.bw.sink.got = encode a.accepted := by
    obtain ⟨hs, -, herr, hbuf⟩ := h.sync
    have hall := hs.all (herr.symm.trans hn)
    rwa [SinkWriter.given, hbuf hn, List.append_nil] at hall
  cases op with
  | write r => exact hop.elim
  | reset dev => exact hop.elim
  | flush =>
    have hn : w.Flush.1 = none := StreamReply.returned.inj hr
    change w.Flush.2.bw.sink.got = _
    rw [StreamWriter.flush_eq] at hn ⊢
    exact hsync hn
  | sync => exact hsync (StreamReply.returned.inj hr)
  | close =>
    have hn : w.Close.1 = none := StreamReply.returned.inj hr
    change w.Close.2.bw.sink.got = _
    unfold StreamWriter.Close at hn ⊢
    rw [if_neg (by rw [hop]; exact Bool.false_ne_true), StreamWriter.flush_eq] at hn ⊢
    exact hsync (Option.or_eq_none_iff.mp hn).1

/-- After an error no call but `Reset` passes anything on. -/
lemma StreamWriter.call_stuck (he : w.err.isSome) {op : StreamOp ε}
    (hop : ∀ dev, op ≠ .reset dev) : (w.call op).2.bw = w.bw := by
  obtain ⟨e, he⟩ := Option.isSome_iff_exists.mp he
  have hsync : w.Sync.2 = w := by simp only [StreamWriter.Sync, he]
  cases op with
  | write r => simp only [StreamWriter.call, StreamWriter.WriteRecord, he]
  | flush => simp only [StreamWriter.call, StreamWriter.flush_eq, hsync]
  | sync => simp only [StreamWriter.call, hsync]
  | close =>
    simp only [StreamWriter.call, StreamWriter.Close, StreamWriter.flush_eq]
    split
    · rfl
    · simp only [hsync]
  | reset dev => exact absurd rfl (hop dev)

section Scanning
variable {opts : List ScannerOption} {records : List Bytes} {src : Bufio.Source UInt8}

lemma scans_initial (hl : ∀ r ∈ records, r.length ≤ recordLimit opts) (seeker : Bool)
    (hsrc : src.unread <+: encode records) :
    ∃ k out fin, Scans BufferedScanner.Scan BufferedScanner.current
        (NewBufferedScanner src seeker opts) out fin ∧ out.map Prod.fst = records.take k ∧
      (fin.err = none ∨ fin.err = some .tornWrite) := by
  obtain ⟨t, fin, -, hadv, hstop, -, herr, -⟩ := scans_cut records src.unread.length
    { NewScanner src.unread with maxRecordSize := recordLimit opts } rfl
    (List.prefix_iff_eq_take.mp hsrc) hl (recordLimit_lt opts) hsrc.length_le
  obtain ⟨fin', hrun, rfl⟩ := buffered_scans src seeker opts ⟨t, hadv, hstop⟩
  refine ⟨_, _, fin', hrun, map_fst_zip_offsets _ _, ?_⟩
  have herr : fin'.err = _ := herr
  rw [herr]
  split
  · exact Or.inl rfl
  · exact Or.inr rfl

lemma scans_all (hl : ∀ r ∈ records, r.length ≤ recordLimit opts) (seeker : Bool)
    (hsrc : src.unread = encode records) :
    ∃ out fin, Scans BufferedScanner.Scan BufferedScanner.current
        (NewBufferedScanner src seeker opts) out fin ∧ out.map Prod.fst = records ∧
      fin.err = none := by
  obtain ⟨fin, hrun, herr⟩ := scans_encode records
    { NewScanner src.unread with maxRecordSize := recordLimit opts } rfl hsrc hl (recordLimit_lt opts)
  obtain ⟨fin', hrun', rfl⟩ := buffered_scans src seeker opts hrun
  exact ⟨_, fin', hrun', map_fst_zip_offsets _ _, herr⟩

end Scanning

/-- **The writer is safe on every device**: after any calls, a scan of what reached the
device finds the records in order, whole, and at worst a torn tail; what a flush confirmed
is found completely; and after an error nothing more reaches the device. -/
theorem stream_recoverable (h : (streamMachine dev sizes syncOnFlush).Reachable t)
    (opts : List ScannerOption) (seeker : Bool)
    (hl : ∀ r ∈ (attempts t.reports).records, r.length ≤ recordLimit opts) :
    (∀ src : Bufio.Source UInt8, src.unread = t.state.bw.sink.got →
      ∃ k out fin, Scans BufferedScanner.Scan BufferedScanner.current
          (NewBufferedScanner src seeker opts) out fin ∧
        out.map Prod.fst = (attempts t.reports).records.take k ∧
        (fin.err = none ∨ fin.err = some .tornWrite)) ∧
    (∀ op, t.state.Confirms op → (t.state.call op).1 = .returned none →
      ∀ src : Bufio.Source UInt8, src.unread = (t.state.call op).2.bw.sink.got →
        ∃ out fin, Scans BufferedScanner.Scan BufferedScanner.current
            (NewBufferedScanner src seeker opts) out fin ∧
          out.map Prod.fst = (attempts t.reports).accepted ∧ fin.err = none) ∧
    (t.state.err.isSome → ∀ op, (∀ dev, op ≠ .reset dev) → (t.state.call op).2.bw = t.state.bw) := by
  have hw := holds_reachable h
  refine ⟨fun src hsrc => ?_, fun op hop hr src hsrc => ?_, fun he op => StreamWriter.call_stuck he⟩
  · refine scans_initial hl seeker ?_
    rw [hsrc]
    exact (List.prefix_append _ _).trans hw.initial
  · refine scans_all (fun r hr => hl r (List.mem_append_left _ hr)) seeker ?_
    rw [hsrc]
    exact hw.confirmed hop hr

/-- A device that takes one write and three bytes of the next. -/
def fullDevice : Device UInt8 Unit where
  accept i p := if i = 0 then (p.length, none) else (3, some ())
  complete := by
    intro i p h
    split at h
    · rename_i hi
      rw [if_pos hi]
    · cases h
  close := none

/-- Two records, the second of them cut by the device. -/
theorem stream_recoverable_full : ∃ t, (streamMachine fullDevice [] false).Reachable t ∧
    t.state.bw.sink.got.length = 20 ∧ t.state.err.isSome ∧
    ∃ k out fin, Scans BufferedScanner.Scan BufferedScanner.current
        (NewBufferedScanner ⟨t.state.bw.sink.got, []⟩ false []) out fin ∧
      out.map Prod.fst = [[1], [2]].take k ∧ (fin.err = none ∨ fin.err = some .tornWrite) := by
  obtain ⟨t, ht, hlen, herr, hrec⟩ := Machine.exec_exists (streamMachine fullDevice [] false) anyStep
    (streamMachine fullDevice [] false).init [.write [1], .flush, .write [2], .flush]
    (fun t => t.state.bw.sink.got.length = 20 ∧ t.state.err.isSome ∧
      (attempts t.reports).records = [[1], [2]]) (by decide +kernel)
  have hscan := (stream_recoverable ht [] false (by rw [hrec]; decide)).1 ⟨_, []⟩ rfl
  rw [hrec] at hscan
  exact ⟨t, ht, hlen, herr, hscan⟩

end Invariant

end CloudyNeigh.RecordIO
