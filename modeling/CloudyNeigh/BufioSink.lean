import CloudyNeigh.Bufio

/-!
# Buffered writes to a device that can fail

`bufio.Writer` over any `io.Writer`: a device decides for each call how many bytes it
takes and whether it reports an error. What the device has taken and what is still in
the buffer is together an initial part of what was written.
-/
namespace CloudyNeigh.Bufio

variable {α ε : Type*}

/-- An `io.Writer`, by the number and the data of the call. A call that takes less than
it was given reports an error. `close` is the outcome of `Close` for an `io.Closer`. -/
structure Device (α ε : Type*) where
  accept : ℕ → List α → ℕ × Option ε
  complete : ∀ i p, (accept i p).2 = none → p.length ≤ (accept i p).1
  close : Option (Option ε)

/-- A device and what it has taken. -/
structure Sink (α ε : Type*) where
  dev : Device α ε
  calls : ℕ := 0
  got : List α := []

def Sink.Write (s : Sink α ε) (p : List α) : ℕ × Option ε × Sink α ε :=
  let r := s.dev.accept s.calls p
  let n := min r.1 p.length
  (n, r.2, { s with calls := s.calls + 1, got := s.got ++ p.take n })

inductive WriteErr (ε : Type*)
  | device (e : ε)
  | shortWrite
  deriving DecidableEq, Repr

structure SinkWriter (α ε : Type*) where
  size : ℕ
  buf : List α := []
  err : Option (WriteErr ε) := none
  sink : Sink α ε

namespace SinkWriter

def Available (w : SinkWriter α ε) : ℕ := w.size - w.buf.length

def Reset (w : SinkWriter α ε) (sink : Sink α ε) : SinkWriter α ε :=
  { w with buf := [], err := none, sink := sink }

/-- The error that `Flush` makes of the outcome of its one write. -/
def flushErr (n length : ℕ) : Option ε → Option (WriteErr ε)
  | some e => some (.device e)
  | none => if n < length then some .shortWrite else none

/-- `Flush` returns the error that it leaves. -/
def Flush (w : SinkWriter α ε) : SinkWriter α ε :=
  if w.err.isSome ∨ w.buf.isEmpty then w
  else
    let r := w.sink.Write w.buf
    match flushErr r.1 w.buf.length r.2.1 with
    | some e => { w with buf := w.buf.drop r.1, err := some e, sink := r.2.2 }
    | none => { w with buf := [], sink := r.2.2 }

/-- The loop of `Write`: with an empty buffer a large write goes to the device at once. -/
def writeLoop : ℕ → SinkWriter α ε → List α → SinkWriter α ε × List α
  | 0, w, p => (w, p)
  | fuel + 1, w, p =>
    if p.length ≤ w.Available ∨ w.err.isSome then (w, p)
    else if w.buf.isEmpty then
      let r := w.sink.Write p
      writeLoop fuel { w with err := r.2.1.map .device, sink := r.2.2 } (p.drop r.1)
    else
      let n := w.Available
      writeLoop fuel (Flush { w with buf := w.buf ++ p.take n }) (p.drop n)

/-- `Write` returns the error that it leaves. Its loop makes at most two rounds. -/
def Write (w : SinkWriter α ε) (p : List α) : SinkWriter α ε :=
  let r := writeLoop 2 w p
  if r.1.err.isSome then r.1 else { r.1 with buf := r.1.buf ++ r.2.take r.1.Available }

/-- What the device has taken and what is still in the buffer. -/
def given (w : SinkWriter α ε) : List α := w.sink.got ++ w.buf

variable {w : SinkWriter α ε} {p : List α}

lemma sink_write_got (s : Sink α ε) (p : List α) :
    (s.Write p).2.2.got = s.got ++ p.take (s.Write p).1 := rfl

lemma sink_write_complete (s : Sink α ε) (p : List α) (h : (s.Write p).2.1 = none) :
    (s.Write p).1 = p.length :=
  min_eq_right (s.dev.complete s.calls p h)

lemma flush_failed (h : w.err.isSome) : w.Flush = w := by
  rw [Flush, if_pos (Or.inl h)]

/-- A flush only moves bytes. -/
lemma flush_given (w : SinkWriter α ε) : w.Flush.given = w.given := by
  unfold Flush
  split
  · rfl
  · dsimp only
    split
    · simp only [given, sink_write_got, List.append_assoc, List.take_append_drop]
    · rename_i hf
      have hn : (w.sink.Write w.buf).2.1 = none := by
        cases he : (w.sink.Write w.buf).2.1 with
        | none => rfl
        | some e =>
          rw [he] at hf
          cases hf
      simp only [given, sink_write_got, sink_write_complete _ _ hn, List.take_length,
        List.append_nil]

/-- A flush that succeeds moves all of them. -/
lemma flush_buf (h : w.Flush.err = none) : w.Flush.buf = [] := by
  revert h
  unfold Flush
  split
  · rename_i hc
    intro h
    rcases hc with hs | hb
    · rw [h] at hs
      cases hs
    · exact List.isEmpty_iff.mp hb
  · dsimp only
    split
    · exact fun h => nomatch h
    · exact fun _ => rfl

lemma flush_got (h : w.Flush.err = none) : w.Flush.sink.got = w.given := by
  rw [← flush_given, given, flush_buf h, List.append_nil]

lemma writeLoop_failed (h : w.err.isSome) (fuel : ℕ) : writeLoop fuel w p = (w, p) := by
  cases fuel with
  | zero => rfl
  | succ fuel => rw [writeLoop, if_pos (Or.inr h)]

lemma writeLoop_fits (h : p.length ≤ w.Available) (fuel : ℕ) : writeLoop fuel w p = (w, p) := by
  cases fuel with
  | zero => rfl
  | succ fuel => rw [writeLoop, if_pos (Or.inl h)]

/-- No byte is lost or written twice in the loop. -/
lemma writeLoop_given (fuel : ℕ) (w : SinkWriter α ε) (p : List α) :
    (writeLoop fuel w p).1.given ++ (writeLoop fuel w p).2 = w.given ++ p := by
  induction fuel generalizing w p with
  | zero => rfl
  | succ fuel ih =>
    rw [writeLoop]
    split
    · rfl
    · split
      · rename_i hb
        rw [ih]
        simp only [given, sink_write_got, List.isEmpty_iff.mp hb, List.append_nil,
          List.append_assoc, List.take_append_drop]
      · rw [ih, flush_given]
        simp only [given, List.append_assoc, List.take_append_drop]

/-- With an empty buffer one round is enough. -/
lemma writeLoop_empty (hb : w.buf = []) (fuel : ℕ) :
    (writeLoop (fuel + 1) w p).1.err.isSome ∨
      (writeLoop (fuel + 1) w p).2.length ≤ (writeLoop (fuel + 1) w p).1.Available := by
  rw [writeLoop]
  split
  · rename_i hc
    exact hc.symm
  · rw [if_pos (List.isEmpty_iff.mpr hb)]
    dsimp only
    cases he : (w.sink.Write p).2.1 with
    | some e => exact Or.inl (by rw [writeLoop_failed rfl]; rfl)
    | none =>
      have hnil : p.drop (w.sink.Write p).1 = [] := by
        rw [sink_write_complete _ _ he, List.drop_length]
      rw [hnil, writeLoop_fits (Nat.zero_le _)]
      exact Or.inr (Nat.zero_le _)

/-- The loop ends with an error or with something that fits. -/
lemma writeLoop_done (w : SinkWriter α ε) (p : List α) :
    (writeLoop 2 w p).1.err.isSome ∨ (writeLoop 2 w p).2.length ≤ (writeLoop 2 w p).1.Available := by
  by_cases hb : w.buf = []
  · exact writeLoop_empty hb 1
  · rw [writeLoop]
    split
    · rename_i hc
      exact hc.symm
    · rw [if_neg (by rwa [List.isEmpty_iff])]
      dsimp only
      cases he : (Flush { w with buf := w.buf ++ p.take w.Available }).err with
      | some e =>
        have hs : (Flush { w with buf := w.buf ++ p.take w.Available }).err.isSome := by rw [he]; rfl
        rw [writeLoop_failed hs]
        exact Or.inl hs
      | none => exact writeLoop_empty (flush_buf he) 0

lemma write_failed (h : w.err.isSome) : w.Write p = w := by
  rw [Write, writeLoop_failed h, if_pos h]

lemma write_initial (w : SinkWriter α ε) (p : List α) : (w.Write p).given <+: w.given ++ p := by
  have hg := writeLoop_given 2 w p
  unfold Write
  dsimp only
  split
  · exact ⟨_, hg⟩
  · refine ⟨(writeLoop 2 w p).2.drop (writeLoop 2 w p).1.Available, ?_⟩
    rw [← hg]
    simp only [given, List.append_assoc, List.take_append_drop]

lemma write_given (h : (w.Write p).err = none) : (w.Write p).given = w.given ++ p := by
  have hg := writeLoop_given 2 w p
  have hd := writeLoop_done w p
  revert h
  unfold Write
  dsimp only
  split
  · rename_i hs
    intro h
    rw [h] at hs
    cases hs
  · rename_i hs
    intro _
    rw [List.take_of_length_le (hd.resolve_left hs), ← hg]
    simp only [given, List.append_assoc]

end SinkWriter

end CloudyNeigh.Bufio
