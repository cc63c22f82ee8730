import Mathlib.Data.List.Basic
import Mathlib.Data.Nat.Basic
import Mathlib.Order.Lattice

/-!
# Buffered readers and writers

`bufio.Reader` over a source that may hand out less than it was asked for,
`io.ReadFull` on it, and `bufio.Writer` over a sink that accepts everything. What
a reader still has to deliver and what a writer has been given do not depend on
the size of the buffer or on the amounts that the source grants.
-/
namespace CloudyNeigh.Bufio

variable {α : Type*}

/-- `grants` are the numbers of elements beyond the first that the next reads may
hand out; a read without a grant hands out all it can. -/
structure Source (α : Type*) where
  unread : List α
  grants : List ℕ := []

/-- One read of at most `n` elements, `n` positive; nothing is read at the end only. -/
def Source.read (s : Source α) (n : ℕ) : List α × Source α :=
  let k := match s.grants with
    | [] => n
    | g :: _ => min n (g + 1)
  (s.unread.take k, ⟨s.unread.drop k, s.grants.tail⟩)

/-- `Seek` from the current position; a position past the end reads as the end. -/
def Source.seek (s : Source α) (n : ℕ) : Source α := { s with unread := s.unread.drop n }

/-- `buf` is what has been read from the source and not been delivered. -/
structure Reader (α : Type*) where
  size : ℕ
  buf : List α := []
  src : Source α

def minReadBufferSize : ℕ := 16

def NewReaderSize (src : Source α) (size : ℕ) : Reader α :=
  { size := max size minReadBufferSize, src := src }

/-- What a reader still has to deliver. -/
def Reader.rest (b : Reader α) : List α := b.buf ++ b.src.unread

def Reader.Buffered (b : Reader α) : ℕ := b.buf.length

def Reader.Reset (b : Reader α) (src : Source α) : Reader α := { b with buf := [], src := src }

/-- A read of at most `n` elements, `n` positive; an empty result is `io.EOF`. -/
def Reader.Read (b : Reader α) (n : ℕ) : List α × Reader α :=
  if b.buf = [] then
    if b.size ≤ n then
      -- a large read into an empty buffer goes past the buffer
      let (p, src) := b.src.read n
      (p, { b with src := src })
    else
      let (p, src) := b.src.read b.size
      (p.take n, { b with buf := p.drop n, src := src })
  else (b.buf.take n, { b with buf := b.buf.drop n })

/-- The loop of `io.ReadAtLeast`, which stops when it has `want` elements or at the end. -/
def Reader.readLoop : ℕ → ℕ → Reader α → List α × Reader α
  | 0, _, b => ([], b)
  | fuel + 1, want, b =>
    if want = 0 then ([], b)
    else
      let (p, b) := b.Read want
      if p = [] then ([], b)
      else
        let (q, b) := Reader.readLoop fuel (want - p.length) b
        (p ++ q, b)

inductive ReadErr
  | eof
  | unexpectedEOF
  deriving DecidableEq, Repr

/-- `io.ReadFull`. Every read but the last delivers something, so `n` rounds suffice. -/
def Reader.ReadFull (b : Reader α) (n : ℕ) : List α × Option ReadErr × Reader α :=
  let (p, b) := b.readLoop n n
  (p, if p.length = n then none else if p.length = 0 then some .eof else some .unexpectedEOF, b)

/-- `Discard` of at most what is buffered, which cannot fail. -/
def Reader.Discard (b : Reader α) (n : ℕ) : Reader α := { b with buf := b.buf.drop n }

/-- `io.CopyN(io.Discard, b, n)`: true if all of the `n` elements were there. -/
def Reader.copyDiscard (b : Reader α) (n : ℕ) : Bool × Reader α :=
  let (p, b) := b.readLoop n n
  (p.length = n, b)

section Reader

lemma Source.read_spec (s : Source α) {n : ℕ} (hn : 0 < n) :
    s.unread = (s.read n).1 ++ (s.read n).2.unread ∧ (s.read n).1.length ≤ n ∧
      ((s.read n).1 = [] → s.unread = []) := by
  unfold Source.read
  cases s.grants with
  | nil =>
    refine ⟨(List.take_append_drop _ _).symm, List.length_take_le _ _, ?_⟩
    intro h
    exact (List.take_eq_nil_iff.mp h).resolve_left hn.ne'
  | cons g gs =>
    refine ⟨(List.take_append_drop _ _).symm, ?_, ?_⟩
    · exact (List.length_take_le _ _).trans (min_le_left _ _)
    · intro h
      have hk : min n (g + 1) ≠ 0 := by omega
      exact (List.take_eq_nil_iff.mp h).resolve_left hk

/-- A read delivers a first part of the rest, and nothing at the end only. -/
lemma Reader.Read_spec (b : Reader α) {n : ℕ} (hn : 0 < n) :
    b.rest = (b.Read n).1 ++ (b.Read n).2.rest ∧ (b.Read n).1.length ≤ n ∧
      ((b.Read n).1 = [] → b.rest = []) := by
  unfold Reader.Read Reader.rest
  split
  · rename_i hbuf
    split
    · obtain ⟨he, hl, hnil⟩ := b.src.read_spec hn
      simp only [hbuf, List.nil_append]
      exact ⟨he, hl, hnil⟩
    · rename_i hsize
      have hpos : 0 < b.size := by omega
      obtain ⟨he, -, hnil⟩ := b.src.read_spec hpos
      simp only [hbuf, List.nil_append]
      refine ⟨?_, List.length_take_le _ _, ?_⟩
      · rw [← List.append_assoc, List.take_append_drop]
        exact he
      · intro h
        exact hnil ((List.take_eq_nil_iff.mp h).resolve_left hn.ne')
  · rename_i hbuf
    refine ⟨?_, List.length_take_le _ _, ?_⟩
    · simp only [← List.append_assoc, List.take_append_drop]
    · intro h
      exact absurd ((List.take_eq_nil_iff.mp h).resolve_left hn.ne') hbuf

/-- Whatever the buffer and the grants, the loop delivers the first `want` elements. -/
theorem Reader.readLoop_spec (fuel want : ℕ) (b : Reader α) (hf : want ≤ fuel) :
    (b.readLoop fuel want).1 = b.rest.take want ∧
      (b.readLoop fuel want).2.rest = b.rest.drop want := by
  induction fuel generalizing want b with
  | zero =>
    have hw : want = 0 := by omega
    subst hw
    simp [Reader.readLoop]
  | succ fuel ih =>
    by_cases hw : want = 0
    · subst hw
      simp [Reader.readLoop]
    · obtain ⟨he, hl, hnil⟩ := b.Read_spec (Nat.pos_of_ne_zero hw)
      simp only [Reader.readLoop, if_neg hw]
      by_cases hp : (b.Read want).1 = []
      · have hrest := hnil hp
        rw [hp, List.nil_append, hrest] at he
        simp only [if_pos hp, hrest, List.take_nil, List.drop_nil, true_and]
        exact he.symm
      · have hpos : 0 < (b.Read want).1.length := List.length_pos_iff.mpr hp
        obtain ⟨h1, h2⟩ := ih (want - (b.Read want).1.length) (b.Read want).2 (by omega)
        simp only [if_neg hp, h1, h2]
        rw [he, List.take_append, List.drop_append, List.take_of_length_le hl,
          List.drop_of_length_le hl, List.nil_append]
        exact ⟨rfl, rfl⟩

theorem Reader.ReadFull_rest (b : Reader α) (n : ℕ) :
    (b.ReadFull n).1 = b.rest.take n ∧ (b.ReadFull n).2.2.rest = b.rest.drop n :=
  b.readLoop_spec n n le_rfl

lemma Reader.ReadFull_err (b : Reader α) (n : ℕ) :
    (b.ReadFull n).2.1 =
      if n ≤ b.rest.length then none
      else if b.rest = [] then some .eof else some .unexpectedEOF := by
  have hp : (b.readLoop n n).1 = b.rest.take n := (b.readLoop_spec n n le_rfl).1
  simp only [Reader.ReadFull, hp, List.length_take]
  by_cases hn : n ≤ b.rest.length
  · simp [hn]
  · have hmin : min n b.rest.length = b.rest.length := by omega
    rw [hmin, if_neg (by omega), if_neg hn]
    simp only [List.length_eq_zero_iff]

lemma Reader.Discard_rest (b : Reader α) {n : ℕ} (hn : n ≤ b.Buffered) :
    (b.Discard n).rest = b.rest.drop n := by
  simp only [Reader.Discard, Reader.rest, List.drop_append_of_le_length hn]

lemma Reader.copyDiscard_spec (b : Reader α) (n : ℕ) :
    (b.copyDiscard n).1 = decide (n ≤ b.rest.length) ∧
      (b.copyDiscard n).2.rest = b.rest.drop n := by
  obtain ⟨h1, h2⟩ := b.readLoop_spec n n le_rfl
  refine ⟨?_, h2⟩
  simp only [Reader.copyDiscard, h1, List.length_take, decide_eq_decide]
  omega

end Reader

/-- `out` is what the sink has received. -/
structure Writer (α : Type*) where
  size : ℕ
  buf : List α := []
  out : List α := []

def NewWriterSize (size : ℕ) : Writer α := { size := size }

def Writer.Available (w : Writer α) : ℕ := w.size - w.buf.length

def Writer.Flush (w : Writer α) : Writer α := { w with buf := [], out := w.out ++ w.buf }

/-- The loop of `Write` runs at most twice: its first round leaves an empty
buffer, and with an empty buffer a large write goes to the sink at once. -/
def Writer.Write (w : Writer α) (p : List α) : Writer α :=
  if p.length ≤ w.Available then { w with buf := w.buf ++ p }
  else if w.buf = [] then { w with out := w.out ++ p }
  else
    let n := w.Available
    let w := Writer.Flush { w with buf := w.buf ++ p.take n }
    let p := p.drop n
    if p.length ≤ w.Available then { w with buf := p } else { w with out := w.out ++ p }

/-- Everything that a writer has been given. -/
def Writer.given (w : Writer α) : List α := w.out ++ w.buf

theorem Writer.Write_given (w : Writer α) (p : List α) : (w.Write p).given = w.given ++ p := by
  unfold Writer.Write Writer.given
  split
  · simp
  · split
    · rename_i hbuf
      simp [hbuf]
    · dsimp only [Writer.Flush]
      split <;> simp [List.append_assoc]

lemma Writer.Flush_given (w : Writer α) : w.Flush.given = w.given ∧ w.Flush.out = w.given := by
  simp [Writer.Flush, Writer.given]

end CloudyNeigh.Bufio
