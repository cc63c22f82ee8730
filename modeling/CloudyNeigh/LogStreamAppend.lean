import CloudyNeigh.LogStreamKey
import CloudyNeigh.Transition
import Mathlib.Logic.Function.Basic

/-!
# `Log.Append` as a machine

Any number of `Log` instances on one prefix, each with its own atomic
`lastKnown`, and any number of `Append` calls on each. One step of a call is one
store call or one atomic operation on `lastKnown`. The store's answers are part
of the action: `List` and `Exists` may miss keys, a `Put` may commit and still
report an error, and any call may stop for good.
-/
namespace CloudyNeigh.LogStream
open RecordIO Transition

def headListLimit : ℕ := 1000
def maxUint64 : ℕ := 2 ^ 64 - 1

/-- Addition of `uint64`. -/
def addU64 (a b : ℕ) : ℕ := (a + b) % 2 ^ 64

/-- The probe that `jump` is about to make. -/
inductive Jump
  | first (lo : ℕ)
  | grow (low high step : ℕ)
  | bisect (low high : ℕ)
  deriving DecidableEq, Repr

inductive JumpNext
  | done (head : ℕ)
  | probe (j : Jump)
  deriving DecidableEq, Repr

def Jump.target : Jump → ℕ
  | .first lo => addU64 lo 1
  | .grow _ high _ => high
  | .bisect low high => low + (high - low) / 2

def jump (lo : ℕ) : JumpNext := if lo = maxUint64 then .done lo else .probe (.first lo)

/-- The head of the exponential loop, with its saturating step. -/
def growNext (low high step : ℕ) : JumpNext :=
  if (maxUint64 - high) / 2 < step then .probe (.grow low maxUint64 step)
  else .probe (.grow low (addU64 high (step * 2)) (step * 2))

def bisectNext (low high : ℕ) : JumpNext :=
  if addU64 low 1 < high then .probe (.bisect low high) else .done low

def Jump.next (j : Jump) (found : Bool) : JumpNext :=
  match j with
  | .first lo => if found then growNext (addU64 lo 1) (addU64 lo 1) 1 else .done lo
  | .grow low high step =>
    if found then if high = maxUint64 then .done high else growNext high high step
    else bisectNext low high
  | .bisect low high =>
    let mid := low + (high - low) / 2
    if found then bisectNext mid high else bisectNext low mid

/-- What `head` does with a listing; only the last key is parsed. -/
def headListed (lo : ℕ) (objs : List Bytes) : Except KeyErr JumpNext :=
  match objs.getLast? with
  | none => .ok (.done lo)
  | some key =>
    match parseSeq key with
    | .error e => .error e
    | .ok last => if objs.length < headListLimit then .ok (.done last) else .ok (jump last)

inductive Pc
  | idle
  | checkKnown
  | tailList
  | tailProbe (j : Jump)
  | tailLoad (t : ℕ)
  | tailSwap (t curr : ℕ)
  | loadSeq
  | put (seq : ℕ)
  | headList (seq : ℕ)
  | headProbe (j : Jump)
  | putLoad (seq : ℕ)
  | putSwap (seq curr : ℕ)
  | returned (seq : ℕ)
  | failed
  deriving DecidableEq, Repr

/-- The call has started and has neither returned nor failed. -/
def Pc.active : Pc → Bool
  | .idle | .returned _ | .failed => false
  | _ => true

structure Call where
  log : ℕ := 0
  batch : List Bytes := []
  pc : Pc := .idle
  deriving DecidableEq, Repr

/-- `writer` is a ghost: the `Append` call whose `Put` committed the object. -/
structure Obj where
  key : Bytes
  data : Bytes
  writer : ℕ
  deriving DecidableEq, Repr

/-- The objects under the prefix in the order of their commits. -/
structure State where
  objects : List Obj
  lastKnown : ℕ → ℕ
  calls : ℕ → Call

inductive Outcome
  | local
  | listed (objs : List Bytes)
  | listFailed
  | probed (found : Bool)
  | probeFailed
  | putOk
  | putExists
  -- committed, then reported as `ErrPreconditionFailed` by a retry of the request
  | putLost
  | putFailed (committed : Bool)
  deriving DecidableEq, Repr

inductive Action
  | call (c log : ℕ) (batch : List Bytes)
  | step (c : ℕ) (o : Outcome)
  | crash (c : ℕ)
  deriving DecidableEq, Repr

def State.present (s : State) (key : Bytes) : Bool := s.objects.any fun o => o.key == key

def State.goto (s : State) (c : ℕ) (pc : Pc) : State :=
  { s with calls := Function.update s.calls c { s.calls c with pc := pc } }

def State.learn (s : State) (log v : ℕ) : State :=
  { s with lastKnown := Function.update s.lastKnown log v }

/-- The segment that `Append` uploads. -/
def payload (records : List Bytes) : Bytes :=
  match NewWriter.writeAll records with
  | some w => w.Close.out
  | none => []

def State.commit (s : State) (pfx : Bytes) (c seq : ℕ) : State :=
  { s with objects := s.objects ++ [⟨segmentKey pfx seq, payload (s.calls c).batch, c⟩] }

def tailNext : JumpNext → Pc
  | .done head => .tailLoad head
  | .probe j => .tailProbe j

def headNext : JumpNext → Pc
  | .done head => .put (addU64 head 1)
  | .probe j => .headProbe j

def stepCall (pfx : Bytes) (s : State) (c : ℕ) (o : Outcome) : Option State :=
  let log := (s.calls c).log
  match (s.calls c).pc, o with
  | .checkKnown, .local =>
    if s.lastKnown log = 0 then some (s.goto c .tailList) else some (s.goto c .loadSeq)
  | .tailList, .listed objs =>
    if objs.all s.present then
      match headListed 0 objs with
      | .ok next => some (s.goto c (tailNext next))
      | .error _ => some (s.goto c .failed)
    else none
  | .tailList, .listFailed => some (s.goto c .failed)
  | .tailProbe j, .probed found =>
    if found = true → s.present (segmentKey pfx j.target) = true then
      some (s.goto c (tailNext (j.next found)))
    else none
  | .tailProbe _, .probeFailed => some (s.goto c .failed)
  | .tailLoad t, .local =>
    let curr := s.lastKnown log
    if t ≤ curr then some (s.goto c .loadSeq) else some (s.goto c (.tailSwap t curr))
  | .tailSwap t curr, .local =>
    if s.lastKnown log = curr then some ((s.learn log t).goto c .loadSeq)
    else some (s.goto c (.tailLoad t))
  | .loadSeq, .local => some (s.goto c (.put (addU64 (s.lastKnown log) 1)))
  | .put seq, .putOk =>
    if s.present (segmentKey pfx seq) then none
    else some ((s.commit pfx c seq).goto c (.putLoad seq))
  | .put seq, .putExists =>
    if s.present (segmentKey pfx seq) then some (s.goto c (.headList seq)) else none
  | .put seq, .putLost =>
    if s.present (segmentKey pfx seq) then none
    else some ((s.commit pfx c seq).goto c (.headList seq))
  | .put _, .putFailed false => some (s.goto c .failed)
  | .put seq, .putFailed true =>
    if s.present (segmentKey pfx seq) then none
    else some ((s.commit pfx c seq).goto c .failed)
  | .headList seq, .listed objs =>
    if objs.all s.present then
      match headListed seq objs with
      | .ok next => some (s.goto c (headNext next))
      | .error _ => some (s.goto c .failed)
    else none
  | .headList _, .listFailed => some (s.goto c .failed)
  | .headProbe j, .probed found =>
    if found = true → s.present (segmentKey pfx j.target) = true then
      some (s.goto c (headNext (j.next found)))
    else none
  | .headProbe _, .probeFailed => some (s.goto c .failed)
  | .putLoad seq, .local =>
    let curr := s.lastKnown log
    if seq ≤ curr then some (s.goto c (.returned seq)) else some (s.goto c (.putSwap seq curr))
  | .putSwap seq curr, .local =>
    if s.lastKnown log = curr then some ((s.learn log seq).goto c (.returned seq))
    else some (s.goto c (.putLoad seq))
  | _, _ => none

/-- The part of `Append` before its first look at `lastKnown`. -/
def appendStart (records : List Bytes) : Pc :=
  if records = [] then .failed
  else match NewWriter.writeAll records with
    | some _ => .checkKnown
    | none => .failed

-- A call identifier is used once, so that it names the call in every later state.
def step (pfx : Bytes) (s : State) : Action → Option State
  | .call c log batch =>
    if (s.calls c).pc = .idle then
      some { s with calls := Function.update s.calls c ⟨log, batch, appendStart batch⟩ }
    else none
  | .step c o => stepCall pfx s c o
  | .crash c => if (s.calls c).pc.active then some (s.goto c .failed) else none

def machine (pfx : Bytes) : Machine State Action where
  init := ⟨[], fun _ => 0, fun _ => {}⟩
  step := step pfx

theorem payload_encode (records : List Bytes) : payload records = encode records := by
  obtain ⟨w, hw, ho, -, -⟩ := writeAll_encode NewWriter records rfl
  simp only [payload, hw, Writer.Close, ho]
  rfl

section Accessors
variable (s : State) (c : ℕ)

@[simp] lemma goto_objects (pc : Pc) : (s.goto c pc).objects = s.objects := rfl
@[simp] lemma goto_lastKnown (pc : Pc) : (s.goto c pc).lastKnown = s.lastKnown := rfl
@[simp] lemma learn_objects (log v : ℕ) : (s.learn log v).objects = s.objects := rfl
@[simp] lemma learn_calls (log v : ℕ) : (s.learn log v).calls = s.calls := rfl
@[simp] lemma commit_calls (pfx : Bytes) (seq : ℕ) : (s.commit pfx c seq).calls = s.calls := rfl
@[simp] lemma commit_lastKnown (pfx : Bytes) (seq : ℕ) :
    (s.commit pfx c seq).lastKnown = s.lastKnown := rfl

lemma goto_calls_self (pc : Pc) : (s.goto c pc).calls c = { s.calls c with pc := pc } := by
  simp [State.goto]

lemma goto_calls_ne {c d : ℕ} (pc : Pc) (h : d ≠ c) : (s.goto c pc).calls d = s.calls d := by
  simp [State.goto, h]

lemma goto_batch (pc : Pc) (d : ℕ) : ((s.goto c pc).calls d).batch = (s.calls d).batch := by
  by_cases h : d = c
  · subst h
    simp [goto_calls_self]
  · rw [goto_calls_ne s pc h]

end Accessors

end CloudyNeigh.LogStream
