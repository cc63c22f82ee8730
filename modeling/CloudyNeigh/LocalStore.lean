import CloudyNeigh.LocalGeneration
import CloudyNeigh.Transition
import Mathlib.Logic.Function.Basic

/-!
# One key of the local store

Any number of processes, each with its own `lastLocalModTime`, run `Put`, `Get`
and `Delete` calls on one key of one directory. One step of a call is one
operation of the file system or one atomic update of `lastLocalModTime`; clock
readings are arbitrary positive numbers. Calls on other keys matter only in that
they raise the counter of their process. Any operation may fail, which also
stands for a process that dies: the lock is released.
-/
namespace CloudyNeigh.LocalStore
open RecordIO Transition

structure Condition where
  Absent : Bool := false
  GenerationMatch : Bytes := []
  deriving DecidableEq, Repr

/-- A file as `os.Link` or `os.Rename` publishes it; it does not change afterwards. -/
structure File where
  data : Bytes
  modTime : ℤ
  deriving DecidableEq, Repr

def File.generation (f : File) : Bytes := localGeneration f.modTime f.data.length

/-- What took effect on the key, by which call. -/
inductive Change
  | publish (f : File) (writer : ℕ)
  | remove (writer : ℕ)
  deriving DecidableEq, Repr

inductive Pc
  -- `Put` with `Absent`
  | absentTime
  | link (t : ℤ)
  | linkStat
  -- any other `Put`
  | putLock
  | putStat
  | putAdvance (prev : File)
  | putTime (prev : Option File)
  | putRename (prev : Option File) (t : ℤ)
  | putRenameStat
  | getOpen
  | getStat (f : File)
  | deleteLock
  | deleteStat
  | deleteRemove (f : File)
  | deleteAdvance (f : File)
  | putReturned (generation : Bytes)
  | getReturned (generation data : Bytes)
  | deleteReturned
  | failed
  deriving DecidableEq, Repr

def Pc.ended : Pc → Bool
  | .putReturned _ | .getReturned _ _ | .deleteReturned | .failed => true
  | _ => false

/-- The call holds the lock of the directory. -/
def Pc.locked : Pc → Bool
  | .putStat | .putAdvance _ | .putTime _ | .putRename _ _ | .putRenameStat => true
  | .deleteStat | .deleteRemove _ | .deleteAdvance _ => true
  | _ => false

/-- `seen` is a ghost: how many changes the key had had when the file that the call
published or opened was the newest. -/
structure Call where
  process : ℕ := 0
  data : Bytes := []
  cond : Condition := {}
  pc : Pc
  seen : ℕ := 0
  deriving DecidableEq, Repr

/-- `changes` is the history of the key, and `linked` are the calls that have
linked their file and not yet looked at it. -/
structure State where
  changes : List Change
  last : ℕ → ℤ
  lock : Option ℕ
  linked : List ℕ
  calls : ℕ → Option Call

inductive Outcome
  | ok
  | now (t : ℤ)
  | failed
  deriving DecidableEq, Repr

inductive Action
  | Put (id process : ℕ) (data : Bytes) (cond : Condition)
  | Get (id : ℕ)
  | Delete (id process : ℕ)
  | step (id : ℕ) (o : Outcome)
  | otherKey (process : ℕ) (t : ℤ)
  deriving DecidableEq, Repr

def Change.file : Change → Option File
  | .publish f _ => some f
  | .remove _ => none

/-- The file at the path of the key. -/
def State.file (s : State) : Option File := s.changes.getLast?.bind Change.file

/-- Every file that the key has had. -/
def State.files (s : State) : List File := s.changes.filterMap Change.file

def advanceLocalModTime (last ns : ℤ) : ℤ := if ns ≤ last then last else ns

/-- `last + 1` wraps as an `int64` does. -/
def nextLocalModTime (last now : ℤ) : ℤ :=
  if now ≤ last then if last = maxInt64 then minInt64 else last + 1 else now

def State.goto (s : State) (id : ℕ) (c : Call) : State :=
  { s with calls := Function.update s.calls id (some c) }

/-- The end of a call, with its deferred `unlock`. -/
def State.finish (s : State) (id : ℕ) (c : Call) : State where
  changes := s.changes
  last := s.last
  lock := if s.lock = some id then none else s.lock
  linked := s.linked.filter (· ≠ id)
  calls := Function.update s.calls id (some c)

def State.setLast (s : State) (process : ℕ) (t : ℤ) : State :=
  { s with last := Function.update s.last process t }

def State.change (s : State) (ch : Change) : State := { s with changes := s.changes ++ [ch] }

/-- The check of `GenerationMatch` against what `os.Stat` found. -/
def State.afterStat (s : State) (id : ℕ) (c : Call) (prev : Option File) : State :=
  if c.cond.GenerationMatch ≠ [] ∧ prev.map File.generation ≠ some c.cond.GenerationMatch then
    s.finish id { c with pc := .failed }
  else s.goto id { c with pc := .putTime prev }

def stepCall (s : State) (id : ℕ) (c : Call) (o : Outcome) : Option State :=
  match c.pc, o with
  | .absentTime, .now now =>
    if 0 < now ∧ now ≤ maxInt64 then
      let t := nextLocalModTime (s.last c.process) now
      some ((s.setLast c.process t).goto id { c with pc := .link t })
    else none
  | .link t, .ok =>
    match s.file with
    | some _ => some (s.finish id { c with pc := .failed })
    | none =>
      some (({ s with linked := id :: s.linked }.change (.publish ⟨c.data, t⟩ id)).goto id
        { c with pc := .linkStat, seen := s.changes.length + 1 })
  | .linkStat, .ok =>
    match s.file with
    | some f => some (s.finish id { c with pc := .putReturned f.generation })
    | none => some (s.finish id { c with pc := .failed })
  | .putLock, .ok =>
    if s.lock = none then some ({ s with lock := some id }.goto id { c with pc := .putStat })
    else none
  | .putStat, .ok =>
    match s.file with
    | some f => some (s.goto id { c with pc := .putAdvance f })
    | none => some (s.afterStat id c none)
  | .putAdvance prev, .ok =>
    let t := advanceLocalModTime (s.last c.process) prev.modTime
    some ((s.setLast c.process t).afterStat id c (some prev))
  | .putTime prev, .now now =>
    if 0 < now ∧ now ≤ maxInt64 then
      let t := nextLocalModTime (s.last c.process) now
      some ((s.setLast c.process t).goto id { c with pc := .putRename prev t })
    else none
  | .putRename _ t, .ok =>
    some ((s.change (.publish ⟨c.data, t⟩ id)).goto id
      { c with pc := .putRenameStat, seen := s.changes.length + 1 })
  | .putRenameStat, .ok =>
    match s.file with
    | some f => some (s.finish id { c with pc := .putReturned f.generation })
    | none => some (s.finish id { c with pc := .failed })
  | .getOpen, .ok =>
    match s.file with
    | some f => some (s.goto id { c with pc := .getStat f, seen := s.changes.length })
    | none => some (s.finish id { c with pc := .failed })
  | .getStat f, .ok => some (s.finish id { c with pc := .getReturned f.generation f.data })
  | .deleteLock, .ok =>
    if s.lock = none then some ({ s with lock := some id }.goto id { c with pc := .deleteStat })
    else none
  | .deleteStat, .ok =>
    match s.file with
    | some f => some (s.goto id { c with pc := .deleteRemove f })
    | none => some (s.finish id { c with pc := .failed })
  | .deleteRemove f, .ok =>
    match s.file with
    | some _ => some ((s.change (.remove id)).goto id { c with pc := .deleteAdvance f })
    | none => some (s.finish id { c with pc := .failed })
  | .deleteAdvance f, .ok =>
    let t := advanceLocalModTime (s.last c.process) f.modTime
    some ((s.setLast c.process t).finish id { c with pc := .deleteReturned })
  | pc, .failed => if pc.ended then none else some (s.finish id { c with pc := .failed })
  | _, _ => none

def putStart (cond : Condition) : Pc :=
  if cond.GenerationMatch ≠ [] ∧ validLocalGeneration cond.GenerationMatch = false then .failed
  else if cond.Absent then .absentTime else .putLock

def State.begin (s : State) (id : ℕ) (c : Call) : Option State :=
  match s.calls id with
  | some _ => none
  | none => some (s.goto id c)

-- A call identifier is used once, so that it names the call in every later state.
def step (s : State) : Action → Option State
  | .Put id process data cond => s.begin id ⟨process, data, cond, putStart cond, 0⟩
  | .Get id => s.begin id { pc := .getOpen }
  | .Delete id process => s.begin id { process := process, pc := .deleteLock }
  | .step id o =>
    match s.calls id with
    | none => none
    | some c => stepCall s id c o
  | .otherKey process t =>
    if t ≤ maxInt64 then
      some (s.setLast process (advanceLocalModTime (s.last process) t))
    else none

def machine : Machine State Action where
  init := ⟨[], fun _ => 0, none, [], fun _ => none⟩
  step := step

/-- The time is later than every modification time that the key has had. -/
def State.After (s : State) (t : ℤ) : Prop := ∀ f ∈ s.files, f.modTime < t

instance (s : State) (t : ℤ) : Decidable (s.After t) := inferInstanceAs (Decidable (∀ f ∈ _, _))

def Call.Careful (s : State) (c : Call) (o : Outcome) : Prop :=
  match c.pc, o with
  | .absentTime, .now _ | .putTime _, .now _ => s.last c.process < maxInt64
  | .link t, .ok => s.file = none → s.After t ∧ s.linked = []
  | .putRename none t, .ok => s.After t ∧ s.linked = []
  | .putRename (some _) _, .ok => s.linked = []
  | .deleteRemove _, .ok => s.linked = []
  | _, _ => True

instance (s : State) (c : Call) (o : Outcome) : Decidable (c.Careful s o) := by
  unfold Call.Careful
  split <;> infer_instance

/-- No counter is at its last value when a time is taken. A file published by a
call that saw no file under the lock is later than all earlier ones. Nothing takes
effect between the `Link` of a call and its `Stat`. -/
def Careful (s : State) : Action → Prop
  | .step id o => ∀ c ∈ s.calls id, c.Careful s o
  | _ => True

instance (s : State) : ∀ a, Decidable (Careful s a)
  | .step id o =>
    match h : s.calls id with
    | none => isTrue fun c hc => by rw [h] at hc; cases hc
    | some c => decidable_of_iff (c.Careful s o) (by simp [Careful, h])
  | .Put .. | .Get .. | .Delete .. | .otherKey .. => isTrue trivial

end CloudyNeigh.LocalStore
