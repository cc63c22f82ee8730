import Mathlib.Data.List.Sort
import CloudyNeigh.IngestRecords
import CloudyNeigh.Transition
import CloudyNeigh.Versioned

/-!
# The ingest side of one namespace

Any number of stream flushers and `Fork` calls share one object store. Every
step of the machine makes one store call. The log grows by whole entries.
-/
namespace CloudyNeigh.Ingest
open RecordIO Storage LogStream Naming SlashPath Transition Versioned

/-- The objects of the namespace. Entry `seq` of the log is `wal[seq - 1]`. -/
structure Store where
  wal : List Bytes := []
  segments : Bytes → Option Bytes := fun _ => none
  manifests : Cells Path BranchManifest := {}
  catalog : Cells Unit (List String) := {}

def Store.read (st : Store) (seq : ℕ) : Except LogErr (List Bytes) :=
  if seq = 0 then .error .zeroSeq else readObject (st.wal[seq - 1]?)

/-- A `Put` with `Absent`; that the object exists already is a success. -/
def Store.putSegment (st : Store) (id data : Bytes) : Store :=
  match st.segments id with
  | some _ => st
  | none => { st with segments := Function.update st.segments id (some data) }

/-- A missing catalog reads as an empty one without a generation. -/
def Store.readBranchCatalog (st : Store) : List String × Option ℕ :=
  match st.catalog.cell () with
  | none => ([], none)
  | some (branches, gen) => (branches, some gen)

def Store.ListBranches (st : Store) : List String :=
  if st.readBranchCatalog.1 = [] then [DefaultBranch]
  else st.readBranchCatalog.1.insertionSort (· ≤ ·)

def Store.putManifest (st : Store) (key : Path) (m : BranchManifest) (gen : Option ℕ) :
    Option Store :=
  if st.manifests.holds key gen then some { st with manifests := st.manifests.put key m } else none

def Store.putCatalog (st : Store) (branches : List String) (gen : Option ℕ) : Option Store :=
  if st.catalog.holds () gen then some { st with catalog := st.catalog.put () branches } else none

/-- A segment on its way into the manifest of its branch. -/
structure Job where
  seq : ℕ
  branch : String
  ref : SegmentRef
  data : Bytes
  deriving DecidableEq, Repr

inductive FlusherPc
  | off
  | initList
  | initRead (todo : List String) (minCheckpoint : Option ℕ)
  | read (seq : ℕ)
  | upload (j : Job)
  | manifestRead (j : Job)
  | manifestWrite (j : Job) (m : BranchManifest) (gen : Option ℕ)
  | addRead (j : Job) (checkpoint : ℕ)
  | addWrite (j : Job) (checkpoint : ℕ) (branches : List String) (gen : Option ℕ)
  deriving DecidableEq, Repr

/-- A `streamFlusher`; `draining` is set inside `shutdownFlush`. -/
structure Flusher where
  pc : FlusherPc := .off
  draining : Bool := false
  checkpoints : Checkpoints := fun _ => none

/-- How a store call ends. A write that fails may have been committed, and a
failure may be the cancellation of the context. -/
inductive Outcome
  | ok
  | failed (committed cancelled : Bool)
  deriving DecidableEq, Repr

/-- Whether a write that ends like this can have taken effect. -/
def Outcome.commits : Outcome → Bool
  | .ok => true
  | .failed committed _ => committed

def emptyManifest : BranchManifest := ⟨0, 1, []⟩

/-- The manifest that `flushBranch` writes. -/
def flushed (m : BranchManifest) (j : Job) : BranchManifest :=
  { m with segments := m.segments ++ [j.ref], checkpointSeq := j.seq }

def lowerCheckpoint (minCheckpoint : Option ℕ) (checkpoint : ℕ) : ℕ :=
  match minCheckpoint with
  | none => checkpoint
  | some c => if checkpoint < c then checkpoint else c

/-- The next branch of `initCheckpoints`, or the first log entry. -/
def initNext (todo : List String) (minCheckpoint : Option ℕ) : FlusherPc :=
  match todo with
  | [] => .read (minCheckpoint.getD 0 + 1)
  | b :: bs => .initRead (b :: bs) minCheckpoint

/-- Where `shutdownFlush` takes over. -/
def FlusherPc.resume : FlusherPc → FlusherPc
  | .off => .off
  | .initList => .initList
  | .initRead _ _ => .initList
  | .read seq => .read seq
  | .upload j => .read j.seq
  | .manifestRead j => .read j.seq
  | .manifestWrite j _ _ => .read j.seq
  | .addRead j _ => .read j.seq
  | .addWrite j _ _ _ => .read j.seq

def Flusher.fail (f : Flusher) (cancelled : Bool) : Flusher :=
  if cancelled && !f.draining then { f with draining := true, pc := f.pc.resume }
  else { f with pc := .off }

/-- `AddBranch` returned nil. -/
def Flusher.finish (f : Flusher) (j : Job) (checkpoint : ℕ) : Flusher :=
  { f with
    checkpoints := Function.update f.checkpoints j.branch (some checkpoint)
    pc := .read (j.seq + 1) }

section Steps
variable (S : Setup)

/-- The write that the flusher is about to make, if its precondition holds. -/
def Flusher.commit (st : Store) : FlusherPc → Option Store
  | .upload j => some (st.putSegment j.ref.segmentId j.data)
  | .manifestWrite j m gen => st.putManifest (S.scope.ManifestKey j.branch) (flushed m j) gen
  | .addWrite j _ branches gen => st.putCatalog (branches ++ [j.branch]) gen
  | _ => none

/-- `log.Read` has returned; `processRecords` up to the first store call. -/
def Flusher.readEntry (f : Flusher) (seq : ℕ) (read : Except LogErr (List Bytes)) : Flusher :=
  match read with
  | .error .endOfStream => if f.draining then { f with pc := .off } else f
  | .error _ => { f with pc := .off }
  | .ok records =>
    match processRecords S f.checkpoints seq records with
    | .error _ => { f with pc := .off }
    | .ok p =>
      if p.mutations = [] then { f with checkpoints := p.checkpoints, pc := .read (seq + 1) }
      else match segmentData S p.mutations with
        | none => { f with checkpoints := p.checkpoints, pc := .off }
        | some data => { f with
            checkpoints := p.checkpoints
            pc := .upload ⟨seq, p.branch, segmentRef S p.mutations data, data⟩ }

/-- A store call of a flusher that succeeds, or fails its precondition. -/
def Flusher.succeed (st : Store) (f : Flusher) : Option (Flusher × Store) :=
  match f.pc with
  | .off => none
  | .initList => some ({ f with pc := initNext st.ListBranches none }, st)
  | .initRead [] _ => none
  | .initRead (b :: todo) min =>
    match st.manifests.cell (S.scope.ManifestKey b) with
    | none => some ({ f with pc := initNext todo min }, st)
    | some (m, _) => some ({ f with
        checkpoints := Function.update f.checkpoints b (some m.checkpointSeq)
        pc := initNext todo (some (lowerCheckpoint min m.checkpointSeq)) }, st)
  | .read seq => some (f.readEntry S seq (st.read seq), st)
  | .upload j => (Flusher.commit S st f.pc).map fun st' => ({ f with pc := .manifestRead j }, st')
  | .manifestRead j =>
    let found := st.manifests.cell (S.scope.ManifestKey j.branch)
    let m := (found.map Prod.fst).getD emptyManifest
    if j.seq ≤ m.checkpointSeq then some ({ f with pc := .addRead j m.checkpointSeq }, st)
    else some ({ f with pc := .manifestWrite j m (found.map Prod.snd) }, st)
  | .manifestWrite j _ _ =>
    match Flusher.commit S st f.pc with
    | some st' => some ({ f with pc := .addRead j j.seq }, st')
    | none => some ({ f with pc := .manifestRead j }, st)
  | .addRead j checkpoint =>
    if j.branch ∈ st.readBranchCatalog.1 then some (f.finish j checkpoint, st)
    else some ({ f with
      pc := .addWrite j checkpoint st.readBranchCatalog.1 st.readBranchCatalog.2 }, st)
  | .addWrite j checkpoint _ _ =>
    match Flusher.commit S st f.pc with
    | some st' => some (f.finish j checkpoint, st')
    | none => some ({ f with pc := .addRead j checkpoint }, st)

def Flusher.step (st : Store) (f : Flusher) : Outcome → Option (Flusher × Store)
  | .ok => f.succeed S st
  | .failed committed cancelled =>
    if f.pc = .off then none
    else if committed then (Flusher.commit S st f.pc).map fun st' => (f.fail cancelled, st')
    else some (f.fail cancelled, st)

inductive ForkPc
  | idle
  | readSource
  | readTarget (m : BranchManifest)
  | writeTarget (m : BranchManifest)
  | addRead
  | addWrite (branches : List String) (gen : Option ℕ)
  | append
  | rollbackDelete
  | removeRead
  | removeWrite (branches : List String) (gen : Option ℕ)
  | done
  | failed
  | crashed
  deriving DecidableEq, Repr

/-- A call of `Fork`. The manifest that it copied and the generation under which
it wrote the copy are remembered only to be spoken about. -/
structure ForkCall where
  source : String := ""
  target : String := ""
  pc : ForkPc := .idle
  parent : Option BranchManifest := none
  written : Option ℕ := none
  deriving DecidableEq, Repr

def ForkCall.event (k : ForkCall) : Option Bytes :=
  (S.wal.marshal (.branchEvent ⟨.fork, k.target, k.source⟩)).map fun rec => payload [rec]

/-- The write that the call is about to make, if its precondition holds. -/
def ForkCall.commit (st : Store) (k : ForkCall) : Option Store :=
  match k.pc with
  | .writeTarget m => st.putManifest (S.scope.ManifestKey k.target) m none
  | .addWrite branches gen => st.putCatalog (branches ++ [k.target]) gen
  | .append => (k.event S).map fun entry => { st with wal := st.wal ++ [entry] }
  | .rollbackDelete =>
    some { st with manifests := st.manifests.delete (S.scope.ManifestKey k.target) }
  | .removeWrite branches gen => st.putCatalog (branches.filter (· ≠ k.target)) gen
  | _ => none

def ForkCall.succeed (st : Store) (k : ForkCall) : Option (ForkCall × Store) :=
  match k.pc with
  | .idle | .done | .failed | .crashed => none
  | .readSource =>
    match st.manifests.cell (S.scope.ManifestKey k.source) with
    | none => some ({ k with pc := .failed }, st)
    | some (m, _) => some ({ k with pc := .readTarget m, parent := some m }, st)
  | .readTarget m =>
    match st.manifests.cell (S.scope.ManifestKey k.target) with
    | none => some ({ k with pc := .writeTarget m }, st)
    | some _ => some ({ k with pc := .failed }, st)
  | .writeTarget _ =>
    match k.commit S st with
    | some st' => some ({ k with pc := .addRead, written := some st.manifests.next }, st')
    | none => some ({ k with pc := .failed }, st)
  | .addRead =>
    if k.target ∈ st.readBranchCatalog.1 then some ({ k with pc := .append }, st)
    else some ({ k with pc := .addWrite st.readBranchCatalog.1 st.readBranchCatalog.2 }, st)
  | .addWrite _ _ =>
    match k.commit S st with
    | some st' => some ({ k with pc := .append }, st')
    | none => some ({ k with pc := .addRead }, st)
  | .append => (k.commit S st).map fun st' => ({ k with pc := .done }, st')
  | .rollbackDelete => (k.commit S st).map fun st' => ({ k with pc := .removeRead }, st')
  | .removeRead =>
    if k.target ∈ st.readBranchCatalog.1 then
      some ({ k with pc := .removeWrite st.readBranchCatalog.1 st.readBranchCatalog.2 }, st)
    else some ({ k with pc := .failed }, st)
  | .removeWrite _ _ =>
    match k.commit S st with
    | some st' => some ({ k with pc := .failed }, st')
    | none => some ({ k with pc := .removeRead }, st)

/-- Where a call goes on after an error. `rollback` ignores the errors of its own
store calls, and a write that is reported as failed is not rolled back if it was
the write of the manifest. -/
def ForkPc.onError : ForkPc → ForkPc
  | .addRead | .addWrite _ _ | .append => .rollbackDelete
  | .rollbackDelete => .removeRead
  | _ => .failed

def ForkPc.active : ForkPc → Bool
  | .idle | .done | .failed | .crashed => false
  | _ => true

def ForkCall.step (st : Store) (k : ForkCall) : Outcome → Option (ForkCall × Store)
  | .ok => k.succeed S st
  | .failed committed _ =>
    if k.pc.active = false then none
    else if committed then
      (k.commit S st).map fun st' => ({ k with pc := k.pc.onError }, st')
    else some ({ k with pc := k.pc.onError }, st)

/-- The whole system. The last three fields record for every branch the copy
that a `Fork` wrote and that was not deleted since, whether any `Fork` ever wrote
its manifest, and whether a rollback ever deleted a version of the manifest other
than the one its own call had written. -/
structure Sys where
  store : Store := {}
  flushers : ℕ → Flusher := fun _ => {}
  forks : ℕ → ForkCall := fun _ => {}
  birth : String → Option BranchManifest := fun _ => none
  forked : String → Bool := fun _ => false
  lost : String → Bool := fun _ => false

inductive Action
  | append (entry : Bytes)
  | start (i : ℕ)
  | flush (i : ℕ) (o : Outcome)
  | crash (i : ℕ)
  | call (k : ℕ) (source target : String)
  | fork (k : ℕ) (o : Outcome)
  | abandon (k : ℕ)
  deriving DecidableEq, Repr

/-- What a step of call `k` means for the record of its target. -/
def Sys.record (s : Sys) (k : ForkCall) (st : Store) : Sys :=
  let key := S.scope.ManifestKey k.target
  match k.pc, s.store.manifests.cell key, st.manifests.cell key with
  | .writeTarget m, none, some _ => { s with
      store := st
      birth := Function.update s.birth k.target (some m)
      forked := Function.update s.forked k.target true }
  | .rollbackDelete, some (_, gen), none => { s with
      store := st
      birth := Function.update s.birth k.target none
      lost := if k.written = some gen then s.lost else Function.update s.lost k.target true }
  | _, _, _ => { s with store := st }

def Sys.step (s : Sys) : Action → Option Sys
  | .append entry =>
    if (entryOf S entry).isSome then some { s with store.wal := s.store.wal ++ [entry] } else none
  | .start i =>
    if (s.flushers i).pc = .off then
      some { s with flushers := Function.update s.flushers i { pc := .initList } }
    else none
  | .flush i o =>
    ((s.flushers i).step S s.store o).map fun r =>
      { s with store := r.2, flushers := Function.update s.flushers i r.1 }
  | .crash i => some { s with flushers := Function.update s.flushers i {} }
  | .call k source target =>
    if (s.forks k).pc = .idle ∧ Valid source ∧ Valid target then
      let call : ForkCall := { source := source, target := target, pc := .readSource }
      some { s with forks := Function.update s.forks k call }
    else none
  | .fork k o =>
    ((s.forks k).step S s.store o).map fun r =>
      { s.record S (s.forks k) r.2 with forks := Function.update s.forks k r.1 }
  | .abandon k =>
    if (s.forks k).pc.active then
      some { s with forks := Function.update s.forks k { s.forks k with pc := .crashed } }
    else none

def machine : Machine Sys Action where
  init := {}
  step := Sys.step S

end Steps

end CloudyNeigh.Ingest
