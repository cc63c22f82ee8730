import CloudyNeigh.IngestCoverage
import CloudyNeigh.QueryLoaderPass

/-!
# One namespace from `Upsert` to `Search`

The log, the flushers and the loaders of one namespace on one store. A write is
encoded and appended by the steps of `Log.Append`; flushers move entries into
segments and manifests; a loader reads the manifest of its branch and then one
segment per step. Every process may stop between any two of its steps.
-/
namespace CloudyNeigh.EndToEnd
open RecordIO Storage Transition Naming VectorFormat

/-- A namespace with the encodings and the arithmetic that its processes share. The
store names the generations of an object by tokens that are never empty. -/
structure Deployment where
  setup : Ingest.Setup
  arith : Arith
  kernels : Kernels
  marshalRecord : Query.Record → Option Bytes
  unmarshalRecord : Bytes → Option Query.Record
  record_round_trip : ∀ r b, marshalRecord r = some b → unmarshalRecord b = some r
  record_noNil : ∀ b r, unmarshalRecord b = some r → r.NoNil
  token : ℕ → String
  token_injective : Function.Injective token
  token_ne : ∀ gen, token gen ≠ ""
  -- the branch that a loader serves
  branch : ℕ → String
  branch_valid : ∀ j, Valid (branch j)

def Deployment.decoder (E : Deployment) : Query.Decoder where
  mutation := E.setup.mutation.unmarshal
  record := E.unmarshalRecord
  record_noNil := E.record_noNil

inductive Write
  | Upsert (branch : String) (records : List Query.Record)
  | Delete (branch : String) (ids : List String)

def Write.branch : Write → String
  | .Upsert branch _ => branch
  | .Delete branch _ => branch

/-- The mutations of a write, in the order of its batch. -/
def Write.mutations (E : Deployment) : Write → Option (List DocumentMutation)
  | .Upsert branch records =>
    records.mapM fun rec => (E.marshalRecord rec).map fun payload => ⟨branch, rec.Id, .put, payload⟩
  | .Delete branch ids => some (ids.map fun id => ⟨branch, id, .delete, []⟩)

/-- The records that the write appends to the log. -/
def Write.records (E : Deployment) (w : Write) : Option (List Bytes) :=
  (w.mutations E).bind fun ms => ms.mapM fun m => E.setup.wal.marshal (.mutation m)

inductive LoaderPc
  | idle
  | holding (m : BranchManifest) (gen : String)
  -- `pass` is what this call has loaded, `todo` the segments that are left
  | loading (m : BranchManifest) (gen : String) (pass : Query.Pass) (todo : List SegmentRef)
  | returned (m : Option BranchManifest) (err : Option Query.SyncErr)

/-- A `Loader` and its current call of `Sync`. -/
structure LoaderState where
  loader : Query.Loader
  pc : LoaderPc

/-- `writes` are the arguments of the calls of `Upsert` and `Delete`. -/
structure World where
  log : LogStream.State
  sys : Ingest.Sys
  writes : ℕ → Option Write
  loaders : ℕ → LoaderState

inductive Action
  | write (c log : ℕ) (w : Write)
  | append (c : ℕ) (o : LogStream.Outcome)
  | stop (c : ℕ)
  | start (i : ℕ)
  | flush (i : ℕ) (o : Ingest.Outcome)
  | crash (i : ℕ)
  | readManifest (j : ℕ) (ok : Bool)
  | lock (j : ℕ)
  | load (j : ℕ) (fault : Query.Fault)
  | publish (j : ℕ)

section Step
variable (E : Deployment)

/-- The log as the flushers see it: its objects in the order of their numbers. -/
def World.setLog (s : World) (log : LogStream.State) : World :=
  { s with log := log, sys.store.wal := log.objects.map LogStream.Obj.data }

def World.setLoader (s : World) (j : ℕ) (l : LoaderState) : World :=
  { s with loaders := Function.update s.loaders j l }

def World.ingest (s : World) (a : Ingest.Action) : Option World :=
  (Ingest.Sys.step E.setup s.sys a).map fun t => { s with sys := t }

/-- `Sync` up to the lock. One call at a time: the last one has returned. -/
def LoaderState.readManifest (l : LoaderState) (st : Ingest.Store) (branch : String) (ok : Bool) :
    Option LoaderState :=
  match l.pc with
  | .idle | .returned _ _ =>
    if ok then
      match st.manifests.cell (E.setup.scope.ManifestKey branch) with
      | none => some { l with pc := .returned none none }
      | some (m, gen) => some { l with pc := .holding m (E.token gen) }
    else some { l with pc := .returned none (some .readManifest) }
  | _ => none

/-- `Sync` from the lock to the first segment. -/
def LoaderState.lock (l : LoaderState) : Option LoaderState :=
  match l.pc with
  | .holding m gen =>
    if gen ≠ "" ∧ gen = l.loader.lastGen then some { l with pc := .returned (some m) none }
    else if m.segments.length < l.loader.applied then
      some { l with
        pc := .returned (some m) (some (.truncated m.segments.length l.loader.applied)) }
    else some { l with
      pc := .loading m gen ⟨l.loader.table, l.loader.applied, 0, 0, none⟩
        (m.segments.drop l.loader.applied) }
  | _ => none

/-- `Sync` returns with an error inside the loop. -/
def LoaderState.fail (l : LoaderState) (m : BranchManifest) (p : Query.Pass)
    (e : Query.SyncErr) : LoaderState where
  loader := { l.loader with
    applied := p.applied
    table := if 0 < p.loaded then p.table else l.loader.table }
  pc := .returned (some m) (some e)

/-- One segment of the loop. -/
def LoaderState.load (l : LoaderState) (segs : Bytes → Option Bytes) (fault : Query.Fault) :
    Option LoaderState :=
  match l.pc with
  | .loading m gen p (ref :: todo) =>
    match Query.loadSegment E.arith E.decoder segs p.table ref fault with
    | none => some (l.fail m p (.getSegment ref.segmentId))
    | some out =>
      match out.err with
      | some e => some (l.fail m { p with table := out.table } (.load ref.segmentId e))
      | none => some { l with
          pc := .loading m gen ⟨out.table, p.applied + 1, p.loaded + 1, 0, none⟩ todo }
  | _ => none

/-- `Sync` after the loop. -/
def LoaderState.publish (l : LoaderState) : Option LoaderState :=
  match l.pc with
  | .loading m gen p [] => some ⟨⟨p.applied, gen, p.table⟩, .returned (some m) none⟩
  | _ => none

def World.step (s : World) : Action → Option World
  | .write c log w =>
    match w.records E with
    -- an error of `Marshal`, or nothing to write: the log is not touched
    | none | some [] => some s
    | some (r :: rs) =>
      (LogStream.step E.setup.scope.WALPrefix s.log (.call c log (r :: rs))).map fun l =>
        { s.setLog l with writes := Function.update s.writes c (some w) }
  | .append c o =>
    (LogStream.step E.setup.scope.WALPrefix s.log (.step c o)).map fun l => s.setLog l
  | .stop c => (LogStream.step E.setup.scope.WALPrefix s.log (.crash c)).map fun l => s.setLog l
  | .start i => s.ingest E (.start i)
  | .flush i o => s.ingest E (.flush i o)
  | .crash i => s.ingest E (.crash i)
  | .readManifest j ok =>
    ((s.loaders j).readManifest E s.sys.store (E.branch j) ok).map fun l => s.setLoader j l
  | .lock j => (s.loaders j).lock.map fun l => s.setLoader j l
  | .load j fault => ((s.loaders j).load E s.sys.store.segments fault).map fun l => s.setLoader j l
  | .publish j => (s.loaders j).publish.map fun l => s.setLoader j l

def world : Machine World Action where
  init := ⟨(LogStream.machine E.setup.scope.WALPrefix).init, {}, fun _ => none,
    fun _ => ⟨⟨0, "", Query.NewTable E.kernels⟩, .idle⟩⟩
  step := World.step E

/-- Every log record of a write is within the limit of the scanner. -/
def withinLimit (_ : World) : Action → Prop
  | .write _ _ w => ∀ batch ∈ w.records E, ∀ r ∈ batch, r.length ≤ DefaultMaxRecordSize
  | _ => True

/-- And its branch is one that the API accepts. -/
def admitted (s : World) : Action → Prop
  | .write c log w => withinLimit E s (.write c log w) ∧ Valid w.branch
  | _ => True

instance (s : World) : ∀ a, Decidable (withinLimit E s a)
  | .write _ _ w =>
    inferInstanceAs (Decidable (∀ batch ∈ w.records E, ∀ r ∈ batch, r.length ≤ DefaultMaxRecordSize))
  | .append .. | .stop _ | .start _ | .flush .. | .crash _ | .readManifest .. | .lock _ | .load ..
  | .publish _ => isTrue trivial

instance (s : World) : ∀ a, Decidable (admitted E s a)
  | .write c log w => inferInstanceAs (Decidable (withinLimit E s (.write c log w) ∧ Valid w.branch))
  | .append .. | .stop _ | .start _ | .flush .. | .crash _ | .readManifest .. | .lock _ | .load ..
  | .publish _ => isTrue trivial

end Step

end CloudyNeigh.EndToEnd
