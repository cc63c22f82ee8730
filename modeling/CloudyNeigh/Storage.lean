import CloudyNeigh.RecordIOScanner

/-!
# Stored messages

The messages of `storage.proto` that the write path and the read path exchange.
-/
namespace CloudyNeigh.Storage
open RecordIO

inductive MutationOp
  | unspecified
  | put
  | delete
  deriving DecidableEq, Repr

structure DocumentMutation where
  branch : String
  docId : String
  op : MutationOp
  payload : Bytes := []
  deriving DecidableEq, Repr

inductive EventType
  | unspecified
  | fork
  deriving DecidableEq, Repr

structure BranchLifecycleEvent where
  type : EventType
  branch : String
  parentBranch : String
  deriving DecidableEq, Repr

/-- The `oneof` of a `WalRecord`, which may also be unset. -/
inductive WalRecord
  | mutation (m : DocumentMutation)
  | branchEvent (e : BranchLifecycleEvent)
  | unset
  deriving DecidableEq, Repr

structure SegmentRef where
  segmentId : Bytes
  docCount : ℕ
  docsSize : ℕ
  deriving DecidableEq, Repr

structure BranchManifest where
  checkpointSeq : ℕ
  schemaVersion : ℕ
  segments : List SegmentRef
  deriving DecidableEq, Repr

/-- Every mutation of a segment object, if `segment.Reader` gets through it. -/
def readSegment (unmarshal : Bytes → Option DocumentMutation) (data : Bytes) :
    Option (List DocumentMutation) :=
  let read := readAll data
  if read.2.err = none then read.1.mapM unmarshal else none

end CloudyNeigh.Storage
