import CloudyNeigh.QueryIdempotent
import CloudyNeigh.Transition

/-!
# `Loader.Sync`

One pass of the loader over the segments that a manifest has beyond `applied`,
with every way in which it can stop, and what it leaves published.
-/
namespace CloudyNeigh.Query
open RecordIO Replay Storage VectorFormat

/-- What goes wrong while a segment is loaded: its `Get`, or a cancellation or read
error once `n` of its mutations have been applied. -/
inductive Fault
  | none
  | get
  | read (n : ℕ)
  deriving DecidableEq, Repr

def Fault.cut : Fault → Option ℕ
  | .read n => some n
  | _ => Option.none

structure Loaded where
  table : Table
  count : ℕ
  err : Option LoadErr

inductive SyncErr
  | readManifest
  | truncated (length applied : ℕ)
  | getSegment (id : Bytes)
  | load (id : Bytes) (e : LoadErr)
  deriving DecidableEq, Repr

structure Loader where
  applied : ℕ
  lastGen : String
  table : Table

/-- The loop over the segments: `applied` and `loaded` are the loader's own counters,
`count` the mutations applied from the segment that failed. -/
structure Pass where
  table : Table
  applied : ℕ
  loaded : ℕ
  count : ℕ
  err : Option SyncErr

section
variable (A : Arith) (D : Decoder) (segs : Bytes → Option Bytes)

def loadRecords : Table → ℕ → List Bytes → Option ScanErr → Option ℕ → Loaded
  | t, count, records, scanErr, cut =>
    if cut = some 0 then ⟨t, count, some .interrupted⟩
    else
      match records with
      | [] => ⟨t, count, scanErr.map LoadErr.scan⟩
      | r :: rs =>
        match D.mutation r with
        | none => ⟨t, count, some .unmarshalMutation⟩
        | some m =>
          match t.applyMutation A D m with
          | .error e => ⟨t, count, some e⟩
          | .ok t' => loadRecords t' (count + 1) rs scanErr (cut.map (· - 1))

/-- `none` if the `Get` fails. -/
def loadSegment (t : Table) (ref : SegmentRef) (fault : Fault) : Option Loaded :=
  if fault = .get then none
  else
    match segs ref.segmentId with
    | none => none
    | some data =>
      let read := readAll data
      some (loadRecords A D t 0 read.1 read.2.err fault.cut)

def syncLoop : Table → ℕ → ℕ → List SegmentRef → List Fault → Pass
  | t, applied, loaded, [], _ => ⟨t, applied, loaded, 0, none⟩
  | t, applied, loaded, ref :: refs, faults =>
    match loadSegment A D segs t ref (faults.headD .none) with
    | none => ⟨t, applied, loaded, 0, some (.getSegment ref.segmentId)⟩
    | some out =>
      match out.err with
      | some e => ⟨out.table, applied, loaded, out.count, some (.load ref.segmentId e)⟩
      | none => syncLoop out.table (applied + 1) (loaded + 1) refs faults.tail

def Loader.pass (l : Loader) (m : BranchManifest) (faults : List Fault) : Pass :=
  syncLoop A D segs l.table l.applied 0 (m.segments.drop l.applied) faults

/-- The part of `Sync` under the lock, for the manifest read before it. The clone is
published on an error only if this pass loaded a segment. -/
def Loader.syncLocked (l : Loader) (m : BranchManifest) (gen : String) (faults : List Fault) :
    Loader × ℕ × Option SyncErr :=
  if gen ≠ "" ∧ gen = l.lastGen then (l, 0, none)
  else if m.segments.length < l.applied then
    (l, 0, some (.truncated m.segments.length l.applied))
  else
    let p := l.pass A D segs m faults
    match p.err with
    | some e =>
      ({ l with applied := p.applied, table := if 0 < p.loaded then p.table else l.table },
        p.loaded, some e)
    | none => (⟨p.applied, gen, p.table⟩, p.loaded, none)

/-- The mutations that can be read before the first record that does not decode. -/
def leading : List Bytes → List DocumentMutation
  | [] => []
  | r :: rs =>
    match D.mutation r with
    | some m => m :: leading rs
    | none => []

def leadingOf (ref : SegmentRef) : List DocumentMutation :=
  match segs ref.segmentId with
  | some data => leading D (readAll data).1
  | none => []

/-- The mutations of a list of segments, each complete, in order. -/
def contents : List SegmentRef → Option (List DocumentMutation)
  | [] => some []
  | ref :: refs =>
    match (segs ref.segmentId).bind (readSegment D.mutation) with
    | none => none
    | some ms => (contents refs).map (ms ++ ·)

end

section Segment
variable {A : Arith} {D : Decoder} {segs : Bytes → Option Bytes}

lemma leading_of_mapM {records : List Bytes} {ms : List DocumentMutation}
    (h : records.mapM D.mutation = some ms) : leading D records = ms := by
  induction records generalizing ms with
  | nil =>
    simp only [List.mapM_nil, Option.pure_def, Option.some.injEq] at h
    exact h
  | cons r rs ih =>
    simp only [List.mapM_cons, Option.bind_eq_bind, Option.bind_eq_some_iff] at h
    obtain ⟨m, hm, ms', hms, he⟩ := h
    cases he
    simp only [leading, hm, ih hms]

/-- What is read of a segment is a leading part of it, and all of it if there is no error. -/
lemma loadRecords_spec {t : Table} {count : ℕ} {records : List Bytes}
    {scanErr : Option ScanErr} {cut : Option ℕ} {out : Loaded}
    (h : loadRecords A D t count records scanErr cut = out) :
    ∃ qs, qs <+: leading D records ∧ t.applyAll A D qs = .ok out.table ∧
      out.count = count + qs.length ∧ (qs ≠ [] → cut ≠ some 0) ∧
      (out.err = none → scanErr = none ∧ records.mapM D.mutation = some qs ∧
        ∀ n ∈ cut, qs.length < n) := by
  induction records generalizing t count cut with
  | nil =>
    unfold loadRecords at h
    refine ⟨[], List.nil_prefix, ?_⟩
    split at h
    · subst h
      simp [Table.applyAll]
    · rename_i hcut
      subst h
      refine ⟨rfl, rfl, by simp, ?_⟩
      intro hnone
      refine ⟨by simpa using hnone, rfl, ?_⟩
      intro n hn
      rw [Option.mem_def] at hn
      subst hn
      simp only [List.length_nil]
      exact Nat.pos_of_ne_zero fun h0 => hcut (by rw [h0])
  | cons r rs ih =>
    unfold loadRecords at h
    split at h
    · subst h
      exact ⟨[], List.nil_prefix, by simp [Table.applyAll]⟩
    · rename_i hcut
      dsimp only at h
      split at h
      · subst h
        exact ⟨[], List.nil_prefix, by simp [Table.applyAll]⟩
      · rename_i m hm
        split at h
        · subst h
          exact ⟨[], List.nil_prefix, by simp [Table.applyAll]⟩
        · rename_i t' ha
          obtain ⟨qs, hq, happ, hcount, -, herr⟩ := ih h
          refine ⟨m :: qs, ?_, ?_, ?_, fun _ => hcut, ?_⟩
          · simp only [leading, hm]
            exact List.cons_prefix_cons.mpr ⟨rfl, hq⟩
          · rw [Table.applyAll, ha]
            exact happ
          · rw [hcount, List.length_cons]
            omega
          · intro hnone
            obtain ⟨hs, hmap, hspare⟩ := herr hnone
            refine ⟨hs, by simp [List.mapM_cons, hm, hmap], ?_⟩
            intro n hn
            have := hspare (n - 1) (by simp [Option.mem_def.mp hn])
            rw [List.length_cons]
            omega

/-- One segment of a pass. -/
lemma loadSegment_spec {t : Table} {ref : SegmentRef} {fault : Fault} {out : Loaded}
    (h : loadSegment A D segs t ref fault = some out) :
    ∃ qs, qs <+: leadingOf D segs ref ∧ t.applyAll A D qs = .ok out.table ∧
      out.count = qs.length ∧ (qs ≠ [] → fault ≠ .get ∧ fault.cut ≠ some 0) ∧
      (out.err = none → (segs ref.segmentId).bind (readSegment D.mutation) = some qs ∧
        fault ≠ .get ∧ ∀ n ∈ fault.cut, qs.length < n) := by
  unfold loadSegment at h
  split at h
  · cases h
  · rename_i hget
    split at h
    · cases h
    · rename_i data hdata
      obtain ⟨qs, hq, happ, hcount, hcut, herr⟩ := loadRecords_spec (Option.some.inj h)
      refine ⟨qs, by simpa only [leadingOf, hdata] using hq, happ, by simpa using hcount,
        fun hne => ⟨hget, hcut hne⟩, ?_⟩
      intro hnone
      obtain ⟨hs, hmap, hspare⟩ := herr hnone
      exact ⟨by simp [hdata, readSegment, hs, hmap], hget, hspare⟩

lemma readSegment_leading {ref : SegmentRef} {ms : List DocumentMutation}
    (h : (segs ref.segmentId).bind (readSegment D.mutation) = some ms) : leadingOf D segs ref = ms := by
  obtain ⟨data, hdata, hd⟩ := Option.bind_eq_some_iff.mp h
  unfold readSegment at hd
  simp only at hd
  split at hd
  · simp only [leadingOf, hdata]
    exact leading_of_mapM hd
  · cases hd

end Segment

end CloudyNeigh.Query
