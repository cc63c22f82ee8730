import CloudyNeigh.LogStreamLinear
import CloudyNeigh.NamespaceScope
import CloudyNeigh.Storage

/-!
# Log entries and segments

How the flusher turns the records of one log entry into the mutations of one
branch, and these into a segment.
-/
namespace CloudyNeigh.Ingest
open RecordIO Storage LogStream Naming

/-- A protobuf message: decoding undoes encoding. An encoding is a Go slice. -/
structure Codec (α : Type) where
  marshal : α → Option Bytes
  unmarshal : Bytes → Option α
  round_trip : ∀ a b, marshal a = some b → unmarshal b = some a
  length_lt : ∀ a b, marshal a = some b → b.length < 2 ^ 63

/-- One namespace and the encodings it is stored in. `hash` is the hexadecimal
SHA-256 sum that names a segment. -/
structure Setup where
  scope : Scope
  wal : Codec WalRecord
  mutation : Codec DocumentMutation
  hash : Bytes → Bytes
  scope_valid : Valid scope.Namespace
  hash_injective : Function.Injective hash
  -- a message is not longer than the message it is embedded in
  mutation_le : ∀ r m b, wal.unmarshal r = some (.mutation m) → mutation.marshal m = some b →
    b.length ≤ r.length

abbrev Checkpoints := String → Option ℕ

/-- `ok && seq <= lastSeq`. -/
def Checkpoints.covers (c : Checkpoints) (branch : String) (seq : ℕ) : Bool :=
  (c branch).any (seq ≤ ·)

inductive ProcessErr
  | unmarshal (seq : ℕ)
  | mixedBranches (seq : ℕ) (branch other : String)
  deriving DecidableEq, Repr

/-- The variables of the loop of `processRecords`. -/
structure Batch where
  checkpoints : Checkpoints
  branch : String
  mutations : List DocumentMutation

variable (S : Setup)

def processRecord (seq : ℕ) (p : Batch) (rec : Bytes) : Except ProcessErr Batch :=
  match S.wal.unmarshal rec with
  | none => .error (.unmarshal seq)
  | some (.branchEvent evt) =>
    if evt.type = .fork ∧ p.checkpoints.covers evt.branch seq = false then
      .ok { p with checkpoints := Function.update p.checkpoints evt.branch (some seq) }
    else .ok p
  | some .unset => .ok p
  | some (.mutation m) =>
    if m.branch = "" then .ok p
    else if p.branch ≠ "" ∧ m.branch ≠ p.branch then
      .error (.mixedBranches seq p.branch m.branch)
    else if p.checkpoints.covers m.branch seq then .ok { p with branch := m.branch }
    else .ok { p with branch := m.branch, mutations := p.mutations ++ [m] }

/-- `processRecords` up to its call of `flushBranch`. -/
def processRecords (checkpoints : Checkpoints) (seq : ℕ) (records : List Bytes) :
    Except ProcessErr Batch :=
  records.foldlM (processRecord S seq) ⟨checkpoints, "", []⟩

/-- The segment that `flushBranch` encodes. -/
def segmentData (ms : List DocumentMutation) : Option Bytes :=
  (ms.mapM S.mutation.marshal).map payload

def segmentRef (ms : List DocumentMutation) (data : Bytes) : SegmentRef :=
  ⟨S.hash data, ms.length, data.length⟩

/-- What one log entry is: mutations of one branch, or the record of a fork. -/
inductive Entry
  | mutations (branch : String) (ms : List DocumentMutation)
  | fork (evt : BranchLifecycleEvent)
  deriving DecidableEq, Repr

def asMutation : WalRecord → Option DocumentMutation
  | .mutation m => some m
  | _ => none

def entryOfRecords : List WalRecord → Option Entry
  | [] => none
  | [.branchEvent evt] => if evt.type = .fork then some (.fork evt) else none
  | r :: rs =>
    match (r :: rs).mapM asMutation with
    | none => none
    | some [] => none
    | some (m :: ms) =>
      if Valid m.branch ∧ ∀ m' ∈ ms, m'.branch = m.branch then
        some (.mutations m.branch (m :: ms))
      else none

def entryOf (data : Bytes) : Option Entry :=
  match readObject (some data) with
  | .error _ => none
  | .ok records => (records.mapM S.wal.unmarshal).bind entryOfRecords

/-- The mutations of `branch` in the entry with sequence number `seq`. -/
def mutationsAt (wal : List Bytes) (branch : String) (seq : ℕ) : Option (List DocumentMutation) :=
  if seq = 0 then none
  else match (wal[seq - 1]?).bind (entryOf S) with
    | some (.mutations b ms) => if b = branch then some ms else none
    | _ => none

variable {S}

lemma mapM_cons_some {α β : Type} {f : α → Option β} {x : α} {xs : List α} {ys : List β} :
    (x :: xs).mapM f = some ys ↔
      ∃ z zs, f x = some z ∧ xs.mapM f = some zs ∧ ys = z :: zs := by
  simp only [List.mapM_cons, Option.bind_eq_bind, Option.bind_eq_some_iff, Option.pure_def,
    Option.some.injEq]
  constructor
  · intro h
    obtain ⟨z, hz, zs, hzs, he⟩ := h
    exact ⟨z, zs, hz, hzs, he.symm⟩
  · intro h
    obtain ⟨z, zs, hz, hzs, he⟩ := h
    exact ⟨z, hz, zs, hzs, he.symm⟩

lemma mapM_asMutation {recs : List WalRecord} {ms : List DocumentMutation}
    (h : recs.mapM asMutation = some ms) : recs = ms.map .mutation := by
  induction recs generalizing ms with
  | nil => simpa using h.symm
  | cons r rs ih =>
    obtain ⟨m, qs, hm, hqs, rfl⟩ := mapM_cons_some.mp h
    cases r with
    | mutation m' =>
      cases hm
      rw [List.map_cons, ← ih hqs]
    | branchEvent e => cases hm
    | unset => cases hm

lemma entryOfRecords_mutations {recs : List WalRecord} {branch : String}
    {ms : List DocumentMutation} (h : entryOfRecords recs = some (.mutations branch ms)) :
    recs = ms.map .mutation ∧ ms ≠ [] ∧ Valid branch ∧ ∀ m ∈ ms, m.branch = branch := by
  unfold entryOfRecords at h
  split at h
  · cases h
  · split at h <;> cases h
  · split at h
    · cases h
    · cases h
    · rename_i m qs hq
      split at h
      · rename_i hb
        cases h
        refine ⟨mapM_asMutation hq, by simp, hb.1, ?_⟩
        simpa using hb.2
      · cases h

lemma entryOfRecords_fork {recs : List WalRecord} {evt : BranchLifecycleEvent}
    (h : entryOfRecords recs = some (.fork evt)) :
    recs = [.branchEvent evt] ∧ evt.type = .fork := by
  unfold entryOfRecords at h
  split at h
  · cases h
  · split at h
    · rename_i hf
      cases h
      exact ⟨rfl, hf⟩
    · cases h
  · split at h
    · cases h
    · cases h
    · split at h <;> cases h

lemma entryOf_of_records {data : Bytes} {records : List Bytes} {recs : List WalRecord}
    (hread : readObject (some data) = .ok records)
    (hrecs : records.mapM S.wal.unmarshal = some recs) : entryOf S data = entryOfRecords recs := by
  simp only [entryOf, hread, hrecs, Option.bind_some]

/-- What an entry decodes to is what its records unmarshal to. -/
lemma entryOf_some {data : Bytes} {e : Entry} (h : entryOf S data = some e) :
    ∃ records recs, readObject (some data) = .ok records ∧
      records.mapM S.wal.unmarshal = some recs ∧ entryOfRecords recs = some e := by
  unfold entryOf at h
  split at h
  · cases h
  · rename_i records hr
    obtain ⟨recs, hrecs, he⟩ := Option.bind_eq_some_iff.mp h
    exact ⟨records, recs, hr, hrecs, he⟩

lemma mutationsAt_some {wal : List Bytes} {branch : String} {seq : ℕ}
    {ms : List DocumentMutation} :
    mutationsAt S wal branch seq = some ms ↔
      seq ≠ 0 ∧ ∃ data, wal[seq - 1]? = some data ∧
        entryOf S data = some (.mutations branch ms) := by
  unfold mutationsAt
  by_cases h0 : seq = 0
  · simp [h0]
  · simp only [h0, if_false, ne_eq, not_false_eq_true, true_and, ← Option.bind_eq_some_iff]
    split
    · rename_i b qs he
      rw [he]
      by_cases hb : b = branch <;> simp [hb]
    · rename_i hne
      constructor
      · intro h
        cases h
      · intro h
        exact absurd h (hne branch ms)

/-- The loop over the mutations of one entry, from any state of its variables
that earlier mutations of the same branch can leave. -/
lemma foldlM_mutations {branch : String} (hb : branch ≠ "") (c : Checkpoints) (seq : ℕ)
    (records : List Bytes) (ms done : List DocumentMutation) (cur : String)
    (hcur : cur = "" ∨ cur = branch)
    (hrec : records.mapM S.wal.unmarshal = some (ms.map .mutation))
    (hms : ∀ m ∈ ms, m.branch = branch) :
    records.foldlM (processRecord S seq) ⟨c, cur, done⟩ =
      .ok ⟨c, if ms = [] then cur else branch,
        if c.covers branch seq then done else done ++ ms⟩ := by
  induction records generalizing ms done cur with
  | nil =>
    have hnil : ms = [] := by simpa using hrec.symm
    simp [hnil]
    rfl
  | cons r rs ih =>
    obtain ⟨w, ws, hr, hrs, he⟩ := mapM_cons_some.mp hrec
    cases ms with
    | nil => cases he
    | cons m ms =>
      obtain ⟨rfl, rfl⟩ : w = .mutation m ∧ ws = ms.map .mutation := by simpa [eq_comm] using he
      have hm : m.branch = branch := hms m (by simp)
      have hms' : ∀ m' ∈ ms, m'.branch = branch := fun m' h => hms m' (by simp [h])
      have hmix : ¬ (cur ≠ "" ∧ branch ≠ cur) := fun h => hcur.elim h.1 fun e => h.2 e.symm
      have hstep : processRecord S seq ⟨c, cur, done⟩ r =
          .ok ⟨c, branch, if c.covers branch seq then done else done ++ [m]⟩ := by
        simp only [processRecord, hr, hm, hb, if_false, hmix]
        cases c.covers branch seq <;> rfl
      have hrest := ih ms (if c.covers branch seq then done else done ++ [m]) branch (.inr rfl)
        hrs hms'
      rw [List.foldlM_cons, hstep]
      refine hrest.trans ?_
      cases c.covers branch seq <;> simp

/-- The mutations of an entry are taken all together, or skipped all together. -/
theorem processRecords_mutations {data : Bytes} {branch : String} {ms : List DocumentMutation}
    (h : entryOf S data = some (.mutations branch ms)) (c : Checkpoints) (seq : ℕ) :
    ∃ records, readObject (some data) = .ok records ∧
      processRecords S c seq records =
        .ok ⟨c, branch, if c.covers branch seq then [] else ms⟩ := by
  obtain ⟨records, recs, hread, hrecs, he⟩ := entryOf_some h
  obtain ⟨rfl, hne, hv, hms⟩ := entryOfRecords_mutations he
  have hb : branch ≠ "" := by
    rintro rfl
    exact absurd hv (by decide +kernel)
  have hrun := foldlM_mutations hb c seq records ms [] "" (.inl rfl) hrecs hms
  exact ⟨records, hread, by simpa [processRecords, hne] using hrun⟩

theorem processRecords_fork {data : Bytes} {evt : BranchLifecycleEvent}
    (h : entryOf S data = some (.fork evt)) (c : Checkpoints) (seq : ℕ) :
    ∃ records, readObject (some data) = .ok records ∧
      processRecords S c seq records =
        .ok ⟨if c.covers evt.branch seq then c else Function.update c evt.branch (some seq), "", []⟩
      := by
  obtain ⟨records, recs, hread, hrecs, he⟩ := entryOf_some h
  obtain ⟨rfl, hf⟩ := entryOfRecords_fork he
  refine ⟨records, hread, ?_⟩
  cases records with
  | nil => simp at hrecs
  | cons r rs =>
    obtain ⟨w, ws, hr, hrs, he⟩ := mapM_cons_some.mp hrecs
    obtain ⟨rfl, rfl⟩ : w = .branchEvent evt ∧ ws = [] := by simpa [eq_comm] using he
    have hnil : rs = [] := by
      cases rs with
      | nil => rfl
      | cons r' rs' =>
        obtain ⟨z, zs, -, -, hz⟩ := mapM_cons_some.mp hrs
        cases hz
    have hstep : processRecord S seq ⟨c, "", []⟩ r = .ok ⟨if c.covers evt.branch seq then c
        else Function.update c evt.branch (some seq), "", []⟩ := by
      simp only [processRecord, hr, hf, true_and]
      cases c.covers evt.branch seq <;> rfl
    rw [processRecords, hnil, List.foldlM_cons, hstep]
    rfl

section Segment

lemma Codec.mapM_round_trip {α : Type} (C : Codec α) {xs : List α} {bs : List Bytes}
    (h : xs.mapM C.marshal = some bs) : bs.mapM C.unmarshal = some xs := by
  induction xs generalizing bs with
  | nil =>
    have hnil : bs = [] := by simpa using h.symm
    simp [hnil]
  | cons x xs ih =>
    obtain ⟨b, bs', hb, hbs, rfl⟩ := mapM_cons_some.mp h
    exact mapM_cons_some.mpr ⟨x, xs, C.round_trip x b hb, ih hbs, rfl⟩

/-- Re-encoded mutations are within any limit that the log records met. -/
lemma marshal_le {records bs : List Bytes} {ms : List DocumentMutation} {n : ℕ}
    (hrec : records.mapM S.wal.unmarshal = some (ms.map .mutation))
    (hbs : ms.mapM S.mutation.marshal = some bs) (hn : ∀ r ∈ records, r.length ≤ n) :
    ∀ b ∈ bs, b.length ≤ n := by
  induction ms generalizing records bs with
  | nil =>
    have hnil : bs = [] := by simpa using hbs.symm
    simp [hnil]
  | cons m ms ih =>
    cases records with
    | nil => simp at hrec
    | cons r rs =>
      obtain ⟨w, ws, hr, hrs, he⟩ := mapM_cons_some.mp hrec
      obtain ⟨rfl, rfl⟩ : w = .mutation m ∧ ws = ms.map .mutation := by simpa [eq_comm] using he
      obtain ⟨b, bs', hb, hbs', rfl⟩ := mapM_cons_some.mp hbs
      have hle : b.length ≤ n := (S.mutation_le r m b hr hb).trans (hn r (by simp))
      have hrest := ih hrs hbs' fun r' hr' => hn r' (by simp [hr'])
      simpa using ⟨hle, hrest⟩

/-- The segment of an entry decodes to the mutations of the entry. -/
theorem readSegment_segmentData {data seg : Bytes} {branch : String}
    {ms : List DocumentMutation} (h : entryOf S data = some (.mutations branch ms))
    (hseg : segmentData S ms = some seg) : readSegment S.mutation.unmarshal seg = some ms := by
  obtain ⟨records, recs, hread, hrecs, he⟩ := entryOf_some h
  obtain ⟨rfl, -, -, -⟩ := entryOfRecords_mutations he
  obtain ⟨bs, hbs, rfl⟩ := Option.map_eq_some_iff.mp hseg
  have hle : ∀ r ∈ records, r.length ≤ DefaultMaxRecordSize := by
    have hall := readAll_le data
    rw [readObject_some] at hread
    split at hread
    · cases hread
    · cases hread
      exact hall
  obtain ⟨hout, herr⟩ := readAll_encode bs (marshal_le hrecs hbs hle)
  simp only [readSegment, payload_encode, hout, herr, if_true]
  exact S.mutation.mapM_round_trip hbs

end Segment

end CloudyNeigh.Ingest
