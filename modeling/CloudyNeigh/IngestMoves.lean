import CloudyNeigh.IngestSystem

/-!
# What one step of a process does

The steps of a flusher and of a `Fork` call, read off the code once: from which
program point to which, under which condition, and with which write.
-/
namespace CloudyNeigh.Ingest
open RecordIO Storage LogStream Naming SlashPath Transition Versioned

variable {S : Setup}

/-- An entry that the flusher understands, or one that `log.Read` refuses. -/
def Admissible (S : Setup) (data : Bytes) : Prop :=
  (entryOf S data).isSome ∨ ∃ e, e ≠ .endOfStream ∧ readObject (some data) = .error e

/-- The segment of a job is that of the entry it was made for. -/
def Job.Ok (S : Setup) (wal : List Bytes) (j : Job) : Prop :=
  ∃ ms, mutationsAt S wal j.branch j.seq = some ms ∧ segmentData S ms = some j.data ∧
    j.ref = segmentRef S ms j.data

lemma Job.Ok.seq_pos {wal : List Bytes} {j : Job} (h : j.Ok S wal) : 0 < j.seq := by
  obtain ⟨ms, hms, -, -⟩ := h
  exact Nat.pos_of_ne_zero (mutationsAt_some.mp hms).1

/-- The entry with sequence number `seq`. -/
def entryAt (S : Setup) (wal : List Bytes) (seq : ℕ) : Option Entry :=
  if seq = 0 then none else (wal[seq - 1]?).bind (entryOf S)

lemma mutationsAt_eq {wal : List Bytes} {b : String} {seq : ℕ} {ms : List DocumentMutation} :
    mutationsAt S wal b seq = some ms ↔ entryAt S wal seq = some (.mutations b ms) := by
  rw [mutationsAt_some, entryAt]
  by_cases h : seq = 0
  · simp [h]
  · simp [h, Option.bind_eq_some_iff]

section FlusherMoves
variable (S) (st : Store) (f : Flusher)

/-- The steps of a flusher. -/
inductive Flusher.Move : Flusher → Store → Prop
  | fail (cancelled : Bool) (on : f.pc ≠ .off) : Flusher.Move (f.fail cancelled) st
  | commitFail (cancelled : Bool) (st' : Store) (on : f.pc ≠ .off)
      (write : Flusher.commit S st f.pc = some st') : Flusher.Move (f.fail cancelled) st'
  | list (pc : f.pc = .initList) :
      Flusher.Move { f with pc := initNext st.ListBranches none } st
  | missing (b : String) (todo : List String) (min : Option ℕ)
      (pc : f.pc = .initRead (b :: todo) min)
      (cell : st.manifests.cell (S.scope.ManifestKey b) = none) :
      Flusher.Move { f with pc := initNext todo min } st
  | found (b : String) (todo : List String) (min : Option ℕ) (m : BranchManifest) (gen : ℕ)
      (pc : f.pc = .initRead (b :: todo) min)
      (cell : st.manifests.cell (S.scope.ManifestKey b) = some (m, gen)) :
      Flusher.Move { f with
        checkpoints := Function.update f.checkpoints b (some m.checkpointSeq)
        pc := initNext todo (some (lowerCheckpoint min m.checkpointSeq)) } st
  | wait (seq : ℕ) (pc : f.pc = .read seq) : Flusher.Move f st
  | halt (seq : ℕ) (pc : f.pc = .read seq) : Flusher.Move { f with pc := .off } st
  | skip (seq : ℕ) (b : String) (ms : List DocumentMutation) (pc : f.pc = .read seq)
      (entry : entryAt S st.wal seq = some (.mutations b ms))
      (covered : f.checkpoints.covers b seq = true) :
      Flusher.Move { f with pc := .read (seq + 1) } st
  | event (seq : ℕ) (evt : BranchLifecycleEvent) (pc : f.pc = .read seq)
      (entry : entryAt S st.wal seq = some (.fork evt)) :
      Flusher.Move { f with
        checkpoints := if f.checkpoints.covers evt.branch seq then f.checkpoints
          else Function.update f.checkpoints evt.branch (some seq)
        pc := .read (seq + 1) } st
  | encode (seq : ℕ) (b : String) (ms : List DocumentMutation) (data : Bytes)
      (pc : f.pc = .read seq) (entry : entryAt S st.wal seq = some (.mutations b ms))
      (seg : segmentData S ms = some data) :
      Flusher.Move { f with pc := .upload ⟨seq, b, segmentRef S ms data, data⟩ } st
  | upload (j : Job) (pc : f.pc = .upload j) :
      Flusher.Move { f with pc := .manifestRead j } (st.putSegment j.ref.segmentId j.data)
  | already (j : Job) (m : BranchManifest) (gen : ℕ) (pc : f.pc = .manifestRead j)
      (cell : st.manifests.cell (S.scope.ManifestKey j.branch) = some (m, gen))
      (le : j.seq ≤ m.checkpointSeq) :
      Flusher.Move { f with pc := .addRead j m.checkpointSeq } st
  | prepare (j : Job) (m : BranchManifest) (gen : Option ℕ) (pc : f.pc = .manifestRead j)
      (cell : st.manifests.cell (S.scope.ManifestKey j.branch) = gen.map fun g => (m, g))
      (absent : gen = none → m = emptyManifest) (lt : m.checkpointSeq < j.seq) :
      Flusher.Move { f with pc := .manifestWrite j m gen } st
  | written (j : Job) (m : BranchManifest) (gen : Option ℕ) (st' : Store)
      (pc : f.pc = .manifestWrite j m gen) (write : Flusher.commit S st f.pc = some st') :
      Flusher.Move { f with pc := .addRead j j.seq } st'
  | conflict (j : Job) (m : BranchManifest) (gen : Option ℕ)
      (pc : f.pc = .manifestWrite j m gen) : Flusher.Move { f with pc := .manifestRead j } st
  | registered (j : Job) (checkpoint : ℕ) (pc : f.pc = .addRead j checkpoint)
      (mem : j.branch ∈ st.readBranchCatalog.1) : Flusher.Move (f.finish j checkpoint) st
  | addPrepare (j : Job) (checkpoint : ℕ) (pc : f.pc = .addRead j checkpoint)
      (notMem : j.branch ∉ st.readBranchCatalog.1) :
      Flusher.Move { f with
        pc := .addWrite j checkpoint st.readBranchCatalog.1 st.readBranchCatalog.2 } st
  | added (j : Job) (checkpoint : ℕ) (branches : List String) (gen : Option ℕ) (st' : Store)
      (pc : f.pc = .addWrite j checkpoint branches gen)
      (write : Flusher.commit S st f.pc = some st') : Flusher.Move (f.finish j checkpoint) st'
  | addConflict (j : Job) (checkpoint : ℕ) (branches : List String) (gen : Option ℕ)
      (pc : f.pc = .addWrite j checkpoint branches gen) :
      Flusher.Move { f with pc := .addRead j checkpoint } st

variable {S st f}

/-- Reading an entry: nothing else happens than the moves above. -/
lemma Flusher.readEntry_move {seq : ℕ} (hpc : f.pc = .read seq)
    (hwal : ∀ data ∈ st.wal, Admissible S data) :
    Flusher.Move S st f (f.readEntry S seq (st.read seq)) st := by
  by_cases h0 : seq = 0
  · simp only [Store.read, h0, if_true, Flusher.readEntry]
    exact .halt seq hpc
  · cases hd : st.wal[seq - 1]? with
    | none =>
      simp only [Store.read, h0, if_false, hd, readObject, Flusher.readEntry]
      split
      · exact .halt seq hpc
      · exact .wait seq hpc
    | some data =>
      have hentry : entryAt S st.wal seq = entryOf S data := by simp [entryAt, h0, hd]
      rcases hwal data (List.mem_of_getElem? hd) with hsome | ⟨e, hne, hread⟩
      · obtain ⟨entry, he⟩ := Option.isSome_iff_exists.mp hsome
        cases entry with
        | mutations b ms =>
          obtain ⟨records, hread, hproc⟩ := processRecords_mutations he f.checkpoints seq
          have hms : ms ≠ [] := by
            obtain ⟨_, _, -, -, hrecs⟩ := entryOf_some he
            exact (entryOfRecords_mutations hrecs).2.1
          simp only [Store.read, h0, if_false, hd, hread, Flusher.readEntry, hproc]
          cases hc : f.checkpoints.covers b seq with
          | true =>
            simp only [if_true]
            exact .skip seq b ms hpc (hentry.trans he) hc
          | false =>
            simp only [Bool.false_eq_true, if_false, hms]
            cases hseg : segmentData S ms with
            | none => exact .halt seq hpc
            | some seg => exact .encode seq b ms seg hpc (hentry.trans he) hseg
        | fork evt =>
          obtain ⟨records, hread, hproc⟩ := processRecords_fork he f.checkpoints seq
          simp only [Store.read, h0, if_false, hd, hread, Flusher.readEntry, hproc, if_true]
          exact .event seq evt hpc (hentry.trans he)
      · have hrd : st.read seq = .error e := by simp [Store.read, h0, hd, hread]
        simp only [hrd, Flusher.readEntry]
        cases e with
        | endOfStream => exact absurd rfl hne
        | zeroSeq => exact .halt seq hpc
        | scan e => exact .halt seq hpc

theorem Flusher.step_move {o : Outcome} {f' : Flusher} {st' : Store}
    (h : f.step S st o = some (f', st')) (hwal : ∀ data ∈ st.wal, Admissible S data)
    (hjob : ∀ j, f.pc = .manifestRead j → 0 < j.seq) : Flusher.Move S st f f' st' := by
  cases o with
  | failed committed cancelled =>
    simp only [Flusher.step] at h
    split at h
    · cases h
    · rename_i hon
      split at h
      · obtain ⟨st₁, hw, he⟩ := Option.map_eq_some_iff.mp h
        cases he
        exact .commitFail cancelled _ hon hw
      · cases h
        exact .fail cancelled hon
  | ok =>
    simp only [Flusher.step, Flusher.succeed] at h
    split at h
    · cases h
    · rename_i hpc
      cases h
      exact .list hpc
    · cases h
    · rename_i b todo min hpc
      split at h
      · rename_i hcell
        cases h
        exact .missing b todo min hpc hcell
      · rename_i m gen hcell
        cases h
        exact .found b todo min m gen hpc hcell
    · rename_i seq hpc
      cases h
      exact Flusher.readEntry_move hpc hwal
    · rename_i j hpc
      simp only [hpc, Flusher.commit, Option.map_some, Option.some.injEq] at h
      cases h
      exact .upload j hpc
    · rename_i j hpc
      have hpos := hjob j hpc
      cases hcell : st.manifests.cell (S.scope.ManifestKey j.branch) with
      | none =>
        have hlt : ¬ j.seq ≤ emptyManifest.checkpointSeq := by
          simp only [emptyManifest]
          omega
        simp only [hcell, Option.map_none, Option.getD_none, if_neg hlt] at h
        cases h
        exact .prepare j emptyManifest none hpc (by simpa using hcell) (fun _ => rfl) (by omega)
      | some p =>
        simp only [hcell, Option.map_some, Option.getD_some] at h
        split at h
        · rename_i hle
          cases h
          exact .already j p.1 p.2 hpc hcell hle
        · rename_i hlt
          cases h
          exact .prepare j p.1 (some p.2) hpc (by simpa using hcell) (fun hn => nomatch hn)
            (by omega)
    · rename_i j m gen hpc
      split at h
      · rename_i st₁ hw
        cases h
        exact .written j m gen _ hpc hw
      · cases h
        exact .conflict j m gen hpc
    · rename_i j checkpoint hpc
      split at h
      · rename_i hmem
        cases h
        exact .registered j checkpoint hpc hmem
      · rename_i hmem
        cases h
        exact .addPrepare j checkpoint hpc hmem
    · rename_i j checkpoint branches gen hpc
      split at h
      · rename_i st₁ hw
        cases h
        exact .added j checkpoint branches gen _ hpc hw
      · cases h
        exact .addConflict j checkpoint branches gen hpc

end FlusherMoves

section ForkMoves
variable (S) (st : Store) (k : ForkCall)

/-- The steps of a `Fork` call. -/
inductive ForkCall.Move : ForkCall → Store → Prop
  | error (on : k.pc.active = true) : ForkCall.Move { k with pc := k.pc.onError } st
  | commitError (st' : Store) (on : k.pc.active = true) (write : k.commit S st = some st') :
      ForkCall.Move { k with pc := k.pc.onError } st'
  | giveUp (on : k.pc.active = true) : ForkCall.Move { k with pc := .failed } st
  | copied (m : BranchManifest) (gen : ℕ) (pc : k.pc = .readSource)
      (cell : st.manifests.cell (S.scope.ManifestKey k.source) = some (m, gen)) :
      ForkCall.Move { k with pc := .readTarget m, parent := some m } st
  | absent (m : BranchManifest) (pc : k.pc = .readTarget m) :
      ForkCall.Move { k with pc := .writeTarget m } st
  | written (m : BranchManifest) (st' : Store) (pc : k.pc = .writeTarget m)
      (write : k.commit S st = some st') :
      ForkCall.Move { k with pc := .addRead, written := some st.manifests.next } st'
  | registered (pc : k.pc = .addRead) (mem : k.target ∈ st.readBranchCatalog.1) :
      ForkCall.Move { k with pc := .append } st
  | addPrepare (pc : k.pc = .addRead) :
      ForkCall.Move { k with
        pc := .addWrite st.readBranchCatalog.1 st.readBranchCatalog.2 } st
  | added (branches : List String) (gen : Option ℕ) (st' : Store)
      (pc : k.pc = .addWrite branches gen) (write : k.commit S st = some st') :
      ForkCall.Move { k with pc := .append } st'
  | addConflict (branches : List String) (gen : Option ℕ) (pc : k.pc = .addWrite branches gen) :
      ForkCall.Move { k with pc := .addRead } st
  | appended (st' : Store) (pc : k.pc = .append) (write : k.commit S st = some st') :
      ForkCall.Move { k with pc := .done } st'
  | deleted (st' : Store) (pc : k.pc = .rollbackDelete) (write : k.commit S st = some st') :
      ForkCall.Move { k with pc := .removeRead } st'
  | removePrepare (pc : k.pc = .removeRead) (mem : k.target ∈ st.readBranchCatalog.1) :
      ForkCall.Move { k with
        pc := .removeWrite st.readBranchCatalog.1 st.readBranchCatalog.2 } st
  | removed (branches : List String) (gen : Option ℕ) (st' : Store)
      (pc : k.pc = .removeWrite branches gen) (write : k.commit S st = some st') :
      ForkCall.Move { k with pc := .failed } st'
  | removeConflict (branches : List String) (gen : Option ℕ)
      (pc : k.pc = .removeWrite branches gen) : ForkCall.Move { k with pc := .removeRead } st

variable {S st k}

theorem ForkCall.step_move {o : Outcome} {k' : ForkCall} {st' : Store}
    (h : k.step S st o = some (k', st')) : ForkCall.Move S st k k' st' := by
  cases o with
  | failed committed cancelled =>
    simp only [ForkCall.step] at h
    split at h
    · cases h
    · rename_i hon
      have hact : k.pc.active = true := by simpa using hon
      split at h
      · obtain ⟨st₁, hw, he⟩ := Option.map_eq_some_iff.mp h
        cases he
        exact .commitError _ hact hw
      · cases h
        exact .error hact
  | ok =>
    simp only [ForkCall.step, ForkCall.succeed] at h
    split at h
    · cases h
    · cases h
    · cases h
    · cases h
    · rename_i hpc
      split at h
      · cases h
        exact .giveUp (by rw [hpc]; rfl)
      · rename_i m gen hcell
        cases h
        exact .copied m gen hpc hcell
    · rename_i m hpc
      split at h
      · cases h
        exact .absent m hpc
      · cases h
        exact .giveUp (by rw [hpc]; rfl)
    · rename_i m hpc
      split at h
      · rename_i hw
        cases h
        exact .written m _ hpc hw
      · cases h
        exact .giveUp (by rw [hpc]; rfl)
    · rename_i hpc
      split at h
      · rename_i hmem
        cases h
        exact .registered hpc hmem
      · cases h
        exact .addPrepare hpc
    · rename_i branches gen hpc
      split at h
      · rename_i hw
        cases h
        exact .added branches gen _ hpc hw
      · cases h
        exact .addConflict branches gen hpc
    · rename_i hpc
      obtain ⟨st₁, hw, he⟩ := Option.map_eq_some_iff.mp h
      cases he
      exact .appended _ hpc hw
    · rename_i hpc
      obtain ⟨st₁, hw, he⟩ := Option.map_eq_some_iff.mp h
      cases he
      exact .deleted _ hpc hw
    · rename_i hpc
      split at h
      · rename_i hmem
        cases h
        exact .removePrepare hpc hmem
      · cases h
        exact .giveUp (by rw [hpc]; rfl)
    · rename_i branches gen hpc
      split at h
      · rename_i hw
        cases h
        exact .removed branches gen _ hpc hw
      · cases h
        exact .removeConflict branches gen hpc

end ForkMoves

end CloudyNeigh.Ingest
