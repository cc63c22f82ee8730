import CloudyNeigh.IngestMoves

/-!
# What is in flight

The store only evolves: the log and the segments grow, and a generation is never
reused. So whatever a process has read from the store or prepared for it stays
true of the store until the process makes its next call.
-/
namespace CloudyNeigh.Ingest
open RecordIO Storage LogStream Naming SlashPath Transition Versioned

variable {S : Setup} {st st' st₁ st₂ : Store}

structure Store.Evolves (st st' : Store) : Prop where
  wal : st.wal <+: st'.wal
  segments : ∀ id data, st.segments id = some data → st'.segments id = some data
  manifests : st.manifests.Later st'.manifests
  catalog : st.catalog.Later st'.catalog

/-- Segments are named by their content, and the log is readable up to the first
entry that is not. -/
structure Store.Sound (S : Setup) (st : Store) : Prop where
  manifests : st.manifests.Sound
  catalog : st.catalog.Sound
  segments : ∀ id data, st.segments id = some data → S.hash data = id
  wal : ∀ data ∈ st.wal, Admissible S data

lemma Store.Evolves.refl (st : Store) : st.Evolves st :=
  ⟨List.prefix_rfl, fun _ _ h => h, .refl _, .refl _⟩

section Log

lemma entryAt_absorb {wal wal' : List Bytes} (h : wal <+: wal') {seq : ℕ}
    (hseq : seq ≤ wal.length) : entryAt S wal' seq = entryAt S wal seq := by
  by_cases h0 : seq = 0
  · simp [entryAt, h0]
  · have hlt : seq - 1 < wal.length := by omega
    have hget : wal'[seq - 1]? = wal[seq - 1]? := by
      obtain ⟨l, rfl⟩ := h
      rw [List.getElem?_append_left hlt]
    simp [entryAt, h0, hget]

lemma entryAt_le {wal : List Bytes} {seq : ℕ} {e : Entry} (h : entryAt S wal seq = some e) :
    0 < seq ∧ seq ≤ wal.length := by
  unfold entryAt at h
  split at h
  · cases h
  · rename_i h0
    obtain ⟨data, hd, -⟩ := Option.bind_eq_some_iff.mp h
    have hlt := (List.getElem?_eq_some_iff.mp hd).1
    omega

lemma entryAt_mono {wal wal' : List Bytes} (h : wal <+: wal') {seq : ℕ} {e : Entry}
    (he : entryAt S wal seq = some e) : entryAt S wal' seq = some e :=
  (entryAt_absorb h (entryAt_le he).2).trans he

lemma Job.Ok.mono {wal wal' : List Bytes} (h : wal <+: wal') {j : Job} (hj : j.Ok S wal) :
    j.Ok S wal' := by
  obtain ⟨ms, hms, hrest⟩ := hj
  exact ⟨ms, mutationsAt_eq.mpr (entryAt_mono h (mutationsAt_eq.mp hms)), hrest⟩

lemma mutationsAt_valid {wal : List Bytes} {b : String} {seq : ℕ} {ms : List DocumentMutation}
    (h : mutationsAt S wal b seq = some ms) : Valid b := by
  obtain ⟨-, data, -, he⟩ := mutationsAt_some.mp h
  obtain ⟨_, _, -, -, hrecs⟩ := entryOf_some he
  exact (entryOfRecords_mutations hrecs).2.2.1

lemma Job.Ok.valid {wal : List Bytes} {j : Job} (h : j.Ok S wal) : Valid j.branch := by
  obtain ⟨ms, hms, -, -⟩ := h
  exact mutationsAt_valid hms

end Log

/-- What the flusher knows when it is about to make a store call. -/
def FlusherPc.Ok (S : Setup) (st : Store) : FlusherPc → Prop
  | .upload j => j.Ok S st.wal
  | .manifestRead j => j.Ok S st.wal ∧ st.segments j.ref.segmentId = some j.data
  | .manifestWrite j m gen => j.Ok S st.wal ∧ st.segments j.ref.segmentId = some j.data ∧
      st.manifests.Seen (S.scope.ManifestKey j.branch) m gen ∧
      (gen = none → m = emptyManifest) ∧ m.checkpointSeq < j.seq
  | .addRead j checkpoint => j.Ok S st.wal ∧ j.seq ≤ checkpoint
  | .addWrite j checkpoint branches gen => j.Ok S st.wal ∧ j.seq ≤ checkpoint ∧
      st.catalog.Seen () branches gen ∧ (gen = none → branches = [])
  | _ => True

/-- What a `Fork` call knows. -/
structure ForkCall.Ok (st : Store) (k : ForkCall) : Prop where
  valid : k.pc ≠ .idle → Valid k.source ∧ Valid k.target
  parent : ∀ m, k.pc = .readTarget m ∨ k.pc = .writeTarget m → k.parent = some m
  catalog : ∀ branches gen, k.pc = .addWrite branches gen ∨ k.pc = .removeWrite branches gen →
    st.catalog.Seen () branches gen ∧ (gen = none → branches = [])

lemma FlusherPc.Ok.later {pc : FlusherPc} (h : pc.Ok S st) (he : st.Evolves st') :
    pc.Ok S st' := by
  cases pc with
  | upload j => exact Job.Ok.mono he.wal h
  | manifestRead j => exact ⟨h.1.mono he.wal, he.segments _ _ h.2⟩
  | manifestWrite j m gen =>
    obtain ⟨hj, hs, hseen, hnone, hlt⟩ := h
    exact ⟨hj.mono he.wal, he.segments _ _ hs, hseen.later he.manifests, hnone, hlt⟩
  | addRead j checkpoint => exact ⟨h.1.mono he.wal, h.2⟩
  | addWrite j checkpoint branches gen =>
    obtain ⟨hj, hle, hseen, hnone⟩ := h
    exact ⟨hj.mono he.wal, hle, hseen.later he.catalog, hnone⟩
  | off => trivial
  | initList => trivial
  | initRead todo min => trivial
  | read seq => trivial

lemma ForkCall.Ok.later {k : ForkCall} (h : k.Ok st) (he : st.Evolves st') : k.Ok st' :=
  ⟨h.valid, h.parent, fun branches gen hpc =>
    ⟨(h.catalog branches gen hpc).1.later he.catalog, (h.catalog branches gen hpc).2⟩⟩

/-- The write of a flusher. -/
inductive Flusher.Write (S : Setup) (st : Store) : FlusherPc → Store → Prop
  | segment (j : Job) :
      Flusher.Write S st (.upload j) (st.putSegment j.ref.segmentId j.data)
  | manifest (j : Job) (m : BranchManifest) (gen : Option ℕ)
      (holds : st.manifests.holds (S.scope.ManifestKey j.branch) gen = true) :
      Flusher.Write S st (.manifestWrite j m gen)
        { st with manifests := st.manifests.put (S.scope.ManifestKey j.branch) (flushed m j) }
  | catalog (j : Job) (checkpoint : ℕ) (branches : List String) (gen : Option ℕ)
      (holds : st.catalog.holds () gen = true) :
      Flusher.Write S st (.addWrite j checkpoint branches gen)
        { st with catalog := st.catalog.put () (branches ++ [j.branch]) }

lemma Flusher.commit_write {pc : FlusherPc} (h : Flusher.commit S st pc = some st') :
    Flusher.Write S st pc st' := by
  cases pc with
  | upload j =>
    cases h
    exact .segment j
  | manifestWrite j m gen =>
    simp only [Flusher.commit, Store.putManifest, Option.ite_none_right_eq_some] at h
    obtain ⟨hh, he⟩ := h
    cases he
    exact .manifest j m gen hh
  | addWrite j checkpoint branches gen =>
    simp only [Flusher.commit, Store.putCatalog, Option.ite_none_right_eq_some] at h
    obtain ⟨hh, he⟩ := h
    cases he
    exact .catalog j checkpoint branches gen hh
  | off => cases h
  | initList => cases h
  | initRead todo min => cases h
  | read seq => cases h
  | manifestRead j => cases h
  | addRead j checkpoint => cases h

/-- The write of a `Fork` call. -/
inductive ForkCall.Write (S : Setup) (st : Store) (k : ForkCall) : Store → Prop
  | manifest (m : BranchManifest) (pc : k.pc = .writeTarget m)
      (absent : st.manifests.cell (S.scope.ManifestKey k.target) = none) :
      ForkCall.Write S st k
        { st with manifests := st.manifests.put (S.scope.ManifestKey k.target) m }
  | add (branches : List String) (gen : Option ℕ) (pc : k.pc = .addWrite branches gen)
      (holds : st.catalog.holds () gen = true) :
      ForkCall.Write S st k { st with catalog := st.catalog.put () (branches ++ [k.target]) }
  | event (entry : Bytes) (pc : k.pc = .append) (encoded : k.event S = some entry) :
      ForkCall.Write S st k { st with wal := st.wal ++ [entry] }
  | delete (pc : k.pc = .rollbackDelete) :
      ForkCall.Write S st k
        { st with manifests := st.manifests.delete (S.scope.ManifestKey k.target) }
  | remove (branches : List String) (gen : Option ℕ) (pc : k.pc = .removeWrite branches gen)
      (holds : st.catalog.holds () gen = true) :
      ForkCall.Write S st k
        { st with catalog := st.catalog.put () (branches.filter (· ≠ k.target)) }

lemma ForkCall.commit_write {k : ForkCall} (h : k.commit S st = some st') :
    ForkCall.Write S st k st' := by
  unfold ForkCall.commit at h
  split at h
  · rename_i m hpc
    simp only [Store.putManifest, Option.ite_none_right_eq_some] at h
    obtain ⟨hh, he⟩ := h
    cases he
    exact .manifest m hpc (Cells.holds_none.mp hh)
  · rename_i branches gen hpc
    simp only [Store.putCatalog, Option.ite_none_right_eq_some] at h
    obtain ⟨hh, he⟩ := h
    cases he
    exact .add branches gen hpc hh
  · rename_i hpc
    obtain ⟨entry, hentry, he⟩ := Option.map_eq_some_iff.mp h
    cases he
    exact .event entry hpc hentry
  · rename_i hpc
    cases h
    exact .delete hpc
  · rename_i branches gen hpc
    simp only [Store.putCatalog, Option.ite_none_right_eq_some] at h
    obtain ⟨hh, he⟩ := h
    cases he
    exact .remove branches gen hpc hh
  · cases h

section Segments
variable {id data : Bytes}

lemma putSegment_other (st : Store) (id data : Bytes) :
    (st.putSegment id data).wal = st.wal ∧
      (st.putSegment id data).manifests = st.manifests ∧
      (st.putSegment id data).catalog = st.catalog := by
  unfold Store.putSegment
  split <;> exact ⟨rfl, rfl, rfl⟩

lemma putSegment_evolves (st : Store) (id data : Bytes) : st.Evolves (st.putSegment id data) := by
  unfold Store.putSegment
  split
  · exact .refl st
  · rename_i hnone
    refine ⟨List.prefix_rfl, fun id' d h => ?_, .refl _, .refl _⟩
    have hne : id' ≠ id := by
      rintro rfl
      rw [hnone] at h
      cases h
    simpa [hne] using h

lemma Store.Sound.putSegment (hs : st.Sound S) (data : Bytes) :
    (st.putSegment (S.hash data) data).Sound S ∧
      (st.putSegment (S.hash data) data).segments (S.hash data) = some data := by
  unfold Store.putSegment
  split
  · rename_i d hd
    -- the object is there already, and it has the same content
    have heq : d = data := S.hash_injective (hs.segments _ d hd)
    exact ⟨hs, by rw [hd, heq]⟩
  · refine ⟨⟨hs.manifests, hs.catalog, fun id' d h => ?_, hs.wal⟩, by simp⟩
    by_cases hid : id' = S.hash data
    · have hd : data = d := by simpa [hid] using h
      rw [hid, hd]
    · exact hs.segments id' d (by simpa [hid] using h)

end Segments

/-- A successful write is an evolution and keeps the store sound. -/
lemma Flusher.Write.evolves {pc : FlusherPc} (h : Flusher.Write S st pc st')
    (hs : st.Sound S) (hok : pc.Ok S st) : st.Evolves st' ∧ st'.Sound S := by
  cases h with
  | segment j =>
    obtain ⟨ms, -, -, href⟩ := hok
    have hid : j.ref.segmentId = S.hash j.data := by rw [href, segmentRef]
    rw [hid]
    exact ⟨putSegment_evolves st _ _, (hs.putSegment j.data).1⟩
  | manifest j m gen holds =>
    exact ⟨⟨List.prefix_rfl, fun _ _ h => h, .put _ _ _, .refl _⟩,
      ⟨hs.manifests.put _ _, hs.catalog, hs.segments, hs.wal⟩⟩
  | catalog j checkpoint branches gen holds =>
    exact ⟨⟨List.prefix_rfl, fun _ _ h => h, .refl _, .put _ _ _⟩,
      ⟨hs.manifests, hs.catalog.put _ _, hs.segments, hs.wal⟩⟩

/-- The entry of a fork is understood, or it is too large to be read. -/
lemma admissible_event {k : ForkCall} {entry : Bytes} (h : k.event S = some entry) :
    Admissible S entry := by
  obtain ⟨rec, hrec, rfl⟩ := Option.map_eq_some_iff.mp h
  have hdec := S.wal.round_trip _ _ hrec
  have hlen := S.wal.length_lt _ _ hrec
  by_cases hle : rec.length ≤ DefaultMaxRecordSize
  · have hread : readObject (some (payload [rec])) = .ok [rec] :=
      readObject_payload (by simpa using hle)
    left
    rw [entryOf_of_records hread (mapM_cons_some.mpr ⟨_, [], hdec, rfl, rfl⟩)]
    simp [entryOfRecords]
  · have herr := readAll_too_large (not_le.mp hle) (hlen.trans (by decide))
    refine .inr ⟨.scan .recordTooLarge, by simp, ?_⟩
    rw [payload_encode, readObject_some, herr]

lemma Store.Sound.log (hs : st.Sound S) {entry : Bytes} (he : Admissible S entry) :
    st.Evolves { st with wal := st.wal ++ [entry] } ∧
      Store.Sound S { st with wal := st.wal ++ [entry] } := by
  refine ⟨⟨List.prefix_append _ _, fun _ _ h => h, .refl _, .refl _⟩,
    ⟨hs.manifests, hs.catalog, hs.segments, fun data hd => ?_⟩⟩
  rcases List.mem_append.mp hd with h | h
  · exact hs.wal data h
  · rw [List.mem_singleton.mp h]
    exact he

lemma ForkCall.Write.evolves {k : ForkCall} (h : ForkCall.Write S st k st') (hs : st.Sound S) :
    st.Evolves st' ∧ st'.Sound S := by
  cases h with
  | manifest m pc absent =>
    exact ⟨⟨List.prefix_rfl, fun _ _ h => h, .put _ _ _, .refl _⟩,
      ⟨hs.manifests.put _ _, hs.catalog, hs.segments, hs.wal⟩⟩
  | add branches gen pc holds =>
    exact ⟨⟨List.prefix_rfl, fun _ _ h => h, .refl _, .put _ _ _⟩,
      ⟨hs.manifests, hs.catalog.put _ _, hs.segments, hs.wal⟩⟩
  | event entry pc encoded => exact hs.log (admissible_event encoded)
  | delete pc =>
    exact ⟨⟨List.prefix_rfl, fun _ _ h => h, .delete _ _, .refl _⟩,
      ⟨hs.manifests.delete _, hs.catalog, hs.segments, hs.wal⟩⟩
  | remove branches gen pc holds =>
    exact ⟨⟨List.prefix_rfl, fun _ _ h => h, .refl _, .put _ _ _⟩,
      ⟨hs.manifests, hs.catalog.put _ _, hs.segments, hs.wal⟩⟩

lemma Store.Sound.readCatalog (hs : st.Sound S) :
    st.catalog.Seen () st.readBranchCatalog.1 st.readBranchCatalog.2 ∧
      (st.readBranchCatalog.2 = none → st.readBranchCatalog.1 = []) := by
  unfold Store.readBranchCatalog
  split
  · exact ⟨.none, fun _ => rfl⟩
  · rename_i branches gen hcell
    exact ⟨hs.catalog.seen hcell, fun h => nomatch h⟩

/-- A failing call leaves the flusher where nothing needs to be known. -/
lemma Flusher.fail_ok (f : Flusher) (cancelled : Bool) : (f.fail cancelled).pc.Ok S st := by
  unfold Flusher.fail
  split
  · cases hpc : f.pc <;> simp only [FlusherPc.resume] <;> trivial
  · trivial

lemma initNext_ok (todo : List String) (min : Option ℕ) : (initNext todo min).Ok S st := by
  cases todo <;> trivial

theorem Flusher.Move.ok {f f' : Flusher} (h : Flusher.Move S st f f' st') (hs : st.Sound S)
    (hok : f.pc.Ok S st) : st.Evolves st' ∧ st'.Sound S ∧ f'.pc.Ok S st' := by
  cases h with
  | fail cancelled on => exact ⟨.refl _, hs, f.fail_ok cancelled⟩
  | commitFail cancelled _ on write =>
    obtain ⟨he, hs'⟩ := (Flusher.commit_write write).evolves hs hok
    exact ⟨he, hs', f.fail_ok cancelled⟩
  | list pc => exact ⟨.refl _, hs, initNext_ok _ _⟩
  | missing b todo min pc cell => exact ⟨.refl _, hs, initNext_ok _ _⟩
  | found b todo min m gen pc cell => exact ⟨.refl _, hs, initNext_ok _ _⟩
  | wait seq pc => exact ⟨.refl _, hs, hok⟩
  | halt seq pc => exact ⟨.refl _, hs, trivial⟩
  | skip seq b ms pc entry covered => exact ⟨.refl _, hs, trivial⟩
  | event seq evt pc entry => exact ⟨.refl _, hs, trivial⟩
  | encode seq b ms data pc entry seg =>
    exact ⟨.refl _, hs, ms, mutationsAt_eq.mpr entry, seg, rfl⟩
  | upload j pc =>
    rw [pc] at hok
    obtain ⟨he, hs'⟩ := Flusher.Write.evolves (.segment j) hs hok
    have hid : j.ref.segmentId = S.hash j.data := by
      obtain ⟨ms, -, -, href⟩ := hok
      rw [href, segmentRef]
    refine ⟨he, hs', Job.Ok.mono he.wal hok, ?_⟩
    rw [hid]
    exact (hs.putSegment j.data).2
  | already j m gen pc cell le =>
    rw [pc] at hok
    exact ⟨.refl _, hs, hok.1, le⟩
  | prepare j m gen pc cell absent lt =>
    rw [pc] at hok
    refine ⟨.refl _, hs, hok.1, hok.2, ?_, absent, lt⟩
    cases gen with
    | none => exact .none
    | some g => exact hs.manifests.seen (by simpa using cell)
  | written j m gen _ pc write =>
    have hw := Flusher.commit_write write
    obtain ⟨he, hs'⟩ := hw.evolves hs hok
    rw [pc] at hok
    exact ⟨he, hs', hok.1.mono he.wal, le_rfl⟩
  | conflict j m gen pc =>
    rw [pc] at hok
    exact ⟨.refl _, hs, hok.1, hok.2.1⟩
  | registered j checkpoint pc mem => exact ⟨.refl _, hs, trivial⟩
  | addPrepare j checkpoint pc notMem =>
    rw [pc] at hok
    exact ⟨.refl _, hs, hok.1, hok.2, hs.readCatalog⟩
  | added j checkpoint branches gen _ pc write =>
    obtain ⟨he, hs'⟩ := (Flusher.commit_write write).evolves hs hok
    exact ⟨he, hs', trivial⟩
  | addConflict j checkpoint branches gen pc =>
    rw [pc] at hok
    exact ⟨.refl _, hs, hok.1, hok.2.1⟩

/-- A call that goes to a program point at which it holds nothing. -/
lemma ForkCall.Ok.goto {k : ForkCall} (h : k.Ok st) (hidle : k.pc ≠ .idle) {pc : ForkPc}
    (hm : ∀ m, pc ≠ .readTarget m ∧ pc ≠ .writeTarget m)
    (hc : ∀ branches gen, pc ≠ .addWrite branches gen ∧ pc ≠ .removeWrite branches gen) :
    ForkCall.Ok st' { k with pc := pc } := by
  refine ⟨fun _ => h.valid hidle, fun m hpc => ?_, fun branches gen hpc => ?_⟩
  · exact (hpc.elim (hm m).1 (hm m).2).elim
  · exact (hpc.elim (hc branches gen).1 (hc branches gen).2).elim

lemma ForkCall.Ok.error {k : ForkCall} (h : k.Ok st) (hidle : k.pc ≠ .idle) :
    ForkCall.Ok st' { k with pc := k.pc.onError } := by
  apply h.goto hidle <;> cases k.pc <;> simp [ForkPc.onError]

theorem ForkCall.Move.ok {k k' : ForkCall} (h : ForkCall.Move S st k k' st') (hs : st.Sound S)
    (hok : k.Ok st) : st.Evolves st' ∧ st'.Sound S ∧ k'.Ok st' := by
  have hactive : k.pc.active = true → k.pc ≠ .idle := by
    intro ha hi
    rw [hi] at ha
    cases ha
  cases h with
  | error on => exact ⟨.refl _, hs, hok.error (hactive on)⟩
  | commitError _ on write =>
    obtain ⟨he, hs'⟩ := (ForkCall.commit_write write).evolves hs
    exact ⟨he, hs', hok.error (hactive on)⟩
  | giveUp on => exact ⟨.refl _, hs, hok.goto (hactive on) (by simp) (by simp)⟩
  | copied m gen pc cell =>
    refine ⟨.refl _, hs, fun _ => hok.valid (by simp [pc]), fun m' hm => ?_, fun _ _ hc => ?_⟩
    · have hm' : m = m' := by simpa using hm
      rw [hm']
    · simp at hc
  | absent m pc =>
    refine ⟨.refl _, hs, fun _ => hok.valid (by simp [pc]), fun m' hm => ?_, fun _ _ hc => ?_⟩
    · have hm' : m = m' := by simpa using hm
      exact hok.parent m' (.inl (by rw [pc, hm']))
    · simp at hc
  | written m _ pc write =>
    obtain ⟨he, hs'⟩ := (ForkCall.commit_write write).evolves hs
    refine ⟨he, hs', fun _ => hok.valid (by simp [pc]), fun _ hm => ?_, fun _ _ hc => ?_⟩
    · simp at hm
    · simp at hc
  | registered pc mem => exact ⟨.refl _, hs, hok.goto (by simp [pc]) (by simp) (by simp)⟩
  | addPrepare pc =>
    refine ⟨.refl _, hs, fun _ => hok.valid (by simp [pc]), fun _ hm => ?_, fun _ _ hc => ?_⟩
    · simp at hm
    · obtain ⟨rfl, rfl⟩ : st.readBranchCatalog.1 = _ ∧ st.readBranchCatalog.2 = _ := by
        simpa using hc
      exact hs.readCatalog
  | added branches gen _ pc write =>
    obtain ⟨he, hs'⟩ := (ForkCall.commit_write write).evolves hs
    exact ⟨he, hs', hok.goto (by simp [pc]) (by simp) (by simp)⟩
  | addConflict branches gen pc =>
    exact ⟨.refl _, hs, hok.goto (by simp [pc]) (by simp) (by simp)⟩
  | appended _ pc write =>
    obtain ⟨he, hs'⟩ := (ForkCall.commit_write write).evolves hs
    exact ⟨he, hs', hok.goto (by simp [pc]) (by simp) (by simp)⟩
  | deleted _ pc write =>
    obtain ⟨he, hs'⟩ := (ForkCall.commit_write write).evolves hs
    exact ⟨he, hs', hok.goto (by simp [pc]) (by simp) (by simp)⟩
  | removePrepare pc mem =>
    refine ⟨.refl _, hs, fun _ => hok.valid (by simp [pc]), fun _ hm => ?_, fun _ _ hc => ?_⟩
    · simp at hm
    · obtain ⟨rfl, rfl⟩ : st.readBranchCatalog.1 = _ ∧ st.readBranchCatalog.2 = _ := by
        simpa using hc
      exact hs.readCatalog
  | removed branches gen _ pc write =>
    obtain ⟨he, hs'⟩ := (ForkCall.commit_write write).evolves hs
    exact ⟨he, hs', hok.goto (by simp [pc]) (by simp) (by simp)⟩
  | removeConflict branches gen pc =>
    exact ⟨.refl _, hs, hok.goto (by simp [pc]) (by simp) (by simp)⟩

/-- The part of the invariant that is about single processes. -/
structure Inflight (S : Setup) (s : Sys) : Prop where
  store : s.store.Sound S
  flushers : ∀ i, (s.flushers i).pc.Ok S s.store
  forks : ∀ k, (s.forks k).Ok s.store

section Sys
variable {s t : Sys} {a : Action}

lemma record_store (s : Sys) (k : ForkCall) (st : Store) : (s.record S k st).store = st := by
  unfold Sys.record
  dsimp only
  split <;> rfl

lemma record_flushers (s : Sys) (k : ForkCall) (st : Store) :
    (s.record S k st).flushers = s.flushers := by
  unfold Sys.record
  dsimp only
  split <;> rfl

/-- What a step is: one process moves, or the log grows from outside, or a
process starts or is gone. -/
inductive Sys.Change (S : Setup) (s : Sys) : Action → Sys → Prop
  | append (entry : Bytes) (ok : (entryOf S entry).isSome) :
      Sys.Change S s (.append entry) { s with store.wal := s.store.wal ++ [entry] }
  | start (i : ℕ) : Sys.Change S s (.start i)
      { s with flushers := Function.update s.flushers i { pc := .initList } }
  | crash (i : ℕ) : Sys.Change S s (.crash i)
      { s with flushers := Function.update s.flushers i {} }
  | flush (i : ℕ) (o : Outcome) (f : Flusher) (st : Store)
      (move : Flusher.Move S s.store (s.flushers i) f st) :
      Sys.Change S s (.flush i o)
        { s with store := st, flushers := Function.update s.flushers i f }
  | call (k : ℕ) (source target : String) (idle : (s.forks k).pc = .idle) (vs : Valid source)
      (vt : Valid target) : Sys.Change S s (.call k source target)
        { s with forks := Function.update s.forks k
                            { source := source, target := target, pc := .readSource } }
  | fork (k : ℕ) (o : Outcome) (k' : ForkCall) (st : Store)
      (move : ForkCall.Move S s.store (s.forks k) k' st)
      (commit : o.commits = false → st = s.store) :
      Sys.Change S s (.fork k o)
        { s.record S (s.forks k) st with forks := Function.update s.forks k k' }
  | abandon (k : ℕ) (on : (s.forks k).pc.active = true) : Sys.Change S s (.abandon k)
      { s with forks := Function.update s.forks k { s.forks k with pc := .crashed } }

lemma Sys.step_change (h : Sys.step S s a = some t) (hi : Inflight S s) : Sys.Change S s a t := by
  cases a with
  | append entry =>
    simp only [Sys.step, Option.ite_none_right_eq_some] at h
    obtain ⟨hok, he⟩ := h
    cases he
    exact .append entry hok
  | start i =>
    simp only [Sys.step, Option.ite_none_right_eq_some] at h
    obtain ⟨-, he⟩ := h
    cases he
    exact .start i
  | flush i o =>
    obtain ⟨r, hr, he⟩ := Option.map_eq_some_iff.mp h
    cases he
    refine .flush i o r.1 r.2 (Flusher.step_move hr hi.store.wal fun j hj => ?_)
    have hok := hi.flushers i
    rw [hj] at hok
    exact hok.1.seq_pos
  | crash i =>
    cases h
    exact .crash i
  | call k source target =>
    simp only [Sys.step, Option.ite_none_right_eq_some] at h
    obtain ⟨⟨hidle, hs, ht⟩, he⟩ := h
    cases he
    exact .call k source target hidle hs ht
  | fork k o =>
    obtain ⟨r, hr, he⟩ := Option.map_eq_some_iff.mp h
    cases he
    refine .fork k o r.1 r.2 (ForkCall.step_move hr) fun hc => ?_
    cases o with
    | ok => cases hc
    | failed committed cancelled =>
      have hcom : committed = false := hc
      simp only [ForkCall.step, hcom, Bool.false_eq_true, if_false] at hr
      split at hr
      · cases hr
      · cases hr
        rfl
  | abandon k =>
    simp only [Sys.step, Option.ite_none_right_eq_some] at h
    obtain ⟨hon, he⟩ := h
    cases he
    exact .abandon k hon

lemma Inflight.evolve (hi : Inflight S s) {st : Store} (he : s.store.Evolves st) :
    (∀ i, (s.flushers i).pc.Ok S st) ∧ ∀ k, (s.forks k).Ok st :=
  ⟨fun i => (hi.flushers i).later he, fun k => (hi.forks k).later he⟩

lemma Inflight.set_flusher {st : Store} (hs : st.Sound S) (hk : ∀ k, (s.forks k).Ok st)
    (hf : ∀ i, (s.flushers i).pc.Ok S st) (i : ℕ) {f : Flusher} (hok : f.pc.Ok S st) :
    Inflight S { s with store := st, flushers := Function.update s.flushers i f } := by
  refine ⟨hs, fun i' => ?_, hk⟩
  by_cases h : i' = i
  · subst h
    simpa using hok
  · simpa [h] using hf i'

lemma Inflight.set_fork {st : Store} (hs : st.Sound S) (hk : ∀ k, (s.forks k).Ok st)
    (hf : ∀ i, (s.flushers i).pc.Ok S st) (k : ℕ) {c : ForkCall} (hok : c.Ok st) {t : Sys}
    (hst : t.store = st) (hfl : t.flushers = s.flushers) :
    Inflight S { t with forks := Function.update s.forks k c } := by
  refine ⟨hst ▸ hs, fun i => ?_, fun k' => ?_⟩
  · simpa only [hst, hfl] using hf i
  · by_cases h : k' = k
    · subst h
      simpa [hst] using hok
    · simpa [h, hst] using hk k'

theorem Sys.Change.inflight (h : Sys.Change S s a t) (hi : Inflight S s) :
    s.store.Evolves t.store ∧ Inflight S t := by
  cases h with
  | append entry ok =>
    obtain ⟨he, hs⟩ := hi.store.log (.inl ok)
    obtain ⟨hf, hk⟩ := hi.evolve he
    exact ⟨he, hs, hf, hk⟩
  | start i =>
    exact ⟨.refl _, Inflight.set_flusher hi.store hi.forks hi.flushers i trivial⟩
  | crash i =>
    exact ⟨.refl _, Inflight.set_flusher hi.store hi.forks hi.flushers i trivial⟩
  | flush i o f st move =>
    obtain ⟨he, hs, hok⟩ := move.ok hi.store (hi.flushers i)
    obtain ⟨hf, hk⟩ := hi.evolve he
    exact ⟨he, Inflight.set_flusher hs hk hf i hok⟩
  | call k source target idle vs vt =>
    refine ⟨.refl _, Inflight.set_fork hi.store hi.forks hi.flushers k ?_ rfl rfl⟩
    exact ⟨fun _ => ⟨vs, vt⟩, by simp, by simp⟩
  | fork k o k' st move commit =>
    obtain ⟨he, hs, hok⟩ := move.ok hi.store (hi.forks k)
    obtain ⟨hf, hk⟩ := hi.evolve he
    refine ⟨?_, Inflight.set_fork hs hk hf k hok (record_store s _ st) (record_flushers s _ st)⟩
    exact (record_store (S := S) s (s.forks k) st).symm ▸ he
  | abandon k on =>
    have hidle : (s.forks k).pc ≠ .idle := by
      intro h
      rw [h] at on
      cases on
    exact ⟨.refl _, Inflight.set_fork hi.store hi.forks hi.flushers k
      ((hi.forks k).goto hidle (by simp) (by simp)) rfl rfl⟩

lemma inflight_step (hi : Inflight S s) (h : Sys.step S s a = some t) : Inflight S t :=
  ((Sys.step_change h hi).inflight hi).2

theorem inflight_reachable (h : (machine S).Reachable s) : Inflight S s := by
  refine h.invariant ?_ fun s a t hi (hs : Sys.step S s a = some t) => inflight_step hi hs
  refine ⟨⟨?_, ?_, ?_, ?_⟩, fun _ => trivial, fun _ => ⟨?_, ?_, ?_⟩⟩ <;>
    simp [machine, Cells.Sound]

end Sys

end CloudyNeigh.Ingest
