import CloudyNeigh.EndToEndLoader
import CloudyNeigh.IngestRollback
import CloudyNeigh.QueryLoaderRuns

/-!
# What a loader shows is what the log says

The processes of one namespace run in any interleaving. Whenever `Sync` returns nil
for a manifest, the table of the loader is the one that the log entries of its
branch make, up to the checkpoint of that manifest.
-/
namespace CloudyNeigh.EndToEnd
open RecordIO Storage Transition Naming VectorFormat Query Ingest

section Entries
variable {E : Deployment}

lemma mapM_forall {α β : Type} {f : α → Option β} {P : β → Prop}
    (hf : ∀ x y, f x = some y → P y) {xs : List α} {ys : List β} (h : xs.mapM f = some ys) :
    ∀ y ∈ ys, P y := by
  induction xs generalizing ys with
  | nil =>
    have hnil : ys = [] := by simpa using h.symm
    simp [hnil]
  | cons x xs ih =>
    obtain ⟨y, zs, hy, hzs, rfl⟩ := mapM_cons_some.mp h
    simpa using ⟨hf x y hy, ih hzs⟩

lemma Write.mutations_branch {w : Write} {ms : List DocumentMutation}
    (h : w.mutations E = some ms) : ∀ m ∈ ms, m.branch = w.branch := by
  cases w with
  | Upsert branch records =>
    refine mapM_forall (fun rec m hm => ?_) h
    obtain ⟨payload, -, rfl⟩ := Option.map_eq_some_iff.mp hm
    rfl
  | Delete branch ids =>
    cases h
    simp [Write.branch]

lemma mapM_map_mutation (ms : List DocumentMutation) :
    (ms.map WalRecord.mutation).mapM asMutation = some ms := by
  induction ms with
  | nil => rfl
  | cons m ms ih => exact mapM_cons_some.mpr ⟨m, ms, rfl, ih, rfl⟩

lemma entryOfRecords_of_mutations {branch : String} (hv : Valid branch)
    {ms : List DocumentMutation} (hne : ms ≠ []) (hms : ∀ m ∈ ms, m.branch = branch) :
    entryOfRecords (ms.map .mutation) = some (.mutations branch ms) := by
  cases ms with
  | nil => exact absurd rfl hne
  | cons m ms =>
    have hm : m.branch = branch := hms m List.mem_cons_self
    have hall : ∀ m' ∈ ms, m'.branch = branch := fun m' h => hms m' (List.mem_cons_of_mem _ h)
    have hmap := mapM_map_mutation (m :: ms)
    rw [List.map_cons] at hmap ⊢
    simp only [entryOfRecords, hmap, hm]
    rw [if_pos ⟨hv, hall⟩]

/-- The object of a write is an entry of its branch with its mutations. -/
lemma Write.entry {w : Write} {batch : List Bytes} (h : w.records E = some batch)
    (hne : batch ≠ []) (hv : Valid w.branch)
    (hl : ∀ r ∈ batch, r.length ≤ DefaultMaxRecordSize) :
    ∃ ms, w.mutations E = some ms ∧
      entryOf E.setup (LogStream.payload batch) = some (.mutations w.branch ms) := by
  obtain ⟨ms, hms, hbatch⟩ := Option.bind_eq_some_iff.mp h
  have hdec : batch.mapM E.setup.wal.unmarshal = some (ms.map .mutation) := by
    refine E.setup.wal.mapM_round_trip ?_
    rw [List.mapM_map]
    exact hbatch
  have hne' : ms ≠ [] := by
    rintro rfl
    exact hne (by simpa using hbatch.symm)
  refine ⟨ms, hms, ?_⟩
  rw [entryOf_of_records (LogStream.readObject_payload hl) hdec]
  exact entryOfRecords_of_mutations hv hne' (Write.mutations_branch hms)

end Entries

section Invariant
variable {E : Deployment} {s t : World}

/-- Call `c` of the log stores the mutations of write `w`. -/
structure Stores (E : Deployment) (log : LogStream.State) (c : ℕ) (w : Write) : Prop where
  entry : ∃ ms, w.mutations E = some ms ∧
    entryOf E.setup (LogStream.payload (log.calls c).batch) = some (.mutations w.branch ms)

/-- The log and the flushers. -/
structure Backed (E : Deployment) (s : World) : Prop where
  log : (LogStream.machine E.setup.scope.WALPrefix).Reachable s.log
  wal : s.sys.store.wal = s.log.objects.map LogStream.Obj.data
  sys : (Ingest.machine E.setup).Reachable s.sys
  unforked : ∀ b, s.sys.forked b = false
  writes : ∀ c, (s.log.calls c).pc ≠ .idle → ∃ w, s.writes c = some w ∧ Stores E s.log c w

lemma Backed.whole (h : Backed E s) {b : String} (hb : Valid b) :
    Whole E s.sys.store b (currentOf E s.sys.store b) := by
  have hw := wellformed_reachable h.sys
  obtain ⟨hlost, hbirth⟩ := hw.unforked (h.unforked b)
  have hm := (hw.flushed b hb hlost).manifest
  rwa [hbirth, Option.getD_none] at hm

/-- A step of the ingest side other than one of `Fork`. -/
lemma onward_of_step {u v : Sys} {a : Ingest.Action} (hr : (Ingest.machine E.setup).Reachable u)
    (h : Sys.step E.setup u a = some v) (hfork : ∀ k o, a ≠ .fork k o) :
    Onward E u.store v.store ∧ ∀ b, v.forked b = u.forked b := by
  have hi := inflight_reachable hr
  have hchange := Sys.step_change h hi
  have heff := hchange.effect hi
  refine ⟨⟨(hchange.inflight hi).1, fun b hb => ?_⟩, fun b => ?_⟩
  · cases hcell : u.store.manifests.cell (E.setup.scope.ManifestKey b) with
    | none =>
      rw [currentOf, Store.current_none hcell]
      exact List.nil_prefix
    | some p =>
      rcases (heff.branch hi hb).grows hi hcell with ⟨m', g', hcell', hgrow⟩ | ⟨k, o, act, -⟩
      · rw [currentOf, currentOf, Store.current_some hcell, Store.current_some hcell']
        exact hgrow.segments
      · exact absurd act (hfork k o)
  · rcases heff.forked_cases b with hsame | ⟨-, k, o, act⟩
    · exact hsame
    · exact absurd act (hfork k o)

lemma backed_ingest (h : Backed E s) {a : Ingest.Action} (hfork : ∀ k o, a ≠ .fork k o)
    (hwal : ∀ u, Sys.step E.setup s.sys a = some u → u.store.wal = s.sys.store.wal)
    (hst : s.ingest E a = some t) :
    Backed E t ∧ Onward E s.sys.store t.sys.store ∧ t.loaders = s.loaders := by
  obtain ⟨u, hu, rfl⟩ := Option.map_eq_some_iff.mp hst
  obtain ⟨ho, hforked⟩ := onward_of_step h.sys hu hfork
  refine ⟨⟨h.log, (hwal u hu).trans h.wal, h.sys.snoc trivial hu, ?_, h.writes⟩, ho, rfl⟩
  exact fun b => (hforked b).trans (h.unforked b)

lemma flush_wal {u v : Sys} {i : ℕ} {o : Ingest.Outcome}
    (hr : (Ingest.machine E.setup).Reachable u) (h : Sys.step E.setup u (.flush i o) = some v) :
    v.store.wal = u.store.wal := by
  cases Sys.step_change h (inflight_reachable hr) with
  | flush i o f st move =>
    rcases move.write with rfl | hw
    · rfl
    · generalize (u.flushers i).pc = pc at hw
      cases hw with
      | segment j => exact (putSegment_other ..).1
      | manifest | catalog => rfl

section Log
variable {log l : LogStream.State} {pfx : Bytes} {c : ℕ}

/-- The log grows by the object of a call that has started. -/
lemma effect_objects (h : LogStream.Effect pfx log c l) :
    l.objects.map LogStream.Obj.data = log.objects.map LogStream.Obj.data ∨
      (log.calls c).pc ≠ .idle ∧ l.objects.map LogStream.Obj.data =
        log.objects.map LogStream.Obj.data ++ [LogStream.payload (log.calls c).batch] := by
  cases h with
  | start | move | learn => exact .inl rfl
  | create seq pc busy =>
    refine .inr ⟨LogStream.Pc.ne_idle_of_active busy, ?_⟩
    simp [LogStream.State.commit, LogStream.State.goto]

lemma stepCall_busy {o : LogStream.Outcome} (h : LogStream.stepCall pfx log c o = some l) :
    (log.calls c).pc ≠ .idle := by
  intro hidle
  simp [LogStream.stepCall, hidle] at h

lemma Stores.later {d : ℕ} {w : Write} (h : Stores E log d w) (he : LogStream.Effect pfx log c l)
    (hd : (log.calls d).pc ≠ .idle) : Stores E l d w := by
  refine ⟨?_⟩
  rw [he.batch hd]
  exact h.entry

/-- A step of the log is nothing or an append for the flushers. -/
lemma backed_log (h : Backed E s) {a : LogStream.Action} {f : ℕ → Option Write}
    (hst : LogStream.step E.setup.scope.WALPrefix s.log a = some l)
    (he : LogStream.Effect E.setup.scope.WALPrefix s.log c l)
    (hf : ∀ d, (l.calls d).pc ≠ .idle → ∃ w, f d = some w ∧ Stores E l d w) :
    Backed E { s.setLog l with writes := f } ∧
      Onward E s.sys.store (s.setLog l).sys.store := by
  have hsys : (s.setLog l).sys = s.sys ∨ ∃ entry,
      Sys.step E.setup s.sys (.append entry) = some (s.setLog l).sys := by
    rcases effect_objects he with hsame | ⟨hbusy, hgrow⟩
    · refine .inl ?_
      rw [World.setLog, hsame, ← h.wal]
    · refine .inr ⟨LogStream.payload (s.log.calls c).batch, ?_⟩
      obtain ⟨w, -, ⟨ms, -, hentry⟩⟩ := h.writes c hbusy
      rw [World.setLog, hgrow, ← h.wal, Sys.step, hentry]
      rfl
  have hlog : (LogStream.machine E.setup.scope.WALPrefix).Reachable l := h.log.snoc trivial hst
  rcases hsys with hsame | ⟨entry, hstep⟩
  · refine ⟨⟨hlog, rfl, ?_, ?_, hf⟩, ?_⟩
    · exact hsame ▸ h.sys
    · exact hsame ▸ h.unforked
    · rw [hsame]
      exact .refl E _
  · obtain ⟨ho, hforked⟩ := onward_of_step h.sys hstep (by simp)
    have hnext : (Ingest.machine E.setup).Reachable (s.setLog l).sys :=
      Machine.Run.snoc (a := .append entry) h.sys trivial hstep
    refine ⟨⟨hlog, rfl, hnext, fun b => ?_, hf⟩, ho⟩
    exact (hforked b).trans (h.unforked b)

/-- A step of a call that has started. -/
lemma backed_move (h : Backed E s) {a : LogStream.Action}
    (hst : LogStream.step E.setup.scope.WALPrefix s.log a = some l)
    (he : LogStream.Effect E.setup.scope.WALPrefix s.log c l)
    (hbusy : (s.log.calls c).pc ≠ .idle) :
    Backed E (s.setLog l) ∧ Onward E s.sys.store (s.setLog l).sys.store := by
  refine backed_log (f := s.writes) h hst he fun d hd => ?_
  have hold : (s.log.calls d).pc ≠ .idle := by
    by_cases hdc : d = c
    · rwa [hdc]
    · rwa [he.other_call hdc] at hd
  obtain ⟨w, hw, hstores⟩ := h.writes d hold
  exact ⟨w, hw, hstores.later he hold⟩

end Log

/-- A new call stores its write once it has started. -/
lemma backed_write (h : Backed E s) {c log : ℕ} {w : Write} {batch : List Bytes}
    {l : LogStream.State} (hrec : w.records E = some batch) (hne : batch ≠ [])
    (hv : Valid w.branch) (hlim : ∀ r ∈ batch, r.length ≤ DefaultMaxRecordSize)
    (hst : LogStream.step E.setup.scope.WALPrefix s.log (.call c log batch) = some l) :
    Backed E { s.setLog l with writes := Function.update s.writes c (some w) } ∧
      Onward E s.sys.store (s.setLog l).sys.store := by
  have hcall : (s.log.calls c).pc = .idle ∧
      l = { s.log with
        calls := Function.update s.log.calls c ⟨log, batch, LogStream.appendStart batch⟩ } := by
    simp only [LogStream.step, Option.ite_none_right_eq_some, Option.some.injEq] at hst
    exact ⟨hst.1, hst.2.symm⟩
  obtain ⟨hidle, rfl⟩ := hcall
  have he : LogStream.Effect E.setup.scope.WALPrefix s.log c _ := .start log batch hidle
  refine backed_log h hst he fun d hd => ?_
  by_cases hdc : d = c
  · subst hdc
    refine ⟨w, Function.update_self .., ⟨?_⟩⟩
    simpa using Write.entry hrec hne hv hlim
  · rw [he.other_call hdc] at hd
    obtain ⟨w', hw', hstores⟩ := h.writes d hd
    exact ⟨w', by simpa [hdc] using hw', hstores.later he hd⟩

/-- The invariant of the whole namespace. -/
structure World.Ok (E : Deployment) (s : World) : Prop where
  backed : Backed E s
  loaders : ∀ j, (s.loaders j).Ok E s.sys.store (E.branch j)

lemma World.Ok.onward (h : s.Ok E) (hb : Backed E t) (ho : Onward E s.sys.store t.sys.store)
    (hl : t.loaders = s.loaders) : t.Ok E := by
  refine ⟨hb, fun j => ?_⟩
  rw [hl]
  exact (h.loaders j).later (E.branch_valid j) ho (h.backed.whole (E.branch_valid j))

lemma World.Ok.setLoader (h : s.Ok E) {j : ℕ} {l : LoaderState}
    (hl : l.Ok E s.sys.store (E.branch j)) : (s.setLoader j l).Ok E := by
  have hb := h.backed
  refine ⟨⟨hb.log, hb.wal, hb.sys, hb.unforked, hb.writes⟩, fun j' => ?_⟩
  by_cases hj : j' = j
  · subst hj
    simpa [World.setLoader] using hl
  · simpa [World.setLoader, hj] using h.loaders j'

theorem World.Ok.step (h : s.Ok E) {a : Action} (ha : admitted E s a)
    (hst : World.step E s a = some t) : t.Ok E := by
  have hb := h.backed
  have hi := LogStream.inv_reachable hb.log
  cases a with
  | write c log w =>
    simp only [World.step] at hst
    split at hst
    · cases hst
      exact h
    · cases hst
      exact h
    · rename_i r rs hrec
      obtain ⟨l, hl, rfl⟩ := Option.map_eq_some_iff.mp hst
      obtain ⟨hb', ho⟩ := backed_write hb hrec (by simp) ha.2 (ha.1 _ hrec) hl
      exact h.onward hb' ho rfl
  | append c o =>
    obtain ⟨l, hl, rfl⟩ := Option.map_eq_some_iff.mp hst
    obtain ⟨hb', ho⟩ := backed_move hb hl (LogStream.stepCall_effect hi hl) (stepCall_busy hl)
    exact h.onward hb' ho rfl
  | stop c =>
    obtain ⟨l, hl, rfl⟩ := Option.map_eq_some_iff.mp hst
    obtain ⟨hact, hgone⟩ : (s.log.calls c).pc.active = true ∧ s.log.goto c .failed = l := by
      simpa [LogStream.step] using hl
    subst hgone
    obtain ⟨hb', ho⟩ := backed_move hb hl (.move .failed hact (by simp) trivial)
      (LogStream.Pc.ne_idle_of_active hact)
    exact h.onward hb' ho rfl
  | start i =>
    have hwal : ∀ u, Sys.step E.setup s.sys (.start i) = some u →
        u.store.wal = s.sys.store.wal := by
      intro u hu
      simp only [Sys.step, Option.ite_none_right_eq_some, Option.some.injEq] at hu
      rw [← hu.2]
    obtain ⟨hb', ho, hl⟩ := backed_ingest hb (by simp) hwal hst
    exact h.onward hb' ho hl
  | flush i o =>
    obtain ⟨hb', ho, hl⟩ := backed_ingest hb (by simp) (fun u hu => flush_wal hb.sys hu) hst
    exact h.onward hb' ho hl
  | crash i =>
    have hwal : ∀ u, Sys.step E.setup s.sys (.crash i) = some u →
        u.store.wal = s.sys.store.wal := by
      rintro u ⟨⟩
      rfl
    obtain ⟨hb', ho, hl⟩ := backed_ingest hb (by simp) hwal hst
    exact h.onward hb' ho hl
  | readManifest j ok =>
    obtain ⟨l, hl, rfl⟩ := Option.map_eq_some_iff.mp hst
    exact h.setLoader (readManifest_ok hl (h.loaders j)
      (inflight_reachable hb.sys).store.manifests (hb.whole (E.branch_valid j)))
  | lock j =>
    obtain ⟨l, hl, rfl⟩ := Option.map_eq_some_iff.mp hst
    exact h.setLoader (lock_ok hl (h.loaders j))
  | load j fault =>
    obtain ⟨l, hl, rfl⟩ := Option.map_eq_some_iff.mp hst
    exact h.setLoader (load_ok hl (h.loaders j))
  | publish j =>
    obtain ⟨l, hl, rfl⟩ := Option.map_eq_some_iff.mp hst
    exact h.setLoader (publish_ok hl (h.loaders j))

lemma world_init_ok : (world E).init.Ok E := by
  refine ⟨⟨.refl _, rfl, .refl _, fun _ => rfl, fun c hc => absurd rfl hc⟩, fun j => ?_⟩
  refine ⟨⟨⟨[], Nat.zero_le _, ⟨View.empty, View.empty, ⟨[], rfl, rfl⟩, rfl, ?_⟩, .inl rfl⟩,
    .inl rfl⟩, trivial⟩
  exact newTable_represents E.kernels

theorem world_ok (h : (world E).Run (admitted E) (world E).init s) : s.Ok E :=
  Machine.Run.preserves (fun _ _ _ hs ha hst => hs.step ha hst) h world_init_ok

end Invariant

section Result
variable {E : Deployment} {s : World}

/-- The segments of a manifest hold the mutations of the entries. -/
lemma contents_entries {st : Store} {es : List (ℕ × List DocumentMutation)}
    (h : ∀ e ∈ es, ∃ data, st.segments (refOf E.setup e.2).segmentId = some data ∧
      readSegment E.setup.mutation.unmarshal data = some e.2) :
    contents E.decoder st.segments (es.map fun e => refOf E.setup e.2) =
      some (es.map Prod.snd).flatten := by
  induction es with
  | nil => rfl
  | cons e es ih =>
    obtain ⟨data, hdata, hread⟩ := h e List.mem_cons_self
    have hrest := ih fun e' he' => h e' (List.mem_cons_of_mem _ he')
    rw [List.map_cons, contents, hdata, hrest]
    simp [Deployment.decoder, hread]

/-- The entry of an acknowledged write holds its mutations. -/
lemma returned_entry (h : Backed E s) (hlen : s.log.objects.length < 2 ^ 64 - 1) {c seq : ℕ}
    (hc : (s.log.calls c).pc = .returned seq) :
    ∃ w ms, s.writes c = some w ∧ w.mutations E = some ms ∧
      mutationsAt E.setup (s.log.objects.map LogStream.Obj.data) w.branch seq = some ms := by
  have hi := LogStream.inv_reachable h.log
  obtain ⟨i, hlt, hwriter, rfl⟩ := hi.toContiguous.owner_index hlen (hi.owns_returned hc)
  obtain ⟨w, hw, ⟨ms, hms, hentry⟩⟩ := h.writes c (by simp [hc])
  have hdata := (LogStream.authored_reachable h.log _ (List.getElem_mem hlt)).2
  rw [hwriter] at hdata
  refine ⟨w, ms, hw, hms, mutationsAt_some.mpr ⟨by omega, _, ?_, hentry⟩⟩
  simp [List.getElem?_eq_getElem hlt, hdata]

/-- Whenever a call of `Sync` for a branch has returned nil after it read manifest
`m`, the published table cannot be told apart from a fresh one on which the
mutations of the branch in the log entries up to the checkpoint of `m` were applied
once each, in order. Every acknowledged write is such an entry of its branch. -/
theorem sync_shows_log (E : Deployment) (s : World)
    (h : (world E).Run (admitted E) (world E).init s) (j : ℕ) (m : BranchManifest)
    (hret : (s.loaders j).pc = .returned (some m) none) :
    m.checkpointSeq ≤ s.log.objects.length ∧
    (∃ T, (NewTable E.kernels).applyAll E.arith E.decoder
        ((entriesOf E.setup (s.log.objects.map LogStream.Obj.data) (E.branch j)
          m.checkpointSeq).map Prod.snd).flatten = .ok T ∧
      ObsEq E.arith (s.loaders j).loader.table T) ∧
    (s.log.objects.length < 2 ^ 64 - 1 → ∀ c seq, (s.log.calls c).pc = .returned seq →
      ∃ w ms, s.writes c = some w ∧ w.mutations E = some ms ∧
        mutationsAt E.setup (s.log.objects.map LogStream.Obj.data) w.branch seq = some ms) := by
  have hok := world_ok h
  have hwal := hok.backed.wal
  have hpc := (hok.loaders j).pc
  rw [hret] at hpc
  obtain ⟨hwhole, hshows⟩ : Synced E s.sys.store (E.branch j) (s.loaders j).loader m := hpc
  have hsegs : m.segments = (entriesOf E.setup s.sys.store.wal (E.branch j)
      m.checkpointSeq).map fun e => refOf E.setup e.2 := hwhole.segments
  obtain ⟨ms, T, hms, hT, hobs⟩ := hshows
  rw [hsegs, contents_entries hwhole.readable, hwal] at hms
  cases hms
  refine ⟨?_, ⟨T, hT, hobs⟩, fun hlen c seq hc => returned_entry hok.backed hlen hc⟩
  have hbound := hwhole.bound
  rwa [hwal, List.length_map] at hbound

end Result

section Demo

/-- One record can be written, and all loaders serve "main". -/
def demoDeployment (S : Setup) : Deployment where
  setup := S
  arith := demoArith
  kernels := demoKernels
  marshalRecord r :=
    if r.Id = "a" ∧ r.Vectors.entries = [] ∧ r.Attributes.entries = [] then some [7] else none
  unmarshalRecord b := if b = [7] then some ⟨"a", ∅, ∅⟩ else none
  record_round_trip r b h := by
    obtain ⟨⟨hid, hvec, hattr⟩, hb⟩ := Option.ite_none_right_eq_some.mp h
    cases hb
    have hv : r.Vectors = ∅ := AList.ext hvec
    have ha : r.Attributes = ∅ := AList.ext hattr
    rw [if_pos rfl, ← hid, ← hv, ← ha]
  record_noNil b r h := by
    obtain ⟨-, hr⟩ := Option.ite_none_right_eq_some.mp h
    cases hr
    exact ⟨by simp, by simp [NoNil]⟩
  token gen := String.ofList (List.replicate (gen + 1) 'g')
  token_injective m n h := by
    have hlen := congrArg List.length (String.ofList_injective h)
    simpa using hlen
  token_ne gen h := by
    have hlen := congrArg String.length h
    simp at hlen
  branch _ := "main"
  branch_valid _ := by decide +kernel

def firstWrite (w : Write) : List Action :=
  [.write 0 0 w, .append 0 .local, .append 0 (.listed []), .append 0 .local, .append 0 .local,
    .append 0 .putOk, .append 0 .local, .append 0 .local]

def secondWrite (w : Write) : List Action :=
  [.write 1 0 w, .append 1 .local, .append 1 .local, .append 1 .putOk, .append 1 .local,
    .append 1 .local]

def flushCalls (i n : ℕ) : List Action := List.replicate n (.flush i .ok)

def syncCall (j : ℕ) : List Action := [.readManifest j true, .lock j, .load j .none, .publish j]

-- The first flusher crashes after its manifest write, the loader fails on its first call,
-- and a second flusher goes on.
def demoScript : List Action :=
  firstWrite (.Upsert "main" [⟨"a", ∅, ∅⟩]) ++ secondWrite (.Delete "dev" ["a"]) ++ [.start 0] ++
    flushCalls 0 6 ++ [.crash 0, .readManifest 0 true, .lock 0, .load 0 .get, .start 1] ++
    flushCalls 1 12 ++ syncCall 0

/-- The call has returned nil for a manifest with this checkpoint. -/
def LoaderPc.syncedAt (n : ℕ) : LoaderPc → Bool
  | .returned (some m) none => m.checkpointSeq == n
  | _ => false

lemma LoaderPc.syncedAt_iff {n : ℕ} {pc : LoaderPc} (h : pc.syncedAt n = true) :
    ∃ m, pc = .returned (some m) none ∧ m.checkpointSeq = n := by
  unfold LoaderPc.syncedAt at h
  split at h
  · rename_i m
    exact ⟨m, rfl, by simpa using h⟩
  · cases h

set_option maxRecDepth 8000 in
theorem sync_shows_log_demo : ∃ s m T,
    (world (demoDeployment demoSetup)).Run (admitted (demoDeployment demoSetup))
      (world (demoDeployment demoSetup)).init s ∧
    (s.loaders 0).pc = .returned (some m) none ∧ m.checkpointSeq = 1 ∧
    s.log.objects.length = 2 ∧
    (NewTable demoKernels).applyAll demoArith (demoDeployment demoSetup).decoder [demoMain] =
      .ok T ∧ ObsEq demoArith (s.loaders 0).loader.table T := by
  obtain ⟨s, hrun, hpc, hlen, hents⟩ := (world (demoDeployment demoSetup)).exec_exists
    (admitted (demoDeployment demoSetup)) (world (demoDeployment demoSetup)).init demoScript
    (fun s => (s.loaders 0).pc.syncedAt 1 = true ∧ s.log.objects.length = 2 ∧
      entriesOf demoSetup (s.log.objects.map LogStream.Obj.data) "main" 1 = [(1, [demoMain])])
    (by decide +kernel)
  obtain ⟨m, hm, hseq⟩ := LoaderPc.syncedAt_iff hpc
  obtain ⟨-, ⟨T, hT, hobs⟩, -⟩ := sync_shows_log (demoDeployment demoSetup) s hrun 0 m hm
  refine ⟨s, m, T, hrun, hm, hseq, hlen, ?_, hobs⟩
  rw [hseq] at hT
  have hmuts : ((entriesOf demoSetup (s.log.objects.map LogStream.Obj.data) "main" 1).map
      Prod.snd).flatten = [demoMain] := by rw [hents]; rfl
  rw [← hmuts]
  exact hT

set_option maxRecDepth 8000 in
/-- Without the check of branch names a write to "/main" appears in "main". -/
theorem sync_shows_slash_branch : ∃ s m,
    (world (demoDeployment slashSetup)).Run (withinLimit (demoDeployment slashSetup))
      (world (demoDeployment slashSetup)).init s ∧
    (s.loaders 0).pc = .returned (some m) none ∧
    (s.writes 0).map Write.branch = some "/main" ∧ s.log.objects.length = 1 ∧
    ¬ ∃ T, (NewTable demoKernels).applyAll demoArith (demoDeployment slashSetup).decoder
        ((entriesOf slashSetup (s.log.objects.map LogStream.Obj.data) "main"
          m.checkpointSeq).map Prod.snd).flatten = .ok T ∧
      ObsEq demoArith (s.loaders 0).loader.table T := by
  obtain ⟨s, hrun, hpc, hw, hlen, hents, hget⟩ := (world (demoDeployment slashSetup)).exec_exists
    (withinLimit (demoDeployment slashSetup)) (world (demoDeployment slashSetup)).init
    (firstWrite (.Upsert "/main" [⟨"a", ∅, ∅⟩]) ++ [.start 0] ++ flushCalls 0 6 ++ syncCall 0)
    (fun s => (s.loaders 0).pc.syncedAt 1 = true ∧
      (s.writes 0).map Write.branch = some "/main" ∧ s.log.objects.length = 1 ∧
      entriesOf slashSetup (s.log.objects.map LogStream.Obj.data) "main" 1 = [] ∧
      ((s.loaders 0).loader.table.Get "a").isSome = true)
    (by decide +kernel)
  obtain ⟨m, hm, hseq⟩ := LoaderPc.syncedAt_iff hpc
  refine ⟨s, m, hrun, hm, hw, hlen, fun ⟨T, hT, hobs⟩ => ?_⟩
  rw [hseq, hents] at hT
  cases hT
  have hnone : ((s.loaders 0).loader.table.Get "a") = none := hobs.1 "a"
  rw [hnone] at hget
  cases hget

end Demo

end CloudyNeigh.EndToEnd
