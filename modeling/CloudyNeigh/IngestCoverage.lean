import CloudyNeigh.IngestLedger

/-!
# Every entry is materialised exactly once

For one branch: a checkpoint anywhere in the system is at most the position up to
which the entries of the branch are in its manifest, and the manifest is the list
of these entries, behind the copy it may have started from.
-/
namespace CloudyNeigh.Ingest
open RecordIO Storage LogStream Naming SlashPath Transition Versioned

variable {S : Setup} {s t : Sys} {a : Action}

section Entries

/-- The entries of a branch up to `n`, in ascending order. -/
def entriesOf (S : Setup) (wal : List Bytes) (b : String) (n : ℕ) :
    List (ℕ × List DocumentMutation) :=
  (List.range (n + 1)).filterMap fun seq => (mutationsAt S wal b seq).map fun ms => (seq, ms)

/-- The reference to the segment of an entry. -/
def refOf (S : Setup) (ms : List DocumentMutation) : SegmentRef :=
  segmentRef S ms ((segmentData S ms).getD [])

variable {wal wal' : List Bytes} {b : String}

lemma mutationsAt_zero : mutationsAt S wal b 0 = none := by simp [mutationsAt]

lemma mutationsAt_absorb (h : wal <+: wal') {seq : ℕ} (hseq : seq ≤ wal.length) :
    mutationsAt S wal' b seq = mutationsAt S wal b seq := by
  have he := entryAt_absorb (S := S) h hseq
  cases hm : mutationsAt S wal b seq with
  | some ms => rw [mutationsAt_eq, he, ← mutationsAt_eq, hm]
  | none =>
    cases hm' : mutationsAt S wal' b seq with
    | none => rfl
    | some ms => rw [mutationsAt_eq, he, ← mutationsAt_eq, hm] at hm'; cases hm'

lemma mutationsAt_le {seq : ℕ} (h : mutationsAt S wal b seq ≠ none) :
    0 < seq ∧ seq ≤ wal.length := by
  obtain ⟨ms, hms⟩ := Option.ne_none_iff_exists'.mp h
  exact entryAt_le (mutationsAt_eq.mp hms)

/-- One entry holds mutations of one branch. -/
lemma mutationsAt_branch {b' : String} {seq : ℕ} {ms : List DocumentMutation}
    (h : mutationsAt S wal b seq = some ms) (h' : mutationsAt S wal b' seq ≠ none) : b' = b := by
  obtain ⟨ms', hms'⟩ := Option.ne_none_iff_exists'.mp h'
  rw [mutationsAt_eq] at h hms'
  rw [h] at hms'
  cases hms'
  rfl

lemma mem_entriesOf {n : ℕ} {e : ℕ × List DocumentMutation} :
    e ∈ entriesOf S wal b n ↔ e.1 ≤ n ∧ mutationsAt S wal b e.1 = some e.2 := by
  simp only [entriesOf, List.mem_filterMap, List.mem_range, Option.map_eq_some_iff]
  constructor
  · intro h
    obtain ⟨seq, hseq, ms, hms, rfl⟩ := h
    exact ⟨by omega, hms⟩
  · intro h
    exact ⟨e.1, by omega, e.2, h.2, rfl⟩

lemma entriesOf_absorb (h : wal <+: wal') {n : ℕ} (hn : n ≤ wal.length) :
    entriesOf S wal' b n = entriesOf S wal b n := by
  refine List.filterMap_congr fun seq hseq => ?_
  have hle : seq ≤ wal.length := by
    have := List.mem_range.mp hseq
    omega
  rw [mutationsAt_absorb h hle]

lemma entriesOf_succ (n : ℕ) : entriesOf S wal b (n + 1) =
    entriesOf S wal b n ++ ((mutationsAt S wal b (n + 1)).map fun ms => (n + 1, ms)).toList := by
  rw [entriesOf, List.range_succ, List.filterMap_append, entriesOf]
  cases h : mutationsAt S wal b (n + 1) <;> simp [h]

/-- Entries of other branches do not count. -/
lemma entriesOf_gap {n n' : ℕ} (hle : n ≤ n')
    (h : ∀ seq, n < seq → seq ≤ n' → mutationsAt S wal b seq = none) :
    entriesOf S wal b n' = entriesOf S wal b n := by
  induction n', hle using Nat.le_induction with
  | base => rfl
  | succ n' hle ih =>
    have hrest := ih fun seq hlt hseq => h seq hlt (by omega)
    rw [entriesOf_succ, h (n' + 1) (by omega) le_rfl, hrest]
    simp

lemma entriesOf_next {n seq : ℕ} {ms : List DocumentMutation} (hlt : n < seq)
    (hms : mutationsAt S wal b seq = some ms)
    (h : ∀ x, n < x → x < seq → mutationsAt S wal b x = none) :
    entriesOf S wal b seq = entriesOf S wal b n ++ [(seq, ms)] := by
  obtain ⟨p, rfl⟩ : ∃ p, seq = p + 1 := ⟨seq - 1, by omega⟩
  rw [entriesOf_succ, hms, entriesOf_gap (by omega) fun x hx hxp => h x hx (by omega)]
  simp

lemma entriesOf_eq_nil {n : ℕ} (h : ∀ seq ≤ n, mutationsAt S wal b seq = none) :
    entriesOf S wal b n = [] := by
  rw [List.eq_nil_iff_forall_not_mem]
  intro e he
  obtain ⟨hle, hms⟩ := mem_entriesOf.mp he
  rw [h e.1 hle] at hms
  cases hms

end Entries

/-- The manifest of `b` reflects every entry of `b` up to `c`. -/
structure Covered (S : Setup) (st : Store) (b : String) (c : ℕ) : Prop where
  bound : c ≤ st.wal.length
  reached : ∀ seq ≤ c, mutationsAt S st.wal b seq ≠ none →
    seq ≤ (st.current (S.scope.ManifestKey b)).checkpointSeq

/-- Manifest `m` holds, behind the copy `base` it started from, one segment per
entry of `b` up to its checkpoint. -/
structure Materialised (S : Setup) (st : Store) (b : String) (base m : BranchManifest) :
    Prop where
  le : base.checkpointSeq ≤ m.checkpointSeq
  bound : m.checkpointSeq ≤ st.wal.length
  early : ∀ seq ≤ base.checkpointSeq, mutationsAt S st.wal b seq = none
  segments : m.segments =
    base.segments ++ (entriesOf S st.wal b m.checkpointSeq).map fun e => refOf S e.2
  last : m = base ∨ mutationsAt S st.wal b m.checkpointSeq ≠ none
  stored : ∀ e ∈ entriesOf S st.wal b m.checkpointSeq, ∃ data, segmentData S e.2 = some data ∧
    st.segments (S.hash data) = some data

/-- The invariant of one branch. -/
structure Flushed (S : Setup) (s : Sys) (b : String) : Prop where
  covered : ∀ who c, s.Carries S who c → Covered S s.store b c
  manifest : Materialised S s.store b ((s.birth b).getD emptyManifest)
    (s.store.current (S.scope.ManifestKey b))
  absent : s.store.manifests.cell (S.scope.ManifestKey b) = none → s.birth b = none
  started : ∀ m gen, s.store.manifests.cell (S.scope.ManifestKey b) = some (m, gen) →
    s.birth b = none → mutationsAt S s.store.wal b m.checkpointSeq ≠ none

section Preserve
variable {b : String} {c c' : ℕ} {st st' : Store} {base m : BranchManifest}

lemma Covered.mono (h : Covered S st b c') (hle : c ≤ c') : Covered S st b c :=
  ⟨hle.trans h.bound, fun seq hseq => h.reached seq (hseq.trans hle)⟩

lemma Covered.zero : Covered S st b 0 := by
  refine ⟨Nat.zero_le _, fun seq hseq hms => ?_⟩
  have hpos := (mutationsAt_le hms).1
  omega

/-- A covered position stays covered as long as no covered entry gets lost. -/
lemma Covered.later (h : Covered S st b c) (he : st.Evolves st')
    (hkeep : ∀ seq, mutationsAt S st.wal b seq ≠ none →
      seq ≤ (st.current (S.scope.ManifestKey b)).checkpointSeq →
      seq ≤ (st'.current (S.scope.ManifestKey b)).checkpointSeq) : Covered S st' b c := by
  refine ⟨h.bound.trans he.wal.length_le, fun seq hseq hms => ?_⟩
  rw [mutationsAt_absorb he.wal (hseq.trans h.bound)] at hms
  exact hkeep seq hms (h.reached seq hseq hms)

/-- One entry further. -/
lemma Covered.next {seq : ℕ} (h : Covered S st b (seq - 1)) (hbound : seq ≤ st.wal.length)
    (hseq : mutationsAt S st.wal b seq ≠ none →
      seq ≤ (st.current (S.scope.ManifestKey b)).checkpointSeq) : Covered S st b seq := by
  refine ⟨hbound, fun x hx hms => ?_⟩
  by_cases hlt : x = seq
  · subst hlt
    exact hseq hms
  · exact h.reached x (by omega) hms

lemma Materialised.later (h : Materialised S st b base m) (he : st.Evolves st') :
    Materialised S st' b base m := by
  have hent : entriesOf S st'.wal b m.checkpointSeq = entriesOf S st.wal b m.checkpointSeq :=
    entriesOf_absorb he.wal h.bound
  refine ⟨h.le, h.bound.trans he.wal.length_le, fun seq hseq => ?_, ?_, ?_, ?_⟩
  · rw [mutationsAt_absorb he.wal ((hseq.trans h.le).trans h.bound)]
    exact h.early seq hseq
  · rw [hent]
    exact h.segments
  · rw [mutationsAt_absorb he.wal h.bound]
    exact h.last
  · intro e hmem
    obtain ⟨data, hdata, hseg⟩ := h.stored e (hent ▸ hmem)
    exact ⟨data, hdata, he.segments _ _ hseg⟩

/-- A manifest that has nothing but what it started from. -/
lemma Materialised.pristine (hbound : m.checkpointSeq ≤ st.wal.length)
    (hearly : ∀ seq ≤ m.checkpointSeq, mutationsAt S st.wal b seq = none) :
    Materialised S st b m m := by
  have hnil := entriesOf_eq_nil hearly
  exact ⟨le_rfl, hbound, hearly, by simp [hnil], .inl rfl, by simp [hnil]⟩

lemma Materialised.empty : Materialised S st b emptyManifest emptyManifest := by
  refine .pristine (Nat.zero_le _) fun seq hseq => ?_
  have h0 : seq = 0 := Nat.le_zero.mp hseq
  rw [h0, mutationsAt_zero]

/-- The manifest that a flusher writes: the entries in between belong to other
branches, because everything before the job is covered. -/
lemma Materialised.flush {j : Job} (h : Materialised S st b base m) (hb : j.branch = b)
    (hjob : j.Ok S st.wal) (hseg : st.segments j.ref.segmentId = some j.data)
    (hlt : m.checkpointSeq < j.seq)
    (hcov : ∀ seq ≤ j.seq - 1, mutationsAt S st.wal b seq ≠ none → seq ≤ m.checkpointSeq) :
    Materialised S st b base (flushed m j) := by
  obtain ⟨ms, hms, hdata, href⟩ := hjob
  rw [hb] at hms
  have hbound := (mutationsAt_le (by rw [hms]; simp) : 0 < j.seq ∧ _).2
  have hent : entriesOf S st.wal b j.seq =
      entriesOf S st.wal b m.checkpointSeq ++ [(j.seq, ms)] := by
    refine entriesOf_next hlt hms fun x hx hxj => ?_
    by_contra hne
    have := hcov x (by omega) hne
    omega
  have hrefOf : refOf S ms = j.ref := by simp [refOf, hdata, href]
  refine ⟨h.le.trans hlt.le, hbound, h.early, ?_, .inr ?_, ?_⟩
  · simp only [flushed, hent, h.segments, List.map_append, List.map_cons, List.map_nil, hrefOf,
      List.append_assoc]
  · simp [flushed, hms]
  · intro e he
    simp only [flushed, hent, List.mem_append, List.mem_singleton] at he
    rcases he with he | rfl
    · exact h.stored e he
    · refine ⟨j.data, hdata, ?_⟩
      rwa [href, segmentRef] at hseg

end Preserve

section Step
variable {b : String} (hi : Inflight S s) (hl : Ledger S s) (hf : Flushed S s b)
  (he : s.store.Evolves t.store) (heff : BranchEffect S s a t b) (hlost : t.lost b = false)

lemma Store.current_congr {st st' : Store} {key : Path}
    (h : st'.manifests.cell key = st.manifests.cell key) : st'.current key = st.current key := by
  simp [Store.current, h]

include hi hl hf heff hlost in
/-- No step takes an entry out of the manifest, unless a rollback deletes what
others have written. -/
lemma Flushed.keep (seq : ℕ) (hms : mutationsAt S s.store.wal b seq ≠ none)
    (hle : seq ≤ (s.store.current (S.scope.ManifestKey b)).checkpointSeq) :
    seq ≤ (t.store.current (S.scope.ManifestKey b)).checkpointSeq := by
  cases heff with
  | same cell birth => rwa [Store.current_congr cell]
  | flush i j gen branch pc cell birth =>
    have hok := hi.flushers i
    rw [pc] at hok
    rw [Store.current_some cell]
    exact hle.trans hok.2.2.2.2.le
  | copy k o m act target pc absent cell birth =>
    rw [Store.current_none absent] at hle
    have hpos := (mutationsAt_le hms).1
    have hzero : seq ≤ 0 := hle
    omega
  | delete k o m gen act commits target pc before cell birth lost =>
    -- the deleted manifest is the untouched copy, which has no entry of the branch
    have hown : (s.forks k).written = some gen := by
      by_contra hne
      rw [lost hne] at hlost
      cases hlost
    have hbirth : s.birth b = some m := by
      have := hl.own k gen m hown (by rw [target]; exact before)
      rwa [target] at this
    have hearly := hf.manifest.early seq
    rw [hbirth, Option.getD_some] at hearly
    rw [Store.current_some before] at hle
    exact absurd (hearly hle) hms

include hi hl hf he heff hlost in
lemma Flushed.step_covered (ho : ∀ who c, t.Carries S who c → Sys.Origin S s a t who c)
    (who : Option Path) (c : ℕ) (hc : t.Carries S who c) : Covered S t.store b c := by
  have hlater : ∀ c, Covered S s.store b c → Covered S t.store b c :=
    fun c h => h.later he (hf.keep hi hl heff hlost)
  have hold : ∀ who c, s.Carries S who c → Covered S t.store b c :=
    fun who c h => hlater c (hf.covered who c h)
  cases ho who c hc with
  | old who c c' h le => exact (hold who c' h).mono le
  | zero => exact .zero
  | found i o b' todo min m gen c act pc cell le =>
    exact (hold _ _ (.manifest _ m gen cell)).mono le
  | passed seq e pos entry skip =>
    refine (hold _ _ pos).next ((entryAt_le entry).2.trans he.wal.length_le) fun hms => ?_
    have hent := entryAt_mono he.wal entry
    obtain ⟨ms, hms'⟩ := Option.ne_none_iff_exists'.mp hms
    rw [mutationsAt_eq, hent] at hms'
    obtain ⟨c', hc', hle⟩ := skip b ms (Option.some.inj hms')
    exact (hold _ _ hc').reached c hle hms
  | written j m gen pos job cell =>
    obtain ⟨ms, hms, -, -⟩ := job.mono he.wal
    have hjob : mutationsAt S t.store.wal j.branch j.seq ≠ none := by simp [hms]
    refine (hold _ _ pos).next (mutationsAt_le hjob).2 fun hb => ?_
    have hbranch : b = j.branch := mutationsAt_branch hms hb
    rw [hbranch, Store.current_some cell, flushed]
  | registered j c c' held le job mem => exact (hold _ _ held).mono le
  | copied k o m act pc => exact hold _ _ (.copy k m (.inr pc))

include hi hf he heff in
lemma Flushed.step_manifest : Materialised S t.store b ((t.birth b).getD emptyManifest)
    (t.store.current (S.scope.ManifestKey b)) := by
  cases heff with
  | same cell birth =>
    rw [birth, Store.current_congr cell]
    exact hf.manifest.later he
  | flush i j gen branch pc cell birth =>
    have hok := hi.flushers i
    have hcov := hf.covered none (j.seq - 1) (.flusher i _ _ (.position _ (by rw [pc]; rfl)))
    rw [pc] at hok
    obtain ⟨hjob, hseg, -, -, hlt⟩ := hok
    rw [birth, Store.current_some cell]
    exact (hf.manifest.flush branch hjob hseg hlt hcov.reached).later he
  | copy k o m act target pc absent cell birth =>
    have hcov := hf.covered _ _ (.copy k m (.inr pc))
    rw [birth, Store.current_some cell, Option.getD_some]
    refine Materialised.later (Materialised.pristine hcov.bound fun seq hseq => ?_) he
    by_contra hne
    have hzero := hcov.reached seq hseq hne
    rw [Store.current_none absent] at hzero
    have hpos := (mutationsAt_le hne).1
    have : seq ≤ 0 := hzero
    omega
  | delete k o m gen act commits target pc before cell birth lost =>
    rw [birth, Store.current_none cell]
    exact .empty

include hi hl hf he heff hlost in
theorem Flushed.step (ho : ∀ who c, t.Carries S who c → Sys.Origin S s a t who c) :
    Flushed S t b := by
  refine ⟨hf.step_covered hi hl he heff hlost ho, hf.step_manifest hi he heff, ?_, ?_⟩
  · intro habs
    cases heff with
    | same cell birth => exact birth.trans (hf.absent (cell ▸ habs))
    | flush i j gen branch pc cell birth => rw [cell] at habs; cases habs
    | copy k o m act target pc absent cell birth => rw [cell] at habs; cases habs
    | delete k o m gen act commits target pc before cell birth lost => exact birth
  · intro m gen hcell hbirth
    cases heff with
    | same cell birth =>
      rw [cell] at hcell
      have hms := hf.started m gen hcell (birth ▸ hbirth)
      have hle := (mutationsAt_le hms).2
      rwa [mutationsAt_absorb he.wal hle]
    | flush i j g branch pc cell birth =>
      have hok := hi.flushers i
      rw [pc] at hok
      rw [cell] at hcell
      cases hcell
      obtain ⟨ms, hms, -, -⟩ := hok.1.mono he.wal
      simp only [flushed]
      rw [← branch, hms]
      simp
    | copy k o m' act target pc absent cell birth => rw [birth] at hbirth; cases hbirth
    | delete k o m' g act commits target pc before cell birth lost => rw [cell] at hcell; cases hcell

end Step

/-- Everything that the later results need about a reachable state. -/
structure Wellformed (S : Setup) (s : Sys) : Prop where
  inflight : Inflight S s
  ledger : Ledger S s
  flushed : ∀ b, Valid b → s.lost b = false → Flushed S s b

theorem Wellformed.step (h : Wellformed S s) (hs : Sys.step S s a = some t) : Wellformed S t := by
  have hchange := Sys.step_change hs h.inflight
  have heff := hchange.effect h.inflight
  refine ⟨inflight_step h.inflight hs, ledger_step h.inflight h.ledger hs, fun b hb hlost => ?_⟩
  have hbefore : s.lost b = false := by
    by_contra hne
    have := heff.lost_mono (Bool.not_eq_false _ ▸ hne)
    rw [hlost] at this
    cases this
  exact (h.flushed b hb hbefore).step h.inflight h.ledger (hchange.inflight h.inflight).1
    (heff.branch h.inflight hb) hlost fun who c => hchange.origin h.inflight

lemma Wellformed.init : Wellformed S (machine S).init := by
  obtain ⟨hi, hl⟩ := ledger_reachable (S := S) (.refl _)
  refine ⟨hi, hl, fun b _ _ => ⟨fun who c hc => ?_, .empty, fun _ => rfl, ?_⟩⟩
  · cases hc with
    | manifest key m gen cell => cases cell
    | flusher i who c h =>
      cases h with
      | position c h => cases h
      | memory b c h => cases h
      | held key c h => cases h
    | copy k m pc => rcases pc with h | h <;> cases h
  · intro m gen hcell
    cases hcell

theorem wellformed_reachable (h : (machine S).Reachable s) : Wellformed S s :=
  h.invariant Wellformed.init fun _ _ _ hw (hs : Sys.step S _ _ = some _) => hw.step hs

/-- A branch that no `Fork` ever wrote has nothing but its own entries. -/
lemma Wellformed.unforked {b : String} (h : Wellformed S s) (hfork : s.forked b = false) :
    s.lost b = false ∧ s.birth b = none := by
  constructor
  · by_contra hne
    have := h.ledger.lost b (Bool.not_eq_false _ ▸ hne)
    rw [hfork] at this
    cases this
  · by_contra hne
    have := h.ledger.birth b hne
    rw [hfork] at this
    cases this

/-- The objects of the segments decode to the entries they were made for. -/
lemma Materialised.readable {st : Store} {b : String} {base m : BranchManifest}
    (h : Materialised S st b base m) :
    ∀ e ∈ entriesOf S st.wal b m.checkpointSeq, ∃ data,
      st.segments (refOf S e.2).segmentId = some data ∧
        readSegment S.mutation.unmarshal data = some e.2 := by
  intro e he
  obtain ⟨data, hdata, hseg⟩ := h.stored e he
  obtain ⟨-, hms⟩ := mem_entriesOf.mp he
  obtain ⟨-, raw, -, hentry⟩ := mutationsAt_some.mp hms
  refine ⟨data, ?_, readSegment_segmentData hentry hdata⟩
  simpa [refOf, hdata, segmentRef] using hseg

/-- In every reachable state the manifest of a branch that no `Fork` ever wrote
consists of one segment per entry of the branch up to the checkpoint, in the order
of the log; the checkpoint is the last of these entries, and every segment exists
and decodes to the mutations of its entry. -/
theorem materialised_exactly_once (S : Setup) (s : Sys) (h : (machine S).Reachable s)
    (b : String) (hb : Valid b) (hfork : s.forked b = false) (m : BranchManifest) (gen : ℕ)
    (hm : s.store.manifests.cell (S.scope.ManifestKey b) = some (m, gen)) :
    m.segments = (entriesOf S s.store.wal b m.checkpointSeq).map (fun e => refOf S e.2) ∧
      ((entriesOf S s.store.wal b m.checkpointSeq).getLast?.map Prod.fst =
        some m.checkpointSeq) ∧
      ∀ e ∈ entriesOf S s.store.wal b m.checkpointSeq, ∃ data,
        s.store.segments (refOf S e.2).segmentId = some data ∧
          readSegment S.mutation.unmarshal data = some e.2 := by
  have hw := wellformed_reachable h
  obtain ⟨hlost, hbirth⟩ := hw.unforked hfork
  have hf := hw.flushed b hb hlost
  have hmat := hf.manifest
  rw [hbirth, Store.current_some hm, Option.getD_none] at hmat
  refine ⟨by simpa [emptyManifest] using hmat.segments, ?_, hmat.readable⟩
  have hlast := hf.started m gen hm hbirth
  obtain ⟨ms, hms⟩ := Option.ne_none_iff_exists'.mp hlast
  obtain ⟨p, hp⟩ : ∃ p, m.checkpointSeq = p + 1 :=
    ⟨m.checkpointSeq - 1, by have := (mutationsAt_le hlast).1; omega⟩
  rw [hp] at hms ⊢
  simp [entriesOf_succ, hms]

section Demo

/-- A codec for the messages of a finite table. -/
def Codec.ofTable {α : Type} [DecidableEq α] (table : List (α × Bytes))
    (distinct : (table.map Prod.snd).Nodup) (short : ∀ p ∈ table, p.2.length < 2 ^ 63) :
    Codec α where
  marshal x := (table.find? fun p => p.1 = x).map Prod.snd
  unmarshal b := (table.find? fun p => p.2 = b).map Prod.fst
  round_trip x b h := by
    obtain ⟨p, hp, rfl⟩ := Option.map_eq_some_iff.mp h
    have hx : p.1 = x := by simpa using List.find?_some hp
    have hmem := List.mem_of_find?_eq_some hp
    cases hq : table.find? fun q => q.2 = p.2 with
    | none => simpa using List.find?_eq_none.mp hq p hmem
    | some q =>
      have hqp : q.2 = p.2 := by simpa using List.find?_some hq
      have heq : q = p :=
        List.inj_on_of_nodup_map distinct (List.mem_of_find?_eq_some hq) hmem hqp
      simp [heq, hx]
  length_lt x b h := by
    obtain ⟨p, hp, rfl⟩ := Option.map_eq_some_iff.mp h
    exact short p (List.mem_of_find?_eq_some hp)

/-- Between two tables the lengths are compared line by line. -/
lemma Codec.ofTable_le {records : List (WalRecord × Bytes)}
    {mutations : List (DocumentMutation × Bytes)}
    (hall : ∀ p ∈ records, ∀ q ∈ mutations, p.1 = .mutation q.1 → q.2.length ≤ p.2.length)
    {r b : Bytes} {m : DocumentMutation}
    (hr : (records.find? fun p => p.2 = r).map Prod.fst = some (.mutation m))
    (hb : (mutations.find? fun p => p.1 = m).map Prod.snd = some b) : b.length ≤ r.length := by
  obtain ⟨p, hp, hpm⟩ := Option.map_eq_some_iff.mp hr
  obtain ⟨q, hq, rfl⟩ := Option.map_eq_some_iff.mp hb
  have hpr : p.2 = r := by simpa using List.find?_some hp
  have hqm : q.1 = m := by simpa using List.find?_some hq
  rw [← hpr]
  exact hall p (List.mem_of_find?_eq_some hp) q (List.mem_of_find?_eq_some hq) (by rw [hpm, hqm])

def demoMain : DocumentMutation := ⟨"main", "a", .put, [7]⟩

def demoDev : DocumentMutation := ⟨"dev", "a", .delete, []⟩

def demoFork : BranchLifecycleEvent := ⟨.fork, "dev", "main"⟩

def demoMutations : List (DocumentMutation × Bytes) := [(demoMain, [1]), (demoDev, [2])]

def demoRecords : List (WalRecord × Bytes) :=
  [(.mutation demoMain, [1, 1]), (.mutation demoDev, [1, 2]), (.branchEvent demoFork, [2])]

/-- A namespace in which three messages can be written. -/
def demoSetup : Setup where
  scope := ⟨"docs"⟩
  wal := .ofTable demoRecords (by decide) (by decide)
  mutation := .ofTable demoMutations (by decide) (by decide)
  hash := id
  scope_valid := by decide +kernel
  hash_injective := Function.injective_id
  mutation_le _ _ _ hr hb := Codec.ofTable_le (by decide) hr hb

def demoMainEntry : Action := .append (payload [[1, 1]])

def demoDevEntry : Action := .append (payload [[1, 2]])

/-- The next `n` store calls of flusher `i` succeed. -/
def flushes (i n : ℕ) : List Action := List.replicate n (.flush i .ok)

-- Two flushers race on the first entry, the winner crashes before it has registered the branch.
def raceScript : List Action :=
  [demoMainEntry, demoDevEntry, .append (payload [[1, 1], [1, 1]]), .start 0, .start 1] ++
    flushes 0 5 ++ flushes 1 5 ++ flushes 0 1 ++ [.crash 0] ++ flushes 1 10 ++ [.start 0] ++
    flushes 0 12

set_option maxRecDepth 8000 in
theorem materialised_after_race :
    ∃ s m gen, (machine demoSetup).Reachable s ∧ s.forked "main" = false ∧
      s.store.manifests.cell (demoSetup.scope.ManifestKey "main") = some (m, gen) ∧
      m.checkpointSeq = 3 ∧ m.segments.length = 2 ∧
      m.segments = (entriesOf demoSetup s.store.wal "main" 3).map fun e => refOf demoSetup e.2 := by
  obtain ⟨s, hrun, hfork, hcell⟩ := (machine demoSetup).exec_exists anyStep
    (machine demoSetup).init raceScript
    (fun s => s.forked "main" = false ∧
      (s.store.manifests.cell (demoSetup.scope.ManifestKey "main")).any
        (fun p => p.1.checkpointSeq = 3 ∧ p.1.segments.length = 2) = true)
    (by decide +kernel)
  obtain ⟨p, hp, hprop⟩ := Option.any_eq_true .. |>.mp hcell
  obtain ⟨hseq, hlen⟩ := of_decide_eq_true hprop
  have hall := materialised_exactly_once demoSetup s hrun "main" (by decide +kernel) hfork p.1 p.2 hp
  exact ⟨s, p.1, p.2, hrun, hfork, hp, hseq, hlen, hseq ▸ hall.1⟩

/-- The entry holds mutations of one branch that has a name, be it a valid one or not. -/
def holdsOneBranch (S : Setup) (data : Bytes) : Bool :=
  match readObject (some data) with
  | .error _ => false
  | .ok records =>
    match (records.mapM S.wal.unmarshal).bind fun recs => recs.mapM asMutation with
    | some (m :: ms) => decide (m.branch ≠ "" ∧ ∀ m' ∈ ms, m'.branch = m.branch)
    | _ => false

/-- The system on a log with any branch names. The `Ingester` does not look at them. -/
def uncheckedMachine (S : Setup) : Machine Sys Action where
  init := {}
  step s
    | .append entry =>
      if holdsOneBranch S entry then some { s with store.wal := s.store.wal ++ [entry] } else none
    | a => Sys.step S s a

def slashMain : DocumentMutation := ⟨"/main", "a", .put, [7]⟩

/-- A namespace with a branch whose name starts with a slash. -/
def slashSetup : Setup where
  scope := ⟨"docs"⟩
  wal := .ofTable [(.mutation slashMain, [1, 1])] (by decide) (by decide)
  mutation := .ofTable [(slashMain, [1])] (by decide) (by decide)
  hash := id
  scope_valid := by decide +kernel
  hash_injective := Function.injective_id
  mutation_le _ _ _ hr hb := Codec.ofTable_le (by decide) hr hb

set_option maxRecDepth 8000 in
/-- `path.Join` gives "/main" the manifest of "main": the mutation of the one branch
becomes a segment of the other. -/
theorem slash_branch_in_main :
    ∃ s m gen, (uncheckedMachine slashSetup).Reachable s ∧ s.forked "main" = false ∧
      s.store.wal = [payload [[1, 1]]] ∧
      slashSetup.wal.unmarshal [1, 1] = some (.mutation slashMain) ∧
      s.store.manifests.cell (slashSetup.scope.ManifestKey "main") = some (m, gen) ∧
      m.segments = [refOf slashSetup [slashMain]] ∧
      entriesOf slashSetup s.store.wal "main" m.checkpointSeq = [] := by
  obtain ⟨s, hrun, hfork, hwal, hcell⟩ := (uncheckedMachine slashSetup).exec_exists anyStep
    (uncheckedMachine slashSetup).init ([.append (payload [[1, 1]]), .start 0] ++ flushes 0 6)
    (fun s => s.forked "main" = false ∧ s.store.wal = [payload [[1, 1]]] ∧
      (s.store.manifests.cell (slashSetup.scope.ManifestKey "main")).any
        (fun p => p.1.segments = [refOf slashSetup [slashMain]] ∧
          entriesOf slashSetup s.store.wal "main" p.1.checkpointSeq = []) = true)
    (by decide +kernel)
  obtain ⟨p, hp, hprop⟩ := Option.any_eq_true .. |>.mp hcell
  obtain ⟨hseg, hnil⟩ := of_decide_eq_true hprop
  exact ⟨s, p.1, p.2, hrun, hfork, hwal, rfl, hp, hseg, hnil⟩

end Demo

end CloudyNeigh.Ingest
