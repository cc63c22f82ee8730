import CloudyNeigh.IngestRollback

/-!
# Snapshots and isolation

A `Fork` that returns nil has copied a version of the manifest of its source. From
then on each of the two branches follows its own entries in the log.
-/
namespace CloudyNeigh.Ingest
open RecordIO Storage LogStream Naming SlashPath Transition Versioned

variable {S : Setup} {s t : Sys} {a : Action} {b : String}

section Advance

/-- The entries of a branch from after `c` up to `n`, in ascending order. -/
def entriesAfter (S : Setup) (wal : List Bytes) (b : String) (c n : ℕ) :
    List (ℕ × List DocumentMutation) :=
  (entriesOf S wal b n).filter fun e => c < e.1

/-- The manifest of `b` moves on to a later entry of `b`. Only a branch with `gaps` may
pass over another one. -/
inductive Advance (S : Setup) (gaps : Bool) (wal : List Bytes) (b : String) (m : BranchManifest) :
    BranchManifest → Prop
  | next (seq : ℕ) (ms : List DocumentMutation) (lt : m.checkpointSeq < seq)
      (entry : mutationsAt S wal b seq = some ms)
      (first : gaps = false →
        ∀ x, m.checkpointSeq < x → x < seq → mutationsAt S wal b x = none) :
      Advance S gaps wal b m
        { m with segments := m.segments ++ [refOf S ms], checkpointSeq := seq }

/-- The versions that follow one another. -/
def Advances (S : Setup) (gaps : Bool) (wal : List Bytes) (b : String) :
    BranchManifest → BranchManifest → Prop :=
  Relation.ReflTransGen (Advance S gaps wal b)

variable {wal wal' : List Bytes} {m m' : BranchManifest} {gaps : Bool}

lemma Advance.mono (h : Advance S gaps wal b m m') (hwal : wal <+: wal') :
    Advance S gaps wal' b m m' := by
  obtain ⟨seq, ms, lt, entry, first⟩ := h
  have hle := (mutationsAt_le (by simp [entry] : mutationsAt S wal b seq ≠ none)).2
  refine .next seq ms lt ((mutationsAt_absorb hwal hle).trans entry) fun hgaps x hx hxs => ?_
  exact (mutationsAt_absorb hwal (by omega)).trans (first hgaps x hx hxs)

lemma Advances.mono (h : Advances S gaps wal b m m') (hwal : wal <+: wal') :
    Advances S gaps wal' b m m' :=
  Relation.ReflTransGen.mono (fun _ _ h => Advance.mono h hwal) _ _ h

/-- Only the entries of the branch matter. -/
lemma Advances.congr (h : Advances S gaps wal b m m')
    (heq : ∀ seq, mutationsAt S wal' b seq = mutationsAt S wal b seq) :
    Advances S gaps wal' b m m' := by
  refine Relation.ReflTransGen.mono (fun _ _ hstep => ?_) _ _ h
  obtain ⟨seq, ms, lt, entry, first⟩ := hstep
  exact .next seq ms lt ((heq seq).trans entry) fun hgaps x hx hxs =>
    (heq x).trans (first hgaps x hx hxs)

/-- An entry without the mutations of `b`. -/
def withoutMutations (S : Setup) (b : String) (data : Bytes) : Bytes :=
  match entryOf S data with
  | some (.mutations b' _) => if b' = b then payload [] else data
  | _ => data

/-- The log as it would be had `b` never received a mutation. -/
def without (S : Setup) (b : String) (wal : List Bytes) : List Bytes :=
  wal.map (withoutMutations S b)

lemma entryOf_empty : entryOf S (payload []) = none := by
  rw [entryOf_of_records (readObject_payload (by simp)) rfl]
  rfl

/-- What is left of the log: the entries of the other branches. -/
lemma mutationsAt_without (wal : List Bytes) (b b' : String) (seq : ℕ) :
    mutationsAt S (without S b wal) b' seq =
      if b' = b then none else mutationsAt S wal b' seq := by
  by_cases h0 : seq = 0
  · simp [mutationsAt, h0]
  · cases hd : wal[seq - 1]? with
    | none => simp [mutationsAt, h0, without, hd]
    | some data =>
      have hget : (without S b wal)[seq - 1]? = some (withoutMutations S b data) := by
        simp [without, hd]
      simp only [mutationsAt, h0, if_false, hget, hd, Option.bind_some, withoutMutations]
      cases he : entryOf S data with
      | none => simp [he]
      | some e =>
        cases e with
        | fork evt => simp [he]
        | mutations c ms =>
          by_cases hc : c = b
          · subst hc
            by_cases hb' : c = b'
            · simp [entryOf_empty, hb']
            · simp [entryOf_empty, hb']
          · by_cases hb' : b' = b
            · subst hb'
              simp [he, hc]
            · simp [he, hc, hb']

end Advance

section Kept

/-- No `Fork` on `b` that has written its copy rolls back. -/
def noRollback (b : String) (s : Sys) : Action → Prop
  | .fork k _ => ¬ ((s.forks k).target = b ∧ (s.forks k).pc = .rollbackDelete)
  | _ => True

instance (b : String) (s : Sys) (a : Action) : Decidable (noRollback b s a) :=
  match a with
  | .fork k _ => inferInstanceAs
      (Decidable (¬ ((s.forks k).target = b ∧ (s.forks k).pc = .rollbackDelete)))
  | .append _ | .start _ | .flush _ _ | .crash _ | .call _ _ _ | .abandon _ => isTrue trivial

lemma Sys.Effect.lost_kept (h : Sys.Effect S s a t) (hok : noRollback b s a) :
    t.lost b = s.lost b := by
  rcases h.lost_cases b with hsame | ⟨-, k, o, gen, hover⟩
  · exact hsame
  · obtain ⟨rfl, -, target, pc, -⟩ := hover
    exact absurd ⟨target, pc⟩ hok

variable {ok : Sys → Action → Prop}

lemma lost_kept_run (hok : ∀ s a, ok s a → noRollback b s a)
    (h : (machine S).Run ok (machine S).init s) : s.lost b = false := by
  induction h with
  | refl => rfl
  | tail hpre hstep ih =>
    obtain ⟨a, ha, hstep⟩ := hstep
    have hi := inflight_reachable (Machine.Run.any hpre)
    exact (((Sys.step_change hstep hi).effect hi).lost_kept (hok _ a ha)).trans ih

/-- A copy stays on record. -/
lemma BranchEffect.birth_kept (h : BranchEffect S s a t b) (hf : Flushed S s b)
    (hok : noRollback b s a) {m : BranchManifest} (hbirth : s.birth b = some m) :
    t.birth b = some m := by
  cases h with
  | same cell birth => exact birth.trans hbirth
  | flush i j gen branch pc cell birth => exact birth.trans hbirth
  | copy k o m' act target pc absent cell birth =>
    rw [hf.absent absent] at hbirth
    cases hbirth
  | delete k o m' gen act commits target pc before cell birth lost =>
    subst act
    exact absurd ⟨target, pc⟩ hok

/-- A manifest stays as it is or moves on to a later entry of its branch, the next one if
no rollback has made the branch lose entries. -/
theorem BranchEffect.advance (h : BranchEffect S s a t b) (hi : Inflight S s)
    (hf : s.lost b = false → Flushed S s b) (hok : noRollback b s a) {m : BranchManifest} {gen : ℕ}
    (hcell : s.store.manifests.cell (S.scope.ManifestKey b) = some (m, gen)) :
    ∃ m' gen', t.store.manifests.cell (S.scope.ManifestKey b) = some (m', gen') ∧
      (m' = m ∨ Advance S (s.lost b) s.store.wal b m m') := by
  cases h with
  | same cell birth => exact ⟨m, gen, cell.trans hcell, .inl rfl⟩
  | copy k o m' act target pc absent cell birth =>
    rw [absent] at hcell
    cases hcell
  | delete k o m' g act commits target pc before cell birth lost =>
    subst act
    exact absurd ⟨target, pc⟩ hok
  | flush i j g branch pc cell birth =>
    have hjob := hi.flushers i
    rw [pc] at hjob
    obtain ⟨⟨ms, hms, hdata, href⟩, -, -, -, hlt⟩ := hjob
    have hcur := Store.current_some hcell
    rw [hcur] at hlt cell
    rw [branch] at hms
    refine ⟨_, _, cell, .inr ?_⟩
    have hrefOf : refOf S ms = j.ref := by simp [refOf, hdata, href]
    have hflushed : flushed m j =
        { m with segments := m.segments ++ [refOf S ms], checkpointSeq := j.seq } := by
      rw [hrefOf, flushed]
    rw [hflushed]
    refine .next j.seq ms hlt hms fun hgaps x hx hxj => ?_
    -- everything before the job is in the manifest already
    have hcov := (hf hgaps).covered none (j.seq - 1)
      (.flusher i _ _ (.position _ (by rw [pc]; rfl)))
    by_contra hne
    have hreached := hcov.reached x (by omega) hne
    rw [hcur] at hreached
    omega

/-- The manifest of `b` has come from `m` by entries of `b`. -/
def Descends (S : Setup) (s : Sys) (b : String) (m : BranchManifest) : Prop :=
  ∃ m' gen', s.store.manifests.cell (S.scope.ManifestKey b) = some (m', gen') ∧
    Advances S (s.lost b) s.store.wal b m m'

lemma Descends.refl {m : BranchManifest} {gen : ℕ}
    (h : s.store.manifests.cell (S.scope.ManifestKey b) = some (m, gen)) : Descends S s b m :=
  ⟨m, gen, h, .refl⟩

lemma Descends.step {m : BranchManifest} (h : Descends S s b m) (hb : Valid b) (hw : Wellformed S s)
    (hok : noRollback b s a) (hstep : Sys.step S s a = some t) : Descends S t b m := by
  obtain ⟨m₁, gen₁, hcell₁, hadv⟩ := h
  have hchange := Sys.step_change hstep hw.inflight
  have heff := hchange.effect hw.inflight
  have hwal := (hchange.inflight hw.inflight).1.wal
  obtain ⟨m₂, gen₂, hcell₂, hnext⟩ :=
    (heff.branch hw.inflight hb).advance hw.inflight (hw.flushed b hb) hok hcell₁
  rw [← heff.lost_kept hok] at hadv hnext
  refine ⟨m₂, gen₂, hcell₂, ?_⟩
  rcases hnext with rfl | hnext
  · exact hadv.mono hwal
  · exact (hadv.mono hwal).tail (hnext.mono hwal)

lemma descends_run (hb : Valid b) (hok : ∀ s a, ok s a → noRollback b s a)
    (hs : (machine S).Run ok (machine S).init s) (hrun : (machine S).Run ok s t)
    {m : BranchManifest} (h : Descends S s b m) : Descends S t b m := by
  induction hrun with
  | refl => exact h
  | tail hpre hstep ih =>
    obtain ⟨a, ha, hstep⟩ := hstep
    exact ih.step hb (wellformed_reachable (hs.trans hpre).any) (hok _ a ha) hstep

lemma birth_run (hb : Valid b) (hok : ∀ s a, ok s a → noRollback b s a)
    (hs : (machine S).Run ok (machine S).init s) (hrun : (machine S).Run ok s t)
    {m : BranchManifest} (hbirth : s.birth b = some m) : t.birth b = some m := by
  induction hrun with
  | refl => exact hbirth
  | tail hpre hstep ih =>
    obtain ⟨a, ha, hstep⟩ := hstep
    have hu := hs.trans hpre
    have hw := wellformed_reachable hu.any
    have heff := (Sys.step_change hstep hw.inflight).effect hw.inflight
    exact (heff.branch hw.inflight hb).birth_kept (hw.flushed b hb (lost_kept_run hok hu))
      (hok _ a ha) ih

end Kept

section Call
variable {k : ℕ}

/-- A call keeps its arguments; what it remembers as copied it has read from its
source. -/
structure ForkCall.Goes (S : Setup) (st : Store) (c c' : ForkCall) : Prop where
  busy : c'.pc ≠ .idle
  source : c'.source = c.source
  target : c'.target = c.target
  parent : c'.parent = c.parent ∨ ∃ m gen, c'.parent = some m ∧
    st.manifests.cell (S.scope.ManifestKey c.source) = some (m, gen)

lemma ForkCall.Move.goes {st st' : Store} {c c' : ForkCall}
    (h : ForkCall.Move S st c c' st') : ForkCall.Goes S st c c' := by
  have herr : c.pc.onError ≠ .idle := by
    cases hpc : c.pc <;> simp [ForkPc.onError]
  cases h with
  | copied m gen pc cell => exact ⟨by simp, rfl, rfl, .inr ⟨m, gen, rfl, cell⟩⟩
  | error on => exact ⟨herr, rfl, rfl, .inl rfl⟩
  | commitError _ on write => exact ⟨herr, rfl, rfl, .inl rfl⟩
  | giveUp on => exact ⟨by simp, rfl, rfl, .inl rfl⟩
  | absent m pc => exact ⟨by simp, rfl, rfl, .inl rfl⟩
  | written m _ pc write => exact ⟨by simp, rfl, rfl, .inl rfl⟩
  | registered pc mem => exact ⟨by simp, rfl, rfl, .inl rfl⟩
  | addPrepare pc => exact ⟨by simp, rfl, rfl, .inl rfl⟩
  | added branches gen _ pc write => exact ⟨by simp, rfl, rfl, .inl rfl⟩
  | addConflict branches gen pc => exact ⟨by simp, rfl, rfl, .inl rfl⟩
  | appended _ pc write => exact ⟨by simp, rfl, rfl, .inl rfl⟩
  | deleted _ pc write => exact ⟨by simp, rfl, rfl, .inl rfl⟩
  | removePrepare pc mem => exact ⟨by simp, rfl, rfl, .inl rfl⟩
  | removed branches gen _ pc write => exact ⟨by simp, rfl, rfl, .inl rfl⟩
  | removeConflict branches gen pc => exact ⟨by simp, rfl, rfl, .inl rfl⟩

lemma Sys.Change.goes (h : Sys.Change S s a t) (hbusy : (s.forks k).pc ≠ .idle) :
    ForkCall.Goes S s.store (s.forks k) (t.forks k) := by
  have hsame : t.forks k = s.forks k → ForkCall.Goes S s.store (s.forks k) (t.forks k) := by
    intro he
    rw [he]
    exact ⟨hbusy, rfl, rfl, .inl rfl⟩
  cases h with
  | append entry ok => exact hsame rfl
  | start i => exact hsame rfl
  | crash i => exact hsame rfl
  | flush i o f st move => exact hsame rfl
  | call k' source target idle vs vt =>
    by_cases hk : k = k'
    · subst hk
      exact absurd idle hbusy
    · exact hsame (Function.update_of_ne hk ..)
  | fork k' o c st move commit =>
    by_cases hk : k = k'
    · subst hk
      simp only [Function.update_self]
      exact move.goes
    · exact hsame (Function.update_of_ne hk ..)
  | abandon k' on =>
    by_cases hk : k = k'
    · subst hk
      simp only [Function.update_self]
      exact ⟨by simp, rfl, rfl, .inl rfl⟩
    · exact hsame (Function.update_of_ne hk ..)

/-- The step that reads the manifest of the source rolls nothing back. -/
lemma Sys.Change.noRollback_of_read (h : Sys.Change S s a t)
    (hread : (t.forks k).parent ≠ (s.forks k).parent) : noRollback b s a := by
  cases h with
  | append | start | crash | flush | call | abandon => trivial
  | fork k' o c st move commit =>
    rintro ⟨-, hpc⟩
    by_cases hk : k = k'
    · subst hk
      simp only [Function.update_self] at hread
      cases move with
      | copied m gen pc cell => cases hpc.symm.trans pc
      | _ => exact hread rfl
    · simp only [Function.update_of_ne hk] at hread
      exact hread rfl

/-- The copy that call `k` has made of `m`: in `u` this was the manifest of the
source, and the step from `w` to `w'` wrote it for the target. -/
inductive Snapshot (S : Setup) (ok : Sys → Action → Prop) (k : ℕ) (source target : String)
    (s t : Sys) (m : BranchManifest) : Prop
  | taken (u w w' : Sys) (a : Action) (gen gen' : ℕ) (before : (machine S).Run ok s u)
      (version : u.store.manifests.cell (S.scope.ManifestKey source) = some (m, gen))
      (between : (machine S).Run ok u w) (permitted : ok w a)
      (absent : w.store.manifests.cell (S.scope.ManifestKey target) = none)
      (write : Sys.step S w a = some w')
      (copy : w'.store.manifests.cell (S.scope.ManifestKey target) = some (m, gen'))
      (own : (w'.forks k).written = some gen') (after : (machine S).Run ok w' t)

/-- From the moment on at which call `k` has read the manifest of `source`, no `Fork` on
`source` rolls back. -/
def KeepsSource (ok : Sys → Action → Prop) (k : ℕ) (source : String) : Prop :=
  ∀ s a, ok s a → (s.forks k).parent ≠ none → noRollback source s a

/-- What has become of a call that began in `s`. -/
structure Underway (S : Setup) (ok : Sys → Action → Prop) (k : ℕ) (source target : String)
    (s t : Sys) : Prop where
  busy : (t.forks k).pc ≠ .idle
  source_eq : (t.forks k).source = source
  target_eq : (t.forks k).target = target
  parent : ∀ m, (t.forks k).parent = some m →
    (∃ u gen, (machine S).Run ok s u ∧
      u.store.manifests.cell (S.scope.ManifestKey source) = some (m, gen) ∧
      (machine S).Run ok u t) ∧
    (KeepsSource ok k source → Descends S t source m)
  copied : (t.forks k).pc.wrote = true → (t.forks k).parent ≠ none ∧
    ∃ m, Snapshot S ok k source target s t m ∧ t.birth target = some m ∧
      (KeepsSource ok k source → Descends S t source m)

variable {ok : Sys → Action → Prop} {source target : String}

lemma Snapshot.snoc {m : BranchManifest} {v : Sys} (h : Snapshot S ok k source target s t m)
    (ha : ok t a) (hstep : Sys.step S t a = some v) : Snapshot S ok k source target s v m := by
  obtain ⟨u, w, w', a', gen, gen', before, version, between, permitted, absent, write, copy, own,
    after⟩ := h
  exact .taken u w w' a' gen gen' before version between permitted absent write copy own
    (after.snoc ha hstep)

lemma Underway.step {v : Sys} (h : Underway S ok k source target s t)
    (hok : ∀ s a, ok s a → noRollback target s a) (hvs : Valid source) (hvt : Valid target)
    (hs : (machine S).Run ok (machine S).init s) (hrun : (machine S).Run ok s t) (ha : ok t a)
    (hstep : Sys.step S t a = some v) : Underway S ok k source target s v := by
  have hw := wellformed_reachable (hs.trans hrun).any
  have hchange := Sys.step_change hstep hw.inflight
  have hgoes := hchange.goes h.busy
  have hkept : ∀ m, t.birth target = some m → v.birth target = some m := by
    intro m hm
    have heff := (hchange.effect hw.inflight).branch hw.inflight hvt
    exact heff.birth_kept (hw.flushed target hvt (lost_kept_run hok (hs.trans hrun))) (hok t a ha) hm
  have hdescends : ∀ m, (t.forks k).parent ≠ none →
      (KeepsSource ok k source → Descends S t source m) →
      KeepsSource ok k source → Descends S v source m :=
    fun m hparent hm hkeeps => (hm hkeeps).step hvs hw (hkeeps t a ha hparent) hstep
  have hparent : (t.forks k).parent ≠ none → (v.forks k).parent ≠ none := by
    intro hne
    rcases hgoes.parent with he | ⟨m', gen, hm', -⟩
    · rwa [he]
    · simp [hm']
  have hold : (t.forks k).pc.wrote = true → (v.forks k).parent ≠ none ∧
      ∃ m, Snapshot S ok k source target s v m ∧ v.birth target = some m ∧
        (KeepsSource ok k source → Descends S v source m) := by
    intro hwrote
    obtain ⟨hne, m, hsnap, hbirth, hm⟩ := h.copied hwrote
    exact ⟨hparent hne, m, hsnap.snoc ha hstep, hkept m hbirth, hdescends m hne hm⟩
  refine ⟨hgoes.busy, hgoes.source.trans h.source_eq, hgoes.target.trans h.target_eq,
    fun m hm => ?_, fun hwrote => ?_⟩
  · by_cases he : (v.forks k).parent = (t.forks k).parent
    · rw [he] at hm
      obtain ⟨⟨u, gen, hsu, hcell, hut⟩, hfrom⟩ := h.parent m hm
      exact ⟨⟨u, gen, hsu, hcell, hut.snoc ha hstep⟩, hdescends m (by simp [hm]) hfrom⟩
    · obtain ⟨m', gen, hm', hcell⟩ := hgoes.parent.resolve_left he
      rw [hm'] at hm
      cases hm
      have hcell := h.source_eq ▸ hcell
      refine ⟨⟨t, gen, hrun, hcell, (Machine.Run.refl t).snoc ha hstep⟩, fun _ => ?_⟩
      exact (Descends.refl hcell).step hvs hw (hchange.noRollback_of_read he) hstep
  · cases hchange.next k with
    | same eq => exact hold (eq ▸ hwrote)
    | fresh written wrote => rw [wrote] at hwrote; cases hwrote
    | phase target' written pc => exact hold (pc hwrote)
    | wrote m pc target' written absent store birth forked =>
      have hm := (hw.inflight.forks k).parent m (.inr pc)
      obtain ⟨⟨u, gen, hsu, hcell, hut⟩, hfrom⟩ := h.parent m hm
      rw [h.target_eq] at absent store birth
      have hne : (t.forks k).parent ≠ none := by simp [hm]
      refine ⟨hparent hne, m,
        .taken u t v a gen _ hsu hcell hut ha absent hstep ?_ written (.refl v), ?_,
        hdescends m hne hfrom⟩
      · rw [store]
        exact Cells.put_self
      · simp [birth]

lemma underway_run (hok : ∀ s a, ok s a → noRollback target s a) {s₀ : Sys}
    (hs : (machine S).Run ok (machine S).init s)
    (hcall : Sys.step S s₀ (.call k source target) = some s)
    (hrun : (machine S).Run ok s t) : Underway S ok k source target s t := by
  simp only [Sys.step, Option.ite_none_right_eq_some, Option.some.injEq] at hcall
  obtain ⟨⟨-, hvs, hvt⟩, hcall⟩ := hcall
  have hk : s.forks k = { source := source, target := target, pc := .readSource } := by
    rw [← hcall]
    simp
  induction hrun with
  | refl => constructor <;> simp [hk, ForkPc.wrote]
  | tail hpre hstep ih =>
    obtain ⟨a, ha, hstep⟩ := hstep
    exact ih.step hok hvs hvt hs hpre ha hstep

end Call

section Isolation

/-- A call that has returned nil takes no further step. -/
lemma done_step {k : ℕ} (hdone : (s.forks k).pc = .done) (hstep : Sys.step S s a = some t) :
    (t.forks k).pc = .done := by
  cases a with
  | append entry =>
    obtain ⟨-, hstep⟩ := Option.ite_none_right_eq_some.mp hstep
    cases hstep
    exact hdone
  | start i =>
    obtain ⟨-, hstep⟩ := Option.ite_none_right_eq_some.mp hstep
    cases hstep
    exact hdone
  | flush i o =>
    obtain ⟨r, -, rfl⟩ := Option.map_eq_some_iff.mp hstep
    exact hdone
  | crash i =>
    cases hstep
    exact hdone
  | call k' source target =>
    obtain ⟨⟨hidle, -⟩, hstep⟩ := Option.ite_none_right_eq_some.mp hstep
    cases hstep
    have hne : k ≠ k' := by
      rintro rfl
      cases hdone.symm.trans hidle
    simpa only [Function.update_of_ne hne] using hdone
  | fork k' o =>
    obtain ⟨r, hr, rfl⟩ := Option.map_eq_some_iff.mp hstep
    have hne : k ≠ k' := by
      rintro rfl
      cases o <;> simp [ForkCall.step, ForkCall.succeed, ForkPc.active, hdone] at hr
    simpa only [Function.update_of_ne hne] using hdone
  | abandon k' =>
    obtain ⟨hactive, hstep⟩ := Option.ite_none_right_eq_some.mp hstep
    cases hstep
    have hne : k ≠ k' := by
      rintro rfl
      simp [hdone, ForkPc.active] at hactive
    simpa only [Function.update_of_ne hne] using hdone

lemma done_run {ok : Sys → Action → Prop} {k : ℕ} (hdone : (s.forks k).pc = .done)
    (hrun : (machine S).Run ok s t) : (t.forks k).pc = .done := by
  induction hrun with
  | refl => exact hdone
  | tail _ hstep ih =>
    obtain ⟨a, -, hstep⟩ := hstep
    exact done_step ih hstep

lemma entriesAfter_eq {wal : List Bytes} {c n : ℕ}
    (h : ∀ seq ≤ c, mutationsAt S wal b seq = none) :
    entriesAfter S wal b c n = entriesOf S wal b n := by
  refine List.filter_eq_self.mpr fun e he => ?_
  obtain ⟨-, hms⟩ := mem_entriesOf.mp he
  by_contra hlt
  rw [h e.1 (by simpa using hlt)] at hms
  cases hms

/-- In a run in which no `Fork` on `target` rolls back, a call `Fork(source, target)` that has
returned nil has written, at one moment `w'` of the call, the very manifest `m` that `source`
had at an earlier moment `u` of the call. In every later state the manifest of `target` has the
segments of `m` followed by one for each entry of `target` after the checkpoint of `m`, and no
entry of `target` is before it. If no `Fork` on `source` rolls back from the moment of the read
on, the manifest of `source` has come from `m` by the entries of `source` alone, in the log
without the mutations of `target`. It passes over none of them, unless an earlier rollback had
deleted a version of the manifest of `source` that was not its own. -/
theorem fork_snapshot_isolated (S : Setup) (ok : Sys → Action → Prop) (k : ℕ)
    (source target : String) (hok : ∀ s a, ok s a → noRollback target s a) (s₀ s s₁ s₂ : Sys)
    (h₀ : (machine S).Run ok (machine S).init s₀) (hpermitted : ok s₀ (.call k source target))
    (hcall : Sys.step S s₀ (.call k source target) = some s)
    (h₁ : (machine S).Run ok s s₁) (hdone : (s₁.forks k).pc = .done)
    (h₂ : (machine S).Run ok s₁ s₂) :
    ∃ m, Snapshot S ok k source target s s₁ m ∧
      (∃ m' gen', s₂.store.manifests.cell (S.scope.ManifestKey target) = some (m', gen') ∧
        (∀ seq ≤ m.checkpointSeq, mutationsAt S s₂.store.wal target seq = none) ∧
        m.checkpointSeq ≤ m'.checkpointSeq ∧
        m'.segments = m.segments ++
          (entriesAfter S s₂.store.wal target m.checkpointSeq m'.checkpointSeq).map
            fun e => refOf S e.2) ∧
      (KeepsSource ok k source →
        ∃ m' gen', s₂.store.manifests.cell (S.scope.ManifestKey source) = some (m', gen') ∧
          Advances S (s₂.lost source) (without S target s₂.store.wal) source m m') := by
  have hs := h₀.snoc hpermitted hcall
  obtain ⟨hvs, hvt⟩ : Valid source ∧ Valid target := by
    simp only [Sys.step, Option.ite_none_right_eq_some] at hcall
    exact hcall.1.2
  have hs₁ := hs.trans h₁
  have hs₂ := hs₁.trans h₂
  have hunder := underway_run hok hs hcall h₁
  obtain ⟨-, m, hsnap, hbirth, -⟩ := hunder.copied (by rw [hdone]; rfl)
  have hbirth₂ := birth_run hvt hok hs₁ h₂ hbirth
  refine ⟨m, hsnap, ?_, fun hkeeps => ?_⟩
  · have hw := wellformed_reachable hs₂.any
    have hf := hw.flushed target hvt (lost_kept_run hok hs₂)
    have hmat := hf.manifest
    cases hcell : s₂.store.manifests.cell (S.scope.ManifestKey target) with
    | none =>
      rw [hf.absent hcell] at hbirth₂
      cases hbirth₂
    | some p =>
      rw [hbirth₂, Option.getD_some, Store.current_some hcell] at hmat
      refine ⟨p.1, p.2, rfl, hmat.early, hmat.le, ?_⟩
      rw [entriesAfter_eq hmat.early]
      exact hmat.segments
  · -- the source has a manifest when the target has none
    have hne : source ≠ target := by
      rintro rfl
      obtain ⟨u, w, w', a, gen, gen', before, version, between, -, absent, -⟩ := hsnap
      obtain ⟨_, _, hcell, -⟩ := descends_run hvs hok (hs.trans before) between (.refl version)
      rw [absent] at hcell
      cases hcell
    have hwrote : (s₂.forks k).pc.wrote = true := by rw [done_run hdone h₂]; rfl
    obtain ⟨-, m₂, -, hm₂, hfrom⟩ := (underway_run hok hs hcall (h₁.trans h₂)).copied hwrote
    rw [hbirth₂, Option.some.injEq] at hm₂
    obtain ⟨m', gen', hcell, hadv⟩ := hfrom hkeeps
    refine ⟨m', gen', hcell, hm₂ ▸ hadv.congr fun seq => ?_⟩
    rw [mutationsAt_without, if_neg hne]

end Isolation

section Demo

/-- Neither a `Fork` on the target rolls back nor, once call `k` has read its source, one on
the source. -/
def isolating (k : ℕ) (source target : String) (s : Sys) (a : Action) : Prop :=
  noRollback target s a ∧ ((s.forks k).parent ≠ none → noRollback source s a)

instance (k : ℕ) (source target : String) (s : Sys) (a : Action) :
    Decidable (isolating k source target s a) :=
  inferInstanceAs (Decidable (_ ∧ (_ → _)))

/-- A concrete run around one call: up to the call, the call, and what follows. -/
lemma exec_call (S : Setup) (ok : Sys → Action → Prop) [∀ s a, Decidable (ok s a)] (k : ℕ)
    (source target : String) (as bs cs : List Action) (P : Sys → Sys → Prop)
    [∀ s t, Decidable (P s t)]
    (h : ((machine S).exec ok (machine S).init as).any (fun s₀ =>
      (Sys.step S s₀ (.call k source target)).any fun s =>
        ((machine S).exec ok s bs).any fun s₁ =>
          ((machine S).exec ok s₁ cs).any fun s₂ => decide (P s₁ s₂)) = true) :
    ∃ s₀ s s₁ s₂, (machine S).Run ok (machine S).init s₀ ∧
      Sys.step S s₀ (.call k source target) = some s ∧ (machine S).Run ok s s₁ ∧
      (machine S).Run ok s₁ s₂ ∧ P s₁ s₂ := by
  obtain ⟨s₀, h₀, h⟩ := (Option.any_eq_true ..).mp h
  obtain ⟨s, hs, h⟩ := (Option.any_eq_true ..).mp h
  obtain ⟨s₁, s₂, h₁, h₂, hP⟩ := (machine S).exec_exists_pair ok s bs cs P h
  exact ⟨s₀, s, s₁, s₂, Machine.exec_run h₀, hs, h₁, h₂, hP⟩

def demoExp : DocumentMutation := ⟨"exp", "a", .delete, []⟩

def expMutations : List (DocumentMutation × Bytes) :=
  [(demoMain, [1]), (demoExp, [2]), (demoDev, [3])]

def expRecords : List (WalRecord × Bytes) :=
  [(.mutation demoMain, [1, 1]), (.mutation demoExp, [1, 2]), (.mutation demoDev, [1, 3]),
    (.branchEvent ⟨.fork, "exp", "dev"⟩, [2]), (.branchEvent ⟨.fork, "dev", "exp"⟩, [3]),
    (.branchEvent demoFork, [4])]

lemma docs_valid : Valid "docs" := by decide +kernel

/-- A namespace in which "dev" and "exp" can be forked from each other. -/
def expSetup : Setup where
  scope := ⟨"docs"⟩
  wal := .ofTable expRecords (by decide) (by decide)
  mutation := .ofTable expMutations (by decide) (by decide)
  hash := id
  scope_valid := docs_valid
  hash_injective := Function.injective_id
  mutation_le _ _ _ hr hb := Codec.ofTable_le (by decide) hr hb

-- The first `Fork` of "dev" rolls back, the second one does not.
def secondScript : List Action :=
  copyScript ++ forkCalls 0 2 ++ [.fork 0 (.failed false false)] ++ forkCalls 0 3 ++
    [.call 2 "main" "dev"] ++ forkCalls 2 6

set_option maxRecDepth 8000 in
/-- "exp" is forked from "dev", which a rollback had deleted before; then both get an entry. -/
theorem fork_snapshot_isolated_exp :
    ∃ (s₀ s s₁ s₂ : Sys) (m m' m'' : BranchManifest) (gen' gen'' : ℕ),
      (machine expSetup).Run (isolating 1 "dev" "exp") (machine expSetup).init s₀ ∧
      Sys.step expSetup s₀ (.call 1 "dev" "exp") = some s ∧
      (machine expSetup).Run (isolating 1 "dev" "exp") s s₁ ∧
      (s₁.forks 1).pc = .done ∧
      (machine expSetup).Run (isolating 1 "dev" "exp") s₁ s₂ ∧
      Snapshot expSetup (isolating 1 "dev" "exp") 1 "dev" "exp" s s₁ m ∧
      s₂.store.manifests.cell (expSetup.scope.ManifestKey "exp") = some (m', gen') ∧
      m'.checkpointSeq = 4 ∧
      m'.segments = m.segments ++
        (entriesAfter expSetup s₂.store.wal "exp" m.checkpointSeq 4).map
          (fun e => refOf expSetup e.2) ∧
      s₂.store.manifests.cell (expSetup.scope.ManifestKey "dev") = some (m'', gen'') ∧
      m''.checkpointSeq = 5 ∧
      Advances expSetup false (without expSetup "exp" s₂.store.wal) "dev" m m'' := by
  obtain ⟨s₀, s, s₁, s₂, h₀, hcall, h₁, h₂, hdone, hlost, hexp, hdev⟩ := exec_call expSetup
    (isolating 1 "dev" "exp") 1 "dev" "exp" secondScript (forkCalls 1 6)
    ([.append (payload [[1, 2]]), .append (payload [[1, 3]])] ++ flushes 0 12)
    (fun s₁ s₂ => (s₁.forks 1).pc = .done ∧ s₂.lost "dev" = false ∧
      (s₂.store.manifests.cell (expSetup.scope.ManifestKey "exp")).any
        (fun p => p.1.checkpointSeq = 4) = true ∧
      (s₂.store.manifests.cell (expSetup.scope.ManifestKey "dev")).any
        (fun p => p.1.checkpointSeq = 5) = true)
    (by decide +kernel)
  obtain ⟨m, hsnap, ⟨m', gen', hcell', -, -, hseg⟩, hsource⟩ :=
    fork_snapshot_isolated expSetup (isolating 1 "dev" "exp") 1 "dev" "exp" (fun _ _ h => h.1)
      s₀ s s₁ s₂ h₀ ⟨trivial, fun _ => trivial⟩ hcall h₁ hdone h₂
  obtain ⟨m'', gen'', hcell'', hadv⟩ := hsource fun _ _ h => h.2
  have hseq' : m'.checkpointSeq = 4 := by simpa [hcell'] using hexp
  have hseq'' : m''.checkpointSeq = 5 := by simpa [hcell''] using hdev
  exact ⟨s₀, s, s₁, s₂, m, m', m'', gen', gen'', h₀, hcall, h₁, hdone, h₂, hsnap, hcell', hseq',
    hseq' ▸ hseg, hcell'', hseq'', hlost ▸ hadv⟩

-- An entry of "dev" is flushed over the copy before the first `Fork` rolls back.
def overwrittenScript : List Action :=
  copyScript ++ [.append (payload [[1, 3]])] ++ flushes 0 6 ++ forkCalls 0 1 ++
    [.fork 0 (.failed false false)] ++ forkCalls 0 3 ++ [.call 2 "main" "dev"] ++ forkCalls 2 6

set_option maxRecDepth 8000 in
/-- The flusher does not come back to an entry that a rollback took away: the source passes
over it although nothing is rolled back from the call on. -/
theorem fork_source_passes_over_entry :
    ∃ s₀ s s₁ s₂ : Sys,
      (machine expSetup).Run (isolating 1 "dev" "exp") (machine expSetup).init s₀ ∧
      Sys.step expSetup s₀ (.call 1 "dev" "exp") = some s ∧
      (machine expSetup).Run (isolating 1 "dev" "exp") s s₁ ∧
      (machine expSetup).Run (isolating 1 "dev" "exp") s₁ s₂ ∧
      (s₁.forks 1).pc = .done ∧ s₂.lost "dev" = true ∧
      (entriesOf expSetup s₂.store.wal "dev" 5).map Prod.fst = [2, 5] ∧
      (s₁.store.current (expSetup.scope.ManifestKey "dev")).checkpointSeq = 1 ∧
      (s₂.store.current (expSetup.scope.ManifestKey "dev")).checkpointSeq = 5 ∧
      (s₂.store.current (expSetup.scope.ManifestKey "dev")).segments =
        (s₁.store.current (expSetup.scope.ManifestKey "dev")).segments ++
          [refOf expSetup [demoDev]] :=
  exec_call expSetup (isolating 1 "dev" "exp") 1 "dev" "exp" overwrittenScript (forkCalls 1 6)
    ([.append (payload [[1, 3]])] ++ flushes 0 7) _ (by decide +kernel)

-- The `Fork` of "dev" rolls back although "exp" was forked from its copy, "exp" gets an
-- entry, and "dev" is forked again, this time from "exp".
def refillScript : List Action :=
  [.fork 0 (.failed false false)] ++ forkCalls 0 2 ++ [.append (payload [[1, 2]])] ++
    flushes 0 5 ++ [.call 2 "exp" "dev"] ++ forkCalls 2 6

set_option maxRecDepth 8000 in
/-- The source of a `Fork` that returned nil ends up with a segment of the target. -/
theorem fork_source_takes_target_entry :
    ∃ s₀ s s₁ s₂ : Sys,
      (machine expSetup).Run (noRollback "exp") (machine expSetup).init s₀ ∧
      Sys.step expSetup s₀ (.call 1 "dev" "exp") = some s ∧
      (machine expSetup).Run (noRollback "exp") s s₁ ∧
      (machine expSetup).Run (noRollback "exp") s₁ s₂ ∧
      (s₁.forks 1).pc = .done ∧
      entriesOf expSetup s₂.store.wal "exp" 3 = [(3, [demoExp])] ∧
      refOf expSetup [demoExp] ∈
        (s₂.store.current (expSetup.scope.ManifestKey "dev")).segments ∧
      entriesOf expSetup s₂.store.wal "dev" s₂.store.wal.length = [] :=
  exec_call expSetup (noRollback "exp") 1 "dev" "exp" copyScript (forkCalls 1 6) refillScript _
    (by decide +kernel)

end Demo

end CloudyNeigh.Ingest
