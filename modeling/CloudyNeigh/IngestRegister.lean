import CloudyNeigh.LogStreamKey
import CloudyNeigh.TenantCatalogRuns

/-!
# Registration of namespaces by the ingester

`getOrCreateLog` registers a namespace in `ns.json` before the first append of
this process, and ignores whether that worked. Any number of ingesters run any
number of writes; one step is one section under `ing.mu`, one call of the store
inside `CreateNamespace`, or one whole `Append`. `CreateNamespace` and
`DeleteNamespace` are also called directly.
-/
namespace CloudyNeigh.Register
open Naming Transition Versioned Tenant
open ReadModifyWrite (initial initial_sound)

structure Ingester where
  logs : SlashPath.Path → Bool := fun _ => false
  registered : SlashPath.Path → Bool := fun _ => false

/-- The calls that `Fork` makes before `getOrCreateLog`. -/
inductive ForkStage
  | readSource
  | readTarget
  | writeTarget
  | addBranch
  | marshal
  deriving DecidableEq, Repr

/-- The records or identifiers of a batch matter here by their number only. -/
inductive WriteKind
  | Upsert (records : ℕ)
  | Delete (ids : ℕ)
  | Fork
  deriving DecidableEq, Repr

inductive WritePc
  | fork (stage : ForkStage)
  | lookup
  | createNamespace (c : CatalogCall)
  | register
  | newLog
  | append
  | returned
  | failed

structure WriteCall where
  ingester : ℕ
  ns : String
  pc : WritePc

inductive Outcome
  | ok
  | failed
  -- `time.Now` as it is passed to `CreateNamespace`
  | now (t : ℤ)
  | catalog (o : ReadModifyWrite.Outcome)
  deriving DecidableEq, Repr

structure State where
  store : CatalogStore
  ingesters : ℕ → Ingester
  writes : ℕ → Option WriteCall
  catalogCalls : ℕ → Option CatalogCall

inductive Action
  | write (id ingester : ℕ) (kind : WriteKind) (ns : String)
  | writeStep (id : ℕ) (o : Outcome)
  | call (id : ℕ) (op : CatalogOp) (name : String) (now : ℤ)
  | callStep (id : ℕ) (o : ReadModifyWrite.Outcome)
  deriving DecidableEq, Repr

/-- `Upsert` and `Delete` return at once when they are given nothing. -/
def WriteKind.isEmpty : WriteKind → Bool
  | .Upsert n | .Delete n => n == 0
  | .Fork => false

def writeStart (kind : WriteKind) : WritePc :=
  if kind.isEmpty then .returned
  else match kind with
    | .Upsert _ | .Delete _ => .lookup
    | .Fork => .fork .readSource

def ForkStage.next : ForkStage → WritePc
  | .readSource => .fork .readTarget
  | .readTarget => .fork .writeTarget
  | .writeTarget => .fork .addBranch
  | .addBranch => .fork .marshal
  | .marshal => .lookup

/-- The results of `CreateNamespace` are dropped: success and every error go on alike. -/
def afterCreate (c : CatalogCall) : WritePc :=
  match c.pc with
  | .returned _ | .failed _ => .register
  | _ => .createNamespace c

def WriteCall.step (store : CatalogStore) (ing : Ingester) (w : WriteCall) (o : Outcome) :
    Option (CatalogStore × Ingester × WritePc) :=
  let scope : Scope := ⟨w.ns⟩
  match w.pc, o with
  | .fork stage, .ok => some (store, ing, stage.next)
  | .fork _, .failed => some (store, ing, .failed)
  | .lookup, .now t =>
    if ing.logs scope.WALPrefix then some (store, ing, .append)
    else if ing.registered scope.Prefix then some (store, ing, .newLog)
    else some (store, ing, afterCreate (.start .createNamespace w.ns t))
  | .createNamespace c, .catalog o =>
    match c.step store o with
    | none => none
    | some (store, c) => some (store, ing, afterCreate c)
  | .register, .ok =>
    some (store, { ing with registered := Function.update ing.registered scope.Prefix true },
      .newLog)
  | .newLog, .ok =>
    if LogStream.validPrefix scope.WALPrefix then
      some (store, { ing with logs := Function.update ing.logs scope.WALPrefix true }, .append)
    else some (store, ing, .failed)
  -- also when a record cannot be marshalled
  | .append, .failed => some (store, ing, .failed)
  | .append, .ok => some (store, ing, .returned)
  | _, _ => none

-- A call identifier is used once, so that it names the call in every later state.
def step (s : State) : Action → Option State
  | .write id ingester kind ns =>
    match s.writes id with
    | some _ => none
    | none => some { s with
        writes := Function.update s.writes id (some ⟨ingester, ns, writeStart kind⟩) }
  | .writeStep id o =>
    match s.writes id with
    | none => none
    | some w =>
      match w.step s.store (s.ingesters w.ingester) o with
      | none => none
      | some (store, ing, pc) => some { s with
          store := store
          ingesters := Function.update s.ingesters w.ingester ing
          writes := Function.update s.writes id (some { w with pc := pc }) }
  | .call id op name now =>
    match s.catalogCalls id with
    | some _ => none
    | none => some { s with
        catalogCalls := Function.update s.catalogCalls id (some (.start op name now)) }
  | .callStep id o =>
    match s.catalogCalls id with
    | none => none
    | some c =>
      match c.step s.store o with
      | none => none
      | some (store, c) => some { s with
          store := store
          catalogCalls := Function.update s.catalogCalls id (some c) }

def machine (before : Option TenantCatalog) : Machine State Action where
  init := ⟨initial before, fun _ => {}, fun _ => none, fun _ => none⟩
  step := step

/-- A write begins with at least one record, on a valid namespace that is not
deleted, and its `CreateNamespace` fails only when it has or finds the entry. -/
def Careful (s : State) : Action → Prop
  | .write _ _ kind ns => Valid ns ∧ kind.isEmpty = false ∧ isDeleted s.store ns = false
  | .writeStep id (.catalog (.failed committed)) => committed = true ∨
      ((s.writes id).all fun w => (entryOf s.store w.ns).isSome) = true
  | _ => True

instance (s : State) : ∀ a, Decidable (Careful s a)
  | .write _ _ _ _ => inferInstanceAs (Decidable (_ ∧ _))
  | .writeStep _ (.catalog (.failed _)) => inferInstanceAs (Decidable (_ ∨ _))
  | .writeStep _ (.catalog .ok) | .writeStep _ (.catalog .preconditionFailed) => isTrue trivial
  | .writeStep _ .ok | .writeStep _ .failed | .writeStep _ (.now _) => isTrue trivial
  | .call _ _ _ _ | .callStep _ _ => isTrue trivial

section Create
variable {store store' : CatalogStore} {c c' : CatalogCall}

lemma afterCreate_cases (c : CatalogCall) :
    afterCreate c = .register ∨ afterCreate c = .createNamespace c := by
  unfold afterCreate
  split <;> simp

lemma entryOf_put_self {catalog : TenantCatalog} {entry : NamespaceMetadata} (name : String) :
    (entryOf (store.put () (Function.update catalog name (some entry))) name).isSome = true := by
  simp [entryOf_put]

/-- A `CreateNamespace` that ends without a failure of the store leaves an entry. -/
lemma create_settled (hop : c.op = .createNamespace) {o : ReadModifyWrite.Outcome}
    (hfail : ∀ committed, o = .failed committed → committed = true ∨
      (entryOf store c.name).isSome = true)
    (h : c.step store o = some (store', c')) (hdone : afterCreate c' = .register) :
    (entryOf store' c.name).isSome = true := by
  obtain ⟨wrote, hstep⟩ := step_inv h
  cases hstep with
  | read phase =>
    -- the read found the name, or goes on to write
    replace hdone : afterCreate (c.goto (c.afterRead (store.cell ()))) = .register := hdone
    cases hcell : store.cell () with
    | none => simp [afterCreate, CatalogCall.goto, CatalogCall.afterRead, hop, hcell] at hdone
    | some found =>
      cases hentry : found.1 c.name with
      | none =>
        simp [afterCreate, CatalogCall.goto, CatalogCall.afterRead, hop, hcell, hentry] at hdone
      | some entry => simp [entryOf, hcell, hentry]
  | readError phase => exact (hfail false rfl).resolve_left (by simp)
  | commit v generation phase holds =>
    obtain ⟨catalog, entry, -, rfl⟩ := phase_write phase
    exact entryOf_put_self c.name
  | conflict v generation phase => cases hdone
  | writeError v generation phase => exact (hfail false rfl).resolve_left (by simp)
  | commitError v generation phase holds =>
    obtain ⟨catalog, entry, -, rfl⟩ := phase_write phase
    exact entryOf_put_self c.name

lemma start_read {name : String} (h : Valid name) (op : CatalogOp) (now : ℤ) :
    (CatalogCall.start op name now).pc = .read := by
  unfold CatalogCall.start
  rw [show ValidateName name = .ok () from h]

end Create

/-- What is known of a write that has come to `pc`: past the registration, the
namespace has an entry. -/
def WritePc.Ok (store : CatalogStore) (ns : String) : WritePc → Prop
  | .fork _ | .lookup | .failed => True
  | .createNamespace c => c.op = .createNamespace ∧ c.name = ns ∧ c.Ok store
  | .register | .newLog | .append | .returned => (entryOf store ns).isSome = true

structure Ingester.Ok (store : CatalogStore) (ing : Ingester) : Prop where
  registered : ∀ ns, Valid ns → ing.registered (Scope.mk ns).Prefix = true →
    (entryOf store ns).isSome = true
  logs : ∀ ns, Valid ns → ing.logs (Scope.mk ns).WALPrefix = true →
    (entryOf store ns).isSome = true

structure Inv (s : State) : Prop where
  sound : s.store.Sound
  calls : ∀ i c, s.catalogCalls i = some c → c.Ok s.store
  ingesters : ∀ i, (s.ingesters i).Ok s.store
  writes : ∀ i w, s.writes i = some w → Valid w.ns ∧ w.pc.Ok s.store w.ns

section Monotone
variable {store store' : CatalogStore}

lemma entry_mono (hk : Keeps store store') {ns : String} (h : (entryOf store ns).isSome = true) :
    (entryOf store' ns).isSome = true := by
  obtain ⟨m, hm⟩ := Option.isSome_iff_exists.mp h
  obtain ⟨m', hm', -⟩ := hk ns m hm
  simp [hm']

lemma WritePc.Ok.mono (hk : Keeps store store') (hl : store.Later store') {ns : String}
    {pc : WritePc} (h : pc.Ok store ns) : pc.Ok store' ns := by
  cases pc with
  | fork | lookup | failed => trivial
  | createNamespace c => exact ⟨h.1, h.2.1, h.2.2.later hl⟩
  | register | newLog | append | returned => exact entry_mono hk h

lemma Ingester.Ok.mono (hk : Keeps store store') {ing : Ingester} (h : ing.Ok store) :
    ing.Ok store' :=
  ⟨fun ns hv hr => entry_mono hk (h.registered ns hv hr),
    fun ns hv hl => entry_mono hk (h.logs ns hv hl)⟩

end Monotone

/-- What one step of a write leaves behind. -/
structure WriteEffect (store store' : CatalogStore) (ing : Ingester) (ns : String) (pc : WritePc) :
    Prop where
  sound : store'.Sound
  later : store.Later store'
  keeps : Keeps store store'
  ingester : ing.Ok store'
  pc : pc.Ok store' ns

section Write
variable {store store' : CatalogStore} {ing ing' : Ingester} {w : WriteCall} {o : Outcome}
  {pc : WritePc}

/-- A step that leaves the store and the caches alone. -/
lemma WriteEffect.stay (hs : store.Sound) (hi : ing.Ok store) {ns : String}
    (hpc : pc.Ok store ns) : WriteEffect store store ing ns pc :=
  ⟨hs, Cells.Later.refl _, Keeps.refl _, hi, hpc⟩

lemma create_effect (hs : store.Sound) (hi : ing.Ok store) {c c' : CatalogCall}
    {o : ReadModifyWrite.Outcome} (hc : (WritePc.createNamespace c).Ok store w.ns)
    (hfail : ∀ committed, o = .failed committed → committed = true ∨
      (entryOf store w.ns).isSome = true)
    (h : c.step store o = some (store', c')) :
    WriteEffect store store' ing w.ns (afterCreate c') := by
  obtain ⟨hop, hname, hok⟩ := hc
  obtain ⟨pc, rfl, he⟩ := c.step_effect hok h
  refine ⟨step_sound h hs, step_later h, he.keeps, hi.mono he.keeps, ?_⟩
  rcases afterCreate_cases (c.goto pc) with hdone | hgo
  · rw [hdone, WritePc.Ok, ← hname]
    rw [← hname] at hfail
    exact create_settled hop hfail h hdone
  · rw [hgo]
    exact ⟨hop, hname, step_ok h hs⟩

theorem WriteCall.step_effect (hs : store.Sound) (hi : ing.Ok store) (hv : Valid w.ns)
    (hw : w.pc.Ok store w.ns)
    (hfail : ∀ committed, o = .catalog (.failed committed) → committed = true ∨
      (entryOf store w.ns).isSome = true)
    (h : w.step store ing o = some (store', ing', pc)) :
    WriteEffect store store' ing' w.ns pc := by
  unfold WriteCall.step at h
  dsimp only at h
  split at h
  case h_1 stage _ =>
    cases h
    refine .stay hs hi ?_
    cases stage <;> trivial
  case h_2 =>
    cases h
    exact .stay hs hi trivial
  case h_3 t heq =>
    split at h
    · cases h
      exact .stay hs hi (hi.logs w.ns hv ‹_›)
    · split at h <;> cases h
      · exact .stay hs hi (hi.registered w.ns hv ‹_›)
      · refine .stay hs hi ?_
        have hread := start_read hv .createNamespace t
        simp only [afterCreate, hread]
        exact ⟨rfl, rfl, start_ok _ _ _ _⟩
  case h_4 c o heq =>
    rw [heq] at hw
    split at h <;> cases h
    rename_i c' hc'
    exact create_effect hs hi hw (fun committed ho => hfail committed (by rw [ho])) hc'
  case h_5 heq =>
    rw [heq] at hw
    cases h
    apply WriteEffect.stay hs
    · refine ⟨fun ns hn hr => ?_, hi.logs⟩
      by_cases hp : (Scope.mk ns).Prefix = (Scope.mk w.ns).Prefix
      · cases scopePrefix_injective hn hv hp
        exact hw
      · dsimp only at hr
        rw [Function.update_of_ne hp] at hr
        exact hi.registered ns hn hr
    · exact hw
  case h_6 heq =>
    rw [heq] at hw
    split at h <;> cases h
    · apply WriteEffect.stay hs
      · refine ⟨hi.registered, fun ns hn hr => ?_⟩
        by_cases hp : (Scope.mk ns).WALPrefix = (Scope.mk w.ns).WALPrefix
        · cases walPrefix_injective hn hv hp
          exact hw
        · dsimp only at hr
          rw [Function.update_of_ne hp] at hr
          exact hi.logs ns hn hr
      · exact hw
    · exact .stay hs hi trivial
  case h_7 =>
    cases h
    exact .stay hs hi trivial
  case h_8 heq =>
    rw [heq] at hw
    cases h
    exact .stay hs hi hw
  case h_9 => cases h

end Write

section Run
variable {s t : State}

lemma Inv.changed (hi : Inv s) (sound : t.store.Sound) (keeps : Keeps s.store t.store)
    (later : s.store.Later t.store)
    (calls : ∀ i c, t.catalogCalls i = some c → s.catalogCalls i = some c ∨ c.Ok t.store)
    (ingesters : ∀ i, t.ingesters i = s.ingesters i ∨ (t.ingesters i).Ok t.store)
    (writes : ∀ i w, t.writes i = some w → s.writes i = some w ∨
      Valid w.ns ∧ w.pc.Ok t.store w.ns) : Inv t where
  sound := sound
  calls i c hc := by
    rcases calls i c hc with hold | hok
    · exact (hi.calls i c hold).later later
    · exact hok
  ingesters i := by
    rcases ingesters i with hold | hok
    · rw [hold]
      exact (hi.ingesters i).mono keeps
    · exact hok
  writes i w hw := by
    rcases writes i w hw with hold | hok
    · obtain ⟨hv, hpc⟩ := hi.writes i w hold
      exact ⟨hv, hpc.mono keeps later⟩
    · exact hok

lemma update_some {α : Type*} {f : ℕ → Option α} {id i : ℕ} {v c : α}
    (h : Function.update f id (some v) i = some c) : f i = some c ∨ c = v := by
  by_cases hi : i = id
  · subst hi
    rw [Function.update_self] at h
    exact .inr (Option.some.inj h).symm
  · rw [Function.update_of_ne hi] at h
    exact .inl h

lemma writeStart_ok {store : CatalogStore} {ns : String} {kind : WriteKind}
    (h : kind.isEmpty = false) : (writeStart kind).Ok store ns := by
  unfold writeStart
  rw [h]
  cases kind <;> trivial

theorem inv_step (hi : Inv s) {a : Action} (hok : Careful s a) (h : step s a = some t) : Inv t := by
  cases a with
  | write id ingester kind ns =>
    simp only [step] at h
    split at h <;> cases h
    refine hi.changed hi.sound (Keeps.refl _) (Cells.Later.refl _) (fun _ _ hc => .inl hc)
      (fun _ => .inl rfl) fun i w hw => ?_
    rcases update_some hw with hold | rfl
    · exact .inl hold
    · exact .inr ⟨hok.1, writeStart_ok hok.2.1⟩
  | writeStep id o =>
    simp only [step] at h
    split at h
    · cases h
    · rename_i w hw
      obtain ⟨hv, hpc⟩ := hi.writes id w hw
      split at h <;> cases h
      rename_i store ing pc hstep
      have he := w.step_effect hi.sound (hi.ingesters w.ingester) hv hpc
        (fun committed ho => by
          subst ho
          exact hok.imp_right fun hall => by simpa [hw] using hall) hstep
      refine hi.changed he.sound he.keeps he.later (fun _ _ hc => .inl hc) (fun i => ?_)
        fun i w' hw' => ?_
      · by_cases hiw : i = w.ingester
        · subst hiw
          right
          simpa using he.ingester
        · left
          simp [hiw]
      · rcases update_some hw' with hold | rfl
        · exact .inl hold
        · exact .inr ⟨hv, he.pc⟩
  | call id op name now =>
    simp only [step] at h
    split at h <;> cases h
    refine hi.changed hi.sound (Keeps.refl _) (Cells.Later.refl _) (fun i c hc => ?_)
      (fun _ => .inl rfl) fun _ _ hw => .inl hw
    rcases update_some hc with hold | rfl
    · exact .inl hold
    · exact .inr (start_ok _ _ _ _)
  | callStep id o =>
    simp only [step] at h
    split at h
    · cases h
    · rename_i c hc
      split at h <;> cases h
      rename_i store c' hstep
      obtain ⟨pc, rfl, he⟩ := c.step_effect (hi.calls id c hc) hstep
      refine hi.changed (step_sound hstep hi.sound) he.keeps (step_later hstep) (fun i d hd => ?_)
        (fun _ => .inl rfl) fun _ _ hw => .inl hw
      rcases update_some hd with hold | rfl
      · exact .inl hold
      · exact .inr (step_ok hstep hi.sound)

theorem inv_run {before : Option TenantCatalog}
    (h : (machine before).Run Careful (machine before).init s) : Inv s := by
  refine Machine.Run.preserves (P := Inv) (fun s a t hs hok hst => inv_step hs hok hst) h ?_
  refine ⟨?_, ?_, fun _ => ⟨?_, ?_⟩, ?_⟩
  · exact initial_sound before
  · intro i c hc
    cases hc
  · intro ns _ hr
    cases hr
  · intro ns _ hr
    cases hr
  · intro i w hw
    cases hw

/-- A write keeps its namespace. -/
def SameWrites (s t : State) : Prop :=
  ∀ i w, s.writes i = some w → ∃ w', t.writes i = some w' ∧ w'.ns = w.ns

lemma sameWrites_step {a : Action} (h : step s a = some t) : SameWrites s t := by
  intro i w hw
  cases a with
  | write id ingester kind ns =>
    simp only [step] at h
    split at h <;> cases h
    rename_i hnone
    have hne : i ≠ id := by
      rintro rfl
      rw [hw] at hnone
      cases hnone
    exact ⟨w, (Function.update_of_ne hne ..).trans hw, rfl⟩
  | writeStep id o =>
    simp only [step] at h
    split at h
    · cases h
    · rename_i w₀ hw₀
      split at h <;> cases h
      by_cases hne : i = id
      · subst hne
        rw [hw] at hw₀
        cases hw₀
        exact ⟨_, Function.update_self .., rfl⟩
      · exact ⟨w, (Function.update_of_ne hne ..).trans hw, rfl⟩
  | call id op name now =>
    simp only [step] at h
    split at h <;> cases h
    exact ⟨w, hw, rfl⟩
  | callStep id o =>
    simp only [step] at h
    split at h
    · cases h
    · split at h <;> cases h
      exact ⟨w, hw, rfl⟩

lemma sameWrites_run {before : Option TenantCatalog} (hs : (machine before).Reachable s)
    (h : (machine before).Run Careful s t) : SameWrites s t := by
  refine Machine.Run.relates (R := SameWrites) (fun _ _ w hw => ⟨w, hw, rfl⟩) ?_
    (fun _ _ _ _ _ hst => sameWrites_step hst) hs h
  intro s t u hst htu i w hw
  obtain ⟨w', hw', hns⟩ := hst i w hw
  obtain ⟨w'', hw'', hns'⟩ := htu i w' hw'
  exact ⟨w'', hw'', hns'.trans hns⟩

end Run

/-- A write that has returned is on a namespace that is active, or that has been
deleted since the write began. -/
theorem acknowledged_write_registered (before : Option TenantCatalog) {s₀ s₁ s₂ : State}
    {id ingester : ℕ} {kind : WriteKind} {ns : String} {w : WriteCall}
    (h₀ : (machine before).Run Careful (machine before).init s₀)
    (hok : Careful s₀ (.write id ingester kind ns))
    (h₁ : (machine before).step s₀ (.write id ingester kind ns) = some s₁)
    (h₂ : (machine before).Run Careful s₁ s₂) (hw : s₂.writes id = some w)
    (hret : w.pc = .returned) :
    isActive s₂.store ns = true ∨
      isDeleted s₂.store ns = true ∧ isDeleted s₀.store ns = false := by
  have hr₁ := h₀.snoc hok h₁
  have hinv := inv_run (hr₁.trans h₂)
  have hns : w.ns = ns := by
    have hbegin : s₁.writes id = some ⟨ingester, ns, writeStart kind⟩ := by
      simp only [machine, step] at h₁
      split at h₁ <;> cases h₁
      exact Function.update_self ..
    obtain ⟨w', hw', hsame⟩ := sameWrites_run hr₁.any h₂ id _ hbegin
    rw [hw] at hw'
    cases hw'
    exact hsame
  have hentry : (entryOf s₂.store ns).isSome = true := by
    have hpc := (hinv.writes id w hw).2
    rw [hret, hns] at hpc
    exact hpc
  obtain ⟨m, hm⟩ := Option.isSome_iff_exists.mp hentry
  by_cases hd : m.DeletedAt = 0
  · exact .inl (by simp [isActive, hm, hd])
  · exact .inr ⟨by simp [isDeleted, hm, hd], hok.2.2⟩

def hasReturned (s : State) (id : ℕ) : Bool :=
  (s.writes id).any fun w => match w.pc with
    | .returned => true
    | _ => false

lemma hasReturned_iff {s : State} {id : ℕ} (h : hasReturned s id = true) :
    ∃ w, s.writes id = some w ∧ w.pc = .returned := by
  obtain ⟨w, hw, hr⟩ := Option.any_eq_true .. |>.mp h
  refine ⟨w, hw, ?_⟩
  split at hr
  · assumption
  · cases hr

-- another namespace is created in between, then this one is deleted before the append
def contendedScript : List Action :=
  [.writeStep 0 (.now 5), .writeStep 0 (.catalog .ok), .call 0 .createNamespace "b" 6,
   .callStep 0 .ok, .callStep 0 .ok, .writeStep 0 (.catalog .preconditionFailed),
   .writeStep 0 (.catalog .ok), .writeStep 0 (.catalog .ok), .writeStep 0 .ok, .writeStep 0 .ok,
   .call 1 .deleteNamespace "a" 9, .callStep 1 .ok, .callStep 1 .ok, .writeStep 0 .ok]

def begun : State where
  store := initial none
  ingesters := fun _ => {}
  writes := Function.update (fun _ => none) 0 (some ⟨0, "a", .lookup⟩)
  catalogCalls := fun _ => none

set_option maxRecDepth 4000 in
theorem acknowledged_write_registered_contended : ∃ s : State,
    (machine none).Run Careful begun s ∧ hasReturned s 0 = true ∧
    isDeleted s.store "a" = true ∧
    (isActive s.store "a" = true ∨
      isDeleted s.store "a" = true ∧ isDeleted (initial none) "a" = false) := by
  obtain ⟨s, hr, hret, hd⟩ := Machine.exec_exists (machine none) Careful begun contendedScript
    (fun s => hasReturned s 0 = true ∧ isDeleted s.store "a" = true) (by decide +kernel)
  obtain ⟨w, hw, hpc⟩ := hasReturned_iff hret
  have hok : Careful (machine none).init (.write 0 0 (.Upsert 1) "a") := by decide +kernel
  have hbegun : (machine none).step (machine none).init (.write 0 0 (.Upsert 1) "a") = some begun := rfl
  exact ⟨s, hr, hret, hd,
    acknowledged_write_registered none (Machine.Run.refl _) hok hbegun hr hw hpc⟩

-- the read of `ns.json` inside `CreateNamespace` fails
def strandedScript : List Action :=
  [.write 0 0 (.Upsert 1) "a", .writeStep 0 (.now 5), .writeStep 0 (.catalog (.failed false)),
   .writeStep 0 .ok, .writeStep 0 .ok, .writeStep 0 .ok]

-- the namespace has been deleted before
def deletedScript : List Action :=
  [.write 0 0 (.Upsert 1) "a", .writeStep 0 (.now 5), .writeStep 0 (.catalog .ok),
   .writeStep 0 .ok, .writeStep 0 .ok, .writeStep 0 .ok]

def deletedBefore : TenantCatalog := fun name => if name = "a" then some ⟨0, 1, 3⟩ else none

set_option maxRecDepth 4000 in
/-- A write is acknowledged on a namespace that is not a key of `ns.json`, and on
one that was deleted before the write began. -/
theorem acknowledged_write_stranded :
    (∃ s, (machine none).Reachable s ∧ hasReturned s 0 = true ∧ entryOf s.store "a" = none) ∧
    ∃ s, (machine (some deletedBefore)).Reachable s ∧ hasReturned s 0 = true ∧
      isActive s.store "a" = false ∧ isDeleted (initial (some deletedBefore)) "a" = true :=
  ⟨Machine.exec_exists (machine none) anyStep (machine none).init strandedScript
      (fun s => hasReturned s 0 = true ∧ entryOf s.store "a" = none) (by decide +kernel),
    Machine.exec_exists (machine (some deletedBefore)) anyStep (machine (some deletedBefore)).init
      deletedScript (fun s => hasReturned s 0 = true ∧ isActive s.store "a" = false ∧
        isDeleted (initial (some deletedBefore)) "a" = true) (by decide +kernel)⟩

end CloudyNeigh.Register
