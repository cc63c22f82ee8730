import CloudyNeigh.NamespaceScope
import CloudyNeigh.ReadModifyWrite

/-!
# The tenant catalog

`CreateNamespace` and `DeleteNamespace` as read-modify-write loops on `ns.json`.
One step of a call is one call of the store; what such loops have in common is in
`ReadModifyWrite`. A `Put` may commit and still report an error, and the clock of every
call is arbitrary.
-/
namespace CloudyNeigh.Tenant
open Naming Transition Versioned
open ReadModifyWrite (Loop Outcome initial)

structure NamespaceMetadata where
  Epoch : ℕ
  CreatedAt : ℤ
  DeletedAt : ℤ
  deriving DecidableEq, Repr

/-- The entries of `ns.json` by name. -/
abbrev TenantCatalog := String → Option NamespaceMetadata

/-- The store of the tenant, as far as `ns.json` is concerned. -/
abbrev CatalogStore := Cells Unit TenantCatalog

inductive CatalogErr
  | invalidName (e : NameErr)
  | namespaceAlreadyExists
  | namespaceNotFound
  | store
  deriving DecidableEq, Repr

inductive CatalogOp
  | createNamespace
  | deleteNamespace
  deriving DecidableEq, Repr

/-- `write` holds the catalog as it was read, its generation, and the entry to be written. -/
inductive CatalogPc
  | read
  | write (catalog : TenantCatalog) (generation : Option ℕ) (entry : NamespaceMetadata)
  | returned (entry : NamespaceMetadata)
  | failed (e : CatalogErr)

structure CatalogCall where
  op : CatalogOp
  name : String
  now : ℤ
  pc : CatalogPc

def CatalogCall.start (op : CatalogOp) (name : String) (now : ℤ) : CatalogCall where
  op := op
  name := name
  now := now
  pc := match ValidateName name with
    | .error e => .failed (.invalidName e)
    | .ok _ => .read

def CatalogCall.goto (c : CatalogCall) (pc : CatalogPc) : CatalogCall := { c with pc := pc }

@[simp] lemma goto_name (c : CatalogCall) (pc : CatalogPc) : (c.goto pc).name = c.name := rfl

/-- What a call does with the catalog it read; `none` is a missing `ns.json`. -/
def CatalogCall.afterRead (c : CatalogCall) (found : Option (TenantCatalog × ℕ)) : CatalogPc :=
  match c.op with
  | .createNamespace =>
    let catalog := (found.map Prod.fst).getD fun _ => none
    match catalog c.name with
    | some _ => .failed .namespaceAlreadyExists
    | none => .write catalog (found.map Prod.snd) ⟨0, max c.now 0, 0⟩
  | .deleteNamespace =>
    match found with
    | none => .failed .namespaceNotFound
    | some (catalog, generation) =>
      match catalog c.name with
      | none => .failed .namespaceNotFound
      | some entry =>
        if entry.DeletedAt ≠ 0 then .returned entry
        else .write catalog (some generation) { entry with DeletedAt := max c.now 1 }

/-- `CreateNamespace` and `DeleteNamespace` between their store calls. -/
def catalogLoop : Loop CatalogCall TenantCatalog where
  phase c :=
    match c.pc with
    | .read => .read
    | .write catalog generation entry =>
      .write (Function.update catalog c.name (some entry)) generation
    | .returned _ | .failed _ => .ended
  onRead c found := c.goto (c.afterRead found)
  onCommit c :=
    match c.pc with
    | .write _ _ entry => c.goto (.returned entry)
    | _ => c
  onConflict c := c.goto .read
  onError c := c.goto (.failed .store)

def CatalogCall.step (store : CatalogStore) (c : CatalogCall) (o : Outcome) :
    Option (CatalogStore × CatalogCall) :=
  (catalogLoop.stepCall store c o).map fun r => (r.1, r.2.1)

structure State where
  store : CatalogStore
  calls : ℕ → Option CatalogCall

inductive Action
  | call (id : ℕ) (op : CatalogOp) (name : String) (now : ℤ)
  | step (id : ℕ) (o : Outcome)
  deriving DecidableEq, Repr

-- A call identifier is used once, so that it names the call in every later state.
def step (s : State) : Action → Option State
  | .call id op name now =>
    match s.calls id with
    | some _ => none
    | none => some { s with calls := Function.update s.calls id (some (.start op name now)) }
  | .step id o =>
    match s.calls id with
    | none => none
    | some c =>
      match c.step s.store o with
      | none => none
      | some (store, c) => some ⟨store, Function.update s.calls id (some c)⟩

def machine (before : Option TenantCatalog) : Machine State Action where
  init := ⟨initial before, fun _ => none⟩
  step := step

/-- The entry of a name in `ns.json`, if both exist. -/
def entryOf (store : CatalogStore) (name : String) : Option NamespaceMetadata :=
  (store.cell ()).bind fun found => found.1 name

/-- `ActiveNamespaces` before it sorts: the names that it keeps, or the default. -/
def isActive (store : CatalogStore) (name : String) : Bool :=
  (entryOf store name).any fun entry => entry.DeletedAt == 0

/-- The namespace is a key of `ns.json` and is deleted. -/
def isDeleted (store : CatalogStore) (name : String) : Bool :=
  (entryOf store name).any fun entry => entry.DeletedAt != 0

/-- The entry that a call may write over the present one. -/
inductive Updates (c : CatalogCall) : Option NamespaceMetadata → NamespaceMetadata → Prop
  | create (h : c.op = .createNamespace) : Updates c none ⟨0, max c.now 0, 0⟩
  | delete (h : c.op = .deleteNamespace) (old : NamespaceMetadata) (hd : old.DeletedAt = 0) :
    Updates c (some old) { old with DeletedAt := max c.now 1 }

/-- What a call knows while it is about to write: the catalog is the one that it read, and
only the entry of its name is new. -/
def CatalogCall.Plan (c : CatalogCall) (base : Option TenantCatalog) (v : TenantCatalog) : Prop :=
  ∃ entry, v = Function.update (base.getD fun _ => none) c.name (some entry) ∧
    Updates c ((base.getD fun _ => none) c.name) entry ∧
    ∀ catalog generation entry', c.pc = .write catalog generation entry' → entry' = entry

def CatalogCall.Ok (store : CatalogStore) (c : CatalogCall) : Prop :=
  catalogLoop.Ok CatalogCall.Plan store c

/-- Everything that one step of a call can do. -/
inductive CatalogCall.Effect (store : CatalogStore) (c : CatalogCall) :
    CatalogStore → CatalogPc → Prop
  | retry : CatalogCall.Effect store c store .read
  | fail (e : CatalogErr) : CatalogCall.Effect store c store (.failed e)
  | prepare (catalog : TenantCatalog) (generation : Option ℕ) (entry : NamespaceMetadata) :
    CatalogCall.Effect store c store (.write catalog generation entry)
  | found (entry : NamespaceMetadata) (hop : c.op = .deleteNamespace)
    (hentry : entryOf store c.name = some entry) (hd : entry.DeletedAt ≠ 0) :
    CatalogCall.Effect store c store (.returned entry)
  | write (catalog : TenantCatalog) (entry : NamespaceMetadata) (pc : CatalogPc)
    (present : entryOf store = catalog) (updates : Updates c (catalog c.name) entry)
    (done : pc = .returned entry ∨ pc = .failed .store) :
    CatalogCall.Effect store c (store.put () (Function.update catalog c.name (some entry))) pc

section Call
variable {store store' : CatalogStore} {c c' : CatalogCall}

lemma entryOf_put (catalog : TenantCatalog) : entryOf (store.put () catalog) = catalog := by
  funext name
  simp [entryOf]

lemma entryOf_eq (store : CatalogStore) :
    entryOf store = ((store.cell ()).map Prod.fst).getD fun _ => none := by
  funext name
  cases hcell : store.cell () with
  | none => simp [entryOf, hcell]
  | some found => simp [entryOf, hcell]

lemma phase_write {v : TenantCatalog} {generation : Option ℕ}
    (h : catalogLoop.phase c = .write v generation) :
    ∃ catalog entry, c.pc = .write catalog generation entry ∧
      v = Function.update catalog c.name (some entry) := by
  unfold catalogLoop at h
  dsimp only at h
  split at h <;> cases h
  exact ⟨_, _, ‹_›, rfl⟩

/-- What a read leads to, by what is in the catalog. -/
lemma afterRead_write {found : Option (TenantCatalog × ℕ)} {catalog : TenantCatalog}
    {generation : Option ℕ} {entry : NamespaceMetadata}
    (h : c.afterRead found = .write catalog generation entry) :
    generation = found.map Prod.snd ∧ catalog = (found.map Prod.fst).getD (fun _ => none) ∧
      Updates c (catalog c.name) entry := by
  unfold CatalogCall.afterRead at h
  split at h
  · rename_i hop
    dsimp only at h
    split at h
    · cases h
    · rename_i hnone
      cases h
      exact ⟨rfl, rfl, by rw [hnone]; exact .create hop⟩
  · rename_i hop
    split at h
    · cases h
    · split at h
      · cases h
      · rename_i old hold
        split at h
        · cases h
        · rename_i hd
          cases h
          exact ⟨rfl, rfl, by rw [hold]; exact .delete hop old (not_not.mp hd)⟩

lemma Updates.goto {old : Option NamespaceMetadata} {entry : NamespaceMetadata} {pc : CatalogPc}
    (h : Updates c old entry) : Updates (c.goto pc) old entry := by
  cases h with
  | create hop => exact .create hop
  | delete hop old hd => exact Updates.delete (c := c.goto pc) hop old hd

lemma catalogLoop_plans : catalogLoop.Plans CatalogCall.Plan where
  read c found v generation h := by
    obtain ⟨catalog, entry, hpc, rfl⟩ := phase_write h
    obtain ⟨hgen, rfl, hupdates⟩ := afterRead_write hpc
    refine ⟨hgen, entry, rfl, hupdates.goto, fun catalog' generation' entry' hpc' => ?_⟩
    rw [hpc] at hpc'
    cases hpc'
    rfl
  commit c v generation h v' generation' h' := by
    obtain ⟨catalog, entry, hpc, -⟩ := phase_write h
    simp [catalogLoop, hpc, CatalogCall.goto] at h'
  conflict c v generation h := by
    obtain ⟨catalog, entry, hpc, -⟩ := phase_write h
    cases hpc
  error c v generation h := by
    obtain ⟨catalog, entry, hpc, -⟩ := phase_write h
    cases hpc

lemma afterRead_effect : c.Effect store store (c.afterRead (store.cell ())) := by
  unfold CatalogCall.afterRead
  split
  · dsimp only
    split
    · exact .fail _
    · exact .prepare ..
  · rename_i hop
    split
    · exact .fail _
    · rename_i catalog generation hcell
      split
      · exact .fail _
      · rename_i entry hentry
        split
        · exact .found entry hop (by simp [entryOf, hcell, hentry]) ‹_›
        · exact .prepare ..

/-- A write that is committed is made on top of the present catalog. -/
lemma commit_effect (hok : c.Ok store) {v : TenantCatalog} {generation : Option ℕ}
    (hphase : catalogLoop.phase c = .write v generation)
    (holds : store.holds () generation = true) :
    ∃ catalog entry, c.pc = .write catalog generation entry ∧
      ∀ pc, pc = .returned entry ∨ pc = .failed .store → c.Effect store (store.put () v) pc := by
  obtain ⟨catalog, entry, hpc, -⟩ := phase_write hphase
  obtain ⟨entry', rfl, hupdates, hentry⟩ := hok.present hphase holds
  obtain rfl := hentry _ _ _ hpc
  rw [← entryOf_eq] at hupdates ⊢
  exact ⟨catalog, entry, hpc, fun pc hdone => .write _ entry pc rfl hupdates hdone⟩

lemma step_inv {o : Outcome} (h : c.step store o = some (store', c')) :
    ∃ wrote, catalogLoop.Step store c o store' c' wrote := by
  obtain ⟨⟨st, c₁, wrote⟩, hstep, he⟩ := Option.map_eq_some_iff.mp h
  cases he
  exact ⟨wrote, Loop.stepCall_step hstep⟩

/-- One step of a call, with what the call knows at that point. -/
theorem CatalogCall.step_effect (hok : c.Ok store) {o : Outcome}
    (h : c.step store o = some (store', c')) :
    ∃ pc, c' = c.goto pc ∧ c.Effect store store' pc := by
  obtain ⟨wrote, hstep⟩ := step_inv h
  cases hstep with
  | read phase => exact ⟨_, rfl, afterRead_effect⟩
  | readError phase => exact ⟨_, rfl, .fail _⟩
  | commit v generation phase holds =>
    obtain ⟨catalog, entry, hpc, heffect⟩ := commit_effect hok phase holds
    exact ⟨.returned entry, by simp [catalogLoop, hpc], heffect _ (Or.inl rfl)⟩
  | conflict v generation phase => exact ⟨_, rfl, .retry⟩
  | writeError v generation phase => exact ⟨_, rfl, .fail _⟩
  | commitError v generation phase holds =>
    obtain ⟨catalog, entry, hpc, heffect⟩ := commit_effect hok phase holds
    exact ⟨_, rfl, heffect _ (Or.inr rfl)⟩

lemma step_later {o : Outcome} (h : c.step store o = some (store', c')) : store.Later store' := by
  obtain ⟨wrote, hstep⟩ := step_inv h
  exact hstep.later

lemma step_sound {o : Outcome} (h : c.step store o = some (store', c')) (hs : store.Sound) :
    store'.Sound := by
  obtain ⟨wrote, hstep⟩ := step_inv h
  exact hstep.sound hs

lemma step_ok {o : Outcome} (h : c.step store o = some (store', c')) (hs : store.Sound) :
    c'.Ok store' := by
  obtain ⟨wrote, hstep⟩ := step_inv h
  exact hstep.ok catalogLoop_plans hs

lemma start_ok (store : CatalogStore) (op : CatalogOp) (name : String) (now : ℤ) :
    (CatalogCall.start op name now).Ok store := by
  intro v generation h
  obtain ⟨catalog, entry, hpc, -⟩ := phase_write h
  unfold CatalogCall.start at hpc
  dsimp only at hpc
  split at hpc <;> cases hpc

/-- What becomes of an entry: it stays, and only its deletion is added, once. -/
structure Entry.Le (m m' : NamespaceMetadata) : Prop where
  epoch : m'.Epoch = m.Epoch
  createdAt : m'.CreatedAt = m.CreatedAt
  deletedAt : m.DeletedAt ≠ 0 → m'.DeletedAt = m.DeletedAt

lemma Entry.Le.refl (m : NamespaceMetadata) : Entry.Le m m := ⟨rfl, rfl, fun _ => rfl⟩

lemma Entry.Le.trans {m m' m'' : NamespaceMetadata} (h : Entry.Le m m') (h' : Entry.Le m' m'') :
    Entry.Le m m'' := by
  refine ⟨h'.epoch.trans h.epoch, h'.createdAt.trans h.createdAt, fun hd => ?_⟩
  have h1 := h.deletedAt hd
  rw [h'.deletedAt (h1 ▸ hd), h1]

/-- The catalog keeps its entries. -/
def Keeps (store store' : CatalogStore) : Prop :=
  ∀ name m, entryOf store name = some m → ∃ m', entryOf store' name = some m' ∧ Entry.Le m m'

lemma Keeps.refl (store : CatalogStore) : Keeps store store :=
  fun _ m h => ⟨m, h, .refl m⟩

lemma Keeps.trans {store'' : CatalogStore} (h : Keeps store store') (h' : Keeps store' store'') :
    Keeps store store'' := by
  intro name m hm
  obtain ⟨m', hm', hle⟩ := h name m hm
  obtain ⟨m'', hm'', hle'⟩ := h' name m' hm'
  exact ⟨m'', hm'', hle.trans hle'⟩

theorem CatalogCall.Effect.keeps {pc : CatalogPc} (h : c.Effect store store' pc) :
    Keeps store store' := by
  cases h with
  | retry | fail | prepare | found => exact Keeps.refl _
  | write catalog entry pc present updates done =>
    intro name m hm
    rw [entryOf_put]
    by_cases hn : name = c.name
    · subst hn
      rw [Function.update_self]
      rw [present] at hm
      rw [hm] at updates
      cases updates with
      | delete hop old hd => exact ⟨_, rfl, rfl, rfl, fun hne => absurd hd hne⟩
    · rw [Function.update_of_ne hn, ← present]
      exact ⟨m, hm, .refl m⟩

end Call

end CloudyNeigh.Tenant
