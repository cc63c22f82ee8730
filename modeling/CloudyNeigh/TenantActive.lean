import CloudyNeigh.Checked
import CloudyNeigh.TenantCatalogRuns
import Mathlib.Data.List.Sort
import Mathlib.Data.String.Basic

/-!
# Active namespaces

`ActiveNamespaces` over the map that `ns.json` decodes to, and the two loops that
start from it: the flusher's discovery of streams and the pass of the query
engine. A catalog without a live entry falls back to the default namespace, also
when that one was deleted.
-/
namespace CloudyNeigh.Tenant
open Naming SlashPath Transition Versioned Checked
open ReadModifyWrite (initial)

def DefaultNamespace : String := "default"

/-- The entries of `ns.json` as a map in memory. -/
abbrev Namespaces := AList fun _ : String => NamespaceMetadata

/-- What `ReadTenantCatalog` returns, `notFound` apart from every other error. -/
inductive CatalogRead
  | found (namespaces : Namespaces)
  | notFound
  | failed

def ActiveNamespaces (R : RangeOrder String) : CatalogRead → Except CatalogErr (List String)
  | .notFound => .ok [DefaultNamespace]
  | .failed => .error .store
  | .found namespaces =>
    let names := ((R.range 0 namespaces).entries.filter fun e => e.2.DeletedAt == 0).map Sigma.fst
    if names.length = 0 then .ok [DefaultNamespace] else .ok (names.insertionSort (· ≤ ·))

structure StreamTarget where
  scope : Scope
  walPrefix : Path
  deriving DecidableEq, Repr

def discoverStreams (R : RangeOrder String) (read : CatalogRead) :
    Except CatalogErr (List StreamTarget) :=
  match ActiveNamespaces R read with
  | .error e => .error e
  | .ok namespaces => .ok (namespaces.map fun ns => ⟨⟨ns⟩, Scope.WALPrefix ⟨ns⟩⟩)

structure BranchKey where
  ns : String
  branch : String
  deriving DecidableEq, Repr

/-- The keys that have a loader, and those whose loader ran. -/
structure Engine where
  loaders : List BranchKey := []
  synced : List BranchKey := []
  deriving DecidableEq, Repr

-- `NewLoader` fails on nil arguments only, and the error of `Sync` is logged.
def Engine.syncBranch (e : Engine) (key : BranchKey) : Engine where
  loaders := if key ∈ e.loaders then e.loaders else e.loaders ++ [key]
  synced := e.synced ++ [key]

/-- The loop over the namespaces; `listBranches` is what the store answers during
this pass, and `none` is an error. -/
def Engine.syncNamespaces (listBranches : String → Option (List String)) :
    Engine → List String → Engine × Option CatalogErr
  | e, [] => (e, none)
  | e, ns :: rest =>
    match listBranches ns with
    | none => (e, some .store)
    | some branches =>
      Engine.syncNamespaces listBranches
        (branches.foldl (fun e branch => e.syncBranch ⟨ns, branch⟩) e) rest

def Engine.SyncOnce (R : RangeOrder String) (read : CatalogRead)
    (listBranches : String → Option (List String)) (e : Engine) : Engine × Option CatalogErr :=
  match ActiveNamespaces R read with
  | .error err => (e, some err)
  | .ok namespaces => e.syncNamespaces listBranches namespaces

/-- The catalog of the store is this map. -/
def Decodes (catalog : TenantCatalog) (namespaces : Namespaces) : Prop :=
  ∀ name, namespaces.lookup name = catalog name

/-- What a read of the catalog may return. -/
inductive Answers (store : CatalogStore) : CatalogRead → Prop
  | found (catalog : TenantCatalog) (generation : ℕ) (namespaces : Namespaces)
    (cell : store.cell () = some (catalog, generation)) (decodes : Decodes catalog namespaces) :
    Answers store (.found namespaces)
  | notFound (cell : store.cell () = none) : Answers store .notFound
  | failed : Answers store .failed

/-- Some namespace is live, or the default one was not deleted. -/
def Spared (store : CatalogStore) : Prop :=
  (∃ name, isActive store name = true) ∨ isDeleted store DefaultNamespace = false

section Active
variable {store : CatalogStore} {R : RangeOrder String} {name : String} {names : List String}

lemma isActive_of_found {catalog : TenantCatalog} {generation : ℕ} {namespaces : Namespaces}
    (hcell : store.cell () = some (catalog, generation)) (hd : Decodes catalog namespaces) :
    isActive store name = true ↔
      name ∈ ((R.range 0 namespaces).entries.filter fun e => e.2.DeletedAt == 0).map Sigma.fst := by
  have hentry : entryOf store name = (R.range 0 namespaces).lookup name := by
    rw [R.lookup, hd, entryOf, hcell, Option.bind_some]
  have hmem : ∀ m, (R.range 0 namespaces).lookup name = some m ↔
      ⟨name, m⟩ ∈ (R.range 0 namespaces).entries :=
    fun m => List.mem_dlookup_iff (R.range 0 namespaces).nodupKeys
  simp only [isActive, hentry, Option.any_eq_true, List.mem_map, List.mem_filter]
  constructor
  · rintro ⟨m, hm, hlive⟩
    exact ⟨⟨name, m⟩, ⟨(hmem m).mp hm, hlive⟩, rfl⟩
  · rintro ⟨⟨k, m⟩, ⟨hm, hlive⟩, rfl⟩
    exact ⟨m, (hmem m).mpr hm, hlive⟩

lemma isActive_of_notFound (hcell : store.cell () = none) : isActive store name = false := by
  simp [isActive, entryOf, hcell]

lemma not_deleted_of_active (h : isActive store name = true) : isDeleted store name = false := by
  unfold isActive at h
  unfold isDeleted
  cases hentry : entryOf store name with
  | none => rfl
  | some m => simpa [hentry] using h

/-- The live names in order, or the default namespace if there are none. -/
theorem ActiveNamespaces_spec {read : CatalogRead} (hread : Answers store read)
    (h : ActiveNamespaces R read = .ok names) :
    names.Pairwise (· ≤ ·) ∧ names.Nodup ∧ names ≠ [] ∧
    ((∀ name, name ∈ names ↔ isActive store name = true) ∨
      names = [DefaultNamespace] ∧ ∀ name, isActive store name = false) := by
  cases hread with
  | failed => cases h
  | notFound hcell =>
    cases h
    exact ⟨List.pairwise_singleton .., List.nodup_singleton _, List.cons_ne_nil _ _, Or.inr
      ⟨rfl, fun _ => isActive_of_notFound hcell⟩⟩
  | found catalog generation namespaces hcell hd =>
    simp only [ActiveNamespaces] at h
    split at h
    · rename_i hlen
      cases h
      refine ⟨List.pairwise_singleton .., List.nodup_singleton _, List.cons_ne_nil _ _, Or.inr
        ⟨rfl, fun name => ?_⟩⟩
      rw [Bool.eq_false_iff, ne_eq, isActive_of_found (R := R) hcell hd,
        List.eq_nil_of_length_eq_zero hlen]
      exact List.not_mem_nil
    · rename_i hlen
      cases h
      have hperm := List.perm_insertionSort (fun a b : String => a ≤ b)
        (((R.range 0 namespaces).entries.filter fun e => e.2.DeletedAt == 0).map Sigma.fst)
      refine ⟨List.pairwise_insertionSort _ _, hperm.nodup_iff.mpr ?_, fun hnil => hlen ?_, Or.inl
        fun name => ?_⟩
      · exact (List.filter_sublist.map Sigma.fst).nodup (R.range 0 namespaces).nodupKeys
      · rw [← hperm.length_eq, hnil, List.length_nil]
      · rw [hperm.mem_iff, isActive_of_found hcell hd]

/-- Deleted names are left out exactly when the fallback does not bring one back. -/
theorem ActiveNamespaces_spared {read : CatalogRead} (hread : Answers store read)
    (h : ActiveNamespaces R read = .ok names) :
    (∀ name ∈ names, isDeleted store name = false) ↔ Spared store := by
  obtain ⟨-, -, hne, hnames | ⟨rfl, hnone⟩⟩ := ActiveNamespaces_spec hread h
  · obtain ⟨first, hfirst⟩ := List.exists_mem_of_ne_nil _ hne
    have hall : ∀ name ∈ names, isDeleted store name = false := fun name hn =>
      not_deleted_of_active ((hnames name).mp hn)
    exact ⟨fun _ => Or.inl ⟨first, (hnames first).mp hfirst⟩, fun _ => hall⟩
  · simp [Spared, hnone]

end Active

section Pickers
variable {R : RangeOrder String} {read : CatalogRead}

/-- Every stream that is discovered is the log of an active namespace. -/
lemma discoverStreams_active {targets : List StreamTarget}
    (h : discoverStreams R read = .ok targets) {target : StreamTarget} (ht : target ∈ targets) :
    ∃ names, ActiveNamespaces R read = .ok names ∧ target.scope.Namespace ∈ names := by
  unfold discoverStreams at h
  split at h
  · cases h
  · rename_i names hnames
    cases h
    obtain ⟨ns, hns, rfl⟩ := List.mem_map.mp ht
    exact ⟨names, hnames, hns⟩

/-- The keys that one pass may touch. -/
def Engine.Within (e e' : Engine) (names : List String) : Prop :=
  (∀ key ∈ e'.loaders, key ∈ e.loaders ∨ key.ns ∈ names) ∧
    ∀ key ∈ e'.synced, key ∈ e.synced ∨ key.ns ∈ names

lemma Engine.Within.refl (e : Engine) (names : List String) : e.Within e names :=
  ⟨fun _ => Or.inl, fun _ => Or.inl⟩

lemma Engine.Within.trans {e e' e'' : Engine} {names : List String} (h : e.Within e' names)
    (h' : e'.Within e'' names) : e.Within e'' names :=
  ⟨fun key hk => (h'.1 key hk).elim (h.1 key) Or.inr,
    fun key hk => (h'.2 key hk).elim (h.2 key) Or.inr⟩

lemma Engine.syncBranch_within (e : Engine) (key : BranchKey) {names : List String}
    (hn : key.ns ∈ names) : e.Within (e.syncBranch key) names := by
  refine ⟨fun k hk => ?_, fun k hk => ?_⟩
  · simp only [Engine.syncBranch] at hk
    split at hk
    · exact Or.inl hk
    · rcases List.mem_append.mp hk with hk | hk
      · exact Or.inl hk
      · rw [List.mem_singleton.mp hk]
        exact Or.inr hn
  · rcases List.mem_append.mp hk with hk | hk
    · exact Or.inl hk
    · rw [List.mem_singleton.mp hk]
      exact Or.inr hn

lemma Engine.syncBranches_within {ns : String} {names : List String} (hn : ns ∈ names)
    (branches : List String) (e : Engine) :
    e.Within (branches.foldl (fun e branch => e.syncBranch ⟨ns, branch⟩) e) names := by
  induction branches generalizing e with
  | nil => exact .refl e names
  | cons branch rest ih => exact (e.syncBranch_within ⟨ns, branch⟩ hn).trans (ih _)

lemma Engine.syncNamespaces_within (listBranches : String → Option (List String))
    {names todo : List String} (hsub : todo ⊆ names) (e : Engine) :
    e.Within (e.syncNamespaces listBranches todo).1 names := by
  induction todo generalizing e with
  | nil => exact .refl e names
  | cons ns rest ih =>
    obtain ⟨hns, hrest⟩ := List.cons_subset.mp hsub
    unfold Engine.syncNamespaces
    split
    · exact .refl e names
    · exact (Engine.syncBranches_within hns _ e).trans (ih hrest _)

/-- A pass creates and runs loaders of active namespaces only. -/
lemma SyncOnce_active (R : RangeOrder String) (read : CatalogRead)
    (listBranches : String → Option (List String)) (e : Engine) :
    (e.SyncOnce R read listBranches).1 = e ∨
      ∃ names, ActiveNamespaces R read = .ok names ∧
        e.Within (e.SyncOnce R read listBranches).1 names := by
  unfold Engine.SyncOnce
  split
  · exact Or.inl rfl
  · rename_i names hnames
    exact Or.inr ⟨names, hnames, Engine.syncNamespaces_within listBranches (List.Subset.refl _) e⟩

end Pickers

section Runs
variable {before : Option Namespaces} {s t : State}

/-- The machine that starts from no catalog, or from the one that decodes to `before`. -/
def machineFrom (before : Option Namespaces) : Machine State Action :=
  machine (before.map fun namespaces name => namespaces.lookup name)

lemma CatalogCall.Effect.decodes {store store' : CatalogStore} {c : CatalogCall} {pc : CatalogPc}
    (h : c.Effect store store' pc) (hd : ∃ m, Decodes (entryOf store) m) :
    ∃ m, Decodes (entryOf store') m := by
  cases h with
  | retry | fail | prepare | found => exact hd
  | write catalog entry pc present updates done =>
    obtain ⟨m, hm⟩ := hd
    refine ⟨m.insert c.name entry, fun name => ?_⟩
    rw [entryOf_put]
    by_cases hn : name = c.name
    · subst hn
      rw [AList.lookup_insert, Function.update_self]
    · rw [AList.lookup_insert_ne hn, Function.update_of_ne hn, hm, present]

/-- Every catalog that a run leaves is a finite map. -/
lemma decodes_reachable (h : (machineFrom before).Reachable s) :
    ∃ m, Decodes (entryOf s.store) m := by
  have hinv : Inv s ∧ ∃ m, Decodes (entryOf s.store) m := by
    refine Machine.Reachable.invariant (M := machineFrom before)
      (P := fun s => Inv s ∧ ∃ m, Decodes (entryOf s.store) m) ⟨?_, ?_⟩ ?_ h
    · exact inv_reachable (Machine.Run.refl (machineFrom before).init)
    · cases before with
      | none => exact ⟨∅, fun name => rfl⟩
      | some m => exact ⟨m, fun name => by simp [machineFrom, machine, initial, entryOf]⟩
    · rintro s a t ⟨hi, hd⟩ hst
      have hc := step_change hi hst
      refine ⟨hc.inv hi, ?_⟩
      cases hc with
      | start i op name now fresh own others store => rwa [store]
      | call i c pc before running own others o step effect => exact effect.decodes hd
  exact hinv.2

lemma answers_exists (h : (machineFrom before).Reachable s) :
    ∃ read, Answers s.store read ∧ read ≠ .failed := by
  obtain ⟨m, hm⟩ := decodes_reachable h
  cases hcell : s.store.cell () with
  | none => exact ⟨.notFound, .notFound hcell, by simp⟩
  | some found =>
    refine ⟨.found m, .found found.1 found.2 m hcell fun name => ?_, by simp⟩
    rw [hm, entryOf, hcell, Option.bind_some]

/-- What a delete that succeeded did is there in every later state. -/
lemma isDeleted_later (hs : (machineFrom before).Reachable s)
    (hst : (machineFrom before).Run anyStep s t) {i : ℕ} {c : CatalogCall}
    {entry : NamespaceMetadata} (hc : s.calls i = some c) (hop : c.op = .deleteNamespace)
    (hr : c.pc = .returned entry) : isDeleted t.store c.name = true := by
  have hl := later_run hs hst
  obtain ⟨⟨m, hm, hle⟩, hdel⟩ := (inv_reachable (hs.run hst)).recorded i c entry
    (hl.returned i c entry hc hr) hr
  have hd : m.DeletedAt ≠ 0 := by
    rw [hle.deletedAt (hdel hop)]
    exact hdel hop
  simpa [isDeleted, hm] using hd

end Runs

/-- In every reachable catalog the active namespaces are in order and without
repetition, and no deleted one is among them if and only if some namespace is
live or the default one was not deleted. As long as that is so, no namespace
whose deletion has succeeded is picked up by the flusher or by the engine. -/
theorem active_namespaces_deleted_iff (before : Option Namespaces) {s : State}
    (hs : (machineFrom before).Reachable s) :
    (∃ read, Answers s.store read ∧ read ≠ .failed) ∧
    (∀ R read names, Answers s.store read → ActiveNamespaces R read = .ok names →
      names.Pairwise (· ≤ ·) ∧ names.Nodup ∧
      ((∀ name ∈ names, isDeleted s.store name = false) ↔ Spared s.store)) ∧
    ∀ i c entry, s.calls i = some c → c.op = .deleteNamespace → c.pc = .returned entry →
      ∀ t, (machineFrom before).Run anyStep s t → Spared t.store →
      ∀ R read, Answers t.store read →
        (∀ targets, discoverStreams R read = .ok targets →
          ∀ target ∈ targets, target.scope.Namespace ≠ c.name) ∧
        ∀ listBranches (e : Engine),
          (∀ key ∈ (e.SyncOnce R read listBranches).1.loaders,
            key.ns = c.name → key ∈ e.loaders) ∧
          ∀ key ∈ (e.SyncOnce R read listBranches).1.synced, key.ns = c.name → key ∈ e.synced := by
  refine ⟨answers_exists hs, ?_, ?_⟩
  · intro R read names hread hnames
    obtain ⟨hsorted, hnodup, -, -⟩ := ActiveNamespaces_spec hread hnames
    exact ⟨hsorted, hnodup, ActiveNamespaces_spared hread hnames⟩
  · intro i c entry hc hop hr t hst hspared R read hread
    have hgone : ∀ names, ActiveNamespaces R read = .ok names → c.name ∉ names := by
      intro names hnames hmem
      have hlive := (ActiveNamespaces_spared hread hnames).mpr hspared c.name hmem
      rw [isDeleted_later hs hst hc hop hr] at hlive
      cases hlive
    refine ⟨?_, fun listBranches e => ?_⟩
    · intro targets htargets target ht heq
      obtain ⟨names, hnames, hmem⟩ := discoverStreams_active htargets ht
      exact hgone names hnames (heq ▸ hmem)
    · rcases SyncOnce_active R read listBranches e with heq | ⟨names, hn, hw⟩
      · rw [heq]
        exact ⟨fun _ hk _ => hk, fun _ hk _ => hk⟩
      · refine ⟨fun key hk heq => (hw.1 key hk).resolve_right ?_,
          fun key hk heq => (hw.2 key hk).resolve_right ?_⟩ <;>
        · rw [heq]
          exact hgone names hn

-- Two namespaces are created and the default one is deleted.
def deleteDefaultScript : List Action :=
  [.call 0 .createNamespace "default" 3, .step 0 .ok, .step 0 .ok,
   .call 1 .createNamespace "a" 4, .step 1 .ok, .step 1 .ok,
   .call 2 .deleteNamespace "default" 5, .step 2 .ok, .step 2 .ok]

lemma some_of_map_eq {s : State} {i : ℕ} {c : CatalogCall} (hc : s.calls i = some c)
    {op : CatalogOp} {name : String}
    (h : (s.calls i).map (fun c => (c.op, c.name)) = some (op, name)) :
    c.op = op ∧ c.name = name := by
  rw [hc, Option.map_some, Option.some.injEq, Prod.mk.injEq] at h
  exact h

set_option maxRecDepth 8000 in
/-- With one namespace left alive, the deleted default is not discovered again. -/
theorem active_namespaces_deleted_iff_live : ∃ t : State, (machineFrom none).Reachable t ∧
    isDeleted t.store "default" = true ∧ isActive t.store "a" = true ∧
    (∃ read, Answers t.store read ∧ read ≠ .failed) ∧
    ∀ R read, Answers t.store read → ∀ targets, discoverStreams R read = .ok targets →
      ∀ target ∈ targets, target.scope.Namespace ≠ "default" := by
  obtain ⟨t, hs, ⟨h2, hcall, hdel, hlive⟩⟩ := Machine.exec_exists (machineFrom none) anyStep
    (machineFrom none).init deleteDefaultScript
    (fun s => hasReturned s 2 = some ⟨0, 3, 5⟩ ∧
      (s.calls 2).map (fun c => (c.op, c.name)) = some (.deleteNamespace, "default") ∧
      isDeleted s.store "default" = true ∧ isActive s.store "a" = true)
    (by decide +kernel)
  obtain ⟨hread, -, hpick⟩ := active_namespaces_deleted_iff none hs
  obtain ⟨c, hc, hr⟩ := hasReturned_some h2
  obtain ⟨hop, hname⟩ := some_of_map_eq hc hcall
  refine ⟨t, hs, hdel, hlive, hread, fun R read hanswer => ?_⟩
  have hfree := (hpick 2 c _ hc hop hr t (Machine.Run.refl t) (Or.inl ⟨"a", hlive⟩) R read
    hanswer).1
  rwa [hname] at hfree

-- The default namespace is the only one, and it is deleted.
def deleteOnlyScript : List Action :=
  [.call 0 .createNamespace "default" 3, .step 0 .ok, .step 0 .ok,
   .call 1 .deleteNamespace "default" 5, .step 1 .ok, .step 1 .ok]

def onlyDeleted : Namespaces := AList.singleton "default" ⟨0, 3, 5⟩

lemma onlyDeleted_decodes : Decodes (Function.update (Function.update (fun _ => none) "default"
    (some ⟨0, 3, 0⟩)) "default" (some ⟨0, 3, 5⟩)) onlyDeleted := by
  intro name
  by_cases hn : name = "default"
  · subst hn
    rfl
  · rw [Function.update_of_ne hn, Function.update_of_ne hn]
    exact List.dlookup_cons_ne _ _ hn

lemma onlyDeleted_active (R : RangeOrder String) :
    ActiveNamespaces R (.found onlyDeleted) = .ok ["default"] := by
  have hentries : (R.range 0 onlyDeleted).entries = onlyDeleted.entries :=
    List.perm_singleton.mp (R.perm 0 onlyDeleted)
  simp only [ActiveNamespaces, hentries]
  rfl

/-- With every namespace deleted, the fallback brings the deleted default back. -/
theorem active_namespaces_default_returns : ∃ (s : State) (c : CatalogCall) (read : CatalogRead),
    (machineFrom none).Reachable s ∧ s.calls 1 = some c ∧ c.op = .deleteNamespace ∧
    c.name = "default" ∧ c.pc = .returned ⟨0, 3, 5⟩ ∧ isDeleted s.store "default" = true ∧
    Answers s.store read ∧ ∀ R, ActiveNamespaces R read = .ok ["default"] ∧
      discoverStreams R read = .ok [⟨⟨"default"⟩, Scope.WALPrefix ⟨"default"⟩⟩] ∧
      (Engine.SyncOnce R read (fun _ => some ["main"]) {}).1.synced = [⟨"default", "main"⟩] := by
  have hrun : ∃ s c, (machineFrom none).exec anyStep (machineFrom none).init deleteOnlyScript =
      some s ∧ s.calls 1 = some c ∧ c.op = .deleteNamespace ∧ c.name = "default" ∧
      c.pc = .returned ⟨0, 3, 5⟩ ∧ s.store.cell () = some (Function.update (Function.update
        (fun _ => none) "default" (some ⟨0, 3, 0⟩)) "default" (some ⟨0, 3, 5⟩), 1) :=
    ⟨_, _, rfl, rfl, rfl, rfl, rfl, rfl⟩
  obtain ⟨s, c, hexec, hc, hop, hname, hpc, hcell⟩ := hrun
  refine ⟨s, c, .found onlyDeleted, Machine.exec_run hexec, hc, hop, hname, hpc, ?_,
    .found _ _ _ hcell onlyDeleted_decodes, fun R => ⟨onlyDeleted_active R, ?_, ?_⟩⟩
  · simp [isDeleted, entryOf, hcell]
  · simp only [discoverStreams, onlyDeleted_active, List.map_cons, List.map_nil]
  · simp only [Engine.SyncOnce, onlyDeleted_active]
    rfl

end CloudyNeigh.Tenant
