import CloudyNeigh.Checked
import CloudyNeigh.NamespaceScope
import CloudyNeigh.ServerRun
import Mathlib.Data.List.Sort
import Mathlib.Data.String.Basic

/-!
# The stores of a server

`LoadRegistry` opens one store for each tenant of the tenants file, and whoever fails after
that closes them again. The stores are of any type, and what comes of each `Open` and the
order of every loop over a map are parameters.
-/
namespace CloudyNeigh.Server
open Checked Naming Transition

structure Registry (σ : Type) where
  stores : AList fun _ : String => σ
  tenants : List String

inductive RegistryErr (ε : Type)
  | readTenantsFile
  | unmarshalTenantsFile
  | noTenants
  | missingStorageUrl (tenant : String)
  | openStore (tenant : String) (e : ε)
  | emptyStores
  | invalidName (e : NameErr)
  | nilStore (tenant : String)
  | listen

section Load
variable {σ ε : Type}

/-- The loop of `NewRegistry`; `none` is a nil store. -/
def copyStores : List (Σ _ : String, Option σ) → AList (fun _ : String => σ) → List String →
    Except (RegistryErr ε) (AList (fun _ : String => σ) × List String)
  | [], copied, tenants => .ok (copied, tenants)
  | ⟨tenant, store⟩ :: rest, copied, tenants =>
    match ValidateName tenant with
    | .error e => .error (.invalidName e)
    | .ok _ =>
      match store with
      | none => .error (.nilStore tenant)
      | some store => copyStores rest (copied.insert tenant store) (tenants ++ [tenant])

def NewRegistry (R : RangeOrder String) (stores : AList fun _ : String => Option σ) :
    Except (RegistryErr ε) (Registry σ) :=
  if stores.entries.length = 0 then .error .emptyStores
  else
    match copyStores (R.range 0 stores).entries ∅ [] with
    | .error e => .error e
    | .ok (copied, tenants) => .ok ⟨copied, tenants.insertionSort (· ≤ ·)⟩

/-- The stores that are open after a loop over tenants, and the calls of `Open` that have
succeeded, in order. -/
structure Opening (σ : Type) where
  opened : AList fun _ : String => σ := ∅
  opens : List String := []

/-- The loop of `LoadRegistry` over tenants and their storage URLs. -/
def openStores (Open : String → String → Except ε σ) :
    List (Σ _ : String, String) → Opening σ → Option (RegistryErr ε) × Opening σ
  | [], o => (none, o)
  | ⟨tenant, url⟩ :: rest, o =>
    if url = "" then (some (.missingStorageUrl tenant), o)
    else
      match Open tenant url with
      | .error e => (some (.openStore tenant e), o)
      | .ok store => openStores Open rest ⟨o.opened.insert tenant store, o.opens ++ [tenant]⟩

/-- A result with the tenants whose stores were opened and closed on the way. -/
structure Outcome (σ ε : Type) where
  result : Except (RegistryErr ε) (Registry σ)
  opens : List String := []
  closes : List String := []

/-- `closeOpenedStores` before the error is returned. -/
def closeOpened (R : RangeOrder String) (o : Opening σ) (e : RegistryErr ε) : Outcome σ ε :=
  ⟨.error e, o.opens, (R.range 1 o.opened).keys⟩

/-- The map of open stores, none of them nil. -/
def Opening.stores (o : Opening σ) : AList fun _ : String => Option σ where
  entries := o.opened.entries.map fun e => ⟨e.1, some e.2⟩
  nodupKeys := by
    rw [List.NodupKeys, List.keys, List.map_map]
    exact o.opened.nodupKeys

/-- `tenants` is the tenants file, with the storage URL of each tenant. -/
def LoadRegistry (R : RangeOrder String) (Open : String → String → Except ε σ)
    (tenants : Except (RegistryErr ε) (AList fun _ : String => String)) : Outcome σ ε :=
  match tenants with
  | .error e => ⟨.error e, [], []⟩
  | .ok tenants =>
    if tenants.entries.length = 0 then ⟨.error .noTenants, [], []⟩
    else
      match openStores Open (R.range 2 tenants).entries {} with
      | (some e, o) => closeOpened R o e
      | (none, o) =>
        match NewRegistry R o.stores with
        | .error e => closeOpened R o e
        | .ok reg => ⟨.ok reg, o.opens, []⟩

/-- `newIngestServer` and `newQueryServer`: the ingesters, flushers and engines of the
tenants can be made, for no store is nil, and `listening` is what comes of `net.Listen`. -/
def newServer (R : RangeOrder String) (Open : String → String → Except ε σ)
    (tenants : Except (RegistryErr ε) (AList fun _ : String => String)) (listening : Bool) :
    Outcome σ ε :=
  match LoadRegistry R Open tenants with
  | ⟨.error e, opens, closes⟩ => ⟨.error e, opens, closes⟩
  | ⟨.ok reg, opens, closes⟩ =>
    if listening then ⟨.ok reg, opens, closes⟩
    else ⟨.error .listen, opens, closes ++ (R.range 3 reg.stores).keys⟩

section Loops
variable {es : List (Σ _ : String, String)} {o o' : Opening σ} {Open : String → String → Except ε σ}

/-- Every store that was opened is in the map. -/
def Opening.Tracks (o : Opening σ) : Prop := o.opens.Perm o.opened.keys

lemma Opening.Tracks.insert (h : o.Tracks) {tenant : String} (hnew : tenant ∉ o.opened) (store : σ) :
    Opening.Tracks ⟨o.opened.insert tenant store, o.opens ++ [tenant]⟩ := by
  have hkeys : (o.opened.insert tenant store).keys = tenant :: o.opened.keys := by
    rw [AList.keys_insert, List.erase_of_not_mem hnew]
  rw [Opening.Tracks, hkeys]
  exact (List.perm_append_singleton tenant o.opens).trans (h.cons tenant)

lemma openStores_tracks (h : o.Tracks) (hes : es.NodupKeys) (hnew : ∀ tenant ∈ es.keys, tenant ∉ o.opened) :
    (openStores Open es o).2.Tracks := by
  induction es generalizing o with
  | nil => exact h
  | cons e rest ih =>
    obtain ⟨tenant, url⟩ := e
    rw [List.nodupKeys_cons] at hes
    unfold openStores
    split
    · exact h
    · split
      · exact h
      · have htenant : tenant ∉ o.opened := hnew tenant (by simp)
        refine ih (h.insert htenant _) hes.2 fun tenant' ht' => ?_
        rw [AList.mem_insert, not_or]
        exact ⟨fun he => hes.1 (he ▸ ht'), hnew tenant' (List.mem_cons_of_mem _ ht')⟩

lemma openStores_keys (h : openStores Open es o = (none, o')) {tenant : String} :
    tenant ∈ o'.opened ↔ tenant ∈ es.keys ∨ tenant ∈ o.opened := by
  induction es generalizing o with
  | nil =>
    cases h
    simp
  | cons e rest ih =>
    obtain ⟨tenant', url⟩ := e
    unfold openStores at h
    split at h
    · cases h
    · split at h
      · cases h
      · rw [ih h, AList.mem_insert, List.keys_cons, List.mem_cons]
        tauto

/-- Each store in the map is what `Open` returned for its tenant. -/
lemma openStores_lookup (h : openStores Open es o = (none, o')) {tenant : String} {store : σ}
    (hstore : o'.opened.lookup tenant = some store) :
    (∃ url, ⟨tenant, url⟩ ∈ es ∧ Open tenant url = .ok store) ∨
      o.opened.lookup tenant = some store := by
  induction es generalizing o with
  | nil =>
    cases h
    exact .inr hstore
  | cons e rest ih =>
    obtain ⟨tenant', url⟩ := e
    unfold openStores at h
    split at h
    · cases h
    · split at h
      · cases h
      · rename_i store' hopen
        rcases ih h with ⟨url', hmem, hopen'⟩ | hold
        · exact .inl ⟨url', List.mem_cons_of_mem _ hmem, hopen'⟩
        · by_cases he : tenant = tenant'
          · subst he
            rw [AList.lookup_insert, Option.some.injEq] at hold
            exact .inl ⟨url, List.mem_cons_self, hold ▸ hopen⟩
          · rw [AList.lookup_insert_ne he] at hold
            exact .inr hold

/-- What the loop of `NewRegistry` has copied at its end. -/
lemma copyStores_spec {es : List (Σ _ : String, Option σ)} {copied copied' : AList fun _ : String => σ}
    {tenants tenants' : List String} (hes : es.NodupKeys) (hnew : ∀ tenant ∈ es.keys, tenant ∉ copied)
    (h : copyStores (ε := ε) es copied tenants = .ok (copied', tenants')) :
    tenants' = tenants ++ es.keys ∧ (∀ tenant ∈ es.keys, Valid tenant) ∧
      copied'.keys.Perm (es.keys ++ copied.keys) ∧
      ∀ tenant store, copied'.lookup tenant = some store →
        ⟨tenant, some store⟩ ∈ es ∨ copied.lookup tenant = some store := by
  induction es generalizing copied tenants with
  | nil =>
    cases h
    exact ⟨(List.append_nil _).symm, (fun _ ht => nomatch ht), List.Perm.refl _, fun _ _ hs => .inr hs⟩
  | cons e rest ih =>
    obtain ⟨tenant, store⟩ := e
    rw [List.nodupKeys_cons] at hes
    unfold copyStores at h
    split at h
    · cases h
    rename_i hvalid
    split at h
    · cases h
    rename_i store'
    have htenant : tenant ∉ copied := hnew tenant (by simp)
    have hkeys : (copied.insert tenant store').keys = tenant :: copied.keys := by
      rw [AList.keys_insert, List.erase_of_not_mem htenant]
    obtain ⟨hts, hall, hperm, hlookup⟩ := ih hes.2 (fun tenant' ht' => by
      rw [AList.mem_insert, not_or]
      exact ⟨fun he => hes.1 (he ▸ ht'), hnew tenant' (List.mem_cons_of_mem _ ht')⟩) h
    refine ⟨?_, ?_, ?_, fun tenant' store hs => ?_⟩
    · rw [hts, List.append_assoc]
      rfl
    · rw [List.keys_cons, List.forall_mem_cons]
      exact ⟨hvalid, hall⟩
    · rw [hkeys] at hperm
      exact hperm.trans List.perm_middle
    · rcases hlookup tenant' store hs with hmem | hold
      · exact .inl (List.mem_cons_of_mem _ hmem)
      · by_cases he : tenant' = tenant
        · subst he
          rw [AList.lookup_insert, Option.some.injEq] at hold
          exact .inl (by simp [hold])
        · rw [AList.lookup_insert_ne he] at hold
          exact .inr hold

end Loops

/-- The registry of a tenants file: its tenants in order, all of them with valid names, each
with the store that `Open` returned for its URL. -/
structure Registry.Loaded (Open : String → String → Except ε σ)
    (tenants : AList fun _ : String => String) (reg : Registry σ) : Prop where
  sorted : reg.tenants.Pairwise (· ≤ ·)
  listed : reg.tenants.Perm reg.stores.keys
  valid : ∀ tenant ∈ reg.tenants, Valid tenant
  complete : ∀ tenant, tenant ∈ reg.stores ↔ tenant ∈ tenants
  opened : ∀ tenant store, reg.stores.lookup tenant = some store →
    ∃ url, tenants.lookup tenant = some url ∧ Open tenant url = .ok store

section Spec
variable {R : RangeOrder String} {Open : String → String → Except ε σ}

lemma range_keys {α : Type} (n : ℕ) (m : AList fun _ : String => α) :
    (R.range n m).keys.Perm m.keys := (R.perm n m).map Sigma.fst

lemma newRegistry_ok {stores : AList fun _ : String => Option σ} {reg : Registry σ}
    (h : NewRegistry (ε := ε) R stores = .ok reg) :
    reg.tenants.Pairwise (· ≤ ·) ∧ reg.tenants.Perm stores.keys ∧
      (∀ tenant ∈ reg.tenants, Valid tenant) ∧ reg.stores.keys.Perm stores.keys ∧
      ∀ tenant store, reg.stores.lookup tenant = some store →
        stores.lookup tenant = some (some store) := by
  unfold NewRegistry at h
  split at h
  · cases h
  split at h
  · cases h
  rename_i copied tenants hcopy
  cases h
  obtain ⟨hts, hvalid, hkeys, hlookup⟩ := copyStores_spec (R.range 0 stores).nodupKeys
    (fun _ _ => AList.notMem_empty _) hcopy
  rw [List.nil_append] at hts
  rw [AList.keys_empty, List.append_nil] at hkeys
  have hperm : (tenants.insertionSort (· ≤ ·)).Perm stores.keys := by
    refine (List.perm_insertionSort _ _).trans ?_
    rw [hts]
    exact range_keys 0 stores
  refine ⟨List.pairwise_insertionSort _ _, hperm, fun tenant ht => ?_, hkeys.trans (range_keys 0 stores),
    fun tenant store hs => ?_⟩
  · exact hvalid tenant (hts ▸ (List.perm_insertionSort _ _).mem_iff.mp ht)
  · rcases hlookup tenant store hs with hmem | hnone
    · rw [← R.lookup 0 stores tenant]
      exact AList.mem_lookup_iff.mpr hmem
    · cases hnone

lemma Opening.keys_stores (o : Opening σ) : o.stores.keys = o.opened.keys := by
  rw [Opening.stores, AList.keys_mk, List.keys, List.map_map]
  rfl

lemma Opening.lookup_stores {o : Opening σ} {tenant : String} {store : σ}
    (h : o.stores.lookup tenant = some (some store)) : o.opened.lookup tenant = some store := by
  obtain ⟨⟨tenant', store'⟩, hmem, he⟩ := List.mem_map.mp (AList.mem_lookup_iff.mp h)
  cases he
  exact AList.mem_lookup_iff.mpr hmem

/-- What was opened is in the registry that is returned, or closed, and nothing is opened or
closed twice. -/
structure Outcome.Sound (Open : String → String → Except ε σ)
    (tenants : Except (RegistryErr ε) (AList fun _ : String => String)) (out : Outcome σ ε) :
    Prop where
  once : out.opens.Nodup
  failed : ∀ e, out.result = .error e → out.closes.Perm out.opens
  ok : ∀ reg, out.result = .ok reg → out.closes = [] ∧ reg.stores.keys.Perm out.opens ∧
    ∃ cfg, tenants = .ok cfg ∧ reg.Loaded Open cfg

variable {tenants : Except (RegistryErr ε) (AList fun _ : String => String)}

lemma Opening.Tracks.nodup {o : Opening σ} (h : o.Tracks) : o.opens.Nodup :=
  h.nodup_iff.mpr o.opened.keys_nodup

lemma closeOpened_sound {o : Opening σ} (h : o.Tracks) (e : RegistryErr ε) :
    (closeOpened R o e).Sound Open tenants where
  once := h.nodup
  failed _ _ := (range_keys 1 o.opened).trans h.symm
  ok _ hreg := nomatch hreg

lemma loaded_of_opened {cfg : AList fun _ : String => String} {o : Opening σ} {reg : Registry σ}
    (hopen : openStores Open (R.range 2 cfg).entries {} = (none, o))
    (hreg : NewRegistry (ε := ε) R o.stores = .ok reg) :
    reg.stores.keys.Perm o.opened.keys ∧ reg.Loaded Open cfg := by
  obtain ⟨hsorted, hlisted, hvalid, hkeys, hlookup⟩ := newRegistry_ok hreg
  rw [o.keys_stores] at hlisted hkeys
  refine ⟨hkeys, hsorted, hlisted.trans hkeys.symm, hvalid, fun tenant => ?_, fun tenant store hs => ?_⟩
  · have hmem : tenant ∈ o.opened ↔ _ := openStores_keys hopen
    rw [AList.mem_keys, hkeys.mem_iff, ← AList.mem_keys, hmem,
      or_iff_left (AList.notMem_empty tenant)]
    exact (range_keys 2 cfg).mem_iff
  · rcases openStores_lookup hopen (Opening.lookup_stores (hlookup tenant store hs)) with
      ⟨url, hmem, hurl⟩ | hnone
    · refine ⟨url, ?_, hurl⟩
      rw [← R.lookup 2 cfg tenant]
      exact AList.mem_lookup_iff.mpr hmem
    · cases hnone

theorem loadRegistry_sound (R : RangeOrder String) (Open : String → String → Except ε σ)
    (tenants : Except (RegistryErr ε) (AList fun _ : String => String)) :
    (LoadRegistry R Open tenants).Sound Open tenants := by
  have hnothing : ∀ e, (⟨.error e, [], []⟩ : Outcome σ ε).Sound Open tenants := fun e =>
    ⟨List.nodup_nil, fun _ _ => List.Perm.refl _, fun _ hreg => nomatch hreg⟩
  cases tenants with
  | error e => exact hnothing e
  | ok cfg =>
    have htracks : (openStores Open (R.range 2 cfg).entries {}).2.Tracks :=
      openStores_tracks (List.Perm.refl _) (R.range 2 cfg).nodupKeys fun _ _ => AList.notMem_empty _
    simp only [LoadRegistry]
    split
    · exact hnothing _
    cases hopen : openStores Open (R.range 2 cfg).entries {} with
    | mk e o =>
      rw [hopen] at htracks
      cases e with
      | some e => exact closeOpened_sound htracks e
      | none =>
        cases hreg : NewRegistry (ε := ε) R o.stores with
        | error e =>
          simp only [hreg]
          exact closeOpened_sound htracks e
        | ok reg =>
          simp only [hreg]
          refine ⟨htracks.nodup, (fun _ he => nomatch he), fun reg' hreg' => ?_⟩
          cases hreg'
          obtain ⟨hkeys, hloaded⟩ := loaded_of_opened hopen hreg
          exact ⟨rfl, hkeys.trans htracks.symm, cfg, rfl, hloaded⟩

theorem newServer_sound (R : RangeOrder String) (Open : String → String → Except ε σ)
    (tenants : Except (RegistryErr ε) (AList fun _ : String => String)) (listening : Bool) :
    (newServer R Open tenants listening).Sound Open tenants := by
  have hload := loadRegistry_sound R Open tenants
  unfold newServer
  split
  · rename_i e opens closes heq
    rwa [heq] at hload
  · rename_i reg opens closes heq
    rw [heq] at hload
    split
    · exact hload
    · obtain ⟨hnone, hkeys, -⟩ := hload.ok reg rfl
      refine ⟨hload.once, fun _ _ => ?_, fun _ hreg => nomatch hreg⟩
      have hnone : closes = [] := hnone
      rw [hnone, List.nil_append]
      exact (range_keys 3 reg.stores).trans hkeys

end Spec

/-- **Every store that a server opens is closed once**, whatever fails on the way: a server
that does not come up has closed what it opened, and one that comes up has a store for each
tenant of the file, closes none before `serveGRPC` and all workers have returned, and has
closed each by the time that `Serve` returns. -/
theorem stores_closed_once (R : RangeOrder String) (Open : String → String → Except ε σ)
    (tenants : Except (RegistryErr ε) (AList fun _ : String => String)) (listening : Bool) :
    (newServer R Open tenants listening).opens.Nodup ∧
    (∀ e, (newServer R Open tenants listening).result = .error e →
      (newServer R Open tenants listening).closes.Perm (newServer R Open tenants listening).opens) ∧
    ∀ reg, (newServer R Open tenants listening).result = .ok reg →
      (newServer R Open tenants listening).closes = [] ∧
      (∃ cfg, tenants = .ok cfg ∧ reg.Loaded Open cfg) ∧
      ∀ s, (serve (R.range 3 reg.stores).keys).Reachable s →
        s.closed.Nodup ∧ s.closed ⊆ (newServer R Open tenants listening).opens ∧
        (s.closed ≠ [] → (∃ ok, s.grpc = .returned ok) ∧
          ∀ tenant ∈ reg.stores.keys, (s.workers tenant).done = true) ∧
        ∀ ok, s.main = .returned ok →
          s.closed.Perm (newServer R Open tenants listening).opens := by
  have hsound := newServer_sound R Open tenants listening
  refine ⟨hsound.once, hsound.failed, fun reg hreg => ?_⟩
  obtain ⟨hnone, hkeys, hloaded⟩ := hsound.ok reg hreg
  refine ⟨hnone, hloaded, fun s hs => ?_⟩
  have hall := (range_keys (R := R) 3 reg.stores).trans hkeys
  have hm := mainOk_reachable hs
  refine ⟨?_, fun tenant ht => ?_, fun hclosed => ?_, fun ok hok => ?_⟩
  · exact (hall.nodup_iff.mpr hsound.once).sublist hm.closed_isPrefix.sublist
  · exact hall.mem_iff.mp (hm.closed_isPrefix.subset ht)
  · obtain ⟨hgrpc, hdone⟩ := hm.ended fun hwait => hclosed (hm.waiting hwait)
    exact ⟨hgrpc, fun tenant ht => hdone tenant ((range_keys 3 reg.stores).mem_iff.mpr ht)⟩
  · rw [hm.returned ok hok]
    exact hall

/-- The second of two stores cannot be opened. -/
def halfOpened : Outcome String Unit :=
  newServer RangeOrder.stored
    (fun _ url => if url = "mem:" then .ok url else .error ())
    (.ok (((∅ : AList fun _ : String => String).insert "umbrella" "ftp:").insert "acme" "mem:")) true

theorem stores_closed_once_failed : halfOpened.result = .error (.openStore "umbrella" ()) ∧
    halfOpened.opens = ["acme"] ∧ halfOpened.closes.Perm ["acme"] := by
  have hresult : halfOpened.result = .error (.openStore "umbrella" ()) := by rfl
  have hopens : halfOpened.opens = ["acme"] := by rfl
  have hcloses := (stores_closed_once _ _ _ _).2.1 _ hresult
  exact ⟨hresult, hopens, hopens ▸ hcloses⟩

end Load

end CloudyNeigh.Server
