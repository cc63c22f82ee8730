import CloudyNeigh.NamespaceScope
import CloudyNeigh.ReadModifyWrite

/-!
# The list of tenants

`AddTenant` as a read-modify-write loop on `tenants.json`, and `ListTenants`. A name that
`ValidateName` refuses never comes to the loop, so the operations are valid names.
-/
namespace CloudyNeigh.Tenants
open Naming Transition ReadModifyWrite

def DefaultTenant : String := "cloudy"

/-- The argument of an `AddTenant` that comes to its loop. -/
abbrev TenantName := { tenant : String // Valid tenant }

/-- What `AddTenant` makes of the tenants that it has read; `none` is its early return. -/
def change (tenant : TenantName) (tenants : List String) : Option (List String) :=
  if tenant.1 ∈ tenants then none else some (tenants ++ [tenant.1])

def AddTenant : Object TenantName (List String) := ⟨[], change⟩

abbrev State := ReadModifyWrite.State TenantName (List String)

def machine (before : Option (List String)) : Machine State (Action TenantName) :=
  AddTenant.machine before

/-- What `ReadTenantsJSON` returns; a missing object is the empty list. -/
def ReadTenantsJSON (s : State) : List String := AddTenant.value s.store

def ListTenants (s : State) : List String :=
  if (ReadTenantsJSON s).length = 0 then [DefaultTenant] else ReadTenantsJSON s

/-- What the list gains by additions: their names, each when it is first added. -/
def gained (tenants : List String) : List (ℕ × TenantName) → List String
  | [] => []
  | w :: ws =>
    if w.2.1 ∈ tenants then gained tenants ws
    else w.2.1 :: gained (tenants ++ [w.2.1]) ws

lemma apply_mem {tenants : List String} {tenant : TenantName} (h : tenant.1 ∈ tenants) :
    AddTenant.apply tenants tenant = tenants := by
  change (change tenant tenants).getD tenants = tenants
  rw [change, if_pos h, Option.getD_none]

lemma apply_not_mem {tenants : List String} {tenant : TenantName} (h : tenant.1 ∉ tenants) :
    AddTenant.apply tenants tenant = tenants ++ [tenant.1] := by
  change (change tenant tenants).getD tenants = _
  rw [change, if_neg h, Option.getD_some]

lemma replay_eq (tenants : List String) (ws : List (ℕ × TenantName)) :
    AddTenant.replay tenants ws = tenants ++ gained tenants ws := by
  induction ws generalizing tenants with
  | nil => exact (List.append_nil tenants).symm
  | cons w ws ih =>
    change AddTenant.replay (AddTenant.apply tenants w.2) ws = _
    rw [ih]
    by_cases hw : w.2.1 ∈ tenants
    · rw [apply_mem hw, gained, if_pos hw]
    · rw [apply_not_mem hw, gained, if_neg hw, List.append_assoc, List.singleton_append]

/-- The gain has no name twice, none of the old names, and only names that were added. -/
lemma gained_spec (tenants : List String) (ws : List (ℕ × TenantName)) :
    (gained tenants ws).Nodup ∧
      ∀ x ∈ gained tenants ws, x ∉ tenants ∧ ∃ w ∈ ws, w.2.1 = x := by
  induction ws generalizing tenants with
  | nil => exact ⟨List.nodup_nil, fun x hx => absurd hx List.not_mem_nil⟩
  | cons w ws ih =>
    unfold gained
    split
    · obtain ⟨hnodup, hnew⟩ := ih tenants
      refine ⟨hnodup, fun x hx => ?_⟩
      obtain ⟨hx, w', hw', he⟩ := hnew x hx
      exact ⟨hx, w', List.mem_cons_of_mem _ hw', he⟩
    · rename_i hw
      obtain ⟨hnodup, hnew⟩ := ih (tenants ++ [w.2.1])
      refine ⟨List.nodup_cons.mpr ⟨fun hmem => ?_, hnodup⟩, fun x hx => ?_⟩
      · exact (hnew _ hmem).1 (List.mem_append_right _ (List.mem_singleton_self _))
      · rcases List.mem_cons.mp hx with rfl | hx
        · exact ⟨hw, w, List.mem_cons_self, rfl⟩
        · obtain ⟨hx, w', hw', he⟩ := hnew x hx
          exact ⟨fun h => hx (List.mem_append_left _ h), w', List.mem_cons_of_mem _ hw', he⟩

section Runs
variable {before : Option (List String)} {s t : State}

lemma gained_run (hs : (machine before).Reachable s) (hst : (machine before).Run anyStep s t) :
    ∃ ws, t.writes = s.writes ++ ws ∧
      ReadTenantsJSON t = ReadTenantsJSON s ++ gained (ReadTenantsJSON s) ws := by
  obtain ⟨ws, hws, hv⟩ := Object.replay_run hs hst
  exact ⟨ws, hws, hv.trans (replay_eq ..)⟩

/-- Whoever has returned is in the list. -/
lemma returned_listed (hs : (machine before).Reachable s) :
    ∀ i c, s.calls i = some c → c.pc = .returned → c.op.1 ∈ ReadTenantsJSON s := by
  have hall : (machine before).Reachable s ∧
      ∀ i c, s.calls i = some c → c.pc = .returned → c.op.1 ∈ ReadTenantsJSON s := by
    refine Machine.Reachable.invariant (P := fun s => (machine before).Reachable s ∧
      ∀ i c, s.calls i = some c → c.pc = .returned → c.op.1 ∈ ReadTenantsJSON s) ?_ ?_ hs
    · exact ⟨Machine.Run.refl _, fun i c hc => nomatch hc⟩
    · rintro s a t ⟨hs, ih⟩ hst
      refine ⟨hs.snoc trivial hst, fun i c hc hr => ?_⟩
      by_cases hold : s.calls i = some c
      · obtain ⟨ws, -, hv⟩ := gained_run hs ((Machine.Run.refl s).snoc trivial hst)
        rw [hv]
        exact List.mem_append_left _ (ih i c hold hr)
      · have hch := Object.step_change (Object.inv_reachable hs) hst
        rcases hch.returned hc hr hold with ⟨-, hchange⟩ | ⟨-, hstore, hidle⟩
        · -- the call has just appended its name
          change change c.op _ = _ at hchange
          unfold change at hchange
          split at hchange
          · cases hchange
          · rw [ReadTenantsJSON, ← Option.some.inj hchange]
            exact List.mem_append_right _ (List.mem_singleton_self _)
        · change change c.op _ = none at hidle
          unfold change at hidle
          split at hidle
          · rwa [ReadTenantsJSON, hstore]
          · cases hidle
  exact hall.2

/-- **No tenant is lost, moved or listed twice**: between two states of any run of concurrent
`AddTenant` calls the list grows at its end only, by valid names that were not in it, each of
them once and of a call that wrote it; the tenant of every call that has returned stays listed;
and `ListTenants` keeps its order and members, unless it only had the default. -/
theorem tenants_append_only (hs : (machine before).Reachable s)
    (hst : (machine before).Run anyStep s t) :
    (∃ new, ReadTenantsJSON t = ReadTenantsJSON s ++ new ∧ new.Nodup ∧
      ∀ x ∈ new, Valid x ∧ x ∉ ReadTenantsJSON s ∧
        ∃ i c, t.calls i = some c ∧ c.op.1 = x ∧ (i, c.op) ∈ t.writes) ∧
    (∀ i c, s.calls i = some c → c.pc = .returned → c.op.1 ∈ ListTenants t) ∧
    ((ReadTenantsJSON s).Nodup → (ReadTenantsJSON t).Nodup) ∧
    (ReadTenantsJSON s ≠ [] → ListTenants s <+: ListTenants t) := by
  obtain ⟨ws, hws, hv⟩ := gained_run hs hst
  obtain ⟨hnodup, hnew⟩ := gained_spec (ReadTenantsJSON s) ws
  have hlist : ∀ u : State, ReadTenantsJSON u ≠ [] → ListTenants u = ReadTenantsJSON u :=
    fun u hu => if_neg (fun h => hu (List.length_eq_zero_iff.mp h))
  refine ⟨⟨_, hv, hnodup, fun x hx => ?_⟩, fun i c hc hr => ?_, fun hs => ?_, fun hne => ?_⟩
  · obtain ⟨hnot, w, hw, rfl⟩ := hnew x hx
    have hmem : w ∈ t.writes := hws ▸ List.mem_append_right _ hw
    obtain ⟨c, hc, hop, -⟩ := (Object.inv_reachable (hs.run hst)).recorded w hmem
    exact ⟨w.2.2, hnot, w.1, c, hc, by rw [hop], by rwa [hop]⟩
  · have hmem : c.op.1 ∈ ReadTenantsJSON t := by
      rw [hv]
      exact List.mem_append_left _ (returned_listed hs i c hc hr)
    rwa [hlist t (List.ne_nil_of_mem hmem)]
  · rw [hv]
    exact List.nodup_append.mpr ⟨hs, hnodup, fun x hx y hy hxy => (hnew y hy).1 (hxy ▸ hx)⟩
  · have hne' : ReadTenantsJSON t ≠ [] := by
      rw [hv]
      exact List.append_ne_nil_of_left_ne_nil hne _
    rw [hlist s hne, hlist t hne', hv]
    exact List.prefix_append ..

end Runs

section Demo

def acme : TenantName := ⟨"acme", by decide⟩
def umbrella : TenantName := ⟨"umbrella", by decide⟩

-- Two tenants race for the first list; the second one has to read again.
def raceScript : List (Action TenantName) :=
  [.call 0 acme, .call 1 umbrella, .step 0 .ok, .step 1 .ok, .step 1 .ok,
   .step 0 .preconditionFailed]

def retryScript : List (Action TenantName) :=
  [.step 0 .ok, .call 2 umbrella, .step 0 .ok, .step 2 .ok]

theorem tenants_append_only_race : ∃ s t : State, (machine none).Reachable s ∧
    (machine none).Run anyStep s t ∧ ListTenants s = ["umbrella"] ∧
    ListTenants t = ["umbrella", "acme"] ∧ ListTenants s <+: ListTenants t := by
  obtain ⟨s, t, hs, hst, hls, hlt, hne⟩ := Machine.exec_exists_pair (machine none) anyStep
    (machine none).init raceScript retryScript
    (fun s t => ListTenants s = ["umbrella"] ∧ ListTenants t = ["umbrella", "acme"] ∧
      ReadTenantsJSON s ≠ []) (by decide +kernel)
  exact ⟨s, t, hs, hst, hls, hlt, (tenants_append_only hs hst).2.2.2 hne⟩

/-- The first tenant that is added takes the place of the default. -/
theorem default_tenant_replaced : ∃ t : State, (machine none).Reachable t ∧
    ListTenants (machine none).init = [DefaultTenant] ∧ ListTenants t = ["acme"] := by
  obtain ⟨t, ht, h⟩ := Machine.exec_exists (machine none) anyStep (machine none).init
    [.call 0 acme, .step 0 .ok, .step 0 .ok]
    (fun t => ListTenants (machine none).init = [DefaultTenant] ∧ ListTenants t = ["acme"])
    (by decide +kernel)
  exact ⟨t, ht, h⟩

end Demo

end CloudyNeigh.Tenants
