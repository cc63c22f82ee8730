import CloudyNeigh.NamespaceScope
import CloudyNeigh.ReadModifyWrite
import Mathlib.Data.Finset.Basic

/-!
# The branch catalog

`AddBranch` and `RemoveBranch` on `branches.json`. The metadata of a branch has
no fields, so the catalog is the set of its names.
-/
namespace CloudyNeigh.Branches
open Transition ReadModifyWrite

inductive BranchOp
  | addBranch (branch : String)
  | removeBranch (branch : String)
  deriving DecidableEq, Repr

def BranchOp.branch : BranchOp → String
  | .addBranch branch => branch
  | .removeBranch branch => branch

/-- The `change` of the two calls; `none` is the return value `false`. -/
def change : BranchOp → Finset String → Option (Finset String)
  | .addBranch branch, branches =>
    if branch ∈ branches then none else some (insert branch branches)
  | .removeBranch branch, branches =>
    if branch ∈ branches then some (branches.erase branch) else none

def updateBranches : Object BranchOp (Finset String) := ⟨∅, change⟩

abbrev State := ReadModifyWrite.State BranchOp (Finset String)

def machine (before : Option (Finset String)) : Machine State (Action BranchOp) :=
  updateBranches.machine before

/-- The branches of the catalog; a missing one is empty. -/
def branches (s : State) : Finset String := updateBranches.value s.store

/-- What a call means for a set. -/
def effect (set : Finset String) : BranchOp → Finset String
  | .addBranch branch => insert branch set
  | .removeBranch branch => set.erase branch

lemma apply_eq_effect (set : Finset String) (op : BranchOp) :
    updateBranches.apply set op = effect set op := by
  cases op with
  | addBranch branch =>
    by_cases hb : branch ∈ set
    · simp [updateBranches, Object.apply, change, effect, hb]
    · simp [updateBranches, Object.apply, change, effect, hb]
  | removeBranch branch =>
    by_cases hb : branch ∈ set
    · simp [updateBranches, Object.apply, change, effect, hb]
    · simp [updateBranches, Object.apply, change, effect, hb]

lemma replay_eq_foldl (set : Finset String) (ws : List (ℕ × BranchOp)) :
    updateBranches.replay set ws = (ws.map Prod.snd).foldl effect set := by
  induction ws generalizing set with
  | nil => rfl
  | cons w ws ih =>
    rw [List.map_cons, List.foldl_cons, ← apply_eq_effect]
    exact ih _

/-- A change that is made is the meaning of the call, and it is a real change. -/
lemma effect_of_change {set set' : Finset String} {op : BranchOp} (h : change op set = some set') :
    set' = effect set op ∧ set' ≠ set := by
  cases op with
  | addBranch branch =>
    simp only [change] at h
    split at h <;> cases h
    rename_i hb
    exact ⟨rfl, fun he => hb (Finset.insert_eq_self.mp he)⟩
  | removeBranch branch =>
    simp only [change] at h
    split at h <;> cases h
    rename_i hb
    exact ⟨rfl, Finset.erase_ne_self.mpr hb⟩

lemma effect_of_idle {set : Finset String} {op : BranchOp} (h : change op set = none) :
    effect set op = set := by
  rw [← apply_eq_effect, Object.apply]
  change (change op set).getD set = set
  rw [h, Option.getD_none]

/-- Calls on other branches do not decide whether a branch is in the set. -/
lemma mem_foldl_effect {branch : String} {ops : List BranchOp}
    (hne : ∀ op ∈ ops, op.branch ≠ branch) (set : Finset String) :
    branch ∈ ops.foldl effect set ↔ branch ∈ set := by
  induction ops generalizing set with
  | nil => rfl
  | cons op ops ih =>
    rw [List.foldl_cons, ih fun op' h => hne op' (List.mem_cons_of_mem _ h)]
    have hop := (hne op List.mem_cons_self).symm
    cases op with
    | addBranch other => exact Finset.mem_insert.trans (or_iff_right hop)
    | removeBranch other => exact Finset.mem_erase.trans (and_iff_right hop)

/-- From a missing or any existing catalog, after any run: the catalog is the
result of the calls that wrote, in the order of their writes, each of them once;
a call that returns has written, on top of the present set, or it has found that
set to be as it wants it; and between two states of a run the set changes by the
calls that write in between and by nothing else. -/
theorem branch_catalog_linearizable (before : Option (Finset String)) {s : State}
    (hs : (machine before).Reachable s) :
    branches s = (s.writes.map Prod.snd).foldl effect (before.getD ∅) ∧
    ((s.writes.map Prod.fst).Nodup ∧ ∀ i op, (i, op) ∈ s.writes →
      ∃ c, s.calls i = some c ∧ c.op = op ∧ (c.pc = .returned ∨ c.pc = .failed)) ∧
    (∀ a t, (machine before).step s a = some t → ∀ i c, t.calls i = some c → c.pc = .returned →
      s.calls i ≠ some c →
      t.writes = s.writes ++ [(i, c.op)] ∧ branches t = effect (branches s) c.op ∨
      t.writes = s.writes ∧ branches t = branches s ∧ effect (branches s) c.op = branches s) ∧
    ∀ t, (machine before).Run anyStep s t → ∃ ws, t.writes = s.writes ++ ws ∧
      branches t = (ws.map Prod.snd).foldl effect (branches s) ∧
      ∀ branch, (∀ w ∈ ws, w.2.branch ≠ branch) →
        (branch ∈ branches t ↔ branch ∈ branches s) := by
  have hi := Object.inv_reachable hs
  refine ⟨?_, ⟨hi.once, fun i op hw => hi.recorded (i, op) hw⟩, ?_, ?_⟩
  · rw [← replay_eq_foldl]
    exact Object.replay_reachable hs
  · intro a t hst i c hc hr hnew
    rcases (Object.step_change hi hst).returned hc hr hnew with
      ⟨hws, hchange⟩ | ⟨hws, hstore, hidle⟩
    · exact Or.inl ⟨hws, (effect_of_change hchange).1⟩
    · exact Or.inr ⟨hws, by rw [branches, hstore, branches], effect_of_idle hidle⟩
  · intro t hst
    obtain ⟨ws, hws, hv⟩ := Object.replay_run hs hst
    have hfold : branches t = (ws.map Prod.snd).foldl effect (branches s) := by
      rw [← replay_eq_foldl]
      exact hv
    refine ⟨ws, hws, hfold, fun branch hne => ?_⟩
    rw [hfold]
    refine mem_foldl_effect (fun op hop => ?_) _
    obtain ⟨w, hw, rfl⟩ := List.mem_map.mp hop
    exact hne w hw

-- Two adds race for the first catalog, and a removal reports an error although it wrote.
def raceScript : List (Action BranchOp) :=
  [.call 0 (.addBranch "main"), .call 1 (.addBranch "dev"), .step 0 .ok, .step 1 .ok,
   .step 1 .ok, .step 0 .preconditionFailed, .step 0 .ok, .step 0 .ok,
   .call 2 (.removeBranch "dev"), .call 3 (.addBranch "main"), .step 2 .ok, .step 3 .ok,
   .step 2 (.failed true)]

set_option maxRecDepth 8000 in
theorem branch_catalog_linearizable_race : ∃ s : State, (machine none).Reachable s ∧
    s.writes = [(1, .addBranch "dev"), (0, .addBranch "main"), (2, .removeBranch "dev")] ∧
    s.calls 3 = some ⟨.addBranch "main", .returned⟩ ∧
    branches s = effect (effect (effect ∅ (.addBranch "dev")) (.addBranch "main"))
      (.removeBranch "dev") := by
  obtain ⟨s, hs, hw, hc⟩ := Machine.exec_exists (machine none) anyStep (machine none).init
    raceScript
    (fun s => s.writes = [(1, .addBranch "dev"), (0, .addBranch "main"), (2, .removeBranch "dev")] ∧
      s.calls 3 = some ⟨.addBranch "main", .returned⟩) (by decide +kernel)
  have h := (branch_catalog_linearizable none hs).1
  rw [hw] at h
  exact ⟨s, hs, hw, hc, h⟩

end CloudyNeigh.Branches
