import Mathlib.Logic.Relation
import Mathlib.Data.List.Basic

/-!
# Guarded runs of labelled machines

A machine is an executable partial step function. Runs are taken relative to a
guard on the state before each step, so that a result about every run and a
result about the runs that avoid one kind of step have the same form.
-/
namespace CloudyNeigh.Transition

variable {σ α : Type*}

/-- Action `a` is enabled in `s` exactly when `step s a` is defined. -/
structure Machine (σ α : Type*) where
  init : σ
  step : σ → α → Option σ

def Machine.Step (M : Machine σ α) (ok : σ → α → Prop) (s t : σ) : Prop :=
  ∃ a, ok s a ∧ M.step s a = some t

/-- Finitely many steps, each taken from a state that meets the guard. -/
def Machine.Run (M : Machine σ α) (ok : σ → α → Prop) : σ → σ → Prop :=
  Relation.ReflTransGen (M.Step ok)

/-- No restriction on the steps of a run. -/
def anyStep : σ → α → Prop := fun _ _ => True

def Machine.Reachable (M : Machine σ α) (s : σ) : Prop := M.Run anyStep M.init s

lemma Machine.Run.refl {M : Machine σ α} {ok : σ → α → Prop} (s : σ) : M.Run ok s s :=
  Relation.ReflTransGen.refl

lemma Machine.Run.trans {M : Machine σ α} {ok : σ → α → Prop} {s t u : σ}
    (h : M.Run ok s t) (g : M.Run ok t u) : M.Run ok s u :=
  Relation.ReflTransGen.trans h g

lemma Machine.Run.snoc {M : Machine σ α} {ok : σ → α → Prop} {s t u : σ} {a : α}
    (h : M.Run ok s t) (ha : ok t a) (hs : M.step t a = some u) : M.Run ok s u :=
  Relation.ReflTransGen.tail h ⟨a, ha, hs⟩

/-- A weaker guard admits every run of a stronger one. -/
lemma Machine.Run.mono {M : Machine σ α} {ok ok' : σ → α → Prop} {s t : σ}
    (h : M.Run ok s t) (hok : ∀ s a, ok s a → ok' s a) : M.Run ok' s t := by
  refine Relation.ReflTransGen.mono ?_ _ _ h
  rintro s t ⟨a, ha, hs⟩
  exact ⟨a, hok s a ha, hs⟩

lemma Machine.Run.any {M : Machine σ α} {ok : σ → α → Prop} {s t : σ}
    (h : M.Run ok s t) : M.Run anyStep s t :=
  h.mono fun _ _ _ => trivial

/-- What one guarded step preserves, a guarded run preserves. -/
theorem Machine.Run.preserves {M : Machine σ α} {ok : σ → α → Prop} {P : σ → Prop}
    (hstep : ∀ s a t, P s → ok s a → M.step s a = some t → P t)
    {s t : σ} (h : M.Run ok s t) (hs : P s) : P t := by
  induction h with
  | refl => exact hs
  | tail _ hst ih =>
    obtain ⟨a, ha, he⟩ := hst
    exact hstep _ a _ ih ha he

theorem Machine.Reachable.invariant {M : Machine σ α} {P : σ → Prop} (hinit : P M.init)
    (hstep : ∀ s a t, P s → M.step s a = some t → P t) {s : σ} (h : M.Reachable s) : P s :=
  Machine.Run.preserves (fun s a t hs _ => hstep s a t hs) h hinit

lemma Machine.Reachable.run {M : Machine σ α} {ok : σ → α → Prop} {s t : σ}
    (h : M.Reachable s) (g : M.Run ok s t) : M.Reachable t :=
  Machine.Run.trans h g.any

/-- A relation that is reflexive, transitive and holds of single guarded steps
from reachable states holds of whole guarded runs from reachable states. -/
theorem Machine.Run.relates {M : Machine σ α} {ok : σ → α → Prop} {R : σ → σ → Prop}
    (hrefl : ∀ s, R s s) (htrans : ∀ s t u, R s t → R t u → R s u)
    (hstep : ∀ s a t, M.Reachable s → ok s a → M.step s a = some t → R s t)
    {s t : σ} (hs : M.Reachable s) (h : M.Run ok s t) : R s t := by
  induction h with
  | refl => exact hrefl s
  | tail hpre hst ih =>
    obtain ⟨a, ha, he⟩ := hst
    exact htrans _ _ _ ih (hstep _ a _ (hs.run hpre) ha he)

/-- What a machine reaches, a machine that answers each of its steps by a run reaches. -/
theorem Machine.Reachable.simulated {τ β : Type*} {M : Machine σ α} {N : Machine τ β}
    {R : σ → τ → Prop} (hinit : R M.init N.init)
    (hstep : ∀ s t a s', R s t → M.step s a = some s' → ∃ t', N.Run anyStep t t' ∧ R s' t')
    {s : σ} (h : M.Reachable s) : ∃ t, N.Reachable t ∧ R s t := by
  refine Machine.Reachable.invariant (P := fun s => ∃ t, N.Reachable t ∧ R s t)
    ⟨N.init, Machine.Run.refl _, hinit⟩ ?_ h
  rintro s a s' ⟨t, ht, hR⟩ hs
  obtain ⟨t', hrun, hR'⟩ := hstep s t a s' hR hs
  exact ⟨t', ht.run hrun, hR'⟩

section Recorded
variable {κ : Type*} {init : σ} {act : σ → α → Option κ × σ}

/-- A state with the reports of the steps that led to it. -/
structure Recorded (σ κ : Type*) where
  state : σ
  reports : List κ

/-- Every action is enabled, and may report something. -/
def recorded (init : σ) (act : σ → α → Option κ × σ) : Machine (Recorded σ κ) α where
  init := ⟨init, []⟩
  step s a := some ⟨(act s.state a).2, s.reports ++ (act s.state a).1.toList⟩

theorem Recorded.invariant {ok : Recorded σ κ → α → Prop} {P : σ → List κ → Prop} (hinit : P init [])
    (hstep : ∀ s l a, P s l → ok ⟨s, l⟩ a → P (act s a).2 (l ++ (act s a).1.toList))
    {t : Recorded σ κ} (h : (recorded init act).Run ok ⟨init, []⟩ t) : P t.state t.reports := by
  refine Machine.Run.preserves (P := fun t => P t.state t.reports) ?_ h hinit
  intro s a t hs ha hst
  cases hst
  exact hstep s.state s.reports a hs ha

end Recorded

instance : ∀ (s : σ) (a : α), Decidable (anyStep s a) := fun _ _ => isTrue trivial

section Exec
variable {M : Machine σ α} {ok : σ → α → Prop} [∀ s a, Decidable (ok s a)]

/-- Execute a list of actions, failing at the first one that is not enabled or
that the guard refuses. -/
def Machine.exec (M : Machine σ α) (ok : σ → α → Prop) [∀ s a, Decidable (ok s a)] :
    σ → List α → Option σ
  | s, [] => some s
  | s, a :: as =>
    if ok s a then
      match M.step s a with
      | some t => M.exec ok t as
      | none => none
    else none

lemma Machine.exec_cons {s t : σ} {a : α} {as : List α} (h : M.exec ok s (a :: as) = some t) :
    ok s a ∧ ∃ u, M.step s a = some u ∧ M.exec ok u as = some t := by
  simp only [Machine.exec] at h
  split at h
  · rename_i ha
    split at h
    · rename_i u hu
      exact ⟨ha, u, hu, h⟩
    · cases h
  · cases h

theorem Machine.exec_run {s t : σ} {as : List α} (h : M.exec ok s as = some t) :
    M.Run ok s t := by
  induction as generalizing s with
  | nil =>
    simp only [Machine.exec, Option.some.injEq] at h
    exact h ▸ Machine.Run.refl s
  | cons a as ih =>
    obtain ⟨ha, u, hu, h⟩ := Machine.exec_cons h
    exact Relation.ReflTransGen.head ⟨a, ha, hu⟩ (ih h)

/-- A concrete execution that ends in a state with a decidable property. -/
theorem Machine.exec_exists (M : Machine σ α) (ok : σ → α → Prop) [∀ s a, Decidable (ok s a)]
    (s : σ) (as : List α) (P : σ → Prop) [DecidablePred P]
    (h : (M.exec ok s as).any (fun t => decide (P t)) = true) : ∃ t, M.Run ok s t ∧ P t := by
  obtain ⟨t, ht, hP⟩ := Option.any_eq_true .. |>.mp h
  exact ⟨t, Machine.exec_run ht, of_decide_eq_true hP⟩

theorem Machine.exec_exists_pair (M : Machine σ α) (ok : σ → α → Prop)
    [∀ s a, Decidable (ok s a)] (r : σ) (as bs : List α) (P : σ → σ → Prop)
    [∀ s t, Decidable (P s t)]
    (h : (M.exec ok r as).any (fun s => (M.exec ok s bs).any fun t => decide (P s t)) = true) :
    ∃ s t, M.Run ok r s ∧ M.Run ok s t ∧ P s t := by
  obtain ⟨s, hs, hP⟩ := Option.any_eq_true .. |>.mp h
  obtain ⟨t, ht, hP⟩ := Option.any_eq_true .. |>.mp hP
  exact ⟨s, t, Machine.exec_run hs, Machine.exec_run ht, of_decide_eq_true hP⟩

end Exec

end CloudyNeigh.Transition
