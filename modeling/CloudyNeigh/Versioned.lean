import Mathlib.Logic.Function.Basic
import Mathlib.Order.Nat

/-!
# Cells with generations

A store of cells that are written under a precondition on their generation.
Every write takes a generation that was never used before, so a generation that
still matches vouches for the value that was read with it.
-/
namespace CloudyNeigh.Versioned

structure Cells (κ α : Type*) where
  cell : κ → Option (α × ℕ) := fun _ => none
  next : ℕ := 0

variable {κ α : Type*}

/-- The precondition of a write: the cell is absent, or it has this generation. -/
def Cells.holds (s : Cells κ α) (k : κ) (expected : Option ℕ) : Bool :=
  (s.cell k).map Prod.snd == expected

def Cells.put [DecidableEq κ] (s : Cells κ α) (k : κ) (v : α) : Cells κ α :=
  ⟨Function.update s.cell k (some (v, s.next)), s.next + 1⟩

def Cells.delete [DecidableEq κ] (s : Cells κ α) (k : κ) : Cells κ α :=
  { s with cell := Function.update s.cell k none }

/-- Every generation in use was handed out. -/
def Cells.Sound (s : Cells κ α) : Prop := ∀ k v g, s.cell k = some (v, g) → g < s.next

/-- What `t` holds under a generation of `s` it held in `s` already. -/
structure Cells.Later (s t : Cells κ α) : Prop where
  next_le : s.next ≤ t.next
  old : ∀ k v g, t.cell k = some (v, g) → g < s.next → s.cell k = some (v, g)

/-- `v` was read from cell `k` together with the generation `gen`; nothing is
said of a cell that was absent. -/
def Cells.Seen (s : Cells κ α) (k : κ) (v : α) (gen : Option ℕ) : Prop :=
  ∀ g ∈ gen, g < s.next ∧ ∀ v', s.cell k = some (v', g) → v' = v

section Laws
variable {s t u : Cells κ α} {k : κ} {v : α} {gen : Option ℕ}

lemma Cells.holds_none : s.holds k none = true ↔ s.cell k = none := by
  simp [Cells.holds]

@[simp] lemma Cells.put_next [DecidableEq κ] : (s.put k v).next = s.next + 1 := rfl

@[simp] lemma Cells.put_self [DecidableEq κ] : (s.put k v).cell k = some (v, s.next) := by
  simp [Cells.put]

lemma Cells.put_ne [DecidableEq κ] {k' : κ} (h : k' ≠ k) : (s.put k v).cell k' = s.cell k' := by
  simp [Cells.put, h]

@[simp] lemma Cells.delete_self [DecidableEq κ] : (s.delete k).cell k = none := by
  simp [Cells.delete]

lemma Cells.delete_ne [DecidableEq κ] {k' : κ} (h : k' ≠ k) :
    (s.delete k).cell k' = s.cell k' := by
  simp [Cells.delete, h]

lemma Cells.Later.refl (s : Cells κ α) : s.Later s := ⟨le_rfl, fun _ _ _ h _ => h⟩

lemma Cells.Later.put [DecidableEq κ] (s : Cells κ α) (k : κ) (v : α) : s.Later (s.put k v) := by
  refine ⟨Nat.le_succ _, fun k' v' g h hg => ?_⟩
  by_cases hk : k' = k
  · subst hk
    rw [Cells.put_self] at h
    have hgen : s.next = g := congrArg Prod.snd (Option.some.inj h)
    omega
  · rwa [Cells.put_ne hk] at h

lemma Cells.Later.delete [DecidableEq κ] (s : Cells κ α) (k : κ) : s.Later (s.delete k) := by
  refine ⟨le_rfl, fun k' v' g h _ => ?_⟩
  by_cases hk : k' = k
  · subst hk
    simp at h
  · rwa [Cells.delete_ne hk] at h

lemma Cells.Sound.put [DecidableEq κ] (hs : s.Sound) (k : κ) (v : α) : (s.put k v).Sound := by
  intro k' v' g h
  by_cases hk : k' = k
  · subst hk
    rw [Cells.put_self] at h
    have hgen : s.next = g := congrArg Prod.snd (Option.some.inj h)
    simp [← hgen]
  · rw [Cells.put_ne hk] at h
    exact (hs k' v' g h).trans (Nat.lt_succ_self _)

lemma Cells.Sound.delete [DecidableEq κ] (hs : s.Sound) (k : κ) : (s.delete k).Sound := by
  intro k' v' g h
  by_cases hk : k' = k
  · subst hk
    simp at h
  · rw [Cells.delete_ne hk] at h
    exact hs k' v' g h

lemma Cells.Sound.seen (hs : s.Sound) {g : ℕ} (h : s.cell k = some (v, g)) :
    s.Seen k v (some g) := by
  intro g' hg'
  cases hg'
  refine ⟨hs k v g h, fun v' h' => ?_⟩
  rw [h] at h'
  exact (congrArg Prod.fst (Option.some.inj h')).symm

lemma Cells.Seen.none : s.Seen k v none := fun _ h => nomatch h

lemma Cells.Seen.later (h : s.Seen k v gen) (hst : s.Later t) : t.Seen k v gen := by
  intro g hg
  obtain ⟨hlt, hval⟩ := h g hg
  exact ⟨hlt.trans_le hst.next_le, fun v' h' => hval v' (hst.old k v' g h' hlt)⟩

/-- A write whose precondition holds finds the value that was read. -/
theorem Cells.Seen.cell (h : s.Seen k v gen) (hm : s.holds k gen = true) :
    s.cell k = gen.map fun g => (v, g) := by
  have hg : (s.cell k).map Prod.snd = gen := by simpa [Cells.holds] using hm
  cases hc : s.cell k with
  | none =>
    rw [hc] at hg
    simp [← hg]
  | some p =>
    have hgen : gen = some p.2 := by rw [← hg, hc, Option.map_some]
    have hv : p.1 = v := (h p.2 (by simp [hgen])).2 p.1 hc
    simp [hgen, ← hv]

end Laws

end CloudyNeigh.Versioned
