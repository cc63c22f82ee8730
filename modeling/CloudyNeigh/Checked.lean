import CloudyNeigh.Blocks
import Mathlib.Data.List.AList

/-!
# Slices and maps whose operations may panic

Index and slice expressions with their bounds, and loops over a map in an order
that is not specified. `none` is a panic. A loop whose body does not panic on any
entry acts on each key by itself, whatever the order.
-/
namespace CloudyNeigh.Checked
open Blocks

section Slices
variable {α : Type*}

def load (l : List α) (i : ℕ) : Option α := l[i]?

def store (l : List α) (i : ℕ) (x : α) : Option (List α) :=
  if i < l.length then some (l.set i x) else none

/-- `l[lo:hi]`, with the length as the bound. -/
def sub (l : List α) (lo hi : ℕ) : Option (List α) :=
  if lo ≤ hi ∧ hi ≤ l.length then some (slice l lo (hi - lo)) else none

/-- `copy(l[lo:hi], src)`. -/
def copyInto (l : List α) (lo hi : ℕ) (src : List α) : Option (List α) :=
  if lo ≤ hi ∧ hi ≤ l.length then some (copyAt l lo (src.take (hi - lo))) else none

/-- `append` to a slice that may be nil. -/
def appendTo (l : Option (List α)) (xs : List α) : Option (List α) :=
  if xs = [] then l else some (l.getD [] ++ xs)

variable {l : List α} {i n : ℕ}

lemma load_getD (h : i < l.length) (d : α) : load l i = some (l.getD i d) := by
  simp [load, List.getD_eq_getElem?_getD, h]

lemma store_of_lt (h : i < l.length) (x : α) : store l i x = some (l.set i x) := if_pos h

lemma sub_row {row dim : ℕ} (hl : l.length = n * dim) (hr : row < n) :
    sub l (row * dim) (row * dim + dim) = some (slice l (row * dim) dim) := by
  have hb := row_bound dim hr
  unfold sub
  rw [if_pos ⟨by omega, by omega⟩, Nat.add_sub_cancel_left]

lemma copyInto_row {row dim : ℕ} {src : List α} (hl : l.length = n * dim) (hr : row < n)
    (hs : src.length = dim) :
    copyInto l (row * dim) (row * dim + dim) src = some (copyAt l (row * dim) src) := by
  have hb := row_bound dim hr
  unfold copyInto
  rw [if_pos ⟨by omega, by omega⟩, Nat.add_sub_cancel_left, List.take_of_length_le (by omega)]

end Slices

section Maps
variable {κ : Type*} {α β : Type*}

/-- The order in which each loop of a call ranges over a map. -/
structure RangeOrder (κ : Type*) where
  range : ℕ → ∀ {α : Type}, AList (fun _ : κ => α) → AList (fun _ : κ => α)
  perm : ∀ n {α : Type} (m : AList fun _ : κ => α), (range n m).entries.Perm m.entries

/-- The order of the entries themselves. -/
def RangeOrder.stored : RangeOrder κ := ⟨fun _ _ m => m, fun _ _ m => List.Perm.refl m.entries⟩

lemma RangeOrder.lookup [DecidableEq κ] (R : RangeOrder κ) (n : ℕ) {α : Type} (m : AList fun _ : κ => α) (k : κ) :
    (R.range n m).lookup k = m.lookup k :=
  AList.perm_lookup (R.perm n m)

def traverseEntries (f : κ → α → Option β) :
    List (Σ _ : κ, α) → Option (List (Σ _ : κ, β))
  | [] => some []
  | ⟨k, a⟩ :: rest =>
    match f k a, traverseEntries f rest with
    | some b, some rest => some (⟨k, b⟩ :: rest)
    | _, _ => none

lemma traverseEntries_keys {f : κ → α → Option β} {l : List (Σ _ : κ, α)}
    {l' : List (Σ _ : κ, β)} (h : traverseEntries f l = some l') : l'.keys = l.keys := by
  induction l generalizing l' with
  | nil =>
    cases h
    rfl
  | cons e l ih =>
    obtain ⟨k, a⟩ := e
    unfold traverseEntries at h
    split at h
    · rename_i b rest hb hrest
      cases h
      simp [ih hrest]
    · cases h

/-- A loop that computes a new value for every entry. -/
def traverse (f : κ → α → Option β) (m : AList fun _ : κ => α) : Option (AList fun _ : κ => β) :=
  match h : traverseEntries f m.entries with
  | none => none
  | some l => some ⟨l, by
      rw [List.NodupKeys, traverseEntries_keys h]
      exact m.nodupKeys⟩

variable [DecidableEq κ]

lemma traverseEntries_rel {f : κ → α → Option β} {P : κ → α → β → Prop} {l : List (Σ _ : κ, α)}
    (h : ∀ k a, ⟨k, a⟩ ∈ l → ∃ b, f k a = some b ∧ P k a b) :
    ∃ l', traverseEntries f l = some l' ∧ ∀ k, Option.Rel (P k) (l.dlookup k) (l'.dlookup k) := by
  induction l with
  | nil => exact ⟨[], rfl, fun k => .none⟩
  | cons e l ih =>
    obtain ⟨k', a⟩ := e
    obtain ⟨b, hb, hp⟩ := h k' a List.mem_cons_self
    obtain ⟨l', hl', hrel⟩ := ih fun k a hm => h k a (List.mem_cons_of_mem _ hm)
    refine ⟨⟨k', b⟩ :: l', by rw [traverseEntries, hb, hl'], fun k => ?_⟩
    by_cases hk : k = k'
    · subst hk
      rw [List.dlookup_cons_eq, List.dlookup_cons_eq]
      exact .some hp
    · rw [List.dlookup_cons_ne _ _ hk, List.dlookup_cons_ne _ _ hk]
      exact hrel k

/-- A loop whose body succeeds on every entry relates the two maps key by key. -/
theorem traverse_rel {f : κ → α → Option β} {P : κ → α → β → Prop} {m : AList fun _ : κ => α}
    (h : ∀ k a, m.lookup k = some a → ∃ b, f k a = some b ∧ P k a b) :
    ∃ m', traverse f m = some m' ∧ ∀ k, Option.Rel (P k) (m.lookup k) (m'.lookup k) := by
  obtain ⟨l', hl', hrel⟩ := traverseEntries_rel (P := P) fun k a hm =>
    h k a (List.mem_dlookup m.nodupKeys hm)
  unfold traverse
  split
  · rename_i hnone
    rw [hl'] at hnone
    cases hnone
  · rename_i l hsome
    rw [hl'] at hsome
    cases hsome
    exact ⟨_, rfl, hrel⟩

/-- A loop that reads and writes the entry of another map under each key; the body
may leave the entry alone. -/
def updateAll (f : κ → α → Option β → Option (Option β)) :
    List (Σ _ : κ, α) → AList (fun _ : κ => β) → Option (AList fun _ : κ => β)
  | [], m => some m
  | ⟨k, a⟩ :: rest, m =>
    match f k a (m.lookup k) with
    | none => none
    | some none => updateAll f rest m
    | some (some b) => updateAll f rest (m.insert k b)

theorem updateAll_of_forall {f : κ → α → Option β → Option (Option β)} {g : κ → α → Option β}
    {l : List (Σ _ : κ, α)} {m : AList fun _ : κ => β} (hn : l.NodupKeys)
    (h : ∀ k a, ⟨k, a⟩ ∈ l → f k a (m.lookup k) = some (g k a)) :
    ∃ m', updateAll f l m = some m' ∧
      ∀ k, m'.lookup k = ((l.dlookup k).bind (g k)).or (m.lookup k) := by
  induction l generalizing m with
  | nil => exact ⟨m, rfl, fun k => by simp⟩
  | cons e l ih =>
    obtain ⟨k', a⟩ := e
    rw [List.nodupKeys_cons] at hn
    have hhead := h k' a List.mem_cons_self
    have hnone : l.dlookup k' = none := List.dlookup_eq_none.mpr hn.1
    -- the rest of the loop never looks at the key of this entry
    have hrest : ∀ k b, ⟨k, b⟩ ∈ l → k ≠ k' := by
      intro k b hm hk
      have hmem : k ∈ l.keys := List.mem_keys_of_mem hm
      rw [hk] at hmem
      exact hn.1 hmem
    cases hg : g k' a with
    | none =>
      obtain ⟨m', hm', hl'⟩ := ih (m := m) hn.2 fun k b hm => h k b (List.mem_cons_of_mem _ hm)
      refine ⟨m', by rw [updateAll, hhead, hg]; exact hm', fun k => ?_⟩
      rw [hl']
      by_cases hk : k = k'
      · subst hk
        simp [hnone, hg]
      · rw [List.dlookup_cons_ne _ _ hk]
    | some b =>
      obtain ⟨m', hm', hl'⟩ := ih (m := m.insert k' b) hn.2 fun k c hm => by
        rw [AList.lookup_insert_ne (hrest k c hm)]
        exact h k c (List.mem_cons_of_mem _ hm)
      refine ⟨m', by rw [updateAll, hhead, hg]; exact hm', fun k => ?_⟩
      rw [hl']
      by_cases hk : k = k'
      · subst hk
        simp [hnone, hg]
      · rw [List.dlookup_cons_ne _ _ hk, AList.lookup_insert_ne hk]

section Range
variable {α : Type} (R : RangeOrder κ) (n : ℕ)

theorem traverse_range {f : κ → α → Option β} {P : κ → α → β → Prop} {m : AList fun _ : κ => α}
    (h : ∀ k a, m.lookup k = some a → ∃ b, f k a = some b ∧ P k a b) :
    ∃ m', traverse f (R.range n m) = some m' ∧ ∀ k, Option.Rel (P k) (m.lookup k) (m'.lookup k) := by
  simp only [← R.lookup n m]
  apply traverse_rel
  intro k a hk
  rw [R.lookup] at hk
  exact h k a hk

theorem updateAll_range {f : κ → α → Option β → Option (Option β)} {g : κ → α → Option β}
    {l : AList fun _ : κ => α} {m : AList fun _ : κ => β}
    (h : ∀ k a, l.lookup k = some a → f k a (m.lookup k) = some (g k a)) :
    ∃ m', updateAll f (R.range n l).entries m = some m' ∧
      ∀ k, m'.lookup k = ((l.lookup k).bind (g k)).or (m.lookup k) := by
  simp only [← R.lookup n l]
  apply updateAll_of_forall (R.range n l).nodupKeys
  intro k a hm
  apply h
  rw [← R.lookup n l]
  exact List.mem_dlookup (R.range n l).nodupKeys hm

end Range

lemma map_of_rel {γ : Type*} {P : α → β → Prop} {F : β → γ} {G : α → γ} {x : Option α}
    {y : Option β} (h : Option.Rel P x y) (hP : ∀ a b, P a b → F b = G a) : y.map F = x.map G := by
  cases h with
  | none => rfl
  | some hab => exact congrArg some (hP _ _ hab)

lemma some_of_rel {P : α → β → Prop} {x : Option α} {y : Option β} (h : Option.Rel P x y) {b : β}
    (hy : y = some b) : ∃ a, x = some a ∧ P a b := by
  cases h with
  | none => cases hy
  | some hab =>
    cases hy
    exact ⟨_, rfl, hab⟩

end Maps

section Loops
variable {α β : Type*}

lemma foldlM_of_forall {f : β → α → Option β} {g : β → α → β} {l : List α}
    (h : ∀ a ∈ l, ∀ b, f b a = some (g b a)) (b : β) : l.foldlM f b = some (l.foldl g b) := by
  induction l generalizing b with
  | nil => rfl
  | cons a l ih =>
    rw [List.foldlM_cons, h a List.mem_cons_self b, List.foldl_cons]
    exact ih (fun a' ha' => h a' (List.mem_cons_of_mem _ ha')) (g b a)

lemma mapM_of_forall {f : α → Option β} {g : α → β} {l : List α}
    (h : ∀ a ∈ l, f a = some (g a)) : l.mapM f = some (l.map g) := by
  induction l with
  | nil => rfl
  | cons a l ih =>
    have hrest := ih fun a' ha' => h a' (List.mem_cons_of_mem _ ha')
    rw [List.mapM_cons, h a List.mem_cons_self, hrest]
    rfl

end Loops

end CloudyNeigh.Checked
