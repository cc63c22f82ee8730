import Mathlib.Data.List.Induction
import Mathlib.Logic.Function.Basic

/-!
# Replaying edits

Partial maps under right-biased override, and stores whose entries are patched
or erased by a list of edits, with their keys in the order of their first appearance.
The result of this file is that running a list of edits a second time changes nothing.
-/
namespace CloudyNeigh.Replay

/-- Values that can be laid over one another: an idempotent monoid. -/
class Overlay (D : Type*) where
  onto : D → D → D
  blank : D
  onto_assoc : ∀ a b c, onto (onto a b) c = onto a (onto b c)
  onto_self : ∀ a, onto a a = a

open Overlay

instance {κ α : Type*} : Overlay (κ → Option α) where
  onto new old := fun k => (new k).or (old k)
  blank := fun _ => none
  onto_assoc a b c := by
    funext k
    exact Option.or_assoc
  onto_self a := by
    funext k
    exact Option.or_self

instance {D E : Type*} [Overlay D] [Overlay E] : Overlay (D × E) where
  onto new old := (onto new.1 old.1, onto new.2 old.2)
  blank := (blank, blank)
  onto_assoc a b c := by simp only [onto_assoc]
  onto_self a := by simp only [onto_self]

inductive Edit (D : Type*)
  | patch (d : D)
  | erase

section Edits
variable {D : Type*} [Overlay D]

/-- An erased entry starts again from the blank value. -/
def Edit.apply : Edit D → Option D → Option D
  | .patch d, old => some (onto d (old.getD blank))
  | .erase, _ => none

def runEdits (es : List (Edit D)) (old : Option D) : Option D :=
  es.foldl (fun cur e => e.apply cur) old

/-- A list of edits forgets the entry, or is one patch, or is empty. -/
lemma runEdits_cases (es : List (Edit D)) :
    es = [] ∨ (∃ c, ∀ old, runEdits es old = c) ∨
      ∃ d, ∀ old, runEdits es old = (Edit.patch d).apply old := by
  induction es using List.reverseRecOn with
  | nil => exact Or.inl rfl
  | append_singleton es e ih =>
    right
    have hstep : ∀ old, runEdits (es ++ [e]) old = e.apply (runEdits es old) := by
      intro old
      simp [runEdits]
    cases e with
    | erase => exact Or.inl ⟨none, fun old => hstep old⟩
    | patch d =>
      rcases ih with rfl | ⟨c, hc⟩ | ⟨d', hd⟩
      · exact Or.inr ⟨d, fun old => hstep old⟩
      · exact Or.inl ⟨(Edit.patch d).apply c, fun old => by rw [hstep, hc]⟩
      · refine Or.inr ⟨onto d d', fun old => ?_⟩
        rw [hstep, hd]
        simp [Edit.apply, onto_assoc]

theorem runEdits_twice (es : List (Edit D)) (old : Option D) :
    runEdits es (runEdits es old) = runEdits es old := by
  rcases runEdits_cases es with rfl | ⟨c, hc⟩ | ⟨d, hd⟩
  · rfl
  · rw [hc, hc]
  · rw [hd, hd]
    simp only [Edit.apply, Option.getD_some, ← onto_assoc, onto_self]

end Edits

section Order
variable {α : Type*} [DecidableEq α]

/-- Append a key unless the list has it already. -/
def addKey (l : List α) (a : α) : List α := if a ∈ l then l else l ++ [a]

lemma mem_addKey {l : List α} {a b : α} : b ∈ addKey l a ↔ b ∈ l ∨ b = a := by
  unfold addKey
  split
  · constructor
    · exact Or.inl
    · rintro (h | rfl)
      · exact h
      · assumption
  · simp

lemma addKey_of_mem {l : List α} {a : α} (h : a ∈ l) : addKey l a = l := if_pos h

end Order

end CloudyNeigh.Replay
