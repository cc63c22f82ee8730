import Mathlib.Algebra.BigOperators.Group.List.Basic
import Mathlib.Algebra.Order.Monoid.Defs
import Mathlib.Data.List.Forall2
import Mathlib.Data.Set.BooleanAlgebra
import Mathlib.Logic.Function.Basic
import Mathlib.Logic.Relation

/-!
# Programs on a shared heap

A heap has arrays of several kinds. A program is a tree of accesses, one element at
a time, so that the accesses of several programs can be interleaved. A triple says
what a program makes of the arrays it owns, while it only reads from a view that
stays as it is and never writes a protected array, at any point of its run.
-/
namespace CloudyNeigh.HeapLogic

variable {κ : Type} {E : κ → Type} {α β ι : Type}

/-- The arrays of each kind in the order of their allocation. A single object is an
array with one element. -/
abbrev Heap (E : κ → Type) : Type := ∀ k, List (List (E k))

section Views

/-- A part of a heap. -/
abbrev View (E : κ → Type) : Type := ∀ k, ℕ → Option (List (E k))

def Heap.view (h : Heap E) : View E := fun k a => (h k)[a]?

/-- All arrays of the first view are in the second one. -/
def View.Sub (V W : View E) : Prop := ∀ k a l, V k a = some l → W k a = some l

open Classical in
noncomputable def View.only (V : View E) (S : Set (κ × ℕ)) : View E :=
  fun k a => if (k, a) ∈ S then V k a else none

variable {V W : View E} {S S' F : Set (κ × ℕ)} {k : κ} {a : ℕ} {l : List (E k)}

lemma View.Sub.refl (V : View E) : V.Sub V := fun _ _ _ h => h

lemma View.Sub.trans {U : View E} (h : U.Sub V) (h' : V.Sub W) : U.Sub W :=
  fun k a l hl => h' k a l (h k a l hl)

lemma View.only_eq_some : V.only S k a = some l ↔ (k, a) ∈ S ∧ V k a = some l := by
  simp [View.only]

lemma View.only_sub (V : View E) (S : Set (κ × ℕ)) : (V.only S).Sub V :=
  fun _ _ _ h => (View.only_eq_some.mp h).2

lemma View.Sub.only (h : V.Sub W) (hs : S ⊆ S') : (V.only S).Sub (W.only S') := by
  intro k a l hl
  obtain ⟨hk, hv⟩ := View.only_eq_some.mp hl
  exact View.only_eq_some.mpr ⟨hs hk, h k a l hv⟩

lemma View.only_only (V : View E) (S S' : Set (κ × ℕ)) :
    (V.only S).only S' = V.only (S ∩ S') := by
  funext k a
  ext l
  simp only [View.only_eq_some, Set.mem_inter_iff]
  tauto

lemma View.only_congr (h : ∀ k a l, V k a = some l → ((k, a) ∈ S ↔ (k, a) ∈ S')) :
    V.only S = V.only S' := by
  funext k a
  ext l
  simp only [View.only_eq_some]
  constructor
  · rintro ⟨hs, hv⟩
    exact ⟨(h k a l hv).mp hs, hv⟩
  · rintro ⟨hs, hv⟩
    exact ⟨(h k a l hv).mpr hs, hv⟩

/-- The arrays of a set exist. -/
def Heap.Allocated (h : Heap E) (S : Set (κ × ℕ)) : Prop := ∀ c ∈ S, c.2 < (h c.1).length

/-- The arrays that exist. -/
def Heap.cells (h : Heap E) : Set (κ × ℕ) := {c | c.2 < (h c.1).length}

lemma Heap.mem_cells_of_view {h : Heap E} (hv : h.view k a = some l) : (k, a) ∈ h.cells :=
  (List.getElem?_eq_some_iff.mp hv).1

lemma Heap.only_sub_cells (h : Heap E) (S : Set (κ × ℕ)) :
    (h.view.only S).Sub (h.view.only h.cells) := by
  intro k a l hl
  have hv := (View.only_eq_some.mp hl).2
  exact View.only_eq_some.mpr ⟨Heap.mem_cells_of_view hv, hv⟩

/-- Nothing happened to the arrays of a set. -/
def Heap.Keeps (F : Set (κ × ℕ)) (h h' : Heap E) : Prop :=
  (∀ k, (h k).length ≤ (h' k).length) ∧ ∀ c ∈ F, h'.view c.1 c.2 = h.view c.1 c.2

lemma Heap.Keeps.refl (F : Set (κ × ℕ)) (h : Heap E) : Heap.Keeps F h h :=
  ⟨fun _ => le_rfl, fun _ _ => rfl⟩

lemma Heap.Keeps.trans {h h' h'' : Heap E} (hk : Heap.Keeps F h h') (hk' : Heap.Keeps F h' h'') :
    Heap.Keeps F h h'' :=
  ⟨fun k => (hk.1 k).trans (hk'.1 k), fun c hc => (hk'.2 c hc).trans (hk.2 c hc)⟩

lemma Heap.Keeps.allocated {h h' : Heap E} (hk : Heap.Keeps F h h') (ha : h.Allocated F) :
    h'.Allocated F :=
  fun c hc => lt_of_lt_of_le (ha c hc) (hk.1 c.1)

lemma Heap.Keeps.only_eq {h h' : Heap E} (hk : Heap.Keeps F h h') (hs : S ⊆ F) :
    h'.view.only S = h.view.only S := by
  funext k a
  ext l
  rw [View.only_eq_some, View.only_eq_some]
  constructor
  · rintro ⟨hm, hv⟩
    exact ⟨hm, by rw [← hk.2 (k, a) (hs hm)]; exact hv⟩
  · rintro ⟨hm, hv⟩
    exact ⟨hm, by rw [hk.2 (k, a) (hs hm)]; exact hv⟩

lemma Heap.Keeps.sub {h h' : Heap E} (hk : Heap.Keeps F h h') {R : View E}
    (hR : R.Sub (h.view.only F)) : R.Sub (h'.view.only F) := by
  rw [hk.only_eq subset_rfl]
  exact hR

end Views

section Programs

/-- Accesses to a heap, with what follows each of them. -/
inductive Prog (E : κ → Type) (α : Type) : Type
  | ret (x : α)
  | panic
  | load (k : κ) (a i : ℕ) (next : E k → Prog E α)
  | store (k : κ) (a i : ℕ) (v : E k) (next : Prog E α)
  | alloc (k : κ) (l : List (E k)) (next : ℕ → Prog E α)

namespace Prog

def bind : Prog E α → (α → Prog E β) → Prog E β
  | .ret x, f => f x
  | .panic, _ => .panic
  | .load k a i next, f => .load k a i fun v => (next v).bind f
  | .store k a i v next, f => .store k a i v (next.bind f)
  | .alloc k l next, f => .alloc k l fun a => (next a).bind f

instance : Monad (Prog E) where
  pure := .ret
  bind := bind

def read (k : κ) (a i : ℕ) : Prog E (E k) := .load k a i .ret

def write (k : κ) (a i : ℕ) (v : E k) : Prog E Unit := .store k a i v (.ret ())

def new (k : κ) (l : List (E k)) : Prog E ℕ := .alloc k l .ret

def forEach : List ι → (ι → Prog E Unit) → Prog E Unit
  | [], _ => .ret ()
  | i :: is, body => do
    body i
    forEach is body

def collect : List ι → (ι → Prog E α) → Prog E (List α)
  | [], _ => .ret []
  | i :: is, body => do
    let x ← body i
    let xs ← collect is body
    .ret (x :: xs)

def fold (f : β → ι → Prog E β) : List ι → β → Prog E β
  | [], b => .ret b
  | i :: is, b => do
    let b ← f b i
    fold f is b

end Prog

end Programs

section Execution
variable [DecidableEq κ]

def Heap.set (h : Heap E) (k : κ) (a : ℕ) (l : List (E k)) : Heap E :=
  Function.update h k ((h k).set a l)

def Heap.push (h : Heap E) (k : κ) (l : List (E k)) : Heap E := Function.update h k (h k ++ [l])

/-- One access. A program that returns or panics has no next step. -/
def Prog.step : Prog E α → Heap E → Option (Prog E α × Heap E)
  | .ret _, _ => none
  | .panic, _ => none
  | .load k a i next, h =>
    match (h.view k a).bind (·[i]?) with
    | some v => some (next v, h)
    | none => none
  | .store k a i v next, h =>
    match h.view k a with
    | some l => if i < l.length then some (next, h.set k a (l.set i v)) else none
    | none => none
  | .alloc k l next, h => some (next (h k).length, h.push k l)

/-- What a program that does not write returns, as far as it reads from the view. -/
def Prog.result (V : View E) : Prog E α → Option α
  | .ret x => some x
  | .panic => none
  | .load k a i next => ((V k a).bind (·[i]?)).bind fun v => (next v).result V
  | .store .. => none
  | .alloc .. => none

/-- The program returns with `Q` and never writes an array of `F`. -/
def Prog.wp (F : Set (κ × ℕ)) : Prog E α → (α → Heap E → Prop) → Heap E → Prop
  | .ret x, Q, h => Q x h
  | .panic, _, _ => False
  | .load k a i next, Q, h => ∃ v, (h.view k a).bind (·[i]?) = some v ∧ (next v).wp F Q h
  | .store k a i v next, Q, h =>
    (k, a) ∉ F ∧ ∃ l, h.view k a = some l ∧ i < l.length ∧ next.wp F Q (h.set k a (l.set i v))
  | .alloc k l next, Q, h => (next (h k).length).wp F Q (h.push k l)

end Execution

section Heaps
variable [DecidableEq κ] {h : Heap E} {F : Set (κ × ℕ)} {k : κ} {a : ℕ} {l : List (E k)}

lemma Heap.view_set (h : Heap E) (k : κ) (a : ℕ) (l : List (E k)) {k' : κ} {a' : ℕ}
    (hne : (k', a') ≠ (k, a)) : (h.set k a l).view k' a' = h.view k' a' := by
  unfold Heap.view Heap.set
  by_cases hk : k' = k
  · subst hk
    have ha : a ≠ a' := fun ha => hne (by rw [ha])
    rw [Function.update_self, List.getElem?_set_ne ha]
  · rw [Function.update_of_ne hk]

lemma Heap.view_set_self (hv : (h.view k a).isSome) : (h.set k a l).view k a = some l := by
  unfold Heap.view Heap.set
  have hlt : a < (h k).length := by
    by_contra hge
    rw [Heap.view, List.getElem?_eq_none (by omega)] at hv
    cases hv
  rw [Function.update_self, List.getElem?_set_self hlt]

lemma Heap.length_set (h : Heap E) (k : κ) (a : ℕ) (l : List (E k)) (k' : κ) :
    (h.set k a l k').length = (h k').length := by
  unfold Heap.set
  by_cases hk : k' = k
  · subst hk
    rw [Function.update_self, List.length_set]
  · rw [Function.update_of_ne hk]

lemma Heap.view_push (h : Heap E) (k : κ) (l : List (E k)) {k' : κ} {a' : ℕ}
    (hlt : a' < (h k').length) : (h.push k l).view k' a' = h.view k' a' := by
  unfold Heap.view Heap.push
  by_cases hk : k' = k
  · subst hk
    rw [Function.update_self, List.getElem?_append_left hlt]
  · rw [Function.update_of_ne hk]

lemma Heap.view_push_self (h : Heap E) (k : κ) (l : List (E k)) :
    (h.push k l).view k (h k).length = some l := by
  unfold Heap.view Heap.push
  rw [Function.update_self, List.getElem?_concat_length]

lemma Heap.length_push (h : Heap E) (k : κ) (l : List (E k)) (k' : κ) :
    (h k').length ≤ (h.push k l k').length := by
  unfold Heap.push
  by_cases hk : k' = k
  · subst hk
    rw [Function.update_self, List.length_append]
    omega
  · rw [Function.update_of_ne hk]

lemma Heap.keeps_set (hn : (k, a) ∉ F) : Heap.Keeps F h (h.set k a l) := by
  refine ⟨fun k' => (Heap.length_set h k a l k').ge, ?_⟩
  intro c hc
  apply Heap.view_set
  intro he
  exact hn (he ▸ hc)

lemma Heap.keeps_push (ha : h.Allocated F) : Heap.Keeps F h (h.push k l) :=
  ⟨Heap.length_push h k l, fun c hc => Heap.view_push h k l (ha c hc)⟩

end Heaps

section Wp
variable [DecidableEq κ] {F : Set (κ × ℕ)} {p : Prog E α} {Q Q' : α → Heap E → Prop} {h : Heap E}

lemma Prog.wp_mono (hw : p.wp F Q h) (hQ : ∀ x h', Q x h' → Q' x h') : p.wp F Q' h := by
  induction p generalizing h with
  | ret x => exact hQ x h hw
  | panic => exact hw
  | load k a i next ih =>
    obtain ⟨v, hv, hn⟩ := hw
    exact ⟨v, hv, ih v hn⟩
  | store k a i v next ih =>
    obtain ⟨hF, l, hl, hi, hn⟩ := hw
    exact ⟨hF, l, hl, hi, ih hn⟩
  | alloc k l next ih => exact ih _ hw

lemma Prog.wp_bind {f : α → Prog E β} {Q : β → Heap E → Prop}
    (hw : p.wp F (fun x h' => (f x).wp F Q h') h) : (p >>= f).wp F Q h := by
  change (p.bind f).wp F Q h
  induction p generalizing h with
  | ret x => exact hw
  | panic => exact hw
  | load k a i next ih =>
    obtain ⟨v, hv, hn⟩ := hw
    exact ⟨v, hv, ih v hn⟩
  | store k a i v next ih =>
    obtain ⟨hF, l, hl, hi, hn⟩ := hw
    exact ⟨hF, l, hl, hi, ih hn⟩
  | alloc k l next ih => exact ih _ hw

/-- Protected arrays keep their contents. -/
lemma Prog.wp_keeps (ha : h.Allocated F) (hw : p.wp F Q h) :
    p.wp F (fun x h' => Q x h' ∧ Heap.Keeps F h h') h := by
  induction p generalizing h with
  | ret x => exact ⟨hw, Heap.Keeps.refl F h⟩
  | panic => exact hw
  | load k a i next ih =>
    obtain ⟨v, hv, hn⟩ := hw
    exact ⟨v, hv, ih v ha hn⟩
  | store k a i v next ih =>
    obtain ⟨hF, l, hl, hi, hn⟩ := hw
    have hk : Heap.Keeps F h (h.set k a (l.set i v)) := Heap.keeps_set hF
    refine ⟨hF, l, hl, hi, Prog.wp_mono (ih (hk.allocated ha) hn) ?_⟩
    intro x h' hx
    exact ⟨hx.1, hk.trans hx.2⟩
  | alloc k l next ih =>
    have hk : Heap.Keeps F h (h.push k l) := Heap.keeps_push ha
    refine Prog.wp_mono (ih _ (hk.allocated ha) hw) ?_
    intro x h' hx
    exact ⟨hx.1, hk.trans hx.2⟩

lemma Prog.wp_anti {F' : Set (κ × ℕ)} (hF : F ⊆ F') (hw : p.wp F' Q h) : p.wp F Q h := by
  induction p generalizing h with
  | ret x => exact hw
  | panic => exact hw
  | load k a i next ih =>
    obtain ⟨v, hv, hn⟩ := hw
    exact ⟨v, hv, ih v hn⟩
  | store k a i v next ih =>
    obtain ⟨hm, l, hl, hi, hn⟩ := hw
    exact ⟨fun hc => hm (hF hc), l, hl, hi, ih hn⟩
  | alloc k l next ih => exact ih _ hw

lemma Prog.wp_of_result {x : α} (hr : p.result h.view = some x) (hQ : Q x h) : p.wp F Q h := by
  induction p with
  | ret y =>
    cases hr
    exact hQ
  | panic => cases hr
  | load k a i next ih =>
    obtain ⟨v, hv, hn⟩ := Option.bind_eq_some_iff.mp hr
    exact ⟨v, hv, ih v hn⟩
  | store k a i v next ih => cases hr
  | alloc k l next ih => cases hr

lemma Prog.wp_step {p' : Prog E α} {h' : Heap E} (hw : p.wp F Q h)
    (hs : p.step h = some (p', h')) (ha : h.Allocated F) : p'.wp F Q h' ∧ Heap.Keeps F h h' := by
  cases p with
  | ret x => cases hs
  | panic => cases hs
  | load k a i next =>
    obtain ⟨v, hv, hn⟩ := hw
    simp only [Prog.step, hv, Option.some.injEq, Prod.mk.injEq] at hs
    obtain ⟨rfl, rfl⟩ := hs
    exact ⟨hn, Heap.Keeps.refl F h⟩
  | store k a i v next =>
    obtain ⟨hF, l, hl, hi, hn⟩ := hw
    simp only [Prog.step, hl, if_pos hi, Option.some.injEq, Prod.mk.injEq] at hs
    obtain ⟨rfl, rfl⟩ := hs
    exact ⟨hn, Heap.keeps_set hF⟩
  | alloc k l next =>
    simp only [Prog.step, Option.some.injEq, Prod.mk.injEq] at hs
    obtain ⟨rfl, rfl⟩ := hs
    exact ⟨hw, Heap.keeps_push ha⟩

/-- A program taken to its end without other programs. -/
def Prog.Steps (p : Prog E α) (h : Heap E) (p' : Prog E α) (h' : Heap E) : Prop :=
  Relation.ReflTransGen (fun c d : Prog E α × Heap E => c.1.step c.2 = some d) (p, h) (p', h')

/-- A program with a weakest precondition does not panic. -/
lemma Prog.wp_steps (hw : p.wp F Q h) : ∃ x h', p.Steps h (.ret x) h' ∧ Q x h' := by
  induction p generalizing h with
  | ret x => exact ⟨x, h, .refl, hw⟩
  | panic => exact hw.elim
  | load k a i next ih =>
    obtain ⟨v, hv, hn⟩ := hw
    obtain ⟨x, h', hs, hQ⟩ := ih v hn
    exact ⟨x, h', .head (by simp only [Prog.step, hv]) hs, hQ⟩
  | store k a i v next ih =>
    obtain ⟨-, l, hl, hi, hn⟩ := hw
    obtain ⟨x, h', hs, hQ⟩ := ih hn
    exact ⟨x, h', .head (by simp only [Prog.step, hl, if_pos hi]) hs, hQ⟩
  | alloc k l next ih =>
    obtain ⟨x, h', hs, hQ⟩ := ih _ hw
    exact ⟨x, h', .head rfl hs, hQ⟩

end Wp

section Results
variable {V W : View E} {p : Prog E α}

@[simp] lemma Prog.result_pure (x : α) : (pure x : Prog E α).result V = some x := rfl

@[simp] lemma Prog.result_ret (x : α) : (Prog.ret x : Prog E α).result V = some x := rfl

@[simp] lemma Prog.result_bind (p : Prog E α) (f : α → Prog E β) :
    (p >>= f).result V = (p.result V).bind fun x => (f x).result V := by
  change (p.bind f).result V = _
  induction p with
  | ret x => rfl
  | panic => rfl
  | load k a i next ih =>
    simp only [Prog.bind, Prog.result, ih]
    exact (Option.bind_assoc ..).symm
  | store k a i v next ih => rfl
  | alloc k l next ih => rfl

@[simp] lemma Prog.result_read (k : κ) (a i : ℕ) :
    (Prog.read k a i : Prog E (E k)).result V = (V k a).bind (·[i]?) := by
  simp [Prog.read, Prog.result]

lemma Prog.result_mono (hV : V.Sub W) {x : α} (hr : p.result V = some x) : p.result W = some x := by
  induction p with
  | ret y => exact hr
  | panic => cases hr
  | load k a i next ih =>
    obtain ⟨v, hv, hn⟩ := Option.bind_eq_some_iff.mp hr
    obtain ⟨l, hl, hi⟩ := Option.bind_eq_some_iff.mp hv
    simp only [Prog.result, hV k a l hl, Option.bind_some, hi]
    exact ih v hn
  | store k a i v next ih => cases hr
  | alloc k l next ih => cases hr

lemma Prog.result_collect {l : List ι} {body : ι → Prog E α} {xs : List α}
    (h : List.Forall₂ (fun i x => (body i).result V = some x) l xs) :
    (Prog.collect l body).result V = some xs := by
  induction h with
  | nil => rfl
  | cons hx _ ih =>
    rw [Prog.collect, Prog.result_bind, hx, Option.bind_some, Prog.result_bind, ih]
    rfl

lemma Prog.result_fold {f : β → ι → Prog E β} {g : β → ι → β} {l : List ι}
    (h : ∀ i ∈ l, ∀ b, (f b i).result V = some (g b i)) (b : β) :
    (Prog.fold f l b).result V = some (l.foldl g b) := by
  induction l generalizing b with
  | nil => rfl
  | cons i l ih =>
    rw [Prog.fold, Prog.result_bind, h i List.mem_cons_self, Option.bind_some, List.foldl_cons]
    exact ih (fun j hj => h j (List.mem_cons_of_mem i hj)) (g b i)

variable [DecidableEq κ] {h h' : Heap E} {p' : Prog E α} {x : α}

/-- A reader whose view is part of the heap does not change the heap and keeps its result. -/
lemma Prog.result_step (hV : V.Sub h.view) (hr : p.result V = some x)
    (hs : p.step h = some (p', h')) : h' = h ∧ p'.result V = some x := by
  cases p with
  | ret y => cases hs
  | panic => cases hs
  | load k a i next =>
    obtain ⟨v, hv, hn⟩ := Option.bind_eq_some_iff.mp hr
    obtain ⟨l, hl, hi⟩ := Option.bind_eq_some_iff.mp hv
    simp only [Prog.step, hV k a l hl, Option.bind_some, hi, Option.some.injEq,
      Prod.mk.injEq] at hs
    obtain ⟨rfl, rfl⟩ := hs
    exact ⟨rfl, hn⟩
  | store k a i v next => cases hr
  | alloc k l next => cases hr

lemma Prog.result_steps (hV : V.Sub h.view) (hr : p.result V = some x) :
    p.Steps h (.ret x) h := by
  induction p with
  | ret y =>
    cases hr
    exact .refl
  | panic => cases hr
  | load k a i next ih =>
    obtain ⟨v, hv, hn⟩ := Option.bind_eq_some_iff.mp hr
    obtain ⟨l, hl, hi⟩ := Option.bind_eq_some_iff.mp hv
    exact .head (by simp only [Prog.step, hV k a l hl, Option.bind_some, hi]) (ih v hn)
  | store k a i v next => cases hr
  | alloc k l next => cases hr

end Results

section Assertions

/-- A property of parts of a heap that larger parts inherit. -/
@[ext] structure Assertion (E : κ → Type) where
  holds : View E → Prop
  mono : ∀ {V W : View E}, V.Sub W → holds V → holds W

namespace Assertion

instance : CoeFun (Assertion E) fun _ => View E → Prop := ⟨holds⟩

/-- Both hold, of separate parts. -/
instance : Mul (Assertion E) where
  mul P Q :=
    { holds := fun V => ∃ S, P (V.only S) ∧ Q (V.only Sᶜ)
      mono := by
        rintro V W hV ⟨S, hP, hQ⟩
        exact ⟨S, P.mono (hV.only subset_rfl) hP, Q.mono (hV.only subset_rfl) hQ⟩ }

instance : One (Assertion E) := ⟨⟨fun _ => True, fun _ _ => trivial⟩⟩

variable {P P' Q Q' R : Assertion E} {V : View E}

lemma mul_holds : (P * Q) V ↔ ∃ S, P (V.only S) ∧ Q (V.only Sᶜ) := Iff.rfl

lemma left_of_mul (h : (P * Q) V) : P V := by
  obtain ⟨S, hP, -⟩ := h
  exact P.mono (V.only_sub S) hP

lemma right_of_mul (h : (P * Q) V) : Q V := by
  obtain ⟨S, -, hQ⟩ := h
  exact Q.mono (V.only_sub Sᶜ) hQ

protected lemma mul_comm (P Q : Assertion E) : P * Q = Q * P := by
  ext V
  constructor
  · rintro ⟨S, hP, hQ⟩
    exact ⟨Sᶜ, hQ, by rwa [compl_compl]⟩
  · rintro ⟨S, hP, hQ⟩
    exact ⟨Sᶜ, hQ, by rwa [compl_compl]⟩

protected lemma mul_assoc_of (h : (P * Q * R) V) : (P * (Q * R)) V := by
  obtain ⟨S, ⟨S', hP, hQ⟩, hR⟩ := h
  rw [View.only_only] at hP hQ
  refine ⟨S ∩ S', hP, S, ?_, ?_⟩
  · rw [View.only_only]
    refine Q.mono (View.Sub.only (View.Sub.refl V) ?_) hQ
    rintro c ⟨hs, hs'⟩
    exact ⟨fun hc => hs' hc.2, hs⟩
  · rw [View.only_only]
    refine R.mono (View.Sub.only (View.Sub.refl V) ?_) hR
    intro c hs
    exact ⟨fun hc => hs hc.1, hs⟩

protected lemma mul_assoc (P Q R : Assertion E) : P * Q * R = P * (Q * R) := by
  ext V
  constructor
  · exact Assertion.mul_assoc_of
  · intro h
    rw [Assertion.mul_comm, Assertion.mul_comm Q R] at h
    have h' := Assertion.mul_assoc_of h
    rwa [Assertion.mul_comm, Assertion.mul_comm Q P] at h'

protected lemma one_mul (P : Assertion E) : 1 * P = P := by
  ext V
  constructor
  · exact right_of_mul
  · intro h
    refine ⟨∅, trivial, ?_⟩
    rw [Set.compl_empty]
    exact P.mono (fun k a l hl => View.only_eq_some.mpr ⟨trivial, hl⟩) h

instance : CommMonoid (Assertion E) where
  mul_assoc := Assertion.mul_assoc
  one_mul := Assertion.one_mul
  mul_one P := by rw [Assertion.mul_comm, Assertion.one_mul]
  mul_comm := Assertion.mul_comm

instance : PartialOrder (Assertion E) where
  le P Q := ∀ V, P V → Q V
  le_refl _ _ h := h
  le_trans _ _ _ h h' V hV := h' V (h V hV)
  le_antisymm _ _ h h' := Assertion.ext (funext fun V => propext ⟨h V, h' V⟩)

instance : IsOrderedMonoid (Assertion E) where
  mul_le_mul_left P Q h R := by
    rintro V ⟨S, hP, hR⟩
    exact ⟨S, h _ hP, hR⟩

lemma le_one (P : Assertion E) : P ≤ 1 := fun _ _ => trivial

lemma mul_le_left : P * Q ≤ P := fun _ => left_of_mul

lemma mul_le_right : P * Q ≤ Q := fun _ => right_of_mul

/-- The array, with all its elements. -/
def array (k : κ) (a : ℕ) (l : List (E k)) : Assertion E :=
  ⟨fun V => V k a = some l, fun h hv => h k a l hv⟩

lemma array_holds {k : κ} {a : ℕ} {l : List (E k)} : array k a l V ↔ V k a = some l := Iff.rfl

def ex (f : ι → Assertion E) : Assertion E :=
  ⟨fun V => ∃ i, f i V, fun h ⟨i, hi⟩ => ⟨i, (f i).mono h hi⟩⟩

lemma ex_holds {f : ι → Assertion E} : ex f V ↔ ∃ i, f i V := Iff.rfl

def given (φ : Prop) (P : Assertion E) : Assertion E :=
  ⟨fun V => φ ∧ P V, fun h hP => ⟨hP.1, P.mono h hP.2⟩⟩

lemma given_holds {φ : Prop} : given φ P V ↔ φ ∧ P V := Iff.rfl

lemma ex_mul (f : ι → Assertion E) (P : Assertion E) : ex f * P = ex fun i => f i * P := by
  ext V
  constructor
  · rintro ⟨S, ⟨i, hi⟩, hP⟩
    exact ⟨i, S, hi, hP⟩
  · rintro ⟨i, S, hi, hP⟩
    exact ⟨S, ⟨i, hi⟩, hP⟩

lemma given_mul (φ : Prop) (P Q : Assertion E) : given φ P * Q = given φ (P * Q) := by
  ext V
  constructor
  · rintro ⟨S, ⟨hφ, hP⟩, hQ⟩
    exact ⟨hφ, S, hP, hQ⟩
  · rintro ⟨hφ, S, hP, hQ⟩
    exact ⟨S, ⟨hφ, hP⟩, hQ⟩

/-- One factor of a product. -/
lemma of_prod {P : ι → Assertion E} {l : List ι} {i : ι} (hi : i ∈ l) (h : (l.map P).prod V) :
    P i V := by
  induction l generalizing V with
  | nil => cases hi
  | cons j l ih =>
    rw [List.map_cons, List.prod_cons] at h
    rcases List.mem_cons.mp hi with rfl | hm
    · exact left_of_mul h
    · exact ih hm (right_of_mul h)

end Assertion

end Assertions

section Triples
variable [DecidableEq κ]

/-- `p` takes what `P` describes to what `Q` describes. All the while it reads the
arrays of `R` unchanged and writes no array outside of those that `P` describes and
those it has allocated itself. -/
def Triple (R : View E) (P : Assertion E) (p : Prog E α) (Q : α → Assertion E) : Prop :=
  ∀ (h : Heap E) (F : Set (κ × ℕ)), h.Allocated F → R.Sub (h.view.only F) →
    P (h.view.only Fᶜ) → p.wp F (fun x h' => Q x (h'.view.only Fᶜ)) h

namespace Triple
variable {R : View E} {P P' G : Assertion E} {p : Prog E α} {Q Q' : α → Assertion E}

lemma conseq (h : Triple R P p Q) (hP : P' ≤ P) (hQ : ∀ x, Q x ≤ Q' x) : Triple R P' p Q' := by
  intro h' F ha hR hP'
  exact Prog.wp_mono (h h' F ha hR (hP _ hP')) fun x h'' => hQ x _

lemma pre (h : Triple R P p Q) (hP : P' ≤ P) : Triple R P' p Q := h.conseq hP fun _ => le_rfl

lemma post (h : Triple R P p Q) (hQ : ∀ x, Q x ≤ Q' x) : Triple R P p Q' := h.conseq le_rfl hQ

lemma ret {x : α} (h : P ≤ Q x) : Triple R P (.ret x) Q := fun _ _ _ _ hP => h _ hP

lemma bind {f : α → Prog E β} {Q' : β → Assertion E} (hp : Triple R P p Q)
    (hf : ∀ x, Triple R (Q x) (f x) Q') : Triple R P (p >>= f) Q' := by
  intro h F ha hR hP
  refine Prog.wp_bind (Prog.wp_mono (Prog.wp_keeps ha (hp h F ha hR hP)) ?_)
  rintro x h' ⟨hQ, hk⟩
  exact hf x h' F (hk.allocated ha) (hk.sub hR) hQ

/-- What the program reads is constrained by what it owns. -/
lemma bind_reads {φ : α → Prop} {f : α → Prog E β} {Q' : β → Assertion E}
    (hr : ∀ V, P V → ∃ x, p.result V = some x ∧ φ x) (hf : ∀ x, φ x → Triple R P (f x) Q') :
    Triple R P (p >>= f) Q' := by
  intro h F ha hR hP
  obtain ⟨x, hx, hφ⟩ := hr _ hP
  refine Prog.wp_bind (Prog.wp_of_result ?_ (hf x hφ h F ha hR hP))
  exact Prog.result_mono (View.only_sub _ _) hx

lemma bind_read {x : α} {f : α → Prog E β} {Q' : β → Assertion E}
    (hr : ∀ V, P V → p.result V = some x) (hf : Triple R P (f x) Q') :
    Triple R P (p >>= f) Q' :=
  bind_reads (φ := fun y => y = x) (fun V hV => ⟨x, hr V hV, rfl⟩) fun _ hy => hy ▸ hf

/-- What the program reads is settled by the view. -/
lemma bind_view {x : α} {f : α → Prog E β} {Q' : β → Assertion E}
    (hr : p.result R = some x) (hf : Triple R P (f x) Q') : Triple R P (p >>= f) Q' := by
  intro h F ha hR hP
  refine Prog.wp_bind (Prog.wp_of_result ?_ (hf h F ha hR hP))
  exact Prog.result_mono (hR.trans (View.only_sub _ _)) hr

/-- What the program does not own stays as it is. -/
lemma frame (hp : Triple R P p Q) (G : Assertion E) : Triple R (P * G) p fun x => Q x * G := by
  rintro h F ha hR ⟨S, hP, hG⟩
  rw [View.only_only] at hP hG
  -- protect the arrays of the frame as well
  have ha' : h.Allocated (F ∪ (Sᶜ ∩ h.cells)) := by
    rintro c (hc | hc)
    · exact ha c hc
    · exact hc.2
  have hP' : P (h.view.only (F ∪ (Sᶜ ∩ h.cells))ᶜ) := by
    have he : h.view.only (F ∪ (Sᶜ ∩ h.cells))ᶜ = h.view.only (Fᶜ ∩ S) := by
      apply View.only_congr
      intro k a l hl
      have := Heap.mem_cells_of_view hl
      simp only [Set.mem_compl_iff, Set.mem_union, Set.mem_inter_iff]
      tauto
    rwa [he]
  have hw := hp h _ ha' (hR.trans (View.Sub.only (View.Sub.refl _) Set.subset_union_left)) hP'
  refine Prog.wp_anti Set.subset_union_left (Prog.wp_mono (Prog.wp_keeps ha' hw) ?_)
  rintro x h' ⟨hQ, hk⟩
  refine ⟨(F ∪ (Sᶜ ∩ h.cells))ᶜ, ?_, ?_⟩
  · rw [View.only_only]
    refine (Q x).mono (View.Sub.only (View.Sub.refl _) ?_) hQ
    intro c hc
    exact ⟨fun hF => hc (Or.inl hF), hc⟩
  · rw [View.only_only]
    have he : h.view.only (Fᶜ ∩ Sᶜ) = h.view.only (Fᶜ ∩ Sᶜ ∩ h.cells) := by
      apply View.only_congr
      intro k a l hl
      have := Heap.mem_cells_of_view hl
      simp only [Set.mem_compl_iff, Set.mem_inter_iff]
      tauto
    rw [he, ← hk.only_eq (fun c hc => Or.inr ⟨hc.1.2, hc.2⟩)] at hG
    refine G.mono (View.Sub.only (View.Sub.refl _) ?_) hG
    rintro c ⟨⟨hF, hS⟩, hc⟩
    exact ⟨hF, fun hn => hn (Or.inr ⟨hS, hc⟩)⟩

/-- A program that needs nothing leaves everything as it is. -/
lemma also (hp : Triple R 1 p Q) (G : Assertion E) : Triple R G p fun x => Q x * G :=
  (hp.frame G).pre (le_of_eq (one_mul G).symm)

lemma of_ex {f : ι → Assertion E} (h : ∀ i, Triple R (f i) p Q) :
    Triple R (Assertion.ex f) p Q := by
  rintro h' F ha hR ⟨i, hi⟩
  exact h i h' F ha hR hi

lemma of_given {φ : Prop} (h : φ → Triple R P p Q) : Triple R (Assertion.given φ P) p Q := by
  rintro h' F ha hR ⟨hφ, hP⟩
  exact h hφ h' F ha hR hP

/-- A fact that the precondition implies. -/
lemma assuming {φ : Prop} (hφ : ∀ V, P V → φ) (h : φ → Triple R P p Q) : Triple R P p Q :=
  fun h' F ha hR hP => h (hφ _ hP) h' F ha hR hP

lemma write {k : κ} {a i : ℕ} {l : List (E k)} (v : E k) (hi : i < l.length) :
    Triple R (.array k a l) (.write k a i v) fun _ => .array k a (l.set i v) := by
  intro h F ha hR hP
  obtain ⟨hF, hv⟩ := View.only_eq_some.mp hP
  refine ⟨hF, l, hv, hi, ?_⟩
  exact View.only_eq_some.mpr ⟨hF, Heap.view_set_self (by rw [hv]; rfl)⟩

lemma new (k : κ) (l : List (E k)) :
    Triple R 1 (.new k l) fun a => .array k a l := by
  intro h F ha hR hP
  refine View.only_eq_some.mpr ⟨?_, Heap.view_push_self h k l⟩
  intro hF
  exact lt_irrefl _ (ha _ hF)

/-- A loop with an invariant on what it still has to visit. -/
lemma forEach_inv {I : List ι → Assertion E} {body : ι → Prog E Unit}
    (h : ∀ i l, Triple R (I (i :: l)) (body i) fun _ => I l) (l : List ι) :
    Triple R (I l) (.forEach l body) fun _ => I [] := by
  induction l with
  | nil => exact ret le_rfl
  | cons i l ih => exact bind (h i l) fun _ => ih

end Triple

end Triples

end CloudyNeigh.HeapLogic
