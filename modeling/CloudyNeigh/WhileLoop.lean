import Mathlib.Data.List.Basic

/-!
# Loops that run while a call returns true

`for s.Scan() { ... }` over any state: what the rounds saw and where they lead, as a
relation and as a function with fuel. A loop whose rounds make a size smaller never runs out
of a fuel above that size.
-/
namespace CloudyNeigh.WhileLoop

variable {σ τ β γ : Type*}

/-- Rounds of `Scan` that returned true, what each of them saw, and where they lead. -/
inductive Advances (scan : σ → Bool × σ) (look : σ → β) : σ → List β → σ → Prop
  | here (s : σ) : Advances scan look s [] s
  | next {s s' t : σ} {out : List β} (h : scan s = (true, s'))
    (rest : Advances scan look s' out t) : Advances scan look s (look s' :: out) t

/-- `for s.Scan() { ... }`: what the rounds saw, and the scanner when `Scan` returned false. -/
def Scans (scan : σ → Bool × σ) (look : σ → β) (s : σ) (out : List β) (fin : σ) : Prop :=
  ∃ t, Advances scan look s out t ∧ scan t = (false, fin)

/-- The loop with fuel. -/
def run (scan : σ → Bool × σ) (look : σ → β) : ℕ → σ → List β × σ
  | 0, s => ([], s)
  | fuel + 1, s =>
    match scan s with
    | (false, s') => ([], s')
    | (true, s') =>
      let out := run scan look fuel s'
      (look s' :: out.1, out.2)

variable {scan : σ → Bool × σ} {look : σ → β}

lemma Scans.stop {s fin : σ} (h : scan s = (false, fin)) : Scans scan look s [] fin :=
  ⟨s, .here s, h⟩

lemma Scans.next {s s' fin : σ} {out : List β} (h : scan s = (true, s'))
    (rest : Scans scan look s' out fin) : Scans scan look s (look s' :: out) fin := by
  obtain ⟨t, ht, hstop⟩ := rest
  exact ⟨t, .next h ht, hstop⟩

/-- The loop has one outcome at most. -/
lemma Scans.unique {s fin fin' : σ} {out out' : List β}
    (h : Scans scan look s out fin) (h' : Scans scan look s out' fin') :
    out' = out ∧ fin' = fin := by
  obtain ⟨t, ht, hstop⟩ := h
  obtain ⟨t', ht', hstop'⟩ := h'
  induction ht generalizing out' with
  | here s =>
    cases ht' with
    | here =>
      rw [hstop] at hstop'
      cases hstop'
      exact ⟨rfl, rfl⟩
    | next h' =>
      rw [hstop] at h'
      cases h'
  | next h _ ih =>
    cases ht' with
    | here =>
      rw [h] at hstop'
      cases hstop'
    | next h' rest' =>
      rw [h] at h'
      cases h'
      obtain ⟨rfl, rfl⟩ := ih hstop rest'
      exact ⟨rfl, rfl⟩

/-- Less may be seen of every round. -/
lemma Scans.map (f : β → γ) {s fin : σ} {out : List β} (h : Scans scan look s out fin) :
    Scans scan (f ∘ look) s (out.map f) fin := by
  obtain ⟨t, ht, hstop⟩ := h
  refine ⟨t, ?_, hstop⟩
  induction ht with
  | here s => exact .here s
  | next h _ ih => exact .next h (ih hstop)

/-- With enough fuel the function is the loop. -/
lemma scans_run {size : σ → ℕ} (hsize : ∀ s s', scan s = (true, s') → size s' < size s)
    {fuel : ℕ} {s : σ} (hfuel : size s < fuel) :
    Scans scan look s (run scan look fuel s).1 (run scan look fuel s).2 := by
  induction fuel generalizing s with
  | zero => omega
  | succ fuel ih =>
    simp only [run]
    split
    · rename_i s' h
      exact .stop h
    · rename_i s' h
      have hlt := hsize s s' h
      exact .next h (ih (by omega))

section Lift
variable {scan' : τ → Bool × τ} {look' : τ → β} {abs : τ → σ}

/-- Rounds of the abstract scanner are rounds of any scanner that refines it. -/
lemma Advances.lift (hscan : ∀ t, Prod.map id abs (scan' t) = scan (abs t))
    (hlook : ∀ t, look' t = look (abs t)) {s u : σ} {out : List β}
    (h : Advances scan look s out u) {t : τ} (ht : abs t = s) :
    ∃ u', Advances scan' look' t out u' ∧ abs u' = u := by
  induction h generalizing t with
  | here s => exact ⟨t, .here t, ht⟩
  | next h _ ih =>
    subst ht
    rw [← hscan] at h
    obtain ⟨hb, hf⟩ := Prod.mk.inj h
    obtain ⟨u', hrun, hu⟩ := ih hf
    refine ⟨u', ?_, hu⟩
    rw [← hf, ← hlook]
    exact .next (Prod.ext hb rfl) hrun

/-- The outcome of one call carries over. -/
lemma lift_call (hscan : ∀ t, Prod.map id abs (scan' t) = scan (abs t)) {t : τ} {b : Bool}
    {fin : σ} (h : scan (abs t) = (b, fin)) : ∃ fin', scan' t = (b, fin') ∧ abs fin' = fin := by
  rw [← hscan] at h
  obtain ⟨hb, hf⟩ := Prod.mk.inj h
  exact ⟨(scan' t).2, Prod.ext hb rfl, hf⟩

lemma Scans.lift (hscan : ∀ t, Prod.map id abs (scan' t) = scan (abs t))
    (hlook : ∀ t, look' t = look (abs t)) {s fin : σ} {out : List β}
    (h : Scans scan look s out fin) {t : τ} (ht : abs t = s) :
    ∃ fin', Scans scan' look' t out fin' ∧ abs fin' = fin := by
  obtain ⟨u, hu, hstop⟩ := h
  obtain ⟨u', hrun, rfl⟩ := hu.lift hscan hlook ht
  obtain ⟨fin', hfin, habs⟩ := lift_call hscan hstop
  exact ⟨fin', ⟨u', hrun, hfin⟩, habs⟩

end Lift

end CloudyNeigh.WhileLoop
