import CloudyNeigh.Transition
import CloudyNeigh.Versioned

/-!
# Read-modify-write loops on one cell

Any number of calls change one cell by reading it, computing a new value and
writing that under the generation they read, again from the start when the
precondition fails. A write may commit and still report an error. `Loop` is the code of a
call between its store calls, with any states; in an `Object` a call that finds nothing to
change returns without a write, and the calls can be replayed one after the other.
-/
namespace CloudyNeigh.ReadModifyWrite
open Transition Versioned

variable {ι κ α : Type*}

inductive Outcome
  | ok
  | preconditionFailed
  | failed (committed : Bool)
  deriving DecidableEq, Repr

/-- What a call does next. -/
inductive Phase (α : Type*)
  | read
  | write (value : α) (generation : Option ℕ)
  | ended

/-- Where a call in state `κ` goes on, by what its store call returned. -/
structure Loop (κ α : Type*) where
  phase : κ → Phase α
  onRead : κ → Option (α × ℕ) → κ
  onCommit : κ → κ
  onConflict : κ → κ
  onError : κ → κ

/-- One store call of one call; the flag says whether a write was committed. -/
def Loop.stepCall (L : Loop κ α) (store : Cells Unit α) (c : κ) (o : Outcome) :
    Option (Cells Unit α × κ × Bool) :=
  match L.phase c, o with
  | .read, .ok => some (store, L.onRead c (store.cell ()), false)
  | .read, .failed false => some (store, L.onError c, false)
  | .write v generation, .ok =>
    if store.holds () generation then some (store.put () v, L.onCommit c, true) else none
  | .write _ generation, .preconditionFailed =>
    if store.holds () generation then none else some (store, L.onConflict c, false)
  | .write _ _, .failed false => some (store, L.onError c, false)
  | .write v generation, .failed true =>
    if store.holds () generation then some (store.put () v, L.onError c, true) else none
  | _, _ => none

/-- The cases of `stepCall`. -/
inductive Loop.Step (L : Loop κ α) (store : Cells Unit α) (c : κ) :
    Outcome → Cells Unit α → κ → Bool → Prop
  | read (phase : L.phase c = .read) : L.Step store c .ok store (L.onRead c (store.cell ())) false
  | readError (phase : L.phase c = .read) :
    L.Step store c (.failed false) store (L.onError c) false
  | commit (v : α) (generation : Option ℕ) (phase : L.phase c = .write v generation)
    (holds : store.holds () generation = true) :
    L.Step store c .ok (store.put () v) (L.onCommit c) true
  | conflict (v : α) (generation : Option ℕ) (phase : L.phase c = .write v generation) :
    L.Step store c .preconditionFailed store (L.onConflict c) false
  | writeError (v : α) (generation : Option ℕ) (phase : L.phase c = .write v generation) :
    L.Step store c (.failed false) store (L.onError c) false
  | commitError (v : α) (generation : Option ℕ) (phase : L.phase c = .write v generation)
    (holds : store.holds () generation = true) :
    L.Step store c (.failed true) (store.put () v) (L.onError c) true

/-- `Plan c base v` is what a call knows of the value `v` that it is about to write, with
`base` for what it read; only a read leads to a write. -/
structure Loop.Plans (L : Loop κ α) (Plan : κ → Option α → α → Prop) : Prop where
  read : ∀ c found v generation, L.phase (L.onRead c found) = .write v generation →
    generation = found.map Prod.snd ∧ Plan (L.onRead c found) (found.map Prod.fst) v
  commit : ∀ c v generation, L.phase c = .write v generation →
    ∀ v' generation', L.phase (L.onCommit c) ≠ .write v' generation'
  conflict : ∀ c v generation, L.phase (L.onConflict c) ≠ .write v generation
  error : ∀ c v generation, L.phase (L.onError c) ≠ .write v generation

/-- What was read once, with its generation. -/
def ReadAt (store : Cells Unit α) (base : Option α) (generation : Option ℕ) : Prop :=
  base.isSome = generation.isSome ∧ ∀ x ∈ base, store.Seen () x generation

def Loop.Ok (L : Loop κ α) (Plan : κ → Option α → α → Prop) (store : Cells Unit α) (c : κ) : Prop :=
  ∀ v generation, L.phase c = .write v generation →
    ∃ base, Plan c base v ∧ ReadAt store base generation

section Loop
variable {L : Loop κ α} {Plan : κ → Option α → α → Prop} {store store' : Cells Unit α} {c c' : κ}
  {o : Outcome} {wrote : Bool}

theorem Loop.stepCall_step (h : L.stepCall store c o = some (store', c', wrote)) :
    L.Step store c o store' c' wrote := by
  unfold Loop.stepCall at h
  split at h
  · cases h
    exact .read ‹_›
  · cases h
    exact .readError ‹_›
  · split at h <;> cases h
    exact .commit _ _ ‹_› ‹_›
  · split at h <;> cases h
    exact .conflict _ _ ‹_›
  · cases h
    exact .writeError _ _ ‹_›
  · split at h <;> cases h
    exact .commitError _ _ ‹_› ‹_›
  · cases h

lemma Loop.Step.later (h : L.Step store c o store' c' wrote) : store.Later store' := by
  cases h with
  | read | readError | conflict | writeError => exact Cells.Later.refl _
  | commit | commitError => exact Cells.Later.put ..

lemma Loop.Step.sound (h : L.Step store c o store' c' wrote) (hs : store.Sound) :
    store'.Sound := by
  cases h with
  | read | readError | conflict | writeError => exact hs
  | commit | commitError => exact hs.put _ _

lemma ReadAt.later {base : Option α} {generation : Option ℕ} (h : ReadAt store base generation)
    (hl : store.Later store') : ReadAt store' base generation :=
  ⟨h.1, fun x hx => (h.2 x hx).later hl⟩

lemma readAt_cell (hs : store.Sound) :
    ReadAt store ((store.cell ()).map Prod.fst) ((store.cell ()).map Prod.snd) := by
  cases hcell : store.cell () with
  | none => exact ⟨rfl, fun x hx => nomatch hx⟩
  | some found =>
    refine ⟨rfl, fun x hx => ?_⟩
    cases hx
    exact hs.seen hcell

/-- A precondition that holds vouches for what was read. -/
lemma ReadAt.present {base : Option α} {generation : Option ℕ} (h : ReadAt store base generation)
    (hm : store.holds () generation = true) : (store.cell ()).map Prod.fst = base := by
  obtain ⟨hsome, hseen⟩ := h
  cases base with
  | none =>
    cases generation with
    | none =>
      have hcell : store.cell () = none := by simpa [Cells.holds] using hm
      rw [hcell]
      rfl
    | some g => cases hsome
  | some x =>
    cases generation with
    | none => cases hsome
    | some g =>
      have hcell := (hseen x rfl).cell hm
      rw [hcell]
      rfl

lemma Loop.Ok.later (h : L.Ok Plan store c) (hl : store.Later store') : L.Ok Plan store' c := by
  intro v generation hc
  obtain ⟨base, hplan, hread⟩ := h v generation hc
  exact ⟨base, hplan, hread.later hl⟩

/-- A write that is committed is made on top of the present value. -/
lemma Loop.Ok.present (h : L.Ok Plan store c) {v : α} {generation : Option ℕ}
    (hc : L.phase c = .write v generation) (hm : store.holds () generation = true) :
    Plan c ((store.cell ()).map Prod.fst) v := by
  obtain ⟨base, hplan, hread⟩ := h v generation hc
  rwa [hread.present hm]

lemma Loop.Step.ok (h : L.Step store c o store' c' wrote) (hL : L.Plans Plan)
    (hs : store.Sound) : L.Ok Plan store' c' := by
  intro v generation hc
  cases h with
  | read phase =>
    obtain ⟨rfl, hplan⟩ := hL.read _ _ _ _ hc
    exact ⟨_, hplan, readAt_cell hs⟩
  | readError phase => exact absurd hc (hL.error _ _ _)
  | commit v' generation' phase holds => exact absurd hc (hL.commit _ _ _ phase _ _)
  | conflict v' generation' phase => exact absurd hc (hL.conflict _ _ _)
  | writeError v' generation' phase => exact absurd hc (hL.error _ _ _)
  | commitError v' generation' phase holds => exact absurd hc (hL.error _ _ _)

end Loop

/-- What a missing cell reads as, and what an operation makes of a value; `none`
is nothing to change. -/
structure Object (ι α : Type*) where
  missing : α
  change : ι → α → Option α

def Object.value (O : Object ι α) (store : Cells Unit α) : α :=
  ((store.cell ()).map Prod.fst).getD O.missing

def Object.apply (O : Object ι α) (v : α) (op : ι) : α := (O.change op v).getD v

inductive Pc (α : Type*)
  | read
  | write (value : α) (generation : Option ℕ)
  | returned
  | failed
  deriving DecidableEq, Repr

structure Call (ι α : Type*) where
  op : ι
  pc : Pc α
  deriving DecidableEq, Repr

def Object.loop (O : Object ι α) : Loop (Call ι α) α where
  phase c :=
    match c.pc with
    | .read => .read
    | .write v generation => .write v generation
    | .returned | .failed => .ended
  onRead c found :=
    match O.change c.op ((found.map Prod.fst).getD O.missing) with
    | none => ⟨c.op, .returned⟩
    | some v => ⟨c.op, .write v (found.map Prod.snd)⟩
  onCommit c := ⟨c.op, .returned⟩
  onConflict c := ⟨c.op, .read⟩
  onError c := ⟨c.op, .failed⟩

/-- `writes` is history that no step reads: the calls whose write was committed,
in the order of these writes. -/
structure State (ι α : Type*) where
  store : Cells Unit α
  calls : ℕ → Option (Call ι α)
  writes : List (ℕ × ι)

inductive Action (ι : Type*)
  | call (i : ℕ) (op : ι)
  | step (i : ℕ) (o : Outcome)
  deriving DecidableEq, Repr

def Object.step (O : Object ι α) (s : State ι α) : Action ι → Option (State ι α)
  | .call i op =>
    match s.calls i with
    | some _ => none
    | none => some { s with calls := Function.update s.calls i (some ⟨op, .read⟩) }
  | .step i o =>
    match s.calls i with
    | none => none
    | some c =>
      match O.loop.stepCall s.store c o with
      | none => none
      | some (store, c', wrote) =>
        some ⟨store, Function.update s.calls i (some c'),
          if wrote then s.writes ++ [(i, c.op)] else s.writes⟩

/-- The cell before the first call: missing, or any value. -/
def initial : Option α → Cells Unit α
  | none => {}
  | some v => Cells.put {} () v

def Object.machine (O : Object ι α) (before : Option α) : Machine (State ι α) (Action ι) where
  init := ⟨initial before, fun _ => none, []⟩
  step := O.step

/-- Apply the operations of a history in order. -/
def Object.replay (O : Object ι α) (v : α) (writes : List (ℕ × ι)) : α :=
  writes.foldl (fun v w => O.apply v w.2) v

@[simp] lemma Object.replay_nil (O : Object ι α) (v : α) : O.replay v [] = v := rfl

lemma Object.replay_append (O : Object ι α) (v : α) (ws ws' : List (ℕ × ι)) :
    O.replay v (ws ++ ws') = O.replay (O.replay v ws) ws' :=
  List.foldl_append

/-- The value that a call is about to write is its change of what it read. -/
def Object.Plan (O : Object ι α) (c : Call ι α) (base : Option α) (v : α) : Prop :=
  O.change c.op (base.getD O.missing) = some v

/-- Everything that one step of a call can do. -/
inductive Object.Effect (O : Object ι α) (store : Cells Unit α) (c : Call ι α) :
    Cells Unit α → Pc α → Bool → Prop
  | retry : O.Effect store c store .read false
  | fail : O.Effect store c store .failed false
  | idle (noop : O.change c.op (O.value store) = none) : O.Effect store c store .returned false
  | prepare (v : α) (generation : Option ℕ) : O.Effect store c store (.write v generation) false
  | commit (v : α) (changed : O.change c.op (O.value store) = some v) (pc : Pc α)
    (done : pc = .returned ∨ pc = .failed) : O.Effect store c (store.put () v) pc true

section Call
variable {O : Object ι α} {store store' : Cells Unit α} {c c' : Call ι α} {o : Outcome}
  {wrote : Bool}

@[simp] lemma Object.value_put (v : α) : O.value (store.put () v) = v := by
  simp [Object.value]

lemma Object.phase_write {v : α} {generation : Option ℕ}
    (h : O.loop.phase c = .write v generation) : c.pc = .write v generation := by
  unfold Object.loop at h
  dsimp only at h
  split at h <;> cases h
  assumption

lemma Object.plans (O : Object ι α) : O.loop.Plans O.Plan where
  read c found v generation h := by
    have hpc := Object.phase_write h
    unfold Object.loop at hpc ⊢
    dsimp only at hpc ⊢
    split at hpc
    · cases hpc
    · rename_i v' hchange
      cases hpc
      exact ⟨rfl, hchange⟩
  commit c v generation _ v' generation' h := nomatch Object.phase_write h
  conflict c v generation h := nomatch Object.phase_write h
  error c v generation h := nomatch Object.phase_write h

theorem Object.step_effect (h : O.loop.Step store c o store' c' wrote)
    (hok : O.loop.Ok O.Plan store c) : ∃ pc, c' = ⟨c.op, pc⟩ ∧ O.Effect store c store' pc wrote := by
  cases h with
  | read phase =>
    have hread : O.loop.onRead c (store.cell ()) =
        match O.change c.op (O.value store) with
        | none => ⟨c.op, .returned⟩
        | some v => ⟨c.op, .write v ((store.cell ()).map Prod.snd)⟩ := rfl
    rw [hread]
    cases hchange : O.change c.op (O.value store) with
    | none => exact ⟨_, rfl, .idle hchange⟩
    | some v => exact ⟨_, rfl, .prepare v _⟩
  | readError phase => exact ⟨_, rfl, .fail⟩
  | commit v generation phase holds =>
    exact ⟨_, rfl, .commit v (hok.present phase holds) _ (Or.inl rfl)⟩
  | conflict v generation phase => exact ⟨_, rfl, .retry⟩
  | writeError v generation phase => exact ⟨_, rfl, .fail⟩
  | commitError v generation phase holds =>
    exact ⟨_, rfl, .commit v (hok.present phase holds) _ (Or.inr rfl)⟩

lemma Object.running_of_step (h : O.loop.Step store c o store' c' wrote) :
    c.pc ≠ .returned ∧ c.pc ≠ .failed := by
  have hphase : O.loop.phase c ≠ .ended := by
    cases h <;> simp [*]
  constructor <;>
  · intro hc
    simp [Object.loop, hc] at hphase

end Call

/-- What one step does: start a call, or one step of a call. -/
inductive Object.Change (O : Object ι α) (s t : State ι α) : Prop
  | start (i : ℕ) (op : ι) (fresh : s.calls i = none)
    (calls : t.calls = Function.update s.calls i (some ⟨op, .read⟩))
    (store : t.store = s.store) (writes : t.writes = s.writes)
  | call (i : ℕ) (c : Call ι α) (o : Outcome) (pc : Pc α) (wrote : Bool)
    (before : s.calls i = some c) (running : c.pc ≠ .returned ∧ c.pc ≠ .failed)
    (calls : t.calls = Function.update s.calls i (some ⟨c.op, pc⟩))
    (step : O.loop.Step s.store c o t.store ⟨c.op, pc⟩ wrote)
    (effect : O.Effect s.store c t.store pc wrote)
    (writes : t.writes = if wrote then s.writes ++ [(i, c.op)] else s.writes)

/-- A call that has written has ended. -/
def Recorded (s : State ι α) (w : ℕ × ι) : Prop :=
  ∃ c, s.calls w.1 = some c ∧ c.op = w.2 ∧ (c.pc = .returned ∨ c.pc = .failed)

structure Object.Inv (O : Object ι α) (s : State ι α) : Prop where
  sound : s.store.Sound
  ok : ∀ i c, s.calls i = some c → O.loop.Ok O.Plan s.store c
  recorded : ∀ w ∈ s.writes, Recorded s w
  once : (s.writes.map Prod.fst).Nodup

section Step
variable {O : Object ι α} {s t : State ι α}

lemma Object.step_change (hi : O.Inv s) {a : Action ι} (h : O.step s a = some t) :
    O.Change s t := by
  cases a with
  | call i op =>
    simp only [Object.step] at h
    split at h <;> cases h
    exact .start i op ‹_› rfl rfl rfl
  | step i o =>
    simp only [Object.step] at h
    split at h
    · cases h
    · rename_i c hc
      split at h
      · cases h
      · rename_i store c' wrote hstep
        cases h
        have hcall := Loop.stepCall_step hstep
        obtain ⟨pc, rfl, heffect⟩ := Object.step_effect hcall (hi.ok i c hc)
        exact .call i c o pc wrote hc (Object.running_of_step hcall) rfl hcall heffect rfl

lemma Object.Change.later (h : O.Change s t) : s.store.Later t.store := by
  cases h with
  | start i op fresh calls store writes =>
    rw [store]
    exact Cells.Later.refl _
  | call i c o pc wrote before running calls step effect writes => exact step.later

lemma Object.Change.sound (h : O.Change s t) (hs : s.store.Sound) : t.store.Sound := by
  cases h with
  | start i op fresh calls store writes => rwa [store]
  | call i c o pc wrote before running calls step effect writes => exact step.sound hs

lemma Object.Change.ok (h : O.Change s t) (hi : O.Inv s) (j : ℕ) (d : Call ι α)
    (hd : t.calls j = some d) : O.loop.Ok O.Plan t.store d := by
  have hl := h.later
  cases h with
  | start i op fresh calls store writes =>
    rw [calls] at hd
    by_cases hij : j = i
    · subst hij
      rw [Function.update_self] at hd
      cases hd
      intro v generation hc
      cases Object.phase_write hc
    · rw [Function.update_of_ne hij] at hd
      exact (hi.ok j d hd).later hl
  | call i c o pc wrote before running calls step effect writes =>
    rw [calls] at hd
    by_cases hij : j = i
    · subst hij
      rw [Function.update_self] at hd
      cases hd
      exact step.ok O.plans hi.sound
    · rw [Function.update_of_ne hij] at hd
      exact (hi.ok j d hd).later hl

/-- A call that has ended is not touched again. -/
lemma Object.Change.recorded (h : O.Change s t) {w : ℕ × ι} (hw : Recorded s w) :
    Recorded t w := by
  obtain ⟨d, hd, hop, hdone⟩ := hw
  refine ⟨d, ?_, hop, hdone⟩
  cases h with
  | start i op fresh calls store writes =>
    have hne : w.1 ≠ i := by
      intro he
      rw [he, fresh] at hd
      cases hd
    rw [calls, Function.update_of_ne hne, hd]
  | call i c o pc wrote before running calls step effect writes =>
    have hne : w.1 ≠ i := by
      intro he
      rw [he, before] at hd
      cases hd
      exact hdone.elim running.1 running.2
    rw [calls, Function.update_of_ne hne, hd]

/-- The history grows by the call that committed a write, which had not written before. -/
lemma Object.Change.writes_cases (h : O.Change s t) :
    t.writes = s.writes ∧ t.store = s.store ∨
    ∃ i c, s.calls i = some c ∧ ¬(c.pc = .returned ∨ c.pc = .failed) ∧
      t.writes = s.writes ++ [(i, c.op)] ∧ Recorded t (i, c.op) ∧
      O.change c.op (O.value s.store) = some (O.value t.store) := by
  cases h with
  | start i op fresh calls store writes => exact Or.inl ⟨writes, store⟩
  | call i c o pc wrote before running calls step effect writes =>
    generalize hst : t.store = store' at effect
    cases effect with
    | retry | fail | idle | prepare => exact Or.inl ⟨writes, rfl⟩
    | commit v changed pc done =>
      refine Or.inr ⟨i, c, before, not_or.mpr running, writes, ⟨⟨c.op, pc⟩, ?_, rfl, done⟩, ?_⟩
      · rw [calls, Function.update_self]
      · rw [changed, Object.value_put]

lemma Object.Change.inv (h : O.Change s t) (hi : O.Inv s) : O.Inv t := by
  refine ⟨h.sound hi.sound, h.ok hi, ?_, ?_⟩
  · intro w hw
    rcases h.writes_cases with ⟨hws, -⟩ | ⟨i, c, -, -, hws, hrec, -⟩
    · rw [hws] at hw
      exact h.recorded (hi.recorded w hw)
    · rw [hws, List.mem_append, List.mem_singleton] at hw
      rcases hw with hw | rfl
      · exact h.recorded (hi.recorded w hw)
      · exact hrec
  · rcases h.writes_cases with ⟨hws, -⟩ | ⟨i, c, hc, hrun, hws, -, -⟩
    · rw [hws]
      exact hi.once
    · rw [hws, List.map_append, List.map_singleton, List.nodup_append]
      refine ⟨hi.once, List.nodup_cons.mpr ⟨List.not_mem_nil, List.nodup_nil⟩, ?_⟩
      intro j hj k hk hjk
      obtain ⟨w, hw, rfl⟩ := List.mem_map.mp hj
      obtain ⟨d, hd, -, hdone⟩ := hi.recorded w hw
      rw [hjk, List.mem_singleton.mp hk, hc] at hd
      cases hd
      exact hrun hdone

lemma initial_sound (before : Option α) : (initial before).Sound := by
  have hempty : ({} : Cells Unit α).Sound := by
    intro k v g h
    cases h
  cases before with
  | none => exact hempty
  | some v => exact hempty.put _ _

lemma Object.value_initial (before : Option α) :
    O.value (initial before) = before.getD O.missing := by
  cases before with
  | none => rfl
  | some v => simp [initial]

lemma Object.inv_reachable {before : Option α} (h : (O.machine before).Reachable s) : O.Inv s := by
  refine Machine.Reachable.invariant (P := O.Inv) ?_ (fun s a t hs hst =>
    (Object.step_change hs hst).inv hs) h
  refine ⟨initial_sound before, ?_, ?_, List.nodup_nil⟩
  · intro i c hc
    cases hc
  · intro w hw
    cases hw

/-- The value is what the committed calls make of it, one after the other. -/
theorem Object.replay_run {before : Option α} (hs : (O.machine before).Reachable s)
    (h : (O.machine before).Run anyStep s t) :
    ∃ ws, t.writes = s.writes ++ ws ∧ O.value t.store = O.replay (O.value s.store) ws := by
  refine Machine.Run.relates (R := fun s t => ∃ ws, t.writes = s.writes ++ ws ∧
    O.value t.store = O.replay (O.value s.store) ws) ?_ ?_ ?_ hs h
  · exact fun s => ⟨[], by simp, rfl⟩
  · rintro s t u ⟨ws, hws, hv⟩ ⟨ws', hws', hv'⟩
    refine ⟨ws ++ ws', by rw [hws', hws, List.append_assoc], ?_⟩
    rw [hv', hv, Object.replay_append]
  · intro s a t hs _ hst
    rcases (Object.step_change (Object.inv_reachable hs) hst).writes_cases with
      ⟨hws, hstore⟩ | ⟨i, c, -, -, hws, -, hchange⟩
    · exact ⟨[], by rw [hws, List.append_nil], by rw [hstore, Object.replay_nil]⟩
    · exact ⟨[(i, c.op)], hws, by simp [Object.replay, Object.apply, hchange]⟩

theorem Object.replay_reachable {before : Option α} (hs : (O.machine before).Reachable s) :
    O.value s.store = O.replay (before.getD O.missing) s.writes := by
  obtain ⟨ws, hws, hv⟩ := Object.replay_run (Machine.Run.refl _) hs
  rw [hv, hws]
  exact congrArg (O.replay · ws) (Object.value_initial before)

/-- The step in which a call returns success: it committed its write, or it found
nothing to change in the value of that moment. -/
theorem Object.Change.returned (h : O.Change s t) {i : ℕ} {c : Call ι α}
    (hc : t.calls i = some c) (hr : c.pc = .returned) (hnew : s.calls i ≠ some c) :
    t.writes = s.writes ++ [(i, c.op)] ∧
        O.change c.op (O.value s.store) = some (O.value t.store) ∨
      t.writes = s.writes ∧ t.store = s.store ∧ O.change c.op (O.value s.store) = none := by
  cases h with
  | start j op fresh calls store writes =>
    rw [calls] at hc
    by_cases hij : i = j
    · subst hij
      rw [Function.update_self] at hc
      cases hc
      cases hr
    · rw [Function.update_of_ne hij] at hc
      exact absurd hc hnew
  | call j d o pc wrote before running calls step effect writes =>
    rw [calls] at hc
    by_cases hij : i = j
    · subst hij
      rw [Function.update_self] at hc
      cases hc
      change pc = .returned at hr
      subst hr
      generalize hst : t.store = store' at effect
      cases effect with
      | idle noop => exact Or.inr ⟨writes, rfl, noop⟩
      | commit v changed pc done =>
        refine Or.inl ⟨writes, ?_⟩
        rw [Object.value_put]
        exact changed
    · rw [Function.update_of_ne hij] at hc
      exact absurd hc hnew

end Step

end CloudyNeigh.ReadModifyWrite
