import CloudyNeigh.LogStreamLinear
import CloudyNeigh.LogStreamTail

/-!
# Logs of several prefixes on one store

`logs` gives the prefix that each `Log` was made with. `Append`, `Tail` and
`Read` calls on all of them interleave, one store call or one atomic operation at
a time. A listing has only keys that `List` may return for the prefix and the
start key of the call; it may still miss some.

Restricting a state to one prefix forgets the calls of the other logs and the
objects outside the prefix. A step of a log of that prefix is then the same step
of the restricted state, whatever the other prefixes are.
-/
namespace CloudyNeigh.LogStream
open RecordIO Transition

inductive TailPc
  | list
  | probe (j : Jump)
  | returned (head : ℕ)
  | failed
  deriving DecidableEq, Repr

structure TailCall where
  log : ℕ
  pc : TailPc
  deriving DecidableEq, Repr

/-- `result` is `none` when the store failed. -/
structure ReadCall where
  log : ℕ
  seq : ℕ
  result : Option (Except LogErr (List Bytes))

structure Shared where
  base : State
  tails : ℕ → Option TailCall
  reads : ℕ → Option ReadCall

inductive SharedAction
  | append (a : Action)
  | tail (id log : ℕ)
  | tailStep (id : ℕ) (o : Outcome)
  | read (id log seq : ℕ) (failed : Bool)
  deriving DecidableEq, Repr

/-- What `List(pfx + "/", startAfter, headListLimit)` may return, apart from
whether the keys are there. -/
def mayList (pfx startAfter : Bytes) (objs : List Bytes) : Bool :=
  (objs.all fun k => (pfx ++ [slash]).isPrefixOf k && decide (startAfter < k)) &&
    decide (objs.Pairwise (· < ·)) && decide (objs.length ≤ headListLimit)

/-- The bound that `head` lists after, at the points where `Append` lists. -/
def Pc.listsAfter : Pc → Option ℕ
  | .tailList => some 0
  | .headList seq => some seq
  | _ => none

def Call.mayTake (pfx : Bytes) (c : Call) : Outcome → Bool
  | .listed objs => c.pc.listsAfter.any fun lo => mayList pfx (headStart pfx lo) objs
  | _ => true

def tailReturn : JumpNext → TailPc
  | .done head => .returned head
  | .probe j => .probe j

def TailCall.step (pfx : Bytes) (s : State) (c : TailCall) (o : Outcome) : Option TailCall :=
  match c.pc, o with
  | .list, .listed objs =>
    if mayList pfx (headStart pfx 0) objs && objs.all s.present then
      match headListed 0 objs with
      | .ok next => some { c with pc := tailReturn next }
      | .error _ => some { c with pc := .failed }
    else none
  | .list, .listFailed => some { c with pc := .failed }
  | .probe j, .probed found =>
    if found = true → s.present (segmentKey pfx j.target) = true then
      some { c with pc := tailReturn (j.next found) }
    else none
  | .probe _, .probeFailed => some { c with pc := .failed }
  | _, _ => none

section Machine
variable (logs : ℕ → Bytes)

def Shared.append (s : Shared) (pfx : Bytes) (a : Action) : Option Shared :=
  (LogStream.step pfx s.base a).map fun b => { s with base := b }

-- As for `Append`, the identifier of a call is used once.
def Shared.step (s : Shared) : SharedAction → Option Shared
  | .append (.call c log batch) => s.append (logs log) (.call c log batch)
  | .append (.step c o) =>
    let pfx := logs (s.base.calls c).log
    if (s.base.calls c).mayTake pfx o then s.append pfx (.step c o) else none
  | .append (.crash c) => s.append (logs (s.base.calls c).log) (.crash c)
  | .tail id log =>
    match s.tails id with
    | none => some { s with tails := Function.update s.tails id (some ⟨log, .list⟩) }
    | some _ => none
  | .tailStep id o =>
    match s.tails id with
    | none => none
    | some c => (c.step (logs c.log) s.base o).map fun c' =>
        { s with tails := Function.update s.tails id (some c') }
  | .read id log seq failed =>
    match s.reads id with
    | none =>
      let result := if failed then none else some (Read (logs log) s.base seq)
      some { s with reads := Function.update s.reads id (some ⟨log, seq, result⟩) }
    | some _ => none

def sharedInit : Shared := ⟨⟨[], fun _ => 0, fun _ => {}⟩, fun _ => none, fun _ => none⟩

def sharedMachine : Machine Shared SharedAction where
  init := sharedInit
  step := Shared.step logs

/-- The log that an action belongs to. -/
def Shared.logOf (s : Shared) : SharedAction → ℕ
  | .append (.call _ log _) => log
  | .append (.step c _) => (s.base.calls c).log
  | .append (.crash c) => (s.base.calls c).log
  | .tail _ log => log
  | .tailStep id _ => ((s.tails id).map TailCall.log).getD 0
  | .read _ log _ _ => log

/-- Only logs of the prefix `r` are used. -/
def onlyOf (r : Bytes) (s : Shared) (a : SharedAction) : Prop := logs (s.logOf a) = r

variable (r : Bytes)

def Call.isOf (c : Call) : Prop := c.pc ≠ .idle ∧ logs c.log = r

instance (c : Call) : Decidable (c.isOf logs r) := inferInstanceAs (Decidable (_ ∧ _))

def State.restrict (s : State) : State where
  objects := s.objects.filter fun o => (r ++ [slash]).isPrefixOf o.key
  lastKnown l := if logs l = r then s.lastKnown l else 0
  calls c := if (s.calls c).isOf logs r then s.calls c else {}

def Shared.restrict (s : Shared) : Shared where
  base := s.base.restrict logs r
  tails id := (s.tails id).filter fun c => logs c.log = r
  reads id := (s.reads id).filter fun c => logs c.log = r

end Machine

section Own
variable {logs : ℕ → Bytes} {r : Bytes} {s t : State} {c : ℕ}

lemma restrict_present {key : Bytes} (h : (r ++ [slash]).isPrefixOf key = true) :
    (s.restrict logs r).present key = s.present key := by
  rw [Bool.eq_iff_iff, present_iff, present_iff]
  constructor
  · rintro ⟨o, ho, hk⟩
    exact ⟨o, (List.mem_filter.mp ho).1, hk⟩
  · rintro ⟨o, ho, hk⟩
    exact ⟨o, List.mem_filter.mpr ⟨ho, hk ▸ h⟩, hk⟩

lemma restrict_present_segment (seq : ℕ) :
    (s.restrict logs r).present (segmentKey r seq) = s.present (segmentKey r seq) :=
  restrict_present (slash_isPrefixOf_segmentKey r seq)

lemma restrict_present_listed {start : Bytes} {objs : List Bytes} (h : mayList r start objs = true) :
    objs.all (s.restrict logs r).present = objs.all s.present := by
  simp only [mayList, Bool.and_eq_true, List.all_eq_true] at h
  have heq : ∀ k ∈ objs, (s.restrict logs r).present k = s.present k :=
    fun k hk => restrict_present (h.1.1 k hk).1
  rw [Bool.eq_iff_iff, List.all_eq_true, List.all_eq_true]
  exact forall₂_congr fun k hk => by rw [heq k hk]

lemma restrict_get (seq : ℕ) :
    (s.restrict logs r).Get (segmentKey r seq) = s.Get (segmentKey r seq) := by
  unfold State.Get State.restrict
  rw [List.find?_filter]
  congr 2
  funext o
  by_cases hk : o.key = segmentKey r seq
  · simp [hk, slash_isPrefixOf_segmentKey]
  · simp [hk]

lemma restrict_read (seq : ℕ) : Read r (s.restrict logs r) seq = Read r s seq := by
  unfold Read
  rw [restrict_get]

lemma restrict_calls (h : (s.calls c).isOf logs r) : (s.restrict logs r).calls c = s.calls c :=
  if_pos h

lemma restrict_lastKnown {log : ℕ} (h : logs log = r) :
    (s.restrict logs r).lastKnown log = s.lastKnown log := if_pos h

lemma restrict_goto (h : logs (s.calls c).log = r) (hi : (s.calls c).pc ≠ .idle) {pc : Pc}
    (hpc : pc ≠ .idle) :
    (s.goto c pc).restrict logs r = (s.restrict logs r).goto c pc := by
  have hcalls : ((s.goto c pc).restrict logs r).calls = ((s.restrict logs r).goto c pc).calls := by
    funext d
    by_cases hd : d = c
    · subst hd
      rw [goto_calls_self, restrict_calls ⟨hi, h⟩, restrict_calls, goto_calls_self]
      rw [goto_calls_self]
      exact ⟨hpc, h⟩
    · rw [goto_calls_ne _ pc hd]
      simp only [State.restrict, goto_calls_ne s pc hd]
  simp only [State.restrict, State.goto] at hcalls ⊢
  rw [hcalls]

lemma restrict_learn {log : ℕ} (h : logs log = r) (v : ℕ) :
    (s.learn log v).restrict logs r = (s.restrict logs r).learn log v := by
  have hknown : (fun l => if logs l = r then Function.update s.lastKnown log v l else 0) =
      Function.update (fun l => if logs l = r then s.lastKnown l else 0) log v := by
    funext l
    by_cases hl : l = log
    · subst hl
      simp [h]
    · simp [hl]
  simp only [State.restrict, State.learn, hknown]
  rfl

lemma restrict_commit (h : (s.calls c).isOf logs r) (seq : ℕ) :
    (s.commit r c seq).restrict logs r = (s.restrict logs r).commit r c seq := by
  have hb : ((s.restrict logs r).calls c).batch = (s.calls c).batch := by rw [restrict_calls h]
  unfold State.commit
  rw [hb]
  simp only [State.restrict, List.filter_append, List.filter_cons, slash_isPrefixOf_segmentKey,
    if_true, List.filter_nil]

/-- A step of `Append` sees nothing outside its prefix. -/
theorem stepCall_restrict (h : (s.calls c).isOf logs r) {o : Outcome}
    (hm : (s.calls c).mayTake r o = true) :
    stepCall r (s.restrict logs r) c o = (stepCall r s c o).map (State.restrict logs r) := by
  obtain ⟨hi, hl⟩ := h
  have hgoto : ∀ pc, pc ≠ .idle →
      (s.goto c pc).restrict logs r = (s.restrict logs r).goto c pc :=
    fun pc hpc => restrict_goto hl hi hpc
  have hlearn : ∀ v pc, pc ≠ .idle → ((s.learn (s.calls c).log v).goto c pc).restrict logs r =
      ((s.restrict logs r).learn (s.calls c).log v).goto c pc := by
    intro v pc hpc
    rw [restrict_goto (s := s.learn (s.calls c).log v) hl hi hpc, restrict_learn hl]
  have hcommit : ∀ seq pc, pc ≠ .idle → ((s.commit r c seq).goto c pc).restrict logs r =
      ((s.restrict logs r).commit r c seq).goto c pc := by
    intro seq pc hpc
    rw [restrict_goto (s := s.commit r c seq) hl hi hpc, restrict_commit ⟨hi, hl⟩]
  unfold stepCall
  dsimp only
  rw [restrict_calls ⟨hi, hl⟩, restrict_lastKnown hl]
  split
  case h_2 objs heq | h_14 seq objs heq =>
    simp only [Call.mayTake, heq, Pc.listsAfter, Option.any_some] at hm
    rw [restrict_present_listed hm]
    split
    · split
      · simp only [Option.map_some, hgoto _ (tailNext_ne_idle _), hgoto _ (headNext_ne_idle _)]
      · simp only [Option.map_some, hgoto .failed (by simp)]
    · rfl
  case h_4 j found heq | h_16 j found heq =>
    simp only [restrict_present_segment]
    split
    · simp only [Option.map_some, hgoto _ (tailNext_ne_idle _), hgoto _ (headNext_ne_idle _)]
    · rfl
  case h_9 | h_10 | h_11 | h_13 =>
    rw [restrict_present_segment]
    split <;> simp only [Option.map_some, Option.map_none, hgoto, hcommit, ne_eq, reduceCtorEq,
      not_false_eq_true]
  case h_20 => rfl
  -- the store failed, or the step only looks at `lastKnown`
  all_goals try split
  all_goals simp only [Option.map_some, hgoto, hlearn, ne_eq, reduceCtorEq, not_false_eq_true]

lemma step_restrict_call {log : ℕ} (hl : logs log = r) {batch : List Bytes}
    (h : LogStream.step r s (.call c log batch) = some t) :
    LogStream.step r (s.restrict logs r) (.call c log batch) = some (t.restrict logs r) := by
  simp only [LogStream.step] at h ⊢
  split at h <;> cases h
  rename_i hidle
  have hold : (s.restrict logs r).calls c = {} := if_neg fun hof => hof.1 hidle
  have hcalls : (fun d => if (Function.update s.calls c ⟨log, batch, appendStart batch⟩ d).isOf logs r
        then Function.update s.calls c ⟨log, batch, appendStart batch⟩ d else {}) =
      Function.update (s.restrict logs r).calls c ⟨log, batch, appendStart batch⟩ := by
    funext d
    by_cases hd : d = c
    · subst hd
      simp [Call.isOf, appendStart_ne_idle, hl]
    · simp [hd, State.restrict]
  rw [if_pos (by rw [hold]), ← hcalls]
  rfl

lemma TailCall.step_restrict {q q' : TailCall} {o : Outcome} (h : q.step r s o = some q') :
    q.step r (s.restrict logs r) o = some q' := by
  unfold TailCall.step at h ⊢
  split at h
  case h_1 objs heq =>
    split at h
    · rename_i hcond
      rw [Bool.and_eq_true] at hcond
      rw [restrict_present_listed hcond.1, hcond.1, hcond.2]
      exact h
    · cases h
  case h_3 j found heq =>
    split at h
    · rename_i hf
      rw [if_pos (by rwa [restrict_present_segment])]
      exact h
    · cases h
  case h_5 => cases h
  all_goals exact h

lemma TailCall.step_log {pfx : Bytes} {q q' : TailCall} {o : Outcome} (h : q.step pfx s o = some q') :
    q'.log = q.log := by
  unfold TailCall.step at h
  split at h
  case h_1 =>
    split at h
    · split at h <;> cases h <;> rfl
    · cases h
  case h_3 =>
    split at h <;> cases h
    rfl
  case h_5 => cases h
  all_goals
    cases h
    rfl

/-- Without its invariant, a step of `Append` moves one call that is under way,
and changes at most its log's `lastKnown` or adds one object of its prefix. -/
lemma stepCall_shape {pfx : Bytes} {o : Outcome} (h : stepCall pfx s c o = some t) :
    (s.calls c).pc ≠ .idle ∧ ∃ pc, pc ≠ .idle ∧ (t = s.goto c pc ∨
      (∃ v, t = (s.learn (s.calls c).log v).goto c pc) ∨
      ∃ seq, t = (s.commit pfx c seq).goto c pc) := by
  unfold stepCall at h
  dsimp only at h
  split at h
  case h_2 heq | h_14 heq =>
    split at h
    · split at h <;> cases h
      · exact ⟨by simp [heq], _, by simp [tailNext_ne_idle, headNext_ne_idle], .inl rfl⟩
      · exact ⟨by simp [heq], _, by simp, .inl rfl⟩
    · cases h
  case h_4 heq | h_16 heq =>
    split at h <;> cases h
    exact ⟨by simp [heq], _, by simp [tailNext_ne_idle, headNext_ne_idle], .inl rfl⟩
  case h_7 heq | h_19 heq =>
    split at h <;> cases h
    · exact ⟨by simp [heq], _, by simp, .inr (.inl ⟨_, rfl⟩)⟩
    · exact ⟨by simp [heq], _, by simp, .inl rfl⟩
  case h_9 heq | h_11 heq | h_13 heq =>
    split at h <;> cases h
    exact ⟨by simp [heq], _, by simp, .inr (.inr ⟨_, rfl⟩)⟩
  case h_1 heq | h_6 heq | h_10 heq | h_18 heq =>
    split at h <;> cases h <;> exact ⟨by simp [heq], _, by simp, .inl rfl⟩
  case h_20 => cases h
  all_goals
    rename_i heq
    cases h
    exact ⟨by simp [heq], _, by simp, .inl rfl⟩

end Own

section Other
variable {logs : ℕ → Bytes} {r : Bytes} {s t : State} {c : ℕ}

lemma restrict_calls_other {call : Call} (hold : ¬ (s.calls c).isOf logs r)
    (hnew : ¬ call.isOf logs r) :
    ({ s with calls := Function.update s.calls c call } : State).restrict logs r =
      s.restrict logs r := by
  have hcalls : (fun d => if (Function.update s.calls c call d).isOf logs r
        then Function.update s.calls c call d else {}) =
      fun d => if (s.calls d).isOf logs r then s.calls d else {} := by
    funext d
    by_cases hd : d = c
    · subst hd
      simp [hold, hnew]
    · simp [hd]
  simp only [State.restrict, hcalls]

lemma restrict_goto_other (h : logs (s.calls c).log ≠ r) (pc : Pc) :
    (s.goto c pc).restrict logs r = s.restrict logs r :=
  restrict_calls_other (fun hof => h hof.2) (fun hof => h hof.2)

lemma restrict_learn_other {log : ℕ} (h : logs log ≠ r) (v : ℕ) :
    (s.learn log v).restrict logs r = s.restrict logs r := by
  have hknown : (fun l => if logs l = r then Function.update s.lastKnown log v l else 0) =
      fun l => if logs l = r then s.lastKnown l else 0 := by
    funext l
    by_cases hl : l = log
    · subst hl
      simp [h]
    · simp [hl]
  simp only [State.restrict, State.learn, hknown]
  rfl

lemma restrict_commit_other {q : Bytes} {seq : ℕ}
    (hout : (r ++ [slash]).isPrefixOf (segmentKey q seq) = false) :
    (s.commit q c seq).restrict logs r = s.restrict logs r := by
  simp only [State.restrict, State.commit, List.filter_append, List.filter_cons, hout,
    Bool.false_eq_true, if_false, List.filter_nil, List.append_nil]
  rfl

lemma stepCall_other (h : logs (s.calls c).log ≠ r)
    (hout : ∀ seq, (r ++ [slash]).isPrefixOf (segmentKey (logs (s.calls c).log) seq) = false)
    {o : Outcome} (hs : stepCall (logs (s.calls c).log) s c o = some t) :
    t.restrict logs r = s.restrict logs r := by
  obtain ⟨-, pc, -, rfl | ⟨v, rfl⟩ | ⟨seq, rfl⟩⟩ := stepCall_shape hs
  · exact restrict_goto_other h pc
  · rw [restrict_goto_other (s := s.learn (s.calls c).log v) h, restrict_learn_other h]
  · rw [restrict_goto_other (s := s.commit _ c seq) h, restrict_commit_other (hout seq)]

end Other

section Shared
variable {logs : ℕ → Bytes} {r : Bytes} {s t : Shared}

section Filter
variable {α : Type*} (f : ℕ → Option α) {keep : α → Bool} (id : ℕ) {v : α}

lemma update_filter_kept (hv : keep v = true) :
    (fun d => (Function.update f id (some v) d).filter keep) =
      Function.update (fun d => (f d).filter keep) id (some v) := by
  funext d
  by_cases hd : d = id
  · subst hd
    simp [Option.filter, hv]
  · simp [hd]

lemma update_filter_dropped (hold : (f id).filter keep = none) (hv : keep v = false) :
    (fun d => (Function.update f id (some v) d).filter keep) = fun d => (f d).filter keep := by
  funext d
  by_cases hd : d = id
  · subst hd
    simp only [Function.update_self, hold]
    simp [Option.filter, hv]
  · simp [hd]

end Filter

/-- A step of a log of the prefix is a step of the restricted state. -/
theorem Shared.step_own {a : SharedAction} (h : s.step logs a = some t) (ho : onlyOf logs r s a) :
    (s.restrict logs r).step logs a = some (t.restrict logs r) ∧
      onlyOf logs r (s.restrict logs r) a := by
  unfold onlyOf at ho ⊢
  cases a with
  | append a =>
    cases a with
    | call c log batch =>
      simp only [Shared.logOf] at ho ⊢
      subst ho
      obtain ⟨b, hb, rfl⟩ := Option.map_eq_some_iff.mp h
      refine ⟨?_, rfl⟩
      simp only [Shared.step, Shared.append, Shared.restrict, step_restrict_call rfl hb,
        Option.map_some]
    | step c o =>
      simp only [Shared.logOf] at ho
      simp only [Shared.step] at h
      rw [ho] at h
      split at h
      · rename_i hm
        obtain ⟨b, hb, rfl⟩ := Option.map_eq_some_iff.mp h
        have hof : (s.base.calls c).isOf logs r := ⟨(stepCall_shape hb).1, ho⟩
        have hstep : stepCall r (s.base.restrict logs r) c o = some (b.restrict logs r) := by
          rw [stepCall_restrict hof hm, show stepCall r s.base c o = some b from hb]
          rfl
        have hcall : (s.restrict logs r).base.calls c = s.base.calls c := restrict_calls hof
        refine ⟨?_, by simp only [Shared.logOf, hcall, ho]⟩
        simp only [Shared.step, hcall, ho, hm, if_true, Shared.append, LogStream.step]
        simp only [Shared.restrict, hstep, Option.map_some]
      · cases h
    | crash c =>
      simp only [Shared.logOf] at ho
      obtain ⟨b, hb, rfl⟩ := Option.map_eq_some_iff.mp h
      simp only [LogStream.step] at hb
      split at hb <;> cases hb
      rename_i hactive
      have hne : (s.base.calls c).pc ≠ .idle := Pc.ne_idle_of_active hactive
      have hcall : (s.restrict logs r).base.calls c = s.base.calls c := restrict_calls ⟨hne, ho⟩
      refine ⟨?_, by simp only [Shared.logOf, hcall, ho]⟩
      simp only [Shared.step, Shared.append, LogStream.step, hcall, hactive, if_true, Option.map_some]
      simp only [Shared.restrict, restrict_goto ho hne (show Pc.failed ≠ .idle by simp)]
  | tail id log =>
    simp only [Shared.logOf] at ho
    simp only [Shared.step] at h
    split at h
    · rename_i hnone
      cases h
      refine ⟨?_, ho⟩
      simp only [Shared.step, Shared.restrict, hnone, Option.filter_none]
      rw [update_filter_kept _ _ (by simpa using ho)]
    · cases h
  | tailStep id o =>
    simp only [Shared.step] at h
    split at h
    · cases h
    · rename_i q hq
      obtain ⟨q', hq', rfl⟩ := Option.map_eq_some_iff.mp h
      have hl : logs q.log = r := by simpa [Shared.logOf, hq] using ho
      have hl' : logs q'.log = r := by rw [TailCall.step_log hq', hl]
      rw [hl] at hq'
      have hkeep : (s.restrict logs r).tails id = some q := by simp [Shared.restrict, hq, hl]
      refine ⟨?_, by simp [Shared.logOf, hkeep, hl]⟩
      simp only [Shared.step, hkeep, hl]
      simp only [Shared.restrict, TailCall.step_restrict hq', Option.map_some]
      rw [update_filter_kept _ _ (by simpa using hl')]
  | read id log seq failed =>
    simp only [Shared.logOf] at ho
    simp only [Shared.step] at h
    split at h
    · rename_i hnone
      cases h
      refine ⟨?_, ho⟩
      simp only [Shared.step, Shared.restrict, hnone, Option.filter_none, ho, restrict_read]
      rw [update_filter_kept _ _ (by simpa using ho)]
    · cases h

/-- A step of a log whose keys lie outside the prefix is not seen. -/
theorem Shared.step_other {a : SharedAction} (h : s.step logs a = some t)
    (ho : logs (s.logOf a) ≠ r)
    (hout : ∀ seq, (r ++ [slash]).isPrefixOf (segmentKey (logs (s.logOf a)) seq) = false) :
    t.restrict logs r = s.restrict logs r := by
  cases a with
  | append a =>
    cases a with
    | call c log batch =>
      simp only [Shared.logOf] at ho
      obtain ⟨b, hb, rfl⟩ := Option.map_eq_some_iff.mp h
      simp only [LogStream.step] at hb
      split at hb <;> cases hb
      rename_i hidle
      have hold : ¬ (s.base.calls c).isOf logs r := fun hof => hof.1 hidle
      have hnew : ¬ (Call.mk log batch (appendStart batch)).isOf logs r := fun hof => ho hof.2
      simp only [Shared.restrict, restrict_calls_other hold hnew]
    | step c o =>
      simp only [Shared.logOf] at ho hout
      simp only [Shared.step] at h
      split at h
      · obtain ⟨b, hb, rfl⟩ := Option.map_eq_some_iff.mp h
        have hb' := stepCall_other ho hout hb
        simp only [Shared.restrict, hb']
      · cases h
    | crash c =>
      simp only [Shared.logOf] at ho
      obtain ⟨b, hb, rfl⟩ := Option.map_eq_some_iff.mp h
      simp only [LogStream.step] at hb
      split at hb <;> cases hb
      simp only [Shared.restrict, restrict_goto_other ho]
  | tail id log =>
    simp only [Shared.logOf] at ho
    simp only [Shared.step] at h
    split at h
    · rename_i hnone
      cases h
      simp only [Shared.restrict]
      rw [update_filter_dropped _ _ (by simp [hnone]) (by simpa using ho)]
    · cases h
  | tailStep id o =>
    simp only [Shared.step] at h
    split at h
    · cases h
    · rename_i q hq
      obtain ⟨q', hq', rfl⟩ := Option.map_eq_some_iff.mp h
      have hl : logs q.log ≠ r := by simpa [Shared.logOf, hq] using ho
      have hl' : logs q'.log ≠ r := by rwa [TailCall.step_log hq']
      simp only [Shared.restrict]
      rw [update_filter_dropped _ _ (by simp [hq, hl]) (by simpa using hl')]
  | read id log seq failed =>
    simp only [Shared.logOf] at ho
    simp only [Shared.step] at h
    split at h
    · rename_i hnone
      cases h
      simp only [Shared.restrict]
      rw [update_filter_dropped _ _ (by simp [hnone]) (by simpa using ho)]
    · cases h

end Shared

end CloudyNeigh.LogStream
