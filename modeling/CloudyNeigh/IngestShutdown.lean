import CloudyNeigh.IngestCoverage

/-!
# `Flusher.Run` and its streams

One process flushes the logs of all its namespaces: `Run` discovers namespaces, starts
one stream flusher for each and never a second one, and at the end cancels the streams
and waits for them. Other processes and the process's own ingest calls work on the same
namespaces at the same time. A stream that returns nil has drained its log.
-/
namespace CloudyNeigh.Ingest
open RecordIO Storage LogStream Naming SlashPath Transition Versioned

section Streams
variable (S : Setup)

/-- `shutdownFlush` is at the end of the log. -/
def Flusher.drained (st : Store) (f : Flusher) : Bool :=
  f.draining && match f.pc with
    | .read seq => match st.read seq with
      | .error .endOfStream => true
      | _ => false
    | _ => false

/-- What `streamFlusher.Run` returns if it returns at this store call: `true` for nil. -/
def Flusher.returns (st : Store) (f f' : Flusher) (o : Outcome) : Option Bool :=
  if f'.pc = .off then some (decide (o = .ok) && f.drained st) else none

end Streams

inductive StreamStatus
  | absent
  | running
  | returned (ok : Bool)
  deriving DecidableEq, Repr

/-- How a call of `discoverStreams` ends; `cancelled` stands for `Canceled` and for
`DeadlineExceeded`. -/
inductive Discovery (N : Type)
  | ok (targets : List N)
  | cancelled
  | failed

/-- Where `Flusher.Run` is. `rediscover` and `startAll` are the branch for a first
discovery that did not come to its end. -/
inductive RunPc (N : Type)
  | discover
  | rediscover
  | start (todo : List N)
  | startAll (todo : List N)
  | poll
  | restart (todo : List N)
  | wait
  | returned (ok : Bool)
  deriving DecidableEq

/-- The process and all namespaces. The own stream of a namespace is its flusher 0.
`halted` says that the contexts of the streams are cancelled, and `mark` remembers how
long the logs were then. -/
structure Process (N : Type) where
  spaces : N → Sys := fun _ => {}
  streams : N → StreamStatus := fun _ => .absent
  started : List N := []
  run : RunPc N := .discover
  cancelled : Bool := false
  halted : Bool := false
  mark : N → ℕ := fun _ => 0

inductive ProcessAction (N : Type)
  | other (n : N) (a : Action)
  | cancel
  | discovered (r : Discovery N)
  | next (ok : Bool)
  | stream (n : N) (o : Outcome)
  | done
  | wait

/-- A step of the stream flusher of this process. -/
def Action.own : Action → Bool
  | .start i | .flush i _ | .crash i => i == 0
  | _ => false

section Steps
variable {N : Type} [DecidableEq N] (S : N → Setup)

/-- The contexts of the streams are cancelled, all at once. -/
def Process.halt (p : Process N) : Process N :=
  if p.halted then p
  else { p with halted := true, mark := fun n => (p.spaces n).store.wal.length }

/-- `startStream`, if `logstream.New` succeeds. -/
def Process.startStream (p : Process N) (n : N) : Option (Process N) :=
  if p.streams n = .absent then
    (Sys.step (S n) (p.spaces n) (.start 0)).map fun s => { p with
      spaces := Function.update p.spaces n s
      streams := Function.update p.streams n .running
      started := p.started ++ [n] }
  else some p

/-- The next round of a loop over targets. Only the loop of the branch for an
unfinished discovery ignores an error of `startStream`. -/
def Process.next (p : Process N) (ok : Bool) : Option (Process N) :=
  match p.run with
  | .start [] => some { p with run := .poll }
  | .start (n :: todo) =>
    if p.streams n = .absent ∧ ok = false then some { p with run := .returned false }
    else (p.startStream S n).map fun p => { p with run := .start todo }
  | .startAll [] => some { p.halt with run := .wait }
  | .startAll (n :: todo) =>
    if p.streams n = .absent ∧ ok = false then some { p with run := .startAll todo }
    else (p.startStream S n).map fun p => { p with run := .startAll todo }
  | .restart [] => some { p with run := .poll }
  | .restart (n :: todo) =>
    if p.streams n = .absent ∧ ok = false then some { p.halt with run := .returned false }
    else (p.startStream S n).map fun p => { p with run := .restart todo }
  | _ => none

def Process.discovered (p : Process N) (r : Discovery N) : Option (Process N) :=
  match p.run, r with
  | .discover, .ok targets => some { p with run := .start targets }
  | .discover, .cancelled => some { p with run := .rediscover }
  | .discover, .failed => some { p with run := .returned false }
  | .rediscover, .ok targets => some { p with run := .startAll targets }
  | .rediscover, _ => some { p with run := .returned true }
  | .poll, .ok targets => some { p with run := .restart targets }
  | .poll, .cancelled => some { p.halt with run := .wait }
  | .poll, .failed => some p
  | _, _ => none

/-- A store call of a stream. -/
def Process.stream (p : Process N) (n : N) (o : Outcome) : Option (Process N) :=
  if p.streams n = .running then
    (Sys.step (S n) (p.spaces n) (.flush 0 o)).map fun s => { p with
      spaces := Function.update p.spaces n s
      streams :=
        match ((p.spaces n).flushers 0).returns (p.spaces n).store (s.flushers 0) o with
        | some ok => Function.update p.streams n (.returned ok)
        | none => p.streams }
  else none

/-- `g.Wait` returns once no stream runs, with the error of one that failed. -/
def Process.wait (p : Process N) : Option (Process N) :=
  match p.run with
  | .wait =>
    if p.started.all fun n => p.streams n ≠ .running then
      some { p with run := .returned (p.started.all fun n => p.streams n = .returned true) }
    else none
  | _ => none

def Process.step (p : Process N) : ProcessAction N → Option (Process N)
  | .other n a =>
    if a.own then none
    else (Sys.step (S n) (p.spaces n) a).map fun s => { p with
      spaces := Function.update p.spaces n s }
  | .cancel => some { p.halt with cancelled := true }
  | .discovered r => p.discovered r
  | .next ok => p.next S ok
  | .stream n o => p.stream S n o
  | .done =>
    match p.run with
    | .poll => if p.cancelled then some { p.halt with run := .wait } else none
    | _ => none
  | .wait => p.wait

def process : Machine (Process N) (ProcessAction N) where
  init := {}
  step := Process.step S

/-- A store call reports a cancellation only once the context is cancelled. -/
def OwnCancel (p : Process N) : ProcessAction N → Prop
  | .stream _ (.failed _ true) => p.halted = true
  | _ => True

end Steps

section Namespace
variable {S : Setup} {s t : Sys} {a : Action} {b : String} {c : ℕ}

lemma Wellformed.lost_before (h : Wellformed S s) (hs : Sys.step S s a = some t)
    (hlost : t.lost b = false) : s.lost b = false := by
  have heff := (Sys.step_change hs h.inflight).effect h.inflight
  by_contra hne
  have := heff.lost_mono (Bool.not_eq_false _ ▸ hne)
  rw [hlost] at this
  cases this

lemma Wellformed.evolves (h : Wellformed S s) (hs : Sys.step S s a = some t) :
    s.store.Evolves t.store :=
  ((Sys.step_change hs h.inflight).inflight h.inflight).1

/-- What the manifest of a branch covers, it covers after every step. -/
lemma Wellformed.covered_step (h : Wellformed S s) (hs : Sys.step S s a = some t) (hb : Valid b)
    (hlost : t.lost b = false) (hc : Covered S s.store b c) : Covered S t.store b c := by
  have heff := (Sys.step_change hs h.inflight).effect h.inflight
  exact hc.later (h.evolves hs) ((h.flushed b hb (h.lost_before hs hlost)).keep h.inflight h.ledger
    (heff.branch h.inflight hb) hlost)

lemma readObject_ne_end (data : Bytes) : readObject (some data) ≠ .error .endOfStream := by
  rw [readObject_some]
  split
  · exact fun h => nomatch h
  · exact fun h => nomatch h

/-- At the end of its log a flusher has covered the whole log. -/
lemma Wellformed.drained (h : Wellformed S s) {i : ℕ} (hd : (s.flushers i).drained s.store = true)
    (hb : Valid b) (hlost : s.lost b = false) : Covered S s.store b s.store.wal.length := by
  obtain ⟨-, hd⟩ := Bool.and_eq_true_iff.mp hd
  split at hd
  · rename_i seq hpc
    split at hd
    · rename_i hread
      have hcov := (h.flushed b hb hlost).covered none (seq - 1)
        (.flusher i none _ (.position _ (by rw [hpc]; rfl)))
      unfold Store.read at hread
      split at hread
      · cases hread
      · rename_i hseq
        have hlen : s.store.wal.length ≤ seq - 1 := by
          cases hget : s.store.wal[seq - 1]? with
          | none => exact List.getElem?_eq_none_iff.mp hget
          | some data =>
            rw [hget] at hread
            exact absurd hread (readObject_ne_end data)
        exact hcov.mono hlen
    · cases hd
  · cases hd

/-- Only its own steps change the flusher of a process. -/
lemma Action.own_flusher (hs : Sys.step S s a = some t) (ha : a.own = false) :
    t.flushers 0 = s.flushers 0 := by
  cases a with
  | append entry =>
    obtain ⟨-, h⟩ := Option.ite_none_right_eq_some.mp hs
    cases h
    rfl
  | start i =>
    obtain ⟨-, h⟩ := Option.ite_none_right_eq_some.mp hs
    cases h
    exact Function.update_of_ne (Ne.symm (beq_eq_false_iff_ne.mp ha)) _ _
  | flush i o =>
    obtain ⟨r, -, rfl⟩ := Option.map_eq_some_iff.mp hs
    exact Function.update_of_ne (Ne.symm (beq_eq_false_iff_ne.mp ha)) _ _
  | crash i =>
    cases hs
    exact Function.update_of_ne (Ne.symm (beq_eq_false_iff_ne.mp ha)) _ _
  | call k source target =>
    obtain ⟨-, h⟩ := Option.ite_none_right_eq_some.mp hs
    cases h
    rfl
  | fork k o =>
    obtain ⟨r, -, rfl⟩ := Option.map_eq_some_iff.mp hs
    simp only [Sys.record]
    split <;> rfl
  | abandon k =>
    obtain ⟨-, h⟩ := Option.ite_none_right_eq_some.mp hs
    cases h
    rfl

lemma Flusher.readEntry_draining (f : Flusher) (seq : ℕ) (read : Except LogErr (List Bytes)) :
    (f.readEntry S seq read).draining = f.draining := by
  unfold Flusher.readEntry
  repeat' split
  all_goals rfl

lemma Flusher.succeed_draining {st : Store} {f : Flusher} {r : Flusher × Store}
    (h : f.succeed S st = some r) : r.1.draining = f.draining := by
  unfold Flusher.succeed at h
  cases hpc : f.pc with
  | read seq =>
    simp only [hpc, Option.some.injEq] at h
    rw [← h]
    exact f.readEntry_draining seq _
  | off => simp only [hpc] at h; cases h
  | initList =>
    simp only [hpc, Option.some.injEq] at h
    rw [← h]
  | initRead todo min =>
    cases todo with
    | nil => simp only [hpc] at h; cases h
    | cons b todo =>
      simp only [hpc] at h
      split at h
      all_goals
        cases h
        rfl
  | upload j =>
    simp only [hpc] at h
    obtain ⟨st', -, rfl⟩ := Option.map_eq_some_iff.mp h
    rfl
  | manifestRead j =>
    simp only [hpc] at h
    split at h
    all_goals
      cases h
      rfl
  | manifestWrite j m gen =>
    simp only [hpc] at h
    split at h
    all_goals
      cases h
      rfl
  | addRead j checkpoint =>
    simp only [hpc] at h
    split at h
    all_goals
      cases h
      rfl
  | addWrite j checkpoint branches gen =>
    simp only [hpc] at h
    split at h
    all_goals
      cases h
      rfl

lemma Flusher.fail_draining {f : Flusher} {cancelled : Bool}
    (hd : (f.fail cancelled).draining = true) : f.draining = true ∨ cancelled = true := by
  unfold Flusher.fail at hd
  split at hd
  · rename_i hc
    exact Or.inr (Bool.and_eq_true_iff.mp hc).1
  · exact Or.inl hd

/-- A flusher begins to drain when a call reports a cancellation. -/
lemma draining_flush {o : Outcome} (hs : Sys.step S s (.flush 0 o) = some t)
    (hd : (t.flushers 0).draining = true) :
    (s.flushers 0).draining = true ∨ ∃ committed, o = .failed committed true := by
  obtain ⟨r, hr, rfl⟩ := Option.map_eq_some_iff.mp hs
  simp only [Function.update_self] at hd
  cases o with
  | ok => exact Or.inl ((Flusher.succeed_draining hr).symm.trans hd)
  | failed committed cancelled =>
    have hfail : r.1 = (s.flushers 0).fail cancelled := by
      simp only [Flusher.step] at hr
      split at hr
      · cases hr
      · split at hr
        · obtain ⟨st', -, rfl⟩ := Option.map_eq_some_iff.mp hr
          rfl
        · cases hr
          rfl
    rw [hfail] at hd
    rcases Flusher.fail_draining hd with hold | rfl
    · exact Or.inl hold
    · exact Or.inr ⟨committed, rfl⟩

end Namespace

lemma Flusher.returns_true {st : Store} {f f' : Flusher} {o : Outcome}
    (h : f.returns st f' o = some true) : f.drained st = true := by
  unfold Flusher.returns at h
  split at h
  · exact (Bool.and_eq_true_iff.mp (Option.some.inj h)).2
  · cases h

section Invariant
variable {N : Type} [DecidableEq N] {S : N → Setup} {p q : Process N}

/-- What is known of the process at any time. -/
structure Process.Ok (S : N → Setup) (p : Process N) : Prop where
  wf : ∀ n, Wellformed (S n) (p.spaces n)
  mark : p.halted = true → ∀ n, p.mark n ≤ (p.spaces n).store.wal.length
  draining : ∀ n, ((p.spaces n).flushers 0).draining = true → p.halted = true
  started : ∀ n, p.streams n ≠ .absent → n ∈ p.started
  fresh : p.run = .discover ∨ p.run = .rediscover → p.started = []
  drained : ∀ n, p.streams n = .returned true → p.halted = true ∧
    ∀ b, Valid b → (p.spaces n).lost b = false → Covered (S n) (p.spaces n).store b (p.mark n)
  ended : p.run = .returned true → ∀ n ∈ p.started, p.streams n = .returned true

lemma process_ok_init : (process S).init.Ok S where
  wf := fun _ => Wellformed.init
  mark := fun h => nomatch h
  draining := fun _ h => nomatch h
  started := fun _ h => absurd rfl h
  fresh := fun _ => rfl
  drained := fun _ h => nomatch h
  ended := fun h => nomatch h

/-- A step inside one namespace. -/
lemma Process.Ok.space (h : p.Ok S) {n : N} {a : Action} {s : Sys}
    (hs : Sys.step (S n) (p.spaces n) a = some s)
    (hd : (s.flushers 0).draining = true → p.halted = true) :
    ({ p with spaces := Function.update p.spaces n s } : Process N).Ok S where
  wf := by
    intro m
    by_cases hm : m = n
    · subst hm
      simp only [Function.update_self]
      exact (h.wf m).step hs
    · simp only [Function.update_of_ne hm]
      exact h.wf m
  mark := by
    intro hh m
    by_cases hm : m = n
    · subst hm
      simp only [Function.update_self]
      exact (h.mark hh m).trans ((h.wf m).evolves hs).wal.length_le
    · simp only [Function.update_of_ne hm]
      exact h.mark hh m
  draining := by
    intro m
    by_cases hm : m = n
    · subst hm
      simp only [Function.update_self]
      exact hd
    · simp only [Function.update_of_ne hm]
      exact h.draining m
  started := h.started
  fresh := h.fresh
  drained := by
    intro m hm'
    obtain ⟨hh, hcov⟩ := h.drained m hm'
    refine ⟨hh, fun b hb => ?_⟩
    by_cases hm : m = n
    · subst hm
      simp only [Function.update_self]
      intro hlost
      exact (h.wf m).covered_step hs hb hlost (hcov b hb ((h.wf m).lost_before hs hlost))
    · simp only [Function.update_of_ne hm]
      exact hcov b hb
  ended := h.ended

omit [DecidableEq N] in
/-- The step of `Run` to another place, with nothing else changed. -/
lemma Process.Ok.goto (h : p.Ok S) {run : RunPc N}
    (hfresh : run = .discover ∨ run = .rediscover → p.started = [])
    (hended : run = .returned true → ∀ n ∈ p.started, p.streams n = .returned true) :
    ({ p with run := run } : Process N).Ok S :=
  ⟨h.wf, h.mark, h.draining, h.started, hfresh, h.drained, hended⟩

omit [DecidableEq N] in
lemma Process.Ok.halt (h : p.Ok S) : p.halt.Ok S := by
  unfold Process.halt
  split
  · exact h
  · rename_i hh
    refine ⟨h.wf, fun _ n => le_rfl, fun _ _ => rfl, h.started, h.fresh, ?_, h.ended⟩
    exact fun n hn => absurd (h.drained n hn).1 hh

/-- `Run` is past its first discovery and has not returned nil. -/
def RunPc.later : RunPc N → Prop
  | .discover | .rediscover | .returned true => False
  | _ => True

omit [DecidableEq N] in
lemma Process.Ok.goto_later (h : p.Ok S) {run : RunPc N} (hrun : run.later) :
    ({ p with run := run } : Process N).Ok S := by
  refine h.goto ?_ ?_
  · rintro (rfl | rfl) <;> exact hrun.elim
  · rintro rfl
    exact hrun.elim

lemma Process.Ok.startStream (h : p.Ok S) {n : N} (hs : p.startStream S n = some q)
    (hrun : p.run.later) {run : RunPc N} (hrun' : run.later) :
    ({ q with run := run } : Process N).Ok S := by
  refine Process.Ok.goto_later ?_ hrun'
  unfold Process.startStream at hs
  split at hs
  · obtain ⟨s, hstep, rfl⟩ := Option.map_eq_some_iff.mp hs
    have hd : (s.flushers 0).draining = false := by
      obtain ⟨-, hstep⟩ := Option.ite_none_right_eq_some.mp hstep
      cases hstep
      simp only [Function.update_self]
    have hspace := h.space hstep fun hd' => by
      rw [hd] at hd'
      cases hd'
    refine ⟨hspace.wf, hspace.mark, hspace.draining, fun m hm => ?_, ?_, fun m hm => ?_, ?_⟩
    · by_cases hmn : m = n
      · exact List.mem_append_right _ (by rw [hmn]; exact List.mem_singleton_self n)
      · simp only [Function.update_of_ne hmn] at hm
        exact List.mem_append_left _ (h.started m hm)
    · rintro (hr | hr)
      all_goals
        change p.run = _ at hr
        rw [hr] at hrun
        exact hrun.elim
    · by_cases hmn : m = n
      · simp only [hmn, Function.update_self] at hm
        cases hm
      · simp only [Function.update_of_ne hmn] at hm
        exact hspace.drained m hm
    · intro hr
      change p.run = _ at hr
      rw [hr] at hrun
      exact hrun.elim
  · cases hs
    exact h

lemma Process.Ok.next (h : p.Ok S) {ok : Bool} (hs : p.next S ok = some q) : q.Ok S := by
  unfold Process.next at hs
  split at hs
  · cases hs
    exact h.goto_later trivial
  · rename_i n todo hrun
    split at hs
    · cases hs
      exact h.goto_later trivial
    · obtain ⟨q', hq, rfl⟩ := Option.map_eq_some_iff.mp hs
      exact h.startStream hq (by rw [hrun]; trivial) trivial
  · cases hs
    exact h.halt.goto_later trivial
  · rename_i n todo hrun
    split at hs
    · cases hs
      exact h.goto_later trivial
    · obtain ⟨q', hq, rfl⟩ := Option.map_eq_some_iff.mp hs
      exact h.startStream hq (by rw [hrun]; trivial) trivial
  · cases hs
    exact h.goto_later trivial
  · rename_i n todo hrun
    split at hs
    · cases hs
      exact h.halt.goto_later trivial
    · obtain ⟨q', hq, rfl⟩ := Option.map_eq_some_iff.mp hs
      exact h.startStream hq (by rw [hrun]; trivial) trivial
  · cases hs

omit [DecidableEq N] in
lemma Process.Ok.discovered (h : p.Ok S) {r : Discovery N} (hs : p.discovered r = some q) :
    q.Ok S := by
  unfold Process.discovered at hs
  split at hs
  · cases hs
    exact h.goto_later trivial
  · rename_i hrun
    cases hs
    exact h.goto (fun _ => h.fresh (Or.inl hrun)) fun hr => nomatch hr
  · cases hs
    exact h.goto_later trivial
  · cases hs
    exact h.goto_later trivial
  · rename_i hrun _
    cases hs
    refine h.goto (fun _ => h.fresh (Or.inr hrun)) fun _ n hn => ?_
    rw [h.fresh (Or.inr hrun)] at hn
    cases hn
  · cases hs
    exact h.goto_later trivial
  · cases hs
    exact h.halt.goto_later trivial
  · cases hs
    exact h
  · cases hs

/-- A store call of a stream. If the stream returns nil, its log is covered to the end. -/
lemma Process.Ok.stream (h : p.Ok S) {n : N} {o : Outcome} (hok : OwnCancel p (.stream n o))
    (hs : p.stream S n o = some q) : q.Ok S := by
  unfold Process.stream at hs
  split at hs
  · rename_i hrunning
    obtain ⟨s, hstep, rfl⟩ := Option.map_eq_some_iff.mp hs
    have hspace := h.space hstep fun hd => by
      rcases draining_flush hstep hd with hd | ⟨committed, rfl⟩
      · exact h.draining n hd
      · exact hok
    have hended : p.run = .returned true → False := fun hr => by
      have hn := h.ended hr n (h.started n (by rw [hrunning]; exact fun h => nomatch h))
      rw [hrunning] at hn
      cases hn
    cases hret : ((p.spaces n).flushers 0).returns (p.spaces n).store (s.flushers 0) o with
    | none => exact hspace
    | some ok =>
      refine ⟨hspace.wf, hspace.mark, hspace.draining, fun m hm => ?_, h.fresh, fun m hm => ?_,
        fun hr => (hended hr).elim⟩
      · by_cases hmn : m = n
        · exact hmn ▸ h.started n (by rw [hrunning]; exact fun h => nomatch h)
        · simp only [Function.update_of_ne hmn] at hm
          exact h.started m hm
      · by_cases hmn : m = n
        · subst hmn
          simp only [Function.update_self, StreamStatus.returned.injEq] at hm ⊢
          subst hm
          have hd := Flusher.returns_true hret
          have hh := h.draining m (Bool.and_eq_true_iff.mp hd).1
          refine ⟨hh, fun b hb hlost => ?_⟩
          have hcov := (h.wf m).drained hd hb ((h.wf m).lost_before hstep hlost)
          exact (h.wf m).covered_step hstep hb hlost (hcov.mono (h.mark hh m))
        · simp only [Function.update_of_ne hmn] at hm
          exact hspace.drained m hm
  · cases hs

omit [DecidableEq N] in
lemma Process.Ok.wait (h : p.Ok S) (hs : p.wait = some q) : q.Ok S := by
  unfold Process.wait at hs
  split at hs
  · split at hs
    · cases hs
      refine h.goto (fun hr => by rcases hr with hr | hr <;> cases hr) fun hr n hn => ?_
      have hall := RunPc.returned.inj hr
      exact of_decide_eq_true (List.all_eq_true.mp hall n hn)
    · cases hs
  · cases hs

theorem Process.Ok.step (h : p.Ok S) {a : ProcessAction N} (hok : OwnCancel p a)
    (hs : p.step S a = some q) : q.Ok S := by
  cases a with
  | other n a =>
    obtain ⟨ha, hs⟩ := Option.ite_none_left_eq_some.mp hs
    obtain ⟨s, hstep, rfl⟩ := Option.map_eq_some_iff.mp hs
    refine h.space hstep fun hd => h.draining n ?_
    rwa [← Action.own_flusher hstep (Bool.eq_false_of_not_eq_true ha)]
  | cancel =>
    cases hs
    have hh := h.halt
    exact ⟨hh.wf, hh.mark, hh.draining, hh.started, hh.fresh, hh.drained, hh.ended⟩
  | discovered r => exact h.discovered hs
  | next ok => exact h.next hs
  | stream n o => exact h.stream hok hs
  | done =>
    simp only [Process.step] at hs
    split at hs
    · obtain ⟨-, hs⟩ := Option.ite_none_right_eq_some.mp hs
      cases hs
      exact h.halt.goto_later trivial
    · cases hs
  | wait => exact h.wait hs

theorem process_ok (h : (process S).Run OwnCancel (process S).init p) : p.Ok S :=
  Machine.Run.preserves (fun _ _ _ hp hok hs => hp.step hok hs) h process_ok_init

/-- **A clean shutdown leaves nothing unflushed.** If store calls report a cancellation
only once the context is cancelled and `Run` returns nil, then no stream runs any more, and
for every stream that was started, each log entry from before the shutdown is a segment in
the manifest of its branch, unless a rolled back `Fork` deleted that manifest. -/
theorem shutdown_drains (h : (process S).Run OwnCancel (process S).init p)
    (hrun : p.run = .returned true) (n : N) (hn : p.streams n ≠ .absent) :
    p.streams n = .returned true ∧
      ∀ b, Valid b → (p.spaces n).lost b = false →
        ∀ seq ≤ p.mark n, ∀ ms, mutationsAt (S n) (p.spaces n).store.wal b seq = some ms →
          refOf (S n) ms ∈ ((p.spaces n).store.current ((S n).scope.ManifestKey b)).segments ∧
          ∃ data, (p.spaces n).store.segments (refOf (S n) ms).segmentId = some data ∧
            readSegment (S n).mutation.unmarshal data = some ms := by
  have hp := process_ok h
  have hret := hp.ended hrun n (hp.started n hn)
  refine ⟨hret, fun b hb hlost seq hseq ms hms => ?_⟩
  have hreach := ((hp.drained n hret).2 b hb hlost).reached seq hseq (by rw [hms]; exact Option.some_ne_none ms)
  have hmat := ((hp.wf n).flushed b hb hlost).manifest
  have hmem : (seq, ms) ∈ entriesOf (S n) (p.spaces n).store.wal b
      ((p.spaces n).store.current ((S n).scope.ManifestKey b)).checkpointSeq :=
    mem_entriesOf.mpr ⟨hreach, hms⟩
  refine ⟨?_, hmat.readable _ hmem⟩
  rw [hmat.segments]
  exact List.mem_append_right _ (List.mem_map.mpr ⟨(seq, ms), hmem, rfl⟩)

end Invariant

section Demo

abbrev demoProcess : Machine (Process Unit) (ProcessAction Unit) := process fun _ => demoSetup

instance : ∀ (p : Process Unit) (a : ProcessAction Unit), Decidable (OwnCancel p a)
  | p, .stream _ (.failed _ true) => inferInstanceAs (Decidable (p.halted = true))
  | _, .stream _ (.failed _ false) => isTrue trivial
  | _, .stream _ .ok => isTrue trivial
  | _, .other _ _ => isTrue trivial
  | _, .cancel => isTrue trivial
  | _, .discovered _ => isTrue trivial
  | _, .next _ => isTrue trivial
  | _, .done => isTrue trivial
  | _, .wait => isTrue trivial

/-- Two entries, one of them unread when the context is cancelled. -/
def shutdownScript : List (ProcessAction Unit) :=
  [.discovered (.ok [()]), .next true, .next true, .other () demoMainEntry] ++
    List.replicate 4 (.stream () .ok) ++
    [.other () demoDevEntry, .cancel, .stream () (.failed false true)] ++
    List.replicate 13 (.stream () .ok) ++ [.done, .wait]

set_option maxRecDepth 8000 in
theorem shutdown_drains_unread :
    ∃ p, demoProcess.Run OwnCancel demoProcess.init p ∧ p.run = .returned true ∧
      ∃ data, (p.spaces ()).store.segments (refOf demoSetup [demoDev]).segmentId = some data ∧
        readSegment demoSetup.mutation.unmarshal data = some [demoDev] := by
  obtain ⟨p, hrun, hret, hstream, hmark, hlost, hms⟩ := demoProcess.exec_exists OwnCancel
    demoProcess.init shutdownScript
    (fun p => p.run = .returned true ∧ p.streams () ≠ .absent ∧ p.mark () = 2 ∧
      (p.spaces ()).lost "dev" = false ∧
      mutationsAt demoSetup (p.spaces ()).store.wal "dev" 2 = some [demoDev]) (by decide +kernel)
  have hall := (shutdown_drains hrun hret () hstream).2 "dev" (by decide +kernel) hlost 2 hmark.ge
    [demoDev] hms
  exact ⟨p, hrun, hret, hall.2⟩

/-- `Run` also returns nil, with the context alive, if its first discovery takes longer
than its deadline and the second one fails. -/
theorem run_ends_early : ∃ p, demoProcess.Run OwnCancel demoProcess.init p ∧
    p.run = .returned true ∧ p.cancelled = false ∧ p.started = [] :=
  demoProcess.exec_exists OwnCancel demoProcess.init [.discovered .cancelled, .discovered .failed]
    (fun p => p.run = .returned true ∧ p.cancelled = false ∧ p.started = []) (by decide +kernel)

end Demo

end CloudyNeigh.Ingest
