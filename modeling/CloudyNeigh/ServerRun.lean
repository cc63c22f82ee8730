import CloudyNeigh.Transition
import Mathlib

/-!
# How a server ends

`Serve` of the ingest and of the query server: `serveGRPC` beside one worker for each
tenant (the `Run` of its flusher or of its engine), and the registry that is closed at the
end. Handlers of requests run in goroutines of the gRPC library; `Stop` does not wait for
them, and a server whose listener fails goes on with the connections that it has.
-/
namespace CloudyNeigh.Server
open Transition

/-- What `srv.Serve` returns. -/
inductive ServeResult
  | nil
  | errServerStopped
  | failed
  deriving DecidableEq, Repr

/-- The errors that `serveGRPC` does not pass on. -/
def ServeResult.clean (r : ServeResult) : Bool := r != .failed

/-- Where `serveGRPC` is, and the goroutine around it that cancels the workers. -/
inductive GrpcPc
  | select
  | graceful
  | forced
  | collect
  | cancelling (ok : Bool)
  | returned (ok : Bool)
  deriving DecidableEq, Repr

/-- The goroutine of `GracefulStop`. -/
inductive StopPc
  | absent
  | waiting
  | stopped
  deriving DecidableEq, Repr

/-- A worker that has failed is about to call `Stop`. -/
inductive WorkerPc
  | running
  | failing
  | returned (ok : Bool)
  deriving DecidableEq, Repr

def WorkerPc.done : WorkerPc → Bool
  | .returned _ => true
  | _ => false

/-- `Serve` waits for its goroutines and closes the stores one after another. -/
inductive MainPc
  | wait
  | closing (ok : Bool) (left : List String)
  | returned (ok : Bool)
  deriving DecidableEq, Repr

/-- `quit` says that `Stop` or `GracefulStop` was called, and `killed` that `Stop` was. -/
structure Serving where
  ctxDone : Bool := false
  accept : Option ServeResult := none
  quit : Bool := false
  killed : Bool := false
  stop : StopPc := .absent
  handlers : ℕ := 0
  grpc : GrpcPc := .select
  cancelled : Bool := false
  workers : String → WorkerPc := fun _ => .running
  main : MainPc := .wait
  closed : List String := []

inductive Action
  | cancel
  | request
  | reply
  | accept (r : ServeResult)
  | ctxCase
  | errCase
  | gracefulStop
  | stoppedCase
  | timeout
  | collect
  | cancelWorkers
  | worker (tenant : String) (ok : Bool)
  | stop (tenant : String)
  | wait
  | close (ok : Bool)
  deriving DecidableEq, Repr

section Steps
variable (tenants : List String)

/-- `grpcServer.Stop()`. -/
def Serving.kill (s : Serving) : Serving := { s with quit := true, killed := true }

/-- The library hands no request to a handler once the server stops. -/
abbrev Serving.Refuses (s : Serving) : Prop := s.quit = true

/-- `srv.Serve` returns an error of the listener at any time, and otherwise only if the server
stops. -/
abbrev Serving.ServeReturns (s : Serving) (r : ServeResult) : Prop := r = .failed ∨ s.quit = true

/-- `GracefulStop` returns when no request is being handled, also after `Stop`. -/
abbrev Serving.Drained (s : Serving) : Prop := s.handlers = 0

def Serving.step (s : Serving) : Action → Option Serving
  | .cancel => if s.ctxDone then none else some { s with ctxDone := true }
  | .request => if s.Refuses then none else some { s with handlers := s.handlers + 1 }
  | .reply => if s.handlers = 0 then none else some { s with handlers := s.handlers - 1 }
  | .accept r =>
    if s.accept = none ∧ s.ServeReturns r then some { s with accept := some r }
    else none
  | .ctxCase =>
    if s.grpc = .select ∧ s.ctxDone = true then
      some { s with grpc := .graceful, quit := true, stop := .waiting }
    else none
  | .errCase =>
    match s.grpc, s.accept with
    | .select, some r => some { s with grpc := .cancelling r.clean }
    | _, _ => none
  | .gracefulStop =>
    if s.stop = .waiting ∧ s.Drained then some { s with stop := .stopped } else none
  | .stoppedCase =>
    if (s.grpc = .graceful ∨ s.grpc = .forced) ∧ s.stop = .stopped then
      some { s with grpc := .collect }
    else none
  | .timeout => if s.grpc = .graceful then some { s.kill with grpc := .forced } else none
  | .collect =>
    match s.grpc, s.accept with
    | .collect, some r => some { s with grpc := .cancelling r.clean }
    | _, _ => none
  | .cancelWorkers =>
    match s.grpc with
    | .cancelling ok => some { s with grpc := .returned ok, cancelled := true }
    | _ => none
  | .worker tenant ok =>
    if tenant ∈ tenants ∧ s.workers tenant = .running then
      some { s with
        workers := Function.update s.workers tenant (if ok then .returned true else .failing) }
    else none
  | .stop tenant =>
    if tenant ∈ tenants ∧ s.workers tenant = .failing then
      some { s.kill with workers := Function.update s.workers tenant (.returned false) }
    else none
  | .wait =>
    match s.main, s.grpc with
    | .wait, .returned ok =>
      if ∀ tenant ∈ tenants, (s.workers tenant).done = true then
        let ok := ok && tenants.all fun tenant => s.workers tenant == .returned true
        some { s with main := .closing ok tenants }
      else none
    | _, _ => none
  | .close ok =>
    match s.main with
    | .closing r (tenant :: left) =>
      some { s with main := .closing (r && ok) left, closed := s.closed ++ [tenant] }
    | .closing r [] => some { s with main := .returned r }
    | _ => none

/-- The tenants are given in the order in which `Close` ranges over the registry. -/
def serve : Machine Serving Action where
  init := {}
  step := Serving.step tenants

end Steps

section Order
variable {tenants : List String} {s t : Serving} {a : Action}

/-- What `serveGRPC` knows of the server at each of its places. -/
structure GrpcOk (s : Serving) : Prop where
  killed : s.killed = true → s.quit = true
  clean : ∀ r, s.accept = some r → r ≠ .failed → s.quit = true
  select : s.grpc = .select → s.stop = .absent ∧ (s.quit = true → s.killed = true)
  inside : s.grpc = .graceful ∨ s.grpc = .forced ∨ s.grpc = .collect → s.stop ≠ .absent
  forced : s.grpc = .forced → s.killed = true
  stopping : s.stop ≠ .absent → s.quit = true
  stopped : s.stop = .stopped → s.handlers = 0
  collect : s.grpc = .collect → s.stop = .stopped
  ended : ∀ ok, s.grpc = .cancelling ok ∨ s.grpc = .returned ok →
    ∃ r, s.accept = some r ∧ ok = r.clean ∧
      (r = .failed ∨ s.quit = true ∧ (s.killed = true ∨ s.handlers = 0))
  cancelled : s.cancelled = true ↔ ∃ ok, s.grpc = .returned ok

lemma grpcOk_init : GrpcOk {} where
  killed h := nomatch h
  clean _ h := nomatch h
  select _ := ⟨rfl, fun h => nomatch h⟩
  inside h := by simp at h
  forced h := nomatch h
  stopping h := absurd rfl h
  stopped h := nomatch h
  collect h := nomatch h
  ended _ h := by simp at h
  cancelled := by simp

lemma GrpcOk.not_cancelled (h : GrpcOk s) (hat : ∀ ok, s.grpc ≠ .returned ok) :
    s.cancelled ≠ true := by
  rw [ne_eq, h.cancelled]
  rintro ⟨ok, hok⟩
  exact hat ok hok

/-- The end of `serveGRPC`, by its first `select` or after the server has stopped. -/
lemma GrpcOk.end (h : GrpcOk s) {r : ServeResult} (hr : s.accept = some r)
    (hat : s.grpc = .select ∨ s.grpc = .collect) : GrpcOk { s with grpc := .cancelling r.clean } where
  killed := h.killed
  clean := h.clean
  select h' := nomatch h'
  inside h' := by simp at h'
  forced h' := nomatch h'
  stopping := h.stopping
  stopped := h.stopped
  collect h' := nomatch h'
  ended ok hok := by
    have hok : ok = r.clean := by simpa [eq_comm] using hok
    refine ⟨r, hr, hok, or_iff_not_imp_left.mpr fun hne => ?_⟩
    rcases hat with hat | hat
    · have hquit := h.clean r hr hne
      exact ⟨hquit, .inl ((h.select hat).2 hquit)⟩
    · exact ⟨h.stopping (h.inside (.inr (.inr hat))), .inr (h.stopped (h.collect hat))⟩
  cancelled := by simpa using h.not_cancelled (by rcases hat with hat | hat <;> simp [hat])

/-- A call of `Stop`. -/
lemma GrpcOk.kill (h : GrpcOk s) : GrpcOk s.kill where
  killed _ := rfl
  clean _ _ _ := rfl
  select h' := ⟨(h.select h').1, fun _ => rfl⟩
  inside := h.inside
  forced _ := rfl
  stopping _ := rfl
  stopped := h.stopped
  collect := h.collect
  ended ok hok := by
    obtain ⟨r, hr, hok, -⟩ := h.ended ok hok
    exact ⟨r, hr, hok, .inr ⟨rfl, .inl rfl⟩⟩
  cancelled := h.cancelled

lemma GrpcOk.step (h : GrpcOk s) (hs : Serving.step tenants s a = some t) : GrpcOk t := by
  cases a with
  | cancel =>
    obtain ⟨-, hs⟩ := Option.ite_none_left_eq_some.mp hs
    cases hs
    exact { h with }
  | request =>
    obtain ⟨hquit, hs⟩ := Option.ite_none_left_eq_some.mp hs
    cases hs
    refine { h with stopped := ?_, ended := ?_ }
    · intro hstop
      exact absurd (h.stopping (hstop ▸ StopPc.noConfusion)) hquit
    intro ok hok
    obtain ⟨r, hr, hok, hend⟩ := h.ended ok hok
    exact ⟨r, hr, hok, hend.imp_right fun hq => absurd hq.1 hquit⟩
  | reply =>
    obtain ⟨hpos, hs⟩ := Option.ite_none_left_eq_some.mp hs
    cases hs
    have hkilled : s.killed = true ∨ s.handlers = 0 → s.killed = true ∨ s.handlers - 1 = 0 :=
      fun hk => .inl (hk.resolve_right hpos)
    refine { h with stopped := fun hstop => absurd (h.stopped hstop) hpos, ended := ?_ }
    intro ok hok
    obtain ⟨r, hr, hok, hend⟩ := h.ended ok hok
    exact ⟨r, hr, hok, hend.imp_right fun hq => ⟨hq.1, hkilled hq.2⟩⟩
  | accept r =>
    obtain ⟨⟨hnone, hr⟩, hs⟩ := Option.ite_none_right_eq_some.mp hs
    cases hs
    refine { h with clean := ?_, ended := ?_ }
    · intro r' hr' hne
      cases hr'
      exact hr.resolve_left hne
    · intro ok hok
      obtain ⟨r', hr', -⟩ := h.ended ok hok
      rw [hnone] at hr'
      cases hr'
  | ctxCase =>
    obtain ⟨⟨hat, -⟩, hs⟩ := Option.ite_none_right_eq_some.mp hs
    cases hs
    exact {
      killed := fun _ => rfl
      clean := fun _ _ _ => rfl
      select := fun h' => nomatch h'
      inside := fun _ => by simp
      forced := fun h' => nomatch h'
      stopping := fun _ => rfl
      stopped := fun h' => nomatch h'
      collect := fun h' => nomatch h'
      ended := fun ok hok => by simp at hok
      cancelled := by simpa using h.not_cancelled (by simp [hat]) }
  | errCase =>
    simp only [Serving.step] at hs
    split at hs
    · rename_i r hat hr
      cases hs
      exact h.end hr (.inl hat)
    · cases hs
  | gracefulStop =>
    obtain ⟨⟨hwait, hdone⟩, hs⟩ := Option.ite_none_right_eq_some.mp hs
    cases hs
    have hne : s.stop ≠ .absent := by simp [hwait]
    have hat : s.grpc ≠ .select := fun hat => hne (h.select hat).1
    exact { h with
      select := fun hselect => absurd hselect hat
      inside := fun _ => by simp
      stopping := fun _ => h.stopping hne
      stopped := fun _ => hdone
      collect := fun _ => rfl }
  | stoppedCase =>
    obtain ⟨⟨hat, hstop⟩, hs⟩ := Option.ite_none_right_eq_some.mp hs
    cases hs
    exact { h with
      select := fun h' => nomatch h'
      inside := fun _ => by simp [hstop]
      forced := fun h' => nomatch h'
      collect := fun _ => hstop
      ended := fun ok hok => by simp at hok
      cancelled := by simpa using h.not_cancelled (by rcases hat with hat | hat <;> simp [hat]) }
  | timeout =>
    obtain ⟨hat, hs⟩ := Option.ite_none_right_eq_some.mp hs
    cases hs
    exact { h.kill with
      select := fun h' => nomatch h'
      inside := fun _ => h.inside (.inl hat)
      forced := fun _ => rfl
      collect := fun h' => nomatch h'
      ended := fun ok hok => by simp at hok
      cancelled := by simpa [Serving.kill] using h.not_cancelled (by simp [hat]) }
  | collect =>
    simp only [Serving.step] at hs
    split at hs
    · rename_i r hat hr
      cases hs
      exact h.end hr (.inr hat)
    · cases hs
  | cancelWorkers =>
    simp only [Serving.step] at hs
    split at hs
    · rename_i ok hat
      cases hs
      exact { h with
        select := fun h' => nomatch h'
        inside := fun h' => by simp at h'
        forced := fun h' => nomatch h'
        collect := fun h' => nomatch h'
        ended := fun ok' hok => by
          obtain rfl : ok = ok' := by simpa using hok
          exact h.ended ok (.inl hat)
        cancelled := by simp }
    · cases hs
  | worker tenant ok =>
    obtain ⟨-, hs⟩ := Option.ite_none_right_eq_some.mp hs
    cases hs
    exact { h with }
  | stop tenant =>
    obtain ⟨-, hs⟩ := Option.ite_none_right_eq_some.mp hs
    cases hs
    exact { h.kill with }
  | wait =>
    simp only [Serving.step] at hs
    split at hs
    · obtain ⟨-, hs⟩ := Option.ite_none_right_eq_some.mp hs
      cases hs
      exact { h with }
    · cases hs
  | close ok =>
    simp only [Serving.step] at hs
    split at hs
    · cases hs
      exact { h with }
    · cases hs
      exact { h with }
    · cases hs

/-- The places of the workers and of `serveGRPC` once they have returned. -/
lemma grpc_stays (hs : Serving.step tenants s a = some t) {ok : Bool}
    (h : s.grpc = .returned ok) : t.grpc = .returned ok := by
  cases a <;> grind [Serving.step, Serving.kill]

lemma worker_stays (hs : Serving.step tenants s a = some t) {tenant : String}
    (h : (s.workers tenant).done = true) : t.workers tenant = s.workers tenant := by
  cases a
  case worker tenant' ok =>
    obtain ⟨⟨-, hrunning⟩, hs⟩ := Option.ite_none_right_eq_some.mp hs
    cases hs
    refine Function.update_of_ne ?_ _ _
    rintro rfl
    simp [hrunning, WorkerPc.done] at h
  case stop tenant' =>
    obtain ⟨⟨-, hfailing⟩, hs⟩ := Option.ite_none_right_eq_some.mp hs
    cases hs
    refine Function.update_of_ne ?_ _ _
    rintro rfl
    simp [hfailing, WorkerPc.done] at h
  all_goals grind [Serving.step, Serving.kill]

/-- Only `Serve` itself closes stores. -/
lemma main_stays (hs : Serving.step tenants s a = some t) (hwait : a ≠ .wait)
    (hclose : ∀ ok, a ≠ .close ok) : t.main = s.main ∧ t.closed = s.closed := by
  cases a <;> grind [Serving.step, Serving.kill]

/-- Stores are closed after everything that works on them has returned, and each of them
once. -/
structure MainOk (tenants : List String) (s : Serving) : Prop where
  ended : s.main ≠ .wait →
    (∃ ok, s.grpc = .returned ok) ∧ ∀ tenant ∈ tenants, (s.workers tenant).done = true
  waiting : s.main = .wait → s.closed = []
  closing : ∀ ok left, s.main = .closing ok left → s.closed ++ left = tenants
  returned : ∀ ok, s.main = .returned ok → s.closed = tenants
  clean : (∃ left, s.main = .closing true left) ∨ s.main = .returned true →
    s.grpc = .returned true ∧ ∀ tenant ∈ tenants, s.workers tenant = .returned true

lemma mainOk_init : MainOk tenants {} where
  ended h := absurd rfl h
  waiting _ := rfl
  closing _ _ h := nomatch h
  returned _ h := nomatch h
  clean h := by simp at h

lemma MainOk.other (h : MainOk tenants s) (hs : Serving.step tenants s a = some t)
    (hmain : t.main = s.main) (hclosed : t.closed = s.closed) : MainOk tenants t where
  ended hne := by
    rw [hmain] at hne
    obtain ⟨⟨ok, hok⟩, hdone⟩ := h.ended hne
    refine ⟨⟨ok, grpc_stays hs hok⟩, fun tenant ht => ?_⟩
    rw [worker_stays hs (hdone tenant ht)]
    exact hdone tenant ht
  waiting := by
    rw [hmain, hclosed]
    exact h.waiting
  closing := by
    rw [hmain, hclosed]
    exact h.closing
  returned := by
    rw [hmain, hclosed]
    exact h.returned
  clean hclean := by
    rw [hmain] at hclean
    obtain ⟨hgrpc, hworkers⟩ := h.clean hclean
    refine ⟨grpc_stays hs hgrpc, fun tenant ht => ?_⟩
    rw [worker_stays hs (by rw [hworkers tenant ht]; rfl)]
    exact hworkers tenant ht

lemma MainOk.step (h : MainOk tenants s) (hs : Serving.step tenants s a = some t) :
    MainOk tenants t := by
  cases a
  case wait =>
    simp only [Serving.step] at hs
    split at hs
    · rename_i ok hmain hgrpc
      obtain ⟨hdone, hs⟩ := Option.ite_none_right_eq_some.mp hs
      cases hs
      refine ⟨fun _ => ⟨⟨ok, hgrpc⟩, hdone⟩, (fun h' => nomatch h'), ?_, (fun _ h' => nomatch h'), ?_⟩
      · intro ok' left hleft
        cases hleft
        rw [h.waiting hmain, List.nil_append]
      · intro hclean
        simpa [hgrpc] using hclean
    · cases hs
  case close ok =>
    simp only [Serving.step] at hs
    split at hs
    · rename_i r tenant left hmain
      cases hs
      refine ⟨fun _ => h.ended (by simp [hmain]), (fun h' => nomatch h'), ?_,
        (fun _ h' => nomatch h'), ?_⟩
      · intro ok' left' hleft
        cases hleft
        rw [List.append_assoc]
        exact h.closing _ _ hmain
      · intro hclean
        have hr : r = true ∧ ok = true := by simpa using hclean
        exact h.clean (.inl ⟨_, hr.1 ▸ hmain⟩)
    · rename_i r hmain
      cases hs
      refine ⟨fun _ => h.ended (by simp [hmain]), (fun h' => nomatch h'), (fun _ _ h' => nomatch h'),
        ?_, ?_⟩
      · intro ok' _
        have hclosed := h.closing _ _ hmain
        rwa [List.append_nil] at hclosed
      · intro hclean
        have hr : r = true := by simpa using hclean
        exact h.clean (.inl ⟨_, hr ▸ hmain⟩)
    · cases hs
  all_goals
    obtain ⟨hmain, hclosed⟩ := main_stays hs (by simp) (by simp)
    exact h.other hs hmain hclosed

lemma MainOk.closed_isPrefix (h : MainOk tenants s) : s.closed <+: tenants := by
  cases hmain : s.main with
  | wait =>
    rw [h.waiting hmain]
    exact List.nil_prefix
  | closing ok left => exact ⟨left, h.closing ok left hmain⟩
  | returned ok => exact ⟨[], by rw [List.append_nil, h.returned ok hmain]⟩

theorem grpcOk_reachable (h : (serve tenants).Reachable s) : GrpcOk s :=
  Machine.Reachable.invariant (P := GrpcOk) grpcOk_init (fun _ _ _ hs hst => hs.step hst) h

theorem mainOk_reachable (h : (serve tenants).Reachable s) : MainOk tenants s :=
  Machine.Reachable.invariant (P := MainOk tenants) mainOk_init (fun _ _ _ hs hst => hs.step hst) h

/-- **The order of a shutdown**, in every interleaving: the workers are told to stop after
`serveGRPC` has returned; then no request is handled any more, unless the listener failed or
the server was stopped by force; no store is closed before all workers have returned, and at
the end each was closed once. -/
theorem serve_order (h : (serve tenants).Reachable s) :
    (s.cancelled = true → ∃ r, s.accept = some r ∧ s.grpc = .returned r.clean ∧
      (r ≠ .failed → s.killed = false → s.quit = true ∧ s.handlers = 0)) ∧
    (s.closed ≠ [] ∨ s.main ≠ .wait →
      s.cancelled = true ∧ ∀ tenant ∈ tenants, ∃ ok, s.workers tenant = .returned ok) ∧
    s.closed <+: tenants ∧
    (∀ ok, s.main = .returned ok → s.closed = tenants ∧
      (ok = true → s.grpc = .returned true ∧ ∀ tenant ∈ tenants, s.workers tenant = .returned true)) := by
  have hg := grpcOk_reachable h
  have hm := mainOk_reachable h
  refine ⟨fun hcancelled => ?_, fun hclosed => ?_, ?_, fun ok hok => ⟨hm.returned ok hok, ?_⟩⟩
  · obtain ⟨ok, hok⟩ := hg.cancelled.mp hcancelled
    obtain ⟨r, hr, rfl, hend⟩ := hg.ended ok (.inr hok)
    refine ⟨r, hr, hok, fun hne hkilled => ?_⟩
    obtain ⟨hquit, hidle⟩ := hend.resolve_left hne
    exact ⟨hquit, hidle.resolve_left (by simp [hkilled])⟩
  · have hne : s.main ≠ .wait := hclosed.elim (fun hc hw => hc (hm.waiting hw)) id
    obtain ⟨hgrpc, hdone⟩ := hm.ended hne
    refine ⟨hg.cancelled.mpr hgrpc, fun tenant ht => ?_⟩
    have hd := hdone tenant ht
    cases hw : s.workers tenant with
    | returned ok => exact ⟨ok, rfl⟩
    | running => simp [hw, WorkerPc.done] at hd
    | failing => simp [hw, WorkerPc.done] at hd
  · exact hm.closed_isPrefix
  · rintro rfl
    exact hm.clean (.inr hok)

end Order

section Progress
variable {tenants : List String} {s t : Serving} {a : Action}

/-- A step of `Serve`, of its goroutines or of the library, and not of a client. -/
def Action.supervising : Action → Bool
  | .request | .reply => false
  | _ => true

def GrpcPc.rank : GrpcPc → ℕ
  | .select => 5
  | .graceful => 4
  | .forced => 3
  | .collect => 2
  | .cancelling _ => 1
  | .returned _ => 0

def StopPc.rank : StopPc → ℕ
  | .absent => 2
  | .waiting => 1
  | .stopped => 0

def WorkerPc.rank : WorkerPc → ℕ
  | .running => 2
  | .failing => 1
  | .returned _ => 0

def MainPc.rank (stores : ℕ) : MainPc → ℕ
  | .wait => stores + 2
  | .closing _ left => left.length + 1
  | .returned _ => 0

/-- A bound on the steps that are left. -/
def Serving.rank (tenants : List String) (s : Serving) : ℕ :=
  (!s.ctxDone).toNat + s.accept.isNone.toNat + s.grpc.rank + s.stop.rank +
    (tenants.map fun tenant => (s.workers tenant).rank).sum + s.main.rank tenants.length

lemma sum_rank_update {tenant : String} (ht : tenant ∈ tenants) {w : WorkerPc}
    (hw : w.rank < (s.workers tenant).rank) :
    (tenants.map fun tenant' => (Function.update s.workers tenant w tenant').rank).sum <
      (tenants.map fun tenant' => (s.workers tenant').rank).sum := by
  refine List.sum_lt_sum _ _ (fun tenant' _ => ?_) ⟨tenant, ht, by rwa [Function.update_self]⟩
  by_cases he : tenant' = tenant
  · rw [he, Function.update_self]
    exact hw.le
  · rw [Function.update_of_ne he]

lemma rank_step (h : GrpcOk s) (hs : Serving.step tenants s a = some t)
    (ha : a.supervising = true) : t.rank tenants < s.rank tenants := by
  cases a
  case worker tenant ok =>
    obtain ⟨⟨ht, hrunning⟩, hs⟩ := Option.ite_none_right_eq_some.mp hs
    cases hs
    have hlt : (if ok then WorkerPc.returned true else .failing).rank < (s.workers tenant).rank := by
      rw [hrunning]
      cases ok <;> decide
    have hsum := sum_rank_update ht hlt
    simp only [Serving.rank]
    omega
  case stop tenant =>
    obtain ⟨⟨ht, hfailing⟩, hs⟩ := Option.ite_none_right_eq_some.mp hs
    cases hs
    have hsum := sum_rank_update (s := s) (w := .returned false) ht (by rw [hfailing]; decide)
    simp only [Serving.rank, Serving.kill]
    omega
  case cancel =>
    obtain ⟨hctx, hs⟩ := Option.ite_none_left_eq_some.mp hs
    cases hs
    simp [Serving.rank, Bool.eq_false_iff.mpr hctx]
  case accept r =>
    obtain ⟨⟨hnone, -⟩, hs⟩ := Option.ite_none_right_eq_some.mp hs
    cases hs
    simp [Serving.rank, hnone]
  case ctxCase =>
    obtain ⟨⟨hat, -⟩, hs⟩ := Option.ite_none_right_eq_some.mp hs
    cases hs
    simp [Serving.rank, hat, (h.select hat).1, GrpcPc.rank, StopPc.rank]
  case gracefulStop =>
    obtain ⟨⟨hwait, -⟩, hs⟩ := Option.ite_none_right_eq_some.mp hs
    cases hs
    simp [Serving.rank, hwait, StopPc.rank]
  case stoppedCase =>
    obtain ⟨⟨hat, -⟩, hs⟩ := Option.ite_none_right_eq_some.mp hs
    cases hs
    rcases hat with hat | hat
    · simp [Serving.rank, hat, GrpcPc.rank]
    · simp [Serving.rank, hat, GrpcPc.rank]
  case timeout =>
    obtain ⟨hat, hs⟩ := Option.ite_none_right_eq_some.mp hs
    cases hs
    simp [Serving.rank, Serving.kill, hat, GrpcPc.rank]
  case request => cases ha
  case reply => cases ha
  case errCase =>
    simp only [Serving.step] at hs
    split at hs
    · rename_i hat _
      cases hs
      simp [Serving.rank, hat, GrpcPc.rank]
    · cases hs
  case collect =>
    simp only [Serving.step] at hs
    split at hs
    · rename_i hat _
      cases hs
      simp [Serving.rank, hat, GrpcPc.rank]
    · cases hs
  case cancelWorkers =>
    simp only [Serving.step] at hs
    split at hs
    · rename_i hat
      cases hs
      simp [Serving.rank, hat, GrpcPc.rank]
    · cases hs
  case wait =>
    simp only [Serving.step] at hs
    split at hs
    · rename_i hmain _
      obtain ⟨-, hs⟩ := Option.ite_none_right_eq_some.mp hs
      cases hs
      simp [Serving.rank, hmain, MainPc.rank]
    · cases hs
  case close ok =>
    simp only [Serving.step] at hs
    split at hs
    · rename_i hmain
      cases hs
      simp [Serving.rank, hmain, MainPc.rank]
    · rename_i hmain
      cases hs
      simp [Serving.rank, hmain, MainPc.rank]
    · cases hs

/-- Requests and replies do not add to what is left. -/
lemma rank_client (hs : Serving.step tenants s a = some t) (ha : a.supervising = false) :
    t.rank tenants = s.rank tenants := by
  cases a
  case request =>
    obtain ⟨-, hs⟩ := Option.ite_none_left_eq_some.mp hs
    cases hs
    rfl
  case reply =>
    obtain ⟨-, hs⟩ := Option.ite_none_left_eq_some.mp hs
    cases hs
    rfl
  all_goals cases ha

theorem steps_bounded {as : List Action} (h : GrpcOk s)
    (hs : (serve tenants).exec anyStep s as = some t) :
    (as.filter Action.supervising).length + t.rank tenants ≤ s.rank tenants := by
  induction as generalizing s with
  | nil =>
    cases hs
    simp
  | cons a as ih =>
    obtain ⟨-, u, hu, hs⟩ := Machine.exec_cons hs
    have hrest := ih (h.step hu) hs
    cases ha : a.supervising with
    | true =>
      have hlt := rank_step h hu ha
      rw [List.filter_cons_of_pos ha, List.length_cons]
      omega
    | false =>
      rw [List.filter_cons_of_neg (by simp [ha]), ← rank_client hu ha]
      exact hrest

/-- A server that stops takes no request, and every step counts. -/
lemma rank_stopping (h : GrpcOk s) (hquit : s.quit = true)
    (hs : Serving.step tenants s a = some t) :
    t.quit = true ∧ t.rank tenants + t.handlers < s.rank tenants + s.handlers := by
  have hstays : t.quit = true := by
    cases a <;> grind [Serving.step, Serving.kill]
  refine ⟨hstays, ?_⟩
  cases ha : a.supervising with
  | true =>
    have hlt := rank_step h hs ha
    have hsame : t.handlers = s.handlers := by
      cases a <;> grind [Serving.step, Serving.kill, Action.supervising]
    omega
  | false =>
    rw [rank_client hs ha]
    cases a
    case request =>
      obtain ⟨hopen, -⟩ := Option.ite_none_left_eq_some.mp hs
      exact absurd hquit hopen
    case reply =>
      obtain ⟨hpos, hs⟩ := Option.ite_none_left_eq_some.mp hs
      cases hs
      dsimp only
      omega
    all_goals cases ha

theorem stopping_bounded {as : List Action} (h : GrpcOk s) (hquit : s.quit = true)
    (hs : (serve tenants).exec anyStep s as = some t) :
    as.length + (t.rank tenants + t.handlers) ≤ s.rank tenants + s.handlers := by
  induction as generalizing s with
  | nil =>
    cases hs
    simp
  | cons a as ih =>
    obtain ⟨-, u, hu, hs⟩ := Machine.exec_cons hs
    obtain ⟨hquit', hlt⟩ := rank_stopping h hquit hu
    have hrest := ih (h.step hu) hquit' hs
    rw [List.length_cons]
    omega

/-- The steps that do not wait for the outside: nothing is asked of clients or of signals. -/
def Owed (s : Serving) : Action → Prop
  | .cancel | .request => False
  -- `Stop` cancels the requests, and a handler whose request is cancelled returns.
  | .reply => s.killed = true
  -- `srv.Serve` returns once the server was stopped.
  | .accept r => s.quit = true ∧ r ≠ .failed
  -- A worker returns once it is cancelled.
  | .worker _ _ => s.cancelled = true
  | _ => True

/-- There is a reason to end: the signal, a call of `Stop`, or a listener that is gone. -/
def Serving.Ending (s : Serving) : Prop := s.ctxDone = true ∨ s.quit = true ∨ s.accept ≠ none

/-- The server can go on by itself. -/
def Serving.GoesOn (tenants : List String) (s : Serving) : Prop :=
  ∃ a, Owed s a ∧ (Serving.step tenants s a).isSome = true

lemma grpc_progress (h : GrpcOk s) (hend : s.Ending) (hgrpc : ∀ ok, s.grpc ≠ .returned ok) :
    s.GoesOn tenants := by
  -- A server that was stopped returns from `Serve`.
  have haccept : s.accept = none → s.quit = true → s.GoesOn tenants := fun hnone hquit =>
    ⟨.accept .nil, ⟨hquit, by decide⟩, by simp [Serving.step, Serving.ServeReturns, hnone, hquit]⟩
  cases hat : s.grpc with
  | select =>
    cases hr : s.accept with
    | some r => exact ⟨.errCase, trivial, by simp [Serving.step, hat, hr]⟩
    | none =>
      rcases hend with hctx | hquit | hne
      · exact ⟨.ctxCase, trivial, by simp [Serving.step, hat, hctx]⟩
      · exact haccept hr hquit
      · exact absurd hr hne
  | graceful => exact ⟨.timeout, trivial, by simp [Serving.step, hat]⟩
  | forced =>
    have hkilled := h.forced hat
    cases hs : s.stop with
    | absent => exact absurd hs (h.inside (.inr (.inl hat)))
    | waiting =>
      by_cases hidle : s.handlers = 0
      · exact ⟨.gracefulStop, trivial, by simp [Serving.step, Serving.Drained, hs, hidle]⟩
      · exact ⟨.reply, hkilled, by simp [Serving.step, hidle]⟩
    | stopped => exact ⟨.stoppedCase, trivial, by simp [Serving.step, hat, hs]⟩
  | collect =>
    cases hr : s.accept with
    | some r => exact ⟨.collect, trivial, by simp [Serving.step, hat, hr]⟩
    | none => exact haccept hr (h.stopping (h.inside (.inr (.inr hat))))
  | cancelling ok => exact ⟨.cancelWorkers, trivial, by simp [Serving.step, hat]⟩
  | returned ok => exact absurd hat (hgrpc ok)

lemma main_progress (h : GrpcOk s) {ok : Bool} (hgrpc : s.grpc = .returned ok)
    (hmain : ∀ ok, s.main ≠ .returned ok) : s.GoesOn tenants := by
  cases hm : s.main with
  | wait =>
    by_cases hdone : ∀ tenant ∈ tenants, (s.workers tenant).done = true
    · refine ⟨.wait, trivial, ?_⟩
      simp only [Serving.step, hm, hgrpc, if_pos hdone, Option.isSome_some]
    · push Not at hdone
      obtain ⟨tenant, ht, hnot⟩ := hdone
      cases hw : s.workers tenant with
      | running =>
        exact ⟨.worker tenant true, h.cancelled.mpr ⟨ok, hgrpc⟩, by simp [Serving.step, ht, hw]⟩
      | failing => exact ⟨.stop tenant, trivial, by simp [Serving.step, ht, hw]⟩
      | returned ok => exact absurd (by rw [hw]; rfl) hnot
  | closing r left =>
    refine ⟨.close true, trivial, ?_⟩
    cases left <;> simp [Serving.step, hm]
  | returned r => exact absurd hm (hmain r)

lemma rank_reachable (h : (serve tenants).Reachable s) :
    s.rank tenants ≤ 11 + 3 * tenants.length := by
  have hinit : (serve tenants).init.rank tenants ≤ 11 + 3 * tenants.length := by
    simp [serve, Serving.rank, GrpcPc.rank, StopPc.rank, WorkerPc.rank, MainPc.rank]
    omega
  have hall : GrpcOk s ∧ s.rank tenants ≤ 11 + 3 * tenants.length := by
    refine Machine.Reachable.invariant
      (P := fun s => GrpcOk s ∧ s.rank tenants ≤ 11 + 3 * tenants.length)
      ⟨grpcOk_init, hinit⟩ ?_ h
    rintro s a t ⟨hg, hrank⟩ hs
    refine ⟨hg.step hs, ?_⟩
    cases ha : a.supervising with
    | true => exact (rank_step hg hs ha).le.trans hrank
    | false => rwa [rank_client hs ha]
  exact hall.2

/-- **A server that is to end ends**, in every interleaving: whatever its clients do, the
server makes only so many steps, and once it stops there are only those and the replies to
the requests that it has taken; and as long as there is a reason to end and `Serve` has not
returned, a step can be made without waiting for clients. -/
theorem serve_finishes (h : (serve tenants).Reachable s) :
    (∀ as t, (serve tenants).exec anyStep s as = some t →
      (as.filter Action.supervising).length ≤ 11 + 3 * tenants.length) ∧
    (s.quit = true → ∀ as t, (serve tenants).exec anyStep s as = some t →
      as.length ≤ 11 + 3 * tenants.length + s.handlers) ∧
    (s.Ending → (∀ ok, s.main ≠ .returned ok) → s.GoesOn tenants) := by
  have hg := grpcOk_reachable h
  have hrank := rank_reachable h
  refine ⟨fun as t hs => ?_, fun hquit as t hs => ?_, fun hend hmain => ?_⟩
  · have hbound := steps_bounded hg hs
    omega
  · have hbound := stopping_bounded hg hquit hs
    omega
  · by_cases hgrpc : ∃ ok, s.grpc = .returned ok
    · obtain ⟨ok, hok⟩ := hgrpc
      exact main_progress hg hok hmain
    · push Not at hgrpc
      exact grpc_progress hg hend hgrpc

end Progress

section Demo

/-- The signal comes while a request is being handled. -/
def gracefulScript : List Action :=
  [.request, .cancel, .ctxCase, .reply, .gracefulStop, .stoppedCase, .accept .nil, .collect,
   .cancelWorkers]

theorem serve_order_graceful : ∃ s, (serve ["acme"]).Reachable s ∧ s.cancelled = true ∧
    s.handlers = 0 := by
  obtain ⟨s, hs, hcancelled, hkilled, haccept⟩ := Machine.exec_exists (serve ["acme"]) anyStep
    (serve ["acme"]).init gracefulScript
    (fun s => s.cancelled = true ∧ s.killed = false ∧ s.accept = some .nil) (by decide)
  obtain ⟨r, hr, -, hidle⟩ := (serve_order hs).1 hcancelled
  rw [haccept, Option.some.injEq] at hr
  exact ⟨s, hs, hcancelled, (hidle (hr ▸ by decide) hkilled).2⟩

/-- A listener that fails is no reason for `serveGRPC` to stop the server: the flusher is done
and the store is closed while a request is being handled. -/
theorem listener_failure_overtakes : ∃ s, (serve ["acme"]).Reachable s ∧
    s.main = .returned false ∧ s.closed = ["acme"] ∧ s.quit = false ∧ s.handlers = 1 :=
  Machine.exec_exists (serve ["acme"]) anyStep (serve ["acme"]).init
    [.request, .accept .failed, .errCase, .cancelWorkers, .worker "acme" true, .wait, .close true,
     .close true]
    (fun s => s.main = .returned false ∧ s.closed = ["acme"] ∧ s.quit = false ∧ s.handlers = 1)
    (by decide)

/-- The worker has failed, and `serveGRPC` has not noticed yet. -/
theorem serve_finishes_failing : ∃ s, (serve ["acme"]).Reachable s ∧ s.killed = true ∧
    s.GoesOn ["acme"] := by
  obtain ⟨s, hs, hkilled, hquit, hmain⟩ := Machine.exec_exists (serve ["acme"]) anyStep
    (serve ["acme"]).init [.worker "acme" false, .stop "acme"]
    (fun s => s.killed = true ∧ s.quit = true ∧ s.main = .wait) (by decide)
  exact ⟨s, hs, hkilled, (serve_finishes hs).2.2 (.inr (.inl hquit)) fun ok => by simp [hmain]⟩

end Demo

end CloudyNeigh.Server
