import CloudyNeigh.QueryHeapLoader
import CloudyNeigh.QueryLoaderRuns
import CloudyNeigh.TenantActive

/-!
# Queries during a sync

`Engine.Run` syncs one branch after another while any number of calls of `Engine.Query`
scan the tables that the loaders published. The goroutines share the heap, and each of
their accesses is one step. The engine of values next to it syncs a branch in one step
and answers a query in one step; both keep the history of what their callers see.
-/
namespace CloudyNeigh.Query
open Checked HeapLogic RecordIO Storage Tenant Transition VectorFormat

structure Request where
  Namespace : String
  Branch : String
  VectorColumn : String
  Vector : List F32
  TopK : ℤ
  Filter : Option EqualityFilter
  deriving DecidableEq, Repr

def Request.key (req : Request) : BranchKey := ⟨req.Namespace, req.Branch⟩

def Request.column (req : Request) : String :=
  if req.VectorColumn = "" then "default" else req.VectorColumn

abbrev Answer := Except SearchErr (List ScoredResult)

/-- What the callers of the engine see, and the outcome of each `Sync`. -/
inductive Event
  | asked (req : Request)
  | answered (i : ℕ) (x : Answer)
  | synced (key : BranchKey) (loaded : ℕ) (failed : Bool)

section Atomic
variable (A : Arith) (D : Decoder) (kernels : Kernels)

/-- A query on the published table of its branch, if there is one. -/
def Request.answer (req : Request) : Option Loader → Answer
  | none => .ok []
  | some l => l.table.Search A req.column req.Vector req.TopK .cosine req.Filter

inductive QueryCall
  | pending (req : Request)
  | evaluated (x : Answer)
  | returned

structure AtomicEngine where
  loaders : BranchKey → Option Loader
  calls : List QueryCall
  history : List Event

inductive AtomicAction
  | ask (req : Request)
  | evaluate (i : ℕ)
  | answer (i : ℕ)
  | create (key : BranchKey)
  | sync (key : BranchKey) (m : BranchManifest) (gen : String) (segs : Bytes → Option Bytes)
      (faults : List Fault)

def AtomicEngine.step (e : AtomicEngine) : AtomicAction → Option AtomicEngine
  | .ask req => some { e with
      calls := e.calls ++ [.pending req]
      history := e.history ++ [.asked req] }
  | .evaluate i =>
    match e.calls[i]? with
    | some (.pending req) => some { e with
        calls := e.calls.set i (.evaluated (req.answer A (e.loaders req.key))) }
    | _ => none
  | .answer i =>
    match e.calls[i]? with
    | some (.evaluated x) => some { e with
        calls := e.calls.set i .returned
        history := e.history ++ [.answered i x] }
    | _ => none
  | .create key =>
    match e.loaders key with
    | some _ => none
    | none => some { e with
        loaders := Function.update e.loaders key (some ⟨0, "", NewTable kernels⟩) }
  | .sync key m gen segs faults =>
    match e.loaders key with
    | none => none
    | some l =>
      let out := l.syncLocked A D segs m gen faults
      some { e with
        loaders := Function.update e.loaders key (some out.1)
        history := e.history ++ [.synced key out.2.1 out.2.2.isSome] }

def atomicEngine : Machine AtomicEngine AtomicAction where
  init := ⟨fun _ => none, [], []⟩
  step := AtomicEngine.step A D kernels

end Atomic

namespace OnHeap

/-- A call of `Query`, before it has looked for the loader, with the loader, and in its
search or past it. -/
inductive Reader
  | asked (req : Request)
  | found (req : Request)
  | scanning (p : Cmd Answer)
  | returned

/-- The goroutine of `Run`, which holds the mutex of the engine while it is `creating`. -/
inductive Writer
  | idle
  | creating (key : BranchKey) (p : Cmd ℕ)
  | syncing (key : BranchKey) (gen : String) (p : Cmd Pass)

structure Engine where
  heap : Heap Elem
  loaders : BranchKey → Option Loader
  writer : Writer
  readers : List Reader
  history : List Event

inductive Action
  | ask (req : Request)
  | lookup (i : ℕ)
  | load (i : ℕ) (R : RangeOrder String)
  | read (i : ℕ)
  | answer (i : ℕ)
  | create (key : BranchKey)
  | sync (key : BranchKey) (m : BranchManifest) (gen : String) (segs : Bytes → Option Bytes)
      (faults : List Fault) (O : ℕ → ℕ → RangeOrder String)
  | write
  | publish

section Steps
variable (A : Arith) (D : Decoder) (kernels : Kernels) (grow : Kind → ℕ → ℕ → ℕ)

def Engine.setReader (e : Engine) (i : ℕ) (r : Reader) : Engine :=
  { e with readers := e.readers.set i r }

/-- A branch without a loader has no results. -/
def Engine.looked (e : Engine) (req : Request) : Reader :=
  match e.loaders req.key with
  | none => .scanning (.ret (.ok []))
  | some _ => .found req

/-- The mutex of the engine is held. -/
def Engine.locked (e : Engine) : Bool :=
  match e.writer with
  | .creating .. => true
  | _ => false

def Engine.lookup (e : Engine) (i : ℕ) : Option Engine :=
  match e.readers[i]? with
  | some (.asked req) => if e.locked then none else some (e.setReader i (e.looked req))
  | _ => none

def Engine.load (e : Engine) (i : ℕ) (R : RangeOrder String) : Option Engine :=
  match e.readers[i]? with
  | some (.found req) => (e.loaders req.key).map fun l => e.setReader i
      (.scanning (Search A R l.table req.column req.Vector req.TopK .cosine req.Filter))
  | _ => none

def Engine.read (e : Engine) (i : ℕ) : Option Engine :=
  match e.readers[i]? with
  | some (.scanning p) => (p.step e.heap).map fun next =>
      { e with heap := next.2, readers := e.readers.set i (.scanning next.1) }
  | _ => none

def Engine.answer (e : Engine) (i : ℕ) : Option Engine :=
  match e.readers[i]? with
  | some (.scanning (.ret x)) => some { e with
      readers := e.readers.set i .returned
      history := e.history ++ [.answered i x] }
  | _ => none

def Engine.create (e : Engine) (key : BranchKey) : Option Engine :=
  match e.writer, e.loaders key with
  | .idle, none => some { e with writer := .creating key (NewTable kernels) }
  | _, _ => none

/-- `Sync` of a branch whose manifest was read. -/
def Engine.sync (e : Engine) (key : BranchKey) (m : BranchManifest) (gen : String)
    (segs : Bytes → Option Bytes) (faults : List Fault) (O : ℕ → ℕ → RangeOrder String) :
    Option Engine :=
  match e.writer, e.loaders key with
  | .idle, some l =>
    if gen ≠ "" ∧ gen = l.lastGen then
      some { e with history := e.history ++ [.synced key 0 false] }
    else if m.segments.length < l.applied then
      some { e with history := e.history ++ [.synced key 0 true] }
    else some { e with writer := .syncing key gen (l.pass A D O grow segs m faults) }
  | _, _ => none

def Engine.write (e : Engine) : Option Engine :=
  match e.writer with
  | .idle => none
  | .creating key p => (p.step e.heap).map fun next =>
      { e with heap := next.2, writer := .creating key next.1 }
  | .syncing key gen p => (p.step e.heap).map fun next =>
      { e with heap := next.2, writer := .syncing key gen next.1 }

def Engine.publish (e : Engine) : Option Engine :=
  match e.writer with
  | .creating key (.ret p) => some { e with
      loaders := Function.update e.loaders key (some ⟨0, "", p⟩)
      writer := .idle }
  | .syncing key gen (.ret p) => (e.loaders key).map fun l => { e with
      loaders := Function.update e.loaders key (some (l.publish gen p))
      writer := .idle
      history := e.history ++ [.synced key p.loaded p.err.isSome] }
  | _ => none

def Engine.step (e : Engine) : Action → Option Engine
  | .ask req => some { e with
      readers := e.readers ++ [.asked req]
      history := e.history ++ [.asked req] }
  | .lookup i => e.lookup i
  | .load i R => e.load A i R
  | .read i => e.read i
  | .answer i => e.answer i
  | .create key => e.create kernels key
  | .sync key m gen segs faults O => e.sync A D grow key m gen segs faults O
  | .write => e.write
  | .publish => e.publish

def engine : Machine Engine Action where
  init := ⟨fun _ => [], fun _ => none, .idle, [], []⟩
  step := Engine.step A D kernels grow

end Steps

section Relation
variable (A : Arith) (D : Decoder) (kernels : Kernels)

/-- A loader of the heap next to its value. -/
structure Serves (V : HeapLogic.View Elem) (l : Loader) (v : Query.Loader) : Prop where
  applied : l.applied = v.applied
  lastGen : l.lastGen = v.lastGen
  table : tableAt l.table v.table V
  wf : v.table.WF

/-- A call has its answer from the moment it has the table. -/
def Reader.Sim (V : HeapLogic.View Elem) (loaders : BranchKey → Option Loader) :
    Reader → QueryCall → Prop
  | .asked req, c => c = .pending req
  | .found req, c => c = .pending req ∧ (loaders req.key).isSome
  | .scanning p, c => ∃ x, c = .evaluated x ∧ p.result V = some x
  | .returned, c => c = .returned

/-- The writer spares the arrays of `F` and ends with a table of its own. -/
def Writer.Sim (F : Set (Kind × ℕ)) (heap : Heap Elem) (loaders : BranchKey → Option Query.Loader) :
    Writer → Prop
  | .idle => True
  | .creating key p => loaders key = none ∧
      p.wp F (fun a h => tableAt a (Query.NewTable kernels) (h.view.only Fᶜ)) heap
  | .syncing key gen p => ∃ l m segs faults, loaders key = some l ∧
      ¬(gen ≠ "" ∧ gen = l.lastGen) ∧ ¬m.segments.length < l.applied ∧
      p.wp F (fun out h => Ends l.table (l.pass A D segs m faults) out (h.view.only Fᶜ)) heap

/-- All that is published lies in `F`, which no one writes. -/
structure Sim (F : Set (Kind × ℕ)) (e : Engine) (a : AtomicEngine) : Prop where
  allocated : e.heap.Allocated F
  loaders : ∀ key, Option.Rel (Serves (e.heap.view.only F)) (e.loaders key) (a.loaders key)
  readers : List.Forall₂ (Reader.Sim (e.heap.view.only F) e.loaders) e.readers a.calls
  writer : e.writer.Sim A D kernels F e.heap a.loaders
  history : e.history = a.history

end Relation

section Lists
variable {α β : Type} {R : α → β → Prop} {l : List α} {l' : List β} {i : ℕ} {x : α}

lemma exists_of_forall₂ (h : List.Forall₂ R l l') (hx : l[i]? = some x) :
    ∃ y, l'[i]? = some y ∧ R x y := by
  induction h generalizing i with
  | nil => cases hx
  | cons hr _ ih =>
    cases i with
    | zero =>
      cases hx
      exact ⟨_, rfl, hr⟩
    | succ i => exact ih hx

lemma forall₂_set (h : List.Forall₂ R l l') {y : β} (hr : R x y) :
    List.Forall₂ R (l.set i x) (l'.set i y) := by
  induction h generalizing i with
  | nil => exact .nil
  | cons hr' h ih =>
    cases i with
    | zero => exact .cons hr h
    | succ i => exact .cons hr' ih

lemma rel_imp {S : α → β → Prop} {o : Option α} {o' : Option β} (h : Option.Rel R o o')
    (hRS : ∀ x y, R x y → S x y) : Option.Rel S o o' := by
  cases h with
  | none => exact .none
  | some hr => exact .some (hRS _ _ hr)

/-- The right list already has what the left one gets. -/
lemma forall₂_set_left (h : List.Forall₂ R l l') {y : β} (hy : l'[i]? = some y) (hr : R x y) :
    List.Forall₂ R (l.set i x) l' := by
  induction h generalizing i with
  | nil => exact .nil
  | cons hr' h ih =>
    cases i with
    | zero =>
      cases hy
      exact .cons hr h
    | succ i => exact .cons hr' (ih hy)

end Lists

section Simulation
variable {A : Arith} {D : Decoder} {kernels : Kernels} {grow : Kind → ℕ → ℕ → ℕ}
  {F : Set (Kind × ℕ)} {e e' : Engine} {a : AtomicEngine} {V W : HeapLogic.View Elem}

lemma Serves.mono {l : Loader} {v : Query.Loader} (h : Serves V l v) (hV : V.Sub W) :
    Serves W l v :=
  ⟨h.applied, h.lastGen, (tableAt l.table v.table).mono hV h.table, h.wf⟩

lemma Reader.Sim.mono {loaders loaders' : BranchKey → Option Loader} {r : Reader} {c : QueryCall}
    (h : r.Sim V loaders c) (hV : V.Sub W)
    (hl : ∀ key, (loaders key).isSome → (loaders' key).isSome) : r.Sim W loaders' c := by
  cases r with
  | asked req => exact h
  | found req => exact ⟨h.1, hl _ h.2⟩
  | scanning p =>
    obtain ⟨x, hx, hr⟩ := h
    exact ⟨x, hx, Prog.result_mono hV hr⟩
  | returned => exact h

lemma Sim.loader_none (h : Sim A D kernels F e a) {key : BranchKey} (hn : e.loaders key = none) :
    a.loaders key = none := by
  have hl := h.loaders key
  rw [hn] at hl
  revert hl
  cases a.loaders key with
  | none => exact fun _ => rfl
  | some v => exact fun hl => nomatch hl

lemma Sim.loader_some (h : Sim A D kernels F e a) {key : BranchKey} {l : Loader}
    (hl : e.loaders key = some l) :
    ∃ v, a.loaders key = some v ∧ Serves (e.heap.view.only F) l v := by
  have hv := h.loaders key
  rw [hl] at hv
  revert hv
  cases a.loaders key with
  | none => exact fun hv => nomatch hv
  | some v =>
    intro hv
    cases hv with
    | some hv => exact ⟨v, rfl, hv⟩

lemma Sim.keeps (h : Sim A D kernels F e a) {heap : Heap Elem} {w : Writer}
    (hk : Heap.Keeps F e.heap heap) (hw : w.Sim A D kernels F heap a.loaders) :
    Sim A D kernels F { e with heap := heap, writer := w } a where
  allocated := hk.allocated h.allocated
  loaders := by
    rw [hk.only_eq subset_rfl]
    exact h.loaders
  readers := by
    rw [hk.only_eq subset_rfl]
    exact h.readers
  writer := hw
  history := h.history

lemma Sim.write (h : Sim A D kernels F e a) (hs : e.write = some e') : Sim A D kernels F e' a := by
  unfold Engine.write at hs
  have hw := h.writer
  split at hs
  · cases hs
  · rename_i key p hp
    obtain ⟨next, hn, rfl⟩ := Option.map_eq_some_iff.mp hs
    rw [hp] at hw
    obtain ⟨hwp, hk⟩ := Prog.wp_step hw.2 hn h.allocated
    exact h.keeps hk ⟨hw.1, hwp⟩
  · rename_i key gen p hp
    obtain ⟨next, hn, rfl⟩ := Option.map_eq_some_iff.mp hs
    rw [hp] at hw
    obtain ⟨l, m, segs, faults, hl, hgen, hlen, hw⟩ := hw
    obtain ⟨hwp, hk⟩ := Prog.wp_step hw hn h.allocated
    exact h.keeps hk ⟨l, m, segs, faults, hl, hgen, hlen, hwp⟩

/-- Once a table is published, every array there is counts as published. -/
lemma Sim.publish (h : Sim A D kernels F e a) {key : BranchKey} {l : Loader} {v : Query.Loader}
    (hs : Serves (e.heap.view.only e.heap.cells) l v) {history : List Event} :
    Sim A D kernels e.heap.cells
      { e with loaders := Function.update e.loaders key (some l), writer := .idle, history := history }
      { a with loaders := Function.update a.loaders key (some v), history := history } where
  allocated := fun _ hc => hc
  loaders := by
    intro key'
    by_cases hk : key' = key
    · subst hk
      simp only [Function.update_self]
      exact .some hs
    · simp only [Function.update_of_ne hk]
      exact rel_imp (h.loaders key') fun _ _ hs' => hs'.mono (Heap.only_sub_cells e.heap F)
  readers := by
    refine h.readers.imp fun r c hr => hr.mono (Heap.only_sub_cells e.heap F) fun key' hk' => ?_
    by_cases hk : key' = key
    · subst hk
      simp only [Function.update_self, Option.isSome_some]
    · simp only [Function.update_of_ne hk, hk']
  writer := trivial
  history := rfl

lemma passAt_published {cur : Option ℕ} {published : ℕ} {t t₀ : Table} {U : HeapLogic.View Elem}
    (hp : passAt t₀ cur t V) (h₀ : tableAt published t₀ W) (hV : V.Sub U) (hW : W.Sub U) :
    tableAt (cur.getD published) t U := by
  cases cur with
  | none =>
    obtain ⟨rfl, -⟩ := hp
    exact (tableAt published t).mono hW h₀
  | some p => exact (tableAt p t).mono hV hp

lemma Loader.publish_serves {l : Loader} {v : Query.Loader} {out : Pass} {m : BranchManifest}
    {gen : String} {segs : Bytes → Option Bytes} {faults : List Fault} {U : HeapLogic.View Elem}
    (hl : Serves W l v) (hgen : ¬(gen ≠ "" ∧ gen = v.lastGen))
    (hlen : ¬m.segments.length < v.applied)
    (ho : Ends v.table (v.pass A D segs m faults) out V) (hV : V.Sub U) (hW : W.Sub U) :
    Serves U (l.publish gen out) (v.syncLocked A D segs m gen faults).1 ∧
      out.loaded = (v.syncLocked A D segs m gen faults).2.1 ∧
      out.err.isSome = (v.syncLocked A D segs m gen faults).2.2.isSome := by
  obtain ⟨⟨happ, hload, -, herr⟩, htab⟩ := ho
  have htab := passAt_published htab hl.table hV hW
  have hwf : (v.pass A D segs m faults).table.WF := syncLoop_wf hl.wf _ _ _ _
  unfold Query.Loader.syncLocked Loader.publish
  rw [if_neg hgen, if_neg hlen]
  dsimp only
  cases hv : (v.pass A D segs m faults).err with
  | none =>
    rw [hv] at herr
    rw [Option.isSome_eq_false_iff.mp herr |> Option.isNone_iff_eq_none.mp]
    exact ⟨⟨happ, rfl, htab, hwf⟩, hload, rfl⟩
  | some x =>
    rw [hv] at herr
    obtain ⟨y, hy⟩ := Option.isSome_iff_exists.mp herr
    rw [hy]
    refine ⟨⟨happ, hl.lastGen, ?_, ?_⟩, hload, rfl⟩
    · dsimp only
      rw [hload]
      split
      · exact htab
      · exact (tableAt l.table v.table).mono hW hl.table
    · dsimp only
      split
      · exact hwf
      · exact hl.wf

/-- The atomic engine answers a step by a run that leads to a related state. -/
def Follows (A : Arith) (D : Decoder) (kernels : Kernels) (a : AtomicEngine) (e' : Engine) : Prop :=
  ∃ a', (atomicEngine A D kernels).Run anyStep a a' ∧ ∃ F, Sim A D kernels F e' a'

lemma Follows.stay (h : Sim A D kernels F e' a) : Follows A D kernels a e' :=
  ⟨a, Machine.Run.refl a, F, h⟩

lemma Follows.one {a' : AtomicEngine} (act : AtomicAction) (hs : a.step A D kernels act = some a')
    (h : Sim A D kernels F e' a') : Follows A D kernels a e' :=
  ⟨a', (Machine.Run.refl a).snoc trivial hs, F, h⟩

lemma Sim.ask (h : Sim A D kernels F e a) (req : Request) :
    Follows A D kernels a
      { e with readers := e.readers ++ [.asked req], history := e.history ++ [.asked req] } :=
  Follows.one (F := F) (.ask req) rfl
    { h with
      readers := List.rel_append h.readers (.cons rfl .nil)
      history := congrArg (· ++ [Event.asked req]) h.history }

/-- A call gets the table, or learns that there is none. -/
lemma Sim.evaluate (h : Sim A D kernels F e a) {i : ℕ} {req : Request} {p : Cmd Answer}
    (hc : a.calls[i]? = some (.pending req))
    (hp : p.result (e.heap.view.only F) = some (req.answer A (a.loaders req.key))) :
    Follows A D kernels a (e.setReader i (.scanning p)) := by
  have hs : a.step A D kernels (.evaluate i) = some { a with
      calls := a.calls.set i (.evaluated (req.answer A (a.loaders req.key))) } := by
    simp only [AtomicEngine.step, hc]
  exact Follows.one (F := F) _ hs { h with readers := forall₂_set h.readers ⟨_, rfl, hp⟩ }

lemma Sim.lookup (h : Sim A D kernels F e a) {i : ℕ} (hs : e.lookup i = some e') :
    Follows A D kernels a e' := by
  unfold Engine.lookup at hs
  split at hs
  · rename_i req hr
    obtain ⟨c, hc, rfl⟩ := exists_of_forall₂ h.readers hr
    split at hs
    · cases hs
    · cases hs
      unfold Engine.looked
      split
      · rename_i hn
        refine h.evaluate hc ?_
        rw [h.loader_none hn]
        rfl
      · rename_i l hn
        have hl : (e.loaders req.key).isSome := by rw [hn, Option.isSome_some]
        exact Follows.stay (F := F) { h with readers := forall₂_set_left h.readers hc ⟨rfl, hl⟩ }
  · cases hs

lemma Sim.load (h : Sim A D kernels F e a) {i : ℕ} {R : RangeOrder String}
    (hs : e.load A i R = some e') : Follows A D kernels a e' := by
  unfold Engine.load at hs
  split at hs
  · rename_i req hr
    obtain ⟨c, hc, rfl, -⟩ := exists_of_forall₂ h.readers hr
    obtain ⟨l, hl, rfl⟩ := Option.map_eq_some_iff.mp hs
    obtain ⟨v, ha, hv⟩ := h.loader_some hl
    refine h.evaluate hc ?_
    rw [ha]
    exact search_result hv.wf hv.table A R _ _ _ _ _
  · cases hs

lemma Sim.read (h : Sim A D kernels F e a) {i : ℕ} (hs : e.read i = some e') :
    Follows A D kernels a e' := by
  unfold Engine.read at hs
  split at hs
  · rename_i p hr
    obtain ⟨next, hn, rfl⟩ := Option.map_eq_some_iff.mp hs
    obtain ⟨c, hc, x, rfl, hx⟩ := exists_of_forall₂ h.readers hr
    obtain ⟨hh, hx'⟩ := Prog.result_step (View.only_sub _ F) hx hn
    rw [hh]
    exact Follows.stay (F := F) { h with readers := forall₂_set_left h.readers hc ⟨x, rfl, hx'⟩ }
  · cases hs

lemma Sim.answer (h : Sim A D kernels F e a) {i : ℕ} (hs : e.answer i = some e') :
    Follows A D kernels a e' := by
  unfold Engine.answer at hs
  split at hs
  · rename_i x hr
    cases hs
    obtain ⟨c, hc, y, rfl, hy⟩ := exists_of_forall₂ h.readers hr
    cases hy
    have hs : a.step A D kernels (.answer i) = some { a with
        calls := a.calls.set i .returned
        history := a.history ++ [.answered i x] } := by
      simp only [AtomicEngine.step, hc]
    exact Follows.one (F := F) _ hs { h with
      readers := forall₂_set h.readers rfl
      history := congrArg (· ++ [Event.answered i x]) h.history }
  · cases hs

lemma Sim.create (h : Sim A D kernels F e a) {key : BranchKey} (hs : e.create kernels key = some e') :
    Follows A D kernels a e' := by
  unfold Engine.create at hs
  split at hs
  · rename_i hw hn
    cases hs
    exact Follows.stay (h.keeps (Heap.Keeps.refl F e.heap) ⟨h.loader_none hn,
      newTable_spec kernels e.heap F h.allocated (View.Sub.refl _) trivial⟩)
  · cases hs

/-- A `Sync` that returns before its loop. -/
lemma Sim.skip (h : Sim A D kernels F e a) {key : BranchKey} {v : Query.Loader}
    (ha : a.loaders key = some v) {m : BranchManifest} {gen : String} {segs : Bytes → Option Bytes}
    {faults : List Fault} (err : Option SyncErr)
    (hv : v.syncLocked A D segs m gen faults = (v, 0, err)) :
    Follows A D kernels a { e with history := e.history ++ [.synced key 0 err.isSome] } := by
  have hu : Function.update a.loaders key (some v) = a.loaders := by
    rw [← ha, Function.update_eq_self]
  have hs : a.step A D kernels (.sync key m gen segs faults) = some { a with
      history := a.history ++ [.synced key 0 err.isSome] } := by
    simp only [AtomicEngine.step, ha, hv, hu]
  exact Follows.one (F := F) _ hs { h with
    history := congrArg (· ++ [Event.synced key 0 err.isSome]) h.history }

lemma Sim.sync (h : Sim A D kernels F e a) {key : BranchKey} {m : BranchManifest} {gen : String}
    {segs : Bytes → Option Bytes} {faults : List Fault} {O : ℕ → ℕ → RangeOrder String}
    (hs : e.sync A D grow key m gen segs faults O = some e') : Follows A D kernels a e' := by
  unfold Engine.sync at hs
  split at hs
  · rename_i l hw hl
    obtain ⟨v, ha, hv⟩ := h.loader_some hl
    rw [hv.lastGen, hv.applied] at hs
    split at hs
    · rename_i hgen
      cases hs
      have hskip : v.syncLocked A D segs m gen faults = (v, 0, none) := by
        rw [Query.Loader.syncLocked, if_pos hgen]
      exact h.skip ha none hskip
    · rename_i hgen
      split at hs
      · rename_i hlen
        cases hs
        have hskip : v.syncLocked A D segs m gen faults =
            (v, 0, some (.truncated m.segments.length v.applied)) := by
          rw [Query.Loader.syncLocked, if_neg hgen, if_pos hlen]
        exact h.skip ha _ hskip
      · rename_i hlen
        cases hs
        refine Follows.stay (h.keeps (Heap.Keeps.refl F e.heap)
          ⟨v, m, segs, faults, ha, hgen, hlen, ?_⟩)
        unfold Loader.pass Query.Loader.pass
        rw [hv.applied]
        exact syncLoop_spec hv.table hv.wf none _ _ _ _ e.heap F h.allocated (View.Sub.refl _)
          ⟨rfl, trivial⟩
  · cases hs

lemma Sim.publishes (h : Sim A D kernels F e a) (hs : e.publish = some e') :
    Follows A D kernels a e' := by
  unfold Engine.publish at hs
  have hw := h.writer
  have hsub := Heap.only_sub_cells e.heap
  split at hs
  · rename_i key p hp
    cases hs
    rw [hp] at hw
    obtain ⟨hn, ht⟩ := hw
    have hserves : Serves (e.heap.view.only e.heap.cells) ⟨0, "", p⟩ ⟨0, "", Query.NewTable kernels⟩ :=
      ⟨rfl, rfl, (tableAt p _).mono (hsub Fᶜ) ht, newTable_wf kernels⟩
    refine Follows.one (.create key) ?_ (h.publish hserves)
    simp only [AtomicEngine.step, hn, h.history]
  · rename_i key gen p hp
    obtain ⟨l, hl, rfl⟩ := Option.map_eq_some_iff.mp hs
    rw [hp] at hw
    obtain ⟨v, m, segs, faults, ha, hgen, hlen, ho⟩ := hw
    obtain ⟨v', ha', hv⟩ := h.loader_some hl
    obtain rfl : v' = v := Option.some.inj (ha'.symm.trans ha)
    obtain ⟨hserves, hload, herr⟩ := Loader.publish_serves hv hgen hlen ho (hsub Fᶜ) (hsub F)
    refine Follows.one (.sync key m gen segs faults) ?_ (h.publish hserves)
    simp only [AtomicEngine.step, ha, hload, herr, h.history]
  · cases hs

theorem Sim.step (h : Sim A D kernels F e a) {act : Action}
    (hs : e.step A D kernels grow act = some e') : Follows A D kernels a e' := by
  cases act with
  | ask req =>
    cases hs
    exact h.ask req
  | lookup i => exact h.lookup hs
  | load i R => exact h.load hs
  | read i => exact h.read hs
  | answer i => exact h.answer hs
  | create key => exact h.create hs
  | sync key m gen segs faults O => exact h.sync hs
  | write => exact Follows.stay (h.write hs)
  | publish => exact h.publishes hs

lemma sim_init : Sim A D kernels ∅ (engine A D kernels grow).init (atomicEngine A D kernels).init where
  allocated := fun _ hc => hc.elim
  loaders := fun _ => .none
  readers := .nil
  writer := trivial
  history := rfl

theorem sim_reachable (h : (engine A D kernels grow).Reachable e) :
    ∃ a, (atomicEngine A D kernels).Reachable a ∧ ∃ F, Sim A D kernels F e a :=
  Machine.Reachable.simulated (R := fun e a => ∃ F, Sim A D kernels F e a) ⟨∅, sim_init⟩
    (fun _ _ _ _ ⟨_, hF⟩ hs => hF.step hs) h

/-- **Queries are linearizable against `Sync`**: the callers of the engine see a history
of the engine that syncs a branch in one step and answers a query in one step. -/
theorem engine_linearizable (h : (engine A D kernels grow).Reachable e) :
    ∃ a, (atomicEngine A D kernels).Reachable a ∧ a.history = e.history ∧
      ∀ key, (a.loaders key).map (fun l => (l.applied, l.lastGen)) =
        (e.loaders key).map fun l => (l.applied, l.lastGen) := by
  obtain ⟨a, ha, F, hF⟩ := sim_reachable h
  refine ⟨a, ha, hF.history.symm, fun key => ?_⟩
  cases hl : e.loaders key with
  | none => rw [hF.loader_none hl, Option.map_none, Option.map_none]
  | some l =>
    obtain ⟨v, hv, hs⟩ := hF.loader_some hl
    rw [hv, Option.map_some, Option.map_some, hs.applied, hs.lastGen]

end Simulation

section Demo

abbrev demoEngine : Machine Engine Action :=
  engine demoArith demoDecoder demoKernels fun _ _ n => n

def demoRequest : Request := ⟨"default", "main", "", [], 1, none⟩

/-- A query takes the empty table and reads it during a pass over two segments. -/
def scanDuringSync : List Action :=
  .create demoRequest.key :: List.replicate 4 .write ++
    [.publish, .ask demoRequest, .lookup 0, .load 0 RangeOrder.stored,
      .sync demoRequest.key demoVersion.manifest demoVersion.gen demoSegs []
        fun _ _ => RangeOrder.stored] ++
    List.replicate 17 .write ++ .read 0 :: List.replicate 17 .write

/-- The query is answered after the tables were swapped. -/
theorem engine_linearizable_demo : ∃ e, demoEngine.Reachable e ∧ e.history.length = 3 ∧
    ∃ a, (atomicEngine demoArith demoDecoder demoKernels).Reachable a ∧ a.history = e.history := by
  obtain ⟨e, he, hlen⟩ := Machine.exec_exists demoEngine anyStep demoEngine.init
    (scanDuringSync ++ [.publish, .read 0, .answer 0]) (fun e => e.history.length = 3)
    (by decide +kernel)
  obtain ⟨a, ha, hist, -⟩ := engine_linearizable he
  exact ⟨e, he, hlen, a, ha, hist⟩

end Demo

section Progress
variable {A : Arith} {D : Decoder} {kernels : Kernels} {grow : Kind → ℕ → ℕ → ℕ}
  {F : Set (Kind × ℕ)} {e e' : Engine} {a : AtomicEngine}

def Reader.asking : Reader → Bool
  | .asked _ => true
  | _ => false

/-- The steps of one call of `Query` after it was made. -/
def Action.OfReader (i : ℕ) : Action → Prop
  | .lookup j | .load j _ | .read j | .answer j => j = i
  | _ => False

/-- The steps of the goroutine of `Run` inside a `Sync` or the creation of a loader. -/
def Action.OfWriter : Action → Prop
  | .write | .publish => True
  | _ => False

/-- The writer alone, in either of its two programs. -/
lemma writer_run {α : Type} {mk : Cmd α → Writer} {c d : Cmd α × Heap Elem}
    (hmk : ∀ (e : Engine) p next, e.writer = mk p → p.step e.heap = some next →
      e.write = some { e with heap := next.2, writer := mk next.1 })
    (hs : Relation.ReflTransGen (fun c d => c.1.step c.2 = some d) c d)
    (hw : e.writer = mk c.1) (hh : e.heap = c.2) :
    (engine A D kernels grow).Run (fun _ act => act.OfWriter) e
      { e with heap := d.2, writer := mk d.1 } := by
  induction hs with
  | refl =>
    rw [← hw, ← hh]
    exact Machine.Run.refl e
  | tail _ hst ih => exact ih.snoc (a := .write) trivial (hmk _ _ _ rfl hst)

lemma write_creating (key : BranchKey) (e : Engine) (p : Cmd ℕ) (next : Cmd ℕ × Heap Elem)
    (hw : e.writer = .creating key p) (hs : p.step e.heap = some next) :
    e.write = some { e with heap := next.2, writer := .creating key next.1 } := by
  simp only [Engine.write, hw, hs, Option.map_some]

lemma write_syncing (key : BranchKey) (gen : String) (e : Engine) (p : Cmd Pass)
    (next : Cmd Pass × Heap Elem) (hw : e.writer = .syncing key gen p)
    (hs : p.step e.heap = some next) :
    e.write = some { e with heap := next.2, writer := .syncing key gen next.1 } := by
  simp only [Engine.write, hw, hs, Option.map_some]

lemma scanning_run {i : ℕ} {c d : Cmd Answer × Heap Elem}
    (hs : Relation.ReflTransGen (fun c d => c.1.step c.2 = some d) c d)
    (hr : e.readers[i]? = some (.scanning c.1)) (hh : e.heap = c.2) :
    (engine A D kernels grow).Run (fun _ act => act.OfReader i) e
      { e with heap := d.2, readers := e.readers.set i (.scanning d.1) } := by
  obtain ⟨hi, hx⟩ := List.getElem?_eq_some_iff.mp hr
  induction hs with
  | refl =>
    rw [← hh, ← hx, List.set_getElem_self]
    exact Machine.Run.refl e
  | tail _ hst ih =>
    refine ih.snoc (a := .read i) rfl ?_
    simp only [engine, Engine.step, Engine.read, List.getElem?_set_self hi, hst, Option.map_some,
      List.set_set]

lemma Sim.writer_finishes (h : Sim A D kernels F e a) :
    ∃ e', (engine A D kernels grow).Run (fun _ act => act.OfWriter) e e' ∧ e'.writer = .idle ∧
      e'.readers = e.readers := by
  have hw := h.writer
  cases hk : e.writer with
  | idle => exact ⟨e, Machine.Run.refl e, hk, rfl⟩
  | creating key p =>
    rw [hk] at hw
    obtain ⟨x, heap, hs, -⟩ := Prog.wp_steps hw.2
    exact ⟨{ e with
      heap := heap
      loaders := Function.update e.loaders key (some ⟨0, "", x⟩)
      writer := .idle },
      (writer_run (write_creating key) hs hk rfl).snoc (a := .publish) trivial rfl, rfl, rfl⟩
  | syncing key gen p =>
    rw [hk] at hw
    obtain ⟨l, m, segs, faults, ha, -, -, hw⟩ := hw
    obtain ⟨x, heap, hs, -⟩ := Prog.wp_steps hw
    cases hl : e.loaders key with
    | none =>
      rw [h.loader_none hl] at ha
      cases ha
    | some l' =>
      refine ⟨{ e with
        heap := heap
        loaders := Function.update e.loaders key (some (l'.publish gen x))
        writer := .idle
        history := e.history ++ [.synced key x.loaded x.err.isSome] },
        (writer_run (write_syncing key gen) hs hk rfl).snoc (a := .publish) trivial ?_, rfl, rfl⟩
      simp only [engine, Engine.step, Engine.publish, hl, Option.map_some]

/-- The call `i` runs to its end while nothing else moves. -/
def Engine.Finishes (A : Arith) (D : Decoder) (kernels : Kernels) (grow : Kind → ℕ → ℕ → ℕ)
    (e : Engine) (i : ℕ) : Prop :=
  ∃ e', (engine A D kernels grow).Run (fun _ act => act.OfReader i) e e' ∧
    e'.readers[i]? = some .returned ∧ e'.writer = e.writer

lemma Sim.scanning_finishes (h : Sim A D kernels F e a) {i : ℕ} {p : Cmd Answer}
    (hr : e.readers[i]? = some (.scanning p)) : e.Finishes A D kernels grow i := by
  have hi : i < e.readers.length := (List.getElem?_eq_some_iff.mp hr).1
  obtain ⟨c, hc, x, rfl, hx⟩ := exists_of_forall₂ h.readers hr
  have hs := Prog.result_steps (View.only_sub e.heap.view F) hx
  refine ⟨{ e with
    readers := e.readers.set i .returned
    history := e.history ++ [.answered i x] },
    (scanning_run hs hr rfl).snoc (a := .answer i) rfl ?_, List.getElem?_set_self hi, rfl⟩
  simp only [engine, Engine.step, Engine.answer, List.getElem?_set_self hi, List.set_set]

/-- One step of the call, and then it finishes. -/
lemma Engine.Finishes.head {i : ℕ} (act : Action) (hact : act.OfReader i)
    (hs : e.step A D kernels grow act = some e') (hw : e'.writer = e.writer)
    (h : e'.Finishes A D kernels grow i) : e.Finishes A D kernels grow i := by
  obtain ⟨e'', hrun, hret, hw'⟩ := h
  exact ⟨e'', Relation.ReflTransGen.head ⟨act, hact, hs⟩ hrun, hret, hw'.trans hw⟩

lemma Sim.found_finishes (h : Sim A D kernels F e a) {i : ℕ} {req : Request}
    (hr : e.readers[i]? = some (.found req)) : e.Finishes A D kernels grow i := by
  have hi : i < e.readers.length := (List.getElem?_eq_some_iff.mp hr).1
  obtain ⟨c, -, -, hl⟩ := exists_of_forall₂ h.readers hr
  obtain ⟨l, hl⟩ := Option.isSome_iff_exists.mp hl
  have hs : e.load A i RangeOrder.stored = some (e.setReader i (.scanning (Search A RangeOrder.stored
      l.table req.column req.Vector req.TopK .cosine req.Filter))) := by
    simp only [Engine.load, hr, hl, Option.map_some]
  obtain ⟨a', -, F', hF'⟩ := h.load hs
  exact Engine.Finishes.head (.load i RangeOrder.stored) rfl hs rfl
    (hF'.scanning_finishes (List.getElem?_set_self hi))

lemma Sim.asked_finishes (h : Sim A D kernels F e a) {i : ℕ} {req : Request}
    (hr : e.readers[i]? = some (.asked req)) (hfree : e.locked = false) :
    e.Finishes A D kernels grow i := by
  have hi : i < e.readers.length := (List.getElem?_eq_some_iff.mp hr).1
  have hs : e.lookup i = some (e.setReader i (e.looked req)) := by
    simp only [Engine.lookup, hr, hfree, Bool.false_eq_true, if_false]
  obtain ⟨a', -, F', hF'⟩ := h.lookup hs
  refine Engine.Finishes.head (.lookup i) rfl hs rfl ?_
  have hset : (e.setReader i (e.looked req)).readers[i]? = some (e.looked req) :=
    List.getElem?_set_self hi
  revert hset hF'
  generalize e.setReader i (e.looked req) = e'
  unfold Engine.looked
  split
  · exact fun hF' hset => hF'.scanning_finishes hset
  · exact fun hF' hset => hF'.found_finishes hset

/-- **No goroutine panics, and none waits for another one** but for the mutex: in every
reachable state the writer can finish on its own, and so can every call of `Query`
unless it stands before the held mutex. -/
theorem engine_wait_free (h : (engine A D kernels grow).Reachable e) :
    (∃ e', (engine A D kernels grow).Run (fun _ act => act.OfWriter) e e' ∧ e'.writer = .idle ∧
      e'.readers = e.readers) ∧
    ∀ i r, e.readers[i]? = some r → (r.asking && e.locked) = false →
      e.Finishes A D kernels grow i := by
  obtain ⟨a, -, F, hF⟩ := sim_reachable h
  refine ⟨hF.writer_finishes, fun i r hr hfree => ?_⟩
  cases r with
  | asked req => exact hF.asked_finishes hr hfree
  | found req => exact hF.found_finishes hr
  | scanning p => exact hF.scanning_finishes hr
  | returned => exact ⟨e, Machine.Run.refl e, hr, rfl⟩

/-- A query in the middle of its scan, next to a pass in the middle of a segment. -/
theorem engine_wait_free_demo : ∃ e, demoEngine.Reachable e ∧
    e.Finishes demoArith demoDecoder demoKernels (fun _ _ n => n) 0 := by
  obtain ⟨e, he, hr⟩ := Machine.exec_exists demoEngine anyStep demoEngine.init
    scanDuringSync (fun e => (e.readers[0]?.any fun r => !r.asking) = true) (by decide +kernel)
  obtain ⟨r, hr, hasks⟩ := Option.any_eq_true .. |>.mp hr
  obtain ⟨-, h⟩ := engine_wait_free he
  refine ⟨e, he, h 0 r hr ?_⟩
  rw [Bool.not_eq_true'] at hasks
  rw [hasks, Bool.false_and]

end Progress

end OnHeap

end CloudyNeigh.Query
