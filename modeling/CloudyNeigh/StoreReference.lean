import CloudyNeigh.RangeRead
import CloudyNeigh.Versioned

/-!
# What a store is for

The calls of the `Store` interface on a reference store: the versioned cells that the
protocols are verified against, with the text of the generation that each `Put` returned.
A text is canonical if a store returns it; a condition may spell a generation differently.
-/
namespace CloudyNeigh.ObjectStore
open RecordIO Listing Versioned
open LocalStore (Condition)

inductive StoreRequest
  | stat (key : Bytes)
  | get (key : Bytes)
  | readRange (key : Bytes) (offset length : Int64)
  | exists (key : Bytes)
  | put (key data : Bytes) (cond : Condition)
  | delete (key : Bytes)
  | list (pfx startAfter : Bytes) (limit : ℤ)
  deriving DecidableEq, Repr

inductive StoreReply
  | object (o : Object)
  | data (data : Bytes) (o : Object)
  | found (b : Bool)
  | generation (g : Bytes)
  | deleted
  | objects (objs : List Object)
  | failed (e : StoreErr)
  | panicked
  deriving DecidableEq, Repr

abbrev StoreEvent := StoreRequest × StoreReply

def StoreReply.ofExcept {α : Type*} (f : α → StoreReply) : Except StoreErr α → StoreReply
  | .ok a => f a
  | .error e => .failed e

structure Version where
  data : Bytes
  generation : Bytes
  deriving DecidableEq, Repr

def Version.object (key : Bytes) (v : Version) : Object := ⟨key, v.generation, v.data.length⟩

/-- Put number `n` was a put of the key and returned the text that stand at `issued[n]`. -/
structure Shelf where
  cells : Cells Bytes Bytes := {}
  issued : List (Bytes × Bytes) := []

/-- What the reference store shows under a key. -/
def Shelf.version (s : Shelf) (key : Bytes) : Option Version :=
  (s.cells.cell key).bind fun c => s.issued[c.2]?.map fun i => ⟨c.1, i.2⟩

/-- The condition of a `Put`; `canon` reads the text of a generation. -/
def Shelf.Admits (canon : Bytes → Option Bytes) (s : Shelf) (key : Bytes) (cond : Condition) :
    Prop :=
  if cond.Absent then s.cells.holds key none = true
  else cond.GenerationMatch = [] ∨ ∃ n g, canon cond.GenerationMatch = some g ∧
    s.issued[n]? = some (key, g) ∧ s.cells.holds key (some n) = true

def statReply (key : Bytes) : Option Version → StoreReply
  | none => .failed (.notFound key)
  | some v => .object (v.object key)

def getReply (key : Bytes) : Option Version → StoreReply
  | none => .failed (.notFound key)
  | some v => .data v.data (v.object key)

def rangeReply (key : Bytes) (offset length : Int64) : Option Version → StoreReply
  | none =>
    if offset < 0 ∨ length < 0 then .failed (.invalidRange offset length)
    else .failed (.notFound key)
  | some v =>
    if offset < 0 ∨ length < 0 then .failed (.invalidRange offset length)
    else
      match rangeOf v.data offset.toInt length.toInt with
      | none => .failed (.offsetExceeds offset v.data.length)
      | some bytes => .data bytes (v.object key)

lemma rangeReply_some (key : Bytes) (offset length : Int64) (v : Version) :
    rangeReply key offset length (some v) =
      if offset < 0 ∨ length < 0 then .failed (.invalidRange offset length)
      else if v.data.length < offset.toInt then .failed (.offsetExceeds offset v.data.length)
      else .data ((v.data.take (min (offset.toInt + length.toInt) v.data.length).toNat).drop
        offset.toInt.toNat) (v.object key) := by
  unfold rangeReply
  dsimp only
  split
  · rfl
  · rename_i hneg
    rw [lt_zero_iff, lt_zero_iff] at hneg
    by_cases hexc : (v.data.length : ℤ) < offset.toInt
    · rw [rangeOf, if_pos (Or.inr (Or.inr hexc)), if_pos hexc]
    · rw [rangeOf_eq (by omega) (by omega) (by omega), if_neg hexc]

/-- One call of the reference store. A `Put` may return any text that is canonical and that
no `Put` of the key has returned before. -/
inductive Shelf.Step (canon : Bytes → Option Bytes) (s : Shelf) :
    StoreRequest → StoreReply → Shelf → Prop
  | stat (key : Bytes) : s.Step canon (.stat key) (statReply key (s.version key)) s
  | get (key : Bytes) : s.Step canon (.get key) (getReply key (s.version key)) s
  | readRange (key : Bytes) (offset length : Int64) :
    s.Step canon (.readRange key offset length) (rangeReply key offset length (s.version key)) s
  | exists (key : Bytes) : s.Step canon (.exists key) (.found (s.version key).isSome) s
  | put (key data : Bytes) (cond : Condition) (g : Bytes) (admits : s.Admits canon key cond)
    (fresh : (key, g) ∉ s.issued) (canonical : canon g = some g) :
    s.Step canon (.put key data cond) (.generation g)
      ⟨s.cells.put key data, s.issued ++ [(key, g)]⟩
  | refused (key data : Bytes) (cond : Condition) (refuses : ¬ s.Admits canon key cond)
    (known : cond.Absent = false → canon cond.GenerationMatch ≠ none) :
    s.Step canon (.put key data cond) (.failed (.preconditionFailed key)) s
  | malformed (key data : Bytes) (cond : Condition) (matching : cond.Absent = false)
    (given : cond.GenerationMatch ≠ []) (unknown : canon cond.GenerationMatch = none) :
    s.Step canon (.put key data cond) (.failed (.malformedGeneration key cond.GenerationMatch)) s
  | delete (key : Bytes) (present : s.version key ≠ none) :
    s.Step canon (.delete key) .deleted { s with cells := s.cells.delete key }
  | absent (key : Bytes) (missing : s.version key = none) :
    s.Step canon (.delete key) (.failed (.notFound key)) s
  | list (pfx startAfter : Bytes) (limit : ℤ) (objs : List Object)
    (listing : IsListing (fun key => (s.version key).map (Version.object key))
      (Selected pfx startAfter) limit (objs.map fun o => (o.Key, o))) :
    s.Step canon (.list pfx startAfter limit) (.objects objs) s

/-- The reference store answers the calls in order as recorded. -/
inductive Shelf.Run (canon : Bytes → Option Bytes) : List StoreEvent → Shelf → Prop
  | nil : Shelf.Run canon [] {}
  | snoc {trace : List StoreEvent} {s t : Shelf} {e : StoreEvent} (run : Shelf.Run canon trace s)
    (step : s.Step canon e.1 e.2 t) : Shelf.Run canon (trace ++ [e]) t

/-- What is asked of a call: sizes and the end of a range are `int64`, and a condition is
of one kind. -/
def StoreRequest.Modest : StoreRequest → Prop
  | .put _ data cond => data.length < 2 ^ 63 ∧ (cond.Absent = true → cond.GenerationMatch = [])
  | .readRange _ offset length => offset.toInt + length.toInt < 2 ^ 63
  | _ => True

instance : DecidablePred StoreRequest.Modest := fun r => by
  cases r <;> unfold StoreRequest.Modest <;> infer_instance

structure Shelf.Wf (s : Shelf) : Prop where
  next : s.cells.next = s.issued.length
  named : ∀ key data n, s.cells.cell key = some (data, n) → ∃ g, s.issued[n]? = some (key, g)
  once : s.issued.Nodup

section Steps
variable {canon : Bytes → Option Bytes} {s t : Shelf} {key data g : Bytes} {cond : Condition}

lemma Shelf.Wf.empty : Shelf.Wf {} := ⟨rfl, (fun _ _ _ h => nomatch h), List.nodup_nil⟩

lemma Shelf.Wf.version_some (h : s.Wf) {n : ℕ} (hc : s.cells.cell key = some (data, n)) :
    ∃ g, s.issued[n]? = some (key, g) ∧ s.version key = some ⟨data, g⟩ := by
  obtain ⟨g, hg⟩ := h.named key data n hc
  exact ⟨g, hg, by simp [Shelf.version, hc, hg]⟩

lemma Shelf.Wf.version_none (h : s.Wf) : s.version key = none ↔ s.cells.cell key = none := by
  constructor
  · intro hv
    by_contra hc
    obtain ⟨⟨data, n⟩, hc⟩ := Option.ne_none_iff_exists'.mp hc
    obtain ⟨g, -, hsome⟩ := h.version_some hc
    rw [hv] at hsome
    cases hsome
  · intro hc
    rw [Shelf.version, hc, Option.bind_none]

lemma Shelf.Wf.issued_of_version (h : s.Wf) {v : Version} (hv : s.version key = some v) :
    (key, v.generation) ∈ s.issued := by
  obtain ⟨⟨data, n⟩, hc⟩ := Option.ne_none_iff_exists'.mp fun hnone =>
    Option.some_ne_none v (hv.symm.trans (h.version_none.mpr hnone))
  obtain ⟨g, hg, hv'⟩ := h.version_some hc
  rw [hv, Option.some.injEq] at hv'
  rw [hv']
  exact List.mem_of_getElem? hg

lemma Shelf.Wf.put (h : s.Wf) (data : Bytes) (fresh : (key, g) ∉ s.issued) :
    Shelf.Wf ⟨s.cells.put key data, s.issued ++ [(key, g)]⟩ := by
  refine ⟨?_, fun key' data' n hc => ?_, ?_⟩
  · simp [h.next]
  · by_cases hk : key' = key
    · subst hk
      simp only [Cells.put_self, Option.some.injEq, Prod.mk.injEq] at hc
      refine ⟨g, ?_⟩
      rw [← hc.2, h.next, List.getElem?_concat_length]
    · simp only [Cells.put_ne hk] at hc
      obtain ⟨g', hg'⟩ := h.named key' data' n hc
      exact ⟨g', by rw [List.getElem?_append_left (List.getElem?_eq_some_iff.mp hg').1, hg']⟩
  · exact List.nodup_append.mpr ⟨h.once, List.nodup_singleton _, fun x hx y hy hxy =>
      fresh (List.mem_singleton.mp hy ▸ hxy ▸ hx)⟩

lemma Shelf.Wf.delete (h : s.Wf) : Shelf.Wf { s with cells := s.cells.delete key } := by
  refine ⟨h.next, fun key' data' n hc => ?_, h.once⟩
  by_cases hk : key' = key
  · subst hk
    simp at hc
  · simp only [Cells.delete_ne hk] at hc
    exact h.named key' data' n hc

lemma Shelf.Wf.version_put (h : s.Wf) (key data g : Bytes) :
    Shelf.version ⟨s.cells.put key data, s.issued ++ [(key, g)]⟩ =
      Function.update s.version key (some ⟨data, g⟩) := by
  funext key'
  by_cases hk : key' = key
  · subst hk
    simp [Shelf.version, h.next]
  · rw [Function.update_of_ne hk]
    simp only [Shelf.version, Cells.put_ne hk]
    cases hc : s.cells.cell key' with
    | none => rfl
    | some c =>
      obtain ⟨g', hg'⟩ := h.named key' c.1 c.2 hc
      rw [Option.bind_some, Option.bind_some,
        List.getElem?_append_left (List.getElem?_eq_some_iff.mp hg').1]

lemma Shelf.version_delete (s : Shelf) (key : Bytes) :
    Shelf.version { s with cells := s.cells.delete key } = Function.update s.version key none := by
  funext key'
  by_cases hk : key' = key
  · subst hk
    simp [Shelf.version]
  · rw [Function.update_of_ne hk]
    simp [Shelf.version, Cells.delete_ne hk]

/-- A condition can be checked on the text of the present generation, for a generation is
issued once. -/
lemma Shelf.Wf.admits_iff (h : s.Wf) : s.Admits canon key cond ↔
    if cond.Absent then s.version key = none
    else cond.GenerationMatch = [] ∨
      ∃ v, s.version key = some v ∧ canon cond.GenerationMatch = some v.generation := by
  unfold Shelf.Admits
  split
  · rw [Cells.holds_none, h.version_none]
  · refine or_congr_right ⟨?_, ?_⟩
    · rintro ⟨n, g, hcanon, hissued, hholds⟩
      have hn : (s.cells.cell key).map Prod.snd = some n := by simpa [Cells.holds] using hholds
      obtain ⟨⟨data, n'⟩, hc, rfl⟩ := Option.map_eq_some_iff.mp hn
      obtain ⟨g', hg', hv⟩ := h.version_some hc
      rw [hissued, Option.some.injEq, Prod.mk.injEq] at hg'
      exact ⟨_, hv, by rw [hcanon, hg'.2]⟩
    · rintro ⟨v, hv, hcanon⟩
      obtain ⟨⟨data, n⟩, hc⟩ := Option.ne_none_iff_exists'.mp fun hnone =>
        Option.some_ne_none v (hv.symm.trans (h.version_none.mpr hnone))
      obtain ⟨g', hg', hv'⟩ := h.version_some hc
      rw [hv, Option.some.injEq] at hv'
      exact ⟨n, g', by rw [hcanon, hv'], hg', by simp [Cells.holds, hc]⟩

lemma Shelf.Step.wf {req : StoreRequest} {reply : StoreReply} (h : s.Step canon req reply t)
    (hs : s.Wf) : t.Wf := by
  cases h with
  | put key data cond g admits fresh canonical => exact hs.put data fresh
  | delete key present => exact hs.delete
  | stat | get | readRange | «exists» | refused | malformed | absent | list => exact hs

lemma Shelf.Run.wf {trace : List StoreEvent} (h : Shelf.Run canon trace s) : s.Wf := by
  induction h with
  | nil => exact .empty
  | snoc run step ih => exact step.wf ih

end Steps

/-- The call changed what is stored under the key. -/
def StoreEvent.Changes (key : Bytes) : StoreEvent → Prop
  | (.put k _ _, .generation _) => k = key
  | (.delete k, .deleted) => k = key
  | _ => False

/-- The key and the generation of a `Put` that succeeded. -/
def StoreEvent.issue : StoreEvent → Option (Bytes × Bytes)
  | (.put key _ _, .generation g) => some (key, g)
  | _ => none

/-- The last change of the key was a `Put` of this version. -/
def LastPut (trace : List StoreEvent) (key : Bytes) (v : Version) : Prop :=
  ∃ before after cond, trace = before ++ (.put key v.data cond, .generation v.generation) :: after ∧
    ∀ e ∈ after, ¬ StoreEvent.Changes key e

/-- **Compare and swap**: a `Put` that succeeds returns a generation that no `Put` of its key
has returned before, and if it asked for a generation, then the last change of the key before
it was the `Put` that returned this generation. -/
def Swaps (canon : Bytes → Option Bytes) (trace : List StoreEvent) : Prop :=
  ∀ before after key data cond g,
    trace = before ++ (.put key data cond, .generation g) :: after →
    (key, g) ∉ before.filterMap StoreEvent.issue ∧
    (cond.Absent = false → cond.GenerationMatch ≠ [] →
      ∃ v, canon cond.GenerationMatch = some v.generation ∧ LastPut before key v)

section Traces
variable {canon : Bytes → Option Bytes} {s t : Shelf} {trace : List StoreEvent} {key : Bytes}

lemma LastPut.snoc {v : Version} {e : StoreEvent} (h : LastPut trace key v)
    (he : ¬ StoreEvent.Changes key e) : LastPut (trace ++ [e]) key v := by
  obtain ⟨before, after, cond, rfl, hafter⟩ := h
  refine ⟨before, after ++ [e], cond, by simp, fun e' he' => ?_⟩
  rcases List.mem_append.mp he' with hmem | hmem
  · exact hafter e' hmem
  · rw [List.mem_singleton.mp hmem]
    exact he

/-- A step that does not change the key leaves its version alone. -/
lemma Shelf.Step.version {e : StoreEvent} (h : s.Step canon e.1 e.2 t) (hs : s.Wf)
    (he : ¬ StoreEvent.Changes key e) : t.version key = s.version key := by
  obtain ⟨req, reply⟩ := e
  cases h with
  | put key' data cond g admits fresh canonical =>
    rw [hs.version_put, Function.update_of_ne fun hk => he hk.symm]
  | delete key' present =>
    rw [Shelf.version_delete, Function.update_of_ne fun hk => he hk.symm]
  | stat | get | readRange | «exists» | refused | malformed | absent | list => rfl

lemma Shelf.Step.lastPut {e : StoreEvent} {v : Version} (h : s.Step canon e.1 e.2 t) (hs : s.Wf)
    (hv : t.version key = some v) (hold : s.version key = some v → LastPut trace key v) :
    LastPut (trace ++ [e]) key v := by
  by_cases he : StoreEvent.Changes key e
  · obtain ⟨req, reply⟩ := e
    cases h with
    | put key' data cond g admits fresh canonical =>
      obtain rfl : key' = key := he
      rw [hs.version_put, Function.update_self, Option.some.injEq] at hv
      subst hv
      exact ⟨trace, [], cond, rfl, fun e he => nomatch he⟩
    | delete key' present =>
      obtain rfl : key' = key := he
      rw [Shelf.version_delete, Function.update_self] at hv
      cases hv
    | stat | get | readRange | «exists» | refused | malformed | absent | list => exact he.elim
  · exact (hold ((h.version hs he).symm.trans hv)).snoc he

/-- What the reference store shows goes back to the last change of the key. -/
lemma Shelf.Run.lastPut (h : Shelf.Run canon trace s) {v : Version} (hv : s.version key = some v) :
    LastPut trace key v := by
  induction h generalizing v with
  | nil => cases hv
  | snoc run step ih => exact step.lastPut run.wf hv ih

lemma Shelf.Run.issued (h : Shelf.Run canon trace s) :
    s.issued = trace.filterMap StoreEvent.issue := by
  induction h with
  | nil => rfl
  | @snoc trace s t e run step ih =>
    obtain ⟨req, reply⟩ := e
    rw [List.filterMap_append, ← ih]
    cases step with
    | put key data cond g admits fresh canonical => rfl
    | stat | get | readRange | «exists» | refused | malformed | delete | absent | list =>
      exact (List.append_nil _).symm

lemma Shelf.Step.swaps {data g : Bytes} {cond : Condition} (hr : Shelf.Run canon trace s)
    (h : s.Step canon (.put key data cond) (.generation g) t) :
    (key, g) ∉ trace.filterMap StoreEvent.issue ∧
    (cond.Absent = false → cond.GenerationMatch ≠ [] →
      ∃ v, canon cond.GenerationMatch = some v.generation ∧ LastPut trace key v) := by
  cases h with
  | put key data cond g admits fresh canonical =>
    refine ⟨by rwa [← hr.issued], fun habs hne => ?_⟩
    rw [hr.wf.admits_iff, if_neg (by simp [habs])] at admits
    obtain ⟨v, hv, hcanon⟩ := admits.resolve_left hne
    exact ⟨v, hcanon, hr.lastPut hv⟩

theorem Shelf.Run.swaps (h : Shelf.Run canon trace s) : Swaps canon trace := by
  induction h with
  | nil =>
    intro before after key data cond g htrace
    exact absurd htrace.symm (by simp)
  | @snoc trace s t e run step ih =>
    intro before after key data cond g htrace
    rcases List.eq_nil_or_concat after with rfl | ⟨after, last, rfl⟩
    · obtain ⟨rfl, he⟩ := List.append_inj' htrace rfl
      obtain rfl := List.singleton_inj.mp he
      exact step.swaps run
    · rw [List.concat_eq_append, ← List.cons_append, ← List.append_assoc] at htrace
      exact ih before after key data cond g (List.append_inj' htrace rfl).1

end Traces

end CloudyNeigh.ObjectStore
