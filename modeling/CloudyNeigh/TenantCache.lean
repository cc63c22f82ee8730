import CloudyNeigh.TenantCatalogRuns

/-!
# The catalog cache

`CatalogCache` beside any calls of `CreateNamespace` and `DeleteNamespace`. A lookup
that misses is three steps, and other goroutines may come between them: the look into
the cache under its mutex, the read of `ns.json`, and the store of what was read, under
the mutex again. The ticks of `Run` are calls of `refresh`.
-/
namespace CloudyNeigh.Tenant
open Naming Transition Versioned
open ReadModifyWrite (initial)

/-- A catalog with the generation of the object it was read from. -/
structure Snapshot where
  catalog : TenantCatalog
  generation : Option ℕ

def readCatalogOrEmpty (store : CatalogStore) : Snapshot :=
  match store.cell () with
  | none => ⟨fun _ => none, none⟩
  | some (catalog, generation) => ⟨catalog, some generation⟩

inductive CacheOp
  | lookupNamespace (name : String)
  | refresh
  deriving DecidableEq, Repr

inductive CacheAnswer
  | found (m : NamespaceMetadata)
  | refreshed (read : Snapshot)
  | namespaceNotFound
  | namespaceDeleted
  | invalidName (e : NameErr)
  | store

/-- `store` holds what was read and is not yet in the cache. -/
inductive CachePc
  | lookupCached
  | read
  | store (read : Snapshot)
  | returned (a : CacheAnswer)

/-- `start` is the position in the past at which the call was made. -/
structure CacheCall where
  op : CacheOp
  start : ℕ
  pc : CachePc

def CacheOp.first : CacheOp → CachePc
  | .refresh => .read
  | .lookupNamespace name =>
    match ValidateName name with
    | .error e => .returned (.invalidName e)
    | .ok _ => .lookupCached

def answerEntry (m : NamespaceMetadata) : CacheAnswer :=
  if m.DeletedAt ≠ 0 then .namespaceDeleted else .found m

/-- What a call returns for the catalog that it has read. -/
def CacheOp.answer (op : CacheOp) (read : Snapshot) : CacheAnswer :=
  match op with
  | .refresh => .refreshed read
  | .lookupNamespace name =>
    match read.catalog name with
    | none => .namespaceNotFound
    | some m => answerEntry m

/-- `lookupCached` with what `LookupNamespace` does next. -/
def lookupCached (cache : Option Snapshot) (name : String) : CachePc :=
  match cache.bind fun read => read.catalog name with
  | some m => .returned (answerEntry m)
  | none => .read

/-- `past` is what each state of the store so far would have answered to a read, the
present state last. -/
structure CacheState where
  tenant : State
  cache : Option Snapshot
  calls : ℕ → Option CacheCall
  past : List Snapshot

/-- The position of the present state in the past. -/
def CacheState.now (s : CacheState) : ℕ := s.past.length - 1

/-- One step of a call: the cache after it, and where the call stands. -/
def CacheState.stepCall (s : CacheState) (c : CacheCall) (ok : Bool) :
    Option (Option Snapshot × CachePc) :=
  match c.pc, c.op, ok with
  | .lookupCached, .lookupNamespace name, true => some (s.cache, lookupCached s.cache name)
  | .read, _, true => some (s.cache, .store (readCatalogOrEmpty s.tenant.store))
  | .read, _, false => some (s.cache, .returned .store)
  | .store read, op, true => some (some read, .returned (op.answer read))
  | _, _, _ => none

inductive CacheAction
  | tenant (a : Action)
  | call (id : ℕ) (op : CacheOp)
  | step (id : ℕ) (ok : Bool)
  | invalidate
  deriving DecidableEq, Repr

def CacheState.step (s : CacheState) : CacheAction → Option CacheState
  | .tenant a =>
    match Tenant.step s.tenant a with
    | none => none
    | some t => some { s with tenant := t, past := s.past ++ [readCatalogOrEmpty t.store] }
  | .call id op =>
    match s.calls id with
    | some _ => none
    | none => some { s with calls := Function.update s.calls id (some ⟨op, s.now, op.first⟩) }
  | .step id ok =>
    match s.calls id with
    | none => none
    | some c =>
      match s.stepCall c ok with
      | none => none
      | some (cache, pc) =>
        some { s with cache := cache, calls := Function.update s.calls id (some { c with pc := pc }) }
  | .invalidate => some { s with cache := none }

def cacheMachine (before : Option TenantCatalog) : Machine CacheState CacheAction where
  init :=
    { tenant := (machine before).init
      cache := none
      calls := fun _ => none
      past := [readCatalogOrEmpty (initial before)] }
  step := CacheState.step

@[simp] lemma readCatalogOrEmpty_catalog (store : CatalogStore) :
    (readCatalogOrEmpty store).catalog = entryOf store := by
  funext name
  unfold readCatalogOrEmpty entryOf
  cases store.cell () <;> rfl

/-- The later catalog has every entry of the earlier one, deleted since or not. -/
def Snapshot.Le (p q : Snapshot) : Prop :=
  ∀ name m, p.catalog name = some m → ∃ m', q.catalog name = some m' ∧ Entry.Le m m'

lemma Snapshot.Le.refl (p : Snapshot) : p.Le p := fun _ m h => ⟨m, h, .refl m⟩

lemma Snapshot.Le.trans {p q r : Snapshot} (h : p.Le q) (h' : q.Le r) : p.Le r := by
  intro name m hm
  obtain ⟨m', hm', hle⟩ := h name m hm
  obtain ⟨m'', hm'', hle'⟩ := h' name m' hm'
  exact ⟨m'', hm'', hle.trans hle'⟩

/-- A read at position `b` of the past or later gives `p`. -/
def Since (past : List Snapshot) (b : ℕ) (p : Snapshot) : Prop :=
  ∃ k, b ≤ k ∧ past[k]? = some p

/-- What the answers go back to: a cached entry to a catalog not older than `b`, and what a
call has read itself to a catalog not older than the call. -/
inductive AnswersFrom (past : List Snapshot) (b start : ℕ) : CacheOp → CacheAnswer → Prop
  | invalid (name : String) (e : NameErr) :
    AnswersFrom past b start (.lookupNamespace name) (.invalidName e)
  | failed (op : CacheOp) : AnswersFrom past b start op .store
  | refreshed (p : Snapshot) (h : Since past start p) :
    AnswersFrom past b start .refresh (.refreshed p)
  | entry (name : String) (p : Snapshot) (m : NamespaceMetadata) (h : Since past b p)
    (hm : p.catalog name = some m) : AnswersFrom past b start (.lookupNamespace name) (answerEntry m)
  | missing (name : String) (p : Snapshot) (h : Since past start p)
    (hm : p.catalog name = none) : AnswersFrom past b start (.lookupNamespace name) .namespaceNotFound

section Past
variable {past more : List Snapshot} {b b' start : ℕ} {p : Snapshot}

lemma Since.append (h : Since past b p) : Since (past ++ more) b p := by
  obtain ⟨k, hb, hk⟩ := h
  exact ⟨k, hb, by rw [List.getElem?_append_left (List.getElem?_eq_some_iff.mp hk).1, hk]⟩

lemma Since.mono (h : Since past b p) (hb : b' ≤ b) : Since past b' p := by
  obtain ⟨k, hk, hp⟩ := h
  exact ⟨k, hb.trans hk, hp⟩

lemma AnswersFrom.append {op : CacheOp} {a : CacheAnswer} (h : AnswersFrom past b start op a) :
    AnswersFrom (past ++ more) b start op a := by
  cases h with
  | invalid name e => exact .invalid name e
  | failed op => exact .failed op
  | refreshed p h => exact .refreshed p h.append
  | entry name p m h hm => exact .entry name p m h.append hm
  | missing name p h hm => exact .missing name p h.append hm

lemma CacheOp.answers (op : CacheOp) (h : Since past start p) (hb : b ≤ start) :
    AnswersFrom past b start op (op.answer p) := by
  cases op with
  | refresh => exact .refreshed p h
  | lookupNamespace name =>
    unfold CacheOp.answer
    dsimp only
    cases hm : p.catalog name with
    | none => exact .missing name p h hm
    | some m => exact .entry name p m (h.mono hb) hm

end Past

/-- What holds of a call: what it has read is not older than the call or than `b`, and
unless it is one of the `old` ones its answer goes back no further. -/
structure CacheCall.Ok (past : List Snapshot) (b : ℕ) (old : Prop) (c : CacheCall) : Prop where
  started : c.start < past.length
  recent : old ∨ b ≤ c.start
  read : ∀ p, c.pc = .store p → Since past (max b c.start) p
  answer : ∀ a, c.pc = .returned a → old ∨ AnswersFrom past b c.start c.op a

/-- The state of the cache relative to a position `b` of the past, from which on nothing
older than `b` is cached or on its way into the cache. -/
structure CacheState.Fresh (b : ℕ) (old : ℕ → Prop) (s : CacheState) : Prop where
  tenant : Inv s.tenant
  present : s.past.getLast? = some (readCatalogOrEmpty s.tenant.store)
  kept : s.past.Pairwise Snapshot.Le
  reached : b < s.past.length
  cached : ∀ p, s.cache = some p → Since s.past b p
  calls : ∀ i c, s.calls i = some c → c.Ok s.past b (old i)

section Step
variable {b : ℕ} {old : ℕ → Prop} {s t : CacheState} {before : Option TenantCatalog}

lemma CacheState.Fresh.le_now (h : s.Fresh b old) : b ≤ s.now := Nat.le_sub_one_of_lt h.reached

lemma CacheState.Fresh.at_now (h : s.Fresh b old) :
    s.past[s.now]? = some (readCatalogOrEmpty s.tenant.store) := by
  rw [CacheState.now, ← List.getLast?_eq_getElem?, h.present]

lemma CacheState.Fresh.now_lt (h : s.Fresh b old) : s.now < s.past.length :=
  (List.getElem?_eq_some_iff.mp h.at_now).1

/-- What the present catalog keeps of a past one. -/
lemma CacheState.Fresh.le_present (h : s.Fresh b old) {p : Snapshot} (hp : p ∈ s.past) :
    p.Le (readCatalogOrEmpty s.tenant.store) := by
  obtain ⟨l, hl⟩ := List.getLast?_eq_some_iff.mp h.present
  have hk := h.kept
  rw [hl, List.mem_append, List.mem_singleton] at hp
  rw [hl, List.pairwise_append] at hk
  rcases hp with hp | rfl
  · exact hk.2.2 p hp _ (List.mem_singleton_self _)
  · exact .refl _

lemma CacheState.Fresh.change (h : s.Fresh b old) {tenant : State}
    (hc : Change s.tenant tenant) :
    CacheState.Fresh b old
      { s with tenant := tenant, past := s.past ++ [readCatalogOrEmpty tenant.store] } := by
  refine ⟨hc.inv h.tenant, List.getLast?_concat .., ?_, ?_, ?_, ?_⟩
  · refine List.pairwise_append.mpr ⟨h.kept, List.pairwise_singleton .., fun p hp q hq => ?_⟩
    rw [List.mem_singleton.mp hq]
    refine (h.le_present hp).trans ?_
    intro name m hm
    rw [readCatalogOrEmpty_catalog] at hm ⊢
    exact hc.keeps name m hm
  · rw [List.length_append]
    exact Nat.lt_add_right _ h.reached
  · exact fun p hp => (h.cached p hp).append
  · intro i c hi
    obtain ⟨hstart, hrecent, hread, hanswer⟩ := h.calls i c hi
    refine ⟨?_, hrecent, fun p hp => (hread p hp).append, fun a ha =>
      (hanswer a ha).imp_right AnswersFrom.append⟩
    rw [List.length_append]
    exact Nat.lt_add_right _ hstart

/-- A step of one call leaves the store alone. -/
lemma CacheState.Fresh.goto (h : s.Fresh b old) {i : ℕ} {c : CacheCall} {cache : Option Snapshot}
    (hcache : ∀ p, cache = some p → Since s.past b p) (hc : c.Ok s.past b (old i)) :
    CacheState.Fresh b old
      { s with cache := cache, calls := Function.update s.calls i (some c) } := by
  refine ⟨h.tenant, h.present, h.kept, h.reached, hcache, fun j d hd => ?_⟩
  by_cases hj : j = i
  · subst hj
    simp only [Function.update_self, Option.some.injEq] at hd
    exact hd ▸ hc
  · simp only [Function.update_of_ne hj] at hd
    exact h.calls j d hd

lemma first_ok (h : s.Fresh b old) (op : CacheOp) (i : ℕ) :
    CacheCall.Ok s.past b (old i) ⟨op, s.now, op.first⟩ := by
  refine ⟨h.now_lt, Or.inr h.le_now, fun p hp => ?_, fun a ha => Or.inr ?_⟩
  · cases op with
    | refresh => cases hp
    | lookupNamespace name =>
      unfold CacheOp.first at hp
      dsimp only at hp
      split at hp <;> cases hp
  · cases op with
    | refresh => cases ha
    | lookupNamespace name =>
      unfold CacheOp.first at ha
      dsimp only at ha
      split at ha <;> cases ha
      exact .invalid name _

lemma CacheState.Fresh.lookup (h : s.Fresh b old) {i start : ℕ} {name : String}
    (hstart : start < s.past.length) (hrecent : old i ∨ b ≤ start) :
    CacheCall.Ok s.past b (old i) ⟨.lookupNamespace name, start, lookupCached s.cache name⟩ := by
  refine ⟨hstart, hrecent, fun p hp => ?_, fun a ha => Or.inr ?_⟩
  · change lookupCached s.cache name = _ at hp
    unfold lookupCached at hp
    split at hp <;> cases hp
  · change lookupCached s.cache name = _ at ha
    unfold lookupCached at ha
    split at ha <;> cases ha
    rename_i m hm
    obtain ⟨p, hp, hm⟩ := Option.bind_eq_some_iff.mp hm
    exact .entry name p m (h.cached p hp) hm

lemma CacheState.Fresh.stepCall (h : s.Fresh b old) {i : ℕ} {c : CacheCall}
    (hc : s.calls i = some c) {ok : Bool} {cache : Option Snapshot} {pc : CachePc}
    (hs : s.stepCall c ok = some (cache, pc)) :
    (∀ p, cache = some p → Since s.past b p) ∧
      CacheCall.Ok s.past b (old i) { c with pc := pc } := by
  obtain ⟨op, start, at'⟩ := c
  obtain ⟨hstart, hrecent, hread, -⟩ := h.calls i _ hc
  unfold CacheState.stepCall at hs
  dsimp only at hs hstart hrecent hread
  split at hs <;> cases hs
  · exact ⟨h.cached, h.lookup hstart hrecent⟩
  · refine ⟨h.cached, hstart, hrecent, fun p hp => ?_, fun a ha => nomatch ha⟩
    cases hp
    exact ⟨s.now, max_le h.le_now (Nat.le_sub_one_of_lt hstart), h.at_now⟩
  · exact ⟨h.cached, hstart, hrecent, (fun p hp => nomatch hp), fun a ha => Or.inr (by
      cases ha
      exact .failed op)⟩
  · rename_i p
    have hp := hread p rfl
    refine ⟨fun q hq => ?_, hstart, hrecent, (fun q hq => nomatch hq), fun a ha => ?_⟩
    · cases hq
      exact hp.mono (le_max_left ..)
    · cases ha
      exact hrecent.imp_right fun hb => op.answers (hp.mono (le_max_right ..)) hb

lemma CacheState.Fresh.step (h : s.Fresh b old) {a : CacheAction} (hs : s.step a = some t) :
    t.Fresh b old := by
  cases a with
  | tenant a =>
    simp only [CacheState.step] at hs
    split at hs <;> cases hs
    rename_i tenant ht
    exact h.change (step_change h.tenant ht)
  | call id op =>
    simp only [CacheState.step] at hs
    split at hs <;> cases hs
    exact h.goto h.cached (first_ok h op id)
  | step id ok =>
    simp only [CacheState.step] at hs
    split at hs
    · cases hs
    · rename_i c hc
      split at hs <;> cases hs
      rename_i cache pc hcall
      obtain ⟨hcache, hok⟩ := h.stepCall hc hcall
      exact h.goto hcache hok
  | invalidate =>
    cases hs
    exact ⟨h.tenant, h.present, h.kept, h.reached, (fun _ hp => nomatch hp), h.calls⟩

lemma fresh_reachable (h : (cacheMachine before).Reachable s) : s.Fresh 0 fun _ => False := by
  refine Machine.Reachable.invariant (P := CacheState.Fresh 0 fun _ => False) ?_
    (fun s a t hs hst => hs.step hst) h
  exact ⟨inv_reachable (Machine.Run.refl _), rfl, List.pairwise_singleton .., Nat.one_pos,
    (fun _ hp => nomatch hp), fun _ _ hc => nomatch hc⟩

/-- A call that has read `ns.json` and has not put it into the cache yet. -/
def CacheCall.holding (c : CacheCall) : Bool :=
  match c.pc with
  | .store _ => true
  | _ => false

/-- An empty cache that no call is about to fill counts as fresh. -/
lemma CacheState.Fresh.restart (h : s.Fresh b old) (hempty : s.cache = none)
    (hidle : ∀ i c, s.calls i = some c → c.holding = false) :
    s.Fresh s.now fun i => s.calls i ≠ none := by
  refine ⟨h.tenant, h.present, h.kept, h.now_lt, ?_, fun i c hc => ?_⟩
  · intro p hp
    rw [hempty] at hp
    cases hp
  · have hold : s.calls i ≠ none := by
      rw [hc]
      exact Option.some_ne_none c
    refine ⟨(h.calls i c hc).started, Or.inl hold, fun p hp => ?_, fun a _ => Or.inl hold⟩
    have hno := hidle i c hc
    rw [CacheCall.holding, hp] at hno
    cases hno

lemma past_step {a : CacheAction} (hs : s.step a = some t) : ∃ more, t.past = s.past ++ more := by
  cases a with
  | tenant a =>
    simp only [CacheState.step] at hs
    split at hs <;> cases hs
    exact ⟨_, rfl⟩
  | call id op =>
    simp only [CacheState.step] at hs
    split at hs <;> cases hs
    exact ⟨[], (List.append_nil _).symm⟩
  | step id ok =>
    simp only [CacheState.step] at hs
    split at hs
    · cases hs
    · split at hs <;> cases hs
      exact ⟨[], (List.append_nil _).symm⟩
  | invalidate =>
    cases hs
    exact ⟨[], (List.append_nil _).symm⟩

lemma past_run (hs : (cacheMachine before).Run anyStep s t) : ∃ more, t.past = s.past ++ more := by
  refine Machine.Run.preserves (P := fun t => ∃ more, t.past = s.past ++ more) ?_ hs
    ⟨[], (List.append_nil _).symm⟩
  rintro u a v ⟨more, hu⟩ - hv
  obtain ⟨more', hv⟩ := past_step hv
  exact ⟨more ++ more', by rw [hv, hu, List.append_assoc]⟩

/-- Two positions of the past. -/
lemma CacheState.Fresh.le_at (h : s.Fresh b old) {j k : ℕ} {p q : Snapshot}
    (hp : s.past[j]? = some p) (hq : s.past[k]? = some q) (hjk : j ≤ k) : p.Le q := by
  obtain ⟨hj, rfl⟩ := List.getElem?_eq_some_iff.mp hp
  obtain ⟨hk, rfl⟩ := List.getElem?_eq_some_iff.mp hq
  rcases hjk.lt_or_eq with hlt | rfl
  · exact List.pairwise_iff_getElem.mp h.kept j k hj hk hlt
  · exact .refl _

lemma answerEntry_found {m m' : NamespaceMetadata} (h : answerEntry m = .found m') :
    m = m' ∧ m.DeletedAt = 0 := by
  unfold answerEntry at h
  split at h <;> cases h
  exact ⟨rfl, not_not.mp ‹_›⟩

lemma answerEntry_ne_notFound (m : NamespaceMetadata) : answerEntry m ≠ .namespaceNotFound := by
  unfold answerEntry
  split <;> exact fun h => nomatch h

lemma answerEntry_deleted {m : NamespaceMetadata} (h : answerEntry m = .namespaceDeleted) :
    m.DeletedAt ≠ 0 := by
  unfold answerEntry at h
  split at h
  · assumption
  · cases h

variable {start : ℕ} {name : String} {past : List Snapshot} {a : CacheAnswer}

lemma AnswersFrom.found {m : NamespaceMetadata}
    (h : AnswersFrom past b start (.lookupNamespace name) a) (ha : a = .found m) :
    m.DeletedAt = 0 ∧ ∃ p, Since past b p ∧ p.catalog name = some m := by
  cases h with
  | entry name p m' hp hm =>
    obtain ⟨rfl, hd⟩ := answerEntry_found ha
    exact ⟨hd, p, hp, hm⟩
  | invalid | failed | missing => cases ha

lemma AnswersFrom.deleted (h : AnswersFrom past b start (.lookupNamespace name) a)
    (ha : a = .namespaceDeleted) :
    ∃ p m, Since past b p ∧ p.catalog name = some m ∧ m.DeletedAt ≠ 0 := by
  cases h with
  | entry name p m hp hm => exact ⟨p, m, hp, hm, answerEntry_deleted ha⟩
  | invalid | failed | missing => cases ha

lemma AnswersFrom.notFound (h : AnswersFrom past b start (.lookupNamespace name) a)
    (ha : a = .namespaceNotFound) : ∃ p, Since past start p ∧ p.catalog name = none := by
  cases h with
  | missing name p hp hm => exact ⟨p, hp, hm⟩
  | entry name p m hp hm => exact absurd ha (answerEntry_ne_notFound m)
  | invalid | failed => cases ha

/-- **What a lookup says is true**, whatever runs beside it: a namespace that it finds is
in the catalog with that epoch and creation, and was once not deleted; one that it
reports as deleted is deleted for good; and one that it does not find was absent at a moment
of the call. -/
theorem lookup_truthful (h : (cacheMachine before).Reachable s) {i : ℕ} {c : CacheCall}
    (hc : s.calls i = some c) (hop : c.op = .lookupNamespace name) (hr : c.pc = .returned a) :
    (∀ m, a = .found m → m.DeletedAt = 0 ∧ (∃ p ∈ s.past, p.catalog name = some m) ∧
      ∃ m', entryOf s.tenant.store name = some m' ∧ m'.Epoch = m.Epoch ∧
        m'.CreatedAt = m.CreatedAt) ∧
    (a = .namespaceDeleted →
      ∃ m, entryOf s.tenant.store name = some m ∧ m.DeletedAt ≠ 0) ∧
    (a = .namespaceNotFound → ∃ k p, c.start ≤ k ∧ s.past[k]? = some p ∧ p.catalog name = none) := by
  have hf := fresh_reachable h
  have ha : AnswersFrom s.past 0 c.start (.lookupNamespace name) a := by
    rw [← hop]
    exact ((hf.calls i c hc).answer a hr).resolve_left id
  refine ⟨fun m hm => ?_, fun hd => ?_, fun hn => ?_⟩
  · obtain ⟨hd, p, ⟨k, -, hk⟩, hp⟩ := ha.found hm
    have hmem := List.mem_of_getElem? hk
    obtain ⟨m', hm', hle⟩ := hf.le_present hmem name m hp
    rw [readCatalogOrEmpty_catalog] at hm'
    exact ⟨hd, ⟨p, hmem, hp⟩, m', hm', hle.epoch, hle.createdAt⟩
  · obtain ⟨p, m, ⟨k, -, hk⟩, hp, hne⟩ := ha.deleted hd
    obtain ⟨m', hm', hle⟩ := hf.le_present (List.mem_of_getElem? hk) name m hp
    rw [readCatalogOrEmpty_catalog] at hm'
    exact ⟨m', hm', by rwa [hle.deletedAt hne]⟩
  · obtain ⟨p, ⟨k, hk, hp⟩, hnone⟩ := ha.notFound hn
    exact ⟨k, p, hk, hp, hnone⟩

/-- **An invalidation lasts** if no refresh is under way: from a state with an empty cache
and no catalog on its way into it, every lookup that starts later answers for a moment not
before that state, whether it finds the namespace, or finds it deleted or missing; so a
namespace that was deleted by then is never found again. -/
theorem invalidate_lasting (hs : (cacheMachine before).Reachable s) (hempty : s.cache = none)
    (hidle : ∀ i c, s.calls i = some c → c.holding = false)
    (hst : (cacheMachine before).Run anyStep s t) {i : ℕ} {c : CacheCall} (hnew : s.calls i = none)
    (hc : t.calls i = some c) (hop : c.op = .lookupNamespace name) (hr : c.pc = .returned a) :
    (∀ m, a = .found m → ∃ k p, s.now ≤ k ∧ t.past[k]? = some p ∧ p.catalog name = some m) ∧
    (a = .namespaceDeleted → ∃ k p m, s.now ≤ k ∧ t.past[k]? = some p ∧
      p.catalog name = some m ∧ m.DeletedAt ≠ 0) ∧
    (a = .namespaceNotFound → ∃ k p, s.now ≤ k ∧ t.past[k]? = some p ∧ p.catalog name = none) ∧
    (∀ m, entryOf s.tenant.store name = some m → m.DeletedAt ≠ 0 →
      (∀ m', a ≠ .found m') ∧ a ≠ .namespaceNotFound) := by
  have hfs := fresh_reachable hs
  have hf : t.Fresh s.now fun i => s.calls i ≠ none :=
    Machine.Run.preserves (fun _ _ _ hf _ hst => hf.step hst) hst (hfs.restart hempty hidle)
  have hok := hf.calls i c hc
  have ha : AnswersFrom t.past s.now c.start (.lookupNamespace name) a := by
    rw [← hop]
    exact (hok.answer a hr).resolve_left fun hold => hold hnew
  have hstart : s.now ≤ c.start := hok.recent.resolve_left fun hold => hold hnew
  have hthen : t.past[s.now]? = some (readCatalogOrEmpty s.tenant.store) := by
    obtain ⟨more, hmore⟩ := past_run hst
    rw [hmore, List.getElem?_append_left hfs.now_lt, hfs.at_now]
  refine ⟨fun m hm => ?_, fun hd => ?_, fun hn => ?_,
    fun m hm hd => ⟨fun m' hm' => ?_, fun hn => ?_⟩⟩
  · obtain ⟨-, p, ⟨k, hk, hp⟩, hpm⟩ := ha.found hm
    exact ⟨k, p, hk, hp, hpm⟩
  · obtain ⟨p, m, ⟨k, hk, hp⟩, hpm, hne⟩ := ha.deleted hd
    exact ⟨k, p, m, hk, hp, hpm, hne⟩
  · obtain ⟨p, ⟨k, hk, hp⟩, hnone⟩ := ha.notFound hn
    exact ⟨k, p, hstart.trans hk, hp, hnone⟩
  · obtain ⟨hlive, p, ⟨k, hk, hp⟩, hpm⟩ := ha.found hm'
    obtain ⟨m'', hm'', hle⟩ := hf.le_at hthen hp hk name m (by rw [readCatalogOrEmpty_catalog, hm])
    rw [hpm, Option.some.injEq] at hm''
    rw [hm'', hle.deletedAt hd] at hlive
    exact hd hlive
  · obtain ⟨p, ⟨k, hk, hp⟩, hnone⟩ := ha.notFound hn
    obtain ⟨m'', hm'', -⟩ := hf.le_at hthen hp (hstart.trans hk) name m
      (by rw [readCatalogOrEmpty_catalog, hm])
    rw [hnone] at hm''
    cases hm''

end Step

section Demo

def hasFound (s : CacheState) (i : ℕ) : Option NamespaceMetadata :=
  match (s.calls i).map CacheCall.pc with
  | some (.returned (.found m)) => some m
  | _ => none

lemma hasFound_some {s : CacheState} {i : ℕ} {m : NamespaceMetadata} (h : hasFound s i = some m) :
    ∃ c, s.calls i = some c ∧ c.pc = .returned (.found m) := by
  unfold hasFound at h
  cases hc : s.calls i with
  | none => simp [hc] at h
  | some c =>
    simp only [hc, Option.map_some] at h
    split at h <;> cases h
    rename_i heq
    exact ⟨c, rfl, Option.some.inj heq⟩

def CacheCall.answered (c : CacheCall) : Bool :=
  match c.pc with
  | .returned _ => true
  | _ => false

lemma answered_iff {c : CacheCall} : c.answered = true ↔ ∃ a, c.pc = .returned a := by
  unfold CacheCall.answered
  cases c.pc <;> simp

-- A refresh reads the catalog before the namespace is deleted, and has not stored it yet.
def deleteScript : List CacheAction :=
  [.tenant (.call 0 .createNamespace "a" 7), .tenant (.step 0 .ok), .tenant (.step 0 .ok),
   .call 0 .refresh, .step 0 true, .tenant (.call 1 .deleteNamespace "a" 9),
   .tenant (.step 1 .ok), .tenant (.step 1 .ok), .invalidate]

-- It stores it after the invalidation, and a lookup comes.
def lateScript : List CacheAction :=
  [.step 0 true, .call 1 (.lookupNamespace "a"), .step 1 true]

/-- A late refresh brings the deleted namespace back: nothing in flight is a real condition. -/
theorem invalidate_overtaken : ∃ s t : CacheState, (cacheMachine none).Reachable s ∧
    (cacheMachine none).Run anyStep s t ∧ s.cache.isNone ∧ s.calls 1 = none ∧
    entryOf s.tenant.store "a" = some ⟨0, 7, 9⟩ ∧ hasFound t 1 = some ⟨0, 7, 0⟩ := by
  obtain ⟨s, t, hs, hst, h⟩ := Machine.exec_exists_pair (cacheMachine none) anyStep
    (cacheMachine none).init deleteScript lateScript
    (fun s t => s.cache.isNone ∧ (s.calls 1).isNone ∧
      entryOf s.tenant.store "a" = some ⟨0, 7, 9⟩ ∧ hasFound t 1 = some ⟨0, 7, 0⟩)
    (by decide +kernel)
  exact ⟨s, t, hs, hst, h.1, Option.isNone_iff_eq_none.mp h.2.1, h.2.2⟩

/-- The answer of that late lookup, with the entry as it is in the catalog. -/
theorem lookup_truthful_stale : ∃ s : CacheState, (cacheMachine none).Reachable s ∧
    hasFound s 1 = some ⟨0, 7, 0⟩ ∧ isActive s.tenant.store "a" = false ∧
    ∃ m, entryOf s.tenant.store "a" = some m ∧ m.Epoch = 0 ∧ m.CreatedAt = 7 := by
  obtain ⟨s, hs, hfound, hactive, hop⟩ := Machine.exec_exists (cacheMachine none) anyStep
    (cacheMachine none).init (deleteScript ++ lateScript)
    (fun s => hasFound s 1 = some ⟨0, 7, 0⟩ ∧ isActive s.tenant.store "a" = false ∧
      (s.calls 1).map CacheCall.op = some (.lookupNamespace "a"))
    (by decide +kernel)
  obtain ⟨c, hc, hr⟩ := hasFound_some hfound
  rw [hc, Option.map_some, Option.some.injEq] at hop
  obtain ⟨-, -, m, hm, hepoch, hcreated⟩ := (lookup_truthful hs hc hop hr).1 _ rfl
  exact ⟨s, hs, hfound, hactive, m, hm, hepoch, hcreated⟩

def deletedCatalog : TenantCatalog := fun name => if name = "a" then some ⟨0, 7, 9⟩ else none

/-- A lookup in an empty cache whose catalog knows the namespace as deleted. -/
theorem invalidate_lasting_deleted : ∃ t : CacheState,
    (cacheMachine (some deletedCatalog)).Reachable t ∧
    ∃ c a, t.calls 0 = some c ∧ c.pc = .returned a ∧ (∀ m, a ≠ .found m) ∧
      a ≠ .namespaceNotFound := by
  obtain ⟨t, ht, hop, hret⟩ := Machine.exec_exists (cacheMachine (some deletedCatalog)) anyStep
    (cacheMachine (some deletedCatalog)).init
    [.call 0 (.lookupNamespace "a"), .step 0 true, .step 0 true, .step 0 true]
    (fun t => (t.calls 0).map CacheCall.op = some (.lookupNamespace "a") ∧
      ((t.calls 0).any CacheCall.answered) = true)
    (by decide +kernel)
  obtain ⟨c, hc, hret⟩ := Option.any_eq_true .. |>.mp hret
  rw [hc, Option.map_some, Option.some.injEq] at hop
  obtain ⟨a, hr⟩ := answered_iff.mp hret
  obtain ⟨-, -, -, h⟩ := invalidate_lasting (Machine.Run.refl _) rfl (fun _ _ h => nomatch h) ht rfl hc
    hop hr
  exact ⟨t, ht, c, a, hc, hr, h ⟨0, 7, 9⟩ rfl (by decide)⟩

end Demo

end CloudyNeigh.Tenant
