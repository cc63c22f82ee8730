import CloudyNeigh.LogStreamKey
import CloudyNeigh.MemStore
import CloudyNeigh.SlashPath
import CloudyNeigh.StoreReference

/-!
# The store in a bucket

`gcsStore` keeps the objects of a tenant under a prefix of a bucket that may hold
other objects. The bucket is a parameter: the calls of the client library that the store
makes, and by name what they are relied on for.
-/
namespace CloudyNeigh.GcsStore
open RecordIO ObjectStore Listing Transition
open SlashPath (sep)
open LocalStore (Condition minus plus)
open LogStream (ascii isDigit digitsValue)

variable {σ : Type*}

structure Attrs where
  Size : ℕ
  Generation : ℤ
  deriving DecidableEq, Repr

/-- An error of the client library; `api` has the code of the response. -/
inductive ServiceErr
  | objectNotExist
  | api (code : ℕ)
  | other
  deriving DecidableEq, Repr

structure Conditions where
  DoesNotExist : Bool := false
  -- zero is no condition
  GenerationMatch : ℤ := 0
  deriving DecidableEq, Repr

/-- The calls on a bucket with states in `σ`. A writer is opened, written to and closed in
one call, `gen` is the generation that it gets; `objects` are the results of the iterator. -/
structure Service (σ : Type*) where
  attrs : σ → Bytes → Except ServiceErr Attrs
  newReader : σ → Bytes → Except ServiceErr (Bytes × Attrs)
  newRangeReader : σ → Bytes → Int64 → Int64 → Except ServiceErr (Bytes × Attrs)
  write : σ → Bytes → Bytes → Conditions → (gen : ℤ) → Except ServiceErr σ
  delete : σ → Bytes → Except ServiceErr σ
  objects : σ → (pfx startOffset : Bytes) → List (Except ServiceErr (Bytes × Attrs))

def statusNotFound : ℕ := 404

def statusPreconditionFailed : ℕ := 412

def statusRequestedRangeNotSatisfiable : ℕ := 416

def translateGCS (key : Bytes) : ServiceErr → StoreErr
  | .objectNotExist => .notFound key
  | .api code =>
    if code = statusNotFound then .notFound key
    else if code = statusPreconditionFailed then .preconditionFailed key
    else .system
  | .other => .system

/-- `strconv.FormatInt(i, 10)`. -/
def formatInt (i : ℤ) : Bytes := ascii (toString i)

/-- `strconv.ParseInt(s, 10, 64)`. -/
def parseInt (s : Bytes) : Option ℤ :=
  let negative := s.head? = some minus
  let digits := if negative ∨ s.head? = some plus then s.tail else s
  if digits ≠ [] ∧ digits.all isDigit then
    if negative then if digitsValue digits ≤ 2 ^ 63 then some (-digitsValue digits) else none
    else if digitsValue digits < 2 ^ 63 then some (digitsValue digits) else none
  else none

/-- `strings.TrimPrefix`. -/
def TrimPrefix (s pfx : Bytes) : Bytes := if pfx <+: s then s.drop pfx.length else s

structure Store where
  pfx : Bytes
  deriving DecidableEq, Repr

namespace Store

def resolveKey (g : Store) (key : Bytes) : Bytes :=
  if g.pfx = [] then key else if key = [] then g.pfx else g.pfx ++ sep :: key

def trimKey (g : Store) (key : Bytes) : Bytes :=
  if g.pfx = [] then key else TrimPrefix (TrimPrefix key g.pfx) [sep]

def object (key : Bytes) (a : Attrs) : Object := ⟨key, formatInt a.Generation, a.Size⟩

variable (g : Store) (V : Service σ) (b : σ)

def Stat (key : Bytes) : Except StoreErr Object :=
  match V.attrs b (g.resolveKey key) with
  | .error e => .error (translateGCS key e)
  | .ok a => .ok (object key a)

def Get (key : Bytes) : Except StoreErr (Bytes × Object) :=
  match V.newReader b (g.resolveKey key) with
  | .error e => .error (translateGCS key e)
  | .ok (data, a) => .ok (data, object key a)

def readEmptyRange (key : Bytes) (offset : Int64) : Except StoreErr (Bytes × Object) :=
  match g.Stat V b key with
  | .error e => .error e
  | .ok obj =>
    if obj.Size < offset.toInt then .error (.offsetExceeds offset obj.Size) else .ok ([], obj)

def ReadRange (key : Bytes) (offset length : Int64) : Except StoreErr (Bytes × Object) :=
  if offset < 0 ∨ length < 0 then .error (.invalidRange offset length)
  else if length = 0 then g.readEmptyRange V b key offset
  else
    match V.newRangeReader b (g.resolveKey key) offset length with
    | .error e =>
      if e = .api statusRequestedRangeNotSatisfiable then g.readEmptyRange V b key offset
      else .error (translateGCS key e)
    | .ok (data, a) => .ok (data, object key a)

def Exists (key : Bytes) : Except StoreErr Bool :=
  match V.attrs b (g.resolveKey key) with
  | .ok _ => .ok true
  | .error e => if e = .objectNotExist ∨ e = .api statusNotFound then .ok false else .error .system

def Delete (key : Bytes) : Except StoreErr σ :=
  match V.delete b (g.resolveKey key) with
  | .error e => .error (translateGCS key e)
  | .ok b' => .ok b'

/-- What `Put` asks of the service for its condition. -/
def conditions (key : Bytes) (cond : Condition) : Except StoreErr Conditions :=
  if cond.Absent then .ok { DoesNotExist := true }
  else if cond.GenerationMatch ≠ [] then
    match parseInt cond.GenerationMatch with
    | none => .error (.malformedGeneration key cond.GenerationMatch)
    | some gen =>
      if gen ≤ 0 then .error (.malformedGeneration key cond.GenerationMatch)
      else .ok { GenerationMatch := gen }
  else .ok {}

def Put (key data : Bytes) (cond : Condition) (gen : ℤ) : Except StoreErr (Bytes × σ) :=
  match conditions key cond with
  | .error e => .error e
  | .ok conds =>
    match V.write b (g.resolveKey key) data conds gen with
    | .error e => .error (translateGCS key e)
    | .ok b' => .ok (formatInt gen, b')

def resolvedPrefix (pfx : Bytes) : Bytes :=
  if g.pfx ≠ [] ∧ pfx = [] then g.pfx ++ [sep] else g.resolveKey pfx

/-- The loop over the iterator. -/
def listLoop (startAfter : Bytes) (limit : ℤ) :
    List (Except ServiceErr (Bytes × Attrs)) → List Object → Except StoreErr (List Object)
  | [], out => .ok out
  | next :: rest, out =>
    if 0 < limit ∧ out.length = limit then .ok out
    else
      match next with
      | .error _ => .error .system
      | .ok a =>
        if startAfter ≠ [] ∧ g.trimKey a.1 ≤ startAfter then listLoop startAfter limit rest out
        else listLoop startAfter limit rest (out ++ [object (g.trimKey a.1) a.2])

def List (pfx startAfter : Bytes) (limit : ℤ) : Except StoreErr (List Object) :=
  let startOffset := if startAfter ≠ [] then g.resolveKey startAfter else []
  g.listLoop startAfter limit (V.objects b (g.resolvedPrefix pfx) startOffset) []

/-- A call of the interface; `gen` is the generation that the service gives to a `Put`. -/
def answer (gen : ℤ) : StoreRequest → StoreReply × σ
  | .stat key => (.ofExcept .object (g.Stat V b key), b)
  | .get key => (.ofExcept (fun r => .data r.1 r.2) (g.Get V b key), b)
  | .readRange key offset length =>
    (.ofExcept (fun r => .data r.1 r.2) (g.ReadRange V b key offset length), b)
  | .exists key => (.ofExcept .found (g.Exists V b key), b)
  | .put key data cond =>
    match g.Put V b key data cond gen with
    | .ok (text, b') => (.generation text, b')
    | .error e => (.failed e, b)
  | .delete key =>
    match g.Delete V b key with
    | .ok b' => (.deleted, b')
    | .error e => (.failed e, b)
  | .list pfx startAfter limit => (.ofExcept .objects (g.List V b pfx startAfter limit), b)

end Store

/-- A call of the tenant, or a change that others make in the bucket. -/
inductive BucketAction
  | call (r : StoreRequest) (gen : ℤ)
  | foreignWrite (name data : Bytes) (gen : ℤ)
  | foreignDelete (name : Bytes)
  deriving DecidableEq, Repr

def Store.calls (g : Store) (V : Service σ) (b₀ : σ) : Machine (Recorded σ StoreEvent) BucketAction :=
  recorded b₀ fun b a =>
    match a with
    | .call r gen => (some (r, (g.answer V b gen r).1), (g.answer V b gen r).2)
    | .foreignWrite name data gen => (none, (V.write b name data {} gen).toOption.getD b)
    | .foreignDelete name => (none, (V.delete b name).toOption.getD b)

/-- Every key is non-empty, and the end of a range can be computed. -/
def Keyed : StoreRequest → Prop
  | .stat key | .get key | .exists key | .put key _ _ | .delete key => key ≠ []
  | .readRange key offset length => key ≠ [] ∧ offset.toInt + length.toInt < 2 ^ 63
  | .list _ _ _ => True

instance : DecidablePred Keyed
  | .stat key | .get key | .exists key | .put key _ _ | .delete key =>
    inferInstanceAs (Decidable (key ≠ []))
  | .readRange key offset length =>
    inferInstanceAs (Decidable (key ≠ [] ∧ offset.toInt + length.toInt < 2 ^ 63))
  | .list _ _ _ => inferInstanceAs (Decidable True)

/-- Nobody else uses the bucket. -/
def Own (_ : Recorded σ StoreEvent) : BucketAction → Prop
  | .call r _ => Keyed r
  | .foreignWrite _ _ _ | .foreignDelete _ => False

instance (t : Recorded σ StoreEvent) : DecidablePred (Own t)
  | .call r _ => inferInstanceAs (Decidable (Keyed r))
  | .foreignWrite _ _ _ | .foreignDelete _ => isFalse id

/-- The change that a call has made. -/
def changed : StoreEvent → Option Call
  | (.put key data _, .generation _) => some (.put key data)
  | (.delete key, .deleted) => some (.delete key)
  | _ => none

section Promises

structure GcsObject where
  data : Bytes
  generation : ℤ
  deriving DecidableEq, Repr

def GcsObject.attrs (o : GcsObject) : Attrs := ⟨o.data.length, o.generation⟩

def Conditions.Met (c : Conditions) (o : Option GcsObject) : Prop :=
  (c.DoesNotExist = true → o = none) ∧
    (c.GenerationMatch ≠ 0 → o.map GcsObject.generation = some c.GenerationMatch)

instance (c : Conditions) (o : Option GcsObject) : Decidable (c.Met o) :=
  inferInstanceAs (Decidable ((_ → _) ∧ (_ → _)))

def served {α : Type*} : Option α → Except ServiceErr α
  | some a => .ok a
  | none => .error .objectNotExist

/-- What the store relies on: the bucket is a map from names to objects, every request is
answered from the present one, and a request that fails changes nothing. -/
structure Service.Lawful (V : Service σ) (content : σ → Bytes → Option GcsObject) : Prop where
  attrs : ∀ b name, V.attrs b name = served ((content b name).map GcsObject.attrs)
  newReader : ∀ b name,
    V.newReader b name = served ((content b name).map fun o => (o.data, o.attrs))
  range_missing : ∀ b name offset length, content b name = none →
    V.newRangeReader b name offset length = .error .objectNotExist
  /-- A range that starts at the end of the object or behind it is refused. -/
  range_behind : ∀ b name (offset length : Int64) o, content b name = some o →
    o.data.length ≤ offset.toInt →
    V.newRangeReader b name offset length = .error (.api statusRequestedRangeNotSatisfiable)
  range_inside : ∀ b name (offset length : Int64) o, content b name = some o →
    0 ≤ offset.toInt → 0 < length.toInt → offset.toInt < o.data.length →
    offset.toInt + length.toInt < 2 ^ 63 →
    V.newRangeReader b name offset length =
      .ok ((o.data.take (min (offset.toInt + length.toInt) o.data.length).toNat).drop
        offset.toInt.toNat, o.attrs)
  write_refused : ∀ b name data c gen, ¬ Conditions.Met c (content b name) →
    V.write b name data c gen = .error (.api statusPreconditionFailed)
  write_accepted : ∀ b name data c gen, Conditions.Met c (content b name) →
    ∃ b', V.write b name data c gen = .ok b' ∧
      content b' = Function.update (content b) name (some ⟨data, gen⟩)
  delete_missing : ∀ b name, content b name = none → V.delete b name = .error .objectNotExist
  delete_present : ∀ b name, content b name ≠ none →
    ∃ b', V.delete b name = .ok b' ∧ content b' = Function.update (content b) name none
  /-- The iterator yields the names with the prefix from the offset on, in byte order. -/
  objects : ∀ b pfx startOffset, ∃ as, V.objects b pfx startOffset = as.map .ok ∧
    Enumerates (fun name => (content b name).map GcsObject.attrs)
      (fun name => pfx <+: name ∧ startOffset ≤ name) as

end Promises

/-- The name belongs to the tenant. -/
def Store.InTenant (g : Store) (name : Bytes) : Prop := g.pfx = [] ∨ g.pfx ++ [sep] <+: name

instance (g : Store) (name : Bytes) : Decidable (g.InTenant name) :=
  inferInstanceAs (Decidable (_ ∨ _))

section Names
variable {g : Store}

/-- What stands before every key in its name. -/
def Store.base (g : Store) : Bytes := if g.pfx = [] then [] else g.pfx ++ [sep]

lemma inTenant_iff {name : Bytes} : g.InTenant name ↔ g.base <+: name := by
  by_cases h : g.pfx = [] <;> simp [Store.InTenant, Store.base, h]

lemma resolveKey_eq {key : Bytes} (h : key ≠ []) : g.resolveKey key = g.base ++ key := by
  by_cases hp : g.pfx = [] <;> simp [Store.resolveKey, Store.base, hp, h]

lemma resolvedPrefix_eq (pfx : Bytes) : g.resolvedPrefix pfx = g.base ++ pfx := by
  by_cases hp : g.pfx = [] <;> by_cases hk : pfx = [] <;>
    simp [Store.resolvedPrefix, Store.resolveKey, Store.base, hp, hk]

lemma trimKey_base (key : Bytes) : g.trimKey (g.base ++ key) = key := by
  by_cases hp : g.pfx = []
  · simp [Store.trimKey, Store.base, hp]
  · simp [Store.trimKey, Store.base, hp, TrimPrefix]

lemma base_lt_iff (a b : Bytes) : g.base ++ a < g.base ++ b ↔ a < b := by
  refine ⟨fun h => ?_, fun h => List.append_left_lt h⟩
  by_contra hn
  exact Std.not_lt.mpr (List.append_left_le (Std.not_lt.mp hn)) h

lemma inTenant_resolveKey {key : Bytes} (h : key ≠ []) : g.InTenant (g.resolveKey key) := by
  rw [inTenant_iff, resolveKey_eq h]
  exact List.prefix_append _ _

end Names

section Iterator
variable {g : Store}

/-- What the loop keeps of an object. -/
def Store.keeps (g : Store) (startAfter : Bytes) (a : Bytes × Attrs) : Bool :=
  decide (¬ (startAfter ≠ [] ∧ g.trimKey a.1 ≤ startAfter))

lemma listLoop_unlimited (startAfter : Bytes) {limit : ℤ} (h : limit ≤ 0)
    (as : List (Bytes × Attrs)) (out : List Object) :
    g.listLoop startAfter limit (as.map .ok) out =
      .ok (out ++ (as.filter (g.keeps startAfter)).map fun a => Store.object (g.trimKey a.1) a.2) := by
  induction as generalizing out with
  | nil => simp [Store.listLoop]
  | cons a as ih =>
    rw [List.map_cons]
    unfold Store.listLoop
    rw [if_neg (by omega)]
    dsimp only
    split
    · rename_i hskip
      rw [ih, List.filter_cons_of_neg (by simpa [Store.keeps] using hskip)]
    · rename_i hkeep
      have hk : g.keeps startAfter a = true := decide_eq_true hkeep
      rw [ih, List.filter_cons_of_pos hk]
      simp

lemma listLoop_limited (startAfter : Bytes) {limit : ℤ} (h : 0 < limit)
    (as : List (Bytes × Attrs)) (out : List Object) (hout : out.length ≤ limit) :
    g.listLoop startAfter limit (as.map .ok) out =
      .ok (out ++ ((as.filter (g.keeps startAfter)).map fun a =>
        Store.object (g.trimKey a.1) a.2).take (limit - out.length).toNat) := by
  induction as generalizing out with
  | nil => simp [Store.listLoop]
  | cons a as ih =>
    rw [List.map_cons]
    unfold Store.listLoop
    split
    · rename_i hfull
      simp [hfull.2]
    rename_i hroom
    have hlt : (out.length : ℤ) < limit := by omega
    dsimp only
    split
    · rename_i hskip
      rw [ih out hout, List.filter_cons_of_neg (by simpa [Store.keeps] using hskip)]
    · rename_i hkeep
      have hn : (limit - out.length).toNat = (limit - (out.length + 1)).toNat + 1 := by omega
      have hle : ((out ++ [Store.object (g.trimKey a.1) a.2]).length : ℤ) ≤ limit := by
        simp only [List.length_append, List.length_singleton]
        omega
      have hk : g.keeps startAfter a = true := decide_eq_true hkeep
      rw [ih _ hle, List.filter_cons_of_pos hk, hn]
      simp

/-- The limit counts the objects that the loop keeps. -/
lemma listLoop_eq_clip (startAfter : Bytes) (limit : ℤ) (as : List (Bytes × Attrs)) :
    g.listLoop startAfter limit (as.map .ok) [] =
      .ok (clip limit ((as.filter (g.keeps startAfter)).map fun a =>
        Store.object (g.trimKey a.1) a.2)) := by
  by_cases h : 0 < limit
  · rw [listLoop_limited startAfter h as [] (by simpa using h.le), clip_eq_take h]
    simp
  · rw [listLoop_unlimited startAfter (by omega) as [], clip_eq_self (by omega)]
    simp

end Iterator

section Replies
variable {g : Store} {V : Service σ} {content : σ → Bytes → Option GcsObject} {b b' : σ}
  {key data : Bytes} {cond : Condition} {gen : ℤ}

lemma stat_eq (hV : V.Lawful content) : g.Stat V b key =
    (content b (g.resolveKey key)).elim (.error (.notFound key))
      fun o => .ok (Store.object key o.attrs) := by
  rw [Store.Stat, hV.attrs]
  cases content b (g.resolveKey key) <;> rfl

lemma get_eq (hV : V.Lawful content) : g.Get V b key =
    (content b (g.resolveKey key)).elim (.error (.notFound key))
      fun o => .ok (o.data, Store.object key o.attrs) := by
  rw [Store.Get, hV.newReader]
  cases content b (g.resolveKey key) <;> rfl

lemma exists_eq (hV : V.Lawful content) :
    g.Exists V b key = .ok (content b (g.resolveKey key)).isSome := by
  rw [Store.Exists, hV.attrs]
  cases content b (g.resolveKey key) <;> rfl

/-- A range that is empty, or lies behind the object, is answered from `Stat`. -/
lemma readEmptyRange_some (hV : V.Lawful content) {o : GcsObject}
    (hl : content b (g.resolveKey key) = some o) (offset : Int64) :
    g.readEmptyRange V b key offset =
      if o.data.length < offset.toInt then .error (.offsetExceeds offset o.data.length)
      else .ok ([], Store.object key o.attrs) := by
  rw [Store.readEmptyRange, stat_eq hV, hl]
  rfl

lemma readRange_none (hV : V.Lawful content) (hl : content b (g.resolveKey key) = none)
    {offset length : Int64} (hneg : ¬ (offset < 0 ∨ length < 0)) :
    g.ReadRange V b key offset length = .error (.notFound key) := by
  have hempty : g.readEmptyRange V b key offset = .error (.notFound key) := by
    rw [Store.readEmptyRange, stat_eq hV, hl]
    rfl
  rw [Store.ReadRange, if_neg hneg, hV.range_missing _ _ _ _ hl, hempty]
  split <;> rfl

/-- `ReadRange` as one range of the object, whichever way it takes. -/
lemma readRange_some (hV : V.Lawful content) {o : GcsObject}
    (hl : content b (g.resolveKey key) = some o) {offset length : Int64}
    (hneg : ¬ (offset < 0 ∨ length < 0)) (hend : offset.toInt + length.toInt < 2 ^ 63) :
    g.ReadRange V b key offset length =
      if o.data.length < offset.toInt then .error (.offsetExceeds offset o.data.length)
      else .ok ((o.data.take (min (offset.toInt + length.toInt) o.data.length).toNat).drop
        offset.toInt.toNat, Store.object key o.attrs) := by
  have hneg' := hneg
  rw [lt_zero_iff, lt_zero_iff] at hneg'
  rw [Store.ReadRange, if_neg hneg, readEmptyRange_some hV hl]
  -- what is asked for behind the start of an empty range is nothing
  have hnil : offset.toInt + length.toInt = offset.toInt ∨ o.data.length ≤ offset.toInt →
      (o.data.take (min (offset.toInt + length.toInt) o.data.length).toNat).drop
        offset.toInt.toNat = [] := by
    intro hcase
    rw [List.drop_eq_nil_iff, List.length_take]
    omega
  by_cases hzero : length = 0
  · rw [if_pos hzero, hnil (Or.inl (by rw [hzero, Int64.toInt_zero, add_zero]))]
  · have hpos : 0 < length.toInt := by
      have hne : length.toInt ≠ 0 := fun he => hzero (Int64.toInt_inj.mp (he.trans Int64.toInt_zero.symm))
      omega
    rw [if_neg hzero]
    by_cases hexc : (o.data.length : ℤ) ≤ offset.toInt
    · rw [hV.range_behind _ _ _ _ _ hl hexc, hnil (Or.inr hexc)]
      exact if_pos rfl
    · have hlt : ¬ (o.data.length : ℤ) < offset.toInt := by omega
      rw [hV.range_inside _ _ _ _ _ hl (by omega) hpos (by omega) hend, if_neg hlt, if_neg hlt]

lemma delete_none (hV : V.Lawful content) (hl : content b (g.resolveKey key) = none) :
    g.Delete V b key = .error (.notFound key) := by
  rw [Store.Delete, hV.delete_missing _ _ hl]
  rfl

lemma delete_some (g : Store) (hV : V.Lawful content) (b : σ) (key : Bytes)
    (hl : content b (g.resolveKey key) ≠ none) :
    ∃ b', g.Delete V b key = .ok b' ∧
      content b' = Function.update (content b) (g.resolveKey key) none := by
  obtain ⟨b', hb', hcontent⟩ := hV.delete_present _ _ hl
  exact ⟨b', by rw [Store.Delete, hb'], hcontent⟩

/-- The three ways in which a `Put` ends. -/
lemma put_cases (g : Store) (hV : V.Lawful content) (b : σ) (key data : Bytes) (cond : Condition)
    (gen : ℤ) :
    (∃ e, Store.conditions key cond = .error e ∧ g.Put V b key data cond gen = .error e) ∨
    ∃ conds, Store.conditions key cond = .ok conds ∧
      ((¬ conds.Met (content b (g.resolveKey key)) ∧
        g.Put V b key data cond gen = .error (.preconditionFailed key)) ∨
      conds.Met (content b (g.resolveKey key)) ∧
        ∃ b', g.Put V b key data cond gen = .ok (formatInt gen, b') ∧
          content b' = Function.update (content b) (g.resolveKey key) (some ⟨data, gen⟩)) := by
  cases hc : Store.conditions key cond with
  | error e => exact .inl ⟨e, rfl, by rw [Store.Put, hc]⟩
  | ok conds =>
    refine .inr ⟨conds, rfl, ?_⟩
    by_cases hmet : conds.Met (content b (g.resolveKey key))
    · obtain ⟨b', hb', hcontent⟩ := hV.write_accepted b (g.resolveKey key) data conds gen hmet
      exact .inr ⟨hmet, b', by simp only [Store.Put, hc, hb'], hcontent⟩
    · refine .inl ⟨hmet, ?_⟩
      simp only [Store.Put, hc, hV.write_refused _ _ _ _ _ hmet]
      rfl

/-- What a `Put` answers when the object of its key is `x`. -/
def Store.putReply (key : Bytes) (cond : Condition) (gen : ℤ) (x : Option GcsObject) : StoreReply :=
  match conditions key cond with
  | .error e => .failed e
  | .ok conds =>
    if conds.Met x then .generation (formatInt gen) else .failed (.preconditionFailed key)

lemma put_reply (hV : V.Lawful content) : (g.answer V b gen (.put key data cond)).1 =
    Store.putReply key cond gen (content b (g.resolveKey key)) := by
  obtain ⟨e, he, hput⟩ | ⟨conds, hc, ⟨hmet, hput⟩ | ⟨hmet, b', hput, -⟩⟩ :=
    put_cases g hV b key data cond gen
  · simp only [Store.answer, Store.putReply, hput, he]
  · simp only [Store.answer, Store.putReply, hput, hc, if_neg hmet]
  · simp only [Store.answer, Store.putReply, hput, hc, if_pos hmet]

lemma delete_reply (hV : V.Lawful content) : (g.answer V b gen (.delete key)).1 =
    (content b (g.resolveKey key)).elim (.failed (.notFound key)) fun _ => .deleted := by
  cases hl : content b (g.resolveKey key) with
  | none => simp only [Store.answer, delete_none hV hl, Option.elim_none]
  | some o =>
    obtain ⟨b', hdelete, -⟩ := delete_some g hV b key (by simp [hl])
    simp only [Store.answer, hdelete, Option.elim_some]

end Replies

section Tenant
variable {g : Store} {V : Service σ} {content : σ → Bytes → Option GcsObject} {b b' b₀ : σ}
  {calls : List Call}

/-- The tenant's objects are what its calls stored, and all others are as they were. -/
structure Holds (g : Store) (content : σ → Bytes → Option GcsObject) (b₀ b : σ)
    (calls : List Call) : Prop where
  tenant : ∀ key, (content b (g.base ++ key)).map GcsObject.data = stored calls key
  others : ∀ name, ¬ g.InTenant name → content b name = content b₀ name
  nonempty : stored calls [] = none

/-- What the loop keeps are the tenant's keys that are asked for, in order. -/
lemma tenant_enumerates {held : Bytes → Option Attrs} (hempty : held g.base = none)
    (pfx startAfter : Bytes) {as : List (Bytes × Attrs)}
    (hiter : Enumerates held (fun name => g.resolvedPrefix pfx <+: name ∧
      (if startAfter ≠ [] then g.resolveKey startAfter else []) ≤ name) as) :
    Enumerates (fun key => held (g.base ++ key)) (Selected pfx startAfter)
      ((as.filter (g.keeps startAfter)).map fun a => (g.trimKey a.1, a.2)) := by
  -- every name that is yielded is the base and a key
  have hname : ∀ a ∈ as, ∃ key, a.1 = g.base ++ key ∧
      pfx <+: key ∧ held (g.base ++ key) = some a.2 := by
    intro a ha
    obtain ⟨hlook, hpre, -⟩ := (hiter.mem a.1 a.2).mp ha
    rw [resolvedPrefix_eq] at hpre
    obtain ⟨rest, hrest⟩ := hpre
    rw [List.append_assoc] at hrest
    exact ⟨pfx ++ rest, hrest.symm, List.prefix_append _ _, by rw [hrest]; exact hlook⟩
  constructor
  · rw [List.pairwise_map]
    have hin : ∀ a ∈ as.filter (g.keeps startAfter), a ∈ as :=
      fun a ha => (List.mem_filter.mp ha).1
    refine (hiter.sorted.filter _).imp_of_mem fun {x y} hx hy hxy => ?_
    obtain ⟨k, hk, -, -⟩ := hname x (hin x hx)
    obtain ⟨k', hk', -, -⟩ := hname y (hin y hy)
    rw [hk, hk', base_lt_iff] at hxy
    rw [hk, hk', trimKey_base, trimKey_base]
    exact hxy
  · intro key o
    constructor
    · intro hin
      obtain ⟨a, ha, heq⟩ := List.mem_map.mp hin
      obtain ⟨ha, hkeep⟩ := List.mem_filter.mp ha
      obtain ⟨k, hk, hpre, hlook⟩ := hname a ha
      simp only [Store.keeps, hk, trimKey_base, decide_eq_true_eq, not_and, Std.not_le] at hkeep
      rw [hk, trimKey_base] at heq
      cases heq
      refine ⟨hlook, hpre, ?_⟩
      by_cases hs : startAfter = []
      · -- the empty key is never stored
        have hne : key ≠ [] := by
          rintro rfl
          rw [List.append_nil, hempty] at hlook
          cases hlook
        obtain ⟨x, rest, rfl⟩ := List.exists_cons_of_ne_nil hne
        rw [hs]
        exact List.nil_lt_cons x rest
      · exact hkeep hs
    · rintro ⟨ho, hpre, hlt⟩
      refine List.mem_map.mpr ⟨(g.base ++ key, o), List.mem_filter.mpr ⟨?_, ?_⟩, ?_⟩
      · refine (hiter.mem _ _).mpr ⟨ho, ?_, ?_⟩
        · rw [resolvedPrefix_eq]
          exact (List.prefix_append_right_inj g.base).mpr hpre
        · by_cases hs : startAfter = []
          · simp [hs]
          · rw [if_pos hs, resolveKey_eq hs]
            exact List.append_left_le (Std.le_of_lt hlt)
      · simp only [Store.keeps, trimKey_base, decide_eq_true_eq, not_and, Std.not_le]
        exact fun _ => hlt
      · rw [trimKey_base]

lemma list_isListing (hV : V.Lawful content) (hempty : content b g.base = none)
    (pfx startAfter : Bytes) (limit : ℤ) :
    ∃ objs, g.List V b pfx startAfter limit = .ok objs ∧
      IsListing (fun key => (content b (g.base ++ key)).map fun o => Store.object key o.attrs)
        (Selected pfx startAfter) limit (objs.map fun o => (o.Key, o)) := by
  obtain ⟨as, has, hiter⟩ := hV.objects b (g.resolvedPrefix pfx)
    (if startAfter ≠ [] then g.resolveKey startAfter else [])
  refine ⟨_, by rw [Store.List, has, listLoop_eq_clip], ?_⟩
  have htenant := (tenant_enumerates (by simp [hempty]) pfx startAfter hiter).map Store.object
  simp only [Option.map_map] at htenant
  refine ⟨_, htenant, ?_⟩
  rw [map_clip, List.map_map, List.map_map]
  rfl

lemma Holds.lists (h : Holds g content b₀ b calls) (hV : V.Lawful content) (pfx startAfter : Bytes)
    (limit : ℤ) : ∃ objs, g.List V b pfx startAfter limit = .ok objs ∧
      Lists calls pfx startAfter limit objs := by
  have hempty : content b g.base = none := by
    have hnone := h.tenant []
    rwa [h.nonempty, List.append_nil, Option.map_eq_none_iff] at hnone
  obtain ⟨objs, hobjs, hlisting⟩ := list_isListing hV hempty pfx startAfter limit
  refine ⟨objs, hobjs, ?_⟩
  have hlist := hlisting.map fun _ o => o.Size
  have hheld : (fun key => ((content b (g.base ++ key)).map
        fun o => Store.object key o.attrs).map Object.Size) =
      fun key => (stored calls key).map List.length := by
    funext key
    rw [← h.tenant key, Option.map_map, Option.map_map]
    rfl
  rw [List.map_map] at hlist
  rw [ObjectStore.Lists, ← hheld]
  exact hlist

/-- A request changes at most the object of its key, and reports it. -/
lemma answer_cases (g : Store) (hV : V.Lawful content) (b : σ) (gen : ℤ) {r : StoreRequest}
    (hr : Keyed r) :
    (changed (r, (g.answer V b gen r).1) = none ∧ (g.answer V b gen r).2 = b) ∨
    ∃ key c x, key ≠ [] ∧ changed (r, (g.answer V b gen r).1) = some c ∧
      (∀ held, c.apply held = Function.update held key (x.map GcsObject.data)) ∧
      content (g.answer V b gen r).2 = Function.update (content b) (g.resolveKey key) x := by
  cases r with
  | stat key => exact .inl ⟨rfl, rfl⟩
  | get key => exact .inl ⟨rfl, rfl⟩
  | readRange key offset length => exact .inl ⟨rfl, rfl⟩
  | «exists» key => exact .inl ⟨rfl, rfl⟩
  | list pfx startAfter limit => exact .inl ⟨rfl, rfl⟩
  | put key data cond =>
    obtain ⟨e, -, hput⟩ | ⟨conds, -, ⟨-, hput⟩ | ⟨-, b', hput, hcontent⟩⟩ :=
      put_cases g hV b key data cond gen
    · left
      simp [Store.answer, hput, changed]
    · left
      simp [Store.answer, hput, changed]
    · refine .inr ⟨key, .put key data, some ⟨data, gen⟩, hr, ?_, fun _ => rfl, ?_⟩
      · simp [Store.answer, hput, changed]
      · simpa only [Store.answer, hput] using hcontent
  | delete key =>
    cases hl : content b (g.resolveKey key) with
    | none =>
      left
      simp [Store.answer, delete_none hV hl, changed]
    | some o =>
      obtain ⟨b', hdelete, hcontent⟩ := delete_some g hV b key (by simp [hl])
      refine .inr ⟨key, .delete key, none, hr, ?_, fun _ => rfl, ?_⟩
      · simp [Store.answer, hdelete, changed]
      · simpa only [Store.answer, hdelete] using hcontent

lemma ne_resolveKey {name key : Bytes} (hn : ¬ g.InTenant name) (hk : key ≠ []) :
    name ≠ g.resolveKey key := by
  rintro rfl
  exact hn (inTenant_resolveKey hk)

lemma Holds.call (h : Holds g content b₀ b calls) (hV : V.Lawful content) (gen : ℤ)
    {r : StoreRequest} (hr : Keyed r) :
    Holds g content b₀ (g.answer V b gen r).2
      (calls ++ (changed (r, (g.answer V b gen r).1)).toList) := by
  rcases answer_cases g hV b gen hr with ⟨hrep, hb⟩ | ⟨key, c, x, hk, hrep, hc, hcontent⟩
  · rw [hrep, hb]
    simpa using h
  · rw [hrep, Option.toList_some]
    refine ⟨fun k => ?_, fun name hn => ?_, ?_⟩
    · rw [stored_append, hc, hcontent, resolveKey_eq hk]
      by_cases he : k = key
      · rw [he, Function.update_self, Function.update_self]
      · rw [Function.update_of_ne (by simpa using he), Function.update_of_ne he, h.tenant k]
    · rw [hcontent, Function.update_of_ne (ne_resolveKey hn hk), h.others name hn]
    · rw [stored_append, hc, Function.update_of_ne hk.symm, h.nonempty]

lemma holds_of_run (hV : V.Lawful content)
    (hout : ∀ name, content b₀ name ≠ none → ¬ g.InTenant name) {t : Recorded σ StoreEvent}
    (ht : (g.calls V b₀).Run Own ⟨b₀, []⟩ t) :
    Holds g content b₀ t.state (t.reports.filterMap changed) := by
  refine Recorded.invariant
    (P := fun b events => Holds g content b₀ b (events.filterMap changed)) ?_ ?_ ht
  · refine ⟨fun key => ?_, fun _ _ => rfl, rfl⟩
    have hnone : content b₀ (g.base ++ key) = none := by
      by_contra hne
      exact hout _ hne (inTenant_iff.mpr (List.prefix_append _ _))
    rw [hnone]
    rfl
  · intro b events a hb ha
    cases a with
    | call r gen =>
      simp only [Option.toList_some, List.filterMap_append]
      have hcall := hb.call hV gen ha
      cases hc : changed (r, (g.answer V b gen r).1) with
      | none => simpa [hc] using hcall
      | some c => simpa [hc] using hcall
    | foreignWrite | foreignDelete => cases ha

/-- Replies depend on the objects of the tenant only. -/
lemma answer_congr (hV : V.Lawful content)
    (h : ∀ name, g.InTenant name → content b name = content b' name) {r : StoreRequest}
    (hr : Keyed r) (gen : ℤ) : (g.answer V b gen r).1 = (g.answer V b' gen r).1 := by
  have hlook : ∀ key, key ≠ [] → content b (g.resolveKey key) = content b' (g.resolveKey key) :=
    fun key hk => h _ (inTenant_resolveKey hk)
  cases r with
  | stat key => simp only [Store.answer, stat_eq hV, hlook key hr]
  | get key => simp only [Store.answer, get_eq hV, hlook key hr]
  | readRange key offset length =>
    have hsame := hlook key hr.1
    simp only [Store.answer]
    by_cases hneg : offset < 0 ∨ length < 0
    · simp only [Store.ReadRange, if_pos hneg]
    · cases hl : content b' (g.resolveKey key) with
      | none => rw [readRange_none hV (hsame.trans hl) hneg, readRange_none hV hl hneg]
      | some o => rw [readRange_some hV (hsame.trans hl) hneg hr.2, readRange_some hV hl hneg hr.2]
  | «exists» key => simp only [Store.answer, exists_eq hV, hlook key hr]
  | put key data cond => rw [put_reply hV, put_reply hV, hlook key hr]
  | delete key => rw [delete_reply hV, delete_reply hV, hlook key hr]
  | list pfx startAfter limit =>
    obtain ⟨as, has, hiter⟩ := hV.objects b (g.resolvedPrefix pfx)
      (if startAfter ≠ [] then g.resolveKey startAfter else [])
    obtain ⟨as', has', hiter'⟩ := hV.objects b' (g.resolvedPrefix pfx)
      (if startAfter ≠ [] then g.resolveKey startAfter else [])
    have heq : as = as' := by
      refine Enumerates.unique hiter ⟨hiter'.sorted, fun name o => (hiter'.mem name o).trans ?_⟩
      refine and_congr_left fun hsel => ?_
      have hin : g.InTenant name := by
        have hpre := hsel.1
        rw [resolvedPrefix_eq] at hpre
        exact inTenant_iff.mpr ((List.prefix_append _ _).trans hpre)
      rw [h name hin]
    simp only [Store.answer, Store.List, has, has', heq]

end Tenant

/-- A tenant's store lists what a store in memory lists after the same calls. Its
replies do not depend on objects outside of its prefix and its calls do not change
them; the name of the empty key is the prefix itself. -/
theorem gcs_lists_like_memory (g : Store) {V : Service σ} {content : σ → Bytes → Option GcsObject}
    (hV : V.Lawful content) (b₀ : σ) (hout : ∀ name, content b₀ name ≠ none → ¬ g.InTenant name)
    {t : Recorded σ StoreEvent} (ht : (g.calls V b₀).Run Own ⟨b₀, []⟩ t)
    {u : Recorded MemStore Call} (hu : memMachine.Reachable u)
    (hcalls : u.reports = t.reports.filterMap changed) :
    (∀ R pfx startAfter limit, ∃ objs, g.List V t.state pfx startAfter limit = .ok objs ∧
      objs.map (fun o => (o.Key, o.Size)) =
        (u.state.List R pfx startAfter limit).map fun o => (o.Key, o.Size)) ∧
    (∀ key, key ≠ [] → g.trimKey (g.resolveKey key) = key) ∧
    (∀ b b' : σ, (∀ name, g.InTenant name → content b name = content b' name) →
      ∀ r gen, Keyed r → (g.answer V b gen r).1 = (g.answer V b' gen r).1) ∧
    (∀ name, ¬ g.InTenant name → content t.state name = content b₀ name) ∧
    ∀ key, g.resolveKey key = g.pfx ∨ g.InTenant (g.resolveKey key) := by
  have hgcs := holds_of_run hV hout ht
  have hmem := memMachine_holds hu
  rw [hcalls] at hmem
  refine ⟨fun R pfx startAfter limit => ?_, fun key hk => ?_,
    fun b b' h r gen hr => answer_congr hV h hr gen, hgcs.others, fun key => ?_⟩
  · obtain ⟨objs, hobjs, hlists⟩ := hgcs.lists hV pfx startAfter limit
    exact ⟨objs, hobjs, hlists.unique (memStore_lists hmem R pfx startAfter limit)⟩
  · rw [resolveKey_eq hk, trimKey_base]
  · by_cases hk : key = []
    · by_cases hp : g.pfx = []
      · exact .inr (.inl hp)
      · exact .inl (by simp [Store.resolveKey, hp, hk])
    · exact .inr (inTenant_resolveKey hk)

section Map

abbrev Bucket := AList fun _ : Bytes => GcsObject

/-- The names with the prefix from the offset on, in byte order. -/
def sortedObjects (b : Bucket) (pfx startOffset : Bytes) : List (Bytes × GcsObject) :=
  ((b.entries.map fun e => (e.1, e.2)).filter fun e =>
    decide (pfx <+: e.1) && decide (startOffset ≤ e.1)).insertionSort fun x y => x.1 ≤ y.1

/-- A bucket that is a map and nothing else. -/
def mapService : Service Bucket where
  attrs b name := served ((b.lookup name).map GcsObject.attrs)
  newReader b name := served ((b.lookup name).map fun o => (o.data, o.attrs))
  newRangeReader b name offset length :=
    match b.lookup name with
    | none => .error .objectNotExist
    | some o =>
      if o.data.length ≤ offset.toInt then .error (.api statusRequestedRangeNotSatisfiable)
      else .ok ((o.data.take (min (offset.toInt + length.toInt) o.data.length).toNat).drop
        offset.toInt.toNat, o.attrs)
  write b name data c gen :=
    if c.Met (b.lookup name) then .ok (b.insert name ⟨data, gen⟩)
    else .error (.api statusPreconditionFailed)
  delete b name :=
    if (b.lookup name).isSome then .ok (b.erase name) else .error .objectNotExist
  objects b pfx startOffset :=
    (sortedObjects b pfx startOffset).map fun a => .ok (a.1, a.2.attrs)

lemma sortedObjects_enumerates (b : Bucket) (pfx startOffset : Bytes) :
    Enumerates b.lookup (fun name => pfx <+: name ∧ startOffset ≤ name)
      (sortedObjects b pfx startOffset) := by
  refine enumerates_sort ?_ fun name o => ?_
  · have hsub := (List.filter_sublist (p := fun e : Bytes × GcsObject =>
      decide (pfx <+: e.1) && decide (startOffset ≤ e.1)) (l := b.entries.map fun e => (e.1, e.2)))
    refine (hsub.map Prod.fst).nodup ?_
    rw [List.map_map]
    exact b.nodupKeys
  · rw [List.mem_filter, Bool.and_eq_true, decide_eq_true_eq, decide_eq_true_eq, List.mem_map]
    refine and_congr_left fun _ => ?_
    rw [← Option.mem_def, AList.mem_lookup_iff]
    constructor
    · rintro ⟨⟨name', o'⟩, he, heq⟩
      cases heq
      exact he
    · exact fun he => ⟨⟨name, o⟩, he, rfl⟩

lemma mapService_lawful : mapService.Lawful fun b name => b.lookup name where
  attrs _ _ := rfl
  newReader _ _ := rfl
  range_missing b name offset length hl := by simp only [mapService, hl]
  range_behind b name offset length o hl hexc := by simp only [mapService, hl, if_pos hexc]
  range_inside b name offset length o hl _ _ hlt _ := by
    simp only [mapService, hl, if_neg (not_le.mpr hlt)]
  write_refused b name data c gen hmet := if_neg hmet
  write_accepted b name data c gen hmet := by
    refine ⟨b.insert name ⟨data, gen⟩, if_pos hmet, funext fun name' => ?_⟩
    by_cases he : name' = name
    · rw [he, AList.lookup_insert, Function.update_self]
    · rw [AList.lookup_insert_ne he, Function.update_of_ne he]
  delete_missing b name hl := by simp [mapService, hl]
  delete_present b name hl := by
    refine ⟨b.erase name, if_pos (Option.isSome_iff_ne_none.mpr hl), funext fun name' => ?_⟩
    by_cases he : name' = name
    · rw [he, AList.lookup_erase, Function.update_self]
    · rw [AList.lookup_erase_ne he, Function.update_of_ne he]
  objects b pfx startOffset := by
    refine ⟨(sortedObjects b pfx startOffset).map fun a => (a.1, a.2.attrs), ?_, ?_⟩
    · simp [mapService]
    · exact (sortedObjects_enumerates b pfx startOffset).map fun _ o => o.attrs

end Map

-- A bucket with a neighbour and an object named like the prefix itself.
def strangers : Bucket := (AList.singleton (ascii "tx/a") ⟨[1], 1⟩).insert (ascii "t") ⟨[2], 2⟩

lemma strangers_outside (name : Bytes) (h : strangers.lookup name ≠ none) :
    ¬ Store.InTenant ⟨ascii "t"⟩ name := by
  have hall : ∀ name ∈ strangers, ¬ Store.InTenant ⟨ascii "t"⟩ name := by decide +kernel
  exact hall name (AList.lookup_isSome.mp (Option.isSome_iff_ne_none.mpr h))

-- One key begins with a slash, one with the tenant prefix.
def twoPuts : List BucketAction :=
  [.call (.put (ascii "/b") [3, 4] {}) 5, .call (.put (ascii "t/a") [6] {}) 7]

theorem gcs_lists_like_memory_two :
    ∃ (t : Recorded Bucket StoreEvent) (u : Recorded MemStore Call) (objs : List Object),
      (Store.calls ⟨ascii "t"⟩ mapService strangers).Run Own ⟨strangers, []⟩ t ∧
      memMachine.Reachable u ∧ u.reports = t.reports.filterMap changed ∧ u.reports.length = 2 ∧
      Store.List ⟨ascii "t"⟩ mapService t.state [] [] 0 = .ok objs ∧
      objs.map (fun o => (o.Key, o.Size)) =
        (u.state.List Checked.RangeOrder.stored [] [] 0).map fun o => (o.Key, o.Size) := by
  obtain ⟨t, ht, hrt⟩ := Machine.exec_exists (Store.calls ⟨ascii "t"⟩ mapService strangers)
    Own ⟨strangers, []⟩ twoPuts
    (fun t => t.reports.filterMap changed = [.put (ascii "/b") [3, 4], .put (ascii "t/a") [6]])
    (by decide +kernel)
  obtain ⟨u, hu, hru⟩ := Machine.exec_exists memMachine anyStep ⟨.newMemStore, []⟩
    [.put (ascii "/b") [3, 4] {}, .put (ascii "t/a") [6] {}]
    (fun t => t.reports = [.put (ascii "/b") [3, 4], .put (ascii "t/a") [6]]) (by decide +kernel)
  have hcalls : u.reports = t.reports.filterMap changed := hru.trans hrt.symm
  obtain ⟨objs, hobjs, hsame⟩ := (gcs_lists_like_memory ⟨ascii "t"⟩ mapService_lawful strangers
    strangers_outside ht hu hcalls).1 Checked.RangeOrder.stored [] [] 0
  exact ⟨t, u, objs, ht, hu, hcalls, by rw [hru]; rfl, hobjs, hsame⟩

end CloudyNeigh.GcsStore
