import CloudyNeigh.Checked
import CloudyNeigh.Listing
import CloudyNeigh.LocalStore

/-!
# The object store in memory

The operations of `memStore`, and the listing that every store owes for the `Put`
and `Delete` calls that succeeded on it. Contexts are not cancelled and readers do
not fail.
-/
namespace CloudyNeigh.ObjectStore
open RecordIO LocalStore Checked Listing Transition

structure Object where
  Key : Bytes
  Generation : Bytes
  Size : ℕ
  deriving DecidableEq, Repr

inductive StoreErr
  | emptyKey
  | invalidKey (key : Bytes)
  | notFound (key : Bytes)
  | preconditionFailed (key : Bytes)
  | malformedGeneration (key generation : Bytes)
  | invalidRange (offset length : Int64)
  | offsetExceeds (offset : Int64) (size : ℕ)
  | system
  deriving DecidableEq, Repr

/-- A call that succeeded. -/
inductive Call
  | put (key data : Bytes)
  | delete (key : Bytes)
  deriving DecidableEq, Repr

abbrev Calls := List Call

def Call.apply (held : Bytes → Option Bytes) : Call → Bytes → Option Bytes
  | .put key data => Function.update held key (some data)
  | .delete key => Function.update held key none

/-- What a store holds after the calls. -/
def stored (calls : Calls) : Bytes → Option Bytes := calls.foldl Call.apply fun _ => none

lemma stored_append (calls : Calls) (c : Call) :
    stored (calls ++ [c]) = c.apply (stored calls) := by
  simp [stored, List.foldl_append]

/-- The keys that `List` asks for. -/
def Selected (pfx startAfter key : Bytes) : Prop := pfx <+: key ∧ startAfter < key

instance (pfx startAfter key : Bytes) : Decidable (Selected pfx startAfter key) :=
  inferInstanceAs (Decidable (_ ∧ _))

/-- The keys and sizes of these objects are what `List` owes after the calls. -/
def Lists (calls : Calls) (pfx startAfter : Bytes) (limit : ℤ) (objs : List Object) : Prop :=
  IsListing (fun key => (stored calls key).map List.length) (Selected pfx startAfter) limit
    (objs.map fun o => (o.Key, o.Size))

structure MemEntry where
  data : Bytes
  generation : Bytes
  deriving DecidableEq, Repr

structure MemStore where
  objects : AList fun _ : Bytes => MemEntry
  genSeq : ℤ

namespace MemStore

def newMemStore : MemStore := ⟨∅, 0⟩

def object (key : Bytes) (e : MemEntry) : Object := ⟨key, e.generation, e.data.length⟩

def Stat (m : MemStore) (key : Bytes) : Except StoreErr Object :=
  match m.objects.lookup key with
  | none => .error (.notFound key)
  | some e => .ok (object key e)

def Get (m : MemStore) (key : Bytes) : Except StoreErr (Bytes × Object) :=
  match m.objects.lookup key with
  | none => .error (.notFound key)
  | some e => .ok (e.data, object key e)

def Exists (m : MemStore) (key : Bytes) : Bool := (m.objects.lookup key).isSome

def Delete (m : MemStore) (key : Bytes) : Except StoreErr MemStore :=
  match m.objects.lookup key with
  | none => .error (.notFound key)
  | some _ => .ok { m with objects := m.objects.erase key }

/-- `genSeq++` wraps as an `int64` does. -/
def nextSeq (m : MemStore) : ℤ := if m.genSeq = maxInt64 then minInt64 else m.genSeq + 1

def Put (m : MemStore) (key data : Bytes) (cond : Condition) :
    Except StoreErr (Bytes × MemStore) :=
  if cond.GenerationMatch ≠ [] ∧ validLocalGeneration cond.GenerationMatch = false then
    .error (.malformedGeneration key cond.GenerationMatch)
  else
    let e := m.objects.lookup key
    if cond.Absent = true ∧ e.isSome then .error (.preconditionFailed key)
    else if cond.Absent = false ∧ cond.GenerationMatch ≠ [] ∧
        e.map MemEntry.generation ≠ some cond.GenerationMatch then
      .error (.preconditionFailed key)
    else
      let gen := localGeneration m.nextSeq data.length
      .ok (gen, ⟨m.objects.insert key ⟨data, gen⟩, m.nextSeq⟩)

/-- The keys are collected in the order `R` of the map. -/
def List (m : MemStore) (R : RangeOrder Bytes) (pfx startAfter : Bytes) (limit : ℤ) :
    List Object :=
  let keys := (R.range 0 m.objects).keys.filter fun k => Selected pfx startAfter k
  (clip limit (keys.insertionSort (· ≤ ·))).map fun k =>
    object k ((m.objects.lookup k).getD ⟨[], []⟩)

end MemStore

inductive MemAction
  | put (key data : Bytes) (cond : Condition)
  | delete (key : Bytes)
  deriving DecidableEq, Repr

def MemStore.act (m : MemStore) : MemAction → Option Call × MemStore
  | .put key data cond =>
    match m.Put key data cond with
    | .ok (_, m') => (some (.put key data), m')
    | .error _ => (none, m)
  | .delete key =>
    match m.Delete key with
    | .ok m' => (some (.delete key), m')
    | .error _ => (none, m)

def memMachine : Machine (Recorded MemStore Call) MemAction := recorded .newMemStore MemStore.act

section Listing
variable {m : MemStore} {calls : Calls}

/-- The objects are what the successful calls stored. -/
def MemStore.Holds (m : MemStore) (calls : Calls) : Prop :=
  ∀ key, (m.objects.lookup key).map MemEntry.data = stored calls key

lemma MemStore.put_objects {m' : MemStore} {key data gen : Bytes} {cond : Condition}
    (h : m.Put key data cond = .ok (gen, m')) :
    ∃ e : MemEntry, e.data = data ∧ m'.objects = m.objects.insert key e := by
  unfold MemStore.Put at h
  split at h
  · cases h
  simp only at h
  split at h
  · cases h
  split at h
  · cases h
  cases h
  exact ⟨_, rfl, rfl⟩

lemma MemStore.delete_objects {m' : MemStore} {key : Bytes} (h : m.Delete key = .ok m') :
    m'.objects = m.objects.erase key := by
  unfold MemStore.Delete at h
  split at h
  · cases h
  · cases h
    rfl

lemma MemStore.Holds.act (h : m.Holds calls) (a : MemAction) :
    (m.act a).2.Holds (calls ++ (m.act a).1.toList) := by
  cases a with
  | put key data cond =>
    cases hput : m.Put key data cond with
    | error e => simpa [MemStore.act, hput] using h
    | ok r =>
      obtain ⟨gen, m'⟩ := r
      obtain ⟨e, rfl, hobj⟩ := put_objects hput
      intro k
      simp only [MemStore.act, hput, Option.toList_some, stored_append, hobj, Call.apply]
      by_cases hk : k = key
      · subst hk
        simp
      · rw [AList.lookup_insert_ne hk, Function.update_of_ne hk, h k]
  | delete key =>
    cases hdel : m.Delete key with
    | error e => simpa [MemStore.act, hdel] using h
    | ok m' =>
      intro k
      simp only [MemStore.act, hdel, Option.toList_some, stored_append, delete_objects hdel,
        Call.apply]
      by_cases hk : k = key
      · subst hk
        simp
      · rw [AList.lookup_erase_ne hk, Function.update_of_ne hk, h k]

lemma memMachine_holds {t : Recorded MemStore Call} (h : memMachine.Reachable t) :
    t.state.Holds t.reports :=
  Recorded.invariant (P := MemStore.Holds) (fun _ => rfl) (fun _ _ a hs _ => hs.act a) h

/-- `memStore.List` lists its entries, whatever the order of the map. -/
lemma MemStore.list_isListing (m : MemStore) (R : RangeOrder Bytes) (pfx startAfter : Bytes)
    (limit : ℤ) :
    IsListing (fun key => (m.objects.lookup key).map (object key)) (Selected pfx startAfter) limit
      ((m.List R pfx startAfter limit).map fun o => (o.Key, o)) := by
  let keys := (R.range 0 m.objects).keys.filter fun k => Selected pfx startAfter k
  let entry : Bytes → Bytes × Object := fun k => (k, object k ((m.objects.lookup k).getD ⟨[], []⟩))
  have hfst : (keys.map entry).map Prod.fst = keys := by
    rw [List.map_map]
    exact List.map_id keys
  have hmem : ∀ k, k ∈ keys ↔ (m.objects.lookup k).isSome ∧ Selected pfx startAfter k := by
    intro k
    rw [List.mem_filter, decide_eq_true_eq, ← R.lookup 0 m.objects k, AList.lookup_isSome]
    rfl
  refine ⟨(keys.map entry).insertionSort fun a b => a.1 ≤ b.1, enumerates_sort ?_ ?_, ?_⟩
  · rw [hfst]
    exact (AList.keys_nodup _).filter _
  · intro k o
    constructor
    · intro hin
      obtain ⟨k', hk', he⟩ := List.mem_map.mp hin
      cases he
      obtain ⟨hsome, hsel⟩ := (hmem k).mp hk'
      obtain ⟨e, he⟩ := Option.isSome_iff_exists.mp hsome
      exact ⟨by simp [he], hsel⟩
    · rintro ⟨hsome, hsel⟩
      obtain ⟨e, he, rfl⟩ := Option.map_eq_some_iff.mp hsome
      exact List.mem_map.mpr ⟨k, (hmem k).mpr ⟨by simp [he], hsel⟩, by simp [entry, he]⟩
  · rw [← List.map_insertionSort (fun a b : Bytes => a ≤ b) _ entry keys fun _ _ _ _ => Iff.rfl,
      ← map_clip]
    simp only [MemStore.List, List.map_map]
    rfl

/-- `memStore.List` returns what it owes for the calls. -/
theorem memStore_lists (h : m.Holds calls) (R : RangeOrder Bytes) (pfx startAfter : Bytes)
    (limit : ℤ) : Lists calls pfx startAfter limit (m.List R pfx startAfter limit) := by
  have hlist := (m.list_isListing R pfx startAfter limit).map fun _ o => o.Size
  have hheld : (fun key => ((m.objects.lookup key).map (MemStore.object key)).map Object.Size) =
      fun key => (stored calls key).map List.length := by
    funext key
    rw [← h key, Option.map_map, Option.map_map]
    rfl
  rw [List.map_map] at hlist
  rw [ObjectStore.Lists, ← hheld]
  exact hlist

end Listing

end CloudyNeigh.ObjectStore
