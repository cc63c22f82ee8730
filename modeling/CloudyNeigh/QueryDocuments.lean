import CloudyNeigh.QueryGoRefine
import CloudyNeigh.QueryObserve

/-!
# The table as a store of documents

What a table is for: a map from ids to documents that keeps the vectors and the
attributes it was given. Under every history of `UpsertRecord` and `Delete` calls
and every order of the loops over maps the columns answer as this store does.
-/
namespace CloudyNeigh.Query
open Checked Replay VectorFormat

/-- A record without nil among its vectors and attribute values. -/
structure DecodedRecord extends Record where
  vectors : ∀ name, Vectors.lookup name ≠ some none
  attributes : NoNil Attributes

/-- The vectors of a record that are not empty. -/
def Record.supplied (rec : Record) (col : String) : Option (List F32) :=
  (rec.Vectors.lookup col).join.filter fun vec => vec ≠ []

def Record.attribute (rec : Record) (k : String) : Option AttributeValue :=
  (rec.Attributes.lookup k).join

/-- A document holds its vectors as they were supplied. -/
structure Document where
  vectors : String → Option (List F32)
  attrs : String → Option AttributeValue

def Document.empty : Document := ⟨fun _ => none, fun _ => none⟩

structure DocStore where
  docs : String → Option Document
  dims : String → Option ℕ

inductive StoreOp
  | upsert (rec : DecodedRecord)
  | delete (id : String)

inductive Reply
  | upserted (err : Option UpsertErr)
  | deleted (live : Bool)
  deriving DecidableEq, Repr

section Store
variable (is16 : Bool) (s : DocStore)

def DocStore.empty : DocStore := ⟨fun _ => none, fun _ => none⟩

/-- The reasons for which an upsert is refused. -/
inductive DocStore.Rejects (rec : DecodedRecord) : UpsertErr → Prop
  | emptyID (h : rec.Id = "") : DocStore.Rejects rec .emptyID
  | dimensionMismatch {col : String} {vec : List F32} {dim : ℕ} (hv : rec.supplied col = some vec)
    (hd : s.dims col = some dim) (hne : vec.length ≠ dim) :
    DocStore.Rejects rec (.dimensionMismatch col dim vec.length)
  | encode {col : String} {vec : List F32} {e : EncodeErr} (h16 : is16 = true)
    (hv : rec.supplied col = some vec) (he : EncodeFP16 vec = .error e) :
    DocStore.Rejects rec (.encode col e)

/-- The record laid over the document that it updates. -/
def Document.update (d : Document) (rec : DecodedRecord) : Document where
  vectors col := (rec.supplied col).or (d.vectors col)
  attrs k := (rec.attribute k).or (d.attrs k)

def DocStore.write (rec : DecodedRecord) : DocStore where
  docs := Function.update s.docs rec.Id
    (some (((s.docs rec.Id).getD Document.empty).update rec))
  dims col := (s.dims col).or ((rec.supplied col).map List.length)

open Classical in
noncomputable def DocStore.apply : StoreOp → DocStore
  | .upsert rec => if ∃ e, s.Rejects is16 rec e then s else s.write rec
  | .delete id => { s with docs := Function.update s.docs id none }

def DocStore.Answers : StoreOp → Reply → Prop
  | .upsert rec, .upserted none => ¬∃ e, s.Rejects is16 rec e
  | .upsert rec, .upserted (some e) => s.Rejects is16 rec e
  | .delete id, .deleted live => live = (s.docs id).isSome
  | _, _ => False

/-- How a vector reads back. -/
def Kernels.readBack (k : Kernels) (vec : List F32) : List F32 :=
  if k.is16 then
    match EncodeFP16 vec with
    | .ok data16 => k.Decode16 data16
    | .error _ => vec
  else vec

def DocStore.Get (k : Kernels) (id : String) : Option Result :=
  (s.docs id).map fun d => ⟨id, fun col => (d.vectors col).map (Kernels.readBack k), d.attrs⟩

end Store

/-- One call on the table; `none` is a panic. -/
def GoTable.call (A : Arith) (R : RangeOrder String) (t : GoTable) :
    StoreOp → Option (GoTable × Reply)
  | .upsert rec => (t.UpsertRecord A R (some rec.toRecord)).map fun x => (x.1, .upserted x.2)
  | .delete id => (t.Delete id).map fun x => (x.1, .deleted x.2)

/-- Every call has its own orders of the loops. -/
def GoTable.calls (A : Arith) : List (RangeOrder String × StoreOp) → GoTable → Option GoTable
  | [], t => some t
  | (R, op) :: ops, t =>
    match t.call A R op with
    | none => none
    | some (t, _) => GoTable.calls A ops t

noncomputable def DocStore.applyAll (is16 : Bool) (ops : List StoreOp) : DocStore :=
  ops.foldl (DocStore.apply is16) DocStore.empty

section Columns
variable {A : Arith} {is16 : Bool}

/-- What the columns keep of a vector. -/
def storedVec (A : Arith) (is16 : Bool) (vec : List F32) : StoredVec :=
  ⟨if is16 then .f16 (match EncodeFP16 vec with
      | .ok data16 => data16
      | .error _ => []) else .f32 vec, vectorInvNorm A vec⟩

lemma stageVector_stored {vec : List F32} {sv : StagedVector} (h : stageVector A is16 vec = .ok sv) :
    sv.stored is16 = storedVec A is16 vec := by
  unfold stageVector at h
  cases is16 with
  | false =>
    cases h
    rfl
  | true =>
    simp only [if_true] at h
    split at h
    · rename_i hd
      cases h
      simp [StagedVector.stored, storedVec, hd]
    · cases h

lemma stageVector_encodes {vec : List F32} {sv : StagedVector}
    (h : stageVector A true vec = .ok sv) : ∃ data16, EncodeFP16 vec = .ok data16 := by
  simp only [stageVector, if_true] at h
  split at h
  · exact ⟨_, ‹_›⟩
  · cases h

lemma Table.delete_live (t : Table) (id : String) : (t.Delete id).2 = (t.view.doc id).isSome := by
  cases hi : t.index id with
  | none => simp [Table.Delete, Table.view, hi]
  | some row => cases hdead : t.isTombstoned row <;> simp [Table.Delete, Table.view, hi, hdead]

lemma stage_error {dims : String → Option ℕ} {entries : List (Σ _ : String, List F32)}
    {staged : String → Option StagedVector} {e : UpsertErr}
    (h : stage A is16 dims entries staged = .error e) :
    ∃ col vec, ⟨col, vec⟩ ∈ entries ∧ vec ≠ [] ∧
      ((∃ dim, dims col = some dim ∧ vec.length ≠ dim ∧
        e = .dimensionMismatch col dim vec.length) ∨
      ∃ err, stageVector A is16 vec = .error err ∧ e = .encode col err) := by
  induction entries generalizing staged with
  | nil => cases h
  | cons entry entries ih =>
    obtain ⟨col, vec⟩ := entry
    rw [stage] at h
    split at h
    · obtain ⟨col', vec', hm, hwhy⟩ := ih h
      exact ⟨col', vec', List.mem_cons_of_mem _ hm, hwhy⟩
    · rename_i hne
      split at h
      · rename_i hany
        cases h
        cases hd : dims col with
        | none => simp [hd] at hany
        | some dim =>
          refine ⟨col, vec, List.mem_cons_self, hne, Or.inl ⟨dim, hd, ?_, rfl⟩⟩
          simp only [hd, Option.any_some, decide_eq_true_eq] at hany
          exact Ne.symm hany
      · split at h
        · rename_i err herr
          cases h
          exact ⟨col, vec, List.mem_cons_self, hne, Or.inr ⟨err, herr, rfl⟩⟩
        · obtain ⟨col', vec', hm, hwhy⟩ := ih h
          exact ⟨col', vec', List.mem_cons_of_mem _ hm, hwhy⟩

lemma stageVector_error {vec : List F32} {e : EncodeErr} (h : stageVector A is16 vec = .error e) :
    is16 = true ∧ EncodeFP16 vec = .error e := by
  unfold stageVector at h
  cases is16 with
  | false => cases h
  | true =>
    simp only [if_true] at h
    split at h
    · cases h
    · rename_i herr
      cases h
      exact ⟨rfl, herr⟩

end Columns

/-- The documents that the view shows are those of the store. -/
structure DocStore.Shown (A : Arith) (is16 : Bool) (s : DocStore) (v : View) : Prop where
  docs : ∀ id, v.doc id = (s.docs id).map fun d =>
    (fun col => (d.vectors col).map (storedVec A is16), d.attrs)
  dims : v.dims = s.dims
  encodes : is16 = true → ∀ id d col vec, s.docs id = some d → d.vectors col = some vec →
    ∃ data16, EncodeFP16 vec = .ok data16

section Refinement
variable {A : Arith} {is16 : Bool} {s : DocStore} {v : View}

lemma DocStore.empty_shown (A : Arith) (is16 : Bool) : DocStore.empty.Shown A is16 View.empty :=
  ⟨fun _ => rfl, rfl, fun _ _ _ _ _ h => by cases h⟩

/-- The map that `UpsertRecord` hands to `Upsert`, in the order of one execution. -/
lemma supplied_lookup (rec : DecodedRecord) (R : RangeOrder String) (col : String) (vec : List F32) :
    rec.supplied col = some vec ↔
      (R.range 0 (GoMap.map (fun v => v.getD []) rec.Vectors)).lookup col = some vec ∧
        vec ≠ [] := by
  rw [R.lookup, GoMap.lookup_map]
  unfold Record.supplied
  rcases hl : rec.Vectors.lookup col with _ | _ | w
  · simp
  · exact absurd hl (rec.vectors col)
  · simp only [Option.join_some, Option.map_some, Option.getD_some, Option.some.injEq,
      Option.filter_eq_some_iff, decide_eq_true_eq]

lemma DocStore.Shown.rejects (h : s.Shown A is16 v) {rec : DecodedRecord} {R : RangeOrder String}
    {e : UpsertErr} (hst : stage A is16 v.dims
      (R.range 0 (GoMap.map (fun v => v.getD []) rec.Vectors)).entries (fun _ => none) = .error e) :
    s.Rejects is16 rec e := by
  obtain ⟨col, vec, hm, hne, hwhy⟩ := stage_error hst
  have hsup : rec.supplied col = some vec := (supplied_lookup rec R col vec).mpr
    ⟨List.mem_dlookup (AList.nodupKeys _) hm, hne⟩
  rcases hwhy with ⟨dim, hd, hlen, rfl⟩ | ⟨err, herr, rfl⟩
  · rw [h.dims] at hd
    exact .dimensionMismatch hsup hd hlen
  · obtain ⟨h16, herr⟩ := stageVector_error herr
    exact .encode h16 hsup herr

lemma DocStore.Shown.not_rejects (h : s.Shown A is16 v) {rec : DecodedRecord}
    {R : RangeOrder String} {staged : String → Option StagedVector} (hid : rec.Id ≠ "")
    (hst : stage A is16 v.dims
      (R.range 0 (GoMap.map (fun v => v.getD []) rec.Vectors)).entries (fun _ => none) =
        .ok staged) : ¬∃ e, s.Rejects is16 rec e := by
  rintro ⟨e, hrej⟩
  cases hrej with
  | emptyID hempty => exact hid hempty
  | dimensionMismatch hv hd hne =>
    obtain ⟨hlook, hnil⟩ := (supplied_lookup rec R _ _).mp hv
    rw [← h.dims] at hd
    exact hne ((stage_supplied hst hlook hnil).1 _ hd).symm
  | encode h16 hv he =>
    obtain ⟨hlook, hnil⟩ := (supplied_lookup rec R _ _).mp hv
    obtain ⟨-, sv, hok, -⟩ := stage_supplied hst hlook hnil
    subst h16
    simp [stageVector, he] at hok

/-- What was staged is what the record supplied. -/
lemma staged_supplied {rec : DecodedRecord} {R : RangeOrder String} {dims : String → Option ℕ}
    {staged : String → Option StagedVector} (hst : stage A is16 dims
      (R.range 0 (GoMap.map (fun v => v.getD []) rec.Vectors)).entries (fun _ => none) =
        .ok staged) (col : String) :
    (staged col).map (fun sv => sv.stored is16) = (rec.supplied col).map (storedVec A is16) ∧
      (staged col).map (fun sv => sv.values.length) = (rec.supplied col).map List.length := by
  cases hsup : rec.supplied col with
  | some vec =>
    obtain ⟨hlook, hnil⟩ := (supplied_lookup rec R col vec).mp hsup
    obtain ⟨-, sv, hok, hs⟩ := stage_supplied hst hlook hnil
    rw [hs]
    simp [stageVector_stored hok, (stageVector_ok hok).1]
  | none =>
    cases hs : staged col with
    | none => exact ⟨rfl, rfl⟩
    | some sv =>
      obtain ⟨vec, hlook, hnil, -⟩ := (stage_lookup hst col sv).mp hs
      rw [(supplied_lookup rec R col vec).mpr ⟨hlook, hnil⟩] at hsup
      cases hsup

lemma DocStore.Shown.write (h : s.Shown A is16 v) {rec : DecodedRecord} {R : RangeOrder String}
    {staged : String → Option StagedVector} (hst : stage A is16 v.dims
      (R.range 0 (GoMap.map (fun v => v.getD []) rec.Vectors)).entries (fun _ => none) =
        .ok staged) :
    (s.write rec).Shown A is16 (v.write is16 rec.Id staged rec.Attributes) := by
  refine ⟨?_, ?_, ?_⟩
  · intro id
    simp only [View.write, DocStore.write]
    by_cases hid : id = rec.Id
    · subst hid
      rw [Function.update_self, Function.update_self, h.docs]
      simp only [Edit.apply, Option.map_some, Option.some.injEq, Document.update]
      ext col : 2
      · change ((staged col).map _).or _ = ((rec.supplied col).or _).map _
        rw [(staged_supplied hst col).1, Option.map_or]
        congr 1
        cases s.docs rec.Id <;> rfl
      · change (rec.attribute col).or _ = (rec.attribute col).or _
        congr 1
        cases s.docs rec.Id <;> rfl
    · rw [Function.update_of_ne hid, Function.update_of_ne hid]
      exact h.docs id
  · funext col
    simp only [View.write, DocStore.write, (staged_supplied hst col).2, h.dims]
  · rintro rfl id d col vec hd hvec
    simp only [DocStore.write] at hd
    by_cases hid : id = rec.Id
    · subst hid
      rw [Function.update_self] at hd
      cases hd
      rcases Option.or_eq_some_iff.mp hvec with hsup | ⟨-, hold⟩
      · obtain ⟨hlook, hnil⟩ := (supplied_lookup rec R col vec).mp hsup
        obtain ⟨-, sv, hok, -⟩ := stage_supplied hst hlook hnil
        exact stageVector_encodes hok
      · cases hdoc : s.docs rec.Id with
        | none =>
          rw [hdoc] at hold
          cases hold
        | some d =>
          rw [hdoc] at hold
          exact h.encodes rfl _ d col vec hdoc hold
    · rw [Function.update_of_ne hid] at hd
      exact h.encodes rfl id d col vec hd hvec

lemma DocStore.Shown.delete (h : s.Shown A is16 v) (id : String) :
    (s.apply is16 (.delete id)).Shown A is16 (v.Delete id) := by
  refine ⟨fun id' => ?_, h.dims, fun h16 id' d col vec hd hvec => ?_⟩
  · simp only [View.Delete, DocStore.apply]
    by_cases hid : id' = id
    · subst hid
      rw [Function.update_self, Function.update_self]
      rfl
    · rw [Function.update_of_ne hid, Function.update_of_ne hid]
      exact h.docs id'
  · simp only [DocStore.apply] at hd
    by_cases hid : id' = id
    · subst hid
      rw [Function.update_self] at hd
      cases hd
    · rw [Function.update_of_ne hid] at hd
      exact h.encodes h16 id' d col vec hd hvec

end Refinement

/-- The table is well formed and shows the documents of the store. -/
structure GoTable.Shows (A : Arith) (k : Kernels) (t : GoTable) (s : DocStore) : Prop where
  wf : t.WF
  kernels : t.kernels = k
  shown : s.Shown A k.is16 t.abs.view

section Calls
variable {A : Arith} {k : Kernels} {t : GoTable} {s : DocStore}

lemma GoTable.new_shows (A : Arith) (k : Kernels) :
    (GoTable.NewTable k).Shows A k DocStore.empty :=
  ⟨newGoTable_wf k, rfl, DocStore.empty_shown A k.is16⟩

/-- `UpsertRecord` finds no nil vector in a decoded record. -/
lemma upsertRecord_decoded (A : Arith) (R : RangeOrder String) (t : GoTable) (rec : DecodedRecord) :
    t.UpsertRecord A R (some rec.toRecord) = t.Upsert A R rec.Attributes rec.Id
      (GoMap.map (fun v => v.getD []) rec.Vectors) := by
  have hnone : (R.range 9 rec.Vectors).entries.find? (fun e => e.2.isNone) = none := by
    rw [List.find?_eq_none]
    intro e he hnil
    apply rec.vectors e.1
    rw [← R.lookup 9]
    exact (List.mem_dlookup (AList.nodupKeys _) he).trans
      (congrArg some (Option.isNone_iff_eq_none.mp hnil))
  simp only [GoTable.UpsertRecord, hnone]

lemma GoTable.Shows.upsert (h : t.Shows A k s) (R : RangeOrder String) (rec : DecodedRecord) :
    ∃ u err, t.call A R (.upsert rec) = some (u, .upserted err) ∧
      s.Answers k.is16 (.upsert rec) (.upserted err) ∧ u.Shows A k (s.apply k.is16 (.upsert rec)) := by
  obtain ⟨hwf, rfl, hsh⟩ := h
  have hgo := hwf.upsert R A rec.Attributes rec.Id (GoMap.map (fun v => v.getD []) rec.Vectors)
  have hview : Agrees t.kernels (t.abs.Upsert A rec.Id
      (R.range 0 (GoMap.map (fun v => v.getD []) rec.Vectors)) rec.Attributes) _ :=
    (⟨hwf.lengths, rfl, rfl⟩ : t.abs.Represents t.kernels t.abs.view).upsert A _
      (rec.attributes.clears _ _)
  have hcall : t.call A R (.upsert rec) = (t.Upsert A R rec.Attributes rec.Id
      (GoMap.map (fun v => v.getD []) rec.Vectors)).map fun x => (x.1, .upserted x.2) := by
    rw [GoTable.call, upsertRecord_decoded]
  rw [hcall]
  -- the checks fail on the columns, on the view and in the store for the same reason
  have hrej : ∀ {e}, s.Rejects t.kernels.is16 rec e →
      s.apply t.kernels.is16 (.upsert rec) = s := fun hr => if_pos ⟨_, hr⟩
  unfold View.Upsert at hview
  by_cases hid : rec.Id = ""
  · have hr : s.Rejects t.kernels.is16 rec .emptyID := .emptyID hid
    refine ⟨t, some .emptyID, ?_, hr, ?_⟩
    · simp [GoTable.Upsert, hid]
    · rw [hrej hr]
      exact ⟨hwf, rfl, hsh⟩
  · rw [if_neg hid] at hview
    cases hst : Query.stage A t.kernels.is16 t.abs.view.dims
        (R.range 0 (GoMap.map (fun v => v.getD []) rec.Vectors)).entries (fun _ => none) with
    | error e =>
      have hr := hsh.rejects hst
      rw [hst] at hview
      rcases hview.elim with ⟨_, _, _, hbad, _⟩ | ⟨e', hx, he⟩
      · cases hbad
      · cases he
        rw [hx] at hgo
        generalize t.Upsert A R _ _ _ = y at hgo ⊢
        cases hgo
        refine ⟨t, some e, rfl, hr, ?_⟩
        rw [hrej hr]
        exact ⟨hwf, rfl, hsh⟩
    | ok staged =>
      have hno := hsh.not_rejects hid hst
      rw [hst] at hview
      rcases hview.elim with ⟨t', v', hx, hv, hrep⟩ | ⟨e', _, hbad⟩
      · cases hv
        rw [hx] at hgo
        generalize t.Upsert A R _ _ _ = y at hgo ⊢
        cases hgo with
        | ok hwf' =>
          rename_i u
          refine ⟨u, none, rfl, hno, hwf', hrep.kernels, ?_⟩
          rw [hrep.view, DocStore.apply, if_neg hno]
          exact hsh.write hst
      · cases hbad

lemma GoTable.Shows.delete (h : t.Shows A k s) (R : RangeOrder String) (id : String) :
    ∃ u live, t.call A R (.delete id) = some (u, .deleted live) ∧
      s.Answers k.is16 (.delete id) (.deleted live) ∧ u.Shows A k (s.apply k.is16 (.delete id)) := by
  obtain ⟨hwf, rfl, hsh⟩ := h
  obtain ⟨u, hu, habs, hwf'⟩ := hwf.delete id
  have hrep := (⟨hwf.lengths, rfl, rfl⟩ : t.abs.Represents t.kernels t.abs.view).delete id
  have hlive : (t.abs.Delete id).2 = (s.docs id).isSome := by
    have hdoc := congrArg Option.isSome (hsh.docs id)
    rw [Option.isSome_map] at hdoc
    rw [← hdoc]
    exact Table.delete_live t.abs id
  refine ⟨u, (t.abs.Delete id).2, by simp only [GoTable.call, hu, Option.map_some], hlive, hwf', ?_, ?_⟩
  · rw [← GoTable.abs_kernels, habs]
    exact hrep.kernels
  · rw [habs, hrep.view]
    exact hsh.delete id

lemma GoTable.Shows.call (h : t.Shows A k s) (R : RangeOrder String) (op : StoreOp) :
    ∃ u reply, t.call A R op = some (u, reply) ∧ s.Answers k.is16 op reply ∧
      u.Shows A k (s.apply k.is16 op) := by
  cases op with
  | upsert rec =>
    obtain ⟨u, err, hu⟩ := h.upsert R rec
    exact ⟨u, _, hu⟩
  | delete id =>
    obtain ⟨u, live, hu⟩ := h.delete R id
    exact ⟨u, _, hu⟩

lemma GoTable.Shows.calls (h : t.Shows A k s) (ops : List (RangeOrder String × StoreOp)) :
    ∃ u, t.calls A ops = some u ∧
      u.Shows A k ((ops.map Prod.snd).foldl (DocStore.apply k.is16) s) := by
  induction ops generalizing t s with
  | nil => exact ⟨t, rfl, h⟩
  | cons op ops ih =>
    obtain ⟨t₁, reply, h₁, -, hsh⟩ := h.call op.1 op.2
    obtain ⟨u, hu, hend⟩ := ih hsh
    refine ⟨u, ?_, hend⟩
    rw [GoTable.calls, h₁]
    exact hu

lemma decode_storedVec (A : Arith) (k : Kernels) {vec : List F32}
    (h : k.is16 = true → ∃ data16, EncodeFP16 vec = .ok data16) :
    Kernels.decode k (storedVec A k.is16 vec).cell = Kernels.readBack k vec := by
  unfold storedVec Kernels.readBack
  cases h16 : k.is16 with
  | false => rfl
  | true =>
    obtain ⟨data16, hd⟩ := h h16
    simp [hd, Kernels.decode]

lemma GoTable.Shows.get (h : t.Shows A k s) (R : RangeOrder String) (id : String) :
    t.Get R id = some (s.Get k id) := by
  obtain ⟨hwf, rfl, hsh⟩ := h
  rw [hwf.get, Table.get_view, View.Get, DocStore.Get, hsh.docs, GoTable.abs_kernels]
  cases hd : s.docs id with
  | none => rfl
  | some d =>
    simp only [Option.map_some, render, Option.map_map]
    congr 3
    funext col
    cases hv : d.vectors col with
    | none => rfl
    | some vec =>
      have henc := fun h16 => hsh.encodes h16 id d col vec hd hv
      exact congrArg some (decode_storedVec A t.kernels henc)

end Calls

/-- After every history the table answers every call as the store of documents does. -/
theorem table_refines_documents (A : Arith) (k : Kernels)
    (ops : List (RangeOrder String × StoreOp)) :
    ∃ t, (GoTable.NewTable k).calls A ops = some t ∧
      (∀ R id, t.Get R id = some ((DocStore.applyAll k.is16 (ops.map Prod.snd)).Get k id)) ∧
      t.dims = (DocStore.applyAll k.is16 (ops.map Prod.snd)).dims ∧
      ∀ R op, ∃ u reply, t.call A R op = some (u, reply) ∧
        (DocStore.applyAll k.is16 (ops.map Prod.snd)).Answers k.is16 op reply := by
  obtain ⟨t, ht, hsh⟩ := (GoTable.new_shows A k).calls ops
  refine ⟨t, ht, fun R id => hsh.get R id, ?_, ?_⟩
  · rw [GoTable.dims_abs]
    exact hsh.shown.dims
  · intro R op
    obtain ⟨u, reply, hu, hans, -⟩ := hsh.call R op
    exact ⟨u, reply, hu, hans⟩

end CloudyNeigh.Query
