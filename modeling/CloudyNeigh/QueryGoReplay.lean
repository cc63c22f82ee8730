import CloudyNeigh.QueryIdempotent
import CloudyNeigh.QueryRanking

/-!
# Replaying mutations on the table

The mutation switch of the loader on the table with its checked slices and maps.
Which error is reported depends on the order in which a map is ranged over;
whether a mutation is accepted and what the table shows afterwards does not. So
the results about views hold of the table, whatever orders each pass takes.
-/
namespace CloudyNeigh.Query
open Checked Replay Storage VectorFormat

/-- One mutation of a segment; the outer `none` is a panic. -/
def GoTable.applyMutation (A : Arith) (D : Decoder) (R : RangeOrder String) (t : GoTable)
    (m : DocumentMutation) : Option (Except LoadErr GoTable) :=
  match m.op with
  | .put =>
    match D.record m.payload with
    | none => some (.error .unmarshalRecord)
    | some rec =>
      match t.UpsertRecord A R (some rec) with
      | none => none
      | some (_, some e) => some (.error (.upsert rec.Id e))
      | some (u, none) => some (.ok u)
  | .delete => (t.Delete m.docId).map fun x => .ok x.1
  | .unspecified => some (.error (.unknownOp .unspecified))

def GoTable.applyAll (A : Arith) (D : Decoder) :
    List (RangeOrder String × DocumentMutation) → GoTable → Option (Except LoadErr GoTable)
  | [], t => some (.ok t)
  | (R, m) :: ms, t =>
    match t.applyMutation A D R m with
    | none => none
    | some (.error e) => some (.error e)
    | some (.ok u) => GoTable.applyAll A D ms u

/-- No call of `Get` or `Search` tells the tables apart. -/
def GoTable.ObsEq (A : Arith) (t u : GoTable) : Prop :=
  (∀ R R' id, t.Get R id = u.Get R' id) ∧
    ∀ R R' col query topK metric filter,
      t.Search A R col query topK metric filter = u.Search A R' col query topK metric filter

section Order
variable {A : Arith} {is16 : Bool}

/-- What the checks accept and stage does not depend on the order of the map. -/
lemma stage_range (R : RangeOrder String) (n : ℕ) {dims : String → Option ℕ}
    {vectors : GoMap (List F32)} {staged : String → Option StagedVector} :
    stage A is16 dims (R.range n vectors).entries (fun _ => none) = .ok staged ↔
      stage A is16 dims vectors.entries (fun _ => none) = .ok staged := by
  -- both directions: the accepted entries are the same, and so is each staged vector
  have haux : ∀ m m' : GoMap (List F32), m.entries.Perm m'.entries →
      stage A is16 dims m.entries (fun _ => none) = .ok staged →
      stage A is16 dims m'.entries (fun _ => none) = .ok staged := by
    intro m m' hperm h
    have hacc : ∀ e ∈ m'.entries, Accepts A is16 dims e :=
      fun e he => (stage_ok h).1 e (hperm.mem_iff.mpr he)
    have h' := stage_of_accepts hacc fun _ => none
    rw [h']
    congr 1
    funext col
    ext sv
    rw [stage_lookup h' col sv, stage_lookup h col sv, AList.perm_lookup hperm]
  exact ⟨haux _ _ (R.perm n vectors), haux _ _ (R.perm n vectors).symm⟩

lemma View.upsert_range (R : RangeOrder String) (n : ℕ) {v w : View} {id : String}
    {vectors : GoMap (List F32)} {attrs : GoMap (Option AttributeValue)} :
    v.Upsert A is16 id (R.range n vectors) attrs = .ok w ↔
      v.Upsert A is16 id vectors attrs = .ok w := by
  have hiff : ∀ vectors : GoMap (List F32), v.Upsert A is16 id vectors attrs = .ok w ↔
      id ≠ "" ∧ ∃ staged, stage A is16 v.dims vectors.entries (fun _ => none) = .ok staged ∧
        v.write is16 id staged attrs = w := by
    intro vectors
    unfold View.Upsert
    split
    · simp_all
    · cases stage A is16 v.dims vectors.entries (fun _ => none) <;> simp_all
  simp only [hiff, stage_range]

end Order

/-- The table returns and shows the view, or both report an error. -/
inductive GoTable.Follows (k : Kernels) : Option (Except LoadErr GoTable) → Except LoadErr View → Prop
  | ok {u : GoTable} (wf : u.WF) (kernels : u.kernels = k) :
    GoTable.Follows k (some (.ok u)) (.ok u.abs.view)
  | error (e e' : LoadErr) : GoTable.Follows k (some (.error e)) (.error e')

section Refinement
variable {A : Arith} {D : Decoder} {t u : GoTable}

lemma GoTable.WF.represents (h : t.WF) : t.abs.Represents t.kernels t.abs.view :=
  ⟨h.lengths, rfl, rfl⟩

lemma GoTable.Follows.ok_iff {k : Kernels} {x : Option (Except LoadErr GoTable)}
    {y : Except LoadErr View} (h : GoTable.Follows k x y) :
    (∃ u, x = some (.ok u) ∧ u.WF ∧ u.kernels = k ∧ y = .ok u.abs.view) ∨
      ∃ e e', x = some (.error e) ∧ y = .error e' := by
  cases h with
  | ok wf kernels => exact Or.inl ⟨_, rfl, wf, kernels, rfl⟩
  | error e e' => exact Or.inr ⟨e, e', rfl, rfl⟩

lemma GoTable.WF.upsert_view (h : t.WF) (A : Arith) (R : RangeOrder String) {id : String}
    (vectors : GoMap (List F32)) {attrs : GoMap (Option AttributeValue)}
    (hn : t.abs.Clears id attrs) :
    (∃ u, t.Upsert A R attrs id vectors = some (u, none) ∧ u.WF ∧ u.kernels = t.kernels ∧
      t.abs.view.Upsert A t.kernels.is16 id vectors attrs = .ok u.abs.view) ∨
    ∃ e e', t.Upsert A R attrs id vectors = some (t, some e) ∧
      t.abs.view.Upsert A t.kernels.is16 id vectors attrs = .error e' := by
  have hup := h.upsert R A attrs id vectors
  have hview := h.represents.upsert A (R.range 0 vectors) hn
  generalize t.Upsert A R attrs id vectors = x at hup ⊢
  generalize t.abs.Upsert A id (R.range 0 vectors) attrs = y at hup hview
  cases hup with
  | ok hwf =>
    rcases hview.elim with ⟨t', v', ht, hv, hr⟩ | ⟨e, ht, -⟩
    · cases ht
      refine Or.inl ⟨_, rfl, hwf, hr.kernels, ?_⟩
      rw [hr.view]
      exact (View.upsert_range R 0).mp hv
    · cases ht
  | error e =>
    rcases hview.elim with ⟨t', v', ht, -⟩ | ⟨e', ht, hv⟩
    · cases ht
    · refine Or.inr ⟨e, ?_⟩
      cases hc : t.abs.view.Upsert A t.kernels.is16 id vectors attrs with
      | ok w =>
        rw [(View.upsert_range R 0).mpr hc] at hv
        cases hv
      | error e'' => exact ⟨e'', rfl, rfl⟩

lemma GoTable.WF.upsertRecord (h : t.WF) (R : RangeOrder String) {rec : Record} (hn : rec.NoNil) :
    (∃ u, t.UpsertRecord A R (some rec) = some (u, none) ∧ u.WF ∧ u.kernels = t.kernels ∧
      t.abs.view.UpsertRecord A t.kernels.is16 rec = .ok u.abs.view) ∨
    ∃ e e', t.UpsertRecord A R (some rec) = some (t, some e) ∧
      t.abs.view.UpsertRecord A t.kernels.is16 rec = .error e' := by
  have hnone : ∀ m : GoMap (Option (List F32)), m.entries.Perm rec.Vectors.entries →
      m.entries.find? (fun e => e.2.isNone) = none := by
    intro m hperm
    refine List.find?_eq_none.mpr fun e he => ?_
    simpa using hn.1 e (hperm.mem_iff.mp he)
  simp only [GoTable.UpsertRecord, View.UpsertRecord, hnone _ (R.perm 9 rec.Vectors),
    hnone _ (List.Perm.refl _)]
  exact h.upsert_view A R _ (hn.2.clears _ _)

theorem GoTable.WF.applyMutation (h : t.WF) (R : RangeOrder String) (m : DocumentMutation) :
    GoTable.Follows t.kernels (t.applyMutation A D R m)
      (t.abs.view.applyMutation A D t.kernels.is16 m) := by
  unfold GoTable.applyMutation View.applyMutation
  cases m.op with
  | unspecified => exact .error _ _
  | delete =>
    obtain ⟨u, hu, habs, hwf⟩ := h.delete m.docId
    have hr := h.represents.delete m.docId
    rw [← habs] at hr
    simp only [hu, Option.map_some, ← hr.view]
    exact .ok hwf hr.kernels
  | put =>
    cases hrec : D.record m.payload with
    | none => exact .error _ _
    | some rec =>
      dsimp only
      rcases h.upsertRecord (A := A) R (D.record_noNil _ _ hrec) with
        ⟨u, hu, hwf, hk, hv⟩ | ⟨e, e', hu, hv⟩
      · rw [hu, hv]
        exact .ok hwf hk
      · rw [hu, hv]
        exact .error _ _

theorem GoTable.WF.applyAll (h : t.WF) (ms : List (RangeOrder String × DocumentMutation)) :
    GoTable.Follows t.kernels (t.applyAll A D ms)
      (t.abs.view.applyAll A D t.kernels.is16 (ms.map Prod.snd)) := by
  induction ms generalizing t with
  | nil => exact .ok h rfl
  | cons rm ms ih =>
    obtain ⟨R, m⟩ := rm
    rw [List.map_cons]
    unfold GoTable.applyAll View.applyAll
    rcases (h.applyMutation (A := A) (D := D) R m).ok_iff with
      ⟨u, hu, hwf, hk, hv⟩ | ⟨e, e', hu, hv⟩
    · simp only [hu, hv]
      rw [← hk]
      exact ih hwf
    · simp only [hu, hv]
      exact .error _ _

lemma GoTable.WF.applyAll_ok (h : t.WF) {ms : List (RangeOrder String × DocumentMutation)}
    (hu : t.applyAll A D ms = some (.ok u)) : u.WF ∧ u.kernels = t.kernels ∧
      t.abs.view.applyAll A D t.kernels.is16 (ms.map Prod.snd) = .ok u.abs.view := by
  rcases (h.applyAll (A := A) (D := D) ms).ok_iff with ⟨u', hu', hwf, hk, hv⟩ | ⟨e, e', hu', -⟩
  · rw [hu] at hu'
    cases hu'
    exact ⟨hwf, hk, hv⟩
  · rw [hu] at hu'
    cases hu'

lemma GoTable.WF.applyAll_of_view (h : t.WF) {ms : List (RangeOrder String × DocumentMutation)}
    {w : View} (hw : t.abs.view.applyAll A D t.kernels.is16 (ms.map Prod.snd) = .ok w) :
    ∃ u, t.applyAll A D ms = some (.ok u) ∧ u.WF ∧ u.kernels = t.kernels ∧ u.abs.view = w := by
  rcases (h.applyAll (A := A) (D := D) ms).ok_iff with ⟨u, hu, hwf, hk, hv⟩ | ⟨e, e', -, hv⟩
  · rw [hw] at hv
    cases hv
    exact ⟨u, hu, hwf, hk, rfl⟩
  · rw [hw] at hv
    cases hv

lemma GoTable.WF.obsEq (ht : t.WF) (hu : u.WF) (hk : u.kernels = t.kernels)
    (hv : u.abs.view = t.abs.view) (A : Arith) : GoTable.ObsEq A t u := by
  have hobs : Query.ObsEq A t.abs u.abs := ht.represents.obsEq ⟨hu.lengths, hk, hv⟩ A
  refine ⟨fun R R' id => ?_, fun R R' col query topK metric filter => ?_⟩
  · rw [ht.get, hu.get, hobs.1]
  · rw [ht.search, hu.search, hobs.2]

end Refinement

/-- Mutations that were applied without an error can be applied again, in whatever
order the maps are ranged over, and no call tells the result from the first one;
the same holds after any prefix of them. -/
theorem replay_changes_nothing (A : Arith) (k : Kernels) (ops : List TableOp) (s : Tracked)
    (hs : (Tracked.new k).run A ops = some s) (D : Decoder)
    (p : List (RangeOrder String × DocumentMutation)) (t : GoTable)
    (hp : s.table.applyAll A D p = some (.ok t)) :
    (∀ p', p'.map Prod.snd = p.map Prod.snd →
      ∃ u, t.applyAll A D p' = some (.ok u) ∧ GoTable.ObsEq A t u) ∧
    ∀ q, q.map Prod.snd <+: p.map Prod.snd →
      ∃ u, s.table.applyAll A D q = some (.ok u) ∧
        ∀ p', p'.map Prod.snd = p.map Prod.snd →
          ∃ w, u.applyAll A D p' = some (.ok w) ∧ GoTable.ObsEq A t w := by
  obtain ⟨hinv, -⟩ := (Tracked.new_inv A k).of_run hs
  obtain ⟨hwf, hkern, hview⟩ := hinv.wf.applyAll_ok hp
  refine ⟨?_, ?_⟩
  · intro p' hp'
    have htwice := View.applyAll_twice hview
    rw [← hp', ← hkern] at htwice
    obtain ⟨u, hu, huwf, huk, huv⟩ := hwf.applyAll_of_view htwice
    exact ⟨u, hu, hwf.obsEq huwf huk huv A⟩
  · rintro q hq
    obtain ⟨rest, hrest⟩ := hq
    obtain ⟨v, hv⟩ : ∃ v, s.table.abs.view.applyAll A D s.table.kernels.is16 (q.map Prod.snd) =
        .ok v :=
      View.applyAll_left (hrest ▸ hview)
    obtain ⟨u, hu, huwf, huk, huv⟩ := hinv.wf.applyAll_of_view hv
    refine ⟨u, hu, fun p' hp' => ?_⟩
    have habsorb := View.applyAll_absorb ⟨rest, hrest⟩ hv
    rw [hview, ← huv, ← huk, ← hp'] at habsorb
    obtain ⟨w, hw, hwwf, hwk, hwv⟩ := huwf.applyAll_of_view habsorb
    exact ⟨w, hw, hwf.obsEq hwwf (hwk.trans (huk.trans hkern.symm)) hwv A⟩

/-- Every payload is the record "a" with the vector [1]. -/
def sampleDecoder : Decoder where
  mutation _ := none
  record _ := some ⟨"a", AList.singleton "v" (some [F32.one]), ∅⟩
  record_noNil := by
    rintro b r ⟨⟩
    refine ⟨fun e he => ?_, fun k => by simp⟩
    rw [List.mem_singleton.mp he]
    exact Option.some_ne_none _

def sampleMutations : List (RangeOrder String × DocumentMutation) :=
  [(.stored, ⟨"main", "a", .put, []⟩), (.stored, ⟨"main", "a", .delete, []⟩),
    (.stored, ⟨"main", "a", .put, []⟩), (.stored, ⟨"main", "b", .delete, []⟩)]

theorem replay_changes_nothing_sample : ∃ t u : GoTable,
    sampleTable.table.applyAll sampleArith sampleDecoder sampleMutations = some (.ok t) ∧
    t.applyAll sampleArith sampleDecoder sampleMutations = some (.ok u) ∧
    GoTable.ObsEq sampleArith t u := by
  have hok : (sampleTable.table.applyAll sampleArith sampleDecoder sampleMutations).any
      (fun r => r.toBool) = true := by decide +kernel
  obtain ⟨r, hr, hb⟩ := Option.any_eq_true .. |>.mp hok
  cases r with
  | error e => cases hb
  | ok t =>
    obtain ⟨u, hu, hobs⟩ := (replay_changes_nothing sampleArith sampleKernels sampleOps sampleTable
      sampleTable_run sampleDecoder sampleMutations t hr).1 sampleMutations rfl
    exact ⟨t, u, hr, hu, hobs⟩

end CloudyNeigh.Query
