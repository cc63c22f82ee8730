import CloudyNeigh.QueryReplay

/-!
# Applying a batch again

After a list of mutations has been applied, every one of them is settled: its
document has a row and its columns exist with the right dimension, so applying
the list again can neither fail nor change the frame of the view. The documents
themselves come out the same because edits replay.
-/
namespace CloudyNeigh.Query
open Replay Storage VectorFormat

section
variable (A : Arith) (D : Decoder) (is16 : Bool)

def Record.vecs (r : Record) : GoMap (List F32) := GoMap.map (fun x => x.getD []) r.Vectors

def Record.staged (r : Record) : String → Option StagedVector :=
  r.vecs.entries.foldl (stageOne A is16) fun _ => none

/-- The mutation puts this record, and no check that is independent of the table rejects it. -/
structure PutOf (m : DocumentMutation) (r : Record) : Prop where
  op : m.op = .put
  decoded : D.record m.payload = some r
  id_ne : r.Id ≠ ""
  noNil : r.Vectors.entries.find? (fun e => e.2.isNone) = none

/-- The edits that a mutation makes to one document. -/
def editsOf (id : String) (m : DocumentMutation) : List (Edit Doc) :=
  match m.op with
  | .delete => if m.docId = id then [.erase] else []
  | .put =>
    match D.record m.payload with
    | some r =>
      if r.Id = id then [.patch (patchOf is16 (Record.staged A is16 r) r.Attributes)] else []
    | none => []
  | .unspecified => []

structure SettledPut (v : View) (r : Record) : Prop where
  row : r.Id ∈ v.order
  vectors : ∀ e ∈ r.vecs.entries, e.2 = [] ∨
    (v.dims e.1 = some e.2.length ∧ ∃ sv, stageVector A is16 e.2 = .ok sv)
  attrs : ∀ k, (r.Attributes.lookup k).join.isSome → v.cols k = true

def Settled (v : View) (m : DocumentMutation) : Prop :=
  m.op = .delete ∨ ∃ r, PutOf D m r ∧ SettledPut A is16 v r

end

/-- The frame of a view only grows. -/
structure View.FrameLe (v w : View) : Prop where
  order : ∀ id ∈ v.order, id ∈ w.order
  dims : ∀ col d, v.dims col = some d → w.dims col = some d
  cols : ∀ k, v.cols k = true → w.cols k = true

structure View.SameFrame (v w : View) : Prop where
  order : w.order = v.order
  dims : w.dims = v.dims
  cols : w.cols = v.cols

section
variable {A : Arith} {D : Decoder} {is16 : Bool} {v w : View} {m : DocumentMutation} {r : Record}

/-- Everything that one accepted mutation can do to the view. -/
lemma View.applyMutation_ok (h : v.applyMutation A D is16 m = .ok w) :
    (m.op = .delete ∧ w = v.Delete m.docId) ∨
      ∃ r, PutOf D m r ∧ (∀ e ∈ r.vecs.entries, Accepts A is16 v.dims e) ∧
        w = v.write is16 r.Id (r.staged A is16) r.Attributes := by
  unfold View.applyMutation at h
  split at h
  · rename_i hop
    right
    split at h
    · cases h
    · rename_i r hrec
      split at h
      · cases h
      · rename_i v' hup
        cases h
        unfold View.UpsertRecord at hup
        split at hup
        · cases hup
        · rename_i hnil
          unfold View.Upsert at hup
          split at hup
          · cases hup
          · rename_i hid
            split at hup
            · cases hup
            · rename_i staged hst
              cases hup
              obtain ⟨hacc, rfl⟩ := stage_ok hst
              exact ⟨r, ⟨hop, hrec, hid, hnil⟩, hacc, rfl⟩
  · rename_i hop
    cases h
    exact Or.inl ⟨hop, rfl⟩
  · cases h

lemma View.applyMutation_put (hp : PutOf D m r)
    (hacc : ∀ e ∈ r.vecs.entries, Accepts A is16 v.dims e) :
    v.applyMutation A D is16 m = .ok (v.write is16 r.Id (r.staged A is16) r.Attributes) := by
  have hst := stage_of_accepts hacc fun _ => none
  unfold View.applyMutation View.UpsertRecord View.Upsert
  simp only [hp.op, hp.decoded, hp.noNil, hp.id_ne, if_false]
  unfold Record.vecs at hst
  simp only [hst]
  rfl

lemma View.applyMutation_delete (hop : m.op = .delete) :
    v.applyMutation A D is16 m = .ok (v.Delete m.docId) := by
  unfold View.applyMutation
  simp only [hop]

lemma frameLe_write (v : View) (is16 : Bool) (id : String)
    (staged : String → Option StagedVector) (attrs : GoMap (Option AttributeValue)) :
    v.FrameLe (v.write is16 id staged attrs) := by
  refine ⟨?_, ?_, ?_⟩
  · intro id' h
    exact mem_addKey.mpr (Or.inl h)
  · intro col d h
    simp [View.write, h]
  · intro k h
    simp [View.write, h]

lemma View.applyMutation_frame (h : v.applyMutation A D is16 m = .ok w) : v.FrameLe w := by
  rcases View.applyMutation_ok h with ⟨-, rfl⟩ | ⟨r, -, -, rfl⟩
  · exact ⟨fun _ h => h, fun _ _ h => h, fun _ h => h⟩
  · exact frameLe_write v is16 _ _ _

lemma Settled.mono (h : Settled A D is16 v m) (hle : v.FrameLe w) : Settled A D is16 w m := by
  rcases h with hdel | ⟨r, hp, hs⟩
  · exact Or.inl hdel
  · refine Or.inr ⟨r, hp, hle.order _ hs.row, ?_, fun k hk => hle.cols k (hs.attrs k hk)⟩
    intro e he
    rcases hs.vectors e he with hnil | ⟨hd, hsv⟩
    · exact Or.inl hnil
    · exact Or.inr ⟨hle.dims _ _ hd, hsv⟩

lemma settled_of_apply (h : v.applyMutation A D is16 m = .ok w) : Settled A D is16 w m := by
  rcases View.applyMutation_ok h with ⟨hop, -⟩ | ⟨r, hp, hacc, rfl⟩
  · exact Or.inl hop
  · refine Or.inr ⟨r, hp, mem_addKey.mpr (Or.inr rfl), ?_, ?_⟩
    · intro e he
      rcases hacc e he with hnil | ⟨hd, sv, hsv⟩
      · exact Or.inl hnil
      · by_cases hnil : e.2 = []
        · exact Or.inl hnil
        · refine Or.inr ⟨?_, sv, hsv⟩
          have hst : r.staged A is16 e.1 = some sv :=
            staged_of_mem r.vecs.nodupKeys he hnil hsv
          cases hdim : v.dims e.1 with
          | none => simp [View.write, hdim, hst, (stageVector_ok hsv).1]
          | some d => simp [View.write, hdim, hd d hdim]
    · intro k hk
      simp [View.write, hk]

lemma SettledPut.accepts (h : SettledPut A is16 v r) :
    ∀ e ∈ r.vecs.entries, Accepts A is16 v.dims e := by
  intro e he
  rcases h.vectors e he with hnil | ⟨hd, hsv⟩
  · exact Or.inl hnil
  · refine Or.inr ⟨?_, hsv⟩
    intro d hd'
    rw [hd] at hd'
    exact (Option.some.inj hd').symm

lemma SettledPut.sameFrame (h : SettledPut A is16 v r) :
    v.SameFrame (v.write is16 r.Id (r.staged A is16) r.Attributes) := by
  refine ⟨addKey_of_mem h.row, ?_, ?_⟩
  · funext col
    cases hs : r.staged A is16 col with
    | none => simp [View.write, hs]
    | some sv =>
      rcases mem_of_staged hs with hnone | ⟨vec, hm, hne, hsv⟩
      · cases hnone
      · rcases h.vectors _ hm with hnil | ⟨hd, -⟩
        · exact absurd hnil hne
        · simp only [View.write, hd]
          rfl
  · funext k
    cases hk : (r.Attributes.lookup k).join with
    | none => simp [View.write, hk]
    | some x => simp [View.write, hk, h.attrs k (by simp [hk])]

lemma Settled.apply (h : Settled A D is16 v m) :
    ∃ w, v.applyMutation A D is16 m = .ok w ∧ v.SameFrame w := by
  rcases h with hdel | ⟨r, hp, hs⟩
  · exact ⟨_, View.applyMutation_delete hdel, rfl, rfl, rfl⟩
  · exact ⟨_, View.applyMutation_put hp hs.accepts, hs.sameFrame⟩

lemma View.SameFrame.le (h : v.SameFrame w) : v.FrameLe w := by
  obtain ⟨ho, hd, hc⟩ := h
  exact ⟨fun _ hi => ho ▸ hi, fun _ _ hi => hd ▸ hi, fun _ hi => hc ▸ hi⟩

lemma View.applyMutation_doc (h : v.applyMutation A D is16 m = .ok w) (id : String) :
    w.doc id = runEdits (editsOf A D is16 id m) (v.doc id) := by
  rcases View.applyMutation_ok h with ⟨hop, rfl⟩ | ⟨r, hp, -, rfl⟩
  · simp only [editsOf, hop, View.Delete]
    by_cases hid : m.docId = id
    · subst hid
      simp [runEdits, Edit.apply]
    · rw [Function.update_of_ne (Ne.symm hid), if_neg hid]
      rfl
  · simp only [editsOf, hp.op, hp.decoded, View.write]
    by_cases hid : r.Id = id
    · subst hid
      simp [runEdits]
    · rw [Function.update_of_ne (Ne.symm hid), if_neg hid]
      rfl

end

section Runs
variable {A : Arith} {D : Decoder} {is16 : Bool} {v w : View} {ms : List DocumentMutation}

lemma View.applyAll_settled (h : v.applyAll A D is16 ms = .ok w) :
    v.FrameLe w ∧ ∀ m ∈ ms, Settled A D is16 w m := by
  induction ms generalizing v with
  | nil =>
    cases h
    exact ⟨⟨fun _ h => h, fun _ _ h => h, fun _ h => h⟩, by simp⟩
  | cons m ms ih =>
    rw [View.applyAll] at h
    split at h
    · cases h
    · rename_i u hu
      obtain ⟨hle, hset⟩ := ih h
      have hvu := View.applyMutation_frame hu
      refine ⟨⟨fun id hi => hle.order id (hvu.order id hi),
        fun col d hd => hle.dims col d (hvu.dims col d hd),
        fun k hk => hle.cols k (hvu.cols k hk)⟩, ?_⟩
      intro m' hm'
      rcases List.mem_cons.mp hm' with rfl | hrest
      · exact (settled_of_apply hu).mono hle
      · exact hset m' hrest

lemma View.applyAll_doc (h : v.applyAll A D is16 ms = .ok w) (id : String) :
    w.doc id = runEdits (ms.flatMap (editsOf A D is16 id)) (v.doc id) := by
  induction ms generalizing v with
  | nil =>
    cases h
    rfl
  | cons m ms ih =>
    rw [View.applyAll] at h
    split at h
    · cases h
    · rename_i u hu
      rw [ih h, View.applyMutation_doc hu, List.flatMap_cons]
      simp [runEdits]

lemma View.applyAll_of_settled (h : ∀ m ∈ ms, Settled A D is16 v m) :
    ∃ w, v.applyAll A D is16 ms = .ok w ∧ v.SameFrame w := by
  induction ms generalizing v with
  | nil => exact ⟨v, rfl, rfl, rfl, rfl⟩
  | cons m ms ih =>
    obtain ⟨u, hu, hvu⟩ := (h m List.mem_cons_self).apply
    obtain ⟨w, hw, huw⟩ := ih fun m' hm' => (h m' (List.mem_cons_of_mem _ hm')).mono hvu.le
    refine ⟨w, ?_, huw.order.trans hvu.order, huw.dims.trans hvu.dims, huw.cols.trans hvu.cols⟩
    rw [View.applyAll, hu]
    exact hw

/-- A batch that was applied can be applied again, without effect. -/
theorem View.applyAll_twice (h : v.applyAll A D is16 ms = .ok w) :
    w.applyAll A D is16 ms = .ok w := by
  obtain ⟨u, hu, hframe⟩ := View.applyAll_of_settled (View.applyAll_settled h).2
  rw [hu]
  congr 1
  ext1
  · exact hframe.order
  · funext id
    rw [View.applyAll_doc hu, View.applyAll_doc h, runEdits_twice]
  · exact hframe.dims
  · exact hframe.cols

/-- A batch after one of its prefixes is the batch. -/
theorem View.applyAll_absorb {qs : List DocumentMutation} {u : View} (hq : qs <+: ms)
    (h : v.applyAll A D is16 qs = .ok u) :
    u.applyAll A D is16 ms = v.applyAll A D is16 ms := by
  obtain ⟨rs, rfl⟩ := hq
  rw [View.applyAll_append h, View.applyAll_append (View.applyAll_twice h)]

end Runs

end CloudyNeigh.Query
