import CloudyNeigh.LogStreamContiguity
import CloudyNeigh.RecordIOExact

/-!
# Appends are linearizable

An append takes effect when its object is created. The order of these moments is
the order of the sequence numbers, and an object never changes afterwards.
-/
namespace CloudyNeigh.LogStream
open RecordIO Transition

def State.Get (s : State) (key : Bytes) : Option Bytes :=
  (s.objects.find? fun o => o.key == key).map Obj.data

inductive LogErr
  | zeroSeq
  | endOfStream
  | scan (e : ScanErr)
  deriving DecidableEq, Repr

/-- What `Log.Read` makes of the object it got. -/
def readObject : Option Bytes → Except LogErr (List Bytes)
  | none => .error .endOfStream
  | some data =>
    match readAll data with
    | (records, sc) =>
      match sc.err with
      | some e => .error (.scan e)
      | none => .ok records

def Read (pfx : Bytes) (s : State) (seq : ℕ) : Except LogErr (List Bytes) :=
  if seq = 0 then .error .zeroSeq else readObject (s.Get (segmentKey pfx seq))

lemma readObject_some (data : Bytes) : readObject (some data) =
    match (readAll data).2.err with
    | some e => .error (.scan e)
    | none => .ok (readAll data).1 := by
  rw [readObject]

theorem readObject_payload {batch : List Bytes}
    (hl : ∀ r ∈ batch, r.length ≤ DefaultMaxRecordSize) :
    readObject (some (payload batch)) = .ok batch := by
  obtain ⟨hrec, herr⟩ := readAll_encode batch hl
  rw [payload_encode, readObject_some, hrec, herr]

/-- Every object was created by a call that had started, from that call's batch. -/
def Authored (s : State) : Prop :=
  ∀ o ∈ s.objects, (s.calls o.writer).pc ≠ .idle ∧ o.data = payload (s.calls o.writer).batch

section Step
variable {pfx : Bytes} {s t : State} {c : ℕ}

lemma Pc.ne_idle_of_active {pc : Pc} (h : pc.active = true) : pc ≠ .idle := by
  rintro rfl
  cases h

lemma Effect.batch (h : Effect pfx s c t) {d : ℕ} (hd : (s.calls d).pc ≠ .idle) :
    (t.calls d).batch = (s.calls d).batch := by
  cases h with
  | start log batch idle =>
    have hne : d ≠ c := by
      rintro rfl
      exact hd idle
    simp [hne]
  | move pc => exact goto_batch s c pc d
  | learn v pc => exact goto_batch _ c pc d
  | create seq pc => exact goto_batch _ c pc d

lemma Effect.ne_idle (h : Effect pfx s c t) {d : ℕ} (hd : (s.calls d).pc ≠ .idle) :
    (t.calls d).pc ≠ .idle := by
  by_cases hdc : d = c
  · subst hdc
    exact h.own_pc.1
  · rwa [h.other_call hdc]

lemma Effect.returned (h : Effect pfx s c t) {d a : ℕ} (hd : (s.calls d).pc = .returned a) :
    t.calls d = s.calls d := by
  apply h.other_call
  rintro rfl
  cases h with
  | start log batch idle => simp [hd] at idle
  | move pc busy | learn v pc busy | create seq pc busy => simp [hd, Pc.active] at busy

lemma Effect.authored (h : Effect pfx s c t) (hs : Authored s) : Authored t := by
  have hold : ∀ o ∈ s.objects,
      (t.calls o.writer).pc ≠ .idle ∧ o.data = payload (t.calls o.writer).batch := by
    intro o ho
    obtain ⟨hb, hd⟩ := hs o ho
    exact ⟨h.ne_idle hb, by rw [hd, h.batch hb]⟩
  cases h with
  | start | move | learn => exact hold
  | create seq pc busy stays =>
    intro o ho
    simp only [goto_objects, commit_objects, List.mem_append, List.mem_singleton] at ho
    rcases ho with ho | rfl
    · exact hold o ho
    · rw [goto_calls_self]
      exact ⟨stays, rfl⟩

lemma authored_reachable (h : (machine pfx).Reachable s) : Authored s := by
  have hboth : Inv pfx s ∧ Authored s := by
    refine Machine.Reachable.invariant (P := fun s => Inv pfx s ∧ Authored s) ?_ ?_ h
    · exact ⟨inv_reachable (Machine.Run.refl _), by simp [Authored, machine]⟩
    · rintro s a t ⟨hi, ha⟩ hst
      obtain ⟨c, he⟩ := step_effect hi hst
      exact ⟨inv_step hi hst, he.authored ha⟩
  exact hboth.2

/-- What stays as it was in every later state. -/
structure Later (s t : State) : Prop where
  grows : Grows s t
  returned : ∀ d a, (s.calls d).pc = .returned a → t.calls d = s.calls d

lemma later_run (hs : (machine pfx).Reachable s) (h : (machine pfx).Run anyStep s t) :
    Later s t := by
  refine Machine.Run.relates (R := Later) ?_ ?_ ?_ hs h
  · exact fun s => ⟨List.prefix_rfl, fun _ _ _ => rfl⟩
  · intro s t u hst htu
    refine ⟨hst.grows.trans htu.grows, ?_⟩
    intro d a hd
    have h1 := hst.returned d a hd
    rw [htu.returned d a (by rw [h1, hd]), h1]
  · intro s a t hs _ hst
    obtain ⟨c, he⟩ := step_effect (inv_reachable hs) hst
    exact ⟨he.grows, fun d a hd => he.returned hd⟩

end Step

section Order
variable {pfx : Bytes} {s t : State}

lemma Contiguous.get_of_mem (h : Contiguous pfx s) {o : Obj} (ho : o ∈ s.objects) :
    s.Get o.key = some o.data := by
  unfold State.Get
  cases hf : s.objects.find? fun o' => o'.key == o.key with
  | none =>
    have := List.find?_eq_none.mp hf o ho
    simp at this
  | some o' =>
    have hk : o'.key = o.key := by simpa using List.find?_some hf
    rw [h.unique (List.mem_of_find?_eq_some hf) ho hk]
    rfl

lemma Inv.owns_returned (h : Inv pfx s) {c a : ℕ} (hc : (s.calls c).pc = .returned a) :
    Owns pfx s c a := by
  have hp := h.pc c
  rwa [hc] at hp

lemma Contiguous.owner_index (h : Contiguous pfx s) (hlen : s.objects.length < 2 ^ 64 - 1)
    {c a : ℕ} (ho : Owns pfx s c a) :
    ∃ i, ∃ hi : i < s.objects.length, s.objects[i].writer = c ∧ a = i + 1 := by
  obtain ⟨hb, o, hm, hk, hw⟩ := ho
  obtain ⟨i, hi, rfl⟩ := List.mem_iff_getElem.mp hm
  rw [h.key_of_lt hlen i hi] at hk
  exact ⟨i, hi, hw, (segmentKey_injective (by omega) hb hk).symm⟩

lemma returned_ne (h : Inv pfx s) {c d a b : ℕ} (hne : c ≠ d)
    (hc : (s.calls c).pc = .returned a) (hd : (s.calls d).pc = .returned b) : a ≠ b := by
  obtain ⟨-, o, ho, hk, hw⟩ := h.owns_returned hc
  obtain ⟨-, o', ho', hk', hw'⟩ := h.owns_returned hd
  rintro rfl
  apply hne
  rw [← hw, ← hw', h.unique ho ho' (hk.trans hk'.symm)]

/-- An object of a call that has not started yet lies beyond the present end. -/
lemma returned_lt (hs : (machine pfx).Reachable s) (hst : (machine pfx).Run anyStep s t)
    (hlen : t.objects.length < 2 ^ 64 - 1) {c d a b : ℕ} (hc : (s.calls c).pc = .returned a)
    (hidle : (s.calls d).pc = .idle) (hd : (t.calls d).pc = .returned b) : a < b := by
  have hg := (later_run hs hst).grows
  have hit := inv_reachable (hs.run hst)
  have his := inv_reachable hs
  obtain ⟨i, hi, -, rfl⟩ := his.toContiguous.owner_index (by have := hg.length_le; omega)
    (his.owns_returned hc)
  obtain ⟨j, hj, hjw, rfl⟩ := hit.toContiguous.owner_index hlen (hit.owns_returned hd)
  by_contra hle
  have hjs : j < s.objects.length := by omega
  have hsame : t.objects[j] = s.objects[j] := (hg.getElem hjs).symm
  rw [hsame] at hjw
  exact (authored_reachable hs s.objects[j] (List.getElem_mem hjs)).1 (hjw ▸ hidle)

end Order

/-- The object of a returned call still holds that call's segment in every later state. -/
lemma Later.get_returned {pfx : Bytes} {s t : State} (ht : (machine pfx).Reachable t)
    (hl : Later s t) {c a : ℕ} (hc : (s.calls c).pc = .returned a) :
    t.Get (segmentKey pfx a) = some (payload (s.calls c).batch) := by
  have hit := inv_reachable ht
  have hcall := hl.returned c a hc
  obtain ⟨-, o, ho, hk, hw⟩ := hit.owns_returned (hcall ▸ hc)
  have hdata := (authored_reachable ht o ho).2
  rw [← hk, hit.get_of_mem ho, hdata, hw, hcall]

/-- Linearizability of `Append`, for a state and any state after it. -/
theorem append_linearizable (pfx : Bytes) {s t : State} (hs : (machine pfx).Reachable s)
    (hst : (machine pfx).Run anyStep s t) (hlen : t.objects.length < 2 ^ 64 - 1) :
    (∀ c d a b, c ≠ d → (t.calls c).pc = .returned a → (t.calls d).pc = .returned b → a ≠ b) ∧
    (∀ c a, (s.calls c).pc = .returned a →
      t.calls c = s.calls c ∧ t.Get (segmentKey pfx a) = some (encode (s.calls c).batch)) ∧
    (∀ i (hi : i < t.objects.length), parseSeq t.objects[i].key = .ok (i + 1)) ∧
    (∀ c d a b, (s.calls c).pc = .returned a → (s.calls d).pc = .idle →
      (t.calls d).pc = .returned b → a < b) ∧
    (∀ o ∈ t.objects, ∃ c, (t.calls c).pc ≠ .idle ∧ o.data = encode (t.calls c).batch) := by
  have ht := hs.run hst
  have hit := inv_reachable ht
  have hl := later_run hs hst
  refine ⟨fun c d a b hne hc hd => returned_ne hit hne hc hd, ?_, ?_, ?_, ?_⟩
  · intro c a hc
    refine ⟨hl.returned c a hc, ?_⟩
    rw [hl.get_returned ht hc, payload_encode]
  · intro i hi
    rw [hit.key_of_lt hlen i hi, parseSeq_segmentKey pfx (by omega), if_neg (by omega)]
  · exact fun c d a b hc hidle hd => returned_lt hs hst hlen hc hidle hd
  · intro o ho
    obtain ⟨hb, hd⟩ := authored_reachable ht o ho
    exact ⟨o.writer, hb, by rw [hd, payload_encode]⟩

-- A first append on a fresh log.
def firstScript : List Action :=
  [.call 0 0 [[1]], .step 0 .local, .step 0 (.listed []), .step 0 .local, .step 0 .local,
   .step 0 .putOk, .step 0 .local, .step 0 .local]

-- A later append by another process, whose first create loses its acknowledgement:
-- the batch is stored a second time under the next number.
def lostScript : List Action :=
  [.call 1 1 [[2], [3]], .step 1 .local, .step 1 (.listed [segmentKey (ascii "wal") 1]),
   .step 1 .local, .step 1 .local, .step 1 .local, .step 1 .putLost,
   .step 1 (.listed [segmentKey (ascii "wal") 1, segmentKey (ascii "wal") 2]),
   .step 1 .putOk, .step 1 .local, .step 1 .local]

set_option maxRecDepth 4000 in
theorem append_linearizable_lost : ∃ s t : State, (machine (ascii "wal")).Reachable s ∧
    (machine (ascii "wal")).Run anyStep s t ∧ (s.calls 0).pc = .returned 1 ∧
    (s.calls 1).pc = .idle ∧ (t.calls 1).pc = .returned 3 ∧ t.calls 0 = s.calls 0 ∧
    t.Get (segmentKey (ascii "wal") 1) = some (encode [[1]]) ∧
    (∀ i (hi : i < t.objects.length), parseSeq t.objects[i].key = .ok (i + 1)) := by
  obtain ⟨s, t, hs, hst, h0, hb, h1, h2, hl⟩ := Machine.exec_exists_pair (machine (ascii "wal"))
    anyStep (machine (ascii "wal")).init firstScript lostScript
    (fun s t => (s.calls 0).pc = .returned 1 ∧ (s.calls 0).batch = [[1]] ∧
      (s.calls 1).pc = .idle ∧ (t.calls 1).pc = .returned 3 ∧ t.objects.length = 3)
    (by decide +kernel)
  obtain ⟨-, hkeep, horder, -, -⟩ := append_linearizable (ascii "wal") hs hst (by omega)
  obtain ⟨hcall, hget⟩ := hkeep 0 1 h0
  exact ⟨s, t, hs, hst, h0, h1, h2, hcall, hb ▸ hget, horder⟩

end CloudyNeigh.LogStream
