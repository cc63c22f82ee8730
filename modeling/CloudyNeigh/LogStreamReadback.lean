import CloudyNeigh.LogStreamLinear

/-!
# What an acknowledged append gives back

`Append` puts no bound on its records and `Read` scans with the default limit of
RecordIO. So a batch comes back exactly when its records are within that limit.
-/
namespace CloudyNeigh.LogStream
open RecordIO Transition

lemma readObject_payload_iff (batch : List Bytes) :
    readObject (some (payload batch)) = .ok batch ↔
      ∀ r ∈ batch, r.length ≤ DefaultMaxRecordSize := by
  constructor
  · intro h
    rw [readObject_some] at h
    split at h
    · cases h
    · -- the scanner never returns a record over its limit
      have hle := readAll_le (payload batch)
      rw [Except.ok.inj h] at hle
      exact hle
  · exact readObject_payload

lemma returned_pos {pfx : Bytes} {s : State} (hs : (machine pfx).Reachable s)
    (hlen : s.objects.length < 2 ^ 64 - 1) {c a : ℕ} (hc : (s.calls c).pc = .returned a) :
    a ≠ 0 := by
  have hi := inv_reachable hs
  obtain ⟨i, -, -, rfl⟩ := hi.toContiguous.owner_index hlen (hi.owns_returned hc)
  omega

/-- After `Append` returned a number, `Read` of that number on any log of the
prefix returns the batch if and only if no record is over the scanner's limit. -/
theorem read_returns_append_iff (pfx : Bytes) {s t : State} (hs : (machine pfx).Reachable s)
    (hst : (machine pfx).Run anyStep s t) (hlen : t.objects.length < 2 ^ 64 - 1) {c a : ℕ}
    (hc : (s.calls c).pc = .returned a) :
    Read pfx t a = .ok (s.calls c).batch ↔
      ∀ r ∈ (s.calls c).batch, r.length ≤ DefaultMaxRecordSize := by
  have ht := hs.run hst
  have hl := later_run hs hst
  have hpos : a ≠ 0 := returned_pos ht hlen (by rw [hl.returned c a hc, hc])
  rw [Read, if_neg hpos, hl.get_returned ht hc]
  exact readObject_payload_iff _

-- The first append of a fresh log, whatever its batch holds.
def firstAppend (batch : List Bytes) : List Action :=
  [.call 0 0 batch, .step 0 .local, .step 0 (.listed []), .step 0 .local, .step 0 .local,
   .step 0 .putOk, .step 0 .local, .step 0 .local]

lemma firstAppend_returns (pfx : Bytes) {batch : List Bytes} (hne : batch ≠ []) :
    ∃ s, (machine pfx).Reachable s ∧ (s.calls 0).pc = .returned 1 ∧ (s.calls 0).batch = batch ∧
      s.objects.length = 1 := by
  have hstart : appendStart batch = .checkKnown := by
    obtain ⟨w, hw, -⟩ := writeAll_encode NewWriter batch rfl
    simp [appendStart, hne, hw]
  have hcall : step pfx (machine pfx).init (.call 0 0 batch) = some
      { (machine pfx).init with
        calls := Function.update (machine pfx).init.calls 0 ⟨0, batch, .checkKnown⟩ } := by
    rw [← hstart]
    rfl
  have hexec : ∃ s, (machine pfx).exec anyStep (machine pfx).init (firstAppend batch) = some s ∧
      (s.calls 0).pc = .returned 1 ∧ (s.calls 0).batch = batch ∧ s.objects.length = 1 := by
    simp only [firstAppend, Machine.exec, anyStep, if_true, show (machine pfx).step = step pfx from rfl,
      hcall]
    exact ⟨_, rfl, rfl, rfl, rfl⟩
  obtain ⟨s, hs, hpc, hb, hl⟩ := hexec
  exact ⟨s, Machine.exec_run hs, hpc, hb, hl⟩

/-- A record at the limit comes back. -/
theorem read_returns_append_at_limit : ∃ s : State, (s.calls 0).pc = .returned 1 ∧
    (s.calls 0).batch = [List.replicate DefaultMaxRecordSize 0] ∧
    Read (ascii "wal") s 1 = .ok (s.calls 0).batch := by
  obtain ⟨s, hs, hpc, hb, hl⟩ := firstAppend_returns (ascii "wal")
    (List.cons_ne_nil (List.replicate DefaultMaxRecordSize 0) [])
  refine ⟨s, hpc, hb, (read_returns_append_iff (ascii "wal") hs (Machine.Run.refl s) (by omega)
    hpc).mpr ?_⟩
  rw [hb]
  intro r hr
  rw [List.mem_singleton.mp hr, List.length_replicate]

/-- One byte more, and `Append` returns a number that `Read` cannot read. -/
theorem read_refuses_acknowledged : ∃ s : State, (machine (ascii "wal")).Reachable s ∧
    (s.calls 0).pc = .returned 1 ∧
    (s.calls 0).batch = [List.replicate (DefaultMaxRecordSize + 1) 0] ∧
    Read (ascii "wal") s 1 = .error (.scan .recordTooLarge) := by
  obtain ⟨s, hs, hpc, hb, -⟩ := firstAppend_returns (ascii "wal")
    (List.cons_ne_nil (List.replicate (DefaultMaxRecordSize + 1) 0) [])
  refine ⟨s, hs, hpc, hb, ?_⟩
  have hget := (later_run hs (Machine.Run.refl s)).get_returned hs hpc
  have hlen : (List.replicate (DefaultMaxRecordSize + 1) (0 : UInt8)).length =
      DefaultMaxRecordSize + 1 := List.length_replicate
  have herr := readAll_too_large (r := List.replicate (DefaultMaxRecordSize + 1) 0)
    (by rw [hlen]; omega) (by rw [hlen]; simp [DefaultMaxRecordSize])
  rw [Read, if_neg one_ne_zero, hget, hb, readObject_some, payload_encode, herr]

end CloudyNeigh.LogStream
