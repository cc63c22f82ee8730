import CloudyNeigh.LogStreamHead
import CloudyNeigh.LogStreamShared

/-!
# When logs on two prefixes are independent

`List` selects by string prefix and `parseSeq` reads only the last path element,
so the keys of a log whose prefix lies below another log's prefix are taken for
entries of that log. `New` accepts such pairs. For all other pairs a run of both
logs, restricted to one of them, is a run of that log alone.
-/
namespace CloudyNeigh.LogStream
open RecordIO Transition

/-- The prefix `q` lies below `p`, as `a/b` lies below `a`. -/
def Below (q p : Bytes) : Prop := p ++ [slash] <+: q

instance (q p : Bytes) : Decidable (Below q p) := inferInstanceAs (Decidable (_ <+: _))

/-- What a log of the prefix `r` sees and answers, with the other logs there and without. -/
structure SameFor (logs : ℕ → Bytes) (r : Bytes) (s u : Shared) : Prop where
  calls : ∀ c, (s.base.calls c).isOf logs r → u.base.calls c = s.base.calls c
  tails : ∀ id c, s.tails id = some c → logs c.log = r → u.tails id = some c
  reads : ∀ id c, s.reads id = some c → logs c.log = r → u.reads id = some c
  objects : ∀ seq, u.base.Get (segmentKey r seq) = s.base.Get (segmentKey r seq)

/-- The numbers under the prefix are `1..T`, `Tail` finds `T` once nothing moves,
and every call on the prefix went as in a run without the other logs. -/
structure Isolated (logs : ℕ → Bytes) (r : Bytes) (s : Shared) : Prop where
  contiguous : ∃ T, (∀ seq < 2 ^ 64, s.base.present (segmentKey r seq) = true ↔ 1 ≤ seq ∧ seq ≤ T) ∧
    ∃ n, ∀ fuel ≥ n, Tail fuel r s.base = some (.ok T)
  alone : ∃ u, (sharedMachine logs).Run (onlyOf logs r) sharedInit u ∧ SameFor logs r s u

section Keys
variable {p q : Bytes}

/-- The keys of `q` start with `p/` only when `q` is `p` or lies below it. -/
lemma eq_or_below_of_isPrefixOf {seq : ℕ}
    (h : (p ++ [slash]).isPrefixOf (segmentKey q seq) = true) : q = p ∨ Below q p := by
  rw [List.isPrefixOf_iff_prefix] at h
  have hkey : segmentKey q seq = (q ++ [slash]) ++ (fixedDigits 20 seq ++ seqSuffix) := by
    simp [segmentKey]
  rw [hkey] at h
  have hle : p ++ [slash] <+: q ++ [slash] := by
    obtain ⟨rest, heq⟩ := h
    rcases List.append_eq_append_iff.mp heq with ⟨c, hc, -⟩ | ⟨c, hc, hd⟩
    · exact ⟨c, hc.symm⟩
    · -- `p/` ends inside the file name, which has no slash
      rcases List.eq_nil_or_concat c with rfl | ⟨c', b, rfl⟩
      · exact ⟨[], by rw [hc, List.append_nil, List.append_nil]⟩
      · have hb : slash = b := by
          rw [List.concat_eq_append, ← List.append_assoc] at hc
          exact (List.append_inj' hc rfl).2 |> List.singleton_inj.mp
        refine absurd ?_ (slash_not_mem_digits seq)
        rw [hd, hb]
        simp
  rcases List.prefix_concat_iff.mp hle with heq | hlt
  · exact .inl (List.append_cancel_right heq).symm
  · exact .inr hlt

lemma isPrefixOf_of_below (h : Below q p) (seq : ℕ) :
    (p ++ [slash]).isPrefixOf (segmentKey q seq) = true := by
  rw [List.isPrefixOf_iff_prefix]
  exact h.trans ⟨[slash] ++ fixedDigits 20 seq ++ seqSuffix, by simp [segmentKey]⟩

end Keys

section Alone
variable {logs : ℕ → Bytes} {r : Bytes} {s : Shared}

/-- No other prefix in use has keys that a listing of `r` returns. -/
def Apart (logs : ℕ → Bytes) (r : Bytes) : Prop := ∀ l, logs l ≠ r → ¬ Below (logs l) r

lemma Apart.outside (h : Apart logs r) {l : ℕ} (hl : logs l ≠ r) (seq : ℕ) :
    (r ++ [slash]).isPrefixOf (segmentKey (logs l) seq) = false := by
  by_contra hin
  rcases eq_or_below_of_isPrefixOf (by simpa using hin) with heq | hb
  · exact hl heq
  · exact h l hl hb

lemma restrict_init : sharedInit.restrict logs r = sharedInit := by
  simp only [Shared.restrict, sharedInit, State.restrict, List.filter_nil, ite_self,
    Option.filter_none]
  congr 2

/-- The restriction of a run to one prefix is a run of that prefix alone. -/
theorem run_restrict (h : Apart logs r) (hs : (sharedMachine logs).Reachable s) :
    (sharedMachine logs).Run (onlyOf logs r) sharedInit (s.restrict logs r) := by
  refine Machine.Reachable.invariant
    (P := fun s => (sharedMachine logs).Run (onlyOf logs r) sharedInit (s.restrict logs r)) ?_ ?_ hs
  · rw [show (sharedMachine logs).init = sharedInit from rfl, restrict_init]
    exact Machine.Run.refl _
  · intro s a t hrun hst
    by_cases ho : logs (s.logOf a) = r
    · obtain ⟨hown, hok⟩ := Shared.step_own hst ho
      exact hrun.snoc hok hown
    · rwa [Shared.step_other hst ho (h.outside ho)]

lemma sameFor_restrict : SameFor logs r s (s.restrict logs r) where
  calls _ hc := restrict_calls hc
  tails _ _ hq hl := by simp [Shared.restrict, hq, hl]
  reads _ _ hq hl := by simp [Shared.restrict, hq, hl]
  objects seq := restrict_get seq

/-- A run on one prefix is a run of the machine of that prefix. -/
lemma base_reachable (hs : (sharedMachine logs).Run (onlyOf logs r) sharedInit s) :
    (machine r).Reachable s.base := by
  have hinit : (machine r).Reachable sharedInit.base := Machine.Run.refl _
  refine Machine.Run.preserves (P := fun s => (machine r).Reachable s.base) ?_ hs hinit
  intro s a t hr ho hst
  have hbase : t.base = s.base ∨ ∃ b, LogStream.step r s.base b = some t.base := by
    unfold onlyOf at ho
    cases a with
    | append a =>
      have happend : s.append r a = some t := by
        cases a with
        | call c log batch => exact ho ▸ hst
        | step c o =>
          simp only [sharedMachine, Shared.step] at hst
          split at hst
          · exact ho ▸ hst
          · cases hst
        | crash c => exact ho ▸ hst
      obtain ⟨b, hb, rfl⟩ := Option.map_eq_some_iff.mp happend
      exact .inr ⟨a, hb⟩
    | tail id log =>
      simp only [sharedMachine, Shared.step] at hst
      split at hst <;> cases hst
      exact .inl rfl
    | tailStep id o =>
      simp only [sharedMachine, Shared.step] at hst
      split at hst
      · cases hst
      · obtain ⟨q, -, rfl⟩ := Option.map_eq_some_iff.mp hst
        exact .inl rfl
    | read id log seq failed =>
      simp only [sharedMachine, Shared.step] at hst
      split at hst <;> cases hst
      exact .inl rfl
  rcases hbase with heq | ⟨b, hb⟩
  · rwa [heq]
  · exact Machine.Run.snoc hr trivial hb

lemma restrict_list (start : Bytes) (limit : ℕ) :
    (s.base.restrict logs r).List (r ++ [slash]) start limit =
      s.base.List (r ++ [slash]) start limit := by
  have hkeys : ((s.base.restrict logs r).objects.map Obj.key) =
      (s.base.objects.map Obj.key).filter fun k => (r ++ [slash]).isPrefixOf k := by
    rw [List.filter_map]
    rfl
  unfold State.List
  rw [hkeys, List.filter_filter]
  congr 3
  funext k
  cases (r ++ [slash]).isPrefixOf k <;> simp

lemma restrict_tail (fuel : ℕ) : Tail fuel r (s.base.restrict logs r) = Tail fuel r s.base := by
  unfold Tail head
  rw [restrict_list]
  simp only [restrict_present_segment]

theorem isolated_of_apart (h : Apart logs r) (hs : (sharedMachine logs).Reachable s)
    (hlen : s.base.objects.length < 2 ^ 64 - 1) : Isolated logs r s := by
  have hrun := run_restrict h hs
  have hc : Contiguous r (s.base.restrict logs r) :=
    (inv_reachable (base_reachable hrun)).toContiguous
  have hshort : (s.base.restrict logs r).objects.length < 2 ^ 64 - 1 :=
    lt_of_le_of_lt (List.length_filter_le _ _) hlen
  refine ⟨⟨(s.base.restrict logs r).objects.length, ?_, ?_⟩, _, hrun, sameFor_restrict⟩
  · intro seq hseq
    rw [← hc.present_iff_le hshort hseq, restrict_present_segment]
  · obtain ⟨n, hn⟩ := hc.tail hshort
    exact ⟨n, fun fuel hf => by rw [← hn fuel hf, restrict_tail]⟩

end Alone

section Nested
variable {p q : Bytes}

-- One batch appended to log 1 of a fresh store.
def appendBelow : List SharedAction :=
  [.append (.call 0 1 [[1]]), .append (.step 0 .local), .append (.step 0 (.listed [])),
   .append (.step 0 .local), .append (.step 0 .local), .append (.step 0 .putOk),
   .append (.step 0 .local), .append (.step 0 .local)]

def twoLogs (p q : Bytes) (l : ℕ) : Bytes := if l = 0 then p else q

lemma appendBelow_state (p q : Bytes) : ∃ s, (sharedMachine (twoLogs p q)).Reachable s ∧
    s.base.objects = [⟨segmentKey q 1, payload [[1]], 0⟩] := by
  have hexec : ∃ s, (sharedMachine (twoLogs p q)).exec anyStep sharedInit appendBelow = some s ∧
      s.base.objects = [⟨segmentKey q 1, payload [[1]], 0⟩] := ⟨_, rfl, rfl⟩
  obtain ⟨s, hs, ho⟩ := hexec
  exact ⟨s, Machine.exec_run hs, ho⟩

lemma below_ne (h : Below q p) : p ≠ q := by
  rintro rfl
  simpa using h.length_le

lemma segmentKey_pfx_injective {m n : ℕ} (h : segmentKey p m = segmentKey q n) : p = q := by
  simp only [segmentKey, List.append_assoc] at h
  exact (List.append_inj' h (by simp)).1

/-- The first entry of a log below `p` is the tail of `p`, which has no entry. -/
theorem not_isolated_of_below (h : Below q p) : ∃ s,
    (sharedMachine (twoLogs p q)).Reachable s ∧ s.base.objects.length < 2 ^ 64 - 1 ∧
      ¬ Isolated (twoLogs p q) p s := by
  obtain ⟨s, hs, ho⟩ := appendBelow_state p q
  refine ⟨s, hs, by simp [ho], ?_⟩
  rintro ⟨⟨T, hT, n, hn⟩, -⟩
  have habs : ∀ seq, s.base.present (segmentKey p seq) = false := by
    intro seq
    by_contra hp
    obtain ⟨o, hmem, hk⟩ := present_iff.mp (by simpa using hp)
    rw [ho, List.mem_singleton] at hmem
    rw [hmem] at hk
    exact below_ne h (segmentKey_pfx_injective hk).symm
  have hzero : T = 0 := by
    by_contra hpos
    have := (hT 1 (by omega)).mpr ⟨le_refl 1, by omega⟩
    rw [habs 1] at this
    cases this
  have hlist : s.base.List (p ++ [slash]) (headStart p 0) headListLimit = [segmentKey q 1] := by
    have hpos : ([] : Bytes) < segmentKey q 1 := by
      obtain ⟨b, rest, hk⟩ := List.exists_cons_of_ne_nil (by simp [segmentKey] : segmentKey q 1 ≠ [])
      rw [hk]
      exact .nil
    simp [State.List, ho, headStart, isPrefixOf_of_below h, hpos, headListLimit]
  have htail := hn n (le_refl n)
  simp only [Tail, head, hlist, headListed, List.getLast?_singleton,
    parseSeq_segmentKey q (by omega : 1 < 2 ^ 64)] at htail
  simp [headListLimit, hzero, probeAll] at htail

end Nested

/-- Logs on the prefixes `p` and `q` are independent in every run if and only if
neither prefix lies below the other. -/
theorem logs_independent_iff (p q : Bytes) :
    (∀ logs : ℕ → Bytes, (∀ l, logs l = p ∨ logs l = q) → ∀ s, (sharedMachine logs).Reachable s →
      s.base.objects.length < 2 ^ 64 - 1 → Isolated logs p s ∧ Isolated logs q s) ↔
      ¬ Below q p ∧ ¬ Below p q := by
  constructor
  · intro h
    constructor
    · intro hb
      obtain ⟨s, hs, hl, hn⟩ := not_isolated_of_below hb
      refine hn (h (twoLogs p q) (fun l => ?_) s hs hl).1
      by_cases hl : l = 0 <;> simp [twoLogs, hl]
    · intro hb
      obtain ⟨s, hs, hl, hn⟩ := not_isolated_of_below hb
      refine hn (h (twoLogs q p) (fun l => ?_) s hs hl).2
      by_cases hl : l = 0 <;> simp [twoLogs, hl]
  · rintro ⟨hqp, hpq⟩ logs hlogs s hs hl
    refine ⟨isolated_of_apart (fun l hne => ?_) hs hl, isolated_of_apart (fun l hne => ?_) hs hl⟩
    · rwa [(hlogs l).resolve_left hne]
    · rwa [(hlogs l).resolve_right hne]

-- `a/b` gets its first entry; `a` then takes it for its own and starts at 2.
def nestedScript : List SharedAction :=
  appendBelow ++
  [.append (.call 1 0 [[2]]), .append (.step 1 .local),
   .append (.step 1 (.listed [segmentKey (ascii "a/b") 1])), .append (.step 1 .local),
   .append (.step 1 .local), .append (.step 1 .local), .append (.step 1 .putOk),
   .append (.step 1 .local), .append (.step 1 .local)]

set_option maxRecDepth 4000 in
/-- Both prefixes are accepted, and the log `a` has an entry 2 but no entry 1. -/
theorem logs_interfere_nested : validPrefix (ascii "a") = true ∧ validPrefix (ascii "a/b") = true ∧
    ascii "a" ≠ ascii "a/b" ∧ ∃ s, (sharedMachine (twoLogs (ascii "a") (ascii "a/b"))).Reachable s ∧
      s.base.objects.length = 2 ∧ (s.base.calls 1).pc = .returned 2 ∧
      s.base.present (segmentKey (ascii "a") 2) = true ∧
      s.base.present (segmentKey (ascii "a") 1) = false ∧
      ¬ Isolated (twoLogs (ascii "a") (ascii "a/b")) (ascii "a") s := by
  obtain ⟨s, hr, hl, hpc, h2, h1⟩ := Machine.exec_exists
    (sharedMachine (twoLogs (ascii "a") (ascii "a/b"))) anyStep sharedInit nestedScript
    (fun s => s.base.objects.length = 2 ∧ (s.base.calls 1).pc = .returned 2 ∧
      s.base.present (segmentKey (ascii "a") 2) = true ∧
      s.base.present (segmentKey (ascii "a") 1) = false) (by decide +kernel)
  refine ⟨by decide, by decide, by decide, s, hr, hl, hpc, h2, h1, ?_⟩
  rintro ⟨⟨T, hT, -⟩, -⟩
  have hT2 := (hT 2 (by omega)).mp h2
  have hp := (hT 1 (by omega)).mpr ⟨le_refl 1, by omega⟩
  rw [h1] at hp
  cases hp

end CloudyNeigh.LogStream
