import CloudyNeigh.LogStreamTail
import Mathlib.Order.Monotone.Basic

/-!
# `Log.head` while the log grows

The store is a different one at each call: `stores 0` answers the `List` and
`stores k` the `k`-th probe. Every bound that `jump` keeps was observed at some
call, and the log only grows, so the result lies between the end of the log at
the first call and its end at the last one.
-/
namespace CloudyNeigh.LogStream
open RecordIO

/-- The probes of `jump`, the next one being number `k + 1`, with their count. -/
def probeDuring (found : ℕ → ℕ → Bool) : ℕ → ℕ → JumpNext → Option (ℕ × ℕ)
  | _, k, .done head => some (head, k)
  | 0, _, .probe _ => none
  | fuel + 1, k, .probe j => probeDuring found fuel (k + 1) (j.next (found (k + 1) j.target))

def headDuring (fuel : ℕ) (pfx : Bytes) (stores : ℕ → State) (lo : ℕ) :
    Option (Except KeyErr (ℕ × ℕ)) :=
  match headListed lo ((stores 0).List (pfx ++ [slash]) (headStart pfx lo) headListLimit) with
  | .error e => some (.error e)
  | .ok next =>
    (probeDuring (fun k seq => (stores k).present (segmentKey pfx seq)) fuel 0 next).map .ok

lemma probeDuring_quiet (found : ℕ → Bool) (fuel k : ℕ) (next : JumpNext) :
    (probeDuring (fun _ => found) fuel k next).map Prod.fst = probeAll found fuel next := by
  induction fuel generalizing k next with
  | zero => cases next <;> rfl
  | succ fuel ih =>
    cases next with
    | done head => rfl
    | probe j => exact ih _ _

/-- On a store that stays the same this is `head`. -/
lemma headDuring_quiet (fuel : ℕ) (pfx : Bytes) (s : State) (lo : ℕ) :
    (headDuring fuel pfx (fun _ => s) lo).map (Except.map Prod.fst) = head fuel pfx s lo := by
  unfold headDuring head
  cases headListed lo (s.List (pfx ++ [slash]) (headStart pfx lo) headListLimit) with
  | error e => rfl
  | ok next =>
    dsimp only
    rw [← probeDuring_quiet _ fuel 0, Option.map_map, Option.map_map]
    rfl

section Exact

/-! `uint64` arithmetic that gives nothing where the code would wrap around. -/

def addExact (a b : ℕ) : Option ℕ := if a + b < 2 ^ 64 then some (a + b) else none

def subExact (a b : ℕ) : Option ℕ := if b ≤ a then some (a - b) else none

def mulExact (a b : ℕ) : Option ℕ := if a * b < 2 ^ 64 then some (a * b) else none

def Jump.targetExact : Jump → Option ℕ
  | .first lo => addExact lo 1
  | .grow _ high _ => some high
  | .bisect low high => (subExact high low).bind fun gap => addExact low (gap / 2)

def growExact (low high step : ℕ) : Option JumpNext :=
  (subExact maxUint64 high).bind fun room =>
    if room / 2 < step then some (.probe (.grow low maxUint64 step))
    else (mulExact step 2).bind fun twice =>
      (addExact high twice).map fun high => .probe (.grow low high twice)

def bisectExact (low high : ℕ) : Option JumpNext :=
  (addExact low 1).map fun next => if next < high then .probe (.bisect low high) else .done low

def Jump.nextExact (j : Jump) (found : Bool) : Option JumpNext :=
  match j with
  | .first lo =>
    if found then (addExact lo 1).bind fun low => growExact low low 1 else some (.done lo)
  | .grow low high step =>
    if found then if high = maxUint64 then some (.done high) else growExact high high step
    else bisectExact low high
  | .bisect low high =>
    (Jump.bisect low high).targetExact.bind fun mid =>
      if found then bisectExact mid high else bisectExact low mid

def probeExact (found : ℕ → ℕ → Bool) : ℕ → ℕ → JumpNext → Option (ℕ × ℕ)
  | _, k, .done head => some (head, k)
  | 0, _, .probe _ => none
  | fuel + 1, k, .probe j =>
    j.targetExact.bind fun target =>
      (j.nextExact (found (k + 1) target)).bind fun next => probeExact found fuel (k + 1) next

variable {a b n low high step lo : ℕ} {next : JumpNext} {j : Jump}

lemma addExact_some : addExact a b = some n ↔ a + b < 2 ^ 64 ∧ a + b = n := by
  simp [addExact]

lemma subExact_some : subExact a b = some n ↔ b ≤ a ∧ a - b = n := by
  simp [subExact]

lemma mulExact_some : mulExact a b = some n ↔ a * b < 2 ^ 64 ∧ a * b = n := by
  simp [mulExact]

lemma addU64_of_lt (h : a + b < 2 ^ 64) : addU64 a b = a + b := Nat.mod_eq_of_lt h

lemma Jump.target_of_exact (h : j.targetExact = some n) : j.target = n := by
  cases j with
  | first lo =>
    obtain ⟨hlt, rfl⟩ := addExact_some.mp h
    exact addU64_of_lt hlt
  | grow low high step => exact Option.some.inj h
  | bisect low high =>
    obtain ⟨gap, hgap, hmid⟩ := Option.bind_eq_some_iff.mp h
    obtain ⟨-, rfl⟩ := subExact_some.mp hgap
    exact (addExact_some.mp hmid).2

lemma growNext_of_exact (h : growExact low high step = some next) :
    growNext low high step = next := by
  obtain ⟨room, hroom, h⟩ := Option.bind_eq_some_iff.mp h
  obtain ⟨-, rfl⟩ := subExact_some.mp hroom
  unfold growNext
  split at h
  · rw [if_pos ‹_›]
    exact Option.some.inj h
  · rw [if_neg ‹_›]
    obtain ⟨twice, htwice, h⟩ := Option.bind_eq_some_iff.mp h
    obtain ⟨-, rfl⟩ := mulExact_some.mp htwice
    obtain ⟨high', hhigh, rfl⟩ := Option.map_eq_some_iff.mp h
    obtain ⟨hlt, rfl⟩ := addExact_some.mp hhigh
    rw [addU64_of_lt hlt]

lemma bisectNext_of_exact (h : bisectExact low high = some next) : bisectNext low high = next := by
  obtain ⟨succ, hsucc, rfl⟩ := Option.map_eq_some_iff.mp h
  obtain ⟨hlt, rfl⟩ := addExact_some.mp hsucc
  rw [bisectNext, addU64_of_lt hlt]

lemma Jump.next_of_exact {found : Bool} (h : j.nextExact found = some next) :
    j.next found = next := by
  cases j with
  | first lo =>
    cases found with
    | false => exact Option.some.inj h
    | true =>
      obtain ⟨low, hlow, h⟩ := Option.bind_eq_some_iff.mp h
      obtain ⟨hlt, rfl⟩ := addExact_some.mp hlow
      simp only [Jump.next, if_true, addU64_of_lt hlt]
      exact growNext_of_exact h
  | grow low high step =>
    cases found with
    | false => exact bisectNext_of_exact h
    | true =>
      simp only [Jump.nextExact, if_true] at h
      simp only [Jump.next, if_true]
      split at h
      · rw [if_pos ‹_›]
        exact Option.some.inj h
      · rw [if_neg ‹_›]
        exact growNext_of_exact h
  | bisect low high =>
    obtain ⟨mid, hmid, h⟩ := Option.bind_eq_some_iff.mp h
    have htarget : low + (high - low) / 2 = mid := Jump.target_of_exact hmid
    simp only [Jump.next, htarget]
    cases found with
    | false => exact bisectNext_of_exact h
    | true => exact bisectNext_of_exact h

/-- Where nothing wraps around, the exact probes are those of the code. -/
theorem probeDuring_of_exact {found : ℕ → ℕ → Bool} {fuel k : ℕ} {r : ℕ × ℕ}
    (h : probeExact found fuel k next = some r) : probeDuring found fuel k next = some r := by
  induction fuel generalizing k next with
  | zero =>
    cases next with
    | done head => exact h
    | probe j => cases h
  | succ fuel ih =>
    cases next with
    | done head => exact h
    | probe j =>
      obtain ⟨target, htarget, h⟩ := Option.bind_eq_some_iff.mp h
      obtain ⟨next, hnext, h⟩ := Option.bind_eq_some_iff.mp h
      rw [probeDuring, Jump.target_of_exact htarget, Jump.next_of_exact hnext]
      exact ih h

end Exact

section Growing

/-- At call `k` exactly the numbers `1..T k` are there, and they never go away. -/
structure Growing (found : ℕ → ℕ → Bool) (T : ℕ → ℕ) : Prop where
  iff : ∀ k, ∀ seq < 2 ^ 64, found k seq = true ↔ 1 ≤ seq ∧ seq ≤ T k
  mono : Monotone T
  lt : ∀ k, T k < 2 ^ 64

/-- After `k` probes, the remaining ones end, without wrapping around, in a number
between the end of the log at the start and its end at the last probe. -/
def EndsWithin (found : ℕ → ℕ → Bool) (T : ℕ → ℕ) (k : ℕ) (next : JumpNext) : Prop :=
  ∃ n head probes, (∀ fuel ≥ n, probeExact found fuel k next = some (head, probes)) ∧
    T 0 ≤ head ∧ head ≤ T probes

variable {found : ℕ → ℕ → Bool} {T : ℕ → ℕ} {k low high step lo : ℕ}

lemma endsWithin_done {head : ℕ} (h0 : T 0 ≤ head) (hk : head ≤ T k) :
    EndsWithin found T k (.done head) := by
  refine ⟨0, head, k, fun fuel _ => ?_, h0, hk⟩
  cases fuel <;> rfl

lemma EndsWithin.probe {j : Jump} {target : ℕ} {next : JumpNext} (ht : j.targetExact = some target)
    (hn : j.nextExact (found (k + 1) target) = some next) (h : EndsWithin found T (k + 1) next) :
    EndsWithin found T k (.probe j) := by
  obtain ⟨n, head, probes, hfuel, h0, hk⟩ := h
  refine ⟨n + 1, head, probes, fun fuel hf => ?_, h0, hk⟩
  obtain ⟨m, rfl⟩ : ∃ m, fuel = m + 1 := ⟨fuel - 1, by omega⟩
  rw [probeExact, ht, Option.bind_some, hn, Option.bind_some]
  exact hfuel m (by omega)

lemma Growing.found_iff (h : Growing found T) (k seq : ℕ) (h1 : 1 ≤ seq) (hlt : seq < 2 ^ 64) :
    (found k seq = true ∧ seq ≤ T k) ∨ (found k seq = false ∧ T k < seq) := by
  by_cases hle : seq ≤ T k
  · exact Or.inl ⟨(h.iff k seq hlt).mpr ⟨h1, hle⟩, hle⟩
  · refine Or.inr ⟨?_, by omega⟩
    rw [Bool.eq_false_iff, ne_eq, h.iff k seq hlt]
    omega

/-- `low` is there now, and `high` was missing at some call, hence at the start. -/
lemma bisect_endsWithin (h : Growing found T) (hl : low ≤ T k) (hh : T 0 < high)
    (hlow : low < high) (hb : high < 2 ^ 64) :
    ∃ next, bisectExact low high = some next ∧ EndsWithin found T k next := by
  induction hgap : high - low using Nat.strong_induction_on generalizing low high k with
  | _ gap ih =>
    have hsucc : addExact low 1 = some (low + 1) := addExact_some.mpr ⟨by omega, rfl⟩
    refine ⟨_, by rw [bisectExact, hsucc, Option.map_some], ?_⟩
    split
    · have hmid : low + (high - low) / 2 < high ∧ low < low + (high - low) / 2 := by omega
      have ht : (Jump.bisect low high).targetExact = some (low + (high - low) / 2) := by
        rw [Jump.targetExact, subExact_some.mpr ⟨by omega, rfl⟩, Option.bind_some]
        exact addExact_some.mpr ⟨by omega, rfl⟩
      have hnow : low ≤ T (k + 1) := hl.trans (h.mono (Nat.le_succ k))
      rcases h.found_iff (k + 1) (low + (high - low) / 2) (by omega) (by omega) with
        ⟨hf, hle⟩ | ⟨hf, hlt⟩
      · obtain ⟨next, hnext, hends⟩ :=
          ih (high - (low + (high - low) / 2)) (by omega) hle hh hmid.1 hb rfl
        refine hends.probe ht ?_
        rw [hf, Jump.nextExact, ht, Option.bind_some, if_pos rfl]
        exact hnext
      · have h0 : T 0 < low + (high - low) / 2 := (h.mono (Nat.zero_le _)).trans_lt hlt
        obtain ⟨next, hnext, hends⟩ :=
          ih (low + (high - low) / 2 - low) (by omega) hnow h0 hmid.2 (by omega) rfl
        refine hends.probe ht ?_
        rw [hf, Jump.nextExact, ht, Option.bind_some, if_neg Bool.false_ne_true]
        exact hnext
    · exact endsWithin_done (by omega) hl

/-- The exponential loop: each probe is past the last one, up to the largest `uint64`. -/
lemma grow_endsWithin (h : Growing found T) (hl : low ≤ T k) (hs : 1 ≤ step) :
    ∃ next, growExact low low step = some next ∧ EndsWithin found T k next := by
  induction hgap : maxUint64 - low using Nat.strong_induction_on generalizing low step k with
  | _ gap ih =>
    have hmax : maxUint64 = 2 ^ 64 - 1 := rfl
    have hlow := h.lt k
    obtain ⟨high, n, he, hlt, hle, hn⟩ : ∃ high n, growExact low low step =
        some (.probe (.grow low high n)) ∧ (low < high ∨ high = maxUint64) ∧ high ≤ maxUint64 ∧
        1 ≤ n := by
      rw [growExact, subExact_some.mpr ⟨by omega, rfl⟩, Option.bind_some]
      split
      · exact ⟨maxUint64, step, rfl, Or.inr rfl, le_refl _, hs⟩
      · rw [mulExact_some.mpr ⟨by omega, rfl⟩, Option.bind_some,
          addExact_some.mpr ⟨by omega, rfl⟩, Option.map_some]
        exact ⟨low + step * 2, step * 2, rfl, Or.inl (by omega), by omega, by omega⟩
    refine ⟨_, he, ?_⟩
    have hnow : low ≤ T (k + 1) := hl.trans (h.mono (Nat.le_succ k))
    rcases h.found_iff (k + 1) high (by omega) (by omega) with ⟨hf, hT⟩ | ⟨hf, hT⟩
    · by_cases hend : high = maxUint64
      · have hT0 : T 0 ≤ high := by
          have := h.lt 0
          omega
        refine (endsWithin_done hT0 hT).probe rfl ?_
        rw [hf, Jump.nextExact, if_pos rfl, if_pos hend]
      · obtain ⟨next, hnext, hends⟩ := ih (maxUint64 - high) (by omega) hT hn rfl
        refine hends.probe rfl ?_
        rw [hf, Jump.nextExact, if_pos rfl, if_neg hend]
        exact hnext
    · have h0 : T 0 < high := (h.mono (Nat.zero_le _)).trans_lt hT
      obtain ⟨next, hnext, hends⟩ := bisect_endsWithin h hnow h0 (by omega) (by omega)
      refine hends.probe rfl ?_
      rw [hf, Jump.nextExact, if_neg Bool.false_ne_true]
      exact hnext

theorem jump_endsWithin (h : Growing found T) (hl : lo ≤ T k) : EndsWithin found T k (jump lo) := by
  have hmax : maxUint64 = 2 ^ 64 - 1 := rfl
  have hlt := h.lt k
  unfold jump
  split
  · have := h.lt 0
    exact endsWithin_done (by omega) hl
  · have ht : (Jump.first lo).targetExact = some (lo + 1) := addExact_some.mpr ⟨by omega, rfl⟩
    rcases h.found_iff (k + 1) (lo + 1) (by omega) (by omega) with ⟨hf, hT⟩ | ⟨hf, hT⟩
    · obtain ⟨next, hnext, hends⟩ := grow_endsWithin h hT (le_refl 1)
      refine hends.probe ht ?_
      rw [hf, Jump.nextExact, if_pos rfl, addExact_some.mpr ⟨by omega, rfl⟩, Option.bind_some]
      exact hnext
    · have h0 : T 0 ≤ lo := (h.mono (Nat.zero_le _)).trans (Nat.le_of_lt_succ hT)
      refine (endsWithin_done h0 (hl.trans (h.mono (Nat.le_succ k)))).probe ht ?_
      rw [hf, Jump.nextExact, if_neg Bool.false_ne_true]

end Growing

section Listing
variable {pfx : Bytes} {s : State} {T lo : ℕ}

/-- The entries of the log are `1..T`, whatever their order and whatever else is
in the store. -/
structure Entries (pfx : Bytes) (s : State) (T : ℕ) : Prop where
  keys : ((s.objects.map Obj.key).filter (pfx ++ [slash]).isPrefixOf).Perm
    ((List.range' 1 T).map (segmentKey pfx))
  lt : T < 2 ^ 64

lemma segmentKey_lt_iff (pfx : Bytes) {m n : ℕ} (hm : m < 2 ^ 64) (hn : n < 2 ^ 64) :
    segmentKey pfx m < segmentKey pfx n ↔ m < n := by
  refine ⟨fun h => ?_, fun h => segmentKey_lt pfx h hn⟩
  rcases Nat.lt_trichotomy m n with hlt | rfl | hgt
  · exact hlt
  · exact absurd h (List.lt_irrefl _)
  · exact absurd h (List.lt_asymm (segmentKey_lt pfx hgt hm))

lemma Entries.present (h : Entries pfx s T) {seq : ℕ} (hseq : seq < 2 ^ 64) :
    s.present (segmentKey pfx seq) = true ↔ 1 ≤ seq ∧ seq ≤ T := by
  have hmem : s.present (segmentKey pfx seq) = true ↔
      segmentKey pfx seq ∈ (List.range' 1 T).map (segmentKey pfx) := by
    rw [← h.keys.mem_iff, List.mem_filter, present_iff, List.mem_map]
    exact (and_iff_left (slash_isPrefixOf_segmentKey pfx seq)).symm
  have hlt := h.lt
  rw [hmem, List.mem_map]
  constructor
  · rintro ⟨n, hn, he⟩
    have hn := List.mem_range'_1.mp hn
    have hnseq : n = seq := segmentKey_injective (by omega) hseq he
    omega
  · exact fun hb => ⟨seq, List.mem_range'_1.mpr (by omega), rfl⟩

/-- The part of the listing that `lo` leaves. -/
lemma filter_headStart (pfx : Bytes) (hlo : lo ≤ T) (hT : T < 2 ^ 64) :
    ((List.range' 1 T).map (segmentKey pfx)).filter (fun k => decide (headStart pfx lo < k)) =
      (List.range' (lo + 1) (T - lo)).map (segmentKey pfx) := by
  have hsplit : List.range' 1 T = List.range' 1 lo ++ List.range' (lo + 1) (T - lo) := by
    rw [Nat.add_comm lo 1, List.range'_append_1, Nat.add_sub_cancel' hlo]
  rw [hsplit, List.map_append, List.filter_append, List.filter_eq_nil_iff.mpr, List.nil_append,
    List.filter_eq_self.mpr]
  · intro k hk
    obtain ⟨n, hn, rfl⟩ := List.mem_map.mp hk
    have hn := List.mem_range'_1.mp hn
    unfold headStart
    split
    · exact decide_eq_true (segmentKey_lt pfx (by omega) (by omega))
    · obtain ⟨b, rest, hb⟩ := List.exists_cons_of_ne_nil
        (show segmentKey pfx n ≠ [] by simp [segmentKey])
      rw [hb]
      simp
  · intro k hk
    obtain ⟨n, hn, rfl⟩ := List.mem_map.mp hk
    have hn := List.mem_range'_1.mp hn
    rw [headStart, if_pos (by omega), decide_eq_true_eq, segmentKey_lt_iff pfx (by omega) (by omega)]
    omega

lemma Entries.list (h : Entries pfx s T) (hlo : lo ≤ T) (limit : ℕ) :
    s.List (pfx ++ [slash]) (headStart pfx lo) limit =
      (List.range' (lo + 1) (min limit (T - lo))).map (segmentKey pfx) := by
  have hT := h.lt
  have hperm : ((s.objects.map Obj.key).filter fun k =>
      (pfx ++ [slash]).isPrefixOf k && decide (headStart pfx lo < k)).Perm
      ((List.range' (lo + 1) (T - lo)).map (segmentKey pfx)) := by
    rw [← filter_headStart pfx hlo hT]
    have hfilter := h.keys.filter fun k => decide (headStart pfx lo < k)
    rw [List.filter_filter] at hfilter
    simpa only [Bool.and_comm] using hfilter
  have hsorted : ((List.range' (lo + 1) (T - lo)).map (segmentKey pfx)).Pairwise (· ≤ ·) := by
    rw [List.pairwise_map]
    refine List.Pairwise.imp_of_mem ?_ List.pairwise_lt_range'
    intro a b _ hb hab
    have := List.mem_range'_1.mp hb
    exact List.le_of_lt (segmentKey_lt pfx hab (by omega))
  have heq := List.Perm.eq_of_pairwise (fun _ _ _ _ => List.le_antisymm)
    (List.pairwise_insertionSort (fun a b : Bytes => a ≤ b) _) hsorted
    ((List.perm_insertionSort (fun a b : Bytes => a ≤ b) _).trans hperm)
  rw [State.List, heq, ← List.map_take, take_range']

end Listing

section Head
variable {pfx : Bytes} {stores : ℕ → State} {T : ℕ → ℕ} {lo : ℕ}

lemma growing_of_entries (hmono : Monotone T) (h : ∀ k, Entries pfx (stores k) (T k)) :
    Growing (fun k seq => (stores k).present (segmentKey pfx seq)) T :=
  ⟨fun k _ hseq => (h k).present hseq, hmono, fun k => (h k).lt⟩

/-- A listing that stops short of the page has reached the end; otherwise `jump`
goes on from its last number. -/
theorem headDuring_within (hmono : Monotone T) (h : ∀ k, Entries pfx (stores k) (T k))
    (hlo : lo ≤ T 0) : ∃ n head probes,
      (∀ fuel ≥ n, headDuring fuel pfx stores lo = some (.ok (head, probes))) ∧
      T 0 ≤ head ∧ head ≤ T probes := by
  have hg := growing_of_entries hmono h
  have hlt := (h 0).lt
  have hends : EndsWithin (fun k seq => (stores k).present (segmentKey pfx seq)) T 0
      (if min headListLimit (T 0 - lo) < headListLimit
        then .done (lo + min headListLimit (T 0 - lo))
        else jump (lo + min headListLimit (T 0 - lo))) := by
    split
    · exact endsWithin_done (by omega) (by omega)
    · exact jump_endsWithin hg (by omega)
  obtain ⟨n, head, probes, hfuel, h0, hlast⟩ := hends
  refine ⟨n, head, probes, fun fuel hf => ?_, h0, hlast⟩
  rw [headDuring, (h 0).list hlo, headListed_range pfx _ _ (by omega)]
  simp only [probeDuring_of_exact (hfuel fuel hf), Option.map_some]

/-- On a store that stays as it is, `head` finds the end from every number up to it. -/
lemma Entries.head {s : State} {T : ℕ} (h : Entries pfx s T) (hlo : lo ≤ T) :
    ∃ n, ∀ fuel ≥ n, head fuel pfx s lo = some (.ok T) := by
  obtain ⟨n, v, probes, hfuel, h0, hlast⟩ :=
    headDuring_within (T := fun _ => T) monotone_const (fun _ => h) hlo
  refine ⟨n, fun fuel hf => ?_⟩
  rw [← headDuring_quiet, hfuel fuel hf, Option.map_some, le_antisymm hlast h0]
  rfl

lemma entries_of_keys {s : State} {T : ℕ}
    (h : s.objects.map Obj.key = (List.range' 1 T).map (segmentKey pfx)) (hT : T < 2 ^ 64) :
    Entries pfx s T := by
  refine ⟨?_, hT⟩
  rw [h, List.filter_eq_self.mpr]
  intro k hk
  obtain ⟨seq, -, rfl⟩ := List.mem_map.mp hk
  exact slash_isPrefixOf_segmentKey pfx seq

/-- On a log without holes that is not being written, `Tail` returns the last number. -/
theorem Contiguous.tail {s : State} (hc : Contiguous pfx s)
    (hlen : s.objects.length < 2 ^ 64 - 1) :
    ∃ n, ∀ fuel ≥ n, Tail fuel pfx s = some (.ok s.objects.length) :=
  (entries_of_keys (hc.keys hlen) (by omega)).head (Nat.zero_le _)

/-- `head` is exact: on a log that grows between its store calls it ends, in a
number between the end of the log at its first call and the end at its last; on
a log that stays as it is, in the end of the log. On a fixed log `jump` finds the
end from every number up to it, in all of `uint64`, and nothing wraps around. -/
theorem head_discovers_end (pfx : Bytes) (stores : ℕ → State) (T : ℕ → ℕ) (lo : ℕ)
    (hmono : Monotone T) (hentries : ∀ k, Entries pfx (stores k) (T k)) (hlo : lo ≤ T 0) :
    (∃ n h probes, (∀ fuel ≥ n, headDuring fuel pfx stores lo = some (.ok (h, probes))) ∧
      T 0 ≤ h ∧ h ≤ T probes) ∧
    (∃ n, ∀ fuel ≥ n, head fuel pfx (stores 0) lo = some (.ok (T 0))) ∧
    (∃ n, ∀ fuel ≥ n, Tail fuel pfx (stores 0) = some (.ok (T 0))) ∧
    ∀ (found : ℕ → Bool) (last start : ℕ), last < 2 ^ 64 →
      (∀ seq < 2 ^ 64, found seq = true ↔ 1 ≤ seq ∧ seq ≤ last) → start ≤ last →
      ∃ n probes, ∀ fuel ≥ n,
        probeExact (fun _ => found) fuel 0 (jump start) = some (last, probes) ∧
        probeAll found fuel (jump start) = some last := by
  refine ⟨headDuring_within hmono hentries hlo, (hentries 0).head hlo,
    (hentries 0).head (Nat.zero_le _), ?_⟩
  intro found last start hlast hfound hstart
  have hg : Growing (fun _ => found) fun _ => last :=
    ⟨fun _ => hfound, monotone_const, fun _ => hlast⟩
  obtain ⟨n, v, probes, hfuel, h0, hle⟩ := jump_endsWithin (k := 0) hg hstart
  obtain rfl : v = last := le_antisymm hle h0
  refine ⟨n, probes, fun fuel hf => ⟨hfuel fuel hf, ?_⟩⟩
  rw [← probeDuring_quiet found fuel 0, probeDuring_of_exact (hfuel fuel hf), Option.map_some]

/-- A log with `T` entries. -/
def logUpTo (pfx : Bytes) (T : ℕ) : State where
  objects := (List.range' 1 T).map fun seq => ⟨segmentKey pfx seq, [], 0⟩
  lastKnown _ := 0
  calls _ := {}

lemma entries_logUpTo (pfx : Bytes) {T : ℕ} (h : T < 2 ^ 64) : Entries pfx (logUpTo pfx T) T :=
  entries_of_keys List.map_map h

/-- More than a page behind a log that grows from 1500 to 1505 entries. -/
theorem head_discovers_end_growing : ∃ n h probes,
    (∀ fuel ≥ n, headDuring fuel [119] (fun k => logUpTo [119] (1500 + min k 5)) 3 =
      some (.ok (h, probes))) ∧ 1500 ≤ h ∧ h ≤ 1505 := by
  have hmono : Monotone fun k => 1500 + min k 5 := fun a b hab => by
    dsimp only
    omega
  obtain ⟨⟨n, h, probes, hfuel, h0, hlast⟩, -⟩ := head_discovers_end [119]
    (fun k => logUpTo [119] (1500 + min k 5)) (fun k => 1500 + min k 5) 3 hmono
    (fun k => entries_logUpTo [119] (by omega)) (by omega)
  exact ⟨n, h, probes, hfuel, by omega, by omega⟩

end Head

end CloudyNeigh.LogStream
