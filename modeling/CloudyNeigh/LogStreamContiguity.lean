import CloudyNeigh.LogStreamAppend

/-!
# The log has no holes

Every number a call of `Append` works with is the position of an object that
exists, or zero. So a conditional create of its successor extends the log by
exactly one, whatever `List` and `Exists` miss. Positions are kept as naturals
`i` and sequence numbers are `i % 2 ^ 64`, which shows where a wrap would matter.
-/
namespace CloudyNeigh.LogStream
open RecordIO Transition

def Known (s : State) (x : ℕ) : Prop := ∃ i ≤ s.objects.length, x = i % 2 ^ 64

def Owns (pfx : Bytes) (s : State) (c seq : ℕ) : Prop :=
  seq < 2 ^ 64 ∧ ∃ o ∈ s.objects, o.key = segmentKey pfx seq ∧ o.writer = c

def Jump.Ok (s : State) : Jump → Prop
  | .first lo => Known s lo
  | .grow low high _ => Known s low ∧ high < 2 ^ 64
  | .bisect low high => Known s low ∧ high < 2 ^ 64

def JumpNext.Ok (s : State) : JumpNext → Prop
  | .done head => Known s head
  | .probe j => j.Ok s

/-- What a call knows at each point of `Append`. -/
def Pc.Ok (pfx : Bytes) (s : State) (c : ℕ) : Pc → Prop
  | .idle | .checkKnown | .tailList | .loadSeq | .failed => True
  | .tailProbe j | .headProbe j => j.Ok s
  | .tailLoad t | .tailSwap t _ => Known s t
  | .put seq => ∃ x, Known s x ∧ seq = addU64 x 1
  | .headList seq => Known s seq
  | .putLoad seq | .putSwap seq _ | .returned seq => Owns pfx s c seq

structure Contiguous (pfx : Bytes) (s : State) : Prop where
  key : ∀ i (h : i < s.objects.length), s.objects[i].key = segmentKey pfx ((i + 1) % 2 ^ 64)
  bound : s.objects.length ≤ 2 ^ 64

structure Inv (pfx : Bytes) (s : State) : Prop extends Contiguous pfx s where
  lastKnown : ∀ log, Known s (s.lastKnown log)
  pc : ∀ c, (s.calls c).pc.Ok pfx s c

section Monotone
variable {pfx : Bytes} {s t : State} {c : ℕ}

/-- No object is deleted or overwritten. -/
def Grows (s t : State) : Prop := s.objects <+: t.objects

lemma Known.mono {x : ℕ} (h : Known s x) (g : Grows s t) : Known t x := by
  obtain ⟨i, hi, hx⟩ := h
  exact ⟨i, hi.trans g.length_le, hx⟩

lemma Owns.mono {seq : ℕ} (h : Owns pfx s c seq) (g : Grows s t) : Owns pfx t c seq := by
  obtain ⟨hb, o, ho, hk, hw⟩ := h
  exact ⟨hb, o, g.subset ho, hk, hw⟩

lemma Jump.Ok.mono {j : Jump} (h : j.Ok s) (g : Grows s t) : j.Ok t := by
  cases j with
  | first lo => exact Known.mono h g
  | grow low high n => exact ⟨h.1.mono g, h.2⟩
  | bisect low high => exact ⟨h.1.mono g, h.2⟩

lemma Pc.Ok.mono {pc : Pc} (h : pc.Ok pfx s c) (g : Grows s t) : pc.Ok pfx t c := by
  cases pc with
  | idle | checkKnown | tailList | loadSeq | failed => trivial
  | tailProbe j | headProbe j => exact Jump.Ok.mono h g
  | tailLoad n | tailSwap n _ | headList n => exact Known.mono h g
  | put seq =>
    obtain ⟨x, hx, he⟩ := h
    exact ⟨x, hx.mono g, he⟩
  | putLoad seq | putSwap seq _ | returned seq => exact Owns.mono h g

end Monotone

lemma addU64_lt (a b : ℕ) : addU64 a b < 2 ^ 64 := Nat.mod_lt _ (by omega)

lemma Known.lt {s : State} {x : ℕ} (h : Known s x) : x < 2 ^ 64 := by
  obtain ⟨i, -, rfl⟩ := h
  exact Nat.mod_lt _ (by omega)

section Listing
variable {pfx : Bytes} {s : State}

lemma present_iff {key : Bytes} : s.present key = true ↔ ∃ o ∈ s.objects, o.key = key := by
  simp [State.present]

lemma Contiguous.position (h : Contiguous pfx s) {key : Bytes} (hp : s.present key = true) :
    ∃ i < s.objects.length, key = segmentKey pfx ((i + 1) % 2 ^ 64) := by
  obtain ⟨o, ho, rfl⟩ := present_iff.mp hp
  obtain ⟨i, hi, rfl⟩ := List.mem_iff_getElem.mp ho
  exact ⟨i, hi, h.key i hi⟩

lemma Contiguous.present_at (h : Contiguous pfx s) {i : ℕ} (hi : i < s.objects.length) :
    s.present (segmentKey pfx ((i + 1) % 2 ^ 64)) = true :=
  present_iff.mpr ⟨s.objects[i], List.getElem_mem hi, h.key i hi⟩

lemma Contiguous.known_of_present (h : Contiguous pfx s) {x : ℕ} (hx : x < 2 ^ 64)
    (hp : s.present (segmentKey pfx x) = true) : Known s x := by
  obtain ⟨i, hi, hk⟩ := h.position hp
  exact ⟨i + 1, hi, segmentKey_injective hx (Nat.mod_lt _ (by omega)) hk⟩

lemma Contiguous.known_of_owns (h : Contiguous pfx s) {c seq : ℕ} (ho : Owns pfx s c seq) :
    Known s seq := by
  obtain ⟨hb, o, hm, hk, -⟩ := ho
  exact h.known_of_present hb (present_iff.mpr ⟨o, hm, hk⟩)

lemma Contiguous.known_of_parseSeq (h : Contiguous pfx s) {key : Bytes} {n : ℕ}
    (hp : s.present key = true) (hn : parseSeq key = .ok n) : Known s n := by
  obtain ⟨i, hi, rfl⟩ := h.position hp
  rw [parseSeq_segmentKey pfx (Nat.mod_lt _ (by omega))] at hn
  split at hn <;> cases hn
  exact ⟨i + 1, hi, rfl⟩

lemma jump_ok {lo : ℕ} (h : Known s lo) : (jump lo).Ok s := by
  unfold jump
  split
  · exact h
  · exact h

lemma growNext_ok {low high n : ℕ} (h : Known s low) : (growNext low high n).Ok s := by
  unfold growNext
  split
  · exact ⟨h, by unfold maxUint64; omega⟩
  · exact ⟨h, addU64_lt _ _⟩

lemma bisectNext_ok {low high : ℕ} (h : Known s low) (hb : high < 2 ^ 64) :
    (bisectNext low high).Ok s := by
  unfold bisectNext
  split
  · exact ⟨h, hb⟩
  · exact h

lemma Jump.Ok.target_lt {j : Jump} (h : j.Ok s) : j.target < 2 ^ 64 := by
  cases j with
  | first lo => exact addU64_lt lo 1
  | grow low high n => exact h.2
  | bisect low high =>
    have hl := h.1.lt
    have hh := h.2
    simp only [Jump.target]
    omega

lemma Jump.Ok.next (hc : Contiguous pfx s) {j : Jump} (h : j.Ok s) {found : Bool}
    (hf : found = true → s.present (segmentKey pfx j.target) = true) : (j.next found).Ok s := by
  have hknown : found = true → Known s j.target :=
    fun hb => hc.known_of_present h.target_lt (hf hb)
  have hlt := h.target_lt
  cases j with
  | first lo =>
    simp only [Jump.next]
    split
    · exact growNext_ok (hknown ‹_›)
    · exact h
  | grow low high n =>
    simp only [Jump.next]
    split
    · split
      · exact hknown ‹_›
      · exact growNext_ok (hknown ‹_›)
    · exact bisectNext_ok h.1 h.2
  | bisect low high =>
    simp only [Jump.next]
    split
    · exact bisectNext_ok (hknown ‹_›) h.2
    · exact bisectNext_ok h.1 hlt

lemma headListed_ok (hc : Contiguous pfx s) {lo : ℕ} (hlo : Known s lo) {objs : List Bytes}
    (hall : objs.all s.present = true) {next : JumpNext} (h : headListed lo objs = .ok next) :
    next.Ok s := by
  unfold headListed at h
  split at h
  · cases h
    exact hlo
  · rename_i key hlast
    have hp : s.present key = true := List.all_eq_true.mp hall key (List.mem_of_getLast? hlast)
    split at h
    · cases h
    · rename_i last hparse
      have hk := hc.known_of_parseSeq hp hparse
      split at h <;> cases h
      · exact hk
      · exact jump_ok hk

lemma tailNext_ok {next : JumpNext} (c : ℕ) (h : next.Ok s) : (tailNext next).Ok pfx s c := by
  cases next with
  | done head => exact h
  | probe j => exact h

lemma headNext_ok {next : JumpNext} (c : ℕ) (h : next.Ok s) : (headNext next).Ok pfx s c := by
  cases next with
  | done head => exact ⟨head, h, rfl⟩
  | probe j => exact h

end Listing

section Create
variable {pfx : Bytes} {s : State} {c seq : ℕ}

/-- A number that follows a known one and has no object is the next one of the log. -/
lemma Contiguous.next_of_absent (h : Contiguous pfx s) (hput : (Pc.put seq).Ok pfx s c)
    (habs : s.present (segmentKey pfx seq) = false) :
    seq = (s.objects.length + 1) % 2 ^ 64 ∧ s.objects.length < 2 ^ 64 := by
  obtain ⟨x, ⟨i, hi, rfl⟩, rfl⟩ := hput
  have hseq : addU64 (i % 2 ^ 64) 1 = (i + 1) % 2 ^ 64 := Nat.mod_add_mod _ _ _
  rw [hseq] at habs ⊢
  have hlast : i = s.objects.length := by
    by_contra hne
    rw [h.present_at (by omega : i < s.objects.length)] at habs
    cases habs
  refine ⟨by rw [hlast], ?_⟩
  by_contra hfull
  -- at the full range the successor is 1, the number of the first object
  have hlen : i = 2 ^ 64 := by
    have := h.bound
    omega
  have hfirst := h.present_at (by omega : 0 < s.objects.length)
  rw [hlen] at habs
  rw [show (0 + 1) % 2 ^ 64 = (2 ^ 64 + 1) % 2 ^ 64 by omega, habs] at hfirst
  cases hfirst

lemma commit_objects : (s.commit pfx c seq).objects =
    s.objects ++ [⟨segmentKey pfx seq, payload (s.calls c).batch, c⟩] := rfl

lemma Contiguous.commit (h : Contiguous pfx s) (hput : (Pc.put seq).Ok pfx s c)
    (habs : s.present (segmentKey pfx seq) = false) :
    Contiguous pfx (s.commit pfx c seq) := by
  obtain ⟨hseq, hlt⟩ := h.next_of_absent hput habs
  have hlen : (s.commit pfx c seq).objects.length = s.objects.length + 1 := by
    simp [commit_objects]
  refine ⟨?_, by omega⟩
  intro i hi
  by_cases hold : i < s.objects.length
  · simp only [commit_objects, List.getElem_append_left hold]
    exact h.key i hold
  · have hnew : i = s.objects.length := by omega
    subst hnew
    simp [commit_objects, hseq]

lemma owns_commit (hput : (Pc.put seq).Ok pfx s c) : Owns pfx (s.commit pfx c seq) c seq := by
  obtain ⟨x, -, rfl⟩ := hput
  exact ⟨addU64_lt x 1, _, List.mem_append_right _ (List.mem_singleton_self _), rfl, rfl⟩

end Create

/-- Everything that one step can do to the log: start a call, move one call,
raise one `lastKnown` to a known value, or create the object that a call put. -/
inductive Effect (pfx : Bytes) (s : State) (c : ℕ) : State → Prop
  | start (log : ℕ) (batch : List Bytes) (idle : (s.calls c).pc = .idle) :
    Effect pfx s c { s with calls := Function.update s.calls c ⟨log, batch, appendStart batch⟩ }
  | move (pc : Pc) (busy : (s.calls c).pc.active = true) (stays : pc ≠ .idle) (ok : pc.Ok pfx s c) :
    Effect pfx s c (s.goto c pc)
  | learn (v : ℕ) (pc : Pc) (busy : (s.calls c).pc.active = true) (stays : pc ≠ .idle)
    (known : Known s v) (ok : pc.Ok pfx s c) :
    Effect pfx s c ((s.learn (s.calls c).log v).goto c pc)
  | create (seq : ℕ) (pc : Pc) (busy : (s.calls c).pc.active = true) (stays : pc ≠ .idle)
    (contiguous : Contiguous pfx (s.commit pfx c seq)) (ok : pc.Ok pfx (s.commit pfx c seq) c) :
    Effect pfx s c ((s.commit pfx c seq).goto c pc)

section Step
variable {pfx : Bytes} {s t : State} {c : ℕ}

lemma appendStart_ne_idle (batch : List Bytes) : appendStart batch ≠ .idle := by
  unfold appendStart
  split
  · simp
  · split <;> simp

lemma appendStart_ok (batch : List Bytes) : (appendStart batch).Ok pfx s c := by
  unfold appendStart
  split
  · trivial
  · split <;> trivial

lemma tailNext_ne_idle (next : JumpNext) : tailNext next ≠ .idle := by
  cases next <;> simp [tailNext]

lemma headNext_ne_idle (next : JumpNext) : headNext next ≠ .idle := by
  cases next <;> simp [headNext]

lemma put_effect (hi : Inv pfx s) {seq : ℕ} (heq : (s.calls c).pc = .put seq)
    (habs : s.present (segmentKey pfx seq) = false) {pc : Pc} (stays : pc ≠ .idle)
    (ok : Owns pfx (s.commit pfx c seq) c seq → Known (s.commit pfx c seq) seq →
      pc.Ok pfx (s.commit pfx c seq) c) :
    Effect pfx s c ((s.commit pfx c seq).goto c pc) := by
  have hput := heq ▸ hi.pc c
  have hc := hi.toContiguous.commit hput habs
  have ho := owns_commit hput
  exact .create seq pc (by simp [heq, Pc.active]) stays hc (ok ho (hc.known_of_owns ho))

/-- One step of `Append`, with what the invariant says about the call at that point. -/
theorem stepCall_effect (hi : Inv pfx s) {o : Outcome} (h : stepCall pfx s c o = some t) :
    Effect pfx s c t := by
  have hpc := hi.pc c
  have hlast := hi.lastKnown (s.calls c).log
  unfold stepCall at h
  dsimp only at h
  split at h
  case h_1 heq =>
    split at h <;> cases h <;> exact .move _ (by simp [heq, Pc.active]) (by simp) trivial
  case h_2 objs heq =>
    split at h
    · rename_i hall
      split at h <;> cases h
      · rename_i next hn
        have hok := headListed_ok hi.toContiguous ⟨0, by omega, rfl⟩ hall hn
        exact .move _ (by simp [heq, Pc.active]) (tailNext_ne_idle next) (tailNext_ok c hok)
      · exact .move _ (by simp [heq, Pc.active]) (by simp) trivial
    · cases h
  case h_4 j found heq =>
    rw [heq] at hpc
    split at h <;> cases h
    rename_i hf
    have hok := Jump.Ok.next hi.toContiguous hpc hf
    exact .move _ (by simp [heq, Pc.active]) (tailNext_ne_idle _) (tailNext_ok c hok)
  case h_6 n heq =>
    rw [heq] at hpc
    split at h <;> cases h
    · exact .move _ (by simp [heq, Pc.active]) (by simp) trivial
    · exact .move _ (by simp [heq, Pc.active]) (by simp) hpc
  case h_7 n curr heq =>
    rw [heq] at hpc
    split at h <;> cases h
    · exact .learn n _ (by simp [heq, Pc.active]) (by simp) hpc trivial
    · exact .move _ (by simp [heq, Pc.active]) (by simp) hpc
  case h_8 heq =>
    cases h
    exact .move _ (by simp [heq, Pc.active]) (by simp) ⟨_, hlast, rfl⟩
  case h_9 seq heq =>
    split at h <;> cases h
    exact put_effect hi heq (Bool.eq_false_of_not_eq_true ‹_›) (by simp) fun ho _ => ho
  case h_10 seq heq =>
    rw [heq] at hpc
    obtain ⟨x, -, rfl⟩ := hpc
    split at h <;> cases h
    rename_i hp
    exact .move _ (by simp [heq, Pc.active]) (by simp) (hi.known_of_present (addU64_lt x 1) hp)
  case h_11 seq heq =>
    split at h <;> cases h
    exact put_effect hi heq (Bool.eq_false_of_not_eq_true ‹_›) (by simp) fun _ hk => hk
  case h_13 seq heq =>
    split at h <;> cases h
    exact put_effect hi heq (Bool.eq_false_of_not_eq_true ‹_›) (by simp) fun _ _ => trivial
  case h_14 seq objs heq =>
    rw [heq] at hpc
    split at h
    · rename_i hall
      split at h <;> cases h
      · rename_i next hn
        have hok := headListed_ok hi.toContiguous hpc hall hn
        exact .move _ (by simp [heq, Pc.active]) (headNext_ne_idle next) (headNext_ok c hok)
      · exact .move _ (by simp [heq, Pc.active]) (by simp) trivial
    · cases h
  case h_16 j found heq =>
    rw [heq] at hpc
    split at h <;> cases h
    rename_i hf
    have hok := Jump.Ok.next hi.toContiguous hpc hf
    exact .move _ (by simp [heq, Pc.active]) (headNext_ne_idle _) (headNext_ok c hok)
  case h_18 seq heq =>
    rw [heq] at hpc
    split at h <;> cases h
    · exact .move _ (by simp [heq, Pc.active]) (by simp) hpc
    · exact .move _ (by simp [heq, Pc.active]) (by simp) hpc
  case h_19 seq curr heq =>
    rw [heq] at hpc
    split at h <;> cases h
    · exact .learn seq _ (by simp [heq, Pc.active]) (by simp) (hi.known_of_owns hpc) hpc
    · exact .move _ (by simp [heq, Pc.active]) (by simp) hpc
  case h_20 => cases h
  -- the calls of the store that failed without a commit
  all_goals
    rename_i heq
    cases h
    exact .move _ (by simp [heq, Pc.active]) (by simp) trivial

theorem step_effect (hi : Inv pfx s) {a : Action} (h : step pfx s a = some t) :
    ∃ c, Effect pfx s c t := by
  cases a with
  | call c log batch =>
    simp only [step] at h
    split at h <;> cases h
    exact ⟨c, .start log batch ‹_›⟩
  | step c o => exact ⟨c, stepCall_effect hi h⟩
  | crash c =>
    simp only [step] at h
    split at h <;> cases h
    exact ⟨c, .move .failed ‹_› (by simp) trivial⟩

lemma Effect.grows (h : Effect pfx s c t) : Grows s t := by
  cases h with
  | start | move | learn => exact List.prefix_rfl
  | create seq => exact List.prefix_append _ _

lemma Effect.other_call (h : Effect pfx s c t) {d : ℕ} (hd : d ≠ c) : t.calls d = s.calls d := by
  cases h with
  | start log batch => simp [hd]
  | move pc => exact goto_calls_ne s pc hd
  | learn v pc => exact goto_calls_ne _ pc hd
  | create seq pc => exact goto_calls_ne _ pc hd

lemma Effect.own_pc (h : Effect pfx s c t) :
    (t.calls c).pc ≠ .idle ∧ (t.calls c).pc.Ok pfx t c := by
  cases h with
  | start log batch =>
    simp only [Function.update_self]
    exact ⟨appendStart_ne_idle batch, appendStart_ok batch⟩
  | move pc _ stays ok =>
    rw [goto_calls_self]
    exact ⟨stays, ok.mono List.prefix_rfl⟩
  | learn v pc _ stays _ ok =>
    rw [goto_calls_self]
    exact ⟨stays, ok.mono List.prefix_rfl⟩
  | create seq pc _ stays _ ok =>
    rw [goto_calls_self]
    exact ⟨stays, ok.mono List.prefix_rfl⟩

lemma Effect.contiguous (h : Effect pfx s c t) (hs : Contiguous pfx s) : Contiguous pfx t := by
  cases h with
  | start | move | learn => exact ⟨hs.key, hs.bound⟩
  | create seq pc _ _ hc => exact ⟨hc.key, hc.bound⟩

lemma Effect.lastKnown (h : Effect pfx s c t) (hs : ∀ log, Known s (s.lastKnown log)) (log : ℕ) :
    Known t (t.lastKnown log) := by
  have hg := h.grows
  cases h with
  | start | move | create => exact (hs log).mono hg
  | learn v pc _ _ known =>
    by_cases hl : log = (s.calls c).log
    · subst hl
      simpa [State.learn] using known.mono hg
    · simpa [State.learn, hl] using (hs log).mono hg

theorem inv_step (hi : Inv pfx s) {a : Action} (h : step pfx s a = some t) : Inv pfx t := by
  obtain ⟨c, he⟩ := step_effect hi h
  refine ⟨he.contiguous hi.toContiguous, he.lastKnown hi.lastKnown, ?_⟩
  intro d
  by_cases hd : d = c
  · subst hd
    exact he.own_pc.2
  · rw [he.other_call hd]
    exact (hi.pc d).mono he.grows

theorem inv_reachable (h : (machine pfx).Reachable s) : Inv pfx s := by
  refine Machine.Reachable.invariant (P := Inv pfx) ?_ (fun s a t hs hst => inv_step hs hst) h
  refine ⟨⟨?_, by simp [machine]⟩, fun _ => ⟨0, by simp, rfl⟩, fun _ => trivial⟩
  intro i hi
  simp [machine] at hi

end Step

/-- Keys of distinct objects are distinct: the range of `uint64` is used at most once. -/
lemma Contiguous.unique {pfx : Bytes} {s : State} (h : Contiguous pfx s) {o o' : Obj}
    (ho : o ∈ s.objects) (ho' : o' ∈ s.objects) (hk : o.key = o'.key) : o = o' := by
  obtain ⟨i, hi, rfl⟩ := List.mem_iff_getElem.mp ho
  obtain ⟨j, hj, rfl⟩ := List.mem_iff_getElem.mp ho'
  rw [h.key i hi, h.key j hj] at hk
  have hmod := segmentKey_injective (Nat.mod_lt _ (by omega)) (Nat.mod_lt _ (by omega)) hk
  have hb := h.bound
  have hij : i = j := by omega
  simp only [hij]

lemma Contiguous.key_of_lt {pfx : Bytes} {s : State} (h : Contiguous pfx s)
    (hlen : s.objects.length < 2 ^ 64 - 1) (i : ℕ) (hi : i < s.objects.length) :
    s.objects[i].key = segmentKey pfx (i + 1) := by
  rw [h.key i hi, Nat.mod_eq_of_lt (by omega)]

lemma Contiguous.keys {pfx : Bytes} {s : State} (hc : Contiguous pfx s)
    (hlen : s.objects.length < 2 ^ 64 - 1) :
    s.objects.map Obj.key = (List.range' 1 s.objects.length).map (segmentKey pfx) := by
  apply List.ext_getElem (by simp)
  intro i hi _
  have hi' : i < s.objects.length := by simpa using hi
  simp [hc.key_of_lt hlen i hi', Nat.add_comm]

lemma Contiguous.present_iff_le {pfx : Bytes} {s : State} (hc : Contiguous pfx s)
    (hlen : s.objects.length < 2 ^ 64 - 1) {seq : ℕ} (hseq : seq < 2 ^ 64) :
    s.present (segmentKey pfx seq) = true ↔ 1 ≤ seq ∧ seq ≤ s.objects.length := by
  constructor
  · intro hp
    obtain ⟨i, hi, hk⟩ := hc.position hp
    have := segmentKey_injective hseq (Nat.mod_lt _ (by omega)) hk
    omega
  · rintro ⟨h1, hT⟩
    have hp := hc.present_at (by omega : seq - 1 < s.objects.length)
    rwa [Nat.sub_add_cancel h1, Nat.mod_eq_of_lt hseq] at hp

/-- The numbers with an object under the prefix are `1..T`, in the order of the
commits, and there is no other object. -/
theorem log_contiguous (pfx : Bytes) {s : State} (h : (machine pfx).Reachable s)
    (hlen : s.objects.length < 2 ^ 64 - 1) :
    ∃ T, s.objects.map Obj.key = (List.range' 1 T).map (segmentKey pfx) ∧
      ∀ seq < 2 ^ 64, s.present (segmentKey pfx seq) = true ↔ 1 ≤ seq ∧ seq ≤ T := by
  have hc := (inv_reachable h).toContiguous
  exact ⟨s.objects.length, hc.keys hlen, fun seq hseq => hc.present_iff_le hlen hseq⟩

-- Two logs race for the same number; the second one loses and finds the next.
def raceScript : List Action :=
  [.call 0 0 [[1]], .call 1 1 [[2], [3]],
   .step 0 .local, .step 0 (.listed []), .step 0 .local, .step 0 .local,
   .step 1 .local, .step 1 (.listed []), .step 1 .local, .step 1 .local,
   .step 0 .putOk, .step 1 .putExists, .step 1 (.listed [segmentKey (ascii "wal") 1]),
   .step 1 .putOk, .step 1 .local, .step 1 .local]

set_option maxRecDepth 4000 in
theorem log_contiguous_race : ∃ s : State, (machine (ascii "wal")).Reachable s ∧
    s.objects.length = 2 ∧
    ∃ T, s.objects.map Obj.key = (List.range' 1 T).map (segmentKey (ascii "wal")) ∧
      ∀ seq < 2 ^ 64, s.present (segmentKey (ascii "wal") seq) = true ↔ 1 ≤ seq ∧ seq ≤ T := by
  obtain ⟨s, hr, hl⟩ := Machine.exec_exists (machine (ascii "wal")) anyStep (machine (ascii "wal")).init
    raceScript (fun s => s.objects.length = 2) (by decide +kernel)
  exact ⟨s, hr, hl, log_contiguous (ascii "wal") hr (by omega)⟩

end CloudyNeigh.LogStream
