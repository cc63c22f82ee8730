import CloudyNeigh.StoreReference

/-!
# The memory store is the reference store

Every method of `memStore` holds its mutex while it looks at the objects, so the calls of
any number of goroutines are one sequence.
-/
namespace CloudyNeigh.ObjectStore
open RecordIO Listing Checked Transition
open LocalStore (Condition localGeneration validLocalGeneration maxInt64 localGeneration_injective
  validLocalGeneration_localGeneration)
open LogStream (ascii)

def MemStore.call (m : MemStore) (R : RangeOrder Bytes) : StoreRequest → StoreReply × MemStore
  | .stat key => (.ofExcept .object (m.Stat key), m)
  | .get key => (.ofExcept (fun r => .data r.1 r.2) (m.Get key), m)
  | .readRange key offset length =>
    ((m.ReadRange key offset length).elim .panicked (.ofExcept fun r => .data r.1 r.2), m)
  | .exists key => (.found (m.Exists key), m)
  | .put key data cond =>
    match m.Put key data cond with
    | .ok (g, m') => (.generation g, m')
    | .error e => (.failed e, m)
  | .delete key =>
    match m.Delete key with
    | .ok m' => (.deleted, m')
    | .error e => (.failed e, m)
  | .list pfx startAfter limit => (.objects (m.List R pfx startAfter limit), m)

/-- Any sequence of calls; each `List` ranges over the map in its own order. -/
def memCalls : Machine (Recorded MemStore StoreEvent) (StoreRequest × RangeOrder Bytes) :=
  recorded .newMemStore fun m a => (some (a.1, (m.call a.2 a.1).1), (m.call a.2 a.1).2)

/-- The generation counter does not wrap. -/
def MemModest (t : Recorded MemStore StoreEvent) (a : StoreRequest × RangeOrder Bytes) : Prop :=
  t.state.genSeq < maxInt64 ∧ a.1.Modest

/-- The generations of the memory and of the local store are spelled in one way. -/
def localCanon (g : Bytes) : Option Bytes := if validLocalGeneration g then some g else none

/-- The condition of a `Put` on the present generation, as both of them check it. -/
def Accepts (cond : Condition) (present : Option Bytes) : Prop :=
  if cond.Absent then present = none
  else cond.GenerationMatch = [] ∨ present = some cond.GenerationMatch

instance (cond : Condition) (present : Option Bytes) : Decidable (Accepts cond present) := by
  unfold Accepts
  infer_instance

section Conditions
variable {s : Shelf} {key : Bytes} {cond : Condition} {present : Option Bytes}

lemma accepts_absent (h : cond.Absent = true) : Accepts cond present ↔ present = none := by
  rw [Accepts, if_pos h]

lemma accepts_match (h : cond.Absent = false) :
    Accepts cond present ↔ cond.GenerationMatch = [] ∨ present = some cond.GenerationMatch := by
  rw [Accepts, if_neg (by simp [h])]

lemma Shelf.Wf.admits_local (h : s.Wf)
    (hcanon : cond.Absent = false → cond.GenerationMatch ≠ [] →
      localCanon cond.GenerationMatch = some cond.GenerationMatch) :
    s.Admits localCanon key cond ↔ Accepts cond ((s.version key).map Version.generation) := by
  rw [h.admits_iff]
  cases habs : cond.Absent with
  | true => rw [accepts_absent habs, if_pos rfl, Option.map_eq_none_iff]
  | false =>
    rw [accepts_match habs, if_neg Bool.false_ne_true]
    by_cases hne : cond.GenerationMatch = []
    · simp [hne]
    · rw [hcanon habs hne, or_iff_right hne, or_iff_right hne]
      cases s.version key with
      | none => simp
      | some v => simp [eq_comm]

lemma Shelf.Wf.refused_step (h : s.Wf) (data : Bytes)
    (hcanon : cond.Absent = false → cond.GenerationMatch ≠ [] →
      localCanon cond.GenerationMatch = some cond.GenerationMatch)
    (hno : ¬ Accepts cond ((s.version key).map Version.generation)) :
    s.Step localCanon (.put key data cond) (.failed (.preconditionFailed key)) s := by
  refine .refused key data cond (fun hok => hno ((h.admits_local hcanon).mp hok)) ?_
  intro habs hnone
  by_cases hne : cond.GenerationMatch = []
  · exact hno ((accepts_match habs).mpr (Or.inl hne))
  · rw [hcanon habs hne] at hnone
    cases hnone

lemma Shelf.Wf.accepted_step (h : s.Wf) (data : Bytes)
    (hcanon : cond.Absent = false → cond.GenerationMatch ≠ [] →
      localCanon cond.GenerationMatch = some cond.GenerationMatch)
    (hok : Accepts cond ((s.version key).map Version.generation)) {t : ℤ} (hpos : 0 ≤ t)
    (ht : t ≤ maxInt64) (hdata : data.length < 2 ^ 63)
    (hfresh : (key, localGeneration t data.length) ∉ s.issued) :
    s.Step localCanon (.put key data cond) (.generation (localGeneration t data.length))
      ⟨s.cells.put key data, s.issued ++ [(key, localGeneration t data.length)]⟩ := by
  refine .put key data cond _ ((h.admits_local hcanon).mpr hok) hfresh (if_pos ?_)
  obtain ⟨n, rfl⟩ := Int.eq_ofNat_of_zero_le hpos
  refine validLocalGeneration_localGeneration ht ?_
  unfold maxInt64
  omega

end Conditions

def MemEntry.version (e : MemEntry) : Version := ⟨e.data, e.generation⟩

structure MemStore.Shows (m : MemStore) (s : Shelf) : Prop where
  shown : ∀ key, s.version key = (m.objects.lookup key).map MemEntry.version
  sizes : ∀ key e, m.objects.lookup key = some e → e.data.length < 2 ^ 63
  counted : m.genSeq = s.issued.length
  texts : ∀ (n : ℕ) key g, s.issued[n]? = some (key, g) → ∃ size, g = localGeneration (n + 1) size

section Calls
variable {m : MemStore} {s : Shelf} {key data : Bytes} {cond : Condition}

lemma MemStore.Shows.stat_reply (h : m.Shows s) (key : Bytes) :
    .ofExcept .object (m.Stat key) = statReply key (s.version key) := by
  rw [h.shown, MemStore.Stat]
  cases m.objects.lookup key <;> rfl

lemma MemStore.Shows.get_reply (h : m.Shows s) (key : Bytes) :
    .ofExcept (fun r => .data r.1 r.2) (m.Get key) = getReply key (s.version key) := by
  rw [h.shown, MemStore.Get]
  cases m.objects.lookup key <;> rfl

lemma MemStore.Shows.exists_reply (h : m.Shows s) (key : Bytes) :
    m.Exists key = (s.version key).isSome := by
  rw [h.shown, Option.isSome_map, MemStore.Exists]

lemma MemStore.Shows.range_reply (h : m.Shows s) (key : Bytes) {offset length : Int64}
    (hsum : offset.toInt + length.toInt < 2 ^ 63) :
    (m.ReadRange key offset length).elim .panicked (.ofExcept fun r => .data r.1 r.2) =
      rangeReply key offset length (s.version key) := by
  rw [h.shown, MemStore.ReadRange]
  cases hl : m.objects.lookup key with
  | none =>
    rw [Option.map_none, rangeReply]
    split <;> rfl
  | some e =>
    have hlen := h.sizes key e hl
    rw [Option.map_some, rangeReply_some]
    dsimp only
    split
    · rfl
    rename_i hneg
    rw [lt_zero_iff, lt_zero_iff] at hneg
    by_cases hexc : (e.version.data.length : ℤ) < offset.toInt
    · rw [if_pos ((ofNat_lt_iff hlen).mpr hexc), if_pos hexc]
      rfl
    · have hle : offset.toInt ≤ e.data.length := not_lt.mp hexc
      rw [if_neg fun hn => hexc ((ofNat_lt_iff hlen).mp hn), if_neg hexc,
        mem_slice hlen (by omega) (by omega) hle, if_pos hsum]
      rfl

/-- The verdict of `Put`. -/
lemma MemStore.put_cases (m : MemStore) (key data : Bytes)
    (hkind : cond.Absent = true → cond.GenerationMatch = []) :
    (cond.Absent = false ∧ cond.GenerationMatch ≠ [] ∧ localCanon cond.GenerationMatch = none ∧
      m.Put key data cond = .error (.malformedGeneration key cond.GenerationMatch)) ∨
    (cond.Absent = false → cond.GenerationMatch ≠ [] →
        localCanon cond.GenerationMatch = some cond.GenerationMatch) ∧
      m.Put key data cond =
        if Accepts cond ((m.objects.lookup key).map MemEntry.generation) then
          .ok (localGeneration m.nextSeq data.length,
            ⟨m.objects.insert key ⟨data, localGeneration m.nextSeq data.length⟩, m.nextSeq⟩)
        else .error (.preconditionFailed key) := by
  unfold MemStore.Put
  cases habs : cond.Absent with
  | true =>
    refine Or.inr ⟨(fun h => nomatch h), ?_⟩
    simp only [accepts_absent habs, hkind habs]
    cases m.objects.lookup key <;> simp
  | false =>
    by_cases hne : cond.GenerationMatch = []
    · exact Or.inr ⟨fun _ h => absurd hne h, by simp [accepts_match habs, hne]⟩
    · cases hvalid : validLocalGeneration cond.GenerationMatch with
      | false => exact Or.inl ⟨rfl, hne, by simp [localCanon, hvalid], by simp [hne]⟩
      | true =>
        refine Or.inr ⟨fun _ _ => by simp [localCanon, hvalid], ?_⟩
        by_cases hgen : (m.objects.lookup key).map MemEntry.generation = some cond.GenerationMatch
        · simp [accepts_match habs, hne, hgen]
        · simp [accepts_match habs, hne, hgen]

/-- The next generation is a new one. -/
lemma MemStore.Shows.fresh (h : m.Shows s) (hseq : m.genSeq < maxInt64) (key : Bytes) (size : ℕ) :
    (key, localGeneration m.nextSeq size) ∉ s.issued := by
  intro hmem
  obtain ⟨n, hn⟩ := List.mem_iff_getElem?.mp hmem
  obtain ⟨size', heq⟩ := h.texts n key _ hn
  have hlt := (List.getElem?_eq_some_iff.mp hn).1
  have hnext := (localGeneration_injective heq).1
  rw [MemStore.nextSeq, if_neg hseq.ne, h.counted] at hnext
  omega

lemma MemStore.Shows.put (h : m.Shows s) (hs : s.Wf) (hseq : m.genSeq < maxInt64)
    (hdata : data.length < 2 ^ 63) :
    MemStore.Shows
      ⟨m.objects.insert key ⟨data, localGeneration m.nextSeq data.length⟩, m.nextSeq⟩
      ⟨s.cells.put key data, s.issued ++ [(key, localGeneration m.nextSeq data.length)]⟩ := by
  have hnext : m.nextSeq = s.issued.length + 1 := by
    rw [MemStore.nextSeq, if_neg hseq.ne, h.counted]
  refine ⟨fun key' => ?_, fun key' e he => ?_, ?_, fun n key' g hn => ?_⟩
  · rw [hs.version_put]
    by_cases hk : key' = key
    · subst hk
      rw [Function.update_self, AList.lookup_insert]
      rfl
    · rw [Function.update_of_ne hk, AList.lookup_insert_ne hk, h.shown]
  · by_cases hk : key' = key
    · subst hk
      rw [AList.lookup_insert, Option.some.injEq] at he
      rwa [← he]
    · rw [AList.lookup_insert_ne hk] at he
      exact h.sizes key' e he
  · rw [List.length_append, List.length_singleton, hnext]
    push_cast
    rfl
  · rcases Nat.lt_or_ge n s.issued.length with hlt | hge
    · rw [List.getElem?_append_left hlt] at hn
      exact h.texts n key' g hn
    · rw [List.getElem?_append_right hge, List.getElem?_singleton] at hn
      split at hn
      · cases hn
        refine ⟨data.length, ?_⟩
        rw [hnext]
        congr 1
        omega
      · cases hn

lemma MemStore.Shows.delete (h : m.Shows s) (key : Bytes) :
    MemStore.Shows { m with objects := m.objects.erase key }
      { s with cells := s.cells.delete key } := by
  refine ⟨fun key' => ?_, fun key' e he => ?_, h.counted, h.texts⟩
  · rw [Shelf.version_delete]
    by_cases hk : key' = key
    · subst hk
      rw [Function.update_self, AList.lookup_erase, Option.map_none]
    · rw [Function.update_of_ne hk, AList.lookup_erase_ne hk, h.shown]
  · by_cases hk : key' = key
    · subst hk
      rw [AList.lookup_erase] at he
      cases he
    · rw [AList.lookup_erase_ne hk] at he
      exact h.sizes key' e he

lemma MemStore.Shows.put_step (h : m.Shows s) (hs : s.Wf) (hseq : m.genSeq < maxInt64)
    (hmodest : (StoreRequest.put key data cond).Modest) (R : RangeOrder Bytes) :
    ∃ t, s.Step localCanon (.put key data cond) (m.call R (.put key data cond)).1 t ∧
      (m.call R (.put key data cond)).2.Shows t := by
  obtain ⟨hdata, hkind⟩ := hmodest
  rw [MemStore.call]
  rcases m.put_cases key data hkind with ⟨habs, hne, hcanon, hput⟩ | ⟨hcanon, hput⟩
  · rw [hput]
    exact ⟨s, .malformed key data cond habs hne hcanon, h⟩
  · have hgen : (s.version key).map Version.generation =
        (m.objects.lookup key).map MemEntry.generation := by
      rw [h.shown, Option.map_map]
      rfl
    rw [hput]
    by_cases hok : Accepts cond ((m.objects.lookup key).map MemEntry.generation)
    · have hnext : m.nextSeq = s.issued.length + 1 := by
        rw [MemStore.nextSeq, if_neg hseq.ne, h.counted]
      have hbound : m.nextSeq ≤ maxInt64 := by
        rw [h.counted] at hseq
        omega
      rw [if_pos hok]
      rw [← hgen] at hok
      exact ⟨_, hs.accepted_step data hcanon hok (by omega) hbound hdata (h.fresh hseq key _),
        h.put hs hseq hdata⟩
    · rw [if_neg hok]
      rw [← hgen] at hok
      exact ⟨s, hs.refused_step data hcanon hok, h⟩

theorem MemStore.Shows.call_step (h : m.Shows s) (hs : s.Wf) (hseq : m.genSeq < maxInt64)
    {req : StoreRequest} (hreq : req.Modest) (R : RangeOrder Bytes) :
    ∃ t, s.Step localCanon req (m.call R req).1 t ∧ (m.call R req).2.Shows t := by
  cases req with
  | stat key =>
    simp only [MemStore.call, h.stat_reply]
    exact ⟨s, .stat key, h⟩
  | get key =>
    simp only [MemStore.call, h.get_reply]
    exact ⟨s, .get key, h⟩
  | readRange key offset length =>
    simp only [MemStore.call, h.range_reply key hreq]
    exact ⟨s, .readRange key offset length, h⟩
  | «exists» key =>
    simp only [MemStore.call, h.exists_reply]
    exact ⟨s, .exists key, h⟩
  | put key data cond => exact h.put_step hs hseq hreq R
  | delete key =>
    rw [MemStore.call, MemStore.Delete]
    have hv := h.shown key
    cases hl : m.objects.lookup key with
    | none =>
      rw [hl] at hv
      exact ⟨s, .absent key hv, h⟩
    | some e =>
      rw [hl] at hv
      exact ⟨_, .delete key (hv ▸ Option.some_ne_none _), h.delete key⟩
  | list pfx startAfter limit =>
    refine ⟨s, .list pfx startAfter limit _ ?_, h⟩
    have hlist := m.list_isListing R pfx startAfter limit
    have hheld : (fun key => (s.version key).map (Version.object key)) =
        fun key => (m.objects.lookup key).map (MemStore.object key) := by
      funext key
      rw [h.shown, Option.map_map]
      rfl
    rw [hheld]
    exact hlist

end Calls

/-- **The memory store refines the reference store**, for any calls of any goroutines as
long as its counter does not wrap: the versioned cells give the same answers, and a
conditional `Put` succeeds exactly on the version that it names. -/
theorem memory_store_refines {t : Recorded MemStore StoreEvent}
    (h : memCalls.Run MemModest ⟨.newMemStore, []⟩ t) :
    (∃ s, Shelf.Run localCanon t.reports s ∧ t.state.Shows s) ∧ Swaps localCanon t.reports := by
  have hrun : ∃ s, Shelf.Run localCanon t.reports s ∧ t.state.Shows s := by
    refine Machine.Run.preserves (P := fun t : Recorded MemStore StoreEvent =>
      ∃ s, Shelf.Run localCanon t.reports s ∧ t.state.Shows s) ?_ h
      ⟨{}, .nil, (fun _ => rfl), (fun _ _ he => nomatch he), rfl, fun _ _ _ hn => nomatch hn⟩
    rintro t a u ⟨s, hs, hshows⟩ ⟨hseq, hreq⟩ hstep
    cases hstep
    obtain ⟨s', hstep, hshows'⟩ := hshows.call_step hs.wf hseq hreq a.2
    exact ⟨s', hs.snoc hstep, hshows'⟩
  obtain ⟨s, hs, hshows⟩ := hrun
  exact ⟨⟨s, hs, hshows⟩, hs.swaps⟩

instance (t : Recorded MemStore StoreEvent) (a : StoreRequest × RangeOrder Bytes) :
    Decidable (MemModest t a) :=
  inferInstanceAs (Decidable (_ ∧ _))

-- Of two swaps that ask for the same generation the second one is refused.
def swapRequests : List StoreRequest :=
  [.put (ascii "k") [1] ⟨true, []⟩, .put (ascii "k") [2, 3] ⟨false, ascii "1-1"⟩,
   .put (ascii "k") [4] ⟨false, ascii "1-1"⟩, .get (ascii "k")]

def swapReplies : List StoreReply :=
  [.generation (ascii "1-1"), .generation (ascii "2-2"),
   .failed (.preconditionFailed (ascii "k")), .data [2, 3] ⟨ascii "k", ascii "2-2", 2⟩]

theorem memory_store_refines_swap : ∃ t, memCalls.Run MemModest ⟨.newMemStore, []⟩ t ∧
    t.reports = swapRequests.zip swapReplies ∧
    (∃ s, Shelf.Run localCanon t.reports s) ∧ Swaps localCanon t.reports := by
  obtain ⟨t, ht, hreports⟩ := Machine.exec_exists memCalls MemModest ⟨.newMemStore, []⟩
    (swapRequests.map fun r => (r, RangeOrder.stored))
    (fun t => t.reports = swapRequests.zip swapReplies) (by decide +kernel)
  obtain ⟨⟨s, hs, -⟩, hswaps⟩ := memory_store_refines ht
  exact ⟨t, ht, hreports, ⟨s, hs⟩, hswaps⟩

end CloudyNeigh.ObjectStore
