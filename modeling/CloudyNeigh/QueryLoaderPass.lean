import CloudyNeigh.QueryLoader

/-!
# What a pass publishes

The published table holds the first `applied` segments and perhaps a leading part
of the next one. A pass that completes the next segment absorbs that part.
-/
namespace CloudyNeigh.Query
open RecordIO Replay Storage VectorFormat

section
variable (A : Arith) (D : Decoder) (segs : Bytes → Option Bytes) (k : Kernels)

/-- The view after all mutations of these segments, from an empty table. -/
def Replays (refs : List SegmentRef) (v : View) : Prop :=
  ∃ ms, contents D segs refs = some ms ∧ View.empty.applyAll A D k.is16 ms = .ok v

/-- `qs` is what the table holds beyond the first `applied` segments. -/
structure Holds (refs : List SegmentRef) (l : Loader) (qs : List DocumentMutation) : Prop where
  le : l.applied ≤ refs.length
  table : ∃ v w, Replays A D segs k (refs.take l.applied) v ∧
    v.applyAll A D k.is16 qs = .ok w ∧ l.table.Represents k w
  tail : qs = [] ∨ ∃ ref, refs[l.applied]? = some ref ∧ qs <+: leadingOf D segs ref

/-- The table cannot be told apart from a fresh one on which these segments, each
complete, were applied in order. -/
def Shows (refs : List SegmentRef) (t : Table) : Prop :=
  ∃ ms T, contents D segs refs = some ms ∧ (NewTable k).applyAll A D ms = .ok T ∧ ObsEq A t T

/-- A pass over `refs` that completes `n` of them and applies `qs` of the next one. -/
structure Pass.Spec (v : View) (refs : List SegmentRef) (applied loaded : ℕ) (p : Pass) (n : ℕ)
    (qs : List DocumentMutation) : Prop where
  le : n ≤ refs.length
  applied_eq : p.applied = applied + n
  loaded_eq : p.loaded = loaded + n
  count_eq : p.count = qs.length
  table : ∃ ms u w, contents D segs (refs.take n) = some ms ∧
    v.applyAll A D k.is16 ms = .ok u ∧ u.applyAll A D k.is16 qs = .ok w ∧
    p.table.Represents k w
  tail : qs = [] ∨ ∃ ref, refs[n]? = some ref ∧ qs <+: leadingOf D segs ref
  clean : p.err = none → n = refs.length ∧ qs = []
  failed : p.err ≠ none → n < refs.length

end

variable {A : Arith} {D : Decoder} {segs : Bytes → Option Bytes} {k : Kernels}

lemma contents_append {xs ys : List SegmentRef} {ms ns : List DocumentMutation}
    (hx : contents D segs xs = some ms) (hy : contents D segs ys = some ns) :
    contents D segs (xs ++ ys) = some (ms ++ ns) := by
  induction xs generalizing ms with
  | nil =>
    cases hx
    exact hy
  | cons ref xs ih =>
    rw [List.cons_append, contents]
    rw [contents] at hx
    split at hx
    · cases hx
    · obtain ⟨rest, hrest, rfl⟩ := Option.map_eq_some_iff.mp hx
      rw [ih hrest]
      simp

lemma Replays.append {xs ys : List SegmentRef} {v w : View} {ms : List DocumentMutation}
    (h : Replays A D segs k xs v) (hy : contents D segs ys = some ms)
    (hw : v.applyAll A D k.is16 ms = .ok w) : Replays A D segs k (xs ++ ys) w := by
  obtain ⟨ns, hx, hv⟩ := h
  exact ⟨ns ++ ms, contents_append hx hy, by rw [View.applyAll_append hv, hw]⟩

lemma Holds.shows {refs : List SegmentRef} {l : Loader} (h : Holds A D segs k refs l []) :
    Shows A D segs k (refs.take l.applied) l.table := by
  obtain ⟨v, w, ⟨ms, hms, hv⟩, hw, hrep⟩ := h.table
  cases hw
  obtain ⟨T, hT, hrepT⟩ := (newTable_represents k).applyAll_of_view hv
  exact ⟨ms, T, hms, hT, hrep.obsEq hrepT A⟩

lemma Holds.extend {refs refs' : List SegmentRef} {l : Loader} {qs : List DocumentMutation}
    (h : Holds A D segs k refs l qs) (hext : refs <+: refs') : Holds A D segs k refs' l qs := by
  obtain ⟨tail, rfl⟩ := hext
  refine ⟨?_, ?_, ?_⟩
  · rw [List.length_append]
    exact Nat.le_add_right_of_le h.le
  · rw [List.take_append_of_le_length h.le]
    exact h.table
  · rcases h.tail with hnil | ⟨ref, href, hq⟩
    · exact Or.inl hnil
    · refine Or.inr ⟨ref, ?_, hq⟩
      rw [List.getElem?_append_left (List.getElem?_eq_some_iff.mp href).1, href]

/-- A segment that was completed, before the rest of the pass. -/
lemma Pass.Spec.cons {v u : View} {ref : SegmentRef} {refs : List SegmentRef} {p : Pass}
    {applied loaded n : ℕ} {ps qs : List DocumentMutation}
    (hseg : (segs ref.segmentId).bind (readSegment D.mutation) = some ps)
    (hu : v.applyAll A D k.is16 ps = .ok u)
    (h : Pass.Spec A D segs k u refs (applied + 1) (loaded + 1) p n qs) :
    Pass.Spec A D segs k v (ref :: refs) applied loaded p (n + 1) qs := by
  obtain ⟨ms, u', w, hms, hu', hw, hrep⟩ := h.table
  refine ⟨Nat.succ_le_succ h.le, ?_, ?_, h.count_eq, ?_, h.tail, ?_, ?_⟩
  · rw [h.applied_eq]
    omega
  · rw [h.loaded_eq]
    omega
  · refine ⟨ps ++ ms, u', w, ?_, ?_, hw, hrep⟩
    · rw [List.take_succ_cons, contents, hseg]
      simp [hms]
    · rw [View.applyAll_append hu, hu']
  · intro hnone
    obtain ⟨hn, hqs⟩ := h.clean hnone
    exact ⟨by simp [hn], hqs⟩
  · intro herr
    exact Nat.succ_lt_succ (h.failed herr)

/-- A pass that starts from complete segments. -/
lemma syncLoop_spec {t : Table} {v : View} (h : t.Represents k v) (applied loaded : ℕ)
    (refs : List SegmentRef) (faults : List Fault) :
    ∃ n qs, Pass.Spec A D segs k v refs applied loaded
      (syncLoop A D segs t applied loaded refs faults) n qs := by
  induction refs generalizing t v applied loaded faults with
  | nil =>
    refine ⟨0, [], le_rfl, rfl, rfl, rfl, ⟨[], v, v, rfl, rfl, rfl, h⟩, Or.inl rfl, ?_, ?_⟩
    · exact fun _ => ⟨rfl, rfl⟩
    · exact fun herr => absurd rfl herr
  | cons ref refs ih =>
    unfold syncLoop
    split
    · exact ⟨0, [], Nat.zero_le _, rfl, rfl, rfl, ⟨[], v, v, rfl, rfl, rfl, h⟩, Or.inl rfl,
        by simp, by simp⟩
    · rename_i out hload
      obtain ⟨qs, hq, happ, hcount, -, hclean⟩ := loadSegment_spec hload
      obtain ⟨w, hw, hrep⟩ := h.applyAll_ok happ
      split
      · exact ⟨0, qs, Nat.zero_le _, rfl, rfl, hcount, ⟨[], v, w, rfl, rfl, hw, hrep⟩,
          Or.inr ⟨ref, rfl, hq⟩, by simp, by simp⟩
      · obtain ⟨n, rs, hs⟩ := ih hrep (applied + 1) (loaded + 1) faults.tail
        exact ⟨n + 1, rs, hs.cons (hclean ‹_›).1 hw⟩

/-- A pass that starts after a leading part of the first segment: either it fails
before that segment is complete, or it ends as from the complete segments. -/
lemma syncLoop_absorb {t : Table} {v w : View} {qs : List DocumentMutation} {ref : SegmentRef}
    (hq : qs <+: leadingOf D segs ref) (hv : v.applyAll A D k.is16 qs = .ok w)
    (ht : t.Represents k w) (applied loaded : ℕ) (refs : List SegmentRef)
    (faults : List Fault) :
    let p := syncLoop A D segs t applied loaded (ref :: refs) faults
    (p.err ≠ none ∧ p.loaded = loaded ∧ p.applied = applied) ∨
      ∃ n rs, 0 < n ∧ Pass.Spec A D segs k v (ref :: refs) applied loaded p n rs := by
  unfold syncLoop
  dsimp only
  split
  · exact Or.inl ⟨by simp, rfl, rfl⟩
  · rename_i out hload
    obtain ⟨ps, -, happ, -, -, hclean⟩ := loadSegment_spec hload
    obtain ⟨u, hu, hrep⟩ := ht.applyAll_ok happ
    split
    · exact Or.inl ⟨by simp, rfl, rfl⟩
    · rename_i herr
      have hseg := (hclean herr).1
      have hlead := readSegment_leading hseg
      -- the part that was applied before is a part of the same batch
      have hvu : v.applyAll A D k.is16 ps = .ok u := by
        rw [← View.applyAll_absorb (hlead ▸ hq) hv]
        exact hu
      obtain ⟨n, rs, hs⟩ := syncLoop_spec hrep (applied + 1) (loaded + 1) refs faults.tail
      exact Or.inr ⟨n + 1, rs, Nat.succ_pos n, hs.cons hseg hvu⟩

section Locked
variable {l : Loader} {m : BranchManifest} {gen : String} {faults : List Fault}
  {refs : List SegmentRef} {qs : List DocumentMutation}

/-- The ways in which the locked part of `Sync` ends; `qs'` is what is published
beyond the complete segments. -/
inductive Ends (p : Pass) (l : Loader) (m : BranchManifest) (gen : String)
    (qs : List DocumentMutation) : Loader → Option SyncErr → List DocumentMutation → Prop
  | shortcut (known : gen ≠ "") (same : gen = l.lastGen) : Ends p l m gen qs l none qs
  | unchanged (e : SyncErr) : Ends p l m gen qs l (some e) qs
  | caughtUp (all : l.applied = m.segments.length) :
    Ends p l m gen qs { l with lastGen := gen } none qs
  | clean {l' : Loader} (grows : l.applied ≤ l'.applied) (all : l'.applied = m.segments.length)
    (stamp : l'.lastGen = gen) : Ends p l m gen qs l' none []
  | stopped {l' : Loader} {qs' : List DocumentMutation} (e : SyncErr)
    (grows : l.applied ≤ l'.applied) (short : l'.applied < m.segments.length)
    (stamp : l'.lastGen = l.lastGen) (loaded : 0 < p.loaded) (count : p.count = qs'.length) :
    Ends p l m gen qs l' (some e) qs'

lemma Ends.applied_le {p : Pass} {l' : Loader} {e : Option SyncErr}
    {qs' : List DocumentMutation} (h : Ends p l m gen qs l' e qs') : l.applied ≤ l'.applied := by
  cases h with
  | shortcut | unchanged | caughtUp => exact le_rfl
  | clean grows | stopped e grows => exact grows

/-- Only a nil return stamps the loader with the generation of the manifest. -/
lemma Ends.lastGen {p : Pass} {l' : Loader} {e : Option SyncErr} {qs' : List DocumentMutation}
    (h : Ends p l m gen qs l' e qs') :
    l'.lastGen = l.lastGen ∨ l'.lastGen = gen ∧ e = none := by
  cases h with
  | shortcut | unchanged => exact .inl rfl
  | caughtUp => exact .inr ⟨rfl, rfl⟩
  | clean grows all stamp => exact .inr ⟨stamp, rfl⟩
  | stopped e grows short stamp => exact .inl stamp

/-- A nil return has published all segments of the manifest, if the loader was not
ahead of it and the shortcut is only taken for a manifest that is loaded. -/
lemma Ends.complete {p : Pass} {l' : Loader} {qs' : List DocumentMutation}
    (h : Ends p l m gen qs l' none qs') (hle : l.applied ≤ m.segments.length)
    (hq : qs = [] ∨ l.applied < m.segments.length)
    (hgen : gen ≠ "" → gen = l.lastGen → m.segments.length ≤ l.applied) :
    l'.applied = m.segments.length ∧ qs' = [] := by
  have hdone : m.segments.length ≤ l.applied → l.applied = m.segments.length ∧ qs = [] := by
    intro hge
    exact ⟨by omega, hq.resolve_right (by omega)⟩
  cases h with
  | shortcut known same => exact hdone (hgen known same)
  | caughtUp all => exact hdone all.ge
  | clean grows all stamp => exact ⟨all, rfl⟩

/-- The published state after a pass that loaded at least one segment. -/
lemma Holds.advance (hm : m.segments <+: refs)
    (hle : l.applied ≤ m.segments.length) {v : View}
    (hv : Replays A D segs k (refs.take l.applied) v) {p : Pass} {n : ℕ}
    {rs : List DocumentMutation}
    (hs : Pass.Spec A D segs k v (m.segments.drop l.applied) l.applied 0 p n rs)
    (gen : String) : Holds A D segs k refs ⟨p.applied, gen, p.table⟩ rs := by
  obtain ⟨tail, rfl⟩ := hm
  obtain ⟨ms, u, w', hms, hu, hw', hrep⟩ := hs.table
  have hn : l.applied + n ≤ m.segments.length := by
    have := hs.le
    rw [List.length_drop] at this
    omega
  have htake : (m.segments ++ tail).take (l.applied + n) =
      (m.segments ++ tail).take l.applied ++ (m.segments.drop l.applied).take n := by
    rw [List.take_append_of_le_length hn, List.take_append_of_le_length hle, List.take_add]
  refine ⟨?_, ⟨u, w', ?_, hw', hrep⟩, ?_⟩
  · simp only [hs.applied_eq, List.length_append]
    omega
  · simp only [hs.applied_eq, htake]
    exact hv.append hms hu
  · rcases hs.tail with hnil | ⟨ref, href, hq⟩
    · exact Or.inl hnil
    · refine Or.inr ⟨ref, ?_, hq⟩
      rw [List.getElem?_drop] at href
      have hlt := (List.getElem?_eq_some_iff.mp href).1
      simp only [hs.applied_eq]
      rw [List.getElem?_append_left hlt, href]

section Pass
variable {p : Pass} (hp : l.pass A D segs m faults = p) (hgen : ¬ (gen ≠ "" ∧ gen = l.lastGen))
  (hlen : ¬ m.segments.length < l.applied)

include hp hgen hlen

lemma syncLocked_failed {e : SyncErr} (he : p.err = some e) :
    l.syncLocked A D segs m gen faults =
      ({ l with applied := p.applied, table := if 0 < p.loaded then p.table else l.table },
        p.loaded, some e) := by
  rw [Loader.syncLocked, if_neg hgen, if_neg hlen]
  simp only [hp, he]

lemma syncLocked_clean (he : p.err = none) :
    l.syncLocked A D segs m gen faults = (⟨p.applied, gen, p.table⟩, p.loaded, none) := by
  rw [Loader.syncLocked, if_neg hgen, if_neg hlen]
  simp only [hp, he]

/-- A pass that has completed at least one segment publishes what it has. -/
lemma ends_of_spec (hm : m.segments <+: refs) {v : View}
    (hv : Replays A D segs k (refs.take l.applied) v) {n : ℕ} {rs : List DocumentMutation}
    (hn : 0 < n) (hs : Pass.Spec A D segs k v (m.segments.drop l.applied) l.applied 0 p n rs) :
    ∃ qs', Holds A D segs k refs (l.syncLocked A D segs m gen faults).1 qs' ∧
      Ends p l m gen qs (l.syncLocked A D segs m gen faults).1
        (l.syncLocked A D segs m gen faults).2.2 qs' := by
  have hle : l.applied ≤ m.segments.length := by omega
  have happ := hs.applied_eq
  have hloaded : 0 < p.loaded := by
    rw [hs.loaded_eq]
    omega
  cases he : p.err with
  | some e =>
    have hlt := hs.failed (by simp [he])
    rw [List.length_drop] at hlt
    rw [syncLocked_failed hp hgen hlen he, if_pos hloaded]
    refine ⟨rs, Holds.advance hm hle hv hs l.lastGen,
      .stopped e ?_ ?_ rfl hloaded hs.count_eq⟩
    · dsimp only
      omega
    · dsimp only
      omega
  | none =>
    obtain ⟨hall, rfl⟩ := hs.clean he
    rw [List.length_drop] at hall
    rw [syncLocked_clean hp hgen hlen he]
    refine ⟨[], Holds.advance hm hle hv hs gen, .clean ?_ ?_ rfl⟩
    · dsimp only
      omega
    · dsimp only
      omega

end Pass

theorem syncLocked_ends (h : Holds A D segs k refs l qs) (hm : m.segments <+: refs)
    (gen : String) (faults : List Fault) :
    ∃ qs', Holds A D segs k refs (l.syncLocked A D segs m gen faults).1 qs' ∧
      Ends (l.pass A D segs m faults) l m gen qs (l.syncLocked A D segs m gen faults).1
        (l.syncLocked A D segs m gen faults).2.2 qs' := by
  by_cases hgen : gen ≠ "" ∧ gen = l.lastGen
  · rw [Loader.syncLocked, if_pos hgen]
    exact ⟨qs, h, .shortcut hgen.1 hgen.2⟩
  by_cases hlen : m.segments.length < l.applied
  · rw [Loader.syncLocked, if_neg hgen, if_pos hlen]
    exact ⟨qs, h, .unchanged _⟩
  obtain ⟨v, w, hv, hw, hrep⟩ := h.table
  cases hdrop : m.segments.drop l.applied with
  | nil =>
    have hall : l.applied = m.segments.length := by
      have := List.drop_eq_nil_iff.mp hdrop
      omega
    have hp : l.pass A D segs m faults = ⟨l.table, l.applied, 0, 0, none⟩ := by
      simp [Loader.pass, hdrop, syncLoop]
    rw [syncLocked_clean hp hgen hlen rfl]
    exact ⟨qs, ⟨h.le, h.table, h.tail⟩, .caughtUp hall⟩
  | cons ref rest =>
    have href : refs[l.applied]? = some ref := by
      obtain ⟨tail, rfl⟩ := hm
      have hget : m.segments[l.applied]? = some ref := by
        have := congrArg (·[0]?) hdrop
        simpa using this
      have hlt := (List.getElem?_eq_some_iff.mp hget).1
      rw [List.getElem?_append_left hlt, hget]
    have hq : qs <+: leadingOf D segs ref := by
      rcases h.tail with rfl | ⟨ref', href', hq⟩
      · exact List.nil_prefix
      · rw [href] at href'
        cases href'
        exact hq
    have hpass := syncLoop_absorb hq hw hrep l.applied 0 rest faults
    rw [← hdrop] at hpass
    rcases hpass with ⟨herr, hloaded, happ⟩ | ⟨n, rs, hn, hs⟩
    · obtain ⟨e, he⟩ := Option.ne_none_iff_exists'.mp herr
      rw [syncLocked_failed rfl hgen hlen he]
      have hpub : (l.pass A D segs m faults).loaded = 0 := hloaded
      have happ : (l.pass A D segs m faults).applied = l.applied := happ
      simp only [hpub, happ, Nat.lt_irrefl, if_false]
      exact ⟨qs, h, .unchanged e⟩
    · exact ends_of_spec rfl hgen hlen hm hv hn hs

end Locked

end CloudyNeigh.Query
