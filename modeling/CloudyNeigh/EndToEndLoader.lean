import CloudyNeigh.EndToEndWorld

/-!
# A loader on a store that changes

`Sync` takes its segments one by one while flushers go on writing. Segments are
never changed, and a manifest refers only to segments that exist, so the calls end
as if each had made its pass over the store at once.
-/
namespace CloudyNeigh.EndToEnd
open RecordIO Storage Transition Naming VectorFormat Query Versioned

section Agree
variable {A : Arith} {D : Decoder} {k : Kernels} {segs segs' : Bytes → Option Bytes}
  {refs : List SegmentRef}

/-- The two stores have the same objects for these segments. -/
def Agree (segs segs' : Bytes → Option Bytes) (refs : List SegmentRef) : Prop :=
  ∀ ref ∈ refs, segs' ref.segmentId = segs ref.segmentId

lemma Agree.mono {refs' : List SegmentRef} (h : Agree segs segs' refs) (hsub : refs' ⊆ refs) :
    Agree segs segs' refs' :=
  fun ref href => h ref (hsub href)

lemma loadSegment_agree {ref : SegmentRef} (h : segs' ref.segmentId = segs ref.segmentId)
    (t : Table) (fault : Fault) :
    loadSegment A D segs' t ref fault = loadSegment A D segs t ref fault := by
  simp only [loadSegment, h]

lemma syncLoop_agree (h : Agree segs segs' refs) (t : Table) (applied loaded : ℕ)
    (faults : List Fault) :
    syncLoop A D segs' t applied loaded refs faults =
      syncLoop A D segs t applied loaded refs faults := by
  induction refs generalizing t applied loaded faults with
  | nil => rfl
  | cons ref refs ih =>
    have hrest := h.mono (List.subset_cons_self ref refs)
    rw [syncLoop, syncLoop, loadSegment_agree (h ref List.mem_cons_self)]
    cases loadSegment A D segs t ref (faults.headD .none) with
    | none => rfl
    | some out =>
      cases herr : out.err with
      | some e => simp only [herr]
      | none =>
        simp only [herr]
        exact ih hrest _ _ _ _

lemma contents_agree (h : Agree segs segs' refs) : contents D segs' refs = contents D segs refs := by
  induction refs with
  | nil => rfl
  | cons ref refs ih =>
    rw [contents, contents, h ref List.mem_cons_self, ih (h.mono (List.subset_cons_self ref refs))]

lemma holds_agree {l : Loader} {qs : List DocumentMutation} (h : Holds A D segs k refs l qs)
    (hagree : Agree segs segs' refs) : Holds A D segs' k refs l qs := by
  obtain ⟨hle, ⟨v, w, ⟨ms, hms, hv⟩, hw, hrep⟩, htail⟩ := h
  have htake := hagree.mono (List.take_subset l.applied refs)
  refine ⟨hle, ⟨v, w, ⟨ms, (contents_agree htake).trans hms, hv⟩, hw, hrep⟩, ?_⟩
  rcases htail with hnil | ⟨ref, href, hq⟩
  · exact .inl hnil
  · refine .inr ⟨ref, href, ?_⟩
    rwa [leadingOf, hagree ref (List.mem_of_getElem? href)]

lemma shows_agree {t : Table} (h : Shows A D segs k refs t) (hagree : Agree segs segs' refs) :
    Shows A D segs' k refs t := by
  obtain ⟨ms, T, hms, hT, hobs⟩ := h
  exact ⟨ms, T, (contents_agree hagree).trans hms, hT, hobs⟩

end Agree

section Calls
variable {E : Deployment} {segs segs' : Bytes → Option Bytes} {l l' : LoaderState}
  {m : BranchManifest} {gen : String}

/-- The pass so far: from here it goes on as the whole loop does after the same faults. -/
structure Loading (E : Deployment) (segs : Bytes → Option Bytes) (l : Loader) (m : BranchManifest)
    (gen : String) (p : Pass) (todo : List SegmentRef) : Prop where
  fresh : ¬ (gen ≠ "" ∧ gen = l.lastGen)
  long : ¬ m.segments.length < l.applied
  part : todo ⊆ m.segments
  goes : ∃ faults, ∀ rest,
    syncLoop E.arith E.decoder segs l.table l.applied 0 (m.segments.drop l.applied)
        (faults ++ rest) =
      syncLoop E.arith E.decoder segs p.table p.applied p.loaded todo rest

/-- The call has returned for `m` as one locked pass does. -/
structure Finished (E : Deployment) (segs : Bytes → Option Bytes) (l : Loader) (m : BranchManifest)
    (gen : String) (l' : LoaderState) : Prop where
  ends : ∃ faults n err, l.syncLocked E.arith E.decoder segs m gen faults = (l'.loader, n, err) ∧
    l'.pc = .returned (some m) err

lemma Loading.agree {p : Pass} {todo : List SegmentRef}
    (h : Loading E segs l.loader m gen p todo) (hagree : Agree segs segs' m.segments) :
    Loading E segs' l.loader m gen p todo := by
  obtain ⟨faults, hgoes⟩ := h.goes
  refine ⟨h.fresh, h.long, h.part, faults, fun rest => ?_⟩
  rw [syncLoop_agree (hagree.mono (List.drop_subset _ _)), hgoes, syncLoop_agree (hagree.mono h.part)]

/-- From here the loop ends in `q`. -/
lemma Loading.pass {p q : Pass} {todo : List SegmentRef} {rest : List Fault}
    (h : Loading E segs l.loader m gen p todo)
    (hq : syncLoop E.arith E.decoder segs p.table p.applied p.loaded todo rest = q) :
    ∃ faults, l.loader.pass E.arith E.decoder segs m faults = q := by
  obtain ⟨faults, hgoes⟩ := h.goes
  exact ⟨faults ++ rest, (hgoes rest).trans hq⟩

lemma lock_spec (h : l.lock = some l') (hpc : l.pc = .holding m gen) :
    Finished E segs l.loader m gen l' ∨
      l'.loader = l.loader ∧ ∃ p todo, l'.pc = .loading m gen p todo ∧
        Loading E segs l.loader m gen p todo := by
  simp only [LoaderState.lock, hpc] at h
  split at h
  · rename_i hgen
    cases h
    exact .inl ⟨[], 0, none, by rw [Loader.syncLocked, if_pos hgen], rfl⟩
  · rename_i hgen
    split at h
    · rename_i hlen
      cases h
      exact .inl ⟨[], 0, _, by rw [Loader.syncLocked, if_neg hgen, if_pos hlen], rfl⟩
    · rename_i hlen
      cases h
      exact .inr ⟨rfl, _, _, rfl, hgen, hlen, List.drop_subset _ _, [], fun _ => rfl⟩

lemma load_spec {fault : Fault} (h : l.load E segs fault = some l') {p : Pass}
    {todo : List SegmentRef} (hpc : l.pc = .loading m gen p todo)
    (hload : Loading E segs l.loader m gen p todo) :
    Finished E segs l.loader m gen l' ∨
      l'.loader = l.loader ∧ ∃ p todo, l'.pc = .loading m gen p todo ∧
        Loading E segs l.loader m gen p todo := by
  cases todo with
  | nil => simp [LoaderState.load, hpc] at h
  | cons ref todo =>
    simp only [LoaderState.load, hpc] at h
    split at h
    · rename_i hseg
      cases h
      have hq : syncLoop E.arith E.decoder segs p.table p.applied p.loaded (ref :: todo) [fault] =
          ⟨p.table, p.applied, p.loaded, 0, some (.getSegment ref.segmentId)⟩ := by
        simp only [syncLoop, List.headD_cons, hseg]
      obtain ⟨faults, hp⟩ := hload.pass hq
      exact .inl ⟨faults, _, _, syncLocked_failed hp hload.fresh hload.long rfl, rfl⟩
    · rename_i out hseg
      split at h
      · rename_i e herr
        cases h
        have hq : syncLoop E.arith E.decoder segs p.table p.applied p.loaded (ref :: todo) [fault] =
            ⟨out.table, p.applied, p.loaded, out.count, some (.load ref.segmentId e)⟩ := by
          simp only [syncLoop, List.headD_cons, hseg, herr]
        obtain ⟨faults, hp⟩ := hload.pass hq
        exact .inl ⟨faults, _, _, syncLocked_failed hp hload.fresh hload.long rfl, rfl⟩
      · rename_i herr
        cases h
        obtain ⟨faults, hgoes⟩ := hload.goes
        refine .inr ⟨rfl, _, _, rfl, hload.fresh, hload.long,
          fun r hr => hload.part (List.mem_cons_of_mem _ hr), faults ++ [fault], fun rest => ?_⟩
        rw [List.append_assoc, hgoes]
        simp only [List.singleton_append, syncLoop, List.headD_cons, hseg, herr, List.tail_cons]

lemma publish_spec (h : l.publish = some l') {p : Pass} {todo : List SegmentRef}
    (hpc : l.pc = .loading m gen p todo) (hload : Loading E segs l.loader m gen p todo) :
    Finished E segs l.loader m gen l' := by
  cases todo with
  | cons ref todo => simp [LoaderState.publish, hpc] at h
  | nil =>
    simp only [LoaderState.publish, hpc, Option.some.injEq] at h
    subst h
    have hq : syncLoop E.arith E.decoder segs p.table p.applied p.loaded [] [] =
        ⟨p.table, p.applied, p.loaded, 0, none⟩ := rfl
    obtain ⟨faults, hp⟩ := hload.pass hq
    have hsync := syncLocked_clean hp hload.fresh hload.long rfl
    exact ⟨faults, _, _, hsync, rfl⟩

end Calls

section Invariant
variable {E : Deployment} {st st' : Ingest.Store} {b : String} {l : LoaderState}
  {m : BranchManifest} {gen : String}

/-- The manifest that `Sync` would read now. -/
def currentOf (E : Deployment) (st : Ingest.Store) (b : String) : BranchManifest :=
  st.current (E.setup.scope.ManifestKey b)

/-- The entries of `b` up to the checkpoint of `m` are its segments. -/
abbrev Whole (E : Deployment) (st : Ingest.Store) (b : String) (m : BranchManifest) : Prop :=
  Ingest.Materialised E.setup st b Ingest.emptyManifest m

/-- How the store changes while no `Fork` runs. -/
structure Onward (E : Deployment) (st st' : Ingest.Store) : Prop where
  evolves : st.Evolves st'
  grows : ∀ b, Valid b → (currentOf E st b).segments <+: (currentOf E st' b).segments

lemma Onward.refl (E : Deployment) (st : Ingest.Store) : Onward E st st :=
  ⟨.refl st, fun _ _ => List.prefix_rfl⟩

/-- A segment that a manifest refers to does not change. -/
lemma Whole.agree (h : Whole E st b m) (he : st.Evolves st') :
    Agree st.segments st'.segments m.segments := by
  intro ref href
  rw [h.segments] at href
  obtain ⟨e, hmem, rfl⟩ := List.mem_map.mp href
  obtain ⟨data, hdata, -⟩ := h.readable e hmem
  rw [hdata, he.segments _ _ hdata]

/-- What a loader has published, and that it only skips a manifest it has loaded. -/
structure Ready (E : Deployment) (st : Ingest.Store) (b : String) (l : Loader) : Prop where
  holds : ∃ qs, Holds E.arith E.decoder st.segments E.kernels (currentOf E st b).segments l qs
  lastGen : l.lastGen = "" ∨ ∃ g, l.lastGen = E.token g ∧ g < st.manifests.next ∧
    ∀ m, st.manifests.cell (E.setup.scope.ManifestKey b) = some (m, g) →
      m.segments.length ≤ l.applied

/-- A call of `Sync` that has read manifest `m`. -/
structure Reading (E : Deployment) (st : Ingest.Store) (b : String) (l : Loader)
    (m : BranchManifest) (gen : String) : Prop where
  whole : Whole E st b m
  part : m.segments <+: (currentOf E st b).segments
  holds : ∃ qs, Holds E.arith E.decoder st.segments E.kernels m.segments l qs
  seen : ∃ g, gen = E.token g ∧ st.manifests.Seen (E.setup.scope.ManifestKey b) m (some g)
  known : gen = l.lastGen → m.segments.length ≤ l.applied

/-- A call that returned nil for `m`: the table shows all of `m`. -/
structure Synced (E : Deployment) (st : Ingest.Store) (b : String) (l : Loader)
    (m : BranchManifest) : Prop where
  whole : Whole E st b m
  shows : Shows E.arith E.decoder st.segments E.kernels m.segments l.table

def LoaderPc.Ok (E : Deployment) (st : Ingest.Store) (b : String) (l : Loader) : LoaderPc → Prop
  | .idle | .returned none _ | .returned (some _) (some _) => True
  | .holding m gen => Reading E st b l m gen
  | .loading m gen p todo => Reading E st b l m gen ∧ Loading E st.segments l m gen p todo
  | .returned (some m) none => Synced E st b l m

structure LoaderState.Ok (E : Deployment) (st : Ingest.Store) (b : String) (l : LoaderState) :
    Prop where
  ready : Ready E st b l.loader
  pc : l.pc.Ok E st b l.loader

lemma Ready.later {l : Loader} (h : Ready E st b l) (hb : Valid b) (ho : Onward E st st')
    (hcur : Whole E st b (currentOf E st b)) : Ready E st' b l := by
  obtain ⟨qs, hqs⟩ := h.holds
  refine ⟨⟨qs, (holds_agree hqs (hcur.agree ho.evolves)).extend (ho.grows b hb)⟩, ?_⟩
  refine h.lastGen.imp_right fun ⟨g, hg, hlt, hlen⟩ => ?_
  have hlater := ho.evolves.manifests
  exact ⟨g, hg, hlt.trans_le hlater.next_le, fun m hm => hlen m (hlater.old _ m g hm hlt)⟩

lemma Reading.later {l : Loader} (h : Reading E st b l m gen) (hb : Valid b)
    (ho : Onward E st st') : Reading E st' b l m gen := by
  obtain ⟨qs, hqs⟩ := h.holds
  obtain ⟨g, hg, hseen⟩ := h.seen
  exact ⟨h.whole.later ho.evolves, h.part.trans (ho.grows b hb),
    ⟨qs, holds_agree hqs (h.whole.agree ho.evolves)⟩, ⟨g, hg, hseen.later ho.evolves.manifests⟩, h.known⟩

lemma LoaderState.Ok.later (h : l.Ok E st b) (hb : Valid b) (ho : Onward E st st')
    (hcur : Whole E st b (currentOf E st b)) : l.Ok E st' b := by
  refine ⟨h.ready.later hb ho hcur, ?_⟩
  have hpc := h.pc
  cases hl : l.pc with
  | idle => trivial
  | holding m gen =>
    rw [hl] at hpc
    exact Reading.later hpc hb ho
  | loading m gen p todo =>
    rw [hl] at hpc
    exact ⟨hpc.1.later hb ho, hpc.2.agree (hpc.1.whole.agree ho.evolves)⟩
  | returned m err =>
    rw [hl] at hpc
    cases m with
    | none => trivial
    | some m =>
      cases err with
      | some e => trivial
      | none =>
        have hsync : Synced E st b l.loader m := hpc
        exact ⟨hsync.whole.later ho.evolves, shows_agree hsync.shows (hsync.whole.agree ho.evolves)⟩

/-- The end of a call. A nil return has published all of the manifest. -/
lemma Finished.ok {l' : LoaderState} (h : Finished E st.segments l.loader m gen l')
    (hready : Ready E st b l.loader) (hread : Reading E st b l.loader m gen) :
    l'.Ok E st b := by
  obtain ⟨faults, n, err, hsync, hpc⟩ := h.ends
  obtain ⟨qs, hqs⟩ := hread.holds
  obtain ⟨g, hg, hseen⟩ := hread.seen
  obtain ⟨qs', hholds, hends⟩ := syncLocked_ends hqs List.prefix_rfl gen faults
  rw [hsync] at hholds hends
  dsimp only at hholds hends
  have hq : qs = [] ∨ l.loader.applied < m.segments.length := by
    refine hqs.tail.imp_right fun ⟨ref, href, _⟩ => ?_
    exact (List.getElem?_eq_some_iff.mp href).1
  have hcomplete : err = none → l'.loader.applied = m.segments.length ∧ qs' = [] := by
    rintro rfl
    exact hends.complete hqs.le hq fun _ => hread.known
  refine ⟨⟨⟨qs', hholds.extend hread.part⟩, ?_⟩, ?_⟩
  · rcases hends.lastGen with hold | ⟨hnew, hnone⟩
    · rw [hold]
      refine hready.lastGen.imp_right fun ⟨g', hg', hlt, hlen⟩ => ⟨g', hg', hlt, fun m' hm' => ?_⟩
      exact (hlen m' hm').trans hends.applied_le
    · refine .inr ⟨g, hnew.trans hg, (hseen g rfl).1, fun m' hm' => ?_⟩
      rw [(hseen g rfl).2 m' hm', (hcomplete hnone).1]
  · rw [hpc]
    cases err with
    | some e => trivial
    | none =>
      obtain ⟨hall, rfl⟩ := hcomplete rfl
      have hshow := hholds.shows
      rw [hall, List.take_length] at hshow
      exact ⟨hread.whole, hshow⟩

/-- `Sync` reads the manifest. The loader is behind it, and knows its generation
only if it has loaded it. -/
lemma readManifest_ok {l' : LoaderState} {ok : Bool} (h : l.readManifest E st b ok = some l')
    (hok : l.Ok E st b) (hsound : st.manifests.Sound) (hcur : Whole E st b (currentOf E st b)) :
    l'.Ok E st b := by
  have hrest : ∀ m err, (err = none → m = none) →
      LoaderState.Ok E st b { l with pc := .returned m err } := by
    intro m err hm
    refine ⟨hok.ready, ?_⟩
    cases m with
    | none => trivial
    | some m =>
      cases err with
      | none => cases hm rfl
      | some e => trivial
  have hstart : ∀ m g, st.manifests.cell (E.setup.scope.ManifestKey b) = some (m, g) →
      LoaderState.Ok E st b { l with pc := .holding m (E.token g) } := by
    intro m g hcell
    have hm : currentOf E st b = m := Ingest.Store.current_some hcell
    refine ⟨hok.ready, hm ▸ hcur, hm ▸ List.prefix_rfl, hm ▸ hok.ready.holds,
      ⟨g, rfl, hsound.seen hcell⟩, fun hgen => ?_⟩
    rcases hok.ready.lastGen with hnil | ⟨g', hg', -, hlen⟩
    · exact absurd (hgen.trans hnil) (E.token_ne g)
    · rw [hg'] at hgen
      rw [← E.token_injective hgen] at hlen
      exact hlen m hcell
  cases hl : l.pc with
  | holding | loading => simp [LoaderState.readManifest, hl] at h
  | idle | returned =>
    simp only [LoaderState.readManifest, hl] at h
    split at h
    · split at h
      · cases h
        exact hrest none none fun _ => rfl
      · rename_i m g hcell
        cases h
        exact hstart m g hcell
    · cases h
      exact hrest none _ (by simp)

lemma lock_ok {l' : LoaderState} (h : l.lock = some l') (hok : l.Ok E st b) : l'.Ok E st b := by
  have hpc := hok.pc
  cases hl : l.pc with
  | idle | loading | returned => simp [LoaderState.lock, hl] at h
  | holding m gen =>
    rw [hl] at hpc
    rcases lock_spec h hl with hfin | ⟨hsame, p, todo, hnext, hload⟩
    · exact hfin.ok hok.ready hpc
    · exact ⟨hsame ▸ hok.ready, by rw [hnext, hsame]; exact ⟨hpc, hload⟩⟩

lemma load_ok {l' : LoaderState} {fault : Fault} (h : l.load E st.segments fault = some l')
    (hok : l.Ok E st b) : l'.Ok E st b := by
  have hpc := hok.pc
  cases hl : l.pc with
  | idle | holding | returned => simp [LoaderState.load, hl] at h
  | loading m gen p todo =>
    rw [hl] at hpc
    rcases load_spec h hl hpc.2 with hfin | ⟨hsame, p', todo', hnext, hload⟩
    · exact hfin.ok hok.ready hpc.1
    · exact ⟨hsame ▸ hok.ready, by rw [hnext, hsame]; exact ⟨hpc.1, hload⟩⟩

lemma publish_ok {l' : LoaderState} (h : l.publish = some l') (hok : l.Ok E st b) :
    l'.Ok E st b := by
  have hpc := hok.pc
  cases hl : l.pc with
  | idle | holding | returned => simp [LoaderState.publish, hl] at h
  | loading m gen p todo =>
    rw [hl] at hpc
    exact (publish_spec h hl hpc.2).ok hok.ready hpc.1

end Invariant

end CloudyNeigh.EndToEnd
