import CloudyNeigh.QueryUndefined

/-!
# One document in two tables

`Get` and `Search` show a document alike wherever its columns hold the same for it.
The other documents only decide whether a search has room for it, and rows and
history do not matter, except among undefined scores.
-/
namespace CloudyNeigh.Query
open Checked Replay TopK VectorFormat

/-- A successful search has the result `r` for the document `id`. -/
def HasHit (found : Option (Except SearchErr (List ScoredResult))) (id : String)
    (r : ScoredResult) : Prop :=
  ∃ results, found = some (.ok results) ∧ r ∈ results ∧ r.record.Id = id

/-- `Get` and `Search` show the same for `id` in both tables. Where the rest of the
tables agrees too, the same searches find it, unless its place is decided among
undefined scores. -/
structure ShowsAlike (A : Arith) (t u : GoTable) (id : String) : Prop where
  get : ∀ R R', t.Get R id = u.Get R' id
  scores : ∀ col query metric filter score,
    Scores A t col query metric filter id score ↔ Scores A u col query metric filter id score
  result : ∀ R R' col query topK topK' metric filter r r',
    HasHit (t.Search A R col query topK metric filter) id r →
    HasHit (u.Search A R' col query topK' metric filter) id r' → r = r'
  found : (∀ id', id' ≠ id → t.document id' = u.document id') →
    ∀ R R' col query topK metric filter r,
      (∀ id' score, id' ≠ id → Scores A t col query metric filter id' score →
        score.isNaN = true → r.score.isNaN = false) →
      (HasHit (t.Search A R col query topK metric filter) id r ↔
        HasHit (u.Search A R' col query topK metric filter) id r)

section Alike
variable {A : Arith} {t u : GoTable} {R R' : RangeOrder String} {id col : String}
  {query : List F32} {topK : ℤ} {metric : DistanceMetric} {filter : Option EqualityFilter}
  {r : ScoredResult} {n : ℕ} {results results' : List ScoredResult}
  {hits rest all hits' rest' all' : List SearchHit}

lemma scores_congr (hk : t.kernels = u.kernels) (hdoc : t.document id = u.document id)
    (score : F32) :
    Scores A t col query metric filter id score ↔ Scores A u col query metric filter id score := by
  simp only [Scores, hk, hdoc]

lemma HasHit.pos (h : HasHit (t.Search A R col query topK metric filter) id r) : 0 < topK := by
  obtain ⟨results, hs, hr, -⟩ := h
  by_contra hle
  simp only [GoTable.Search, if_pos (not_lt.mp hle), Option.some.injEq, Except.ok.injEq] at hs
  rw [← hs] at hr
  cases hr

/-- What a search shows for a document is its record and its score. -/
lemma GoTable.Finds.shown (h : t.Finds A col query metric filter n results hits rest all)
    (hr : r ∈ results) (hid : r.record.Id = id) : ∃ hit ∈ hits, hit.id = id ∧
      r = ⟨render t.kernels id ((t.document id).getD Overlay.blank), hit.score⟩ ∧
      Scores A t col query metric filter id hit.score := by
  obtain ⟨hit, hm, rfl⟩ := h.mem_results.mp hr
  obtain rfl : hit.id = id := hid
  exact ⟨hit, hm, rfl, rfl, (h.eligible _ _).mp ⟨hit, h.mem_all hm, rfl, rfl⟩⟩

/-- The candidates below a key are counted by the documents. -/
lemma GoTable.Finds.count_eq (h : t.Finds A col query metric filter n results hits rest all)
    (h' : u.Finds A col query metric filter n results' hits' rest' all')
    (hsame : ∀ id score, Scores A t col query metric filter id score ↔
      Scores A u col query metric filter id score) (x : SearchHit) (isDesc : Bool) :
    (all.filter fun y => totalKey isDesc y < totalKey isDesc x).length =
      (all'.filter fun y => totalKey isDesc y < totalKey isDesc x).length := by
  let pair : SearchHit → String × F32 := fun hit => (hit.id, hit.score)
  let below : String × F32 → Bool := fun e => totalKey isDesc ⟨0, e.1, e.2⟩ < totalKey isDesc x
  have hpair : ∀ hits : List SearchHit,
      (hits.filter fun y => totalKey isDesc y < totalKey isDesc x).length =
        ((hits.map pair).filter below).length := by
    intro hits
    rw [List.filter_map, List.length_map]
    rfl
  have hnodup : ∀ {hits : List SearchHit}, (hits.map SearchHit.id).Nodup →
      (hits.map pair).Nodup := by
    intro hits hn
    apply List.Nodup.of_map Prod.fst
    rwa [List.map_map]
  have hmem : ∀ e, e ∈ all.map pair ↔ e ∈ all'.map pair := by
    rintro ⟨id, score⟩
    have hiff := (h.eligible id score).trans ((hsame id score).trans (h'.eligible id score).symm)
    simpa only [List.mem_map, pair, Prod.mk.injEq] using hiff
  have hperm : (all.map pair).Perm (all'.map pair) :=
    (List.perm_ext_iff_of_nodup (hnodup h.nodup) (hnodup h'.nodup)).mpr hmem
  rw [hpair, hpair, (hperm.filter below).length_eq]

/-- Apart from ties among undefined scores, a candidate has a key of its own. -/
lemma GoTable.Finds.key_inj (h : t.Finds A col query metric filter n results hits rest all)
    {x : SearchHit} (hx : x ∈ all)
    (hties : ∀ id' score, id' ≠ x.id → Scores A t col query metric filter id' score →
      score.isNaN = true → x.score.isNaN = false) (isDesc : Bool) :
    ∀ y ∈ all, totalKey isDesc y = totalKey isDesc x → y = x := by
  intro y hy hkey
  have hid : y.id = x.id := by
    by_contra hne
    have hclass : scoreClass isDesc y.score = scoreClass isDesc x.score :=
      congrArg (fun k => (ofLex k).1) hkey
    have hrank : (if y.score.isNaN then toLex (0, "") else hitKey isDesc y) =
        if x.score.isNaN then toLex (0, "") else hitKey isDesc x :=
      congrArg (fun k => (ofLex k).2) hkey
    have hties := hties y.id y.score hne ((h.eligible _ _).mp ⟨y, hy, rfl, rfl⟩)
    cases hny : y.score.isNaN with
    | true =>
      rw [scoreClass, scoreClass, hny, hties hny] at hclass
      cases isDesc <;> simp at hclass
    | false =>
      cases hnx : x.score.isNaN with
      | true =>
        rw [scoreClass, scoreClass, hny, hnx] at hclass
        cases isDesc <;> simp at hclass
      | false =>
        simp only [hny, hnx, Bool.false_eq_true, if_false] at hrank
        exact hne (congrArg (fun k => (ofLex k).2) hrank)
  exact List.inj_on_of_nodup_map h.nodup hy hx hid

/-- A search that shows a document passes its checks. -/
lemma GoTable.WF.hasHit_checks (h : t.WF) (hs : HasHit (t.Search A R col query topK metric filter) id r) :
    t.abs.dims col = some query.length ∧ ∃ p, plan A query metric = .ok p := by
  have hk := hs.pos
  obtain ⟨results, hs, hr, hid⟩ := hs
  obtain ⟨hits, rest, all, hfinds⟩ := h.search_finds hk hs
  obtain ⟨hit, -, -, -, hscore⟩ := hfinds.shown hr hid
  obtain ⟨hrows, hsome⟩ := h.scores_row hscore
  obtain ⟨c, hc⟩ := Option.isSome_iff_exists.mp hsome
  obtain ⟨hq, hp⟩ := h.search_checks hk hs hrows hc
  exact ⟨by rw [Table.dims, hc, Option.map_some, hq], hp⟩

lemma GoTable.WF.search_ok (h : t.WF) (R : RangeOrder String) (filter : Option EqualityFilter)
    (hk : 0 < topK) (hd : t.abs.dims col = some query.length)
    {p : Plan} (hp : plan A query metric = .ok p) :
    ∃ results, t.Search A R col query topK metric filter = some (.ok results) := by
  obtain ⟨c, hc, hq⟩ := Option.map_eq_some_iff.mp hd
  rw [h.search, h.lengths.search_scan hc hq.symm hk hp]
  exact ⟨_, rfl⟩

/-- Tables with the same documents find the same document. -/
lemma GoTable.WF.shows_of_documents (h : t.WF) (hu : u.WF) (hk : t.kernels = u.kernels)
    (hdoc : ∀ id', t.document id' = u.document id')
    (hdims : ∀ d sv, t.document id = some d → d.1 col = some sv → u.abs.dims col = t.abs.dims col)
    (hties : ∀ id' score, id' ≠ id → Scores A t col query metric filter id' score →
      score.isNaN = true → r.score.isNaN = false)
    (hs : HasHit (t.Search A R col query topK metric filter) id r) :
    HasHit (u.Search A R' col query topK metric filter) id r := by
  have hpos := hs.pos
  obtain ⟨hdim, p, hp⟩ := h.hasHit_checks hs
  obtain ⟨results, hs, hr, hid⟩ := hs
  obtain ⟨hits, rest, all, hfinds⟩ := h.search_finds hpos hs
  obtain ⟨x, hx, rfl, rfl, hscore⟩ := hfinds.shown hr hid
  have hsame : ∀ id' score, Scores A t col query metric filter id' score ↔
      Scores A u col query metric filter id' score := fun id' score => scores_congr hk (hdoc id') score
  have hdim' : u.abs.dims col = some query.length := by
    obtain ⟨d, sv, hd, he, -⟩ := hscore
    rw [hdims d sv hd he.vector, hdim]
  obtain ⟨results', hs'⟩ := hu.search_ok R' filter hpos hdim' hp
  obtain ⟨hits', rest', all', hfinds'⟩ := hu.search_finds hpos hs'
  obtain ⟨y, hy, hyid, hyscore⟩ := (hfinds'.eligible _ _).mpr ((hsame _ _).mp hscore)
  have hkey : ∀ isDesc, totalKey isDesc y = totalKey isDesc x := by
    intro isDesc
    simp only [totalKey, hitKey, hyid, hyscore]
  -- both are kept because equally many candidates are below them
  have hkept : y ∈ hits' := by
    rw [hfinds'.best.mem_iff hy (hfinds'.key_inj hy (fun id' score hne hsc hnan => by
        rw [hyscore]
        exact hties id' score (by rwa [← hyid]) ((hsame _ _).mpr hsc) hnan) _),
      hkey, ← hfinds.count_eq hfinds' hsame x]
    exact (hfinds.best.mem_iff (hfinds.mem_all hx)
      (hfinds.key_inj (hfinds.mem_all hx) hties _)).mp hx
  refine ⟨results', hs', hfinds'.mem_results.mpr ⟨y, hkept, ?_⟩, rfl⟩
  rw [hyid, hyscore, hk, hdoc]

/-- One document that is the same in two tables looks the same. -/
theorem GoTable.WF.showsAlike (h : t.WF) (hu : u.WF) (hk : t.kernels = u.kernels)
    (hdoc : t.document id = u.document id)
    (hdims : ∀ d col sv, t.document id = some d → d.1 col = some sv →
      u.abs.dims col = t.abs.dims col) : ShowsAlike A t u id where
  get R R' := by
    rw [h.get, hu.get, Table.get_view, Table.get_view, View.Get, View.Get]
    have hdoc : t.abs.view.doc id = u.abs.view.doc id := hdoc
    have hk : t.abs.kernels = u.abs.kernels := hk
    rw [hdoc, hk]
  scores col query metric filter score := scores_congr hk hdoc score
  result R R' col query topK topK' metric filter r r' hr hr' := by
    have hpos := hr.pos
    have hpos' := hr'.pos
    obtain ⟨results, hs, hr, hid⟩ := hr
    obtain ⟨results', hs', hr', hid'⟩ := hr'
    obtain ⟨hits, rest, all, hfinds⟩ := h.search_finds hpos hs
    obtain ⟨hits', rest', all', hfinds'⟩ := hu.search_finds hpos' hs'
    obtain ⟨x, -, -, rfl, d, sv, hd, he, hx⟩ := hfinds.shown hr hid
    obtain ⟨y, -, -, rfl, d', sv', hd', he', hy⟩ := hfinds'.shown hr' hid'
    rw [hdoc, hd'] at hd
    cases hd
    have hsv : sv = sv' := Option.some.inj (he.vector.symm.trans he'.vector)
    rw [hx, hy, hsv, hk, hdoc]
  found hothers R R' col query topK metric filter r hties := by
    have hall : ∀ id', t.document id' = u.document id' := by
      intro id'
      by_cases hid : id' = id
      · rw [hid, hdoc]
      · exact hothers id' hid
    constructor
    · exact h.shows_of_documents hu hk hall (fun d sv hd hsv => hdims d col sv hd hsv) hties
    · refine hu.shows_of_documents h hk.symm (fun id' => (hall id').symm) (fun d sv hd hsv => ?_) ?_
      · exact (hdims d col sv (by rw [hdoc, hd]) hsv).symm
      · intro id' score hne hsc
        exact hties id' score hne ((scores_congr hk (hall id') score).mpr hsc)

end Alike

end CloudyNeigh.Query
