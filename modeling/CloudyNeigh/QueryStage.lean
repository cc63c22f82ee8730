import CloudyNeigh.QueryColumns

/-!
# The checks of `Upsert`

The first loop of `Upsert` accepts a map of vectors or finds an entry that it
rejects. What it accepts does not depend on the order of the map.
-/
namespace CloudyNeigh.Query
open VectorFormat

section Staging
variable {A : Arith} {is16 : Bool} {dims : String → Option ℕ}

/-- What the first loop of `Upsert` requires of one entry of its vector map. -/
def Accepts (A : Arith) (is16 : Bool) (dims : String → Option ℕ) (e : Σ _ : String, List F32) :
    Prop :=
  e.2 = [] ∨ ((∀ d ∈ dims e.1, d = e.2.length) ∧ ∃ sv, stageVector A is16 e.2 = .ok sv)

def stageOne (A : Arith) (is16 : Bool) (staged : String → Option StagedVector)
    (e : Σ _ : String, List F32) : String → Option StagedVector :=
  if e.2 = [] then staged
  else
    match stageVector A is16 e.2 with
    | .ok sv => Function.update staged e.1 (some sv)
    | .error _ => staged

lemma stageOne_cases (A : Arith) (is16 : Bool) (staged : String → Option StagedVector)
    (e : Σ _ : String, List F32) :
    stageOne A is16 staged e = staged ∨ ∃ sv, e.2 ≠ [] ∧ stageVector A is16 e.2 = .ok sv ∧
      stageOne A is16 staged e = Function.update staged e.1 (some sv) := by
  unfold stageOne
  split
  · exact Or.inl rfl
  · split
    · exact Or.inr ⟨_, ‹_›, ‹_›, rfl⟩
    · exact Or.inl rfl

lemma stage_of_accepts {entries : List (Σ _ : String, List F32)}
    (h : ∀ e ∈ entries, Accepts A is16 dims e) (staged : String → Option StagedVector) :
    stage A is16 dims entries staged = .ok (entries.foldl (stageOne A is16) staged) := by
  induction entries generalizing staged with
  | nil => rfl
  | cons e entries ih =>
    obtain ⟨col, vec⟩ := e
    have hrest := fun e' he => h e' (List.mem_cons_of_mem _ he)
    rw [stage, List.foldl_cons]
    rcases h _ List.mem_cons_self with hnil | ⟨hdim, sv, hsv⟩
    · rw [if_pos hnil, stageOne, if_pos hnil]
      exact ih hrest staged
    · have hany : (dims col).any (· ≠ vec.length) = false := by
        cases hd : dims col with
        | none => rfl
        | some d => simp [hdim d (by simp [hd])]
      by_cases hnil : vec = []
      · rw [if_pos hnil, stageOne, if_pos hnil]
        exact ih hrest staged
      · simp only [hnil, if_false, hany, Bool.false_eq_true, hsv, stageOne]
        exact ih hrest _

lemma stage_ok {entries : List (Σ _ : String, List F32)} {staged out : String → Option StagedVector}
    (h : stage A is16 dims entries staged = .ok out) :
    (∀ e ∈ entries, Accepts A is16 dims e) ∧ out = entries.foldl (stageOne A is16) staged := by
  have hall : ∀ e ∈ entries, Accepts A is16 dims e := by
    induction entries generalizing staged with
    | nil => simp
    | cons e entries ih =>
      obtain ⟨col, vec⟩ := e
      rw [stage] at h
      intro e' he'
      rcases List.mem_cons.mp he' with rfl | hrest
      · split at h
        · exact Or.inl ‹_›
        · split at h
          · cases h
          · rename_i hany
            split at h
            · cases h
            · rename_i sv hsv
              refine Or.inr ⟨?_, sv, hsv⟩
              intro d hd
              rw [Option.mem_def] at hd
              simpa [hd] using hany
      · split at h
        · exact ih h e' hrest
        · split at h
          · cases h
          · split at h
            · cases h
            · exact ih h e' hrest
  refine ⟨hall, ?_⟩
  rw [stage_of_accepts hall] at h
  cases h
  rfl

lemma stageVector_ok {vec : List F32} {sv : StagedVector} (h : stageVector A is16 vec = .ok sv) :
    sv.values = vec ∧ sv.Fits is16 vec.length := by
  unfold stageVector at h
  split at h
  · split at h
    · rename_i d hd
      cases h
      exact ⟨rfl, rfl, fun _ => EncodeFP16_length hd⟩
    · cases h
  · rename_i h16
    cases h
    exact ⟨rfl, rfl, fun ht => absurd ht h16⟩

/-- Where a staged vector comes from. -/
lemma mem_of_staged {entries : List (Σ _ : String, List F32)}
    {staged : String → Option StagedVector} {col : String} {sv : StagedVector}
    (h : entries.foldl (stageOne A is16) staged col = some sv) :
    staged col = some sv ∨
      ∃ vec, ⟨col, vec⟩ ∈ entries ∧ vec ≠ [] ∧ stageVector A is16 vec = .ok sv := by
  induction entries generalizing staged with
  | nil => exact Or.inl h
  | cons e entries ih =>
    rw [List.foldl_cons] at h
    rcases ih h with hst | ⟨vec, hm, hrest⟩
    · rcases stageOne_cases A is16 staged e with hs | ⟨sv', hne, hsv, hs⟩
      · exact Or.inl (by rw [← hst, hs])
      · rw [hs] at hst
        by_cases hc : col = e.1
        · subst hc
          simp only [Function.update_self, Option.some.injEq] at hst
          subst hst
          exact Or.inr ⟨e.2, List.mem_cons_self, hne, hsv⟩
        · rw [Function.update_of_ne hc] at hst
          exact Or.inl hst
    · exact Or.inr ⟨vec, List.mem_cons_of_mem _ hm, hrest⟩

lemma staged_of_notMem {entries : List (Σ _ : String, List F32)}
    {staged : String → Option StagedVector} {col : String} (h : col ∉ entries.keys) :
    entries.foldl (stageOne A is16) staged col = staged col := by
  induction entries generalizing staged with
  | nil => rfl
  | cons e entries ih =>
    simp only [List.keys_cons, List.mem_cons, not_or] at h
    rw [List.foldl_cons, ih h.2]
    rcases stageOne_cases A is16 staged e with hs | ⟨sv, -, -, hs⟩
    · rw [hs]
    · rw [hs, Function.update_of_ne h.1]

lemma staged_of_mem {entries : List (Σ _ : String, List F32)} (hn : entries.NodupKeys)
    {staged : String → Option StagedVector} {col : String} {vec : List F32} {sv : StagedVector}
    (hm : ⟨col, vec⟩ ∈ entries) (hne : vec ≠ []) (hsv : stageVector A is16 vec = .ok sv) :
    entries.foldl (stageOne A is16) staged col = some sv := by
  induction entries generalizing staged with
  | nil => cases hm
  | cons e entries ih =>
    rw [List.nodupKeys_cons] at hn
    rw [List.foldl_cons]
    rcases List.mem_cons.mp hm with rfl | hrest
    · rw [staged_of_notMem hn.1]
      simp [stageOne, hne, hsv]
    · exact ih hn.2 hrest

/-- What the loop stages, read off the map of vectors. -/
lemma stage_lookup {vectors : GoMap (List F32)} {staged : String → Option StagedVector}
    (h : stage A is16 dims vectors.entries (fun _ => none) = .ok staged) (col : String)
    (sv : StagedVector) : staged col = some sv ↔
      ∃ vec, vectors.lookup col = some vec ∧ vec ≠ [] ∧ stageVector A is16 vec = .ok sv := by
  obtain ⟨-, rfl⟩ := stage_ok h
  constructor
  · intro hsv
    rcases mem_of_staged hsv with hnone | ⟨vec, hm, hrest⟩
    · cases hnone
    · exact ⟨vec, List.mem_dlookup vectors.nodupKeys hm, hrest⟩
  · rintro ⟨vec, hvec, hne, hsv⟩
    exact staged_of_mem vectors.nodupKeys (List.of_mem_dlookup hvec) hne hsv

/-- Every non-empty vector of an accepted map is staged, and fits the column that
the table has for it. -/
lemma stage_supplied {vectors : GoMap (List F32)} {staged : String → Option StagedVector}
    (h : stage A is16 dims vectors.entries (fun _ => none) = .ok staged) {col : String}
    {vec : List F32} (hv : vectors.lookup col = some vec) (hne : vec ≠ []) :
    (∀ d ∈ dims col, d = vec.length) ∧
      ∃ sv, stageVector A is16 vec = .ok sv ∧ staged col = some sv := by
  rcases (stage_ok h).1 _ (List.of_mem_dlookup hv) with hnil | ⟨hd, sv, hsv⟩
  · exact absurd hnil hne
  · exact ⟨hd, sv, hsv, (stage_lookup h col sv).mpr ⟨vec, hv, hne, hsv⟩⟩

/-- A staged vector is not empty and has the width of its column. -/
lemma staged_fits {vectors : GoMap (List F32)} {staged : String → Option StagedVector}
    (h : stage A is16 dims vectors.entries (fun _ => none) = .ok staged) {col : String}
    {sv : StagedVector} (hsv : staged col = some sv) : 0 < sv.values.length ∧
      sv.Fits is16 sv.values.length ∧ ∀ d ∈ dims col, d = sv.values.length := by
  obtain ⟨vec, hvec, hne, hok⟩ := (stage_lookup h col sv).mp hsv
  obtain ⟨hval, hfit⟩ := stageVector_ok hok
  rw [hval]
  exact ⟨List.length_pos_iff.mpr hne, hfit, (stage_supplied h hvec hne).1⟩

end Staging

end CloudyNeigh.Query
