import CloudyNeigh.SlashPath

/-!
# The shape of a cleaned path

Cleaning leaves ordinary components, after leading `..` components if the path is
relative. A cleaned relative path that does not go up can be joined to an absolute
one by appending its components, and the components can be read off the result.
-/
namespace CloudyNeigh.SlashPath

def IsAbs (p : Path) : Bool := p.head? == some sep

/-- Everything up to the last slash, cleaned. -/
def Dir (p : Path) : Path := Clean (p.reverse.dropWhile (· ≠ sep)).reverse

/-- The names that the system follows from the root of its tree to a path. -/
def parts (p : Path) : List Path := (p.splitOn sep).filter (· ≠ [])

def absolute (cs : List Path) : Path := sep :: [sep].intercalate cs

/-- A relative path of these components. -/
def relative (cs : List Path) : Path := if cs = [] then [dot] else [sep].intercalate cs

/-- An absolute path that is clean. -/
def Rooted (p : Path) : Prop := ∃ cs, (∀ c ∈ cs, Ordinary c) ∧ p = absolute cs

instance (c : Path) : Decidable (Ordinary c) :=
  decidable_of_iff (c ≠ [] ∧ c ≠ [dot] ∧ c ≠ [dot, dot] ∧ sep ∉ c)
    ⟨fun ⟨h, h1, h2, h3⟩ => ⟨h, h1, h2, h3⟩, fun ⟨h, h1, h2, h3⟩ => ⟨h, h1, h2, h3⟩⟩

section Split

lemma splitOn_append_sep (a b : Path) :
    (a ++ sep :: b).splitOn sep = a.splitOn sep ++ b.splitOn sep :=
  List.splitOnP_append_cons a b (by simp)

lemma sep_not_mem_splitOn (p : Path) : ∀ c ∈ p.splitOn sep, sep ∉ c := by
  induction p with
  | nil => simp [List.splitOn_nil]
  | cons x p ih =>
    rw [List.splitOn_eq_splitOnP] at ih ⊢
    rw [List.splitOnP_cons_eq_if_modifyHead]
    split
    · intro c hc
      rcases List.mem_cons.mp hc with rfl | hc
      · simp
      · exact ih c hc
    · rename_i hx
      obtain ⟨d, ds, hd⟩ := List.exists_cons_of_ne_nil (List.splitOnP_ne_nil (· == sep) p)
      rw [hd] at ih ⊢
      intro c hc
      rcases List.mem_cons.mp hc with rfl | hc
      · have hne : sep ≠ x := fun h => hx (by simp [h])
        simpa [hne] using ih d (by simp)
      · exact ih c (by simp [hc])

end Split

section Shape

/-- The components kept so far, the last one first. -/
structure Kept (rooted : Bool) (out : List Path) (ups : ℕ) (cs : List Path) : Prop where
  eq : out = cs ++ List.replicate ups [dot, dot]
  ordinary : ∀ c ∈ cs, Ordinary c
  rooted : rooted = true → ups = 0

lemma Kept.push {rooted : Bool} {out cs : List Path} {ups : ℕ} (h : Kept rooted out ups cs)
    {c : Path} (hc : sep ∉ c) : ∃ ups' cs', Kept rooted (pushComponent rooted out c) ups' cs' := by
  unfold pushComponent
  split
  · exact ⟨ups, cs, h⟩
  rename_i hnd
  push Not at hnd
  split
  · rename_i hdd
    cases cs with
    | nil =>
      obtain ⟨rfl, -, hroot⟩ := h
      cases ups with
      | zero =>
        cases rooted with
        | true => exact ⟨0, [], rfl, by simp, by simp⟩
        | false => exact ⟨1, [], by simp [hdd], by simp, by simp⟩
      | succ n =>
        have hnr : rooted ≠ true := fun hr => absurd (hroot hr) (by simp)
        refine ⟨n + 2, [], ?_, by simp, fun hr => absurd hr hnr⟩
        simp [List.replicate_succ, hdd]
    | cons d cs =>
      obtain ⟨rfl, hord, hroot⟩ := h
      have hd : d ≠ [dot, dot] := (hord d (by simp)).ne_dots
      refine ⟨ups, cs, ?_, fun e he => hord e (by simp [he]), hroot⟩
      simp [hd]
  · rename_i hdd
    obtain ⟨rfl, hord, hroot⟩ := h
    refine ⟨ups, c :: cs, by simp, ?_, hroot⟩
    intro e he
    rcases List.mem_cons.mp he with rfl | he
    · exact ⟨hnd.1, hnd.2, hdd, hc⟩
    · exact hord e he

lemma Kept.foldl {rooted : Bool} (l : List Path) (hl : ∀ c ∈ l, sep ∉ c) :
    ∀ {out cs : List Path} {ups : ℕ}, Kept rooted out ups cs →
      ∃ ups' cs', Kept rooted (l.foldl (pushComponent rooted) out) ups' cs' := by
  induction l with
  | nil => exact fun h => ⟨_, _, h⟩
  | cons c l ih =>
    intro out cs ups h
    obtain ⟨ups', cs', h'⟩ := h.push (hl c (by simp))
    exact ih (fun d hd => hl d (by simp [hd])) h'

/-- The components of a cleaned path. -/
lemma kept_split (p : Path) (rooted : Bool) : ∃ ups cs,
    ((p.splitOn sep).foldl (pushComponent rooted) []).reverse =
        List.replicate ups [dot, dot] ++ cs ∧
      (∀ c ∈ cs, Ordinary c) ∧ (rooted = true → ups = 0) := by
  have hnone : Kept rooted [] 0 [] := ⟨rfl, by simp, fun _ => rfl⟩
  obtain ⟨ups, cs, h⟩ := Kept.foldl (p.splitOn sep) (sep_not_mem_splitOn p) hnone
  refine ⟨ups, cs.reverse, ?_, fun c hc => h.ordinary c (List.mem_reverse.mp hc), h.rooted⟩
  rw [h.eq]
  simp

theorem clean_rooted {p : Path} (h : IsAbs p = true) : Rooted (Clean p) := by
  obtain ⟨ups, cs, heq, hord, hups⟩ := kept_split p true
  refine ⟨cs, hord, ?_⟩
  have hr : (p.head? == some sep) = true := h
  simp only [Clean, hr, heq, hups rfl, List.replicate_zero, List.nil_append, if_true, absolute]

lemma intercalate_dots (ups : ℕ) (cs : List Path) :
    [sep].intercalate (List.replicate (ups + 1) [dot, dot] ++ cs) = [dot, dot] ∨
      [dot, dot, sep] <+: [sep].intercalate (List.replicate (ups + 1) [dot, dot] ++ cs) := by
  rw [List.replicate_succ, List.cons_append]
  cases List.replicate ups [dot, dot] ++ cs with
  | nil => exact .inl (List.intercalate_singleton ..)
  | cons d ds =>
    refine .inr ⟨[sep].intercalate (d :: ds), ?_⟩
    rw [List.intercalate_cons_cons]
    rfl

/-- A cleaned path that is neither absolute nor goes up has ordinary components. -/
theorem clean_inner {p : Path} (habs : IsAbs (Clean p) = false) (hdd : Clean p ≠ [dot, dot])
    (hup : ¬ [dot, dot, sep] <+: Clean p) :
    ∃ cs, (∀ c ∈ cs, Ordinary c) ∧ Clean p = relative cs := by
  cases hr : p.head? == some sep with
  | true =>
    obtain ⟨cs, -, he⟩ := clean_rooted (p := p) hr
    rw [he] at habs
    simp [IsAbs, absolute] at habs
  | false =>
    obtain ⟨ups, cs, heq, hord, -⟩ := kept_split p false
    have hclean : Clean p = if [sep].intercalate (List.replicate ups [dot, dot] ++ cs) = [] then
        [dot] else [sep].intercalate (List.replicate ups [dot, dot] ++ cs) := by
      simp only [Clean, hr, heq, Bool.false_eq_true, if_false]
    cases ups with
    | zero =>
      rw [List.replicate_zero, List.nil_append] at hclean
      refine ⟨cs, hord, hclean.trans ?_⟩
      by_cases hcs : cs = []
      · simp [relative, hcs]
      · rw [if_neg (intercalate_ne_nil hcs hord), relative, if_neg hcs]
    | succ n =>
      exfalso
      rcases intercalate_dots n cs with he | he
      · exact hdd (by rw [hclean, he]; rfl)
      · refine hup ?_
        rw [hclean, if_neg]
        · exact he
        · intro hnil
          rw [hnil] at he
          simp at he

end Shape

section Components
variable {A B : List Path}

lemma push_intercalate (rooted : Bool) (out : List Path) (h : ∀ c ∈ A, Ordinary c) :
    (([sep].intercalate A).splitOn sep).foldl (pushComponent rooted) out = A.reverse ++ out := by
  by_cases ha : A = []
  · simp [ha, List.splitOn_nil, pushComponent]
  · rw [splitOn_components ha h, foldl_pushComponent rooted A out h]

lemma push_relative (rooted : Bool) (out : List Path) (h : ∀ c ∈ A, Ordinary c) :
    ((relative A).splitOn sep).foldl (pushComponent rooted) out = A.reverse ++ out := by
  unfold relative
  split
  · rename_i ha
    have hs : ([dot] : Path).splitOn sep = [[dot]] := by decide
    simp [ha, hs, pushComponent]
  · exact push_intercalate rooted out h

lemma clean_absolute_append (p : Path) (h : ∀ c ∈ A, Ordinary c)
    (hp : ∀ out, (p.splitOn sep).foldl (pushComponent true) out = B.reverse ++ out) :
    Clean (absolute A ++ sep :: p) = absolute (A ++ B) := by
  have hsplit : (absolute A ++ sep :: p).splitOn sep =
      [] :: (([sep].intercalate A).splitOn sep ++ p.splitOn sep) := by
    rw [splitOn_append_sep]
    exact congrArg (· ++ p.splitOn sep) (splitOn_append_sep [] _)
  have hroot : ((absolute A ++ sep :: p).head? == some sep) = true := by simp [absolute]
  have hpush : pushComponent true [] [] = [] := rfl
  simp only [Clean, hroot, hsplit, List.foldl_cons, List.foldl_append, if_true, hpush,
    push_intercalate true [] h, hp, List.append_nil]
  simp [absolute]

/-- Joining a clean relative path to a clean absolute one appends the components. -/
theorem join_absolute (ha : ∀ c ∈ A, Ordinary c) (hb : ∀ c ∈ B, Ordinary c) :
    Join [absolute A, relative B] = absolute (A ++ B) := by
  have hj : [sep].intercalate [absolute A, relative B] = absolute A ++ sep :: relative B := by
    rw [List.intercalate_cons_cons, List.intercalate_singleton]
    simp
  have hne : absolute A ≠ [] := by simp [absolute]
  simp only [Join, List.dropWhile, hne, decide_false]
  rw [hj]
  exact clean_absolute_append (relative B) ha fun out => push_relative true out hb

lemma parts_absolute (h : ∀ c ∈ A, Ordinary c) : parts (absolute A) = A := by
  have hs : (absolute A).splitOn sep = [] :: ([sep].intercalate A).splitOn sep :=
    splitOn_append_sep [] _
  have hkeep : A.filter (· ≠ []) = A :=
    List.filter_eq_self.mpr fun c hc => by simpa using (h c hc).ne_nil
  unfold parts
  rw [hs]
  by_cases ha : A = []
  · simp [ha, List.splitOn_nil]
  · rw [splitOn_components ha h, List.filter_cons_of_neg (by simp), hkeep]

theorem absolute_injective (ha : ∀ c ∈ A, Ordinary c) (hb : ∀ c ∈ B, Ordinary c)
    (h : absolute A = absolute B) : A = B := by
  rw [← parts_absolute ha, h, parts_absolute hb]

theorem relative_injective (ha : ∀ c ∈ A, Ordinary c) (hb : ∀ c ∈ B, Ordinary c)
    (h : relative A = relative B) : A = B := by
  have hj := join_absolute (A := []) (by simp) ha
  rw [h, join_absolute (by simp) hb] at hj
  exact (absolute_injective hb ha hj).symm

/-- The last component after a slash, and what is before it. -/
lemma absolute_concat (A : List Path) (c : Path) :
    absolute (A ++ [c]) = (if A = [] then [] else absolute A) ++ sep :: c := by
  by_cases ha : A = []
  · simp [ha, absolute]
  · rw [if_neg ha, absolute, intercalate_append [sep] ha (by simp), List.intercalate_singleton]
    simp [absolute]

lemma getLast_absolute (h : ∀ c ∈ A, Ordinary c) (ha : A ≠ []) :
    (absolute A).getLast? ≠ some sep := by
  obtain ⟨A', c, rfl⟩ := List.eq_nil_or_concat A |>.resolve_left ha
  have hc : Ordinary c := h c (by simp)
  rw [List.concat_eq_append, absolute_concat, List.getLast?_append_of_ne_nil _ (by simp),
    List.getLast?_cons, List.getLast?_eq_getLast_of_ne_nil hc.ne_nil]
  intro he
  have hmem := List.getLast_mem hc.ne_nil
  rw [show c.getLast hc.ne_nil = sep by simpa using he] at hmem
  exact hc.no_sep hmem

/-- The directory of an absolute path has all components but the last. -/
theorem dir_absolute {c : Path} (ha : ∀ d ∈ A, Ordinary d) (hc : Ordinary c) :
    Dir (absolute (A ++ [c])) = absolute A := by
  have hall : ∀ b ∈ c.reverse, decide (b ≠ sep) = true := by
    intro b hb
    simpa using fun he : b = sep => hc.no_sep (he ▸ List.mem_reverse.mp hb)
  have hdrop : ∀ q : Path, ((q ++ sep :: c).reverse.dropWhile (· ≠ sep)).reverse = q ++ [sep] := by
    intro q
    rw [List.reverse_append, List.reverse_cons, List.append_assoc,
      List.dropWhile_append_of_pos hall]
    simp
  rw [Dir, absolute_concat, hdrop]
  by_cases hnil : A = []
  · rw [if_pos hnil, hnil]
    decide
  · rw [if_neg hnil]
    simpa using clean_absolute_append (B := []) [] ha fun out => by
      simp [List.splitOn_nil, pushComponent]

/-- What is below a path begins with its components. -/
theorem isPrefix_intercalate_iff (hne : A ≠ []) (hne' : B ≠ []) (ha : ∀ c ∈ A, Ordinary c)
    (hb : ∀ c ∈ B, Ordinary c) :
    [sep].intercalate A ++ [sep] <+: [sep].intercalate B ↔ A <+: B ∧ A ≠ B := by
  constructor
  · rintro ⟨rest, h⟩
    have hsplit : A ++ rest.splitOn sep = B := by
      rw [← splitOn_components hne' hb, ← h, List.append_assoc, List.singleton_append,
        splitOn_append_sep, splitOn_components hne ha]
    refine ⟨⟨_, hsplit⟩, fun he => ?_⟩
    simp [he] at hsplit
  · rintro ⟨⟨r, rfl⟩, hr⟩
    have hr' : r ≠ [] := fun he => hr (by simp [he])
    rw [intercalate_append [sep] hne hr']
    exact List.prefix_append _ _

end Components

end CloudyNeigh.SlashPath
