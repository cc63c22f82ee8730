import Mathlib.Data.List.Basic

/-!
# Slash-separated paths

Lexical cleaning and joining of paths given as byte strings. A list of ordinary
components is joined without loss, and cleaning does not change the result.
-/
namespace CloudyNeigh.SlashPath

abbrev Path := List UInt8

def sep : UInt8 := 0x2f

def dot : UInt8 := 0x2e

/-- One component of the path being cleaned. The components kept so far are in
`out`, the last one first. -/
def pushComponent (rooted : Bool) (out : List Path) (c : Path) : List Path :=
  if c = [] ∨ c = [dot] then out
  else if c = [dot, dot] then
    match out with
    | [] => if rooted then [] else [c]
    | d :: rest => if d = [dot, dot] then c :: out else rest
  else c :: out

def Clean (p : Path) : Path :=
  let rooted := p.head? == some sep
  let body := [sep].intercalate ((p.splitOn sep).foldl (pushComponent rooted) []).reverse
  if rooted then sep :: body
  else if body = [] then [dot] else body

def Join (elems : List Path) : Path :=
  match elems.dropWhile (· = []) with
  | [] => []
  | es => Clean ([sep].intercalate es)

/-- A component that cleaning keeps as it is. -/
structure Ordinary (c : Path) : Prop where
  ne_nil : c ≠ []
  ne_dot : c ≠ [dot]
  ne_dots : c ≠ [dot, dot]
  no_sep : sep ∉ c

lemma pushComponent_ordinary (rooted : Bool) (out : List Path) {c : Path} (h : Ordinary c) :
    pushComponent rooted out c = c :: out := by
  simp [pushComponent, h.ne_nil, h.ne_dot, h.ne_dots]

lemma foldl_pushComponent (rooted : Bool) (cs out : List Path) (h : ∀ c ∈ cs, Ordinary c) :
    cs.foldl (pushComponent rooted) out = cs.reverse ++ out := by
  induction cs generalizing out with
  | nil => rfl
  | cons c cs ih =>
    have hc : Ordinary c := h c (by simp)
    have hcs : ∀ d ∈ cs, Ordinary d := fun d hd => h d (by simp [hd])
    rw [List.foldl_cons, pushComponent_ordinary rooted out hc, ih _ hcs]
    simp

lemma intercalate_append {as bs : List Path} (s : Path) (ha : as ≠ []) (hb : bs ≠ []) :
    s.intercalate (as ++ bs) = s.intercalate as ++ s ++ s.intercalate bs := by
  induction as with
  | nil => exact absurd rfl ha
  | cons a as ih =>
    cases as with
    | nil =>
      obtain ⟨b, bs, rfl⟩ := List.exists_cons_of_ne_nil hb
      rw [List.singleton_append, List.intercalate_cons_cons, List.intercalate_singleton]
    | cons a' as =>
      have h := ih (by simp)
      rw [List.cons_append] at h ⊢
      rw [List.cons_append, List.intercalate_cons_cons, h, List.intercalate_cons_cons]
      simp

lemma splitOn_components {cs : List Path} (hne : cs ≠ []) (h : ∀ c ∈ cs, Ordinary c) :
    ([sep].intercalate cs).splitOn sep = cs :=
  List.splitOn_intercalate sep (fun c hc => (h c hc).no_sep) hne

/-- Ordinary components can be read off the joined path. -/
theorem intercalate_injective {cs ds : List Path} (hc : cs ≠ []) (hd : ds ≠ [])
    (hcs : ∀ c ∈ cs, Ordinary c) (hds : ∀ d ∈ ds, Ordinary d)
    (h : [sep].intercalate cs = [sep].intercalate ds) : cs = ds := by
  have hl := splitOn_components hc hcs
  have hr := splitOn_components hd hds
  rw [h, hr] at hl
  exact hl.symm

lemma head_intercalate {cs : List Path} (h : ∀ c ∈ cs, Ordinary c) :
    ([sep].intercalate cs).head? ≠ some sep := by
  cases cs with
  | nil => simp
  | cons c cs =>
    have hc : Ordinary c := h c (by simp)
    obtain ⟨x, xs, rfl⟩ := List.exists_cons_of_ne_nil hc.ne_nil
    have hx : x ≠ sep := fun e => hc.no_sep (by simp [e])
    cases cs with
    | nil => simpa using hx
    | cons d cs => simpa [List.intercalate_cons_cons] using hx

lemma intercalate_ne_nil {cs : List Path} (hne : cs ≠ []) (h : ∀ c ∈ cs, Ordinary c) :
    [sep].intercalate cs ≠ [] := by
  intro he
  have hs := splitOn_components hne h
  rw [he] at hs
  have hc : ([] : Path) ∈ cs := by simp [← hs]
  exact (h [] hc).ne_nil rfl

theorem clean_components {cs : List Path} (hne : cs ≠ []) (h : ∀ c ∈ cs, Ordinary c) :
    Clean ([sep].intercalate cs) = [sep].intercalate cs := by
  have hroot : (([sep].intercalate cs).head? == some sep) = false := by
    simpa using head_intercalate h
  have hbody := intercalate_ne_nil hne h
  simp only [Clean, hroot, splitOn_components hne h, foldl_pushComponent _ cs [] h]
  simp [hbody]

/-- Joining two paths of ordinary components appends the components. -/
theorem join_components {A B : List Path} (ha : A ≠ []) (hb : B ≠ [])
    (has : ∀ c ∈ A, Ordinary c) (hbs : ∀ c ∈ B, Ordinary c) :
    Join [[sep].intercalate A, [sep].intercalate B] = [sep].intercalate (A ++ B) := by
  have hall : ∀ c ∈ A ++ B, Ordinary c := by
    intro c hc
    rcases List.mem_append.mp hc with h | h
    · exact has c h
    · exact hbs c h
  have hne := intercalate_ne_nil ha has
  have hj : [sep].intercalate [[sep].intercalate A, [sep].intercalate B] =
      [sep].intercalate (A ++ B) := by
    rw [intercalate_append [sep] ha hb, List.intercalate_cons_cons, List.intercalate_singleton]
  simp only [Join, List.dropWhile, hne, decide_false]
  rw [hj, clean_components (by simp [ha]) hall]

end CloudyNeigh.SlashPath
