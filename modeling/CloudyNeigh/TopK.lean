import Mathlib.Data.List.Sort

/-!
# The best elements of a list

A list split into the `k` elements with the least keys and the rest, how the split
changes when an element arrives, and that the kept elements in order are the front
of the whole list in order.
-/
namespace CloudyNeigh.TopK

section Sorting
variable {α : Type*} {r r' : α → α → Prop} [DecidableRel r] [DecidableRel r'] {l : List α}

lemma orderedInsert_congr {a : α} (h : ∀ b ∈ l, r a b ↔ r' a b) :
    l.orderedInsert r a = l.orderedInsert r' a := by
  induction l with
  | nil => rfl
  | cons b l ih =>
    have hb := h b List.mem_cons_self
    have hrest := ih fun c hc => h c (List.mem_cons_of_mem b hc)
    simp only [List.orderedInsert_cons, hb, hrest]

/-- Sorting depends on the relation between the elements of the list only. -/
lemma insertionSort_congr (h : ∀ a ∈ l, ∀ b ∈ l, r a b ↔ r' a b) :
    l.insertionSort r = l.insertionSort r' := by
  induction l with
  | nil => rfl
  | cons a l ih =>
    rw [List.insertionSort_cons, List.insertionSort_cons,
      ih fun b hb c hc => h b (List.mem_cons_of_mem a hb) c (List.mem_cons_of_mem a hc)]
    apply orderedInsert_congr
    intro b hb
    exact h a List.mem_cons_self b
      (List.mem_cons_of_mem a ((List.perm_insertionSort r' l).mem_iff.mp hb))

end Sorting

variable {α γ : Type*} [LinearOrder γ] {key : α → γ} {k : ℕ} {kept kept' rest all : List α}
  {w x : α}

/-- The elements of `all` in the order of their keys. -/
def sortBy (key : α → γ) (all : List α) : List α := all.insertionSort fun a b => key a ≤ key b

lemma sortBy_perm (key : α → γ) (all : List α) : (sortBy key all).Perm all :=
  List.perm_insertionSort _ all

lemma sortBy_pairwise (key : α → γ) (all : List α) :
    (sortBy key all).Pairwise fun a b => key a ≤ key b := by
  have : Std.Total (fun a b => key a ≤ key b) := ⟨fun a b => le_total (key a) (key b)⟩
  have : IsTrans α (fun a b => key a ≤ key b) := ⟨fun a b c => le_trans⟩
  exact List.pairwise_insertionSort _ all

/-- `kept` holds the `k` elements of `all` with the least keys. -/
structure Best (key : α → γ) (k : ℕ) (kept rest all : List α) : Prop where
  perm : (kept ++ rest).Perm all
  le : ∀ a ∈ kept, ∀ b ∈ rest, key a ≤ key b
  length : kept.length ≤ k
  full : rest ≠ [] → kept.length = k

lemma Best.nil (key : α → γ) (k : ℕ) : Best key k [] [] [] :=
  ⟨List.Perm.refl _, by simp, by simp, by simp⟩

/-- While there is room, an element is kept. -/
lemma Best.grow (h : Best key k kept rest all) (hlt : kept.length < k)
    (hp : kept'.Perm (kept ++ [x])) : Best key k kept' rest (all ++ [x]) := by
  have hnil : rest = [] := by
    by_contra hne
    have := h.full hne
    omega
  subst hnil
  have hperm := h.perm
  rw [List.append_nil] at hperm
  refine ⟨?_, by simp, ?_, by simp⟩
  · rw [List.append_nil]
    exact hp.trans (hperm.append_right [x])
  · rw [hp.length_eq, List.length_append]
    exact hlt

/-- An element above all that are kept goes to the rest. -/
lemma Best.skip (h : Best key k kept rest all) (hk : kept.length = k)
    (hx : ∀ a ∈ kept, key a ≤ key x) : Best key k kept (rest ++ [x]) (all ++ [x]) := by
  refine ⟨?_, ?_, h.length, fun _ => hk⟩
  · rw [← List.append_assoc]
    exact h.perm.append_right [x]
  · intro a ha b hb
    rcases List.mem_append.mp hb with hr | hs
    · exact h.le a ha b hr
    · rw [List.mem_singleton.mp hs]
      exact hx a ha

/-- An element below the worst one takes its place. -/
lemma Best.replace (h : Best key k (w :: kept) rest all) (hk : (w :: kept).length = k)
    (hw : ∀ a ∈ kept, key a ≤ key w) (hx : key x ≤ key w) (hp : kept'.Perm (x :: kept)) :
    Best key k kept' (w :: rest) (all ++ [x]) := by
  refine ⟨?_, ?_, ?_, fun _ => ?_⟩
  · have hfront : (kept' ++ w :: rest).Perm (x :: (w :: kept ++ rest)) := by
      refine (hp.append_right (w :: rest)).trans ?_
      rw [List.cons_append]
      exact List.Perm.cons x List.perm_middle
    exact hfront.trans ((h.perm.cons x).trans (List.perm_append_singleton x all).symm)
  · intro a ha b hb
    have hle : ∀ b ∈ rest, key w ≤ key b := h.le w List.mem_cons_self
    rcases List.mem_cons.mp (hp.mem_iff.mp ha) with rfl | hold
    · rcases List.mem_cons.mp hb with rfl | hr
      · exact hx
      · exact hx.trans (hle b hr)
    · rcases List.mem_cons.mp hb with rfl | hr
      · exact hw a hold
      · exact (hw a hold).trans (hle b hr)
  · rw [hp.length_eq]
    exact hk.le
  · rw [hp.length_eq]
    exact hk

/-- The kept elements in order are the first `k` of all elements in order. -/
theorem Best.sort_eq (h : Best key k kept rest all)
    (hinj : ∀ a ∈ all, ∀ b ∈ all, key a = key b → a = b) :
    sortBy key kept = (sortBy key all).take k := by
  have hsplit : sortBy key kept ++ sortBy key rest = sortBy key all := by
    have hperm : (sortBy key kept ++ sortBy key rest).Perm all :=
      ((sortBy_perm key kept).append (sortBy_perm key rest)).trans h.perm
    refine List.Perm.eq_of_pairwise ?_ ?_ (sortBy_pairwise key all)
      (hperm.trans (sortBy_perm key all).symm)
    · intro a b ha hb hab hba
      exact hinj a (hperm.mem_iff.mp ha) b ((sortBy_perm key all).mem_iff.mp hb)
        (le_antisymm hab hba)
    · rw [List.pairwise_append]
      refine ⟨sortBy_pairwise key kept, sortBy_pairwise key rest, fun a ha b hb => ?_⟩
      exact h.le a ((sortBy_perm key kept).mem_iff.mp ha) b ((sortBy_perm key rest).mem_iff.mp hb)
  have hlen : (sortBy key kept).length = kept.length := (sortBy_perm key kept).length_eq
  rw [← hsplit]
  by_cases hrest : rest = []
  · subst hrest
    have hnil : sortBy key ([] : List α) = [] := rfl
    rw [hnil, List.append_nil, List.take_of_length_le]
    rw [hlen]
    exact h.length
  · rw [List.take_left' (by rw [hlen, h.full hrest])]

/-- An element with a key of its own is kept if fewer than `k` elements are below it. -/
lemma Best.mem_iff (h : Best key k kept rest all) (hx : x ∈ all)
    (huniq : ∀ y ∈ all, key y = key x → y = x) :
    x ∈ kept ↔ (all.filter fun y => key y < key x).length < k := by
  have hlen : (all.filter fun y => key y < key x).length =
      (kept.filter fun y => key y < key x).length + (rest.filter fun y => key y < key x).length := by
    rw [← (h.perm.filter _).length_eq, List.filter_append, List.length_append]
  constructor
  · intro hkept
    have hnone : (rest.filter fun y => key y < key x) = [] :=
      List.filter_eq_nil_iff.mpr fun b hb => by simpa using h.le x hkept b hb
    have hlt : (kept.filter fun y => key y < key x).length < kept.length :=
      List.length_filter_lt_length_iff_exists.mpr ⟨x, hkept, by simp⟩
    rw [hlen, hnone, List.length_nil, Nat.add_zero]
    exact hlt.trans_le h.length
  · intro hlt
    by_contra hnot
    have hrest : x ∈ rest :=
      (List.mem_append.mp (h.perm.mem_iff.mpr hx)).resolve_left hnot
    have hall : (kept.filter fun y => key y < key x) = kept := by
      refine List.filter_eq_self.mpr fun a ha => ?_
      have hmem : a ∈ all := h.perm.mem_iff.mp (List.mem_append_left rest ha)
      have hne : key a ≠ key x := by
        intro heq
        rw [huniq a hmem heq] at ha
        exact hnot ha
      simpa using lt_of_le_of_ne (h.le a ha x hrest) hne
    rw [hlen, hall, h.full (List.ne_nil_of_mem hrest)] at hlt
    omega

end CloudyNeigh.TopK
