import Mathlib.Data.List.Sort

/-!
# Listings in the order of the keys

The first entries, in the order of their keys, of those that a store holds and a
selection picks. Holding the same entries and being in order determines a listing,
however it was computed.
-/
namespace CloudyNeigh.Listing

variable {κ β γ : Type*}

/-- The first `limit` elements, or all of them if the limit is not positive. -/
def clip (limit : ℤ) (l : List γ) : List γ :=
  if 0 < limit ∧ limit < l.length then l.take limit.toNat else l

lemma map_clip {δ : Type*} (f : γ → δ) (limit : ℤ) (l : List γ) :
    (clip limit l).map f = clip limit (l.map f) := by
  unfold clip
  rw [List.length_map]
  split
  · exact List.map_take
  · rfl

lemma clip_eq_take {limit : ℤ} (h : 0 < limit) (l : List γ) :
    clip limit l = l.take limit.toNat := by
  unfold clip
  split
  · rfl
  · rw [List.take_of_length_le (by omega)]

lemma clip_eq_self {limit : ℤ} (h : limit ≤ 0) (l : List γ) : clip limit l = l :=
  if_neg (by omega)

lemma clip_eq_nil {limit : ℤ} {l : List γ} : clip limit l = [] ↔ l = [] := by
  unfold clip
  split
  · rename_i h
    rw [List.take_eq_nil_iff]
    constructor
    · rintro (h0 | h0)
      · omega
      · exact h0
    · exact .inr
  · rfl

lemma mem_of_mem_clip {limit : ℤ} {l : List γ} {x : γ} (h : x ∈ clip limit l) : x ∈ l := by
  unfold clip at h
  split at h
  · exact List.mem_of_mem_take h
  · exact h

variable [LT κ]

/-- Every entry that is held and selected, in the order of the keys. -/
structure Enumerates (held : κ → Option β) (selected : κ → Prop) (all : List (κ × β)) : Prop where
  sorted : all.Pairwise fun a b => a.1 < b.1
  mem : ∀ k b, (k, b) ∈ all ↔ held k = some b ∧ selected k

def IsListing (held : κ → Option β) (selected : κ → Prop) (limit : ℤ) (out : List (κ × β)) : Prop :=
  ∃ all, Enumerates held selected all ∧ out = clip limit all

variable {held : κ → Option β} {selected : κ → Prop} {limit : ℤ} {all all' out out' : List (κ × β)}

lemma IsListing.held_of_mem (h : IsListing held selected limit out) {k : κ} {b : β}
    (hmem : (k, b) ∈ out) : held k = some b := by
  obtain ⟨all, ha, rfl⟩ := h
  exact ((ha.mem k b).mp (mem_of_mem_clip hmem)).1

lemma Enumerates.map (f : κ → β → γ) (h : Enumerates held selected all) :
    Enumerates (fun k => (held k).map (f k)) selected (all.map fun e => (e.1, f e.1 e.2)) := by
  refine ⟨List.pairwise_map.mpr h.sorted, fun k c => ⟨fun hin => ?_, ?_⟩⟩
  · obtain ⟨e, he, heq⟩ := List.mem_map.mp hin
    cases heq
    obtain ⟨hheld, hsel⟩ := (h.mem e.1 e.2).mp he
    exact ⟨by rw [hheld, Option.map_some], hsel⟩
  · rintro ⟨hheld, hsel⟩
    obtain ⟨b, hb, rfl⟩ := Option.map_eq_some_iff.mp hheld
    exact List.mem_map.mpr ⟨(k, b), (h.mem k b).mpr ⟨hb, hsel⟩, rfl⟩

/-- What is shown of each entry. -/
lemma IsListing.map (f : κ → β → γ) (h : IsListing held selected limit out) :
    IsListing (fun k => (held k).map (f k)) selected limit (out.map fun e => (e.1, f e.1 e.2)) := by
  obtain ⟨all, ha, rfl⟩ := h
  exact ⟨_, ha.map f, map_clip ..⟩

/-- Nothing is listed if nothing that is held is selected. -/
lemma isListing_nil_iff : IsListing held selected limit [] ↔ ∀ k, held k ≠ none → ¬ selected k := by
  constructor
  · rintro ⟨all, ha, hnil⟩ k hk hsel
    obtain ⟨b, hb⟩ := Option.ne_none_iff_exists'.mp hk
    have hmem := (ha.mem k b).mpr ⟨hb, hsel⟩
    simp [clip_eq_nil.mp hnil.symm] at hmem
  · intro h
    refine ⟨[], ⟨List.Pairwise.nil, fun k b => ?_⟩, (clip_eq_nil.mpr rfl).symm⟩
    simpa using fun hk => h k (by simp [hk])

variable [LE κ] [Std.IsLinearOrder κ] [Std.LawfulOrderLT κ]

lemma Enumerates.unique (h : Enumerates held selected all) (h' : Enumerates held selected all') :
    all = all' := by
  have hnodup : ∀ {l : List (κ × β)}, Enumerates held selected l → l.Nodup := by
    intro l hl
    refine hl.sorted.imp fun {a b} hab he => ?_
    exact Std.lt_irrefl (he ▸ hab : b.1 < b.1)
  refine List.Perm.eq_of_pairwise ?_ h.sorted h'.sorted ?_
  · intro a b _ _ hab hba
    exact absurd (Std.lt_trans hab hba) Std.lt_irrefl
  · refine (List.perm_ext_iff_of_nodup (hnodup h) (hnodup h')).mpr fun e => ?_
    rw [h.mem e.1 e.2, h'.mem e.1 e.2]

/-- A store has one listing. -/
theorem IsListing.unique (h : IsListing held selected limit out)
    (h' : IsListing held selected limit out') : out = out' := by
  obtain ⟨all, ha, rfl⟩ := h
  obtain ⟨all', ha', rfl⟩ := h'
  rw [ha.unique ha']

variable [DecidableLE κ]

/-- Sorting the selected entries by their keys. -/
theorem enumerates_sort {l : List (κ × β)} (hnodup : (l.map Prod.fst).Nodup)
    (hmem : ∀ k b, (k, b) ∈ l ↔ held k = some b ∧ selected k) :
    Enumerates held selected (l.insertionSort fun a b => a.1 ≤ b.1) := by
  have hperm := List.perm_insertionSort (fun a b : κ × β => a.1 ≤ b.1) l
  have htotal : Std.Total fun a b : κ × β => a.1 ≤ b.1 := ⟨fun a b => Std.le_total⟩
  have htrans : IsTrans (κ × β) fun a b => a.1 ≤ b.1 := ⟨fun _ _ _ hab hbc => Std.le_trans hab hbc⟩
  have hsorted := List.pairwise_insertionSort (fun a b : κ × β => a.1 ≤ b.1) l
  have hne : ((l.insertionSort fun a b => a.1 ≤ b.1).map Prod.fst).Nodup :=
    (hperm.map Prod.fst).nodup_iff.mpr hnodup
  refine ⟨?_, fun k b => (hperm.mem_iff).trans (hmem k b)⟩
  exact hsorted.imp₂ (fun a b hab hne => Std.lt_of_le_of_ne hab hne) (List.pairwise_map.mp hne)

end CloudyNeigh.Listing
