import Mathlib.Algebra.BigOperators.Fin
import Mathlib.Algebra.BigOperators.Group.List.Lemmas
import Mathlib.Data.Fin.VecNotation
import Mathlib.Data.List.GetD

/-!
# Sums in lanes

Vector registers as functions from their lanes, loads that stay inside a slice, and the
loops that sum one term for each pair of elements. Every loop keeps one quantity: what
its accumulators hold, and the terms of what is left of both slices.
-/
namespace CloudyNeigh.Lanes

abbrev Vec (n : ℕ) (K : Type*) := Fin n → K

section Operations
variable {K L M σ ι : Type*} {n m : ℕ}

/-- The `n` elements from `lo` on; `none` where the slice is too short. -/
def load (n : ℕ) (s : List K) (lo : ℕ) : Option (Vec n K) :=
  if h : lo + n ≤ s.length then some fun i => s.get ⟨lo + i, by omega⟩ else none

/-- The load at a byte address, of elements of `size` bytes each. -/
def loadBytes (size n : ℕ) (s : List K) (address : ℕ) : Option (Vec n K) :=
  if size ∣ address then load n s (address / size) else none

/-- A load of a short slice, with zeros in the other lanes. -/
def loadPart [Zero K] (n : ℕ) (s : List K) : Vec n K := fun i => s.getD i 0

def mulAdd [Mul K] [Add K] (x y z : Vec n K) : Vec n K := x * y + z

def lower (v : Vec (m + m) K) : Vec m K := fun i => v (Fin.castAdd m i)

def upper (v : Vec (m + m) K) : Vec m K := fun i => v (Fin.natAdd m i)

scoped instance neZeroFour : NeZero 4 := ⟨by decide⟩

/-- Sums of neighbouring lanes, of the first register and then of the second. -/
def addPairs [Add K] (x y : Vec 4 K) : Vec 4 K := ![x 0 + x 1, x 2 + x 3, y 0 + y 1, y 2 + y 3]

def total [AddCommMonoid K] (v : Vec n K) : K := ∑ i, v i

/-- The sum of one term for each pair of elements. -/
def terms [AddCommMonoid M] (f : K → L → M) (a : List K) (b : List L) : M :=
  (List.zipWith f a b).sum

/-- A step on two loads. -/
def block (step : Vec n K → Vec n L → σ → σ) (x : Option (Vec n K)) (y : Option (Vec n L))
    (s : σ) : Option σ :=
  x.bind fun x => y.map fun y => step x y s

/-- The step on one of several accumulators. -/
def into [DecidableEq ι] (i : ι) (step : Vec n K → Vec n L → σ → σ) (x : Vec n K) (y : Vec n L)
    (acc : ι → σ) : ι → σ :=
  Function.update acc i (step x y (acc i))

/-- An unrolled loop body: each entry is the accumulator of a step and where its loads are. -/
def unrolled [DecidableEq ι] (step : Vec n K → Vec n L → σ → σ) (loadA : ℕ → Option (Vec n K))
    (loadB : ℕ → Option (Vec n L)) (places : List (ι × ℕ × ℕ)) (acc : ι → σ) : Option (ι → σ) :=
  places.foldlM (fun acc p => block (into p.1 step) (loadA p.2.1) (loadB p.2.2) acc) acc

/-- The loop that runs its body while both slices hold `stride` elements, and drops them. -/
def strided (stride : ℕ) [NeZero stride] (body : List K → List L → σ → Option σ) (a : List K)
    (b : List L) (s : σ) : Option (List K × List L × σ) :=
  if stride ≤ a.length ∧ stride ≤ b.length then
    (body a b s).bind fun s => strided stride body (a.drop stride) (b.drop stride) s
  else some (a, b, s)
termination_by a.length
decreasing_by
  have hpos := Nat.pos_of_neZero stride
  rw [List.length_drop]
  omega

/-- The step on what is left of both slices, where there is anything. -/
def tail [DecidableEq ι] [Zero K] [Zero L] (i : ι) (step : Vec n K → Vec n L → σ → σ) (a : List K)
    (b : List L) (acc : ι → σ) : ι → σ :=
  if 0 < a.length then into i step (loadPart n a) (loadPart n b) acc else acc

/-- The loop over `count` whole registers from the start of both slices. -/
def chunked (n : ℕ) (step : Vec n K → Vec n L → σ → σ) (a : List K) (b : List L) (count : ℕ)
    (s : σ) : Option σ :=
  (List.range' 0 count n).foldlM (fun s i => block step (load n a i) (load n b i) s) s

/-- The loop that takes one element of each slice at a time, from `lo` up to `hi`. -/
def scalarLoop [Add M] (f : K → L → M) (a : List K) (b : List L) (lo hi : ℕ) (sum : M) : Option M :=
  (List.range' lo (hi - lo)).foldlM
    (fun sum i => (a[i]?).bind fun x => (b[i]?).map fun y => sum + f x y) sum

end Operations

section Totals
variable {K : Type*} [AddCommMonoid K] {n m : ℕ}

lemma total_add (x y : Vec n K) : total (x + y) = total x + total y := Finset.sum_add_distrib

@[simp] lemma total_zero : total (0 : Vec n K) = 0 := Finset.sum_const_zero

/-- Folding a register in half keeps its sum. -/
lemma total_halves (v : Vec (m + m) K) : total (lower v + upper v) = total v := by
  rw [total_add]
  exact (Fin.sum_univ_add v).symm

lemma total_four (v : Vec 4 K) : total v = (v 0 + v 1) + (v 2 + v 3) := by
  rw [total, Fin.sum_univ_four, add_assoc]

lemma foldl_ofFn (v : Vec n K) : (List.ofFn v).foldl (· + ·) 0 = total v := by
  rw [← List.sum_eq_foldl, List.sum_ofFn]
  rfl

end Totals

section Terms
variable {K L M : Type*} [AddCommMonoid M] (f : K → L → M) {a : List K} {b : List L}

lemma terms_eq_range [Zero K] [Zero L] (h : a.length = b.length) :
    terms f a b = ∑ i ∈ Finset.range a.length, f (a.getD i 0) (b.getD i 0) := by
  induction a generalizing b with
  | nil => rfl
  | cons x a ih =>
    cases b with
    | nil => cases h
    | cons y b =>
      rw [List.length_cons, Finset.sum_range_succ']
      have hrest := ih (Nat.succ.inj h)
      rw [terms] at hrest
      rw [terms, List.zipWith_cons_cons, List.sum_cons, hrest, add_comm]
      rfl

/-- The terms from a place on are those of the next `n` pairs and the rest. -/
lemma terms_drop (lo n : ℕ) : terms f (a.drop lo) (b.drop lo) =
    terms f ((a.drop lo).take n) ((b.drop lo).take n) +
      terms f (a.drop (lo + n)) (b.drop (lo + n)) := by
  rw [terms, ← List.sum_take_add_sum_drop _ n, List.take_zipWith, List.drop_zipWith,
    List.drop_drop, List.drop_drop]
  rfl

lemma terms_of_length_le {lo : ℕ} (h : a.length ≤ lo) : terms f (a.drop lo) (b.drop lo) = 0 := by
  rw [List.drop_of_length_le h]
  rfl

end Terms

section Loads
variable {K L M : Type*} [AddCommMonoid M] {f : K → L → M} {n lo : ℕ} {a : List K} {b : List L}

lemma load_of_le (h : lo + n ≤ a.length) :
    ∃ v, load n a lo = some v ∧ List.ofFn v = (a.drop lo).take n := by
  refine ⟨_, dif_pos h, List.ext_getElem ?_ ?_⟩
  · rw [List.length_ofFn, List.length_take, List.length_drop]
    omega
  · intro i h1 h2
    simp

lemma loadBytes_mul {size : ℕ} (hsize : 0 < size) (i : ℕ) :
    loadBytes size n a (size * i) = load n a i := by
  rw [loadBytes, if_pos (Nat.dvd_mul_right size i), Nat.mul_div_cancel_left i hsize]

lemma sum_lanes (x : Vec n K) (y : Vec n L) :
    ∑ i, f (x i) (y i) = terms f (List.ofFn x) (List.ofFn y) := by
  rw [← List.sum_ofFn, terms]
  congr 1
  apply List.ext_getElem
  · simp
  · intro i h1 h2
    simp

/-- Partial loads hold every pair, and zeros add nothing where the term of zeros is zero. -/
lemma sum_loadPart [Zero K] [Zero L] (hf : f 0 0 = 0) (hlen : a.length = b.length)
    (hn : a.length ≤ n) : ∑ i, f (loadPart n a i) (loadPart n b i) = terms f a b := by
  have hrange : ∑ i : Fin n, f (loadPart n a i) (loadPart n b i) =
      ∑ i ∈ Finset.range n, f (a.getD i 0) (b.getD i 0) :=
    Fin.sum_univ_eq_sum_range (fun i => f (a.getD i 0) (b.getD i 0)) n
  rw [hrange, terms_eq_range f hlen]
  refine (Finset.sum_subset (Finset.range_subset_range.mpr hn) fun i _ hi => ?_).symm
  have hle : a.length ≤ i := by simpa using hi
  rw [List.getD_eq_default _ _ hle, List.getD_eq_default _ _ (hlen ▸ hle), hf]

end Loads

section Loops
variable {K L M σ ι : Type*} [AddCommMonoid M] {f : K → L → M} {n lo : ℕ} {a : List K} {b : List L}
  {step : Vec n K → Vec n L → σ → σ} {sum : σ → M}

/-- The step adds to its accumulators the terms of its lanes. -/
def Accumulates (step : Vec n K → Vec n L → σ → σ) (sum : σ → M) (f : K → L → M) : Prop :=
  ∀ x y s, sum (step x y s) = sum s + ∑ i, f (x i) (y i)

/-- A block moves the terms of `n` pairs from the slices to its accumulator. -/
lemma block_spec (h : Accumulates step sum f) (ha : lo + n ≤ a.length) (hb : lo + n ≤ b.length)
    (s : σ) : ∃ s', block step (load n a lo) (load n b lo) s = some s' ∧
      sum s' + terms f (a.drop (lo + n)) (b.drop (lo + n)) =
        sum s + terms f (a.drop lo) (b.drop lo) := by
  obtain ⟨x, hx, hxs⟩ := load_of_le ha
  obtain ⟨y, hy, hys⟩ := load_of_le hb
  refine ⟨step x y s, by rw [block, hx, hy, Option.bind_some, Option.map_some], ?_⟩
  rw [h, sum_lanes, hxs, hys, add_assoc, ← terms_drop]

lemma chunked_spec (h : Accumulates step sum f) {count : ℕ} (ha : count * n ≤ a.length)
    (hb : count * n ≤ b.length) (s : σ) : ∃ s', chunked n step a b count s = some s' ∧
      sum s' + terms f (a.drop (count * n)) (b.drop (count * n)) = sum s + terms f a b := by
  -- the loop is followed from any place on, for the induction on the registers left
  have hfrom : ∀ count lo s, lo + count * n ≤ a.length → lo + count * n ≤ b.length → ∃ s',
      (List.range' lo count n).foldlM (fun s i => block step (load n a i) (load n b i) s) s =
        some s' ∧ sum s' + terms f (a.drop (lo + count * n)) (b.drop (lo + count * n)) =
          sum s + terms f (a.drop lo) (b.drop lo) := by
    intro count
    induction count with
    | zero =>
      intro lo s _ _
      refine ⟨s, rfl, ?_⟩
      rw [Nat.zero_mul, Nat.add_zero]
    | succ count ih =>
      intro lo s ha hb
      have hsum : lo + (count + 1) * n = lo + n + count * n := by
        rw [Nat.succ_mul]
        omega
      rw [hsum] at ha hb ⊢
      obtain ⟨s1, hs1, heq1⟩ := block_spec h (Nat.le_of_add_right_le ha)
        (Nat.le_of_add_right_le hb) s
      obtain ⟨s2, hs2, heq2⟩ := ih (lo + n) s1 ha hb
      refine ⟨s2, ?_, heq2.trans heq1⟩
      rw [List.range'_succ, List.foldlM_cons, hs1]
      exact hs2
  obtain ⟨s', hs', heq⟩ := hfrom count 0 s (by omega) (by omega)
  rw [Nat.zero_add] at heq
  exact ⟨s', hs', heq⟩

/-- The scalar loop over the rest of both slices. -/
lemma scalarLoop_spec (hlen : a.length = b.length) (acc : M) :
    scalarLoop f a b lo a.length acc = some (acc + terms f (a.drop lo) (b.drop lo)) := by
  unfold scalarLoop
  induction hk : a.length - lo generalizing lo acc with
  | zero =>
    rw [terms_of_length_le f (by omega), add_zero]
    rfl
  | succ k ih =>
    have hlt : lo < a.length := by omega
    have hlt' : lo < b.length := by omega
    have hdrop : terms f (a.drop lo) (b.drop lo) =
        f a[lo] b[lo] + terms f (a.drop (lo + 1)) (b.drop (lo + 1)) := by
      rw [List.drop_eq_getElem_cons hlt, List.drop_eq_getElem_cons hlt', terms,
        List.zipWith_cons_cons, List.sum_cons]
      rfl
    rw [List.range'_succ, List.foldlM_cons, List.getElem?_eq_getElem hlt,
      List.getElem?_eq_getElem hlt', hdrop, ← add_assoc]
    exact ih _ (by omega)

lemma scalarLoop_whole (hlen : a.length = b.length) :
    scalarLoop f a b 0 a.length 0 = some (terms f a b) := by
  rw [scalarLoop_spec hlen, zero_add, List.drop_zero, List.drop_zero]

/-- The loads of the entries follow each other through both slices, from `lo` on. -/
def Covers (loadA : ℕ → Option (Vec n K)) (loadB : ℕ → Option (Vec n L)) (a : List K) (b : List L) :
    ℕ → List (ι × ℕ × ℕ) → Prop
  | _, [] => True
  | lo, p :: places => loadA p.2.1 = load n a lo ∧ loadB p.2.2 = load n b lo ∧
      Covers loadA loadB a b (lo + n) places

/-- Loads at `g` and `g'` of the places `lo, lo + n, ..` of slices that start at `e`. -/
lemma covers_of_places {loadA : ℕ → Option (Vec n K)} {loadB : ℕ → Option (Vec n L)} {e : ℕ}
    (g g' : ℕ → ℕ) (hA : ∀ i, loadA (g i) = load n a (e + i))
    (hB : ∀ i, loadB (g' i) = load n b (e + i)) {places : List (ι × ℕ × ℕ)}
    (h : places.map Prod.snd = (List.range' lo places.length n).map fun i => (g i, g' i)) :
    Covers loadA loadB a b (e + lo) places := by
  induction places generalizing lo with
  | nil => trivial
  | cons p places ih =>
    rw [List.length_cons, List.range'_succ, List.map_cons, List.map_cons] at h
    obtain ⟨hp, hplaces⟩ := List.cons.inj h
    rw [Covers, hp, Nat.add_assoc]
    exact ⟨hA lo, hB lo, ih hplaces⟩

variable [DecidableEq ι] [Fintype ι]

/-- A step on one of several accumulators is a step on their sum. -/
lemma Accumulates.into (h : Accumulates step sum f) (i : ι) :
    Accumulates (into i step) (fun acc => ∑ j, sum (acc j)) f := by
  intro x y acc
  have hrest : ∑ j ∈ Finset.univ.erase i, sum (Lanes.into i step x y acc j) =
      ∑ j ∈ Finset.univ.erase i, sum (acc j) := by
    refine Finset.sum_congr rfl fun j hj => ?_
    rw [Lanes.into, Function.update_of_ne (Finset.ne_of_mem_erase hj)]
  have hself : sum (Lanes.into i step x y acc i) = sum (acc i) + ∑ j, f (x j) (y j) := by
    rw [Lanes.into, Function.update_self, h]
  beta_reduce
  rw [← Finset.add_sum_erase _ _ (Finset.mem_univ i), hrest, hself,
    ← Finset.add_sum_erase _ (fun j => sum (acc j)) (Finset.mem_univ i), add_right_comm]

lemma unrolled_spec (h : Accumulates step sum f) {loadA : ℕ → Option (Vec n K)}
    {loadB : ℕ → Option (Vec n L)} {places : List (ι × ℕ × ℕ)}
    (hcov : Covers loadA loadB a b lo places) (ha : lo + places.length * n ≤ a.length)
    (hb : lo + places.length * n ≤ b.length) (acc : ι → σ) :
    ∃ acc', unrolled step loadA loadB places acc = some acc' ∧
      ∑ j, sum (acc' j) + terms f (a.drop (lo + places.length * n))
        (b.drop (lo + places.length * n)) =
          ∑ j, sum (acc j) + terms f (a.drop lo) (b.drop lo) := by
  induction places generalizing lo acc with
  | nil =>
    refine ⟨acc, rfl, ?_⟩
    rw [List.length_nil, Nat.zero_mul, Nat.add_zero]
  | cons p places ih =>
    obtain ⟨hloadA, hloadB, hrest⟩ := hcov
    have hsum : lo + (p :: places).length * n = lo + n + places.length * n := by
      rw [List.length_cons, Nat.succ_mul]
      omega
    rw [hsum] at ha hb ⊢
    obtain ⟨acc1, hacc1, heq1⟩ := block_spec (h.into p.1) (Nat.le_of_add_right_le ha)
      (Nat.le_of_add_right_le hb) acc
    obtain ⟨acc2, hacc2, heq2⟩ := ih hrest ha hb acc1
    refine ⟨acc2, ?_, heq2.trans heq1⟩
    rw [unrolled, List.foldlM_cons, hloadA, hloadB, hacc1]
    exact hacc2

lemma tail_spec [Zero K] [Zero L] (h : Accumulates step sum f) (hf : f 0 0 = 0)
    (hlen : a.length = b.length) (hn : a.length ≤ n) (i : ι) (acc : ι → σ) :
    ∑ j, sum (tail i step a b acc j) = ∑ j, sum (acc j) + terms f a b := by
  rw [tail]
  split
  · rw [← sum_loadPart hf hlen hn]
    exact h.into i _ _ acc
  · have hnil : a = [] := List.length_eq_zero_iff.mp (by omega)
    rw [hnil, terms, List.zipWith_nil_left, List.sum_nil, add_zero]

end Loops

section Strided
variable {K L M σ : Type*} [AddCommMonoid M] {f : K → L → M} (sum : σ → M)

/-- A loop whose body takes the terms of `stride` pairs leaves fewer pairs than that. -/
lemma strided_spec {stride : ℕ} [NeZero stride] {body : List K → List L → σ → Option σ}
    (hbody : ∀ (a : List K) (b : List L) (s : σ), stride ≤ a.length → stride ≤ b.length →
      ∃ s', body a b s = some s' ∧
        sum s' + terms f (a.drop stride) (b.drop stride) = sum s + terms f a b)
    (a : List K) (b : List L) (hlen : a.length = b.length) (s : σ) :
    ∃ a' b' s', strided stride body a b s = some (a', b', s') ∧ a'.length = b'.length ∧
      a'.length < stride ∧ sum s' + terms f a' b' = sum s + terms f a b := by
  fun_induction strided stride body a b s with
  | case1 a b s hle ih =>
    obtain ⟨s1, hs1, heq1⟩ := hbody a b s hle.1 hle.2
    have hlen1 : (a.drop stride).length = (b.drop stride).length := by
      rw [List.length_drop, List.length_drop, hlen]
    obtain ⟨a', b', s', hs', hlen', hlt, heq'⟩ := ih s1 hlen1
    refine ⟨a', b', s', ?_, hlen', hlt, heq'.trans heq1⟩
    rw [hs1, Option.bind_some, hs']
  | case2 a b s hlt => exact ⟨a, b, s, rfl, hlen, by omega, rfl⟩

end Strided

end CloudyNeigh.Lanes
