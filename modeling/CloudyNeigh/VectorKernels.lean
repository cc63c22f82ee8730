import Mathlib.Algebra.BigOperators.Pi
import Mathlib.Tactic.Ring
import CloudyNeigh.Lanes
import CloudyNeigh.VectorFormat

/-!
# Distance kernels over exact arithmetic

The scalar loops, the AVX-512 and the portable kernels and the fp16 kernels with their
assembly loops, over any commutative ring in place of `float32`. A fused multiply-add is
a multiplication and an addition, and `cvt` decodes a half, in `VCVTPH2PS` and in
`fp16ToFloat32`. `none` is a load or an index outside of its slice.
-/
namespace CloudyNeigh.VectorKernels
open Lanes VectorFormat

universe u
variable {K : Type u} [CommRing K]

/-- The terms of the three sums of the cosine. -/
def cosineTerm (x y : K) : K × K × K := (x * y, x * x, y * y)

section Pure

def l2SquaredPure (a b : List K) : Option K :=
  scalarLoop (fun x y => (x - y) * (x - y)) a b 0 a.length 0

def dotProductPure (a b : List K) : Option K := scalarLoop (fun x y => x * y) a b 0 a.length 0

/-- `dot`, `sumA` and `sumB` of `cosinePure`; the rest of the three cosines is one text. -/
def cosinePureSums (a b : List K) : Option (K × K × K) := scalarLoop cosineTerm a b 0 a.length 0

end Pure

section Steps
variable {n : ℕ}

def dotStep (x y acc : Vec n K) : Vec n K := mulAdd x y acc

def l2Step (x y acc : Vec n K) : Vec n K :=
  let d := x - y
  mulAdd d d acc

/-- The accumulators `dot`, `sa` and `sb` of the cosine. -/
structure CosineAcc (n : ℕ) (K : Type u) where
  dot : Vec n K
  sa : Vec n K
  sb : Vec n K

def CosineAcc.zero : CosineAcc n K := ⟨0, 0, 0⟩

def CosineAcc.total (acc : CosineAcc n K) : K × K × K :=
  (Lanes.total acc.dot, Lanes.total acc.sa, Lanes.total acc.sb)

def cosineStep (x y : Vec n K) (acc : CosineAcc n K) : CosineAcc n K where
  dot := mulAdd x y acc.dot
  sa := mulAdd x x acc.sa
  sb := mulAdd y y acc.sb

/-- `VCVTPH2PS` of the row, then `VFMADD231PS` with the query. -/
def dotFP16Step (cvt : F16 → K) (q : Vec n K) (row : Vec n F16) (acc : Vec n K) : Vec n K :=
  mulAdd (fun i => cvt (row i)) q acc

/-- `VCVTPH2PS` of the row, `VSUBPS` of the query from it, then `VFMADD231PS`. -/
def l2FP16Step (cvt : F16 → K) (q : Vec n K) (row : Vec n F16) (acc : Vec n K) : Vec n K :=
  let d := (fun i => cvt (row i)) - q
  mulAdd d d acc

lemma total_mulAdd (x y acc : Vec n K) : total (mulAdd x y acc) = total acc + ∑ i, x i * y i := by
  rw [mulAdd, total_add, add_comm]
  rfl

lemma accumulates_dot : Accumulates (dotStep (K := K) (n := n)) total fun x y => x * y :=
  total_mulAdd

lemma accumulates_l2 :
    Accumulates (l2Step (K := K) (n := n)) total fun x y => (x - y) * (x - y) :=
  fun x y acc => total_mulAdd (x - y) (x - y) acc

lemma accumulates_cosine :
    Accumulates (cosineStep (K := K) (n := n)) CosineAcc.total cosineTerm := by
  intro x y acc
  rw [CosineAcc.total, cosineStep, total_mulAdd, total_mulAdd, total_mulAdd]
  refine Prod.ext ?_ (Prod.ext ?_ ?_)
  · rw [Prod.fst_add, Prod.fst_sum]
    rfl
  · rw [Prod.snd_add, Prod.fst_add, Prod.snd_sum, Prod.fst_sum]
    rfl
  · rw [Prod.snd_add, Prod.snd_add, Prod.snd_sum, Prod.snd_sum]
    rfl

lemma accumulates_dotFP16 (cvt : F16 → K) :
    Accumulates (dotFP16Step (n := n) cvt) total fun x h => x * cvt h := by
  intro q row acc
  rw [dotFP16Step, total_mulAdd]
  simp only [mul_comm]

lemma accumulates_l2FP16 (cvt : F16 → K) :
    Accumulates (l2FP16Step (n := n) cvt) total fun x h => (x - cvt h) * (x - cvt h) := by
  intro q row acc
  refine (total_mulAdd _ _ acc).trans (congrArg _ (Finset.sum_congr rfl fun i _ => ?_))
  rw [Pi.sub_apply]
  ring

end Steps

section AVX512

/-- `s[:n]` of a slice without spare capacity. -/
def reslice {H : Type*} (s : List H) (n : ℕ) : Option (List H) :=
  if n ≤ s.length then some (s.take n) else none

def sumLanes (v : Vec 16 K) : Vec 4 K :=
  let h : Vec 8 K := lower (m := 8) v + upper (m := 8) v
  lower (m := 4) h + upper (m := 4) h

/-- The accumulator of each line of an unrolled body, and the starts of its two slices. -/
def lines128 : List (Fin 8 × ℕ × ℕ) :=
  [(0, 0, 0), (1, 16, 16), (2, 32, 32), (3, 48, 48), (4, 64, 64), (5, 80, 80), (6, 96, 96),
    (7, 112, 112)]

def lines64 : List (Fin 8 × ℕ × ℕ) := [(0, 0, 0), (1, 16, 16), (2, 32, 32), (3, 48, 48)]

def lines16 : List (Fin 8 × ℕ × ℕ) := [(0, 0, 0)]

def cosineLines64 : List (Fin 2 × ℕ × ℕ) := [(0, 0, 0), (1, 16, 16), (0, 32, 32), (1, 48, 48)]

def cosineLines16 : List (Fin 2 × ℕ × ℕ) := [(0, 0, 0)]

/-- The loop with the given lines in its body, while both slices are long enough. -/
def whileLong {σ : Type u} {k : ℕ} (stride : ℕ) [NeZero stride]
    (step : Vec 16 K → Vec 16 K → σ → σ) (lines : List (Fin k × ℕ × ℕ)) :
    List K → List K → (Fin k → σ) → Option (List K × List K × (Fin k → σ)) :=
  strided stride fun a b acc => unrolled step (load 16 a) (load 16 b) lines acc

/-- The sum of eight accumulators as the kernels form it, up to the last pair of additions. -/
def sumAccs (acc : Fin 8 → Vec 16 K) : Vec 4 K :=
  sumLanes (acc 0 + acc 1 + (acc 2 + acc 3) + (acc 4 + acc 5 + (acc 6 + acc 7)))

/-- `l2SquaredAVX512` and `dotProductAVX512` differ in what a line adds. -/
def avx512 (step : Vec 16 K → Vec 16 K → Vec 16 K → Vec 16 K) (a b : List K) : Option K := do
  let b ← reslice b a.length
  let (a, b, acc) ← whileLong 128 step lines128 a b 0
  let (a, b, acc) ← whileLong 64 step lines64 a b acc
  let (a, b, acc) ← whileLong 16 step lines16 a b acc
  let acc := tail 1 step a b acc
  let s := sumAccs acc
  return addPairs (addPairs s s) s 0

def l2SquaredAVX512 (a b : List K) : Option K := avx512 l2Step a b

def dotProductAVX512 (a b : List K) : Option K := avx512 dotStep a b

def cosineAVX512Sums (a b : List K) : Option (K × K × K) := do
  let b ← reslice b a.length
  let (a, b, acc) ← whileLong 64 cosineStep cosineLines64 a b fun _ => CosineAcc.zero
  let (a, b, acc) ← whileLong 16 cosineStep cosineLines16 a b acc
  let acc := tail 1 cosineStep a b acc
  let d := sumLanes ((acc 0).dot + (acc 1).dot)
  let sa := sumLanes ((acc 0).sa + (acc 1).sa)
  let sb := sumLanes ((acc 0).sb + (acc 1).sb)
  let out := addPairs (addPairs d sa) (addPairs sb sb)
  return (out 0, out 1, out 2)

end AVX512

section Portable

/-- The portable kernels for `vl` lanes: `stored` is what the buffers hold of the accumulators.
The loop `for i := 0; i < chunks; i += vl` runs `chunks / vl` times, and `buf[:vl]` needs 16 lanes
at most. -/
def portable {σ M : Type u} [AddCommMonoid M] (vl : ℕ) (step : Vec vl K → Vec vl K → σ → σ)
    (zero : σ) (stored : σ → Vec vl M) (f : K → K → M) (a b : List K) : Option M :=
  let n := a.length
  if vl = 0 then none
  else
    let chunks := n - n % vl
    (chunked vl step a b (chunks / vl) zero).bind fun acc =>
      if 16 < vl then none
      else scalarLoop f a b chunks n ((List.ofFn (stored acc)).foldl (· + ·) 0)

def l2SquaredPortable (vl : ℕ) (a b : List K) : Option K :=
  portable vl l2Step 0 id (fun x y => (x - y) * (x - y)) a b

def dotProductPortable (vl : ℕ) (a b : List K) : Option K :=
  portable vl dotStep 0 id (fun x y => x * y) a b

def cosinePortableSums (vl : ℕ) (a b : List K) : Option (K × K × K) :=
  portable vl cosineStep .zero (fun acc i => (acc.dot i, acc.sa i, acc.sb i)) cosineTerm a b

end Portable

section FP16

/-- The registers of the block loops; `DI` and `SI` are byte offsets into the query and the row. -/
structure BlockRegs (K : Type u) where
  DI : ℕ
  SI : ℕ
  CX : ℕ
  Z : Fin 8 → Vec 16 K

/-- The accumulator of each `VFMADD231PS` of `loop8`, and the offsets of its operands from `DI`
and `SI`. -/
def lines8 : List (Fin 8 × ℕ × ℕ) :=
  [(0, 0, 0), (1, 64, 32), (2, 128, 64), (3, 192, 96), (4, 256, 128), (5, 320, 160),
    (6, 384, 192), (7, 448, 224)]

def lines1 : List (Fin 8 × ℕ × ℕ) := [(0, 0, 0)]

variable (step : Vec 16 K → Vec 16 F16 → Vec 16 K → Vec 16 K) (q : List K) (row : List F16)

/-- The lines of a body on the memory that the registers point to. -/
def runLines (lines : List (Fin 8 × ℕ × ℕ)) (r : BlockRegs K) : Option (Fin 8 → Vec 16 K) :=
  unrolled step (fun o => loadBytes 4 16 q (r.DI + o)) (fun o => loadBytes 2 16 row (r.SI + o))
    lines r.Z

def loop8 (r : BlockRegs K) : Option (BlockRegs K) :=
  if 8 ≤ r.CX then
    (runLines step q row lines8 r).bind fun Z => loop8 ⟨r.DI + 512, r.SI + 256, r.CX - 8, Z⟩
  else some r
termination_by r.CX
decreasing_by
  show r.CX - 8 < r.CX
  omega

def loop1 (r : BlockRegs K) : Option (BlockRegs K) :=
  if r.CX = 0 then some r
  else (runLines step q row lines1 r).bind fun Z => loop1 ⟨r.DI + 64, r.SI + 32, r.CX - 1, Z⟩
termination_by r.CX
decreasing_by
  show r.CX - 1 < r.CX
  omega

/-- The block loops and their reduction; `VHADDPS` adds the pairs of a register to themselves. -/
def fp16Blocks (blocks : ℕ) : Option K := do
  let r ← loop8 step q row ⟨0, 0, blocks, 0⟩
  let r ← loop1 step q row r
  let s := sumAccs r.Z
  let s := addPairs s s
  return addPairs s s 0

def dotFP16Blocks (cvt : F16 → K) : List K → List F16 → ℕ → Option K := fp16Blocks (dotFP16Step cvt)

def l2FP16Blocks (cvt : F16 → K) : List K → List F16 → ℕ → Option K := fp16Blocks (l2FP16Step cvt)

/-- `dotFP16AVX512` and `l2FP16AVX512` differ in the block loops and the term of the scalar loop. -/
def fp16AVX512 (blocksSum : List K → List F16 → ℕ → Option K) (f : K → F16 → K) (q : List K)
    (row : List F16) : Option K :=
  (reslice row q.length).bind fun row =>
    let n := q.length / 16 * 16
    (if 0 < n then blocksSum q row (n / 16) else some 0).bind fun sum =>
      scalarLoop f q row n q.length sum

def dotFP16AVX512 (cvt : F16 → K) (q : List K) (row : List F16) : Option K :=
  fp16AVX512 (dotFP16Blocks cvt) (fun x h => x * cvt h) q row

def l2FP16AVX512 (cvt : F16 → K) (q : List K) (row : List F16) : Option K :=
  fp16AVX512 (l2FP16Blocks cvt) (fun x h => (x - cvt h) * (x - cvt h)) q row

end FP16

section AVX512Spec
variable {σ M : Type u} [AddCommMonoid M] {f : K → K → M} {a b : List K}

lemma total_sumLanes (v : Vec 16 K) : total (sumLanes v) = total v :=
  (total_halves (m := 4) _).trans (total_halves (m := 8) v)

lemma total_sumAccs (acc : Fin 8 → Vec 16 K) : total (sumAccs acc) = ∑ j, total (acc j) := by
  rw [sumAccs, total_sumLanes, Fin.sum_univ_eight]
  simp only [total_add, add_assoc]

@[simp] lemma reslice_length {H : Type*} {s : List H} {n : ℕ} (h : n = s.length) :
    reslice s n = some s := by
  rw [reslice, if_pos h.le, List.take_of_length_le h.ge]

omit [CommRing K] in
/-- A loop of lines that load one register after the other moves whole strides of terms. -/
lemma whileLong_spec {k : ℕ} (stride : ℕ) [NeZero stride] {step : Vec 16 K → Vec 16 K → σ → σ}
    {sum : σ → M} (h : Accumulates step sum f) (lines : List (Fin k × ℕ × ℕ))
    (hlines : lines.map Prod.snd = (List.range' 0 lines.length 16).map fun i => (i, i))
    (hstride : lines.length * 16 = stride) (hlen : a.length = b.length) (acc : Fin k → σ) :
    ∃ a' b' acc', whileLong stride step lines a b acc = some (a', b', acc') ∧
      a'.length = b'.length ∧ a'.length < stride ∧
      ∑ j, sum (acc' j) + terms f a' b' = ∑ j, sum (acc j) + terms f a b := by
  refine strided_spec (fun acc : Fin k → σ => ∑ j, sum (acc j)) ?_ a b hlen acc
  intro a b acc ha hb
  have hcov : Covers (load 16 a) (load 16 b) a b (0 + 0) lines :=
    covers_of_places id id (fun i => by rw [id, Nat.zero_add])
      (fun i => by rw [id, Nat.zero_add]) hlines
  have hspec := unrolled_spec h hcov (by omega) (by omega) acc
  rwa [Nat.zero_add, Nat.zero_add, hstride, List.drop_zero, List.drop_zero] at hspec

lemma avx512_eq {step : Vec 16 K → Vec 16 K → Vec 16 K → Vec 16 K} {f : K → K → K}
    (h : Accumulates step total f) (hf : f 0 0 = 0) (hlen : a.length = b.length) :
    avx512 step a b = some (terms f a b) := by
  obtain ⟨a1, b1, acc1, hrun1, hlen1, -, heq1⟩ :=
    whileLong_spec 128 h lines128 rfl rfl hlen 0
  obtain ⟨a2, b2, acc2, hrun2, hlen2, -, heq2⟩ :=
    whileLong_spec 64 h lines64 rfl rfl hlen1 acc1
  obtain ⟨a3, b3, acc3, hrun3, hlen3, hlt, heq3⟩ :=
    whileLong_spec 16 h lines16 rfl rfl hlen2 acc2
  have htail := tail_spec h hf hlen3 hlt.le (1 : Fin 8) acc3
  have hzero : ∑ j : Fin 8, total ((0 : Fin 8 → Vec 16 K) j) = 0 :=
    Finset.sum_eq_zero fun j _ => total_zero
  simp only [avx512, reslice_length hlen, hrun1, hrun2, hrun3, Option.bind_eq_bind,
    Option.bind_some, Option.pure_def, Option.some.injEq]
  calc addPairs (addPairs _ _) _ 0 = total (sumAccs (tail 1 step a3 b3 acc3)) := (total_four _).symm
    _ = ∑ j, total (tail 1 step a3 b3 acc3 j) := total_sumAccs _
    _ = terms f a b := by rw [htail, heq3, heq2, heq1, hzero, zero_add]

lemma cosineAVX512Sums_eq (hlen : a.length = b.length) :
    cosineAVX512Sums a b = some (terms cosineTerm a b) := by
  obtain ⟨a1, b1, acc1, hrun1, hlen1, -, heq1⟩ :=
    whileLong_spec 64 accumulates_cosine cosineLines64 rfl rfl hlen
      fun _ => CosineAcc.zero
  obtain ⟨a2, b2, acc2, hrun2, hlen2, hlt, heq2⟩ :=
    whileLong_spec 16 accumulates_cosine cosineLines16 rfl rfl hlen1 acc1
  have hf : cosineTerm (0 : K) 0 = 0 := by
    rw [cosineTerm, mul_zero]
    rfl
  have htail := tail_spec accumulates_cosine hf hlen2 hlt.le (1 : Fin 2) acc2
  have hzero : ∑ j : Fin 2, (CosineAcc.zero : CosineAcc 16 K).total = 0 := by
    refine Finset.sum_eq_zero fun j _ => ?_
    rw [CosineAcc.total, CosineAcc.zero, total_zero]
    rfl
  rw [heq2, heq1, hzero, zero_add] at htail
  generalize hacc : tail 1 cosineStep a2 b2 acc2 = acc at htail
  simp only [cosineAVX512Sums, reslice_length hlen, hrun1, hrun2, hacc, Option.bind_eq_bind,
    Option.bind_some, Option.pure_def, Option.some.injEq]
  -- each of the three sums is folded like one register
  have hfold : ∀ x y : Vec 16 K, (sumLanes (x + y) 0 + sumLanes (x + y) 1) +
      (sumLanes (x + y) 2 + sumLanes (x + y) 3) = total x + total y := fun x y => by
    rw [← total_four, total_sumLanes, total_add]
  rw [← htail, Fin.sum_univ_two]
  refine Prod.ext ?_ (Prod.ext ?_ ?_)
  · exact hfold (acc 0).dot (acc 1).dot
  · exact hfold (acc 0).sa (acc 1).sa
  · exact hfold (acc 0).sb (acc 1).sb

end AVX512Spec

section PortableSpec
variable {σ M : Type u} [AddCommMonoid M] {f : K → K → M} {a b : List K} {vl : ℕ}

omit [CommRing K] in
lemma portable_eq {step : Vec vl K → Vec vl K → σ → σ} {zero : σ} {stored : σ → Vec vl M}
    (h : Accumulates step (fun acc => total (stored acc)) f) (hzero : total (stored zero) = 0)
    (hpos : 0 < vl) (hle : vl ≤ 16) (hlen : a.length = b.length) :
    portable vl step zero stored f a b = some (terms f a b) := by
  have hchunks : a.length - a.length % vl = a.length / vl * vl := by
    have hdiv := Nat.div_add_mod' a.length vl
    omega
  have hcount : a.length / vl * vl ≤ a.length := Nat.div_mul_le_self _ _
  obtain ⟨acc, hacc, heq⟩ := chunked_spec h hcount (hcount.trans hlen.le) zero
  rw [hzero, zero_add] at heq
  simp only [portable, hchunks, Nat.mul_div_cancel _ hpos, hacc, if_neg hpos.ne', if_neg hle.not_gt,
    Option.bind_some]
  rw [scalarLoop_spec hlen, foldl_ofFn, heq]

lemma total_stored (acc : CosineAcc vl K) :
    total (fun i => (acc.dot i, acc.sa i, acc.sb i)) = acc.total := by
  refine Prod.ext ?_ (Prod.ext ?_ ?_)
  · exact Prod.fst_sum
  · rw [total, Prod.snd_sum, Prod.fst_sum]
    rfl
  · rw [total, Prod.snd_sum, Prod.snd_sum]
    rfl

end PortableSpec

section FP16Spec
variable {step : Vec 16 K → Vec 16 F16 → Vec 16 K → Vec 16 K} {f : K → F16 → K} {q : List K}
  {row : List F16}

/-- The registers point to element `e` of both slices, and `CX` blocks are left in them. -/
structure BlockRegs.At (q : List K) (row : List F16) (e : ℕ) (r : BlockRegs K) : Prop where
  query : r.DI = 4 * e
  halves : r.SI = 2 * e
  inside : e + r.CX * 16 ≤ q.length
  inside_row : e + r.CX * 16 ≤ row.length

/-- A body of `lines` moves the terms of as many blocks, and leaves the registers after them. -/
lemma runLines_spec (h : Accumulates step total f) (lines : List (Fin 8 × ℕ × ℕ))
    (hlines : lines.map Prod.snd = (List.range' 0 lines.length 16).map fun i => (4 * i, 2 * i))
    {e : ℕ} {r : BlockRegs K} (hr : r.At q row e) (hle : lines.length ≤ r.CX) :
    ∃ Z, runLines step q row lines r = some Z ∧
      BlockRegs.At q row (e + lines.length * 16) ⟨r.DI + lines.length * 64,
        r.SI + lines.length * 32, r.CX - lines.length, Z⟩ ∧
      ∑ j, total (Z j) + terms f (q.drop (e + lines.length * 16))
        (row.drop (e + lines.length * 16)) =
          ∑ j, total (r.Z j) + terms f (q.drop e) (row.drop e) := by
  have hcov : Covers (fun o => loadBytes 4 16 q (r.DI + o))
      (fun o => loadBytes 2 16 row (r.SI + o)) q row (e + 0) lines := by
    refine covers_of_places (4 * ·) (2 * ·) (fun i => ?_) (fun i => ?_) hlines
    · rw [hr.query, ← Nat.mul_add, loadBytes_mul (by decide)]
    · rw [hr.halves, ← Nat.mul_add, loadBytes_mul (by decide)]
  have hq := hr.inside
  have hrow := hr.inside_row
  obtain ⟨Z, hZ, heq⟩ := unrolled_spec h hcov (by omega) (by omega) r.Z
  refine ⟨Z, hZ, ⟨?_, ?_, ?_, ?_⟩, heq⟩
  · show r.DI + lines.length * 64 = 4 * (e + lines.length * 16)
    rw [hr.query]
    ring
  · show r.SI + lines.length * 32 = 2 * (e + lines.length * 16)
    rw [hr.halves]
    ring
  · show e + lines.length * 16 + (r.CX - lines.length) * 16 ≤ q.length
    omega
  · show e + lines.length * 16 + (r.CX - lines.length) * 16 ≤ row.length
    omega

lemma loop8_spec (h : Accumulates step total f) {e : ℕ} {r : BlockRegs K} (hr : r.At q row e) :
    ∃ e' r', loop8 step q row r = some r' ∧ r'.At q row e' ∧ e' + r'.CX * 16 = e + r.CX * 16 ∧
      ∑ j, total (r'.Z j) + terms f (q.drop e') (row.drop e') =
        ∑ j, total (r.Z j) + terms f (q.drop e) (row.drop e) := by
  fun_induction loop8 step q row r generalizing e with
  | case1 r hle ih =>
    obtain ⟨Z, hZ, hr1, heq1⟩ := runLines_spec h lines8 rfl hr hle
    obtain ⟨e', r', hr', hat, hend, heq'⟩ := ih Z hr1
    refine ⟨e', r', by rw [hZ, Option.bind_some, hr'], hat, hend.trans ?_, heq'.trans heq1⟩
    show e + 8 * 16 + (r.CX - 8) * 16 = e + r.CX * 16
    omega
  | case2 r hlt => exact ⟨e, r, rfl, hr, rfl, rfl⟩

lemma loop1_spec (h : Accumulates step total f) {e : ℕ} {r : BlockRegs K} (hr : r.At q row e) :
    ∃ r', loop1 step q row r = some r' ∧
      ∑ j, total (r'.Z j) + terms f (q.drop (e + r.CX * 16)) (row.drop (e + r.CX * 16)) =
        ∑ j, total (r.Z j) + terms f (q.drop e) (row.drop e) := by
  fun_induction loop1 step q row r generalizing e with
  | case1 r hzero =>
    refine ⟨r, rfl, ?_⟩
    rw [hzero, Nat.zero_mul, Nat.add_zero]
  | case2 r hne ih =>
    obtain ⟨Z, hZ, hr1, heq1⟩ := runLines_spec h lines1 rfl hr (by
      show 1 ≤ r.CX
      omega)
    obtain ⟨r', hr', heq'⟩ := ih Z hr1
    have hend : e + 1 * 16 + (r.CX - 1) * 16 = e + r.CX * 16 := by omega
    refine ⟨r', by rw [hZ, Option.bind_some, hr'], ?_⟩
    rw [← hend]
    exact heq'.trans heq1

lemma fp16Blocks_eq (h : Accumulates step total f) {blocks : ℕ} (hq : blocks * 16 ≤ q.length)
    (hrow : blocks * 16 ≤ row.length) : ∃ sum, fp16Blocks step q row blocks = some sum ∧
      sum + terms f (q.drop (blocks * 16)) (row.drop (blocks * 16)) = terms f q row := by
  have hstart : BlockRegs.At q row 0 (⟨0, 0, blocks, 0⟩ : BlockRegs K) :=
    ⟨rfl, rfl, (Nat.zero_add _).trans_le hq, (Nat.zero_add _).trans_le hrow⟩
  obtain ⟨e, r8, hr8, hat, hend, heq8⟩ := loop8_spec h hstart
  obtain ⟨r1, hr1, heq1⟩ := loop1_spec h hat
  have hzero : ∑ j : Fin 8, total ((0 : Fin 8 → Vec 16 K) j) = 0 :=
    Finset.sum_eq_zero fun j _ => total_zero
  refine ⟨total (sumAccs r1.Z), ?_, ?_⟩
  · simp only [fp16Blocks, hr8, hr1, Option.bind_eq_bind, Option.bind_some, Option.pure_def]
    rw [total_four]
    rfl
  · rw [hend, heq8, Nat.zero_add, hzero, zero_add] at heq1
    rw [total_sumAccs]
    exact heq1

lemma fp16AVX512_eq (h : Accumulates step total f) (hlen : q.length = row.length) :
    fp16AVX512 (fp16Blocks step) f q row = some (terms f q row) := by
  have hn : q.length / 16 * 16 ≤ q.length := Nat.div_mul_le_self _ _
  simp only [fp16AVX512, reslice_length hlen, Option.bind_some]
  split
  · obtain ⟨sum, hsum, heq⟩ := fp16Blocks_eq h hn (hn.trans hlen.le)
    rw [Nat.mul_div_cancel _ (by decide), hsum, Option.bind_some, scalarLoop_spec hlen, heq]
  · have hzero : q.length / 16 * 16 = 0 := by omega
    rw [Option.bind_some, hzero, scalarLoop_whole hlen]

omit [CommRing K] in
lemma terms_map [AddCommMonoid K] (g : K → K → K) (cvt : F16 → K) :
    terms g q (row.map cvt) = terms (fun x h => g x (cvt h)) q row := by
  rw [terms, List.zipWith_map_right]
  rfl

end FP16Spec

/-- Every kernel computes the plain sum of its terms: no load or index leaves its slice, and each
pair of elements gives one term. -/
theorem kernels_compute_plain_sums (a b : List K) (hlen : a.length = b.length) :
    (dotProductPure a b = some (List.zipWith (fun x y => x * y) a b).sum ∧
      dotProductAVX512 a b = dotProductPure a b ∧
      ∀ vl, 0 < vl → vl ≤ 16 → dotProductPortable vl a b = dotProductPure a b) ∧
    (l2SquaredPure a b = some (List.zipWith (fun x y => (x - y) * (x - y)) a b).sum ∧
      l2SquaredAVX512 a b = l2SquaredPure a b ∧
      ∀ vl, 0 < vl → vl ≤ 16 → l2SquaredPortable vl a b = l2SquaredPure a b) ∧
    (cosinePureSums a b = some (List.zipWith cosineTerm a b).sum ∧
      cosineAVX512Sums a b = cosinePureSums a b ∧
      ∀ vl, 0 < vl → vl ≤ 16 → cosinePortableSums vl a b = cosinePureSums a b) ∧
    ∀ (cvt : F16 → K) (row : List F16), row.map cvt = b →
      dotFP16AVX512 cvt a row = dotProductPure a b ∧
      l2FP16AVX512 cvt a row = l2SquaredPure a b := by
  have hdot : dotProductPure a b = some (terms (fun x y => x * y) a b) := scalarLoop_whole hlen
  have hl2 : l2SquaredPure a b = some (terms (fun x y => (x - y) * (x - y)) a b) :=
    scalarLoop_whole hlen
  have hcos : cosinePureSums a b = some (terms cosineTerm a b) := scalarLoop_whole hlen
  refine ⟨⟨hdot, ?_, fun vl hpos hle => ?_⟩, ⟨hl2, ?_, fun vl hpos hle => ?_⟩,
    ⟨hcos, ?_, fun vl hpos hle => ?_⟩, fun cvt row hrow => ?_⟩
  · rw [hdot]
    exact avx512_eq accumulates_dot (mul_zero 0) hlen
  · rw [hdot]
    exact portable_eq accumulates_dot total_zero hpos hle hlen
  · rw [hl2]
    exact avx512_eq accumulates_l2 (by rw [sub_zero, mul_zero]) hlen
  · rw [hl2]
    exact portable_eq accumulates_l2 total_zero hpos hle hlen
  · rw [hcos]
    exact cosineAVX512Sums_eq hlen
  · rw [hcos]
    refine portable_eq ?_ ?_ hpos hle hlen
    · simp only [total_stored]
      exact accumulates_cosine
    · rw [total_stored, CosineAcc.zero, CosineAcc.total, total_zero]
      rfl
  · have hlen16 : a.length = row.length := by rw [hlen, ← hrow, List.length_map]
    refine ⟨?_, ?_⟩
    · rw [hdot, ← hrow, terms_map]
      exact fp16AVX512_eq (accumulates_dotFP16 cvt) hlen16
    · rw [hl2, ← hrow, terms_map]
      exact fp16AVX512_eq (accumulates_l2FP16 cvt) hlen16

-- Long enough for the blocks of every kernel, with elements left over.
def twos : List ℤ := List.replicate 131 2

def threes : List ℤ := List.replicate 131 3

theorem kernels_compute_plain_sums_blocks :
    dotProductAVX512 twos threes = some (786 : ℤ) ∧
    l2SquaredPortable 2 twos threes = some (131 : ℤ) ∧
    cosineAVX512Sums twos threes = some ((786, 524, 1179) : ℤ × ℤ × ℤ) ∧
    dotFP16AVX512 (fun h => (h.toNat : ℤ)) twos (List.replicate 131 3) = some 786 := by
  obtain ⟨⟨hdot, hdot512, -⟩, ⟨hl2, -, hl2p⟩, ⟨hcos, hcos512, -⟩, h16⟩ :=
    kernels_compute_plain_sums twos threes rfl
  have hdot : dotProductPure twos threes = some 786 := hdot.trans (by decide +kernel)
  refine ⟨hdot512.trans hdot, (hl2p 2 (by decide) (by decide)).trans (hl2.trans (by decide +kernel)),
    hcos512.trans (hcos.trans (by decide +kernel)), ?_⟩
  exact (h16 (fun h => (h.toNat : ℤ)) (List.replicate 131 3) (by simp [threes])).1.trans hdot

end CloudyNeigh.VectorKernels
