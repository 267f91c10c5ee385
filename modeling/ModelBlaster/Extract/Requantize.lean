import ModelBlaster.Library.PyList
import ModelBlaster.Library.Rounding
import ModelBlaster.Library.TwosComplement
import Mathlib

/-!
# Requantisation by a multiplier and a shift

The integer tail of the int8 ops: the accumulator times a multiplier with 31 fractional bits, then
a rounding shift. `extract_int8` mirrors the tail of the kernels in NumPy, on arrays of `int32`.

Registers are in two's complement, also where C leaves a signed overflow open. A shift by more bits
than a register has is undefined in C. NumPy refuses a Python integer that does not fit the array
that it is added to.

## Main definitions

* `Requant.simStore`, `Requant.kernelStore`: how a result is stored;
* `FloatOp`: the ops, with `FloatOp.simulate` and `FloatOp.kernel`;
* `Requant.Exposed`: a result that is stored differently;
* `requantizeMultiplierShift`: a positive factor as a multiplier and a shift;
* `requantizeInt`: the tail in NumPy;
* `requantizeC`, `requantizePcC`: the tails of the kernels;
* `StaysInt32`: no intermediate of the tail leaves the register;
* `requantized`: what the tail computes then.

## Main results

* `simStore_eq_kernelStore_iff`: when a result is stored alike;
* `kernel_eq_simulate_iff`: when an op is;
* `requantizeInt_eq_requantizePcC`: the tail of the per-channel kernels is mirrored;
* `simElement_eq_kernelElement_iff`: when the other one is, up to the clamp;
* `requantizeMultiplierShift_close`: the multiplier and the shift are the factor, up to half of the
  last bit;
* `requantizeInt_eq`: the tail without overflow;
* `requantize_accurate`: its result is a neighbour of the correctly rounded one.
-/

/-! ## Int8 ops that are computed in floating point -/

namespace ModelBlaster.Extract

open Rounding List

variable {K : Type} [Field K] [LinearOrder K] [FloorRing K]

/-! ### Requantisation -/

/-- `np.clip` -/
def clip (lo hi v : ℤ) : ℤ := min (max v lo) hi

/-- The clamp of a kernel. -/
def clampC (lo hi v : ℤ) : ℤ :=
  let v := if v < lo then lo else v
  if hi < v then hi else v

/-- `astype(np.int8)` and `(int8_t)` -/
def toInt8 (v : ℤ) : ℤ := v.bmod 256

/-- The output of an op. -/
structure Requant (K : Type) [Field K] [LinearOrder K] where
  /-- `scale_out` -/
  scaleOut : K
  scaleOut_pos : 0 < scaleOut
  /-- `activation_min` -/
  activationMin : ℤ
  /-- `activation_max` -/
  activationMax : ℤ

/-- How the simulator stores a result: `np.round`, then `np.clip`. -/
def Requant.simStore (q : Requant K) (y : K) : ℤ :=
  toInt8 (clip q.activationMin q.activationMax (halfEven (y / q.scaleOut)))

/-- How a kernel stores a result: `roundf`, then the clamp. -/
def Requant.kernelStore (q : Requant K) (y : K) : ℤ :=
  toInt8 (clampC q.activationMin q.activationMax (halfAway (y / q.scaleOut)))

/-- The result is as far from an even multiple of the output scale as from the odd one behind it,
seen from zero, and the activation range has both of them. -/
def Requant.Exposed (q : Requant K) (y : K) : Prop :=
  ∃ j : ℕ, y + y = (4 * j + 1 : ℕ) * q.scaleOut ∧
      q.activationMin ≤ 2 * j ∧ 2 * (j : ℤ) + 1 ≤ q.activationMax ∨
    y + y = -((4 * j + 1 : ℕ) * q.scaleOut) ∧
      q.activationMin ≤ -(2 * j + 1) ∧ -(2 * (j : ℤ)) ≤ q.activationMax

theorem clampC_eq_clip (lo hi v : ℤ) : clampC lo hi v = clip lo hi v := by
  simp only [clampC, clip]
  split_ifs <;> omega

/-- Neighbours are stored alike unless both are within the range. -/
theorem toInt8_clip_eq_iff (lo hi v : ℤ) :
    toInt8 (clip lo hi v) = toInt8 (clip lo hi (v + 1)) ↔ ¬(lo ≤ v ∧ v + 1 ≤ hi) := by
  constructor
  · rintro h ⟨hlo, hhi⟩
    have hv : clip lo hi v = v := by
      rw [clip]
      omega
    have hv' : clip lo hi (v + 1) = v + 1 := by
      rw [clip]
      omega
    rw [hv, hv', toInt8, toInt8, Int.bmod_def, Int.bmod_def] at h
    omega
  · intro h
    have heq : clip lo hi v = clip lo hi (v + 1) := by
      simp only [clip]
      omega
    rw [heq]

variable [IsStrictOrderedRing K]

/-- A result is stored alike unless it is exposed. -/
theorem simStore_eq_kernelStore_iff (q : Requant K) (y : K) :
    q.kernelStore y = q.simStore y ↔ ¬q.Exposed y := by
  have hne : q.scaleOut ≠ 0 := ne_of_gt q.scaleOut_pos
  have hpos : ∀ j : ℕ, y / q.scaleOut = 2 * j + 1 / 2 ↔ y + y = (4 * j + 1 : ℕ) * q.scaleOut := by
    intro j
    rw [div_eq_iff hne]
    push_cast
    constructor <;> intro h <;> linarith
  have hneg : ∀ j : ℕ, y / q.scaleOut = -(2 * j + 1 / 2) ↔
      y + y = -((4 * j + 1 : ℕ) * q.scaleOut) := by
    intro j
    rw [div_eq_iff hne]
    push_cast
    constructor <;> intro h <;> linarith
  rw [Requant.kernelStore, Requant.simStore, clampC_eq_clip]
  by_cases htie : ∀ j : ℕ, y / q.scaleOut ≠ 2 * j + 1 / 2 ∧ y / q.scaleOut ≠ -(2 * j + 1 / 2)
  · refine iff_of_true (by rw [halfEven_eq_halfAway htie]) ?_
    rintro ⟨j, ⟨heq, -⟩ | ⟨heq, -⟩⟩
    · exact (htie j).1 ((hpos j).mpr heq)
    · exact (htie j).2 ((hneg j).mpr heq)
  · simp only [not_forall, not_and_or, not_not] at htie
    obtain ⟨j, htie | htie⟩ := htie
    · -- A tie above zero: its neighbours are `2 * j` and `2 * j + 1`.
      rw [htie, (halfEven_of_tie j).1, (halfAway_of_tie j).1, eq_comm, toInt8_clip_eq_iff,
        not_iff_not]
      constructor
      · rintro ⟨hlo, hhi⟩
        exact ⟨j, .inl ⟨(hpos j).mp htie, hlo, hhi⟩⟩
      · rintro ⟨i, ⟨heq, hlo, hhi⟩ | ⟨heq, -⟩⟩
        · have hsame : (2 * j + 1 / 2 : K) = 2 * i + 1 / 2 := htie.symm.trans ((hpos i).mpr heq)
          have hcast : (j : K) = i := by linarith
          obtain rfl : j = i := Nat.cast_injective hcast
          exact ⟨hlo, hhi⟩
        · have hsame : (2 * j + 1 / 2 : K) = -(2 * i + 1 / 2) := htie.symm.trans ((hneg i).mpr heq)
          linarith
    · -- A tie below zero: its neighbours are `-(2 * j + 1)` and `-(2 * j)`.
      have hnext : (-(2 * j) : ℤ) = -(2 * j + 1) + 1 := by ring
      rw [htie, (halfEven_of_tie j).2, (halfAway_of_tie j).2, hnext, toInt8_clip_eq_iff,
        not_iff_not]
      constructor
      · rintro ⟨hlo, hhi⟩
        exact ⟨j, .inr ⟨(hneg j).mp htie, hlo, by omega⟩⟩
      · rintro ⟨i, ⟨heq, -⟩ | ⟨heq, hlo, hhi⟩⟩
        · have hsame : (-(2 * j + 1 / 2) : K) = 2 * i + 1 / 2 := htie.symm.trans ((hpos i).mpr heq)
          linarith
        · have hsame : (-(2 * j + 1 / 2) : K) = -(2 * i + 1 / 2) :=
            htie.symm.trans ((hneg i).mpr heq)
          have hcast : (j : K) = i := by linarith
          obtain rfl : j = i := Nat.cast_injective hcast
          exact ⟨hlo, by omega⟩

/-! ### Writes -/

/-- The writes that store a list, from an address on. -/
def storeFrom (addr : ℕ) (l : List ℤ) : List (ℕ × ℤ) := (l.zipIdx addr).map fun p => (p.2, p.1)

theorem storeFrom_append (addr : ℕ) (l l' : List ℤ) :
    storeFrom addr (l ++ l') = storeFrom addr l ++ storeFrom (addr + l.length) l' := by
  rw [storeFrom, zipIdx_append, map_append]
  rfl

/-- A loop that stores one element after the other. -/
theorem storeFrom_map_range (addr n : ℕ) (f : ℕ → ℤ) :
    storeFrom addr ((List.range n).map f) = (List.range n).map fun i => (addr + i, f i) := by
  induction n with
  | zero => rfl
  | succ n ih =>
    rw [range_succ, map_append, storeFrom_append, ih, length_map, length_range, map_append]
    rfl

theorem storeFrom_inj {addr : ℕ} {l l' : List ℤ} : storeFrom addr l = storeFrom addr l' ↔ l = l' := by
  constructor
  · intro h
    have hvalues := congrArg (List.map Prod.snd) h
    simp only [storeFrom, map_map] at hvalues
    have hfst : ∀ l : List ℤ, (l.zipIdx addr).map (Prod.snd ∘ fun p => (p.2, p.1)) = l := by
      intro l
      exact zipIdx_map_fst addr l
    rwa [hfst, hfst] at hvalues
  · rintro rfl
    rfl

/-! ### The ops -/

/-- A tensor that is concatenated. -/
structure CatInput (K : Type) where
  data : List ℤ
  /-- Its entry of `C_inputs`. -/
  channels : ℕ
  /-- Its entry of `scales_in`. -/
  scale : K

/-- The ops, with their tensors and what they read of their `shape` and `quant`. Shapes have four
axes, the last two of which are `H` and `W`. -/
inductive FloatOp (K : Type) where
  | addS8 (n : ℕ) (scaleA scaleB : K) (a b : List ℤ)
  | batchnorm2dS8 (N C H W : ℕ) (scaleIn : K) (scale bias : List K) (input : List ℤ)
  | sigmoidS8 (n : ℕ) (scaleIn : K) (input : List ℤ)
  | siluS8 (n : ℕ) (scaleIn : K) (input : List ℤ)
  | eluS8 (n : ℕ) (scaleIn alpha : K) (input : List ℤ)
  | leakyReluS8 (n : ℕ) (scaleIn negativeSlope : K) (input : List ℤ)
  /-- `cat2_c1_s8`, `cat3_c1_s8` and `cat4_c1_s8` -/
  | catC1S8 (N H W : ℕ) (inputs : List (CatInput K))

/-- The tensors have as many elements as the shapes say. -/
def FloatOp.WellFormed : FloatOp K → Prop
  | .addS8 n _ _ a b => a.length = n ∧ b.length = n
  | .batchnorm2dS8 N C H W _ _ _ input => input.length = N * C * H * W
  | .sigmoidS8 n _ input | .siluS8 n _ input | .eluS8 n _ _ input | .leakyReluS8 n _ _ input =>
    input.length = n
  | .catC1S8 N H W inputs => ∀ p ∈ inputs, p.data.length = N * p.channels * H * W

/-- `1 / (1 + exp(-f))` -/
def sigmoid (exp : K → K) (f : K) : K := 1 / (1 + exp (-f))

/-- `f / (1 + exp(-f))` -/
def silu (exp : K → K) (f : K) : K := f / (1 + exp (-f))

/-- `f > 0 ? f : alpha * (exp(f) - 1)` -/
def elu (exp : K → K) (alpha f : K) : K := if 0 < f then f else alpha * (exp f - 1)

/-- `f > 0 ? f : negative_slope * f` -/
def leakyRelu (negativeSlope f : K) : K := if 0 < f then f else negativeSlope * f

/-- An op on single elements, in the simulator. -/
def simElementwise (q : Requant K) (scaleIn : K) (f : K → K) (input : List ℤ) : List ℤ :=
  input.map fun (x : ℤ) => q.simStore (f (x * scaleIn))

/-- An op on single elements, as a kernel. -/
def kernelElementwise (q : Requant K) (n : ℕ) (scaleIn : K) (f : K → K) (input : List ℤ) :
    List (ℕ × ℤ) :=
  (List.range n).map fun i => (i, q.kernelStore (f (input.getD i 0 * scaleIn)))

/-- A tensor in the output of `np.concatenate`, for the image `n`. -/
def simCatBlock (q : Requant K) (H W n : ℕ) (p : CatInput K) : List ℤ :=
  ((p.data.map fun (x : ℤ) => q.simStore (x * p.scale)).drop (n * (p.channels * (H * W)))).take
    (p.channels * (H * W))

/-- The array that the branch of the simulator stores. -/
def FloatOp.simulate (exp : K → K) (q : Requant K) : FloatOp K → List ℤ
  | .addS8 _ scaleA scaleB a b =>
    zipWith (fun (x y : ℤ) => q.simStore (x * scaleA + y * scaleB)) a b
  | .batchnorm2dS8 _ C H W scaleIn scale bias input =>
    input.zipIdx.map fun p =>
      -- `scale_pc[None, :, None, None]`
      let c := p.2 / (H * W) % C
      q.simStore (scale.getD c 0 * (p.1 * scaleIn) + bias.getD c 0)
  | .sigmoidS8 _ scaleIn input => simElementwise q scaleIn (sigmoid exp) input
  | .siluS8 _ scaleIn input => simElementwise q scaleIn (silu exp) input
  | .eluS8 _ scaleIn alpha input => simElementwise q scaleIn (elu exp alpha) input
  | .leakyReluS8 _ scaleIn negativeSlope input =>
    simElementwise q scaleIn (leakyRelu negativeSlope) input
  | .catC1S8 N H W inputs => (List.range N).flatMap fun n => inputs.flatMap (simCatBlock q H W n)

/-- The loop of the concatenation kernels over their inputs, for the image `n`: `out_c` channels are
written. -/
def kernelCatLoop (q : Requant K) (total H W n : ℕ) : ℕ → List (CatInput K) → List (ℕ × ℤ)
  | _, [] => []
  | outC, p :: rest =>
    ((List.range p.channels).flatMap fun c => (List.range (H * W)).map fun hw =>
      ((n * total + outC + c) * (H * W) + hw,
        q.kernelStore (p.data.getD ((n * p.channels + c) * (H * W) + hw) 0 * p.scale))) ++
    kernelCatLoop q total H W n (outC + p.channels) rest

/-- The writes of the kernel. -/
def FloatOp.kernel (exp : K → K) (q : Requant K) : FloatOp K → List (ℕ × ℤ)
  | .addS8 n scaleA scaleB a b =>
    (List.range n).map fun i =>
      (i, q.kernelStore (a.getD i 0 * scaleA + b.getD i 0 * scaleB))
  | .batchnorm2dS8 N C H W scaleIn scale bias input =>
    (List.range N).flatMap fun n => (List.range C).flatMap fun c =>
      (List.range H).flatMap fun h => (List.range W).map fun w =>
        let idx := ((n * C + c) * H + h) * W + w
        (idx, q.kernelStore (scale.getD c 0 * (input.getD idx 0 * scaleIn) + bias.getD c 0))
  | .sigmoidS8 n scaleIn input => kernelElementwise q n scaleIn (sigmoid exp) input
  | .siluS8 n scaleIn input => kernelElementwise q n scaleIn (silu exp) input
  | .eluS8 n scaleIn alpha input => kernelElementwise q n scaleIn (elu exp alpha) input
  | .leakyReluS8 n scaleIn negativeSlope input =>
    kernelElementwise q n scaleIn (leakyRelu negativeSlope) input
  | .catC1S8 N H W inputs =>
    (List.range N).flatMap fun n =>
      kernelCatLoop q (inputs.map CatInput.channels).sum H W n 0 inputs

/-- The results of the op, before they are requantised. -/
def FloatOp.results (exp : K → K) : FloatOp K → List K
  | .addS8 _ scaleA scaleB a b =>
    zipWith (fun (x y : ℤ) => (x * scaleA + y * scaleB : K)) a b
  | .batchnorm2dS8 _ C H W scaleIn scale bias input =>
    input.zipIdx.map fun p =>
      let c := p.2 / (H * W) % C
      scale.getD c 0 * (p.1 * scaleIn) + bias.getD c 0
  | .sigmoidS8 _ scaleIn input => input.map fun (x : ℤ) => sigmoid exp (x * scaleIn)
  | .siluS8 _ scaleIn input => input.map fun (x : ℤ) => silu exp (x * scaleIn)
  | .eluS8 _ scaleIn alpha input => input.map fun (x : ℤ) => elu exp alpha (x * scaleIn)
  | .leakyReluS8 _ scaleIn negativeSlope input =>
    input.map fun (x : ℤ) => leakyRelu negativeSlope (x * scaleIn)
  | .catC1S8 N H W inputs =>
    (List.range N).flatMap fun n => inputs.flatMap fun p =>
      ((p.data.map fun (x : ℤ) => (x * p.scale : K)).drop (n * (p.channels * (H * W)))).take
        (p.channels * (H * W))

/-! ### Golden and device -/

section
variable (exp : K → K) (q : Requant K)

omit [IsStrictOrderedRing K] in
/-- The simulator stores the results one by one. -/
theorem simulate_eq (op : FloatOp K) : op.simulate exp q = (op.results exp).map q.simStore := by
  cases op with
  | addS8 n scaleA scaleB a b => exact (map_zipWith ..).symm
  | batchnorm2dS8 N C H W scaleIn scale bias input =>
    simp only [FloatOp.simulate, FloatOp.results, map_map]
    rfl
  | sigmoidS8 n scaleIn input | siluS8 n scaleIn input | eluS8 n scaleIn alpha input
  | leakyReluS8 n scaleIn negativeSlope input =>
    simp only [FloatOp.simulate, FloatOp.results, simElementwise, map_map]
    rfl
  | catC1S8 N H W inputs =>
    simp only [FloatOp.simulate, FloatOp.results, map_flatMap, map_take, map_drop, map_map]
    rfl

variable {n N : ℕ} {input : List ℤ}

omit [IsStrictOrderedRing K] in
/-- An op on single elements stores its results one by one. -/
private theorem kernelElementwise_eq (hlen : input.length = n) (scaleIn : K) (f : K → K) :
    kernelElementwise q n scaleIn f input =
      storeFrom 0 ((input.map fun (x : ℤ) => f (x * scaleIn)).map q.kernelStore) := by
  have hread : (input.map fun (x : ℤ) => f (x * scaleIn)).map q.kernelStore =
      (List.range n).map fun i => q.kernelStore (f (input.getD i 0 * scaleIn)) := by
    apply PyList.eq_map_range
    · rw [length_map, length_map, hlen]
    · intro i hi
      have hget : input[i]? = some input[i] := getElem?_eq_getElem (by omega)
      rw [getElem?_map, getElem?_map, getD_eq_getElem?_getD, hget]
      rfl
  rw [hread, storeFrom_map_range, kernelElementwise]
  simp only [Nat.zero_add]

omit [IsStrictOrderedRing K] in
/-- The loops of the batchnorm kernel go through the tensor in memory order. -/
private theorem kernelBatchnorm_eq {C H W : ℕ} {scaleIn : K} {scale bias : List K}
    (hlen : input.length = N * C * H * W) :
    (FloatOp.batchnorm2dS8 N C H W scaleIn scale bias input).kernel exp q =
      storeFrom 0 (((FloatOp.batchnorm2dS8 N C H W scaleIn scale bias input).results exp).map
        q.kernelStore) := by
  set value : ℕ → ℤ := fun i => q.kernelStore
    (scale.getD (i / (H * W) % C) 0 * (input.getD i 0 * scaleIn) + bias.getD (i / (H * W) % C) 0)
    with hvalue
  have hread : ((FloatOp.batchnorm2dS8 N C H W scaleIn scale bias input).results exp).map
      q.kernelStore = (List.range (N * C * H * W)).map value := by
    apply PyList.eq_map_range
    · rw [length_map, FloatOp.results, length_map, length_zipIdx, hlen]
    · intro i hi
      have hget : input[i]? = some input[i] := getElem?_eq_getElem (by omega)
      rw [FloatOp.results, getElem?_map, getElem?_map, getElem?_zipIdx, hget, hvalue]
      simp only [Option.map_some, Nat.zero_add, getD_eq_getElem?_getD, hget, Option.getD_some]
  rw [hread, storeFrom_map_range, PyList.map_range_mul, PyList.flatMap_range_mul,
    PyList.flatMap_range_mul]
  refine flatMap_congr fun n _ => flatMap_congr fun c hc =>
    flatMap_congr fun h hh => map_congr_left fun w hw => ?_
  have hplane : h * W + w < H * W := by
    calc h * W + w < (h + 1) * W := by
          rw [Nat.succ_mul]
          exact Nat.add_lt_add_left (mem_range.mp hw) _
      _ ≤ H * W := Nat.mul_le_mul_right W (mem_range.mp hh)
  -- The channel of an element, from its address.
  have hchannel : (((n * C + c) * H + h) * W + w) / (H * W) % C = c := by
    have haddr : ((n * C + c) * H + h) * W + w = (h * W + w) + (n * C + c) * (H * W) := by ring
    rw [haddr, Nat.add_mul_div_right _ _ (by omega), Nat.div_eq_of_lt hplane, Nat.zero_add,
      Nat.mul_comm n C, Nat.mul_add_mod, Nat.mod_eq_of_lt (mem_range.mp hc)]
  simp only [hvalue, Nat.zero_add, hchannel]

omit [IsStrictOrderedRing K] in
/-- The loops of a concatenation kernel go through the output in memory order. -/
private theorem kernelCatLoop_eq {total H W : ℕ} (hn : n < N) (outC : ℕ)
    {inputs : List (CatInput K)} (hlen : ∀ p ∈ inputs, p.data.length = N * p.channels * H * W) :
    kernelCatLoop q total H W n outC inputs = storeFrom ((n * total + outC) * (H * W))
      (inputs.flatMap fun p =>
        (((p.data.map fun (x : ℤ) => (x * p.scale : K)).drop (n * (p.channels * (H * W)))).take
          (p.channels * (H * W))).map q.kernelStore) := by
  induction inputs generalizing outC with
  | nil => rfl
  | cons p rest ih =>
    have hdata := hlen p mem_cons_self
    have hblock : n * (p.channels * (H * W)) + p.channels * (H * W) ≤ p.data.length := by
      rw [hdata, Nat.mul_assoc, Nat.mul_assoc, ← Nat.succ_mul]
      exact Nat.mul_le_mul_right _ hn
    have hread : ((((p.data.map fun (x : ℤ) => (x * p.scale : K)).drop
        (n * (p.channels * (H * W)))).take (p.channels * (H * W))).map q.kernelStore) =
        (List.range (p.channels * (H * W))).map fun i =>
          q.kernelStore (p.data.getD (n * (p.channels * (H * W)) + i) 0 * p.scale) := by
      apply PyList.eq_map_range
      · simp only [length_map, length_take, length_drop]
        omega
      · intro i hi
        have hget : p.data[n * (p.channels * (H * W)) + i]? =
            some p.data[n * (p.channels * (H * W)) + i] := getElem?_eq_getElem (by omega)
        rw [getElem?_map, getElem?_take_of_lt hi, getElem?_drop, getElem?_map,
          getD_eq_getElem?_getD, hget]
        rfl
    rw [kernelCatLoop, flatMap_cons, storeFrom_append, hread, storeFrom_map_range,
      PyList.map_range_mul, ih (outC + p.channels) fun p' hp' => hlen p' (mem_cons_of_mem p hp')]
    congr 1
    · refine flatMap_congr fun c _ => map_congr_left fun hw _ => ?_
      have haddr : (n * total + outC + c) * (H * W) + hw =
          (n * total + outC) * (H * W) + (c * (H * W) + hw) := by ring
      have hsource : (n * p.channels + c) * (H * W) + hw =
          n * (p.channels * (H * W)) + (c * (H * W) + hw) := by ring
      rw [haddr, hsource]
    · congr 1
      rw [length_map, length_range]
      ring

omit [IsStrictOrderedRing K] in
/-- The kernel stores the results one by one. -/
theorem kernel_eq {op : FloatOp K} (hop : op.WellFormed) :
    op.kernel exp q = storeFrom 0 ((op.results exp).map q.kernelStore) := by
  cases op with
  | addS8 n scaleA scaleB a b =>
    obtain ⟨ha, hb⟩ := hop
    have hread : ((FloatOp.addS8 n scaleA scaleB a b).results exp).map q.kernelStore =
        (List.range n).map fun i =>
          q.kernelStore (a.getD i 0 * scaleA + b.getD i 0 * scaleB) := by
      apply PyList.eq_map_range
      · rw [length_map, FloatOp.results, length_zipWith, ha, hb, min_self]
      · intro i hi
        have hget : a[i]? = some a[i] := getElem?_eq_getElem (by omega)
        have hget' : b[i]? = some b[i] := getElem?_eq_getElem (by omega)
        rw [FloatOp.results, getElem?_map, getElem?_zipWith, hget, hget',
          getD_eq_getElem?_getD, getD_eq_getElem?_getD, hget, hget']
        rfl
    rw [hread, storeFrom_map_range]
    simp only [Nat.zero_add]
    rfl
  | batchnorm2dS8 N C H W scaleIn scale bias input => exact kernelBatchnorm_eq exp q hop
  | sigmoidS8 n scaleIn input => exact kernelElementwise_eq q hop scaleIn _
  | siluS8 n scaleIn input => exact kernelElementwise_eq q hop scaleIn _
  | eluS8 n scaleIn alpha input => exact kernelElementwise_eq q hop scaleIn _
  | leakyReluS8 n scaleIn negativeSlope input => exact kernelElementwise_eq q hop scaleIn _
  | catC1S8 N H W inputs =>
    set total := (inputs.map CatInput.channels).sum with htotal
    set block : ℕ → List ℤ := fun n => inputs.flatMap fun p =>
      (((p.data.map fun (x : ℤ) => (x * p.scale : K)).drop (n * (p.channels * (H * W)))).take
        (p.channels * (H * W))).map q.kernelStore with hblock
    have hresults : ((FloatOp.catC1S8 N H W inputs).results exp).map q.kernelStore =
        (List.range N).flatMap block := by
      simp only [FloatOp.results, map_flatMap, hblock]
    -- The blocks of the images have one length.
    have hlength : ∀ n < N, (block n).length = total * (H * W) := by
      intro n hn
      have hone : ∀ p ∈ inputs, ((((p.data.map fun (x : ℤ) => (x * p.scale : K)).drop
          (n * (p.channels * (H * W)))).take (p.channels * (H * W))).map q.kernelStore).length =
          p.channels * (H * W) := by
        intro p hp
        have hle : n * (p.channels * (H * W)) + p.channels * (H * W) ≤ p.data.length := by
          rw [hop p hp, Nat.mul_assoc, Nat.mul_assoc, ← Nat.succ_mul]
          exact Nat.mul_le_mul_right _ hn
        simp only [length_map, length_take, length_drop]
        omega
      rw [hblock, length_flatMap, map_congr_left hone, htotal, ← sum_map_mul_right]
    have hloops : ∀ m ≤ N, ((List.range m).flatMap fun n => kernelCatLoop q total H W n 0 inputs) =
        storeFrom 0 ((List.range m).flatMap block) ∧
          ((List.range m).flatMap block).length = m * (total * (H * W)) := by
      intro m hm
      induction m with
      | zero => exact ⟨rfl, by simp⟩
      | succ m ih =>
        obtain ⟨hwrites, hlen⟩ := ih (by omega)
        rw [range_succ, flatMap_append, flatMap_append, flatMap_singleton,
          flatMap_singleton, storeFrom_append, hwrites, length_append, hlen,
          hlength m hm, kernelCatLoop_eq q hm 0 hop, Nat.succ_mul]
        refine ⟨?_, rfl⟩
        congr 2
        ring
    rw [hresults, ← (hloops N (le_refl N)).1]
    rfl

end

/-- An output scale at which the sum of `1` and `0` is no tie. -/
def thirdScale : Requant ℚ := ⟨3, by norm_num, -128, 127⟩

end ModelBlaster.Extract

namespace ModelBlaster.Extract

open Rounding TwosComplement

/-- The exceptions of the simulator. -/
inductive PyError where
  | indexError
  | overflowError
  | unboundLocalError
  | valueError
  deriving DecidableEq, Repr

/-- A kernel whose behaviour C does not define. -/
inductive CFault where
  | undefinedBehaviour
  deriving DecidableEq, Repr

/-! ### The tails -/

/-- `((int64_t)acc * multiplier + (1LL << 30)) >> 31`, as an `int32`. -/
def mulQ31 (acc multiplier : ℤ) : ℤ :=
  wrap 32 (wrap 64 (wrap 64 (acc * multiplier) + 2 ^ 30) >>> (31 : ℕ))

/-- `_requantize_int`, on one element. -/
def requantizeInt (acc multiplier shift : ℤ) : Except PyError ℤ :=
  let prod := mulQ31 acc multiplier
  if 0 < shift then
    let roundTerm : ℤ := 2 ^ (shift.toNat - 1)
    if Fits 32 roundTerm then
      .ok (wrap 32 (prod + roundTerm) >>> shift.toNat)
    else
      .error .overflowError
  else
    .ok (wrap 32 (prod <<< (-shift).toNat))

/-- The tail of `kernel_conv2d_s8`. -/
def requantizeC (acc multiplier shift : ℤ) : Except CFault ℤ :=
  let scaled := mulQ31 acc multiplier
  if 0 < shift then
    if shift < 64 then
      .ok (wrap 32 (wrap 64 (scaled + 2 ^ (shift.toNat - 1)) >>> shift.toNat))
    else
      .error .undefinedBehaviour
  else if shift < 0 then
    if -shift < 32 then
      .ok (wrap 32 (scaled <<< (-shift).toNat))
    else
      .error .undefinedBehaviour
  else
    .ok scaled

/-- The tail of `kernel_conv2d_s8_pc` and `kernel_linear_s8_pc`. -/
def requantizePcC (acc multiplier shift : ℤ) : Except CFault ℤ :=
  let prod := mulQ31 acc multiplier
  if 0 < shift then
    if shift < 32 then
      let r := 2 ^ (shift.toNat - 1)
      .ok (wrap 32 (prod + r) >>> shift.toNat)
    else
      .error .undefinedBehaviour
  else if -shift < 32 then
    .ok (wrap 32 (prod <<< (-shift).toNat))
  else
    .error .undefinedBehaviour

/-- What a quantised op adds to its operands and to its result, and the range of the result. -/
structure QuantBlock where
  /-- `input_offset` -/
  inputOffset : ℤ
  /-- `filter_offset` -/
  filterOffset : ℤ
  /-- `output_offset` -/
  outputOffset : ℤ
  /-- `activation_min` -/
  activationMin : ℤ
  /-- `activation_max` -/
  activationMax : ℤ
  outputOffset_fits : Fits 8 outputOffset
  activationMin_fits : Fits 8 activationMin
  activationMax_fits : Fits 8 activationMax

/-- What the simulator does with a requantised value. -/
def QuantBlock.simStore (q : QuantBlock) (scaled : ℤ) : ℤ :=
  toInt8 (clip q.activationMin q.activationMax (wrap 32 (scaled + q.outputOffset)))

/-- What a kernel does with a requantised value. -/
def QuantBlock.kernelStore (q : QuantBlock) (scaled : ℤ) : ℤ :=
  toInt8 (clampC q.activationMin q.activationMax (wrap 32 (scaled + q.outputOffset)))

/-- An element of the array that `_sim_conv2d_s8` returns, from its accumulator. -/
def QuantBlock.simElement (q : QuantBlock) (multiplier shift acc : ℤ) : Except PyError ℤ :=
  (requantizeInt acc multiplier shift).map q.simStore

/-- An element that `kernel_conv2d_s8` writes, from its accumulator. -/
def QuantBlock.kernelElement (q : QuantBlock) (multiplier shift acc : ℤ) : Except CFault ℤ :=
  (requantizeC acc multiplier shift).map q.kernelStore

/-- A positive factor as a multiplier and a shift: `_requantize_multiplier_shift`, with mantissa and
exponent as `np.frexp` gives them. -/
def requantizeMultiplierShift {K : Type} [Field K] [LinearOrder K] [FloorRing K] (realMult : K) :
    ℤ × ℤ :=
  if realMult ≤ 0 then
    (0, 0)
  else
    let exp := Int.log 2 realMult + 1
    let mantissa := realMult / ((2 : ℕ) : K) ^ exp
    let multiplier := halfEven (mantissa * ((2 : ℕ) : K) ^ 31)
    let (multiplier, exp) :=
      if multiplier = 2 ^ 31 then (multiplier / 2, exp + 1) else (multiplier, exp)
    (if 0x7FFFFFFF < multiplier then 0x7FFFFFFF else multiplier, -exp)

/-! ### Rounding shifts -/

/-- The rounding term takes the product out of the register. -/
def Overflows (multiplier shift acc : ℤ) : Prop :=
  0 < shift ∧ 2 ^ 31 ≤ mulQ31 acc multiplier + 2 ^ (shift.toNat - 1)

/-- The clamp maps the results of such an element to one value: the value with the opposite sign
that comes out in 32 bits, and the right one. -/
def QuantBlock.Absorbs (q : QuantBlock) (shift : ℤ) : Prop :=
  q.activationMax ≤ q.activationMin ∨
    q.activationMax ≤ q.outputOffset - 2 ^ (31 - shift.toNat) ∨
    q.outputOffset + 2 ^ (31 - shift.toNat) ≤ q.activationMin

theorem fits_mulQ31 (acc multiplier : ℤ) : Fits 32 (mulQ31 acc multiplier) :=
  fits_wrap (by decide) _

theorem kernelStore_eq_simStore (q : QuantBlock) : q.kernelStore = q.simStore := by
  funext scaled
  rw [QuantBlock.kernelStore, QuantBlock.simStore, clampC_eq_clip]

variable {t : ℕ} {shift : ℤ}

/-- The rounded shift of a sum of `2 ^ 31` or more, in 64 bits and in 32. -/
private theorem shift_of_overflow {p : ℤ} (ht : 0 < t) (ht' : t ≤ 31) (hp : p < 2 ^ 31)
    (hover : 2 ^ 31 ≤ p + 2 ^ (t - 1)) :
    (p + 2 ^ (t - 1)) / 2 ^ t = 2 ^ (31 - t) ∧
      (p + 2 ^ (t - 1) - 2 ^ 32) / 2 ^ t = -2 ^ (31 - t) := by
  have hpow : (2 : ℤ) ^ t = 2 * 2 ^ (t - 1) := by
    rw [← pow_succ', Nat.sub_add_cancel ht]
  have hfull : (2 : ℤ) ^ (31 - t) * 2 ^ t = 2 ^ 31 := by
    rw [← pow_add, Nat.sub_add_cancel ht']
  -- What exceeds `2 ^ 31` is less than a unit of the result.
  obtain ⟨r, hr⟩ : ∃ r, p + 2 ^ (t - 1) = r + 2 ^ 31 := ⟨p + 2 ^ (t - 1) - 2 ^ 31, by ring⟩
  have hsmall : r / 2 ^ t = 0 := Int.ediv_eq_zero_of_lt (by omega) (by omega)
  have hne : (2 : ℤ) ^ t ≠ 0 := by positivity
  constructor
  · rw [hr, ← hfull, Int.add_mul_ediv_right _ _ hne, hsmall, zero_add]
  · have hsub : p + 2 ^ (t - 1) - 2 ^ 32 = r + -2 ^ (31 - t) * 2 ^ t := by
      rw [hr, neg_mul, hfull]
      ring
    rw [hsub, Int.add_mul_ediv_right _ _ hne, hsmall, zero_add]

/-- A rounding term fits the register iff the shift is shorter than it. -/
theorem fits_roundTerm_iff (ht : 0 < t) :
    Fits 32 (2 ^ (t - 1)) ↔ t ≤ 31 := by
  constructor
  · rintro ⟨-, hlt⟩
    have hexp : t - 1 < 31 := (pow_lt_pow_iff_right₀ (by decide)).mp hlt
    omega
  · intro hle
    have hlt : (2 : ℤ) ^ (t - 1) < 2 ^ 31 := pow_lt_pow_right₀ (by decide) (by omega)
    exact ⟨le_trans (by decide) (le_of_lt (pow_pos (by decide : (0 : ℤ) < 2) _)), hlt⟩

/-- The simulator mirrors the tail of the per-channel kernels. -/
theorem requantizeInt_eq_requantizePcC (hlo : -31 ≤ shift) (hhi : shift ≤ 31) (acc multiplier : ℤ) :
    ∃ v, requantizeInt acc multiplier shift = .ok v ∧
      requantizePcC acc multiplier shift = .ok v := by
  by_cases hpos : 0 < shift
  · have hfits := (fits_roundTerm_iff (t := shift.toNat) (by omega)).mpr (by omega)
    refine ⟨wrap 32 (mulQ31 acc multiplier + 2 ^ (shift.toNat - 1)) >>> shift.toNat, ?_, ?_⟩
    · rw [requantizeInt, if_pos hpos, if_pos hfits]
    · rw [requantizePcC, if_pos hpos, if_pos (by omega)]
  · refine ⟨wrap 32 (mulQ31 acc multiplier <<< (-shift).toNat), ?_, ?_⟩
    · rw [requantizeInt, if_neg hpos]
    · rw [requantizePcC, if_neg hpos, if_pos (by omega)]

/-- Two results on both sides of zero are stored alike iff the clamp absorbs the difference. -/
private theorem simStore_neg_eq_iff (q : QuantBlock) (ht : 0 < t) :
    q.simStore (-2 ^ (31 - t)) = q.simStore (2 ^ (31 - t)) ↔
      q.activationMax ≤ q.activationMin ∨ q.activationMax ≤ q.outputOffset - 2 ^ (31 - t) ∨
        q.outputOffset + 2 ^ (31 - t) ≤ q.activationMin := by
  have hpos : (0 : ℤ) < 2 ^ (31 - t) := by positivity
  have hle : (2 : ℤ) ^ (31 - t) ≤ 2 ^ 30 := pow_le_pow_right₀ (by decide) (by omega)
  obtain ⟨hofflo, hoffhi⟩ := q.outputOffset_fits
  obtain ⟨hminlo, hminhi⟩ := q.activationMin_fits
  obtain ⟨hmaxlo, hmaxhi⟩ := q.activationMax_fits
  set u : ℤ := 2 ^ (31 - t)
  have hneg : wrap 32 (-u + q.outputOffset) = -u + q.outputOffset :=
    wrap_eq_self (by decide) ⟨by omega, by omega⟩
  have hplus : wrap 32 (u + q.outputOffset) = u + q.outputOffset :=
    wrap_eq_self (by decide) ⟨by omega, by omega⟩
  rw [QuantBlock.simStore, QuantBlock.simStore, hneg, hplus, toInt8, toInt8, clip, clip,
    Int.bmod_def, Int.bmod_def]
  omega

/-- Values that are stored alike. -/
private theorem exists_map_eq_ok_iff {f : ℤ → ℤ} {a b : ℤ} :
    (∃ v, (Except.ok a : Except PyError ℤ).map f = .ok v ∧
      (Except.ok b : Except CFault ℤ).map f = .ok v) ↔ f a = f b := by
  constructor
  · rintro ⟨v, hsim, hkernel⟩
    exact (Except.ok.inj hsim).trans (Except.ok.inj hkernel).symm
  · intro h
    exact ⟨f a, rfl, by rw [h]; rfl⟩

/-- A right shift within the width of the register. -/
private theorem simElement_eq_kernelElement_of_pos (q : QuantBlock) (ht : 0 < t) (ht' : t ≤ 31)
    (multiplier acc : ℤ) :
    (∃ v, q.simElement multiplier t acc = .ok v ∧ q.kernelElement multiplier t acc = .ok v) ↔
      (Overflows multiplier t acc → q.Absorbs t) := by
  obtain ⟨hlo, hhi⟩ := fits_mulQ31 acc multiplier
  have hround : (0 : ℤ) < 2 ^ (t - 1) := by positivity
  have hround' : (2 : ℤ) ^ (t - 1) ≤ 2 ^ 30 := pow_le_pow_right₀ (by decide) (by omega)
  have hpos : (0 : ℤ) < t := by omega
  rw [QuantBlock.simElement, QuantBlock.kernelElement, kernelStore_eq_simStore, requantizeInt,
    requantizeC]
  rw [if_pos hpos, if_pos hpos, if_pos (by omega : (t : ℤ) < 64), Int.toNat_natCast,
    if_pos ((fits_roundTerm_iff ht).mpr ht'), exists_map_eq_ok_iff, Overflows, QuantBlock.Absorbs,
    Int.toNat_natCast]
  set p := mulQ31 acc multiplier
  -- The shifted sum of 64 bits fits into 32 again.
  have hwide : wrap 64 (p + 2 ^ (t - 1)) = p + 2 ^ (t - 1) :=
    wrap_eq_self (by decide) ⟨by omega, by omega⟩
  have hshifted : Fits 32 ((p + 2 ^ (t - 1)) / 2 ^ t) := by
    have htwo : (2 : ℤ) ≤ 2 ^ t := le_self_pow₀ (by decide) (by omega)
    constructor
    · exact (Int.le_ediv_iff_mul_le (by omega)).mpr (by omega)
    · exact Int.ediv_lt_of_lt_mul (by omega) (by omega)
  have hright : wrap 32 (wrap 64 (p + 2 ^ (t - 1)) >>> t) = (p + 2 ^ (t - 1)) / 2 ^ t := by
    rw [hwide, Int.shiftRight_eq_div_pow, Nat.cast_pow, Nat.cast_ofNat]
    exact wrap_eq_self (by decide) hshifted
  rw [hright, Int.shiftRight_eq_div_pow, Nat.cast_pow, Nat.cast_ofNat]
  by_cases hover : 2 ^ 31 ≤ p + 2 ^ (t - 1)
  · obtain ⟨hkernel, hsim⟩ := shift_of_overflow ht ht' (by omega) hover
    have hwrap : wrap 32 (p + 2 ^ (t - 1)) = p + 2 ^ (t - 1) - 2 ^ 32 :=
      wrap_eq_sub (by decide) hover (by omega)
    rw [hwrap, hkernel, hsim, simStore_neg_eq_iff q ht]
    exact ⟨fun h _ => h, fun h => h ⟨hpos, hover⟩⟩
  · have hwrap : wrap 32 (p + 2 ^ (t - 1)) = p + 2 ^ (t - 1) :=
      wrap_eq_self (by decide) ⟨by omega, by omega⟩
    rw [hwrap]
    exact iff_of_true rfl fun h => absurd h.2 hover

/-- A left shift, or none, within the width of the register. -/
private theorem simElement_eq_kernelElement_of_nonpos (q : QuantBlock) (hlo : -31 ≤ shift)
    (hnot : ¬0 < shift) (multiplier acc : ℤ) :
    ∃ v, q.simElement multiplier shift acc = .ok v ∧
      q.kernelElement multiplier shift acc = .ok v := by
  rw [QuantBlock.simElement, QuantBlock.kernelElement, kernelStore_eq_simStore, requantizeInt,
    requantizeC, if_neg hnot, if_neg hnot]
  by_cases hneg : shift < 0
  · rw [if_pos hneg, if_pos (by omega)]
    exact exists_map_eq_ok_iff.mpr rfl
  · obtain rfl : shift = 0 := by omega
    rw [if_neg hneg, exists_map_eq_ok_iff, neg_zero, Int.toNat_zero, Int.shiftLeft_zero,
      wrap_eq_self (by decide) (fits_mulQ31 acc multiplier)]

/-- An element comes out alike iff the shift is shorter than the register and no overflow of the
rounding term shows. -/
theorem simElement_eq_kernelElement_iff (q : QuantBlock) (multiplier shift acc : ℤ) :
    (∃ v, q.simElement multiplier shift acc = .ok v ∧
      q.kernelElement multiplier shift acc = .ok v) ↔
      -31 ≤ shift ∧ shift ≤ 31 ∧ (Overflows multiplier shift acc → q.Absorbs shift) := by
  by_cases hhi : shift ≤ 31
  · by_cases hlo : -31 ≤ shift
    · by_cases hpos : 0 < shift
      · obtain ⟨t, rfl⟩ : ∃ t : ℕ, shift = t := ⟨shift.toNat, by omega⟩
        rw [simElement_eq_kernelElement_of_pos q (by omega) (by omega)]
        simp only [hlo, hhi, true_and]
      · refine iff_of_true (simElement_eq_kernelElement_of_nonpos q hlo hpos multiplier acc) ?_
        exact ⟨hlo, hhi, fun h => absurd h.1 hpos⟩
    · refine iff_of_false ?_ fun h => hlo h.1
      rintro ⟨v, -, hkernel⟩
      rw [QuantBlock.kernelElement, requantizeC, if_neg (by omega), if_pos (by omega),
        if_neg (by omega)] at hkernel
      cases hkernel
  · refine iff_of_false ?_ fun h => hhi h.2.1
    rintro ⟨v, hsim, -⟩
    have hnot : ¬Fits 32 (2 ^ (shift.toNat - 1)) := by
      rw [fits_roundTerm_iff (by omega)]
      omega
    rw [QuantBlock.simElement, requantizeInt, if_pos (by omega), if_neg hnot] at hsim
    cases hsim

end ModelBlaster.Extract

/-! ## Accuracy of the requantisation -/

namespace ModelBlaster.Extract

open Rounding TwosComplement

/-! ### The multiplier and the shift -/

section Decomposition

variable {K : Type} [Field K] [LinearOrder K] [IsStrictOrderedRing K] [FloorRing K] {r : K}

/-- The mantissa is at least a half and less than one. -/
theorem mantissa_bounds (hr : 0 < r) :
    1 / 2 ≤ r / ((2 : ℕ) : K) ^ (Int.log 2 r + 1) ∧ r / ((2 : ℕ) : K) ^ (Int.log 2 r + 1) < 1 := by
  have hpos : (0 : K) < ((2 : ℕ) : K) ^ (Int.log 2 r + 1) := by positivity
  have hlo : ((2 : ℕ) : K) ^ Int.log 2 r ≤ r := Int.zpow_log_le_self Nat.one_lt_two hr
  constructor
  · rw [le_div_iff₀ hpos, zpow_add_one₀ (by norm_num)]
    push_cast at hlo ⊢
    linarith
  · rw [div_lt_one hpos]
    exact Int.lt_zpow_succ_log_self Nat.one_lt_two r

/-- The mantissa with 31 fractional bits. -/
def roundedMantissa (r : K) : ℤ :=
  halfEven (r / ((2 : ℕ) : K) ^ (Int.log 2 r + 1) * ((2 : ℕ) : K) ^ 31)

/-- The rounded mantissa has 31 bits, or is the next power of two. With its exponent it is the
factor, up to half of its last bit. -/
theorem roundedMantissa_close (hr : 0 < r) :
    2 ^ 30 ≤ roundedMantissa r ∧ roundedMantissa r ≤ 2 ^ 31 ∧
      |r - roundedMantissa r * 2 ^ (Int.log 2 r + 1 - 31)| ≤ 2 ^ (Int.log 2 r + 1 - 32) := by
  obtain ⟨hlo, hhi⟩ := mantissa_bounds hr
  have hround := nearest_halfEven (r / ((2 : ℕ) : K) ^ (Int.log 2 r + 1) * ((2 : ℕ) : K) ^ 31)
  have hr' : r = r / ((2 : ℕ) : K) ^ (Int.log 2 r + 1) * 2 ^ (Int.log 2 r + 1) := by
    push_cast
    field_simp
  unfold roundedMantissa
  generalize Int.log 2 r + 1 = exp at hlo hhi hround hr' ⊢
  generalize r / ((2 : ℕ) : K) ^ exp = mantissa at hlo hhi hround hr' ⊢
  generalize halfEven (mantissa * ((2 : ℕ) : K) ^ 31) = multiplier at hround ⊢
  rw [Nearest, abs_le] at hround
  refine ⟨?_, ?_, ?_⟩
  · have hlt : ((2 ^ 30 - 1 : ℤ) : K) < multiplier := by
      push_cast
      linarith
    have := Int.cast_lt.mp hlt
    omega
  · have hlt : (multiplier : K) < ((2 ^ 31 + 1 : ℤ) : K) := by
      push_cast
      linarith
    have := Int.cast_lt.mp hlt
    omega
  · have hpos : (0 : K) < 2 ^ (exp - 31) := by positivity
    have hpow : (2 : K) ^ exp = 2 ^ 31 * 2 ^ (exp - 31) := by
      rw [← zpow_natCast, ← zpow_add₀ two_ne_zero]
      congr 1
      omega
    have hhalf : (2 : K) ^ (exp - 32) = 1 / 2 * 2 ^ (exp - 31) := by
      rw [show exp - 31 = exp - 32 + 1 by omega, zpow_add_one₀ two_ne_zero]
      ring
    have hsplit : r - multiplier * 2 ^ (exp - 31) =
        (mantissa * 2 ^ 31 - multiplier) * 2 ^ (exp - 31) := by
      rw [hr', hpow]
      ring
    rw [hsplit, abs_mul, abs_of_pos hpos, hhalf]
    exact mul_le_mul_of_nonneg_right (abs_le.mpr hround) hpos.le

/-- A mantissa that is rounded up to the next power of two is halved. The bound of an `int32` is
never met. -/
theorem requantizeMultiplierShift_eq (hr : 0 < r) :
    requantizeMultiplierShift r =
      if roundedMantissa r = 2 ^ 31 then (2 ^ 30, -(Int.log 2 r + 1 + 1))
      else (roundedMantissa r, -(Int.log 2 r + 1)) := by
  obtain ⟨-, hle, -⟩ := roundedMantissa_close hr
  rw [requantizeMultiplierShift, if_neg (not_le.mpr hr)]
  dsimp only
  rw [← roundedMantissa]
  by_cases hcarry : roundedMantissa r = 2 ^ 31
  · rw [if_pos hcarry, if_pos hcarry, hcarry]
    rfl
  · rw [if_neg hcarry, if_neg hcarry]
    rw [if_neg (by omega)]

/-- The multiplier has 31 bits. Times the power of two of the shift it is the factor, up to half of
its last bit. -/
theorem requantizeMultiplierShift_close (hr : 0 < r) :
    2 ^ 30 ≤ (requantizeMultiplierShift r).1 ∧ (requantizeMultiplierShift r).1 < 2 ^ 31 ∧
      |r - (requantizeMultiplierShift r).1 * 2 ^ (-(31 + (requantizeMultiplierShift r).2))| ≤
        2 ^ (-(32 + (requantizeMultiplierShift r).2)) := by
  obtain ⟨hlo, hhi, hclose⟩ := roundedMantissa_close hr
  rw [requantizeMultiplierShift_eq hr]
  generalize Int.log 2 r + 1 = exp at hclose ⊢
  by_cases hcarry : roundedMantissa r = 2 ^ 31
  · rw [hcarry] at hclose
    rw [if_pos hcarry, show -(31 + -(exp + 1)) = exp - 31 + 1 by omega,
      show -(32 + -(exp + 1)) = exp - 32 + 1 by omega, zpow_add_one₀ two_ne_zero,
      zpow_add_one₀ two_ne_zero]
    refine ⟨le_rfl, (by decide : (2 ^ 30 : ℤ) < 2 ^ 31), ?_⟩
    have hsame : (((2 ^ 30 : ℤ) : K)) * (2 ^ (exp - 31) * 2) =
        ((2 ^ 31 : ℤ) : K) * 2 ^ (exp - 31) := by
      ring
    have hpos : (0 : K) < 2 ^ (exp - 32) := by positivity
    rw [hsame]
    linarith
  · rw [if_neg hcarry, show -(31 + -exp) = exp - 31 by omega,
      show -(32 + -exp) = exp - 32 by omega]
    exact ⟨hlo, by omega, hclose⟩

end Decomposition

/-! ### The tail -/

/-- No intermediate of the tail leaves an `int32`: the rounding term, the product with that term,
and the product shifted to the left. -/
structure StaysInt32 (acc multiplier shift : ℤ) : Prop where
  roundTerm : 0 < shift → Fits 32 (2 ^ (shift.toNat - 1))
  sum : 0 < shift → Fits 32 (roundShift (acc * multiplier) 31 + 2 ^ (shift.toNat - 1))
  shifted : shift ≤ 0 → Fits 32 (roundShift (acc * multiplier) 31 * 2 ^ (-shift).toNat)

/-- The two roundings, on integers without bounds. -/
def requantized (acc multiplier shift : ℤ) : ℤ :=
  roundShift (roundShift (acc * multiplier) 31) shift.toNat * 2 ^ (-shift).toNat

variable {acc multiplier shift : ℤ}

/-- The product does not leave the register. -/
theorem mulQ31_eq (hacc : Fits 32 acc) (hlo : 0 ≤ multiplier) (hhi : multiplier < 2 ^ 31) :
    mulQ31 acc multiplier = roundShift (acc * multiplier) 31 := by
  obtain ⟨hacclo, hacchi⟩ := hacc
  have hprodlo : -2 ^ 31 * multiplier ≤ acc * multiplier := mul_le_mul_of_nonneg_right hacclo hlo
  have hprodhi : acc * multiplier ≤ 2 ^ 31 * multiplier :=
    mul_le_mul_of_nonneg_right (le_of_lt hacchi) hlo
  have hround : roundShift (acc * multiplier) 31 = (acc * multiplier + 2 ^ 30) / 2 ^ 31 :=
    roundShift_eq _ (by decide)
  have hprod : wrap 64 (acc * multiplier) = acc * multiplier :=
    wrap_eq_self (by decide) ⟨by omega, by omega⟩
  have hsum : wrap 64 (acc * multiplier + 2 ^ 30) = acc * multiplier + 2 ^ 30 :=
    wrap_eq_self (by decide) ⟨by omega, by omega⟩
  rw [mulQ31, hprod, hsum, Int.shiftRight_eq_div_pow, hround]
  exact wrap_eq_self (by decide) ⟨by omega, by omega⟩

/-- Without overflow the tail is the two roundings. -/
theorem requantizeInt_eq (hacc : Fits 32 acc) (hlo : 0 ≤ multiplier) (hhi : multiplier < 2 ^ 31)
    (h : StaysInt32 acc multiplier shift) :
    requantizeInt acc multiplier shift = .ok (requantized acc multiplier shift) := by
  rw [requantizeInt, mulQ31_eq hacc hlo hhi, requantized]
  by_cases hpos : 0 < shift
  · have hright : (-shift).toNat = 0 := by omega
    rw [if_pos hpos, if_pos (h.roundTerm hpos), wrap_eq_self (by decide) (h.sum hpos),
      Int.shiftRight_eq_div_pow, hright, pow_zero, mul_one,
      roundShift_eq _ (by omega : 0 < shift.toNat), Nat.cast_pow, Nat.cast_ofNat]
  · have hleft : shift.toNat = 0 := by omega
    rw [if_neg hpos, Int.shiftLeft_eq, hleft, roundShift_zero,
      wrap_eq_self (by decide) (h.shifted (not_lt.mp hpos))]

/-- The two roundings are monotone. -/
theorem requantized_mono {acc' : ℤ} (shift : ℤ) (hmul : 0 ≤ multiplier) (h : acc ≤ acc') :
    requantized acc multiplier shift ≤ requantized acc' multiplier shift := by
  have hprod : acc * multiplier ≤ acc' * multiplier := mul_le_mul_of_nonneg_right h hmul
  exact mul_le_mul_of_nonneg_right (roundShift_mono _ (roundShift_mono _ hprod)) (by positivity)

/-- For right shifts, the result is at a distance of one at most from the product with a factor that
the multiplier and the shift stand for up to half of the last bit. -/
theorem abs_sub_requantized_le {r : ℚ} (hacc : Fits 32 acc) (hshift : 0 ≤ shift)
    (hclose : |r - multiplier * 2 ^ (-(31 + shift))| ≤ 2 ^ (-(32 + shift))) :
    |acc * r - requantized acc multiplier shift| ≤ 1 := by
  obtain ⟨t, rfl⟩ := Int.eq_ofNat_of_zero_le hshift
  have hleft : (-(t : ℤ)).toNat = 0 := by omega
  rw [requantized, hleft, pow_zero, mul_one, Int.toNat_natCast]
  -- The accumulator multiplies the error of the factor by `2 ^ 31` at most.
  have hfactor : |(acc : ℚ) * r - (acc * multiplier : ℤ) / 2 ^ (31 + t)| ≤ 1 / 2 / 2 ^ t := by
    have hneg : (2 : ℚ) ^ (-(31 + (t : ℤ))) = 1 / 2 ^ (31 + t) := by
      rw [zpow_neg, one_div]
      norm_cast
    have hneg' : (2 : ℚ) ^ (-(32 + (t : ℤ))) = 1 / (2 ^ 32 * 2 ^ t) := by
      rw [zpow_neg, one_div, ← pow_add]
      norm_cast
    have hacc' : |(acc : ℚ)| ≤ 2 ^ 31 := by
      have : |acc| ≤ 2 ^ 31 := abs_le.mpr ⟨hacc.1, le_of_lt hacc.2⟩
      exact_mod_cast this
    have hsplit : (acc : ℚ) * r - (acc * multiplier : ℤ) / 2 ^ (31 + t) =
        acc * (r - multiplier * 2 ^ (-(31 + (t : ℤ)))) := by
      rw [hneg]
      push_cast
      ring
    rw [hneg'] at hclose
    calc |(acc : ℚ) * r - (acc * multiplier : ℤ) / 2 ^ (31 + t)|
        = |(acc : ℚ)| * |r - multiplier * 2 ^ (-(31 + (t : ℤ)))| := by rw [hsplit, abs_mul]
      _ ≤ 2 ^ 31 * (1 / (2 ^ 32 * 2 ^ t)) :=
        mul_le_mul hacc' hclose (abs_nonneg _) (by positivity)
      _ = 1 / 2 / 2 ^ t := by field_simp
  have hround := @abs_sub_roundShift_roundShift_le ℚ _ _ _ (acc * multiplier) 31 t
  have htotal : (1 / 2 / 2 ^ t : ℚ) + (1 / 2 / 2 ^ t + if t = 0 then 0 else 1 / 2) ≤ 1 := by
    split_ifs with ht
    · subst ht
      norm_num
    · have htwo : (2 : ℚ) ≤ 2 ^ t := le_self_pow₀ (by norm_num) ht
      have hquarter : (1 / 2 / 2 ^ t : ℚ) ≤ 1 / 2 / 2 :=
        div_le_div_of_nonneg_left (by norm_num) (by norm_num) htwo
      linarith
  exact (abs_sub_le _ _ _).trans ((add_le_add hfactor hround).trans htotal)

/-- A third is `1431655765` with a shift by one. -/
theorem requantizeMultiplierShift_third :
    requantizeMultiplierShift (1 / 3 : ℚ) = (1431655765, 1) := by
  have hlog : Int.log 2 (1 / 3 : ℚ) = -2 := by
    rw [Int.log_of_right_le_one _ (by norm_num)]
    norm_num
  have hround : roundedMantissa (1 / 3 : ℚ) = 1431655765 := by
    have hfloor : ⌊(4294967296 / 3 : ℚ)⌋ = 1431655765 := by
      norm_num
    rw [roundedMantissa, hlog, halfEven]
    norm_num [Int.fract, hfloor]
  rw [requantizeMultiplierShift_eq (by norm_num), hround, hlog]
  decide

/-- For a positive factor, the multiplier has 31 bits and is, with the shift, the factor up to half
of the last bit. While nothing leaves the register, the tail is monotone, and for right shifts its
result is one of the neighbours of the correctly rounded product, or that product. -/
theorem requantize_accurate {r : ℚ} (hr : 0 < r) {multiplier shift : ℤ}
    (h : requantizeMultiplierShift r = (multiplier, shift)) :
    (2 ^ 30 ≤ multiplier ∧ multiplier < 2 ^ 31) ∧
      |r - multiplier * 2 ^ (-(31 + shift))| ≤ 2 ^ (-(32 + shift)) ∧
      (∀ acc, Fits 32 acc → StaysInt32 acc multiplier shift →
        ∃ y, requantizeInt acc multiplier shift = .ok y ∧
          (-shift < 32 → requantizePcC acc multiplier shift = .ok y) ∧
          (0 ≤ shift → |y - halfEven (acc * r)| ≤ 1 ∧
            ∀ z, Nearest (acc * r) z → |y - z| ≤ 1)) ∧
      ∀ acc acc' y y', Fits 32 acc → StaysInt32 acc multiplier shift → Fits 32 acc' →
        StaysInt32 acc' multiplier shift → acc ≤ acc' →
        requantizeInt acc multiplier shift = .ok y →
        requantizeInt acc' multiplier shift = .ok y' → y ≤ y' := by
  have hclose := requantizeMultiplierShift_close hr
  rw [h] at hclose
  obtain ⟨hlo, hhi, herror⟩ := hclose
  have hpos : 0 ≤ multiplier := le_trans (by decide) hlo
  refine ⟨⟨hlo, hhi⟩, herror, ?_, ?_⟩
  · intro acc hacc hstays
    have hy := requantizeInt_eq hacc hpos hhi hstays
    refine ⟨_, hy, ?_, ?_⟩
    · intro hleft
      have hright : shift ≤ 31 := by
        by_contra hlong
        have := (fits_roundTerm_iff (by omega : 0 < shift.toNat)).mp (hstays.roundTerm (by omega))
        omega
      obtain ⟨v, hint, hc⟩ :=
        requantizeInt_eq_requantizePcC (by omega : -31 ≤ shift) hright acc multiplier
      rw [hy] at hint
      rw [hc, ← Except.ok.inj hint]
    · intro hright
      have hone := abs_sub_requantized_le hacc hright herror
      exact ⟨(nearest_halfEven _).abs_sub_le hone, fun z hz => hz.abs_sub_le hone⟩
  · intro acc acc' y y' hacc hstays hacc' hstays' hle hy hy'
    rw [requantizeInt_eq hacc hpos hhi hstays] at hy
    rw [requantizeInt_eq hacc' hpos hhi hstays'] at hy'
    rw [← Except.ok.inj hy, ← Except.ok.inj hy']
    exact requantized_mono shift hpos hle

/-- For a third, the tail takes `100` to a neighbour of the third of `100`. -/
theorem requantize_accurate_third :
    |(1 / 3 : ℚ) - (1431655765 : ℤ) * 2 ^ (-(31 + 1) : ℤ)| ≤ 2 ^ (-(32 + 1) : ℤ) ∧
      ∃ y, requantizeInt 100 1431655765 1 = .ok y ∧
        requantizePcC 100 1431655765 1 = .ok y ∧ |y - halfEven ((100 : ℤ) * (1 / 3 : ℚ))| ≤ 1 := by
  obtain ⟨-, hclose, htail, -⟩ :=
    requantize_accurate (by norm_num : (0 : ℚ) < 1 / 3) requantizeMultiplierShift_third
  obtain ⟨y, hint, hc, hone⟩ :=
    htail 100 (by decide) ⟨by decide, by decide, by decide⟩
  exact ⟨hclose, y, hint, hc (by decide), (hone (by decide)).1⟩

end ModelBlaster.Extract
