import ModelBlaster.Runtime.Pool
import Mathlib.Tactic.Positivity
import ModelBlaster.Library.Strided

/-!
# Sharded convolutions

The entry points that run a convolution as shards over its output channels. A shard calls the
kernel with its own weights, the operands of its channels, and the address of its first output
plane. The output is `[N, OC, OH, OW]`, and the address of a plane is computed for one batch.

The kernels are parameters. A kernel for `oc` channels writes a dense `[N, oc, OH, OW]` block, and
an output element depends on the operands of its own channel.

## Main definitions

* `kernelWrites`: the writes of a kernel call;
* `sharded`: what the entry points have in common;
* `parallelConv2dS8Sharded`, `parallelConv2dBnS8Sharded`, `parallelConv2dBnSiluS8Sharded`;
* `chunkCall`: a slice by ceiling division;
* `runSlices`: what the wrappers have in common;
* `parallelLinear`, `parallelLinearS8`, `parallelConv2d`, `parallelConv2dS8`.

## Main results

* `sharded_eq_full_iff`: when the shards write what one call over all channels writes;
* `sharded_eq_serial_iff`: the same for the three entry points;
* `flatMap_chunkCall`: the slices are the whole, in order;
* `parallel_eq_serial`: the wrappers leave what one call leaves.
-/

namespace ModelBlaster

open Pool List

/-- The sizes that a convolution kernel is called with. -/
structure ConvGeometry where
  N : ℕ
  IC : ℕ
  IH : ℕ
  IW : ℕ
  KH : ℕ
  KW : ℕ
  SH : ℕ
  SW : ℕ
  PH : ℕ
  PW : ℕ
deriving DecidableEq, Repr

/-- `OH`, with the division of C. -/
def ConvGeometry.OH (g : ConvGeometry) : ℕ :=
  (((g.IH : ℤ) + 2 * g.PH - g.KH).tdiv g.SH + 1).toNat

/-- `OW`, with the division of C. -/
def ConvGeometry.OW (g : ConvGeometry) : ℕ :=
  (((g.IW : ℤ) + 2 * g.PW - g.KW).tdiv g.SW + 1).toNat

/-- The elements of an output plane, `per_oc_out`. -/
def ConvGeometry.plane (g : ConvGeometry) : ℕ := g.OH * g.OW

variable {Chan Val : Type}

/-- The writes of a kernel call for `oc` channels with the output at address `out`. Element `p` of
the plane of channel `j` in batch `n` has the value `element (chan j) n p`. -/
def kernelWrites (element : Chan → ℕ → ℕ → Val) (chan : ℕ → Chan) (N oc plane out : ℕ) :
    List (ℕ × Val) :=
  (List.range N).flatMap fun n => (List.range oc).flatMap fun j =>
    (List.range plane).map fun p => (out + (n * oc + j) * plane + p, element (chan j) n p)

/-- The writes of a shard: the kernel call for `ocPer` channels from `oc0` on, whose operands the
shard hands over. -/
def shardFn (element : Chan → ℕ → ℕ → Val) (chan : ℕ → ℕ → Chan) (g : ConvGeometry)
    (ocPer out i : ℕ) : List (ℕ × Val) :=
  let oc0 := i * ocPer
  kernelWrites element (chan i) g.N ocPer g.plane (out + oc0 * g.plane)

/-- The memories that a sharded entry point can leave. The pool is the number of its threads, or
`none` for `NULL`; `usePool` is `MODELBLASTER_USE_POOL`. -/
def sharded (usePool : Bool) (pool : Option ℕ) (element : Chan → ℕ → ℕ → Val)
    (chan : ℕ → ℕ → Chan) (g : ConvGeometry) (nShards ocPer out : ℕ) (m m' : ℕ → Val) : Prop :=
  let serial := m' = writeAll m ((List.range nShards).flatMap (shardFn element chan g ocPer out))
  match usePool, pool with
  | true, some threads =>
    if g.N = 1 ∧ 1 < threads then
      Parallelize1d threads (shardFn element chan g ocPer out) nShards m m'
    else serial
  | _, _ => serial

/-! ### The three entry points -/

section EntryPoints

variable {Filter Bias Scale : Type}

/-- The operands of a channel of `kernel_conv2d_s8`. -/
structure ConvChannel (Filter Bias : Type) where
  /-- The filter of the channel. -/
  w : Filter
  /-- The bias of the channel, unless the bias array is `NULL`. -/
  b : Option Bias
deriving DecidableEq, Repr

/-- The operands of a channel of the kernels with a batch norm. -/
structure ConvBnChannel (Filter Bias Scale : Type) extends ConvChannel Filter Bias where
  /-- The scale of the batch norm. -/
  bnScale : Scale
  /-- The bias of the batch norm. -/
  bnBias : Scale
deriving DecidableEq, Repr

/-- The operands that `kernel_conv2d_s8` reads for channel `j` of the arrays it is called with. -/
def convChannel (w : ℕ → Filter) (b : Option (ℕ → Bias)) (j : ℕ) : ConvChannel Filter Bias where
  w := w j
  b := b.map fun b => b j

/-- The operands that the kernels with a batch norm read for channel `j`. -/
def convBnChannel (w : ℕ → Filter) (b : Option (ℕ → Bias)) (bnScale bnBias : ℕ → Scale) (j : ℕ) :
    ConvBnChannel Filter Bias Scale where
  toConvChannel := convChannel w b j
  bnScale := bnScale j
  bnBias := bnBias j

/-- `c->w_shards[i], c->b ? c->b + oc0 : NULL` -/
def convShardChannel (wShards : ℕ → ℕ → Filter) (b : Option (ℕ → Bias)) (ocPer i : ℕ) :
    ℕ → ConvChannel Filter Bias :=
  let oc0 := i * ocPer
  convChannel (wShards i) (b.map fun b j => b (oc0 + j))

/-- The same with `c->bn_scale + oc0, c->bn_bias + oc0`. -/
def convBnShardChannel (wShards : ℕ → ℕ → Filter) (b : Option (ℕ → Bias))
    (bnScale bnBias : ℕ → Scale) (ocPer i : ℕ) : ℕ → ConvBnChannel Filter Bias Scale :=
  let oc0 := i * ocPer
  convBnChannel (wShards i) (b.map fun b j => b (oc0 + j)) (fun j => bnScale (oc0 + j))
    (fun j => bnBias (oc0 + j))

/-- `parallel_conv2d_s8_sharded` -/
def parallelConv2dS8Sharded (usePool : Bool) (pool : Option ℕ)
    (element : ConvChannel Filter Bias → ℕ → ℕ → Val) (wShards : ℕ → ℕ → Filter)
    (nShards ocPer : ℕ) (b : Option (ℕ → Bias)) (out : ℕ) (g : ConvGeometry) (m m' : ℕ → Val) :
    Prop :=
  sharded usePool pool element (convShardChannel wShards b ocPer) g nShards ocPer out m m'

/-- `parallel_conv2d_bn_s8_sharded` -/
def parallelConv2dBnS8Sharded (usePool : Bool) (pool : Option ℕ)
    (element : ConvBnChannel Filter Bias Scale → ℕ → ℕ → Val) (wShards : ℕ → ℕ → Filter)
    (nShards ocPer : ℕ) (b : Option (ℕ → Bias)) (bnScale bnBias : ℕ → Scale) (out : ℕ)
    (g : ConvGeometry) (m m' : ℕ → Val) : Prop :=
  sharded usePool pool element (convBnShardChannel wShards b bnScale bnBias ocPer) g nShards ocPer
    out m m'

/-- `parallel_conv2d_bn_silu_s8_sharded`, which hands four parameters of the activation more to
its kernel. -/
def parallelConv2dBnSiluS8Sharded (usePool : Bool) (pool : Option ℕ)
    (element : ConvBnChannel Filter Bias Scale → ℕ → ℕ → Val) (wShards : ℕ → ℕ → Filter)
    (nShards ocPer : ℕ) (b : Option (ℕ → Bias)) (bnScale bnBias : ℕ → Scale) (out : ℕ)
    (g : ConvGeometry) (m m' : ℕ → Val) : Prop :=
  sharded usePool pool element (convBnShardChannel wShards b bnScale bnBias ocPer) g nShards ocPer
    out m m'

/-- The weight arrays of the shards: `arr[t * oc_per:(t + 1) * oc_per]` of the full array. -/
def sliceFilters (w : ℕ → Filter) (ocPer t j : ℕ) : Filter := w (t * ocPer + j)

end EntryPoints

/-! ### Shards against one call -/

/-- A loop over `a * b` indices as two nested loops. -/
private theorem flatMap_range_mul {α : Type} (a b : ℕ) (f : ℕ → List α) :
    (List.range (a * b)).flatMap f =
      (List.range a).flatMap fun i => (List.range b).flatMap fun j => f (i * b + j) := by
  induction a with
  | zero => simp
  | succ a ih =>
    rw [Nat.succ_mul, range_add, flatMap_append, ih, range_succ,
      flatMap_append, flatMap_singleton, flatMap_map]

/-- The same for a function of the index. -/
private theorem map_range_mul {α : Type} (a b : ℕ) (f : ℕ → α) :
    (List.range (a * b)).map f =
      (List.range a).flatMap fun i => (List.range b).map fun j => f (i * b + j) := by
  rw [map_eq_flatMap, flatMap_range_mul]
  simp only [map_eq_flatMap]

variable {element : Chan → ℕ → ℕ → Val} {chan : ℕ → Chan}

/-- A kernel call writes a dense block. -/
theorem map_fst_kernelWrites (N oc plane out : ℕ) :
    (kernelWrites element chan N oc plane out).map Prod.fst =
      (List.range (N * oc * plane)).map (out + ·) := by
  calc (kernelWrites element chan N oc plane out).map Prod.fst
      = (List.range N).flatMap fun n => (List.range oc).flatMap fun j =>
          (List.range plane).map fun p => out + (n * oc + j) * plane + p := by
        simp [kernelWrites, map_flatMap, Function.comp_def]
    _ = (List.range (N * oc)).flatMap fun c =>
          (List.range plane).map fun p => out + c * plane + p := by
        rw [flatMap_range_mul]
    _ = (List.range (N * oc * plane)).map (out + ·) := by
        rw [map_range_mul]
        simp only [Nat.add_assoc]

/-- No element is written twice by a kernel call. -/
theorem nodup_kernelWrites (N oc plane out : ℕ) :
    ((kernelWrites element chan N oc plane out).map Prod.fst).Nodup := by
  rw [map_fst_kernelWrites]
  exact nodup_range.map (fun a b h => Nat.add_left_cancel h)

/-- A kernel call without elements writes nothing. -/
private theorem kernelWrites_eq_nil {N oc plane : ℕ} (out : ℕ) (h : N * oc * plane = 0) :
    kernelWrites element chan N oc plane out = [] := by
  rw [← map_eq_nil_iff (f := Prod.fst), map_fst_kernelWrites, h]
  rfl

/-- For one batch, the shards write what one call over all channels writes, in the same order. -/
theorem flatMap_shardFn (g : ConvGeometry) (nShards ocPer out : ℕ) (hN : g.N = 1) :
    (List.range nShards).flatMap
        (shardFn element (fun i j => chan (i * ocPer + j)) g ocPer out) =
      kernelWrites element chan g.N (nShards * ocPer) g.plane out := by
  have hone : ∀ (oc base : ℕ) (chan : ℕ → Chan), kernelWrites element chan 1 oc g.plane base =
      (List.range oc).flatMap fun j =>
        (List.range g.plane).map fun p => (base + j * g.plane + p, element (chan j) 0 p) := by
    intro oc base chan
    simp [kernelWrites]
  unfold shardFn
  rw [hN, hone, flatMap_range_mul]
  congr 1
  funext i
  rw [hone]
  simp only [Nat.add_mul, Nat.add_assoc]

/-- The shards write what one call writes, in the same order, if there is one batch at most, or one
shard at most, or nothing to write. -/
private theorem flatMap_shardFn_of_cond {g : ConvGeometry} {nShards ocPer : ℕ} (out : ℕ)
    (h : g.N ≤ 1 ∨ nShards ≤ 1 ∨ ocPer = 0 ∨ g.plane = 0) :
    (List.range nShards).flatMap
        (shardFn element (fun i j => chan (i * ocPer + j)) g ocPer out) =
      kernelWrites element chan g.N (nShards * ocPer) g.plane out := by
  have hempty : g.N * ocPer * g.plane = 0 → (List.range nShards).flatMap
      (shardFn element (fun i j => chan (i * ocPer + j)) g ocPer out) =
        kernelWrites element chan g.N (nShards * ocPer) g.plane out := by
    intro hzero
    have hfull : g.N * (nShards * ocPer) * g.plane = 0 := by
      rw [show g.N * (nShards * ocPer) * g.plane = nShards * (g.N * ocPer * g.plane) by ring, hzero,
        Nat.mul_zero]
    rw [kernelWrites_eq_nil out hfull, flatMap_eq_nil_iff]
    exact fun i _ => kernelWrites_eq_nil _ hzero
  rcases h with hN | hn | hoc | hplane
  · rcases Nat.le_one_iff_eq_zero_or_eq_one.mp hN with hN | hN
    · exact hempty (by simp [hN])
    · exact flatMap_shardFn g nShards ocPer out hN
  · rcases Nat.le_one_iff_eq_zero_or_eq_one.mp hn with rfl | rfl
    · simp [kernelWrites]
    · simp [shardFn]
  · exact hempty (by simp [hoc])
  · exact hempty (by simp [hplane])

/-- The shards write within the block that starts with the last of them. -/
private theorem lt_of_mem_shards {chan : ℕ → ℕ → Chan} {g : ConvGeometry} {nShards ocPer out a : ℕ}
    (h : a ∈ ((List.range nShards).flatMap (shardFn element chan g ocPer out)).map Prod.fst) :
    a < out + (nShards - 1 + g.N) * (ocPer * g.plane) := by
  obtain ⟨w, hw, rfl⟩ := mem_map.mp h
  obtain ⟨i, hi, hmem⟩ := mem_flatMap.mp hw
  have hfst := mem_map_of_mem (f := Prod.fst) hmem
  rw [shardFn, map_fst_kernelWrites] at hfst
  obtain ⟨x, hx, heq⟩ := mem_map.mp hfst
  rw [mem_range] at hi hx
  rw [← heq]
  have hle : i * (ocPer * g.plane) ≤ (nShards - 1) * (ocPer * g.plane) :=
    Nat.mul_le_mul_right _ (by omega)
  rw [Nat.add_mul]
  rw [Nat.mul_assoc] at hx
  rw [Nat.mul_assoc]
  omega

/-- Two batches and two shards: the last element is left out. -/
private theorem last_not_written {N n q : ℕ} (hN : 2 ≤ N) (hn : 2 ≤ n) (hq : 1 ≤ q) :
    (n - 1 + N) * q ≤ N * n * q - 1 := by
  obtain ⟨N, rfl⟩ := Nat.exists_eq_add_of_le' hN
  obtain ⟨n, rfl⟩ := Nat.exists_eq_add_of_le' hn
  have hmul : (N + 2) * (n + 2) * q = (n + 2 - 1 + (N + 2)) * q + (N * n + N + n + 1) * q := by
    have : n + 2 - 1 = n + 1 := rfl
    rw [this]
    ring
  have hpos : 1 ≤ (N * n + N + n + 1) * q := Nat.one_le_iff_ne_zero.mpr (by positivity)
  omega

/-- Whatever the kernel computes, the shards leave the memory of one call over all channels iff
there is one batch at most, or one shard at most, or nothing to write. -/
theorem sharded_eq_full_iff [Nontrivial Val] (usePool : Bool) (pool : Option ℕ) (chan : ℕ → Chan)
    (g : ConvGeometry) (nShards ocPer out : ℕ) :
    (∀ (element : Chan → ℕ → ℕ → Val) (m m' : ℕ → Val),
      sharded usePool pool element (fun i j => chan (i * ocPer + j)) g nShards ocPer out m m' ↔
        m' = writeAll m (kernelWrites element chan g.N (nShards * ocPer) g.plane out)) ↔
      g.N ≤ 1 ∨ nShards ≤ 1 ∨ ocPer = 0 ∨ g.plane = 0 := by
  constructor
  · intro hall
    by_contra hcond
    rw [not_or, not_or, not_or, not_le, not_le] at hcond
    obtain ⟨hN, hn, hoc, hplane⟩ := hcond
    obtain ⟨v, v', hne⟩ := exists_pair_ne Val
    -- With two batches the loop over the shards runs, and misses the last element.
    have hserial := (hall (fun _ _ _ => v') (fun _ => v) (writeAll (fun _ => v)
      ((List.range nShards).flatMap (shardFn (fun _ _ _ => v') (fun i j => chan (i * ocPer + j)) g
        ocPer out)))).mp (by
          unfold sharded
          split
          · rw [if_neg (by omega)]
          · rfl)
    have hq : 1 ≤ ocPer * g.plane := Nat.one_le_iff_ne_zero.mpr (Nat.mul_ne_zero hoc hplane)
    have hlast := last_not_written hN hn hq
    have hsize : g.N * (nShards * ocPer) * g.plane = g.N * nShards * (ocPer * g.plane) := by ring
    have hpos : 1 ≤ g.N * nShards * (ocPer * g.plane) := Nat.one_le_iff_ne_zero.mpr (by positivity)
    apply hne
    have hnot : out + (g.N * nShards * (ocPer * g.plane) - 1) ∉
        ((List.range nShards).flatMap (shardFn (fun _ _ _ => v')
          (fun i j => chan (i * ocPer + j)) g ocPer out)).map Prod.fst := by
      intro hmem
      have := lt_of_mem_shards hmem
      omega
    have hmem : out + (g.N * nShards * (ocPer * g.plane) - 1) ∈
        (kernelWrites (fun _ _ _ => v') chan g.N (nShards * ocPer) g.plane out).map Prod.fst := by
      rw [map_fst_kernelWrites, hsize]
      exact mem_map_of_mem (mem_range.mpr (by omega))
    obtain ⟨⟨a, u⟩, hu, ha⟩ := mem_map.mp hmem
    have hvalue : u = v' := by
      simp only [kernelWrites, mem_flatMap, mem_map, Prod.mk.injEq] at hu
      obtain ⟨-, -, -, -, -, -, -, rfl⟩ := hu
      rfl
    have hat := congrFun hserial a
    rw [writeAll_of_mem (nodup_kernelWrites ..) hu, writeAll_of_notMem (by rwa [← ha] at hnot), hvalue] at hat
    exact hat
  · intro hcond element m m'
    have hloop := @flatMap_shardFn_of_cond Chan Val element chan g nShards ocPer out hcond
    unfold sharded
    split
    · split_ifs
      · rw [parallelize1d_iff, hloop]
        rw [hloop]
        exact nodup_kernelWrites ..
      · rw [hloop]
    · rw [hloop]

section EntryPoints

variable {Filter Bias Scale : Type}

/-- A shard hands over the operands of its own channels. -/
private theorem convShardChannel_slice (w : ℕ → Filter) (b : Option (ℕ → Bias)) (ocPer : ℕ) :
    convShardChannel (sliceFilters w ocPer) b ocPer = fun i j => convChannel w b (i * ocPer + j) := by
  funext i j
  cases b <;> rfl

/-- The same with a batch norm. -/
private theorem convBnShardChannel_slice (w : ℕ → Filter) (b : Option (ℕ → Bias))
    (bnScale bnBias : ℕ → Scale) (ocPer : ℕ) :
    convBnShardChannel (sliceFilters w ocPer) b bnScale bnBias ocPer =
      fun i j => convBnChannel w b bnScale bnBias (i * ocPer + j) := by
  funext i j
  cases b <;> rfl

/-- For every pool and every number of shards that divides the output channels, the three entry
points leave the memory that one call of their kernel over all channels leaves, whatever the
kernel computes, iff there is one batch at most, one shard at most, or nothing to write. -/
theorem sharded_eq_serial_iff (usePool : Bool) (pool : Option ℕ) (g : ConvGeometry)
    (OC nShards out : ℕ) (hdvd : nShards ∣ OC) (w : ℕ → Filter) (b : Option (ℕ → Bias))
    (bnScale bnBias : ℕ → Scale) :
    ((∀ (element : ConvChannel Filter Bias → ℕ → ℕ → Int8) (m m' : ℕ → Int8),
        parallelConv2dS8Sharded usePool pool element (sliceFilters w (OC / nShards)) nShards
            (OC / nShards) b out g m m' ↔
          m' = writeAll m (kernelWrites element (convChannel w b) g.N OC g.plane out)) ↔
      g.N ≤ 1 ∨ nShards ≤ 1 ∨ OC = 0 ∨ g.plane = 0) ∧
    ((∀ (element : ConvBnChannel Filter Bias Scale → ℕ → ℕ → Int8) (m m' : ℕ → Int8),
        parallelConv2dBnS8Sharded usePool pool element (sliceFilters w (OC / nShards)) nShards
            (OC / nShards) b bnScale bnBias out g m m' ↔
          m' = writeAll m
            (kernelWrites element (convBnChannel w b bnScale bnBias) g.N OC g.plane out)) ↔
      g.N ≤ 1 ∨ nShards ≤ 1 ∨ OC = 0 ∨ g.plane = 0) ∧
    ((∀ (element : ConvBnChannel Filter Bias Scale → ℕ → ℕ → Int8) (m m' : ℕ → Int8),
        parallelConv2dBnSiluS8Sharded usePool pool element (sliceFilters w (OC / nShards)) nShards
            (OC / nShards) b bnScale bnBias out g m m' ↔
          m' = writeAll m
            (kernelWrites element (convBnChannel w b bnScale bnBias) g.N OC g.plane out)) ↔
      g.N ≤ 1 ∨ nShards ≤ 1 ∨ OC = 0 ∨ g.plane = 0) := by
  have hnontrivial : Nontrivial Int8 := ⟨0, 1, by decide⟩
  have hmul : nShards * (OC / nShards) = OC := Nat.mul_div_cancel' hdvd
  have hcond : g.N ≤ 1 ∨ nShards ≤ 1 ∨ OC / nShards = 0 ∨ g.plane = 0 ↔
      g.N ≤ 1 ∨ nShards ≤ 1 ∨ OC = 0 ∨ g.plane = 0 := by
    have hzero : OC = 0 ↔ nShards = 0 ∨ OC / nShards = 0 := by
      rw [← Nat.mul_eq_zero, hmul]
    omega
  have hone := @sharded_eq_full_iff _ Int8 _ usePool pool (convChannel w b) g nShards
    (OC / nShards) out
  have hbn := @sharded_eq_full_iff _ Int8 _ usePool pool (convBnChannel w b bnScale bnBias) g
    nShards (OC / nShards) out
  rw [hmul, hcond, ← convShardChannel_slice] at hone
  rw [hmul, hcond, ← convBnShardChannel_slice] at hbn
  exact ⟨hone, hbn, hbn⟩

/-- The condition is met for one batch and four shards of eight channels. -/
theorem sharded_eq_serial_iff_one_batch :
    ((1 : ℕ) ≤ 1 ∨ 4 ≤ 1 ∨ 8 = 0 ∨ (⟨1, 3, 8, 8, 3, 3, 1, 1, 1, 1⟩ : ConvGeometry).plane = 0) ∧
    ∀ (element : ConvChannel Unit ℤ → ℕ → ℕ → Int8) (m m' : ℕ → Int8),
      parallelConv2dS8Sharded true (some 4) element (sliceFilters (fun _ => ()) 2) 4 2 none 0
          ⟨1, 3, 8, 8, 3, 3, 1, 1, 1, 1⟩ m m' ↔
        m' = writeAll m (kernelWrites element (convChannel (fun _ => ()) none) 1 8
          (⟨1, 3, 8, 8, 3, 3, 1, 1, 1, 1⟩ : ConvGeometry).plane 0) :=
  ⟨Or.inl le_rfl, (sharded_eq_serial_iff true (some 4)
    ⟨1, 3, 8, 8, 3, 3, 1, 1, 1, 1⟩ 8 4 0 (by decide) (fun _ => ()) none (fun _ => 0)
    (fun _ => (0 : ℤ))).1.mpr (Or.inl le_rfl)⟩

end EntryPoints

/-- Two batches, two output channels, one shard each, planes of one element. A kernel that writes
ones leaves four of them, the shards only three. -/
theorem two_batches_overlap :
    let g : ConvGeometry := ⟨2, 1, 1, 1, 1, 1, 1, 1, 0, 0⟩
    let element : ConvChannel Unit Unit → ℕ → ℕ → Int8 := fun _ _ _ => 1
    let full := writeAll (fun _ => 0) (kernelWrites element (convChannel (fun _ => ()) none) 2 2 1 0)
    ∃ m', parallelConv2dS8Sharded true none element (sliceFilters (fun _ => ()) 1) 2 1 none 0 g
        (fun _ => 0) m' ∧
      (List.range 4).map m' = [1, 1, 1, 0] ∧ (List.range 4).map full = [1, 1, 1, 1] := by
  refine ⟨_, rfl, ?_, ?_⟩ <;> decide

end ModelBlaster

/-! ## Parallel wrappers -/

namespace ModelBlaster

open Pool List

variable {Call In W B Val : Type}

/-! ### Slices -/

/-- The call of slice `i` of `chunks`, for the part from `lo` to `hi`. A slice may be empty. -/
def chunkCall (total chunks i : ℕ) (part : ℕ → ℕ → Call) : Option Call :=
  let per := (total + chunks - 1) / chunks
  let lo := i * per
  let hi := min (lo + per) total
  if hi ≤ lo then none else some (part lo hi)

/-- The calls that a wrapper makes. For a number of threads, `split` gives the slices, or none where
the kernel is called once. -/
def callsOf (usePool : Bool) (pool : Option ℕ) (split : ℕ → Option (ℕ → Option Call))
    (call : Call) : List Call :=
  match usePool, pool with
  | true, some T =>
    match split T with
    | some fn => (List.range T).filterMap fn
    | none => [call]
  | _, _ => [call]

/-- The memories that a wrapper can leave, where `writes` are the writes of a call of the kernel.
The pool is the number of its threads, or `none`; `usePool` is `MODELBLASTER_USE_POOL`. -/
def runSlices (usePool : Bool) (pool : Option ℕ) (writes : Call → List (ℕ × Val))
    (split : ℕ → Option (ℕ → Option Call)) (call : Call) (m m' : ℕ → Val) : Prop :=
  match usePool, pool with
  | true, some T =>
    match split T with
    | some fn => Parallelize1d T (fun i => (fn i).toList.flatMap writes) T m m'
    | none => m' = writeAll m (writes call)
  | _, _ => m' = writeAll m (writes call)

/-- The elements of row `i` of a matrix with `width` columns. -/
def matRow {α : Type} (a : ℕ → α) (i width : ℕ) : List α :=
  (List.range width).map fun k => a (i * width + k)

/-- A pointer that is moved by rows. -/
theorem matRow_add {α : Type} (a : ℕ → α) (i j width : ℕ) :
    matRow (fun x => a (i * width + x)) j width = matRow a (i + j) width := by
  simp only [matRow, Nat.add_mul, Nat.add_assoc]

/-! ### Linear layers -/

/-- The arguments of `kernel_linear` and `kernel_linear_s8` that slices change. -/
structure LinearCall (In W B : Type) where
  input : ℕ → In
  w : ℕ → W
  /-- The bias array, unless it is `NULL`. -/
  b : Option (ℕ → B)
  out : ℕ
  M : ℕ
  K : ℕ
  N : ℕ

/-- The writes of a call. -/
def LinearCall.writes (element : List In → List W → Option B → Val) (c : LinearCall In W B) :
    List (ℕ × Val) :=
  (List.range c.M).flatMap fun m => (List.range c.N).map fun n =>
    (c.out + (m * c.N + n), element (matRow c.input m c.K) (matRow c.w n c.K) (c.b.map (· n)))

/-- The call for the rows from `m0` to `m1`. -/
def LinearCall.rows (c : LinearCall In W B) (m0 m1 : ℕ) : LinearCall In W B :=
  { c with
    input := fun x => c.input (m0 * c.K + x)
    out := c.out + m0 * c.N
    M := m1 - m0 }

/-- The call for the columns from `n0` to `n1`. -/
def LinearCall.columns (c : LinearCall In W B) (n0 n1 : ℕ) : LinearCall In W B :=
  { c with
    w := fun x => c.w (n0 * c.K + x)
    b := c.b.map fun b x => b (n0 + x)
    out := c.out + n0
    N := n1 - n0 }

/-- `parallel_linear_fn` -/
def parallelLinearFn (c : LinearCall In W B) (chunks i : ℕ) : Option (LinearCall In W B) :=
  chunkCall c.N chunks i c.columns

/-- When `parallel_linear` hands slices to a pool of `T` threads. -/
def parallelLinearSplit (c : LinearCall In W B) (T : ℕ) :
    Option (ℕ → Option (LinearCall In W B)) :=
  if c.M ≠ 1 then none
  else if T ≤ 1 ∨ c.N < T then none
  else some (parallelLinearFn c T)

/-- `parallel_linear` -/
def parallelLinear (usePool : Bool) (pool : Option ℕ)
    (element : List In → List W → Option B → Val) (c : LinearCall In W B) (m m' : ℕ → Val) :
    Prop :=
  runSlices usePool pool (LinearCall.writes element) (parallelLinearSplit c) c m m'

/-- `parallel_linear_s8_fn` -/
def parallelLinearS8Fn (c : LinearCall In W B) (chunks : ℕ) (splitM : Bool) (i : ℕ) :
    Option (LinearCall In W B) :=
  if splitM then chunkCall c.M chunks i c.rows else chunkCall c.N chunks i c.columns

/-- When `parallel_linear_s8` hands slices to a pool of `T` threads. -/
def parallelLinearS8Split (c : LinearCall In W B) (T : ℕ) :
    Option (ℕ → Option (LinearCall In W B)) :=
  let splitM : Bool := 1 < c.M ∧ T ≤ c.M
  let splittable : Bool := splitM ∨ c.M = 1 ∧ T ≤ c.N
  if T ≤ 1 ∨ !splittable then none else some (parallelLinearS8Fn c T splitM)

/-- `parallel_linear_s8`. The numbers of the quantisation go to every slice as they are. -/
def parallelLinearS8 (usePool : Bool) (pool : Option ℕ)
    (element : List In → List W → Option B → Val) (c : LinearCall In W B) (m m' : ℕ → Val) :
    Prop :=
  runSlices usePool pool (LinearCall.writes element) (parallelLinearS8Split c) c m m'

/-! ### Convolutions -/

/-- The arguments of `kernel_conv2d` and `kernel_conv2d_s8` that slices change, and the input. -/
structure Conv2dCall (In W B : Type) where
  input : ℕ → In
  w : ℕ → W
  /-- The bias array, unless it is `NULL`. -/
  b : Option (ℕ → B)
  out : ℕ
  OC : ℕ

/-- `per_filter` -/
def ConvGeometry.perFilter (g : ConvGeometry) : ℕ := g.IC * g.KH * g.KW

/-- The elements of an output plane of `kernel_conv2d`, with its dilation. -/
def ConvGeometry.dilatedPlane (g : ConvGeometry) (DH DW : ℕ) : ℕ :=
  (((g.IH : ℤ) + 2 * g.PH - DH * ((g.KH : ℤ) - 1) - 1).tdiv g.SH + 1).toNat *
    (((g.IW : ℤ) + 2 * g.PW - DW * ((g.KW : ℤ) - 1) - 1).tdiv g.SW + 1).toNat

/-- The writes of a call with output planes of `plane` elements. Element `p` of a plane in batch `n`
depends on the input, on the filter of its channel and on the bias there. -/
def Conv2dCall.writes (element : (ℕ → In) → List W → Option B → ℕ → ℕ → Val) (g : ConvGeometry)
    (plane : ℕ) (c : Conv2dCall In W B) : List (ℕ × Val) :=
  kernelWrites (fun chan : List W × Option B => element c.input chan.1 chan.2)
    (fun j => (matRow c.w j g.perFilter, c.b.map (· j))) g.N c.OC plane c.out

/-- The call for the channels from `oc0` to `oc1`. -/
def Conv2dCall.channels (g : ConvGeometry) (plane : ℕ) (c : Conv2dCall In W B) (oc0 oc1 : ℕ) :
    Conv2dCall In W B :=
  { c with
    w := fun x => c.w (oc0 * g.perFilter + x)
    b := c.b.map fun b x => b (oc0 + x)
    out := c.out + oc0 * plane
    OC := oc1 - oc0 }

/-- `parallel_conv2d_fn` and `parallel_conv2d_s8_fn` -/
def parallelConvFn (g : ConvGeometry) (plane : ℕ) (c : Conv2dCall In W B) (chunks i : ℕ) :
    Option (Conv2dCall In W B) :=
  chunkCall c.OC chunks i (c.channels g plane)

/-- When the wrappers of the convolutions hand slices to a pool of `T` threads. -/
def parallelConvSplit (g : ConvGeometry) (plane : ℕ) (c : Conv2dCall In W B) (T : ℕ) :
    Option (ℕ → Option (Conv2dCall In W B)) :=
  if g.N ≠ 1 then none
  else if T ≤ 1 ∨ c.OC < T then none
  else some (parallelConvFn g plane c T)

/-- `parallel_conv2d` -/
def parallelConv2d (usePool : Bool) (pool : Option ℕ)
    (element : (ℕ → In) → List W → Option B → ℕ → ℕ → Val) (g : ConvGeometry) (DH DW : ℕ)
    (c : Conv2dCall In W B) (m m' : ℕ → Val) : Prop :=
  runSlices usePool pool (Conv2dCall.writes element g (g.dilatedPlane DH DW))
    (parallelConvSplit g (g.dilatedPlane DH DW) c) c m m'

/-- `parallel_conv2d_s8` -/
def parallelConv2dS8 (usePool : Bool) (pool : Option ℕ)
    (element : (ℕ → In) → List W → Option B → ℕ → ℕ → Val) (g : ConvGeometry)
    (c : Conv2dCall In W B) (m m' : ℕ → Val) : Prop :=
  runSlices usePool pool (Conv2dCall.writes element g g.plane) (parallelConvSplit g g.plane c) c
    m m'

/-! ### Slices against one call -/

/-- The slices are the whole, in order. `item` are the writes for one index of the split axis. -/
theorem flatMap_chunkCall {α : Type} {total chunks : ℕ} (hchunks : 0 < chunks) {part : ℕ → ℕ → Call}
    {writes : Call → List α} {item : ℕ → List α}
    (hpart : ∀ lo hi, writes (part lo hi) = (List.range' lo (hi - lo)).flatMap item) :
    (List.range chunks).flatMap (fun i => (chunkCall total chunks i part).toList.flatMap writes) =
      (List.range total).flatMap item := by
  -- The first `k` slices are the indices below `k * per`, as far as there are any.
  have hfirst : ∀ k, (List.range k).flatMap
      (fun i => (chunkCall total chunks i part).toList.flatMap writes) =
        (List.range (min (k * ((total + chunks - 1) / chunks)) total)).flatMap item := by
    intro k
    induction k with
    | zero => simp
    | succ k ih =>
      rw [range_succ, flatMap_append, ih, flatMap_singleton, Nat.succ_mul, chunkCall]
      generalize k * ((total + chunks - 1) / chunks) = lo
      generalize (total + chunks - 1) / chunks = per
      split_ifs with hempty
      · have hsame : min (lo + per) total = min lo total := by omega
        rw [hsame, Option.toList_none, flatMap_nil, append_nil]
      · have hlo : min lo total = lo := by omega
        have hjoin : List.range (min (lo + per) total) =
            List.range lo ++ List.range' lo (min (lo + per) total - lo) := by
          rw [range_eq_range', range_eq_range']
          have happend := @List.range'_append_1 0 lo (min (lo + per) total - lo)
          rw [Nat.zero_add] at happend
          rw [happend]
          congr 1
          omega
        rw [hlo, hjoin, flatMap_append, Option.toList_some, flatMap_singleton, hpart]
  have hall : total ≤ chunks * ((total + chunks - 1) / chunks) := by
    have hdiv := Nat.div_add_mod (total + chunks - 1) chunks
    have hmod := Nat.mod_lt (total + chunks - 1) hchunks
    omega
  rw [hfirst, min_eq_right hall]

/-- The calls write the elements of one call, each of them once: `total` elements from `out` on. -/
structure Partitions (writes : Call → List (ℕ × Val)) (calls : List Call) (call : Call)
    (out total : ℕ) : Prop where
  /-- The values, too, are those of the one call. -/
  all : calls.flatMap writes = writes call
  disjoint : calls.Pairwise fun c d => ((writes c).map Prod.fst).Disjoint ((writes d).map Prod.fst)
  cover : (writes call).map Prod.fst = (List.range total).map (out + ·)

variable {usePool : Bool} {pool : Option ℕ} {writes : Call → List (ℕ × Val)}
  {split : ℕ → Option (ℕ → Option Call)} {call : Call} {out total : ℕ}

/-- What is left to show for a wrapper: its slices are the whole. -/
theorem partitions_callsOf (hcover : (writes call).map Prod.fst = (List.range total).map (out + ·))
    (hsplit : ∀ T fn, split T = some fn →
      (List.range T).flatMap (fun i => (fn i).toList.flatMap writes) = writes call) :
    Partitions writes (callsOf usePool pool split call) call out total ∧
      ∀ m m', runSlices usePool pool writes split call m m' ↔ m' = writeAll m (writes call) := by
  have hnodup : ((writes call).map Prod.fst).Nodup := by
    rw [hcover]
    exact nodup_range.map fun a b h => Nat.add_left_cancel h
  have hall : (callsOf usePool pool split call).flatMap writes = writes call := by
    unfold callsOf
    split
    · rename_i T
      split
      · rename_i fn hfn
        rw [← hsplit T fn hfn, filterMap_eq_flatMap_toList, flatMap_assoc]
      · exact flatMap_singleton ..
    · exact flatMap_singleton ..
  refine ⟨⟨hall, ?_, hcover⟩, ?_⟩
  · rw [← hall, map_flatMap, nodup_flatMap] at hnodup
    exact hnodup.2
  · intro m m'
    unfold runSlices
    split
    · rename_i T
      split
      · rename_i fn hfn
        rw [← hsplit T fn hfn] at hnodup
        rw [parallelize1d_iff hnodup, hsplit T fn hfn]
      · rfl
    · rfl

/-! ### Slices of a linear layer -/

section Linear

variable (element : List In → List W → Option B → Val) (c : LinearCall In W B)

/-- The writes of a call for one row. -/
def LinearCall.row (m : ℕ) : List (ℕ × Val) :=
  (List.range c.N).map fun n =>
    (c.out + (m * c.N + n), element (matRow c.input m c.K) (matRow c.w n c.K) (c.b.map (· n)))

/-- A slice of rows reads and writes the rows. -/
theorem LinearCall.writes_rows (m0 m1 : ℕ) :
    (c.rows m0 m1).writes element = (List.range' m0 (m1 - m0)).flatMap (c.row element) := by
  rw [range'_eq_map_range, flatMap_map]
  simp only [writes, rows, row, matRow_add, Nat.add_mul, Nat.add_assoc]

/-- With one row, a slice of columns reads and writes the columns. -/
theorem LinearCall.writes_columns (hM : c.M = 1) (n0 n1 : ℕ) :
    (c.columns n0 n1).writes element = (List.range' n0 (n1 - n0)).flatMap fun n =>
      [(c.out + n, element (matRow c.input 0 c.K) (matRow c.w n c.K) (c.b.map (· n)))] := by
  rw [range'_eq_map_range, flatMap_map, ← map_eq_flatMap]
  simp only [writes, columns, hM, range_one, flatMap_singleton, matRow_add, Nat.zero_mul,
    Nat.zero_add, Nat.add_assoc, Option.map_map, Function.comp_def]

/-- A call with one row. -/
theorem LinearCall.writes_of_one_row (hM : c.M = 1) :
    c.writes element = (List.range c.N).flatMap fun n =>
      [(c.out + n, element (matRow c.input 0 c.K) (matRow c.w n c.K) (c.b.map (· n)))] := by
  rw [← map_eq_flatMap]
  simp only [writes, hM, range_one, flatMap_singleton, Nat.zero_mul, Nat.zero_add]

/-- A call writes a dense matrix. -/
theorem LinearCall.map_fst_writes :
    (c.writes element).map Prod.fst = (List.range (c.M * c.N)).map (c.out + ·) := by
  rw [writes, map_flatMap, map_eq_flatMap (l := List.range (c.M * c.N)), Strided.flatMap_range_mul]
  simp [Function.comp_def, ← map_eq_flatMap]

variable {T : ℕ} {fn : ℕ → Option (LinearCall In W B)}

/-- The slices of `parallel_linear`. -/
theorem flatMap_parallelLinearSplit (h : parallelLinearSplit c T = some fn) :
    (List.range T).flatMap (fun i => (fn i).toList.flatMap (LinearCall.writes element)) =
      c.writes element := by
  unfold parallelLinearSplit at h
  split_ifs at h with hM hT
  obtain rfl := Option.some.inj h
  rw [c.writes_of_one_row element (not_not.mp hM)]
  exact flatMap_chunkCall (by omega) (c.writes_columns element (not_not.mp hM))

/-- The slices of `parallel_linear_s8`, over either axis. -/
theorem flatMap_parallelLinearS8Split (h : parallelLinearS8Split c T = some fn) :
    (List.range T).flatMap (fun i => (fn i).toList.flatMap (LinearCall.writes element)) =
      c.writes element := by
  unfold parallelLinearS8Split at h
  dsimp only at h
  split_ifs at h with hserial
  obtain rfl := Option.some.inj h
  simp only [not_or, not_le, Bool.not_eq_true', Bool.not_eq_false, decide_eq_true_eq] at hserial
  obtain ⟨hT, hsplit⟩ := hserial
  by_cases hrows : 1 < c.M ∧ T ≤ c.M
  · simp only [parallelLinearS8Fn, hrows, and_self, decide_true, if_true]
    exact flatMap_chunkCall (by omega) (c.writes_rows element)
  · have hM : c.M = 1 := (hsplit.resolve_left hrows).1
    simp only [parallelLinearS8Fn, hrows, decide_false]
    rw [c.writes_of_one_row element hM]
    exact flatMap_chunkCall (by omega) (c.writes_columns element hM)

end Linear

/-! ### Slices of a convolution -/

section Conv

variable (element : (ℕ → In) → List W → Option B → ℕ → ℕ → Val) (g : ConvGeometry) (plane : ℕ)
  (c : Conv2dCall In W B)

/-- The writes of a call for one channel of the first batch. -/
def Conv2dCall.channel (j : ℕ) : List (ℕ × Val) :=
  (List.range plane).map fun p =>
    (c.out + j * plane + p, element c.input (matRow c.w j g.perFilter) (c.b.map (· j)) 0 p)

/-- With one batch, a slice of channels reads and writes the channels. -/
theorem Conv2dCall.writes_channels (hN : g.N = 1) (oc0 oc1 : ℕ) :
    (c.channels g plane oc0 oc1).writes element g plane =
      (List.range' oc0 (oc1 - oc0)).flatMap (c.channel element g plane) := by
  rw [range'_eq_map_range, flatMap_map]
  simp only [writes, kernelWrites, channels, channel, hN, range_one, flatMap_singleton,
    matRow_add, Nat.zero_mul, Nat.zero_add, Nat.add_mul, Nat.add_assoc, Option.map_map,
    Function.comp_def]

/-- A call with one batch. -/
theorem Conv2dCall.writes_of_one_batch (hN : g.N = 1) :
    c.writes element g plane = (List.range c.OC).flatMap (c.channel element g plane) := by
  simp only [writes, kernelWrites, hN, range_one, flatMap_singleton, Nat.zero_mul, Nat.zero_add]
  rfl

/-- The slices of `parallel_conv2d` and `parallel_conv2d_s8`. -/
theorem flatMap_parallelConvSplit {T : ℕ} {fn : ℕ → Option (Conv2dCall In W B)}
    (h : parallelConvSplit g plane c T = some fn) :
    (List.range T).flatMap (fun i => (fn i).toList.flatMap (Conv2dCall.writes element g plane)) =
      c.writes element g plane := by
  unfold parallelConvSplit at h
  split_ifs at h with hN hT
  obtain rfl := Option.some.inj h
  rw [c.writes_of_one_batch element g plane (not_not.mp hN)]
  exact flatMap_chunkCall (by omega) (c.writes_channels element g plane (not_not.mp hN))

end Conv

/-- For all sizes, threads and orders, the wrappers call the kernel on slices whose writes are those
of one call, each element once, and leave what that call leaves. -/
theorem parallel_eq_serial (usePool : Bool) (pool : Option ℕ) :
    (∀ (element : List In → List W → Option B → Val) (c : LinearCall In W B),
      Partitions (LinearCall.writes element) (callsOf usePool pool (parallelLinearSplit c) c) c
          c.out (c.M * c.N) ∧
        ∀ m m', parallelLinear usePool pool element c m m' ↔ m' = writeAll m (c.writes element)) ∧
    (∀ (element : List In → List W → Option B → Val) (c : LinearCall In W B),
      Partitions (LinearCall.writes element) (callsOf usePool pool (parallelLinearS8Split c) c) c
          c.out (c.M * c.N) ∧
        ∀ m m', parallelLinearS8 usePool pool element c m m' ↔
          m' = writeAll m (c.writes element)) ∧
    (∀ (element : (ℕ → In) → List W → Option B → ℕ → ℕ → Val) (g : ConvGeometry) (DH DW : ℕ)
        (c : Conv2dCall In W B),
      Partitions (Conv2dCall.writes element g (g.dilatedPlane DH DW))
          (callsOf usePool pool (parallelConvSplit g (g.dilatedPlane DH DW) c) c) c
          c.out (g.N * c.OC * g.dilatedPlane DH DW) ∧
        ∀ m m', parallelConv2d usePool pool element g DH DW c m m' ↔
          m' = writeAll m (c.writes element g (g.dilatedPlane DH DW))) ∧
    (∀ (element : (ℕ → In) → List W → Option B → ℕ → ℕ → Val) (g : ConvGeometry)
        (c : Conv2dCall In W B),
      Partitions (Conv2dCall.writes element g g.plane)
          (callsOf usePool pool (parallelConvSplit g g.plane c) c) c c.out
          (g.N * c.OC * g.plane) ∧
        ∀ m m', parallelConv2dS8 usePool pool element g c m m' ↔
          m' = writeAll m (c.writes element g g.plane)) := by
  refine ⟨?_, ?_, ?_, ?_⟩
  · intro element c
    exact partitions_callsOf (c.map_fst_writes element)
      fun _ _ h => flatMap_parallelLinearSplit element c h
  · intro element c
    exact partitions_callsOf (c.map_fst_writes element)
      fun _ _ h => flatMap_parallelLinearS8Split element c h
  · intro element g DH DW c
    exact partitions_callsOf (map_fst_kernelWrites ..)
      fun _ _ h => flatMap_parallelConvSplit element g (g.dilatedPlane DH DW) c h
  · intro element g c
    exact partitions_callsOf (map_fst_kernelWrites ..)
      fun _ _ h => flatMap_parallelConvSplit element g g.plane c h

end ModelBlaster
