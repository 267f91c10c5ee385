import ModelBlaster.Library.PyStr
import ModelBlaster.Lowering.Movement

/-!
# What the emitted ops compute

A temporary has a name that nothing else has, so ops leave what is there. A concatenation by groups
of eight is the concatenation. A view, or a strided copy of merged axes, reads the positions of the
box that it is made for.

## Main definitions

* `Step`: ops are emitted that run, and leave the tensors that are there;
* `Holds`: a tensor has data of some length;
* `mergeDimsAll`, `padDimsAll`: `_merge_dims` and `_pad6`, with any number of operands;
* `ewise2Dims`, `runEwise2`: what `ewise2` emits, and what its kernel writes.

## Main results

* `catn_spec`, `flattenRoots_spec`: the sources, one after the other;
* `copyAffine_spec`: the elements at the positions of a box;
* `eq_of_affine`: what is found to be affine is so;
* `mergedDims_exact`: merged axes give the positions that the axes gave;
* `runEwise2_eq`: an elementwise op reads the broadcast elements of its operands.
-/

namespace ModelBlaster.Lowering

open TwosComplement List

variable {consts : PyDict String ConstData} {base : String}

/-! ### Running ops -/

theorem evalOps_append (ops ops' : List LoweredOp) (σ : Store) :
    evalOps consts (ops ++ ops') σ = (evalOps consts ops σ).bind (evalOps consts ops') := by
  induction ops generalizing σ with
  | nil => rfl
  | cons op ops ih =>
    rw [cons_append, evalOps, evalOps]
    cases evalOp consts σ op with
    | none => rfl
    | some res => exact ih _

/-- The name of a temporary. -/
def tempName (base : String) (k : ℕ) : String := base ++ "__g" ++ toString k

/-- The temporaries that are not made yet are no tensors. -/
def FreshFrom (base : String) (st : LowerState) : Prop :=
  ∀ k, st.tmp < k → st.tensors.get? (tempName base k) = none

/-- Ops are emitted. They run, and the tensors that are there stay as they are. -/
structure Step (consts : PyDict String ConstData) (base : String) (st st' : LowerState)
    (σ σ' : Store) : Prop where
  ops : ∃ ops, st'.ops = st.ops ++ ops ∧ evalOps consts ops σ = some σ'
  frame : ∀ t, (st.tensors.get? t).isSome → σ' t = σ t
  kept : ∀ t, (st.tensors.get? t).isSome → (st'.tensors.get? t).isSome
  fresh : FreshFrom base st → FreshFrom base st'
  consts_eq : st'.consts = st.consts

theorem Step.refl (st : LowerState) (σ : Store) : Step consts base st st σ σ :=
  ⟨⟨[], (append_nil _).symm, rfl⟩, fun _ _ => rfl, fun _ h => h, fun h => h, rfl⟩

theorem Step.trans {st₁ st₂ st₃ : LowerState} {σ₁ σ₂ σ₃ : Store}
    (h : Step consts base st₁ st₂ σ₁ σ₂) (h' : Step consts base st₂ st₃ σ₂ σ₃) :
    Step consts base st₁ st₃ σ₁ σ₃ where
  ops := by
    obtain ⟨ops, hops, hrun⟩ := h.ops
    obtain ⟨ops', hops', hrun'⟩ := h'.ops
    refine ⟨ops ++ ops', by rw [hops', hops, append_assoc], ?_⟩
    rw [evalOps_append, hrun]
    exact hrun'
  frame := fun t ht => (h'.frame t (h.kept t ht)).trans (h.frame t ht)
  kept := fun t ht => h'.kept t (h.kept t ht)
  fresh := fun hf => h'.fresh (h.fresh hf)
  consts_eq := h'.consts_eq.trans h.consts_eq

/-- The tensor has data of the length. -/
structure Holds (consts : PyDict String ConstData) (st : LowerState) (σ : Store)
    (part : String × ℕ) (data : List TorchFloat) : Prop where
  present : (st.tensors.get? part.1).isSome
  read : readTensor consts σ part.1 = some data
  length : data.length = part.2

theorem Holds.step {st st' : LowerState} {σ σ' : Store} {part : String × ℕ} {data : List TorchFloat}
    (h : Holds consts st σ part data) (hstep : Step consts base st st' σ σ') :
    Holds consts st' σ' part data where
  present := hstep.kept _ h.present
  read := by
    unfold readTensor
    rw [hstep.frame _ h.present]
    exact h.read
  length := h.length

variable {st : LowerState} {shape : List ℕ} {σ : Store} {data : List TorchFloat}

/-- An op with a result in a new tensor. -/
theorem step_newTensor (hfresh : FreshFrom base st) {op : LoweredOp}
    (hop : evalOp consts σ op = some ((st.newTensor base shape).1, data)) :
    ∃ σ', Step consts base st ((st.newTensor base shape).2.emit op) σ σ' ∧
      Holds consts ((st.newTensor base shape).2.emit op) σ'
        ((st.newTensor base shape).1, data.length) data := by
  have hnone : st.tensors.get? (tempName base (st.tmp + 1)) = none := hfresh _ (Nat.lt_succ_self _)
  have hinj : ∀ {k l : ℕ}, tempName base k = tempName base l → k = l := by
    intro k l h
    unfold tempName at h
    have hstr : toString k = toString l := by
      have hlist := congrArg String.toList h
      simp only [String.toList_append, append_assoc] at hlist
      exact String.toList_inj.mp (append_cancel_left (append_cancel_left hlist))
    exact Nat.repr_inj.mp hstr
  refine ⟨Function.update σ (tempName base (st.tmp + 1)) (some data), ⟨?_, ?_, ?_, ?_, rfl⟩, ?_⟩
  · refine ⟨[op], rfl, ?_⟩
    rw [evalOps, hop]
    rfl
  · intro t ht
    refine Function.update_of_ne ?_ _ _
    rintro rfl
    rw [hnone] at ht
    cases ht
  · intro t ht
    show ((st.tensors.set (tempName base (st.tmp + 1)) shape).get? t).isSome
    rw [PyDict.get?_set]
    split
    · rfl
    · exact ht
  · intro _ k hk
    show (st.tensors.set (tempName base (st.tmp + 1)) shape).get? (tempName base k) = none
    have hne : tempName base k ≠ tempName base (st.tmp + 1) := by
      intro heq
      have hk' : st.tmp + 1 < k := hk
      exact absurd (hinj heq) (by omega)
    rw [PyDict.get?_set_of_ne _ _ hne]
    exact hfresh k (by have hk' : st.tmp + 1 < k := hk; omega)
  · refine ⟨?_, ?_, rfl⟩
    · show ((st.tensors.set (tempName base (st.tmp + 1)) shape).get? _).isSome
      rw [show (st.newTensor base shape).1 = tempName base (st.tmp + 1) from rfl,
        PyDict.get?_set_self]
      rfl
    · unfold readTensor
      rw [show (st.newTensor base shape).1 = tempName base (st.tmp + 1) from rfl,
        Function.update_self]

/-! ### Reading buffers -/

variable {α β : Type} {items : List (String × NdArray TorchFloat)} {val : NdArray TorchFloat}
  {roots : Roots}

theorem collect_map_some (l : List α) : collect (l.map some) = some l :=
  collect_eq_some_iff.mpr rfl

/-- The elements at all positions of a list. -/
theorem map_range_getElem? (l : List α) :
    (List.range l.length).map (fun i => l[i]?) = l.map some := by
  apply List.ext_getElem
  · simp
  · intro i h _
    simp

theorem map_range_bind (l : List α) (g : α → Option β) :
    (List.range l.length).map (fun i => l[i]?.bind g) = l.map g := by
  have hmap : (List.range l.length).map (fun i => l[i]?.bind g) =
      ((List.range l.length).map fun i => l[i]?).map fun x => x.bind g := by
    rw [map_map]
    rfl
  rw [hmap, map_range_getElem?, map_map]
  rfl

@[simp]
theorem readAt_natCast (data : List TorchFloat) (i : ℕ) : readAt data (i : ℤ) = data[i]? := by
  unfold readAt
  rw [if_pos (Int.natCast_nonneg i), Int.toNat_natCast]

/-! ### Concatenations -/

variable {parts : List (String × ℕ)} {datas : List (List TorchFloat)}

/-- A concatenation of at most eight buffers. -/
theorem evalOp_catn (h : List.Forall₂ (Holds consts st σ) parts datas) (hlen : parts.length ≤ 8)
    (out : String) :
    evalOp consts σ (.catn (parts.map Prod.fst) out 1 1 (parts.map Prod.snd)) =
      some (out, datas.flatten) := by
  have hreads : collect ((parts.map Prod.fst).map (readTensor consts σ)) = some datas := by
    rw [collect_eq_some_iff, map_map]
    clear hlen
    induction h with
    | nil => rfl
    | cons hp _ ih => rw [map_cons, map_cons, ih, ← hp.read]; rfl
  have hslabs : ((datas.zip (parts.map Prod.snd)).flatMap fun dc =>
      (List.range (dc.2 * 1)).map fun j => dc.1[0 * (dc.2 * 1) + j]?) =
        datas.flatten.map some := by
    clear hlen hreads
    induction h with
    | nil => rfl
    | @cons part data parts datas hp _ ih =>
      rw [map_cons, zip_cons_cons, flatMap_cons, ih, flatten_cons, map_append]
      congr 1
      rw [← hp.length, Nat.mul_one, Nat.zero_mul]
      simp only [Nat.zero_add]
      exact map_range_getElem? data
  have hvals : collect ((List.range 1).flatMap fun o =>
      (datas.zip (parts.map Prod.snd)).flatMap fun dc =>
        (List.range (dc.2 * 1)).map fun j => dc.1[o * (dc.2 * 1) + j]?) = some datas.flatten := by
    rw [range_one, flatMap_singleton, hslabs, collect_map_some]
  rw [evalOp, if_neg (by rw [length_map]; omega), hreads, Option.bind_some, hvals]
  rfl

/-- The groups are the parts. -/
theorem flatten_groupsOf8 (l : List α) : (groupsOf8 l).flatten = l := by
  have htake : ∀ n : ℕ, ((List.range n).map fun i => (l.drop (8 * i)).take 8).flatten =
      l.take (8 * n) := by
    intro n
    induction n with
    | zero => rfl
    | succ n ih =>
      rw [range_succ, map_append, flatten_append, ih, map_singleton,
        flatten_singleton, Nat.mul_succ, take_add]
  unfold groupsOf8
  rw [htake, take_of_length_le (by omega)]

theorem length_le_of_mem_groupsOf8 {l group : List α} (h : group ∈ groupsOf8 l) :
    group.length ≤ 8 := by
  obtain ⟨i, -, rfl⟩ := mem_map.mp h
  rw [length_take]
  omega

theorem forall₂_groupsOf8 {R : α → β → Prop} {l : List α} {l' : List β} (h : List.Forall₂ R l l') :
    List.Forall₂ (List.Forall₂ R) (groupsOf8 l) (groupsOf8 l') := by
  unfold groupsOf8
  rw [h.length_eq, forall₂_map_left_iff, forall₂_map_right_iff, forall₂_same]
  exact fun i _ => forall₂_take _ (forall₂_drop _ h)

/-- One concatenation. -/
theorem emitCatn_spec (hfresh : FreshFrom base st)
    (h : List.Forall₂ (Holds consts st σ) parts datas) (hlen : parts.length ≤ 8) (outShape : List ℕ)
    :
    ∃ σ', Step consts base st (emitCatn st base parts 1 1 outShape).2 σ σ' ∧
      Holds consts (emitCatn st base parts 1 1 outShape).2 σ'
        ((emitCatn st base parts 1 1 outShape).1, datas.flatten.length) datas.flatten :=
  step_newTensor hfresh (evalOp_catn h hlen _)

/-- The length of a concatenation. -/
theorem length_flatten_of_holds (h : List.Forall₂ (Holds consts st σ) parts datas) :
    datas.flatten.length = (parts.map Prod.snd).sum := by
  induction h with
  | nil => rfl
  | cons hp _ ih =>
    rw [flatten_cons, length_append, ih, hp.length, map_cons, sum_cons]

/-- One concatenation for each group. -/
theorem catGroups_spec {groups : List (List (String × ℕ))} (hfresh : FreshFrom base st)
    {datas : List (List (List TorchFloat))}
    (h : List.Forall₂ (List.Forall₂ (Holds consts st σ)) groups datas)
    (hlen : ∀ group ∈ groups, group.length ≤ 8) :
    ∃ σ', Step consts base st (catGroups base 1 1 st groups).2 σ σ' ∧
      List.Forall₂ (Holds consts (catGroups base 1 1 st groups).2 σ')
        (catGroups base 1 1 st groups).1 (datas.map List.flatten) := by
  induction groups generalizing st σ datas with
  | nil =>
    cases h
    exact ⟨σ, .refl st σ, .nil⟩
  | cons group groups ih =>
    cases h with
    | @cons _ data _ datas hgroup hgroups =>
      obtain ⟨σ₁, hstep, hholds⟩ := emitCatn_spec hfresh hgroup
        (hlen group mem_cons_self) [1, (group.map Prod.snd).sum, 1]
      rw [length_flatten_of_holds hgroup] at hholds
      obtain ⟨σ₂, hstep', hall⟩ := ih (hstep.fresh hfresh)
        (hgroups.imp fun _ _ hg => hg.imp fun _ _ hp => hp.step hstep)
        fun g hg => hlen g (mem_cons_of_mem _ hg)
      exact ⟨σ₂, hstep.trans hstep', .cons (hholds.step hstep') hall⟩

/-- A concatenation by groups is the concatenation. -/
theorem catn_spec {rounds : ℕ} (hrounds : parts.length ≤ rounds) (hfresh : FreshFrom base st)
    (h : List.Forall₂ (Holds consts st σ) parts datas) (outShape : List ℕ) :
    ∃ σ', Step consts base st (catn base 1 1 outShape rounds parts st).2 σ σ' ∧
      Holds consts (catn base 1 1 outShape rounds parts st).2 σ'
        ((catn base 1 1 outShape rounds parts st).1, datas.flatten.length) datas.flatten := by
  induction rounds generalizing parts st σ datas with
  | zero => exact emitCatn_spec hfresh h (by omega) outShape
  | succ rounds ih =>
    rw [catn]
    split
    · rename_i hlong
      obtain ⟨σ₁, hstep, hholds⟩ := catGroups_spec hfresh (forall₂_groupsOf8 h)
        fun group hg => length_le_of_mem_groupsOf8 hg
      -- there are fewer groups than parts
      have hfew : (catGroups base 1 1 st (groupsOf8 parts)).1.length ≤ rounds := by
        rw [hholds.length_eq, length_map, groupsOf8, length_map, length_range, ← h.length_eq]
        omega
      obtain ⟨σ₂, hstep', hout⟩ := ih hfew (hstep.fresh hfresh) hholds
      have hflat : ((groupsOf8 datas).map List.flatten).flatten = datas.flatten := by
        rw [← flatten_flatten, flatten_groupsOf8]
      rw [hflat] at hout
      exact ⟨σ₂, hstep.trans hstep', hout⟩
    · rename_i hshort
      exact emitCatn_spec hfresh h (by omega) outShape

/-! ### Boxes -/

variable {strides : List ℤ}

theorem map_fst_zip (h : strides.length = shape.length) :
    (shape.zip strides).map Prod.fst = shape := by
  rw [List.map_fst_zip]
  omega

/-- A box in one piece has the positions from its start on. -/
theorem offsets_of_isContiguous {box : List (ℕ × ℤ)} (h : isContiguous box = true) :
    Strided.offsets box =
      (List.range (Strided.offsets box).length).map fun i : ℕ => (i : ℤ) := by
  rcases box with _ | ⟨⟨n, s⟩, _ | ⟨axis, box⟩⟩
  · rfl
  · obtain rfl : s = 1 := of_decide_eq_true h
    rw [Strided.offsets_line, length_map, length_range]
  · cases h

theorem length_offsets_zip (h : strides.length = shape.length) :
    (Strided.offsets (shape.zip strides)).length = shape.prod := by
  rw [Strided.length_offsets, map_fst_zip h]

/-- The elements at the positions of a box. -/
def readBox (data : List TorchFloat) (shape : List ℕ) (off : ℤ) (strides : List ℤ) :
    Option (List TorchFloat) :=
  collect ((Strided.offsets (shape.zip strides)).map fun x => readAt data (off + x))

variable {st' : LowerState} {src out : String} {off : ℤ} {force : Bool}

/-- The op that `copy_affine` emits. -/
theorem copyAffine_eq (consts : PyDict String ConstData) {outName : Option String}
    (h : copyAffine st base src shape off strides outName force = .ok (out, st')) :
    out = (st.outTensor base shape outName).1 ∧
      ∃ op, st' = (st.outTensor base shape outName).2.emit op ∧
        ∀ {σ : Store} {data : List TorchFloat}, strides.length = shape.length →
          readTensor consts σ src = some data →
            evalOp consts σ op = (readBox data shape off strides).map fun vals => (out, vals) := by
  unfold copyAffine at h
  dsimp only at h
  split at h
  · rename_i hview
    obtain ⟨rfl, rfl⟩ := Prod.mk.inj (Except.ok.inj h)
    refine ⟨rfl, _, rfl, fun {σ data} hlen hread => ?_⟩
    -- a view of the positions from `off` on
    have hoffsets : Strided.offsets (shape.zip strides) =
        (List.range shape.prod).map fun i : ℕ => (i : ℤ) := by
      have hmerge := offsets_of_isContiguous hview.1
      unfold mergeDims at hmerge
      rwa [Strided.offsets_merge, length_offsets_zip hlen] at hmerge
    unfold readBox
    rw [evalOp, hread, Option.bind_some, hoffsets, map_map]
    rfl
  · split at h
    · cases h
    · obtain ⟨rfl, rfl⟩ := Prod.mk.inj (Except.ok.inj h)
      refine ⟨rfl, _, rfl, fun {σ data} hlen hread => ?_⟩
      have hzip : ∀ box : List (ℕ × ℤ), (box.map Prod.fst).zip (box.map Prod.snd) = box := by
        intro box
        rw [← unzip_fst, ← unzip_snd, zip_unzip]
      unfold readBox
      rw [evalOp, hread, Option.bind_some, hzip, padDims, Strided.offsets_replicate_append,
        mergeDims, Strided.offsets_merge]

/-- A part of a memory in one piece is all of it. -/
theorem readBox_contiguous (data : List TorchFloat) (h : data.length = shape.prod) :
    readBox data shape 0 (Strided.contiguous shape) = some data := by
  unfold readBox
  rw [Strided.offsets_contiguous, map_map, ← h]
  have hread : (List.range data.length).map
      ((fun x => readAt data (0 + x)) ∘ fun i : ℕ => (i : ℤ)) = data.map some := by
    rw [← map_range_getElem?]
    apply map_congr_left
    intro i _
    show readAt data (0 + (i : ℤ)) = _
    rw [zero_add, readAt_natCast]
  rw [hread, collect_map_some]

/-- A reshaped tensor has the data of the tensor. -/
theorem reshape_spec (hfresh : FreshFrom base st) (hsrc : Holds consts st σ (src, shape.prod) data)
    (h : reshape st base src shape = .ok (out, st')) :
    ∃ σ', Step consts base st st' σ σ' ∧ Holds consts st' σ' (out, shape.prod) data := by
  obtain ⟨rfl, op, rfl, hop⟩ := copyAffine_eq consts h
  have heval := hop (Strided.length_contiguous shape) hsrc.read
  rw [readBox_contiguous data hsrc.length] at heval
  obtain ⟨σ', hstep, hout⟩ := step_newTensor hfresh heval
  rw [hsrc.length] at hout
  exact ⟨σ', hstep, hout⟩

/-- The flat sources have their data. -/
theorem flattenRoots_spec (hfresh : FreshFrom base st)
    (h : List.Forall₂ (fun item data => Holds consts st σ (item.1, item.2.shape.prod) data) items datas)
    (hrun : flattenRoots base items st = .ok (parts, st')) :
    ∃ σ', Step consts base st st' σ σ' ∧ List.Forall₂ (Holds consts st' σ') parts datas := by
  induction items generalizing st σ datas parts with
  | nil =>
    cases h
    obtain ⟨rfl, rfl⟩ := Prod.mk.inj (Except.ok.inj hrun)
    exact ⟨σ, .refl st σ, .nil⟩
  | cons item items ih =>
    obtain ⟨name, a⟩ := item
    cases h with
    | @cons _ data _ datas hitem hitems =>
      unfold flattenRoots at hrun
      split at hrun
      · cases hrest : flattenRoots base items st with
        | error e =>
          rw [hrest] at hrun
          cases hrun
        | ok res =>
          rw [hrest] at hrun
          obtain ⟨rfl, rfl⟩ := Prod.mk.inj (Except.ok.inj hrun)
          obtain ⟨σ', hstep, hall⟩ := ih hfresh hitems hrest
          exact ⟨σ', hstep, .cons (hitem.step hstep) hall⟩
      · cases hshape : reshape st base name [a.shape.prod] with
        | error e =>
          rw [hshape] at hrun
          cases hrun
        | ok res =>
          obtain ⟨t, st₁⟩ := res
          rw [hshape] at hrun
          dsimp only at hrun
          have hprod : ([a.shape.prod] : List ℕ).prod = a.shape.prod := by simp
          obtain ⟨σ₁, hstep₁, hout⟩ := reshape_spec hfresh (hprod ▸ hitem) hshape
          rw [hprod] at hout
          cases hrest : flattenRoots base items st₁ with
          | error e =>
            rw [hrest] at hrun
            cases hrun
          | ok res =>
            rw [hrest] at hrun
            obtain ⟨rfl, rfl⟩ := Prod.mk.inj (Except.ok.inj hrun)
            obtain ⟨σ₂, hstep₂, hall⟩ := ih (hstep₁.fresh hfresh)
              (hitems.imp fun _ _ hp => hp.step hstep₁) hrest
            exact ⟨σ₂, hstep₁.trans hstep₂, .cons (hout.step hstep₂) hall⟩

/-! ### Affine tables -/

variable {idx : List ℤ}

/-- What is found to be affine is so. -/
theorem eq_of_affine (h : affine shape idx = some (off, strides)) : strides.length = shape.length ∧
      idx = (Strided.offsets (shape.zip strides)).map fun x => off + x := by
  unfold affine at h
  cases idx with
  | nil => cases h
  | cons first rest =>
    dsimp only at h
    split at h
    · rename_i heq
      obtain ⟨rfl, rfl⟩ := Prod.mk.inj (Option.some.inj h)
      exact ⟨by rw [length_map, length_zipIdx], heq.symm⟩
    · cases h

/-- What is affine is found to be so. -/
theorem affine_isSome (hlen : strides.length = shape.length) (hpos : ∀ n ∈ shape, 0 < n) (off : ℤ) :
    (affine shape ((Strided.offsets (shape.zip strides)).map fun x => off + x)).isSome := by
  have hhead := Strided.head?_offsets (shape.zip strides) fun axis haxis =>
    hpos _ (of_mem_zip haxis).1
  set idx := (Strided.offsets (shape.zip strides)).map fun x => off + x with hidx
  have hfirst : idx.head? = some off := by
    rw [hidx, head?_map, hhead]
    simp
  obtain ⟨rest, hcons⟩ : ∃ rest, idx = off :: rest := by
    cases h : idx with
    | nil =>
      rw [h] at hfirst
      cases hfirst
    | cons x rest =>
      rw [h] at hfirst
      exact ⟨rest, by rw [Option.some.inj hfirst]⟩
  -- along an axis of more than one element the neighbour gives the stride
  have hstride : ∀ d, shape.getD d 0 ≠ 1 → d < shape.length →
      idx.getD (NdArray.ravel shape (Strided.unit shape.length d)) 0 - off = strides.getD d 0 := by
    intro d hd hlt
    have hget := Strided.getElem?_offsets hlen (Strided.inBounds_unit hpos hd)
    have hunit : Strided.unit shape.length d = Strided.unit strides.length d := by rw [hlen]
    rw [getD_eq_getElem?_getD, hidx, getElem?_map, hget, hunit, Strided.dot_unit]
    simp
  have hgrid : (Strided.offsets (shape.zip (shape.zipIdx.map fun sd =>
      if sd.1 = 1 then 0
      else idx.getD (NdArray.ravel shape (Strided.unit shape.length sd.2)) 0 - off))) =
        Strided.offsets (shape.zip strides) := by
    refine Strided.offsets_congr (by rw [length_map, length_zipIdx]) hlen fun d hd => ?_
    by_cases hlt : d < shape.length
    · rw [getD_eq_getElem?_getD, getElem?_map, getElem?_zipIdx, getElem?_eq_getElem hlt]
      have hne : shape[d] ≠ 1 := by
        rwa [getD_eq_getElem?_getD, getElem?_eq_getElem hlt] at hd
      show (if shape[d] = 1 then 0 else idx.getD (NdArray.ravel shape
        (Strided.unit shape.length (0 + d))) 0 - off) = _
      rw [if_neg hne, Nat.zero_add]
      exact hstride d hd hlt
    · rw [getD_eq_default _ _ (by
          rw [length_map, length_zipIdx]
          omega),
        getD_eq_default _ _ (by omega)]
  unfold affine
  rw [hcons]
  dsimp only
  rw [← hcons, hgrid, if_pos hidx.symm]
  rfl

/-! ### Gathers -/

/-- An element at a decoded index: with a table, through 32 bits, and zero for a negative one. -/
def readIndex (table : Bool) (data : List TorchFloat) (x : ℤ) : Option TorchFloat :=
  if table then if 0 ≤ wrap 32 x then readAt data (wrap 32 x) else some .zero
  else readAt data x

/-- A gather reads its table. -/
theorem evalOp_gather {key : String} (hread : readTensor consts σ src = some data)
    (hkey : consts.get? key = some (.ints (idx.map (wrap 32)))) :
    evalOp consts σ (.gather src key out idx.length) =
      (collect (idx.map (readIndex true data))).map fun vals => (out, vals) := by
  have hmap := map_range_bind (idx.map (wrap 32)) fun x =>
    if 0 ≤ x then readAt data x else some TorchFloat.zero
  rw [length_map, map_map] at hmap
  rw [evalOp, hread, Option.bind_some, hkey]
  dsimp only
  rw [hmap]
  rfl

/-- A gather behind ops that have run. -/
theorem evalOps_emitGather {σ' : Store} {n : ℕ}
    (hstep : Step (emitGather st' base src out idx).consts base st st' σ σ')
    (hsrc : Holds (emitGather st' base src out idx).consts st' σ' (src, n) data) :
    evalOps (emitGather st' base src out idx).consts
        ((emitGather st' base src out idx).ops.drop st.ops.length) σ =
      (collect (idx.map (readIndex true data))).map fun vals =>
        Function.update σ' out (some vals) := by
  obtain ⟨ops, hops, hrun⟩ := hstep.ops
  have hdrop : (emitGather st' base src out idx).ops.drop st.ops.length =
      ops ++ [.gather src (indexName base) out idx.length] := by
    show (st'.ops ++ [_]).drop _ = _
    rw [hops, append_assoc, drop_left]
  rw [hdrop, evalOps_append, hrun, Option.bind_some, evalOps,
    evalOp_gather hsrc.read (PyDict.get?_set_self _ _ _)]
  cases collect (idx.map (readIndex true data)) with
  | none => rfl
  | some vals => rfl

/-! ### The emission of a movement -/

/-- A gather has one table. -/
theorem consts_emitGather (st : LowerState) (src out : String) (idx : List ℤ) {t : String}
    (ht : t ≠ indexName base) :
    (emitGather st base src out idx).consts.get? t = st.consts.get? t :=
  PyDict.get?_set_of_ne _ _ ht

theorem consts_copyAffine (h : copyAffine st base src shape off strides none force = .ok (out, st'))
    :
    st'.consts = st.consts := by
  obtain ⟨-, op, rfl, -⟩ := copyAffine_eq st'.consts h
  rfl

theorem consts_flattenRoots (h : flattenRoots base items st = .ok (parts, st')) :
    st'.consts = st.consts := by
  induction items generalizing st parts with
  | nil =>
    obtain ⟨-, rfl⟩ := Prod.mk.inj (Except.ok.inj h)
    rfl
  | cons item items ih =>
    unfold flattenRoots at h
    split at h
    · split at h
      · cases h
      · rename_i hrest
        obtain ⟨-, rfl⟩ := Prod.mk.inj (Except.ok.inj h)
        exact ih hrest
    · split at h
      · cases h
      · rename_i hshape
        split at h
        · cases h
        · rename_i hrest
          obtain ⟨-, rfl⟩ := Prod.mk.inj (Except.ok.inj h)
          exact (ih hrest).trans (consts_copyAffine hshape)

theorem consts_catGroups (groups : List (List (String × ℕ))) (st : LowerState) :
    (catGroups base 1 1 st groups).2.consts = st.consts := by
  induction groups generalizing st with
  | nil => rfl
  | cons group groups ih => exact ih _

theorem consts_catn (shape : List ℕ) (rounds : ℕ) (parts : List (String × ℕ)) (st : LowerState) :
    (catn base 1 1 shape rounds parts st).2.consts = st.consts := by
  induction rounds generalizing parts st with
  | zero => rfl
  | succ rounds ih =>
    rw [catn]
    split
    · exact (ih _ _).trans (consts_catGroups _ st)
    · rfl

/-- The strided copy of a box into a tensor that is there. -/
theorem evalOps_copyAffine (consts : PyDict String ConstData) {out' : String}
    (hout : (st.tensors.get? out).isSome)
    (hrun : copyAffine st base src shape off strides (some out) force = .ok (out', st'))
    (hlen : strides.length = shape.length) :
    st'.consts = st.consts ∧ ∀ {σ : Store} {data : List TorchFloat},
      readTensor consts σ src = some data →
        evalOps consts (st'.ops.drop st.ops.length) σ =
          (readBox data shape off strides).map fun vals => Function.update σ out (some vals) := by
  obtain ⟨heq, op, rfl, hop⟩ := copyAffine_eq consts hrun
  have htensor : st.outTensor base shape (some out) = (out, st) := by
    unfold LowerState.outTensor
    dsimp only
    rw [if_pos hout]
  rw [htensor] at heq ⊢
  obtain rfl : out' = out := heq
  refine ⟨rfl, fun {σ data} hread => ?_⟩
  have hdrop : (st.emit op).ops.drop st.ops.length = [op] := drop_left
  rw [hdrop, evalOps, hop hlen hread]
  cases readBox data shape off strides with
  | none => rfl
  | some vals => rfl

/-- From one source, the elements are read at the decoded indices. -/
theorem evalOps_emitMoved_one {a : NdArray TorchFloat} (hitems : roots.items = [(src, a)])
    (hout : (st.tensors.get? out).isSome)
    (hrun : emitMoved st base roots val shape out force = .ok st') :
    ∃ table : Bool, (table = false ↔ (∀ x ∈ val.data.map decode, 0 ≤ x) ∧
        (affine val.shape (val.data.map decode)).isSome) ∧
      (∀ t ≠ indexName base, st'.consts.get? t = st.consts.get? t) ∧
      ∀ {σ : Store} {n : ℕ} {data : List TorchFloat}, Holds st'.consts st σ (src, n) data →
        ∃ σ', evalOps st'.consts (st'.ops.drop st.ops.length) σ =
          (collect ((val.data.map decode).map (readIndex table data))).map
            fun r => Function.update σ' out (some r) := by
  unfold emitMoved at hrun
  dsimp only at hrun
  rw [hitems] at hrun
  split at hrun
  · cases hrun
  rename_i hshape
  rw [not_not] at hshape
  set idx := val.data.map decode with hidx
  have hgather : ∃ table : Bool, table = true ∧
      (∀ t ≠ indexName base, (emitGather st base src out idx).consts.get? t = st.consts.get? t) ∧
      ∀ {σ : Store} {n : ℕ} {data : List TorchFloat},
        Holds (emitGather st base src out idx).consts st σ (src, n) data →
          ∃ σ', evalOps (emitGather st base src out idx).consts
            ((emitGather st base src out idx).ops.drop st.ops.length) σ =
              (collect (idx.map (readIndex table data))).map
                fun r => Function.update σ' out (some r) :=
    ⟨true, rfl, fun t ht => consts_emitGather st src out idx ht, fun {σ n data} hsrc =>
      ⟨σ, evalOps_emitGather (.refl st σ) hsrc⟩⟩
  by_cases hneg : (idx.any fun x => decide (x < 0)) = true
  · rw [if_pos hneg] at hrun
    obtain rfl := Except.ok.inj hrun
    obtain ⟨table, htable, hrest⟩ := hgather
    refine ⟨table, iff_of_false (by simp [htable]) fun h => ?_, hrest⟩
    obtain ⟨x, hx, hlt⟩ := any_eq_true.mp hneg
    exact absurd (h.1 x hx) (not_le.mpr (of_decide_eq_true hlt))
  · rw [if_neg hneg] at hrun
    cases haffine : affine val.shape idx with
    | none =>
      rw [haffine] at hrun
      obtain rfl := Except.ok.inj hrun
      obtain ⟨table, htable, hrest⟩ := hgather
      exact ⟨table, iff_of_false (by simp [htable]) fun h => (Bool.false_ne_true h.2).elim, hrest⟩
    | some box =>
      obtain ⟨off, strides⟩ := box
      rw [haffine] at hrun
      dsimp only at hrun
      cases hcopy : copyAffine st base src shape off strides (some out) force with
      | error e =>
        rw [hcopy] at hrun
        cases hrun
      | ok res =>
        obtain ⟨out', st₂⟩ := res
        rw [hcopy] at hrun
        obtain rfl := Except.ok.inj hrun
        obtain ⟨hlen, hbox⟩ := eq_of_affine haffine
        rw [hshape] at hlen hbox
        obtain ⟨hconsts, heval⟩ := evalOps_copyAffine st₂.consts hout hcopy hlen
        refine ⟨false, iff_of_true rfl ⟨fun x hx => ?_, rfl⟩, fun t _ => by rw [hconsts],
          fun {σ n data} hsrc => ⟨σ, ?_⟩⟩
        · by_contra hlt
          exact hneg (any_eq_true.mpr ⟨x, hx, decide_eq_true (not_le.mp hlt)⟩)
        · rw [heval hsrc.read]
          congr 1
          rw [hbox, map_map]
          rfl

/-- From several sources, the elements are read at the decoded indices of their concatenation. -/
theorem evalOps_emitMoved_many (hfresh : FreshFrom base st) (hitems : 2 ≤ roots.items.length)
    (hrun : emitMoved st base roots val shape out force = .ok st') :
    (∀ t ≠ indexName base, st'.consts.get? t = st.consts.get? t) ∧
      ∀ {σ : Store} {datas : List (List TorchFloat)},
        List.Forall₂ (fun item data => Holds st'.consts st σ (item.1, item.2.shape.prod) data)
          roots.items datas →
        ∃ σ', evalOps st'.consts (st'.ops.drop st.ops.length) σ =
          (collect ((val.data.map decode).map (readIndex true datas.flatten))).map
            fun r => Function.update σ' out (some r) := by
  obtain ⟨item₁, item₂, rest, hmany⟩ : ∃ item₁ item₂ rest,
      roots.items = item₁ :: item₂ :: rest := by
    rcases hlist : roots.items with _ | ⟨item₁, _ | ⟨item₂, rest⟩⟩
    · rw [hlist] at hitems
      exact absurd hitems (by decide)
    · rw [hlist] at hitems
      exact absurd hitems (by simp)
    · exact ⟨item₁, item₂, rest, rfl⟩
  unfold emitMoved at hrun
  rw [hmany] at hrun
  dsimp only at hrun
  rw [← hmany] at hrun
  split at hrun
  · cases hrun
  cases hflat : flattenRoots base roots.items st with
  | error e =>
    rw [hflat] at hrun
    cases hrun
  | ok res =>
    obtain ⟨parts, st₁⟩ := res
    rw [hflat] at hrun
    obtain rfl := Except.ok.inj hrun
    have hconsts : (catn base 1 1 [roots.total] parts.length parts st₁).2.consts = st.consts := by
      rw [consts_catn, consts_flattenRoots hflat]
    refine ⟨fun t ht => by rw [consts_emitGather _ _ _ _ ht, hconsts], fun {σ datas} h => ?_⟩
    obtain ⟨σ₁, hstep₁, hparts⟩ := flattenRoots_spec hfresh h hflat
    obtain ⟨σ₂, hstep₂, hcat⟩ := catn_spec le_rfl (hstep₁.fresh hfresh) hparts [roots.total]
    exact ⟨σ₂, evalOps_emitGather (hstep₁.trans hstep₂) hcat⟩

end ModelBlaster.Lowering

/-! ## Merged axes and broadcasting -/

namespace ModelBlaster.Lowering

open List Strided

/-! ### The source -/

/-- The body of the loop of `_merge_dims`, at axis `i`. -/
def mergeDimAt (i : ℕ) (dims : List ℕ) (sts : List (List ℤ)) : List ℕ × List (List ℤ) :=
  if ∀ st ∈ sts, st.getD (i - 1) 0 = st.getD i 0 * dims.getD i 0 then
    ((dims.set (i - 1) (dims.getD (i - 1) 0 * dims.getD i 0)).eraseIdx i,
      sts.map fun st => (st.set (i - 1) (st.getD i 0)).eraseIdx i)
  else (dims, sts)

/-- `while i > 0`, from axis `i` on. -/
def mergeLoop : ℕ → List ℕ → List (List ℤ) → List ℕ × List (List ℤ)
  | 0, dims, sts => (dims, sts)
  | i + 1, dims, sts =>
    let (dims, sts) := mergeDimAt (i + 1) dims sts
    mergeLoop i dims sts

/-- `_merge_dims` -/
def mergeDimsAll (shape : List ℕ) (strides : List (List ℤ)) : List ℕ × List (List ℤ) :=
  let keep := (List.range shape.length).filter fun i => shape.getD i 0 ≠ 1
  mergeLoop (keep.length - 1) (keep.map fun i => shape.getD i 0)
    (strides.map fun st => keep.map fun i => st.getD i 0)

/-- `_pad6` -/
def padDimsAll (dims : List ℕ) (sts : List (List ℤ)) : Except LowerError (List ℕ × List (List ℤ)) :=
  if maxRank < dims.length then .error (.rank dims.length)
  else
    let pad := maxRank - dims.length
    .ok (List.replicate pad 1 ++ dims, sts.map fun st => List.replicate pad 0 ++ st)

/-- The broadcast of two sizes. -/
def broadcastDim (m n : ℕ) : Option ℕ :=
  if m = n then some m else if m = 1 then some n else if n = 1 then some m else none

/-- The broadcast of two shapes of one rank. -/
def broadcastDims : List ℕ → List ℕ → Option (List ℕ)
  | [], [] => some []
  | m :: sa, n :: sb => (broadcastDim m n).bind fun o => (broadcastDims sa sb).map (o :: ·)
  | _, _ => none

/-- Axes of size one in front, up to a rank. -/
def padShape (r : ℕ) (s : List ℕ) : List ℕ := List.replicate (r - s.length) 1 ++ s

/-- `torch.broadcast_shapes` of two shapes. -/
def broadcastShapes (sa sb : List ℕ) : Option (List ℕ) :=
  let r := max sa.length sb.length
  broadcastDims (padShape r sa) (padShape r sb)

/-- `bstrides`: an operand stays where it is along the axes that it is broadcast on. -/
def bstrides (outShape s : List ℕ) : List ℤ :=
  let s := padShape outShape.length s
  List.zipWith (fun axis c => if axis.1 = 1 ∧ axis.2 ≠ 1 then 0 else c) (s.zip outShape)
    (contiguous s)

/-- The shape of the result of `ewise2`, and the axes and strides that it emits. -/
def ewise2Dims (sa sb : List ℕ) : Except LowerError (List ℕ × List ℕ × List (List ℤ)) :=
  match broadcastShapes sa sb with
  | none => .error .refused
  | some outShape =>
    let (dims, sts) := mergeDimsAll outShape [bstrides outShape sa, bstrides outShape sb]
    (padDimsAll dims sts).map fun r => (outShape, r)

/-- An element of an operand. -/
def elementAt {α : Type} (data : List α) (i : ℤ) : Option α :=
  if 0 ≤ i then data[i.toNat]? else none

/-- `kernel_ewise2`: the operands are read along their strides, and combined by `f`. -/
def runEwise2 {α : Type} (f : α → α → α) (dims : List ℕ) (ta tb : List ℤ) (a b : List α) :
    Option (List α) :=
  collect (List.zipWith (fun x y => (elementAt a x).bind fun u => (elementAt b y).map (f u))
    (offsets (dims.zip ta)) (offsets (dims.zip tb)))

/-! ### Merging -/

/-- Axes and strides that give each operand the positions that it had. -/
def SameMaps (shape : List ℕ) (strides : List (List ℤ)) (r : List ℕ × List (List ℤ)) : Prop :=
  List.Forall₂ (fun st st' => st'.length = r.1.length ∧
    offsets (r.1.zip st') = offsets (shape.zip st)) strides r.2

section
variable {α : Type} {before : List α} {i : ℕ} (h : before.length = i) (after : List α) (x y z : α)
include h

/-- An element and its successor become one. -/
theorem eraseIdx_set_append :
    ((before ++ x :: y :: after).set i z).eraseIdx (i + 1) = before ++ z :: after := by
  subst h
  induction before with
  | nil => rfl
  | cons b before ih => exact congrArg (b :: ·) ih

theorem getD_append_cons : (before ++ x :: after).getD i z = x := by
  subst h
  simp

theorem getD_append_cons_cons : (before ++ x :: y :: after).getD (i + 1) z = y := by
  subst h
  simp

end

variable {α : Type} {i : ℕ} {l : List α} {r r' : List ℕ × List (List ℤ)}
  {sts strides : List (List ℤ)} {dims shape sb sa outShape s idx : List ℕ} {st : List ℤ}

/-- A list around two neighbours. -/
theorem exists_split (h : i + 1 < l.length) :
    ∃ before x y after, l = before ++ x :: y :: after ∧ before.length = i := by
  refine ⟨l.take i, l[i], l[i + 1], l.drop (i + 2), ?_, by rw [length_take]; omega⟩
  rw [← drop_eq_getElem_cons, ← drop_eq_getElem_cons, take_append_drop]

/-- Boxes with the same axes in front have the same positions if they had them without. -/
theorem offsets_append_congr (front : List (ℕ × ℤ)) {box box' : List (ℕ × ℤ)}
    (h : offsets box = offsets box') : offsets (front ++ box) = offsets (front ++ box') := by
  induction front with
  | nil => exact h
  | cons axis front ih => exact offsets_cons_congr axis ih

/-- Each operand keeps its positions under a change of its strides. -/
def Keeps (dims : List ℕ) (sts : List (List ℤ)) (r : List ℕ × List (List ℤ)) : Prop :=
  ∃ g : List ℤ → List ℤ, r.2 = sts.map g ∧ ∀ st ∈ sts, st.length = dims.length →
    (g st).length = r.1.length ∧ offsets (r.1.zip (g st)) = offsets (dims.zip st)

theorem Keeps.refl (dims : List ℕ) (sts : List (List ℤ)) : Keeps dims sts (dims, sts) :=
  ⟨id, (map_id sts).symm, fun _ _ h => ⟨h, rfl⟩⟩

theorem Keeps.trans (h : Keeps dims sts r) (h' : Keeps r.1 r.2 r') : Keeps dims sts r' := by
  obtain ⟨g, hg, hkeeps⟩ := h
  obtain ⟨g', hg', hkeeps'⟩ := h'
  refine ⟨g' ∘ g, by rw [hg', hg, map_map], fun st hst hlen => ?_⟩
  obtain ⟨hlen₁, hoff₁⟩ := hkeeps st hst hlen
  obtain ⟨hlen₂, hoff₂⟩ := hkeeps' (g st) (hg ▸ mem_map_of_mem hst) hlen₁
  exact ⟨hlen₂, hoff₂.trans hoff₁⟩

/-- Two axes that follow each other in memory are merged, wherever they are. -/
theorem offsets_merge_at {before after : List ℕ} {front back : List ℤ} (n m : ℕ) (t : ℤ)
    (h : front.length = before.length) :
    offsets ((before ++ n * m :: after).zip (front ++ t :: back)) =
      offsets ((before ++ n :: m :: after).zip (front ++ t * m :: t :: back)) := by
  rw [zip_append h.symm, zip_append h.symm]
  exact offsets_append_congr _ (offsets_cons_cons n m t _).symm

/-- Two axes are merged if they follow each other in memory for every operand. -/
theorem mergeDimAt_keeps (hi : i + 1 < dims.length) (sts : List (List ℤ)) :
    Keeps dims sts (mergeDimAt (i + 1) dims sts) := by
  unfold mergeDimAt
  split
  · rename_i hmerge
    obtain ⟨before, n, m, after, rfl, hbefore⟩ := exists_split hi
    refine ⟨_, rfl, fun st hst hlen => ?_⟩
    have hs := hmerge st hst
    obtain ⟨front, s, t, back, rfl, hfront⟩ := exists_split (hlen ▸ hi)
    simp only [Nat.add_sub_cancel, getD_append_cons hfront, getD_append_cons_cons hfront,
      getD_append_cons hbefore, getD_append_cons_cons hbefore, eraseIdx_set_append hfront,
      eraseIdx_set_append hbefore] at hs ⊢
    subst hs
    refine ⟨?_, offsets_merge_at n m t (hfront.trans hbefore.symm)⟩
    simp only [length_append, length_cons] at hlen ⊢
    omega
  · exact Keeps.refl dims sts

/-- Without two axes there is nothing to merge. -/
theorem length_mergeDimAt (sts : List (List ℤ)) (hi : i + 1 < dims.length) :
    i + 1 ≤ (mergeDimAt (i + 1) dims sts).1.length := by
  unfold mergeDimAt
  split
  · rw [length_eraseIdx_of_lt (by rw [length_set]; exact hi), length_set]
    omega
  · exact hi.le

theorem mergeLoop_keeps (i : ℕ) (sts : List (List ℤ)) (hi : i < dims.length ∨ i = 0) :
    Keeps dims sts (mergeLoop i dims sts) := by
  induction i generalizing dims sts with
  | zero => exact Keeps.refl dims sts
  | succ i ih =>
    have hlt : i + 1 < dims.length := hi.resolve_right (Nat.succ_ne_zero i)
    exact (mergeDimAt_keeps hlt sts).trans (ih _ (.inl (length_mergeDimAt sts hlt)))

/-- The axes that `_merge_dims` looks at. -/
theorem filter_zip_eq (h : st.length = shape.length) :
    (shape.zip st).filter (fun axis => axis.1 ≠ 1) =
      (((List.range shape.length).filter fun i => shape.getD i 0 ≠ 1).map
        fun i => (shape.getD i 0, st.getD i 0)) := by
  have hzip : shape.zip st =
      (List.range shape.length).map fun i => (shape.getD i 0, st.getD i 0) := by
    apply ext_getElem (by simp [h])
    intro i h₁ h₂
    simp at h₁
    simp [h₁.1, h₁.2]
  rw [hzip, filter_map]
  rfl

/-- Merged axes give the positions that the axes gave. -/
theorem mergeDimsAll_sameMaps (h : ∀ st ∈ strides, st.length = shape.length) :
    SameMaps shape strides (mergeDimsAll shape strides) := by
  set keep := (List.range shape.length).filter fun i => shape.getD i 0 ≠ 1 with hkeep
  have hloop : Keeps (keep.map fun i => shape.getD i 0)
      (strides.map fun st => keep.map fun i => st.getD i 0) (mergeLoop (keep.length - 1) _ _) :=
    mergeLoop_keeps _ _ (by rw [length_map]; omega)
  obtain ⟨g, hg, hkeeps⟩ := hloop
  show List.Forall₂ _ strides (mergeLoop _ _ _).2
  rw [hg, map_map, forall₂_map_right_iff, forall₂_same]
  intro st hst
  obtain ⟨hlen, hoff⟩ := hkeeps _ (mem_map_of_mem hst) (by rw [length_map, length_map])
  rw [zip_map', ← filter_zip_eq (h st hst), offsets_filter] at hoff
  exact ⟨hlen, hoff⟩

/-- Axes of size one in front change nothing. -/
theorem SameMaps.pad (h : SameMaps shape strides r) (hr : padDimsAll r.1 r.2 = .ok r') :
    SameMaps shape strides r' ∧ r'.1.length = maxRank := by
  unfold padDimsAll at hr
  split_ifs at hr with hrank
  cases hr
  constructor
  · show List.Forall₂ _ strides (r.2.map _)
    rw [forall₂_map_right_iff]
    refine h.imp fun st st' hst => ⟨by simp [hst.1], ?_⟩
    rw [zip_append (by simp), zip_replicate', offsets_replicate_append, hst.2]
  · rw [length_append, length_replicate]
    omega

/-! ### One operand -/

theorem mergeDimAt_single (front box : List (ℕ × ℤ)) (axis head : ℕ × ℤ) :
    mergeDimAt (front.length + 1) ((front ++ axis :: head :: box).map Prod.fst)
        [(front ++ axis :: head :: box).map Prod.snd] =
      ((front ++ mergeAxis axis (head :: box)).map Prod.fst,
        [(front ++ mergeAxis axis (head :: box)).map Prod.snd]) := by
  have hfst : (front.map Prod.fst).length = front.length := length_map ..
  have hsnd : (front.map Prod.snd).length = front.length := length_map ..
  simp only [mergeDimAt, map_append, map_cons, forall_mem_singleton, Nat.add_sub_cancel, map_nil,
    getD_append_cons hfst, getD_append_cons_cons hfst, getD_append_cons hsnd,
    getD_append_cons_cons hsnd, eraseIdx_set_append hfst, eraseIdx_set_append hsnd, mergeAxis]
  split <;> rfl

/-- The scan merges the axes into those behind them. -/
theorem mergeLoop_single (front box : List (ℕ × ℤ)) (head : ℕ × ℤ) :
    mergeLoop front.length ((front ++ head :: box).map Prod.fst)
        [(front ++ head :: box).map Prod.snd] =
      ((front.foldr mergeAxis (head :: box)).map Prod.fst,
        [(front.foldr mergeAxis (head :: box)).map Prod.snd]) := by
  induction front using reverseRecOn generalizing head box with
  | nil => rfl
  | append_singleton front axis ih =>
    have hne : ∃ head' box', mergeAxis axis (head :: box) = head' :: box' := by
      rw [mergeAxis]
      split
      · exact ⟨_, _, rfl⟩
      · exact ⟨_, _, rfl⟩
    obtain ⟨head', box', hmerge⟩ := hne
    rw [length_append, length_singleton, append_assoc, mergeLoop]
    show (let (dims, sts) := mergeDimAt (front.length + 1) _ _; mergeLoop _ dims sts) = _
    rw [singleton_append, mergeDimAt_single, foldr_append, foldr_cons, foldr_nil, hmerge]
    exact ih box' head'

/-- For one operand the loop merges as `mergeDims` does. -/
theorem mergeDimsAll_single (h : st.length = shape.length) :
    mergeDimsAll shape [st] =
      ((mergeDims shape st).map Prod.fst, [(mergeDims shape st).map Prod.snd]) := by
  have hbox := filter_zip_eq h
  unfold mergeDimsAll mergeDims Strided.merge
  rw [hbox]
  generalize (List.range shape.length).filter (fun i => shape.getD i 0 ≠ 1) = keep
  rcases eq_nil_or_concat keep with rfl | ⟨front, i, rfl⟩
  · rfl
  · have hloop := mergeLoop_single (front.map fun i => (shape.getD i 0, st.getD i 0)) []
      (shape.getD i 0, st.getD i 0)
    simp only [map_append, map_map, length_map, map_cons, map_nil] at hloop
    rw [concat_eq_append]
    simp only [length_append, length_singleton, Nat.add_sub_cancel, map_append, map_cons, map_nil,
      foldr_append, foldr_cons, foldr_nil]
    exact hloop

/-! ### Broadcasting -/

/-- The index of the element of an operand at an index of the result. -/
def broadcastIndex (s outShape idx : List ℕ) : List ℕ :=
  List.zipWith (fun n i => if n = 1 then 0 else i) s (idx.drop (outShape.length - s.length))

/-- A shape that is broadcast to another one of its rank. -/
abbrev Broadcasts (s outShape : List ℕ) : Prop := List.Forall₂ (fun n o => n = o ∨ n = 1) s outShape

theorem broadcastDims_spec (h : broadcastDims sa sb = some outShape) :
    Broadcasts sa outShape ∧ Broadcasts sb outShape := by
  induction sa generalizing sb outShape with
  | nil =>
    cases sb with
    | nil =>
      cases h
      exact ⟨.nil, .nil⟩
    | cons n sb => cases h
  | cons m sa ih =>
    cases sb with
    | nil => cases h
    | cons n sb =>
      obtain ⟨o, ho, h⟩ := Option.bind_eq_some_iff.mp h
      obtain ⟨rest, hrest, rfl⟩ := Option.map_eq_some_iff.mp h
      obtain ⟨ha, hb⟩ := ih hrest
      unfold broadcastDim at ho
      split_ifs at ho with heq hm hn <;> cases ho
      · exact ⟨.cons (.inl rfl) ha, .cons (.inl heq.symm) hb⟩
      · exact ⟨.cons (.inr hm) ha, .cons (.inl rfl) hb⟩
      · exact ⟨.cons (.inl rfl) ha, .cons (.inr hn) hb⟩

/-- An operand of the rank of the result is read at the broadcast index. -/
theorem dot_bstrides (h : Broadcasts s outShape) (hidx : NdArray.InBounds outShape idx) :
    dot idx (List.zipWith (fun axis c => if axis.1 = 1 ∧ axis.2 ≠ 1 then 0 else c) (s.zip outShape)
        (contiguous s)) =
      NdArray.ravel s (List.zipWith (fun n i => if n = 1 then 0 else i) s idx) := by
  induction h generalizing idx with
  | nil =>
    cases hidx
    rfl
  | @cons n o s outShape hn _ ih =>
    cases hidx with
    | @cons i _ idx _ hi hidx =>
      rw [contiguous, zip_cons_cons, zipWith_cons_cons, zipWith_cons_cons, dot, NdArray.ravel,
        ih hidx]
      split_ifs with hstay hone hone
      · simp
      · exact absurd hstay.1 hone
      · -- the result has one element along the axis as well
        obtain rfl : i = 0 := by omega
        rfl
      · rfl

/-- Axes of size one in front do not move an element. -/
theorem ravel_padShape (k : ℕ) (s idx : List ℕ) (h : k ≤ idx.length) :
    NdArray.ravel (List.replicate k 1 ++ s)
        (List.zipWith (fun n i => if n = 1 then 0 else i) (List.replicate k 1 ++ s) idx) =
      NdArray.ravel s (List.zipWith (fun n i => if n = 1 then 0 else i) s (idx.drop k)) := by
  induction k generalizing idx with
  | zero => rfl
  | succ k ih =>
    cases idx with
    | nil => cases h
    | cons i idx =>
      rw [replicate_succ, cons_append, zipWith_cons_cons, NdArray.ravel,
        ih idx (Nat.le_of_succ_le_succ h)]
      simp

/-- Operands that are broadcast to the shape of a result have strides for it. -/
theorem length_bstrides (h : Broadcasts (padShape outShape.length s) outShape) :
    (bstrides outShape s).length = outShape.length := by
  simp only [bstrides, length_zipWith, length_zip, length_contiguous, h.length_eq]
  omega

theorem ewise2Dims_spec (h : ewise2Dims sa sb = .ok (outShape, dims, sts)) :
    Broadcasts (padShape outShape.length sa) outShape ∧
      Broadcasts (padShape outShape.length sb) outShape ∧ dims.length = maxRank ∧
      SameMaps outShape [bstrides outShape sa, bstrides outShape sb] (dims, sts) := by
  unfold ewise2Dims at h
  split at h
  · cases h
  · next out hout =>
    obtain ⟨ha, hb⟩ := broadcastDims_spec hout
    have hr : max sa.length sb.length = out.length := by
      rw [← ha.length_eq, padShape, length_append, length_replicate]
      omega
    rw [hr] at ha hb
    have hsame : SameMaps out [bstrides out sa, bstrides out sb] (mergeDimsAll out _) :=
      mergeDimsAll_sameMaps fun st hst => by
        rcases mem_pair.mp hst with rfl | rfl
        · exact length_bstrides ha
        · exact length_bstrides hb
    dsimp only at h
    generalize mergeDimsAll out _ = merged at h hsame
    cases hpad : padDimsAll merged.1 merged.2 with
    | error e =>
      rw [hpad] at h
      cases h
    | ok r =>
      rw [hpad] at h
      cases h
      exact ⟨ha, hb, (hsame.pad hpad).2, (hsame.pad hpad).1⟩

theorem elementAt_natCast (data : List α) (i : ℕ) : elementAt data (i : ℤ) = data[i]? := by
  rw [elementAt, if_pos (Int.natCast_nonneg i), Int.toNat_natCast]

/-- The elements of an operand, as a list over the indices of the result. -/
theorem offsets_bstrides (h : Broadcasts (padShape outShape.length s) outShape) :
    offsets (outShape.zip (bstrides outShape s)) =
      (NdArray.indices outShape).map fun idx =>
        (NdArray.ravel s (broadcastIndex s outShape idx) : ℤ) := by
  rw [offsets_zip outShape _ (length_bstrides h)]
  apply map_congr_left
  intro idx hidx
  have hin := NdArray.inBounds_of_mem_indices hidx
  rw [bstrides, dot_bstrides h hin, padShape, ravel_padShape _ s idx (by rw [hin.length_eq]; omega)]
  rfl

/-- The broadcast index is one of the operand. -/
theorem inBounds_broadcastIndex (h : Broadcasts (padShape outShape.length s) outShape)
    (hidx : NdArray.InBounds outShape idx) :
    NdArray.InBounds s (broadcastIndex s outShape idx) := by
  have hs := forall₂_drop (outShape.length - s.length) h
  have hi := forall₂_drop (outShape.length - s.length) hidx
  rw [padShape, drop_left' length_replicate] at hs
  unfold broadcastIndex
  generalize outShape.drop _ = out at hs hi
  generalize idx.drop _ = rest at hi
  clear h hidx
  induction hs generalizing rest with
  | nil => exact .nil
  | cons hn _ ih =>
    cases hi with
    | cons hi hrest =>
      refine .cons ?_ (ih _ hrest)
      dsimp only
      split_ifs with hone
      · omega
      · exact (hn.resolve_right hone) ▸ hi

theorem exists_map_eq_map_some {β : Type} {g : α → Option β} (h : ∀ x ∈ l, (g x).isSome) :
    ∃ r : List β, l.map g = r.map some := by
  induction l with
  | nil => exact ⟨[], rfl⟩
  | cons x l ih =>
    rw [forall_mem_cons] at h
    obtain ⟨y, hy⟩ := Option.isSome_iff_exists.mp h.1
    obtain ⟨r, hr⟩ := ih h.2
    exact ⟨y :: r, by rw [map_cons, map_cons, hy, hr]⟩

/-- An elementwise op combines the broadcast elements of its operands, in order. -/
theorem runEwise2_eq (h : ewise2Dims sa sb = .ok (outShape, dims, sts)) (f : α → α → α)
    {a b : List α} (ha : a.length = sa.prod) (hb : b.length = sb.prod) :
    ∃ r, runEwise2 f dims (sts.getD 0 []) (sts.getD 1 []) a b = some r ∧
      ∀ idx, NdArray.InBounds outShape idx → ∃ u v,
        a[NdArray.ravel sa (broadcastIndex sa outShape idx)]? = some u ∧
        b[NdArray.ravel sb (broadcastIndex sb outShape idx)]? = some v ∧
        r[NdArray.ravel outShape idx]? = some (f u v) := by
  obtain ⟨hbra, hbrb, -, hsame⟩ := ewise2Dims_spec h
  obtain ⟨ta, rest, ⟨-, hta⟩, hrest, rfl⟩ := forall₂_cons_left_iff.mp hsame
  obtain ⟨tb, rest, ⟨-, htb⟩, hrest, rfl⟩ := forall₂_cons_left_iff.mp hrest
  have hread : ∀ idx, NdArray.InBounds outShape idx → ∃ u v,
      a[NdArray.ravel sa (broadcastIndex sa outShape idx)]? = some u ∧
      b[NdArray.ravel sb (broadcastIndex sb outShape idx)]? = some v := by
    intro idx hidx
    have hu := (NdArray.getElem?_indices (inBounds_broadcastIndex hbra hidx)).1
    have hv := (NdArray.getElem?_indices (inBounds_broadcastIndex hbrb hidx)).1
    exact ⟨_, _, getElem?_eq_getElem (ha ▸ hu), getElem?_eq_getElem (hb ▸ hv)⟩
  -- The results, one for each index.
  set g : List ℕ → Option α := fun idx =>
    (a[NdArray.ravel sa (broadcastIndex sa outShape idx)]?).bind fun u =>
      (b[NdArray.ravel sb (broadcastIndex sb outShape idx)]?).map (f u) with hg
  have hrun : runEwise2 f dims ta tb a b = collect ((NdArray.indices outShape).map g) := by
    rw [runEwise2, hta, htb, offsets_bstrides hbra, offsets_bstrides hbrb, zipWith_map,
      zipWith_self]
    simp only [elementAt_natCast, hg]
  have hsome : ∀ idx ∈ NdArray.indices outShape, (g idx).isSome := by
    intro idx hidx
    obtain ⟨u, v, hu, hv⟩ := hread idx (NdArray.inBounds_of_mem_indices hidx)
    rw [hg]
    simp [hu, hv]
  obtain ⟨r, hall⟩ := exists_map_eq_map_some hsome
  refine ⟨r, hrun.trans (collect_eq_some_iff.mpr hall), fun idx hidx => ?_⟩
  obtain ⟨u, v, hu, hv⟩ := hread idx hidx
  have hget := congrArg (·[NdArray.ravel outShape idx]?) hall
  simp only [getElem?_map, (NdArray.getElem?_indices hidx).2, Option.map_some, hg, hu, hv,
    Option.bind_some] at hget
  obtain ⟨w, hw, heq⟩ := Option.map_eq_some_iff.mp hget.symm
  exact ⟨u, v, hu, hv, hw.trans heq⟩

/-- What merged axes owe to the axes that they come from: the same map for each operand, with six
axes or without; for one operand the merge that a copy uses; a view of what is in one piece only;
and the broadcast elements. -/
theorem mergedDims_exact :
    (∀ shape strides, (∀ st ∈ strides, st.length = shape.length) →
      SameMaps shape strides (mergeDimsAll shape strides) ∧
      ∀ r, padDimsAll (mergeDimsAll shape strides).1 (mergeDimsAll shape strides).2 = .ok r →
        SameMaps shape strides r ∧ r.1.length = maxRank) ∧
    (∀ shape st, st.length = shape.length → mergeDimsAll shape [st] =
      ((mergeDims shape st).map Prod.fst, [(mergeDims shape st).map Prod.snd])) ∧
    (∀ st base src outShape off strides outName force out st' src' out' n off',
      strides.length = outShape.length →
      copyAffine st base src outShape off strides outName force = .ok (out, st') →
      st'.ops.getLast? = some (.view src' out' n off') →
      off' = off ∧ n = outShape.prod ∧
        offsets (outShape.zip strides) = (List.range n).map fun i : ℕ => (i : ℤ)) ∧
    (∀ (α : Type) sa sb outShape dims sts (f : α → α → α) (a b : List α),
      ewise2Dims sa sb = .ok (outShape, dims, sts) → a.length = sa.prod → b.length = sb.prod →
      ∃ r, runEwise2 f dims (sts.getD 0 []) (sts.getD 1 []) a b = some r ∧
        ∀ idx, NdArray.InBounds outShape idx → ∃ u v,
          a[NdArray.ravel sa (broadcastIndex sa outShape idx)]? = some u ∧
          b[NdArray.ravel sb (broadcastIndex sb outShape idx)]? = some v ∧
          r[NdArray.ravel outShape idx]? = some (f u v)) := by
  refine ⟨fun shape strides h => ⟨mergeDimsAll_sameMaps h, fun r hr =>
    (mergeDimsAll_sameMaps h).pad hr⟩, fun shape st h => mergeDimsAll_single h, ?_,
    fun α sa sb outShape dims sts f a b h ha hb => runEwise2_eq h f ha hb⟩
  intro st base src outShape off strides outName force out st' src' out' n off' hlen h hlast
  unfold copyAffine at h
  dsimp only at h
  split at h
  · rename_i hview
    cases h
    rw [LowerState.emit, getLast?_concat] at hlast
    cases hlast
    refine ⟨rfl, rfl, ?_⟩
    have hmerge := offsets_of_isContiguous hview.1
    unfold mergeDims at hmerge
    rwa [offsets_merge, length_offsets_zip hlen] at hmerge
  · split at h
    · cases h
    · cases h
      rw [LowerState.emit, getLast?_concat] at hlast
      cases hlast

/-- A column and a row. -/
theorem mergedDims_exact_columnRow :
    ewise2Dims [2, 1] [3] =
        .ok ([2, 3], [1, 1, 1, 1, 2, 3], [[0, 0, 0, 0, 1, 0], [0, 0, 0, 0, 0, 1]]) ∧
      ∃ r, runEwise2 (· + ·) [1, 1, 1, 1, 2, 3] [0, 0, 0, 0, 1, 0] [0, 0, 0, 0, 0, 1] [10, 20]
        [1, 2, 3] = some r ∧ r[NdArray.ravel [2, 3] [1, 2]]? = some 23 := by
  have hdims : ewise2Dims [2, 1] [3] =
      .ok ([2, 3], [1, 1, 1, 1, 2, 3], [[0, 0, 0, 0, 1, 0], [0, 0, 0, 0, 0, 1]]) := by decide
  refine ⟨hdims, ?_⟩
  obtain ⟨r, hr, hget⟩ := mergedDims_exact.2.2.2 ℕ [2, 1] [3] _ _ _ (· + ·) [10, 20] [1, 2, 3] hdims
    rfl rfl
  refine ⟨r, hr, ?_⟩
  obtain ⟨u, v, hu, hv, hw⟩ := hget [1, 2] (.cons (by decide) (.cons (by decide) .nil))
  cases hu
  cases hv
  exact hw

end ModelBlaster.Lowering
