import ModelBlaster.Lowering.Emission

/-!
# When the lowering of a movement keeps its values

What comes out of a probe is decoded as an index, whether it is the number of an element or a fill
value that the movement has placed. The number of an element is decoded as its position. A fill
value of zero is decoded as a negative index, for which a gather reads a zero. Any other fill value
is decoded as some other index.

## Main definitions

* `MoveNode.Ok`: a node of a traced graph, with the names that it may use;
* `KeepsValues`: the emitted ops compute the result of the node;
* `ZeroFills`, `InTable`: zero is the only fill value, and positions fit into the table of a gather.

## Main results

* `evalOps_lowered`: what the emitted ops compute;
* `keepsValues_iff`: when that is the result of the node.
-/

namespace ModelBlaster.Lowering

open TwosComplement List PyDict

/-! ### Conditions -/

/-- The size of a tensor that a probe goes over. -/
def MoveNode.size (tensors : PyDict String (List ℕ)) (node : MoveNode) (t : String) : ℕ :=
  match node.call with
  | .call _ _ => sizeOf tensors t
  | .setScalar _ _ _ => if t = scalarName node.name then 1 else sizeOf tensors t

/-- The position of an element in the sources, one after the other. -/
def MoveNode.position (tensors : PyDict String (List ℕ)) (node : MoveNode) : Source → Option ℕ
  | .elem t k => some (start (node.size tensors) node.names t + k)
  | .scalar _ => some (start (node.size tensors) node.names (scalarName node.name))
  | .fill _ => none
  | .uninit => none

/-- A node of a traced graph. -/
structure MoveNode.Ok (st : LowerState) (node : MoveNode) : Prop where
  /-- The arguments are tensors of the graph. -/
  args : ∀ t ∈ node.call.argNames, (st.tensors.get? t).isSome
  /-- The names that are made for the node are new. -/
  fresh : ∀ s, st.tensors.get? (node.name ++ "__" ++ s) = none
  /-- From an argument that only supplies a shape, nothing is placed. -/
  shapeOnly : ∀ S, node.sources st.tensors = some S → .uninit ∉ S.data
  /-- `mb_setitem` places elements and its value only. -/
  setItem : ∀ f arg v, node.call = .setScalar f arg v → ∀ S, node.sources st.tensors = some S →
    ∀ w, .fill w ∉ S.data
  /-- The elements can be numbered in double precision. -/
  numbered : (node.names.map (node.size st.tensors)).sum < 2 ^ 53

/-- Zero is the only fill value that is placed. -/
def ZeroFills (S : NdArray Source) : Prop := ∀ v, .fill v ∈ S.data → v = .zero

/-- The elements of one tensor are placed as a view with strides places them. -/
def MoveNode.IsStrided (tensors : PyDict String (List ℕ)) (node : MoveNode)
    (S : NdArray Source) : Prop :=
  node.names.length = 1 ∧ ∃ (off : ℤ) (strides : List ℤ), strides.length = S.shape.length ∧
    S.data.map (fun s => (node.position tensors s).map fun p : ℕ => (p : ℤ)) =
      (Strided.offsets (S.shape.zip strides)).map fun x => some (off + x)

/-- The position fits into 32 bits; of a zero, it may also become negative. -/
def MoveNode.InTable (tensors : PyDict String (List ℕ)) (node : MoveNode) (s : Source) : Prop :=
  ∀ p, node.position tensors s = some p →
    p < 2 ^ 31 ∨ s = .scalar .zero ∧ wrap 32 p < 0

/-- The tensors of a graph, with their values. -/
def initStore (tensors : PyDict String (List ℕ)) (vals : String → ℕ → TorchFloat) : Store :=
  fun t => (tensors.get? t).map fun shape => (List.range shape.prod).map (vals t)

/-- For all values, the emitted ops compute the result of the node. -/
def KeepsValues (st st' : LowerState) (node : MoveNode) : Prop :=
  ∀ vals : String → ℕ → TorchFloat, ∃ y σ, node.value st.tensors vals = some y ∧
    evalOps st'.consts (st'.ops.drop st.ops.length) (initStore st.tensors vals) = some σ ∧
    σ node.name = some y.data

/-! ### The sources, one after the other -/

/-- The value of an element of a source. -/
def MoveNode.read (node : MoveNode) (vals : String → ℕ → TorchFloat) (t : String) (k : ℕ) :
    TorchFloat :=
  match node.call with
  | .call _ _ => vals t k
  | .setScalar _ _ v => if t = scalarName node.name then v else vals t k

/-- The values of the sources, one after the other. -/
def concatenated (size : String → ℕ) (read : String → ℕ → TorchFloat) (names : List String) :
    List TorchFloat :=
  names.flatMap fun t => (List.range (size t)).map (read t)

section
variable {size : String → ℕ} {read : String → ℕ → TorchFloat} {names : List String}

theorem length_concatenated : (concatenated size read names).length = (names.map size).sum := by
  unfold concatenated
  rw [length_flatMap]
  congr 1
  apply map_congr_left
  intro t _
  rw [length_map, length_range]

theorem concatenated_cons (n : String) (names : List String) : concatenated size read (n :: names) =
    (List.range (size n)).map (read n) ++ concatenated size read names := flatMap_cons

/-- The element at a position. -/
theorem getElem?_concatenated {t : String} (ht : t ∈ names) {k : ℕ} (hk : k < size t) :
    (concatenated size read names)[start size names t + k]? = some (read t k) := by
  induction names with
  | nil => cases ht
  | cons n names ih =>
    rw [concatenated_cons, start]
    by_cases hn : n = t
    · subst hn
      rw [if_pos rfl, Nat.zero_add, getElem?_append_left (by simpa using hk),
        getElem?_map, getElem?_range hk]
      rfl
    · rw [if_neg hn, getElem?_append_right (by simp; omega), length_map,
        length_range, Nat.add_assoc, Nat.add_sub_cancel_left]
      exact ih ((mem_cons.mp ht).resolve_left fun h => hn h.symm)

/-- Every position is that of an element. -/
theorem exists_of_getElem?_concatenated {p : ℕ} {y : TorchFloat} (hnd : names.Nodup)
    (h : (concatenated size read names)[p]? = some y) :
    ∃ t ∈ names, ∃ k < size t, p = start size names t + k ∧ y = read t k := by
  induction names generalizing p with
  | nil => cases h
  | cons n names ih =>
    rw [nodup_cons] at hnd
    rw [concatenated_cons] at h
    by_cases hp : p < size n
    · rw [getElem?_append_left (by simpa using hp), getElem?_map, getElem?_range hp] at h
      refine ⟨n, mem_cons_self, p, hp, ?_, (Option.some.inj h).symm⟩
      rw [start, if_pos rfl, Nat.zero_add]
    · rw [getElem?_append_right (by simp; omega), length_map, length_range] at h
      obtain ⟨t, ht, k, hk, heq, rfl⟩ := ih hnd.2 h
      refine ⟨t, mem_cons_of_mem _ ht, k, hk, ?_, rfl⟩
      have hne : n ≠ t := fun h => hnd.1 (h ▸ ht)
      rw [start, if_neg hne]
      omega

end

/-! ### Numbers -/

/-- The number of an element is decoded as its position. -/
theorem decode_num {p : ℕ} (hp : p < 2 ^ 53) : decode (.num ((p + 1 : ℕ) : ℚ)) = p := by
  have hround : Rounding.halfEven ((p + 1 : ℕ) : ℚ) = (p + 1 : ℕ) := by
    unfold Rounding.halfEven
    rw [Int.fract_natCast, if_pos (by norm_num), Int.floor_natCast]
  have hfits : Fits 64 ((p + 1 : ℕ) : ℤ) := by
    constructor <;> omega
  unfold decode TorchFloat.toInt64
  dsimp only
  rw [hround, if_pos hfits, wrap_eq_self (by decide)]
  · omega
  · unfold Fits
    omega

/-- Zero is decoded as a negative index. -/
theorem decode_zero : decode .zero = -1 := by
  have hround : Rounding.halfEven (0 : ℚ) = 0 := by
    unfold Rounding.halfEven
    rw [Int.fract_zero, if_pos (by norm_num), Int.floor_zero]
  unfold decode TorchFloat.toInt64
  dsimp only
  rw [hround]
  decide

/-! ### The state that ops are emitted from -/

/-- The state with the constant of a scalar. -/
def MoveNode.prepared (st : LowerState) (node : MoveNode) : LowerState :=
  match node.call with
  | .call _ _ => st
  | .setScalar _ _ v => st.addConst (scalarName node.name) [1] (.floats [v])

variable {st' st : LowerState} {node : MoveNode} {roots : Roots}

theorem prepared_of_applyNode {val : NdArray TorchFloat}
    (h : applyNode st node = .ok (val, roots, st')) : st' = node.prepared st := by
  unfold applyNode at h
  unfold MoveNode.prepared
  cases hcall : node.call with
  | call f args =>
    rw [hcall] at h
    dsimp only at h
    split at h
    · cases h
    · split at h
      · cases h
      · exact (Prod.mk.inj (Prod.mk.inj (Except.ok.inj h)).2).2.symm
  | setScalar f arg v =>
    rw [hcall] at h
    dsimp only at h
    split at h
    · cases h
    · split at h
      · cases h
      · exact (Prod.mk.inj (Prod.mk.inj (Except.ok.inj h)).2).2.symm

section
variable {st : LowerState} {node : MoveNode}

theorem MoveNode.Ok.scalar_new (hok : node.Ok st) :
    st.tensors.get? (scalarName node.name) = none := by
  have h := hok.fresh "v0"
  rwa [String.append_assoc] at h

theorem MoveNode.Ok.ne_scalarName (hok : node.Ok st) :
    ∀ t ∈ node.call.argNames, t ≠ scalarName node.name := by
  rintro t ht rfl
  have h := hok.args _ ht
  rw [hok.scalar_new] at h
  cases h

theorem prepared_ops : (node.prepared st).ops = st.ops := by
  unfold MoveNode.prepared
  cases node.call <;> rfl

variable {t a base : String} {consts : PyDict String ConstData}

/-- The constant is the only new tensor. -/
theorem prepared_get? (h : t ≠ scalarName node.name) :
    (node.prepared st).tensors.get? t = st.tensors.get? t := by
  unfold MoveNode.prepared
  cases node.call with
  | call f args => rfl
  | setScalar f arg v => exact get?_set_of_ne _ _ h

/-- The sizes of the tensors that a probe goes over. -/
theorem sizeOf_prepared : sizeOf (node.prepared st).tensors = node.size st.tensors := by
  funext t
  unfold MoveNode.prepared MoveNode.size sizeOf
  cases hcall : node.call with
  | call f args => rfl
  | setScalar f arg v =>
    rw [show (st.addConst _ _ _).tensors = st.tensors.set _ _ from rfl, get?_set]
    by_cases hc : t = scalarName node.name
    · rw [if_pos hc, if_pos hc]
      rfl
    · rw [if_neg hc, if_neg hc]

/-- The tensors that a probe goes over have their values. -/
theorem readTensor_prepared (hok : node.Ok st)
    (hconsts : ∀ f arg v, node.call = .setScalar f arg v →
      consts.get? (scalarName node.name) = some (.floats [v])) (vals : String → ℕ → TorchFloat)
    (ht : t ∈ node.names) :
    readTensor consts (initStore st.tensors vals) t =
      some ((List.range (node.size st.tensors t)).map (node.read vals t)) := by
  have hargs : ∀ t ∈ node.call.argNames, ∀ read : ℕ → TorchFloat, read = vals t →
      readTensor consts (initStore st.tensors vals) t =
        some ((List.range (sizeOf st.tensors t)).map read) := by
    rintro t ht _ rfl
    obtain ⟨shape, hshape⟩ := Option.isSome_iff_exists.mp (hok.args t ht)
    unfold readTensor initStore sizeOf
    rw [hshape]
    rfl
  unfold MoveNode.names at ht
  unfold MoveNode.size MoveNode.read
  cases hcall : node.call with
  | call f args =>
    rw [hcall] at ht hargs
    exact hargs t (PyList.mem_orderedUnique.mp ht) _ rfl
  | setScalar f arg v =>
    rw [hcall] at ht hargs
    dsimp only at ht ⊢
    by_cases hc : t = scalarName node.name
    · subst hc
      have hnone : initStore st.tensors vals (scalarName node.name) = none := by
        unfold initStore
        rw [hok.scalar_new]
        rfl
      unfold readTensor
      rw [hnone, hconsts f arg v hcall]
      simp
    · rw [if_neg hc]
      rw [PyList.mem_orderedUnique, mem_append, mem_singleton] at ht
      refine hargs t (ht.resolve_right hc) _ ?_
      funext k
      rw [if_neg hc]

/-- An element of a tensor is in front of the end of the sources. -/
theorem start_add_lt {size : String → ℕ} {names : List String} (ht : t ∈ names) {k : ℕ}
    (hk : k < size t) : start size names t + k < (names.map size).sum := by
  have hget : (concatenated size (fun _ _ => .zero) names)[start size names t + k]? = some .zero :=
    getElem?_concatenated ht hk
  rw [← length_concatenated]
  exact (List.getElem?_eq_some_iff.mp hget).1

/-- The constant of a scalar is the last source, with one element. -/
theorem scalarName_spec (st : LowerState) {f : Movement} {arg : MoveArg} {v : TorchFloat}
    (hcall : node.call = .setScalar f arg v) : scalarName node.name ∈ node.names ∧
      node.size st.tensors (scalarName node.name) = 1 := by
  unfold MoveNode.names MoveNode.size
  rw [hcall]
  refine ⟨?_, if_pos rfl⟩
  simp

/-- What a probe goes over: each element of the result that has a position is one of a source. -/
theorem exists_of_position {S : NdArray Source}
    (hnamed : Named (node.prepared st).tensors node.call.argNames S)
    (hscalars : ∀ v, .scalar v ∈ S.data → ∃ f arg, node.call = .setScalar f arg v)
    (vals : String → ℕ → TorchFloat) {s : Source} (hs : s ∈ S.data) {p : ℕ}
    (hp : node.position st.tensors s = some p) (hok : node.Ok st) :
    ∃ t ∈ node.names, ∃ k < node.size st.tensors t,
      p = start (node.size st.tensors) node.names t + k ∧ s.value vals = node.read vals t k := by
  cases s with
  | elem t k =>
    obtain ⟨ht, hk⟩ := hnamed t k hs
    rw [sizeOf_prepared] at hk
    refine ⟨t, MoveNode.mem_names ht, k, hk, (Option.some.inj hp).symm, ?_⟩
    unfold MoveNode.read
    cases hcall : node.call with
    | call f args => rfl
    | setScalar f arg v => exact (if_neg (hok.ne_scalarName t ht)).symm
  | scalar v =>
    obtain ⟨f, arg, hcall⟩ := hscalars v hs
    obtain ⟨hmem, hsize⟩ := scalarName_spec st hcall
    refine ⟨scalarName node.name, hmem, 0, by omega, (Option.some.inj hp).symm, ?_⟩
    unfold MoveNode.read
    rw [hcall]
    exact (if_pos rfl).symm
  | fill v => cases hp
  | uninit => cases hp

/-! ### What the emitted ops compute -/

theorem tempName_eq (base : String) (k : ℕ) :
    tempName base k = base ++ "__" ++ ("g" ++ toString k) := by
  unfold tempName
  rw [String.append_assoc, String.append_assoc]
  rfl

/-- Names with different suffixes are different. -/
theorem append_ne {b : String} (h : a ≠ b) : base ++ a ≠ base ++ b := by
  intro heq
  have hlist := congrArg String.toList heq
  rw [String.toList_append, String.toList_append] at hlist
  exact h (String.toList_inj.mp (append_cancel_left hlist))

theorem append_ne_self (h : a ≠ "") : base ++ a ≠ base := by
  have hne : base ++ a ≠ base ++ "" := append_ne h
  rwa [String.append_empty] at hne

theorem indexName_ne_scalarName (base : String) : scalarName base ≠ indexName base :=
  append_ne (by decide)

/-- The state with the tensor of the node. -/
def MoveNode.entered (st : LowerState) (node : MoveNode) : LowerState :=
  { node.prepared st with
    tensors := (node.prepared st).tensors.set node.name node.metaShape }

/-- The temporaries are new. -/
theorem freshFrom_entered (hok : node.Ok st) : FreshFrom node.name (node.entered st) := by
  intro k _
  have hname : tempName node.name k ≠ node.name := by
    rw [tempName_eq, String.append_assoc]
    refine append_ne_self fun h => ?_
    have hlist := congrArg String.toList h
    rw [String.toList_append] at hlist
    cases hlist
  have hscalar : tempName node.name k ≠ scalarName node.name := by
    unfold tempName scalarName
    rw [String.append_assoc]
    refine append_ne fun h => ?_
    have hlist := congrArg String.toList h
    rw [String.toList_append] at hlist
    cases hlist
  show ((node.prepared st).tensors.set node.name node.metaShape).get? _ = none
  rw [get?_set_of_ne _ _ hname, prepared_get? hscalar, tempName_eq]
  exact hok.fresh _

/-- The sources have their values. -/
theorem holds_entered (hok : node.Ok st)
    (hconsts : ∀ f arg v, node.call = .setScalar f arg v →
      consts.get? (scalarName node.name) = some (.floats [v])) (vals : String → ℕ → TorchFloat)
    (ht : t ∈ node.names) (hpresent : ((node.prepared st).tensors.get? t).isSome) :
    Holds consts (node.entered st) (initStore st.tensors vals) (t, node.size st.tensors t)
      ((List.range (node.size st.tensors t)).map (node.read vals t)) where
  present := by
    show (((node.prepared st).tensors.set node.name node.metaShape).get? t).isSome
    rw [get?_set]
    split
    · rfl
    · exact hpresent
  read := readTensor_prepared hok hconsts vals ht
  length := by rw [length_map, length_range]

end

/-- The decoded index of an element of the result. -/
def MoveNode.index (tensors : PyDict String (List ℕ)) (node : MoveNode) (s : Source) : ℤ :=
  decode (code (node.size tensors) node.names (scalarName node.name) s)

/-- The decoded indices are those of a strided view of one tensor. -/
def MoveNode.Direct (tensors : PyDict String (List ℕ)) (node : MoveNode) (S : NdArray Source) :
    Prop :=
  node.names.length = 1 ∧ (∀ s ∈ S.data, 0 ≤ node.index tensors s) ∧
    (affine S.shape (S.data.map (node.index tensors))).isSome

/-- The stand-ins of the sources stand for their data. -/
theorem forall₂_holds_entered (hok : node.Ok st)
    (hroots : roots.Spec (node.prepared st).tensors node.names) {consts : PyDict String ConstData}
    (hconsts : ∀ t ≠ indexName node.name, consts.get? t = (node.prepared st).consts.get? t)
    (vals : String → ℕ → TorchFloat) :
    List.Forall₂ (fun item data => Holds consts (node.entered st) (initStore st.tensors vals)
        (item.1, item.2.shape.prod) data) roots.items
      (node.names.map fun t => (List.range (node.size st.tensors t)).map (node.read vals t)) := by
  rw [hroots.items, forall₂_map_left_iff, forall₂_map_right_iff, forall₂_same]
  intro t ht
  have hsize : (standIn (((node.prepared st).tensors.get? t).getD [])
      (start (sizeOf (node.prepared st).tensors) node.names t)).shape.prod =
        node.size st.tensors t := by
    rw [← sizeOf_prepared]
    rfl
  rw [hsize]
  refine holds_entered hok (fun f arg v hcall => ?_) vals ht (hroots.present t ht)
  -- the constant of a scalar is not the table of the gather
  rw [hconsts _ (indexName_ne_scalarName node.name)]
  unfold MoveNode.prepared
  rw [hcall]
  exact get?_set_self _ _ _

/-- The emitted ops read the sources at the decoded indices, through a table unless these are those
of a strided view. -/
theorem evalOps_lowered (hok : node.Ok st) (h : lowerMovement st node = .ok st') :
    ∃ (S : NdArray Source) (table : Bool), node.sources st.tensors = some S ∧
      Named (node.prepared st).tensors node.call.argNames S ∧
      (∀ v, .scalar v ∈ S.data → ∃ f arg, node.call = .setScalar f arg v) ∧
      (table = false ↔ node.Direct st.tensors S) ∧
      ∀ vals, ∃ σ, evalOps st'.consts (st'.ops.drop st.ops.length) (initStore st.tensors vals) =
        (collect (S.data.map fun s => readIndex table
          (concatenated (node.size st.tensors) (node.read vals) node.names)
          (node.index st.tensors s))).map fun r => Function.update σ node.name (some r) := by
  unfold lowerMovement at h
  cases happly : applyNode st node with
  | error e =>
    rw [happly] at h
    cases h
  | ok res =>
    obtain ⟨val, roots, st₁⟩ := res
    rw [happly] at h
    dsimp only at h
    obtain ⟨S, hS, hroots, hnamed, hscalars, rfl⟩ := exists_of_applyNode hok.ne_scalarName happly
    obtain rfl := prepared_of_applyNode happly
    rw [sizeOf_prepared] at h
    have hnames := hroots.items
    split at h
    · cases h
    rename_i hne
    have hfresh := freshFrom_entered hok
    -- the emission starts from the state with the tensor of the node
    change emitMoved (node.entered st) _ _ _ _ _ _ = _ at h
    have hops : (node.entered st).ops = st.ops := prepared_ops
    have hout : ((node.entered st).tensors.get? node.name).isSome := by
      show (((node.prepared st).tensors.set _ _).get? _).isSome = true
      rw [get?_set_self]
      rfl
    have hidx : (S.map (code (node.size st.tensors) node.names (scalarName node.name))).data.map
        decode = S.data.map (node.index st.tensors) := by
      rw [NdArray.data_map, map_map]
      rfl
    have hlen : roots.items.length = node.names.length := by rw [hnames, length_map]
    by_cases hone : roots.items.length = 1
    · obtain ⟨⟨src, a⟩, hsrc⟩ := length_eq_one_iff.mp hone
      obtain ⟨table, htable, hconsts, hrun⟩ := evalOps_emitMoved_one hsrc hout h
      rw [hidx] at htable
      refine ⟨S, table, hS, hnamed, hscalars, ?_, fun vals => ?_⟩
      · rw [htable]
        unfold MoveNode.Direct
        rw [← hlen, forall_mem_map, and_iff_right hone]
        rfl
      · have hall := forall₂_holds_entered hok hroots hconsts vals
        rw [hsrc] at hall
        obtain ⟨data, datas, hholds, hnil, hdatas⟩ := forall₂_cons_left_iff.mp hall
        rw [forall₂_nil_left_iff.mp hnil] at hdatas
        have hconcat : concatenated (node.size st.tensors) (node.read vals) node.names = data := by
          unfold concatenated
          rw [flatMap_def, hdatas, flatten_singleton]
        obtain ⟨σ, heval⟩ := hrun hholds
        refine ⟨σ, ?_⟩
        rw [← hops, heval, hidx, map_map, hconcat]
        rfl
    · have hmany : 2 ≤ roots.items.length := by
        have hpos : 0 < roots.items.length := length_pos_iff.mpr hne
        omega
      obtain ⟨hconsts, hrun⟩ := evalOps_emitMoved_many hfresh hmany h
      refine ⟨S, true, hS, hnamed, hscalars, ?_, fun vals => ?_⟩
      · exact iff_of_false (by simp) fun hdirect => hone (hlen.trans hdirect.1)
      · obtain ⟨σ, heval⟩ := hrun (forall₂_holds_entered hok hroots hconsts vals)
        refine ⟨σ, ?_⟩
        rw [← hops, heval, hidx, map_map]
        rfl

/-! ### When the result is that of the node -/

section
variable {st st' : LowerState} {node : MoveNode} {S : NdArray Source} {table : Bool} {s : Source}
  {p k : ℕ} {t : String} {vals : String → ℕ → TorchFloat} {y : TorchFloat} {x : ℤ}

/-- The ops keep the values if each element is read. -/
theorem keepsValues_iff_reads (hS : node.sources st.tensors = some S)
    (heval : ∀ vals, ∃ σ,
      evalOps st'.consts (st'.ops.drop st.ops.length) (initStore st.tensors vals) =
        (collect (S.data.map fun s => readIndex table
          (concatenated (node.size st.tensors) (node.read vals) node.names)
          (node.index st.tensors s))).map fun r => Function.update σ node.name (some r)) :
    KeepsValues st st' node ↔ ∀ vals, ∀ s ∈ S.data, readIndex table
      (concatenated (node.size st.tensors) (node.read vals) node.names)
      (node.index st.tensors s) = some (s.value vals) := by
  refine forall_congr' fun vals => ?_
  obtain ⟨σ₀, hrun⟩ := heval vals
  rw [node.value_eq, hS, Option.map_some, hrun, ← map_inj_left]
  have hvalue : S.data.map (fun s => some (s.value vals)) =
      (S.map (Source.value vals)).data.map some := by
    rw [NdArray.data_map, map_map]
    rfl
  rw [hvalue, ← collect_eq_some_iff]
  constructor
  · rintro ⟨y, σ, hy, hσ, hname⟩
    obtain rfl := Option.some.inj hy
    obtain ⟨r, hr, rfl⟩ := Option.map_eq_some_iff.mp hσ
    rw [Function.update_self] at hname
    rw [hr, hname]
  · intro hr
    exact ⟨_, _, rfl, by rw [hr]; rfl, Function.update_self ..⟩

/-! #### Elements that have a position -/

/-- The index of an element of a source is its position. -/
theorem index_eq_of_position (hp : node.position st.tensors s = some p) (hlt : p < 2 ^ 53) :
    node.index st.tensors s = p := by
  cases s with
  | elem t k =>
    obtain rfl := Option.some.inj hp
    exact decode_num hlt
  | scalar v =>
    obtain rfl := Option.some.inj hp
    exact decode_num hlt
  | fill v => cases hp
  | uninit => cases hp

/-- What is read at a position is there. -/
theorem readAt_concatenated {size : String → ℕ} {read : String → ℕ → TorchFloat}
    {names : List String} (ht : t ∈ names) (hk : k < size t) :
    readAt (concatenated size read names) ((start size names t + k : ℕ) : ℤ) = some (read t k) := by
  rw [readAt_natCast, getElem?_concatenated ht hk]

theorem wrap_eq_self_of_lt (hp : p < 2 ^ 31) : wrap 32 (p : ℤ) = p := by
  refine wrap_eq_self (by decide) ?_
  unfold Fits
  omega

/-- A position that does not fit is wrapped to another index. -/
theorem wrap_lt (x : ℤ) : wrap 32 x < 2 ^ 31 := (fits_wrap (w := 32) (by decide) x).2

/-- There is a number apart from two. -/
theorem exists_ne_ne (v w : TorchFloat) : ∃ x : TorchFloat, x ≠ v ∧ x ≠ w := by
  have hinf : Infinite TorchFloat :=
    Infinite.of_injective TorchFloat.num fun _ _ h => TorchFloat.num.inj h
  obtain ⟨x, hx⟩ := Infinite.exists_notMem_finset {v, w}
  rw [Finset.mem_insert, Finset.mem_singleton, not_or] at hx
  exact ⟨x, hx⟩

/-- An element of a source is read at its position, if a table takes it. -/
theorem readIndex_of_position (hok : node.Ok st) (hp : node.position st.tensors s = some p)
    (ht : t ∈ node.names) (hk : k < node.size st.tensors t)
    (hpos : p = start (node.size st.tensors) node.names t + k)
    (hvalue : s.value vals = node.read vals t k) (htable : table = true → node.InTable st.tensors s)
    :
    readIndex table (concatenated (node.size st.tensors) (node.read vals) node.names)
      (node.index st.tensors s) = some (s.value vals) := by
  have hlt : p < 2 ^ 53 := by
    rw [hpos]
    exact (start_add_lt ht hk).trans hok.numbered
  have hread : readAt (concatenated (node.size st.tensors) (node.read vals) node.names) p =
      some (s.value vals) := by
    rw [hpos, hvalue]
    exact readAt_concatenated ht hk
  rw [index_eq_of_position hp hlt]
  unfold readIndex
  cases table with
  | false => exact hread
  | true =>
    rcases htable rfl p hp with hsmall | ⟨rfl, hneg⟩
    · rw [wrap_eq_self_of_lt hsmall, if_pos (Int.natCast_nonneg p)]
      exact hread
    · rw [if_neg (not_le.mpr hneg)]
      rfl

theorem nodup_names (node : MoveNode) : node.names.Nodup := by
  unfold MoveNode.names
  cases node.call <;> exact PyList.nodup_orderedUnique _

/-- What is read from a buffer at an index is an element of a source. -/
theorem exists_of_readAt
    (h : readAt (concatenated (node.size st.tensors) (node.read vals) node.names) x = some y) :
    ∃ t ∈ node.names, ∃ k < node.size st.tensors t,
      x = (start (node.size st.tensors) node.names t + k : ℕ) ∧ y = node.read vals t k := by
  unfold readAt at h
  split at h
  · rename_i hx
    obtain ⟨t, ht, k, hk, hpos, hy⟩ := exists_of_getElem?_concatenated (nodup_names node) h
    exact ⟨t, ht, k, hk, by omega, hy⟩
  · cases h

/-- What is read through a table is zero, or an element of a source. -/
theorem eq_zero_or_exists_of_readIndex
    (h : readIndex true (concatenated (node.size st.tensors) (node.read vals) node.names) x =
      some y) :
    y = .zero ∧ wrap 32 x < 0 ∨ ∃ t ∈ node.names, ∃ k < node.size st.tensors t,
      wrap 32 x = (start (node.size st.tensors) node.names t + k : ℕ) ∧
        y = node.read vals t k := by
  unfold readIndex at h
  rw [if_pos rfl] at h
  split at h
  · exact .inr (exists_of_readAt h)
  · rename_i hneg
    exact .inl ⟨(Option.some.inj h).symm, not_le.mp hneg⟩

/-- A position that the table does not take is read as something else, for some values. -/
theorem exists_readIndex_ne (hok : node.Ok st)
    (hnamed : Named (node.prepared st).tensors node.call.argNames S)
    (hscalars : ∀ v, .scalar v ∈ S.data → ∃ f arg, node.call = .setScalar f arg v) (hs : s ∈ S.data)
    (hno : ¬ node.InTable st.tensors s) :
    ∃ vals, readIndex true (concatenated (node.size st.tensors) (node.read vals) node.names)
      (node.index st.tensors s) ≠ some (s.value vals) := by
  unfold MoveNode.InTable at hno
  push Not at hno
  obtain ⟨p, hp, hlarge, hzero⟩ := hno
  have hindex : node.index st.tensors s = p := by
    refine index_eq_of_position hp ?_
    obtain ⟨t, ht, k, hk, rfl, -⟩ := exists_of_position hnamed hscalars (fun _ _ => .nan) hs hp hok
    exact (start_add_lt ht hk).trans hok.numbered
  have hne : wrap 32 (p : ℤ) ≠ p := by
    have hlt := wrap_lt p
    omega
  rw [hindex]
  cases s with
  | fill v => cases hp
  | uninit => cases hp
  | elem t k =>
    obtain rfl := Option.some.inj hp
    -- the element has a value that nothing else has
    obtain ⟨x, hx, hxv⟩ := exists_ne_ne .zero (match node.call with
        | .call _ _ => .zero
        | .setScalar _ _ v => v)
    refine ⟨fun t' k' => if t' = t ∧ k' = k then x else .zero, fun hread => ?_⟩
    have hvalue : (Source.elem t k).value (fun t' k' => if t' = t ∧ k' = k then x else .zero) =
        x := if_pos ⟨rfl, rfl⟩
    rw [hvalue] at hread
    rcases eq_zero_or_exists_of_readIndex hread with ⟨hy, -⟩ | ⟨t', ht', k', hk', hw, hy⟩
    · exact hx hy
    · have hsame : t' = t ∧ k' = k := by
        by_contra hother
        have hplain : (if t' = t ∧ k' = k then x else TorchFloat.zero) = .zero := if_neg hother
        unfold MoveNode.read at hy
        cases hcall : node.call with
        | call f args =>
          rw [hcall] at hy
          exact hx (hy.trans hplain)
        | setScalar f arg v =>
          rw [hcall] at hy hxv
          dsimp only at hy hxv
          by_cases hscalar : t' = scalarName node.name
          · rw [if_pos hscalar] at hy
            exact hxv hy
          · rw [if_neg hscalar] at hy
            exact hx (hy.trans hplain)
      obtain ⟨rfl, rfl⟩ := hsame
      exact hne hw
  | scalar v =>
    obtain rfl := Option.some.inj hp
    obtain ⟨f, arg, hcall⟩ := hscalars v hs
    obtain ⟨x, hx, -⟩ := exists_ne_ne v .zero
    refine ⟨fun _ _ => x, fun hread => ?_⟩
    rcases eq_zero_or_exists_of_readIndex hread with ⟨hy, hneg⟩ | ⟨t', ht', k', hk', hw, hy⟩
    · obtain rfl : v = .zero := hy
      exact absurd hneg (not_lt.mpr (hzero rfl))
    · have hsame : t' = scalarName node.name := by
        by_contra hother
        unfold MoveNode.read at hy
        rw [hcall] at hy
        dsimp only at hy
        rw [if_neg hother] at hy
        exact hx hy.symm
      subst hsame
      rw [(scalarName_spec st hcall).2] at hk'
      obtain rfl : k' = 0 := by omega
      exact hne hw

/-! #### Fill values -/

/-- A fill value of zero is read through a table. -/
theorem readIndex_fill_zero {data : List TorchFloat} :
    readIndex true data (node.index st.tensors (.fill .zero)) = some .zero := by
  have hindex : node.index st.tensors (.fill .zero) = -1 := decode_zero
  rw [hindex]
  unfold readIndex
  rw [if_pos rfl, if_neg (by decide)]

/-- Another fill value is not read, for some values. -/
theorem exists_readIndex_fill_ne (st : LowerState) (table : Bool) {f : Movement}
    {args : List MoveArg} (hcall : node.call = .call f args) {v : TorchFloat} (hv : v ≠ .zero) (x : ℤ) :
    ∃ vals, readIndex table (concatenated (node.size st.tensors) (node.read vals) node.names) x ≠
      some v := by
  obtain ⟨y, hy, -⟩ := exists_ne_ne v .zero
  have hread : ∀ {t k}, node.read (fun _ _ => y) t k = y := by
    intro t k
    unfold MoveNode.read
    rw [hcall]
  refine ⟨fun _ _ => y, fun h => ?_⟩
  cases table with
  | true =>
    rcases eq_zero_or_exists_of_readIndex h with ⟨hzero, -⟩ | ⟨t, -, k, -, -, heq⟩
    · exact hv hzero
    · exact hy (heq.trans hread).symm
  | false =>
    obtain ⟨t, -, k, -, -, heq⟩ := exists_of_readAt h
    exact hy (heq.trans hread).symm

/-! #### Views with strides -/

/-- Without fill values, what is decoded as a view with strides is one. -/
theorem isStrided_of_direct (hok : node.Ok st) (hS : node.sources st.tensors = some S)
    (hnamed : Named (node.prepared st).tensors node.call.argNames S)
    (hscalars : ∀ v, .scalar v ∈ S.data → ∃ f arg, node.call = .setScalar f arg v)
    (hzero : ZeroFills S) (h : node.Direct st.tensors S) : node.IsStrided st.tensors S := by
  obtain ⟨hone, hnonneg, hsome⟩ := h
  obtain ⟨⟨off, strides⟩, haffine⟩ := Option.isSome_iff_exists.mp hsome
  obtain ⟨hlen, hgrid⟩ := eq_of_affine haffine
  refine ⟨hone, off, strides, hlen, ?_⟩
  have hpos : S.data.map (fun s => (node.position st.tensors s).map fun p : ℕ => (p : ℤ)) =
      S.data.map fun s => some (node.index st.tensors s) := by
    apply map_congr_left
    intro s hs
    cases hp : node.position st.tensors s with
    | some p =>
      obtain ⟨t, ht, k, hk, heq, -⟩ :=
        exists_of_position hnamed hscalars (fun _ _ => .nan) hs hp hok
      rw [index_eq_of_position hp (by rw [heq]; exact (start_add_lt ht hk).trans hok.numbered)]
      rfl
    | none =>
      cases s with
      | elem t k => cases hp
      | scalar v => cases hp
      | uninit => exact absurd hs (hok.shapeOnly S hS)
      | fill v =>
        obtain rfl := hzero v hs
        have hneg : node.index st.tensors (.fill .zero) = -1 := decode_zero
        have hle := hnonneg _ hs
        omega
  have hmap : S.data.map (fun s => some (node.index st.tensors s)) =
      (S.data.map (node.index st.tensors)).map some := by
    rw [map_map]
    rfl
  rw [hpos, hmap, hgrid, map_map]
  rfl

/-- A view with strides is decoded as one, unless there is nothing to place. -/
theorem direct_of_isStrided (hok : node.Ok st)
    (hnamed : Named (node.prepared st).tensors node.call.argNames S)
    (hscalars : ∀ v, .scalar v ∈ S.data → ∃ f arg, node.call = .setScalar f arg v)
    (hne : S.data ≠ []) (h : node.IsStrided st.tensors S) : node.Direct st.tensors S := by
  obtain ⟨hone, off, strides, hlen, hgrid⟩ := h
  have hindex : ∀ s ∈ S.data, node.position st.tensors s =
      some (node.index st.tensors s).toNat ∧ 0 ≤ node.index st.tensors s := by
    intro s hs
    have hmem := mem_map_of_mem
      (f := fun s => (node.position st.tensors s).map fun p : ℕ => (p : ℤ)) hs
    rw [hgrid] at hmem
    obtain ⟨x, -, hx⟩ := mem_map.mp hmem
    obtain ⟨p, hp, -⟩ := Option.map_eq_some_iff.mp hx.symm
    obtain ⟨t, ht, k, hk, heq, -⟩ := exists_of_position hnamed hscalars (fun _ _ => .nan) hs hp hok
    rw [index_eq_of_position hp (by rw [heq]; exact (start_add_lt ht hk).trans hok.numbered)]
    exact ⟨hp, Int.natCast_nonneg p⟩
  refine ⟨hone, fun s hs => (hindex s hs).2, ?_⟩
  have hpos : ∀ n ∈ S.shape, 0 < n := by
    intro n hn
    refine Nat.pos_of_ne_zero fun h0 => hne ?_
    rw [← length_eq_zero_iff, S.size_eq, prod_eq_zero_iff]
    exact h0 ▸ hn
  have hidx : S.data.map (node.index st.tensors) =
      (Strided.offsets (S.shape.zip strides)).map fun x => off + x := by
    apply map_injective_iff.mpr (Option.some_injective ℤ)
    rw [map_map, map_map]
    refine Eq.trans (map_congr_left fun s hs => ?_) hgrid
    obtain ⟨hp, hle⟩ := hindex s hs
    rw [hp, Option.map_some, Int.toNat_of_nonneg hle]
    rfl
  rw [hidx]
  exact affine_isSome hlen hpos off

/-- The ops of a movement keep the values of every node whose fill values are zero, if positions fit
into the table that a gather has. -/
theorem keepsValues_iff (hok : node.Ok st) (h : lowerMovement st node = .ok st') :
    KeepsValues st st' node ↔ ∃ S, node.sources st.tensors = some S ∧ ZeroFills S ∧
      (¬ node.IsStrided st.tensors S → ∀ s ∈ S.data, node.InTable st.tensors s) := by
  obtain ⟨S, table, hS, hnamed, hscalars, htable, heval⟩ := evalOps_lowered hok h
  rw [keepsValues_iff_reads hS heval]
  constructor
  · intro hreads
    have hzero : ZeroFills S := by
      intro v hv
      by_contra hne
      cases hcall : node.call with
      | call f args =>
        obtain ⟨vals, hno⟩ := exists_readIndex_fill_ne st table hcall hne
          (node.index st.tensors (.fill v))
        exact hno (hreads vals _ hv)
      | setScalar f arg w => exact hok.setItem f arg w hcall S hS v hv
    refine ⟨S, hS, hzero, fun hstrided s hs => ?_⟩
    by_contra hno
    obtain ⟨vals, hne⟩ := exists_readIndex_ne hok hnamed hscalars hs hno
    cases htab : table with
    | true => exact hne (htab ▸ hreads vals s hs)
    | false =>
      exact hstrided (isStrided_of_direct hok hS hnamed hscalars hzero (htable.mp htab))
  · rintro ⟨S', hS', hzero, hin⟩ vals s hs
    obtain rfl : S = S' := Option.some.inj (hS.symm.trans hS')
    have hfits : table = true → node.InTable st.tensors s := by
      intro htab
      refine hin (fun hstrided => ?_) s hs
      have hdirect := direct_of_isStrided hok hnamed hscalars (ne_nil_of_mem hs) hstrided
      rw [htable.mpr hdirect] at htab
      cases htab
    cases hp : node.position st.tensors s with
    | some p =>
      obtain ⟨t, ht, k, hk, hpos, hvalue⟩ := exists_of_position hnamed hscalars vals hs hp hok
      exact readIndex_of_position hok hp ht hk hpos hvalue hfits
    | none =>
      cases s with
      | elem t k => cases hp
      | scalar v => cases hp
      | uninit => exact absurd hs (hok.shapeOnly S hS)
      | fill v =>
        obtain rfl := hzero v hs
        have htab : table = true := by
          by_contra hne
          have hdirect := htable.mp (Bool.not_eq_true table ▸ hne)
          have hneg : node.index st.tensors (.fill .zero) = -1 := decode_zero
          have hle := hdirect.2.1 _ hs
          omega
        rw [htab]
        exact readIndex_fill_zero

end

/-! ### A vector that is padded -/

/-- `pad` of a vector by one value at its end. -/
def padEnd (v : TorchFloat) : Movement where
  shape
    | [[n]] => some [n + 1]
    | _ => none
  place
    | [[n]] => (List.range n).map (.elem 0) ++ [.fill v]
    | _ => []
  size := by
    intro ins out h
    split at h
    · cases h
      simp
    · cases h
  inside := by
    intro ins out h arg k hmem
    split at h
    · rename_i n
      rcases mem_append.mp hmem with hin | hlast
      · obtain ⟨j, hj, heq⟩ := mem_map.mp hin
        cases heq
        exact ⟨[n], rfl, by simpa using hj⟩
      · cases mem_singleton.mp hlast
    · cases h

/-- A vector of two elements is padded by one value. -/
def padNode (v : TorchFloat) : MoveNode where
  name := "pad"
  call := .call (padEnd v) [.tensor "x"]
  metaShape := [3]
  graphOutput := true

/-- A graph with a vector of two elements. -/
def vectorState : LowerState where
  tensors := PyDict.ofList [("x", [2])]
  consts := PyDict.empty
  tmp := 0
  ops := []

theorem sources_padNode (v : TorchFloat) : ∃ S, (padNode v).sources vectorState.tensors = some S ∧
    S.data = [.elem "x" 0, .elem "x" 1, .fill v] :=
  ⟨_, rfl, rfl⟩

theorem ok_padNode (v : TorchFloat) : (padNode v).Ok vectorState where
  args := by
    intro t ht
    obtain rfl := mem_singleton.mp ht
    decide
  fresh := by
    intro s
    have hne : "pad" ++ "__" ++ s ≠ "x" := by
      intro h
      have hlist := congrArg String.toList h
      rw [String.toList_append] at hlist
      cases hlist
    exact get?_set_of_ne PyDict.empty [2] hne
  shapeOnly := by
    intro S hS hmem
    obtain ⟨S', hS', hdata⟩ := sources_padNode v
    obtain rfl : S = S' := Option.some.inj (hS.symm.trans hS')
    rw [hdata] at hmem
    simp at hmem
  setItem := fun f arg w h => by cases h
  numbered := by
    show [2].sum < 2 ^ 53
    decide

/-- A vector padded by zero is lowered to ops that compute it. -/
theorem keepsValues_padNode_zero : ∃ st', lowerMovement vectorState (padNode .zero) = .ok st' ∧
    KeepsValues vectorState st' (padNode .zero) := by
  have hsome : (lowerMovement vectorState (padNode .zero)).toOption.isSome := by decide +kernel
  cases h : lowerMovement vectorState (padNode .zero) with
  | error e =>
    rw [h] at hsome
    cases hsome
  | ok st' =>
    obtain ⟨S, hS, hdata⟩ := sources_padNode .zero
    refine ⟨st', rfl, (keepsValues_iff (ok_padNode .zero) h).mpr ⟨S, hS, ?_, fun _ s hs p hp => ?_⟩⟩
    · intro v hv
      rw [hdata] at hv
      simpa using hv
    · rw [hdata] at hs
      left
      simp only [mem_cons, not_mem_nil, or_false] at hs
      rcases hs with rfl | rfl | rfl
      · obtain rfl := Option.some.inj hp
        decide
      · obtain rfl := Option.some.inj hp
        decide
      · cases hp

/-- A vector padded by one has its own first element at the end. -/
theorem not_keepsValues_padNode_one : ¬ ∀ (st st' : LowerState) (node : MoveNode), node.Ok st →
    lowerMovement st node = .ok st' → KeepsValues st st' node := by
  intro hall
  have hout : ((lowerMovement vectorState (padNode (.num 1))).toOption.bind fun st' =>
      (evalOps st'.consts (st'.ops.drop vectorState.ops.length)
        (initStore vectorState.tensors fun _ k => .num (k + 5))).bind fun σ => σ "pad") =
          some [.num 5, .num 6, .num 5] := by
    decide +kernel
  have hvalue : ((padNode (.num 1)).value vectorState.tensors fun _ k => .num (k + 5)).map
      NdArray.data = some [.num 5, .num 6, .num 1] := by
    decide +kernel
  cases h : lowerMovement vectorState (padNode (.num 1)) with
  | error e =>
    rw [h] at hout
    cases hout
  | ok st' =>
    obtain ⟨y, σ, hy, hσ, hname⟩ :=
      hall _ _ _ (ok_padNode (.num 1)) h fun _ k => .num (k + 5)
    rw [hy, Option.map_some] at hvalue
    have hrun : σ "pad" = some [.num 5, .num 6, .num 5] := by
      rw [h] at hout
      have hbind : (evalOps st'.consts (st'.ops.drop vectorState.ops.length)
          (initStore vectorState.tensors fun _ k => .num (k + 5))).bind (fun σ => σ "pad") =
            some [.num 5, .num 6, .num 5] := hout
      rwa [hσ] at hbind
    have heq : some [TorchFloat.num 5, .num 6, .num 5] = some [.num 5, .num 6, .num 1] :=
      hrun.symm.trans (hname.trans hvalue)
    exact absurd heq (by decide)

end ModelBlaster.Lowering
