import ModelBlaster.Rewrite.GraphEdit
import ModelBlaster.KernelFusion.ChainStages

/-!
# Structural verification of an edited graph

`graph_verify.structural` compares an edited graph with the graph it was made from. The graph is
walkable if the checks of its io, names, tensors, order, weights and kinds all pass.

## Main definitions

* `ioOk`, `namesOk`, `tensorsOk`, `dagOk`, `kindsOk`: the checks;
* `walkable`: their verdict;
* `walkGraph`: the walk over the graph, as far as it has values for the tensors that it reads;
* `WalksOnce`: every tensor has one definition, and the walk has values for all it reads;
* `EditFollowed`: what the checks do not see.

## Main results

* `walksOnce_iff`: a walkable graph walks once if and only if it is so there.
-/

namespace ModelBlaster.GraphEdit

open KernelFusion

/-! ### Graphs -/

/-- The fields of an op besides its name and its tensors. -/
structure OpFields where
  kind : String
  shape : PyDict String FieldValue
  offset : Option ℤ
  /-- The other fields that a binding looks up. -/
  fields : PyDict String FieldValue
  /-- The stages of a fused op, or the members of a region. -/
  subOps : Option (List KernelOp)

/-- The fields of an entry of `tensors`. -/
structure TensorFields where
  /-- `shape`, if it is a list of integers. -/
  shape : Option (List ℤ)
  dtype : Option String
  /-- `const` -/
  constKey : Option String
deriving DecidableEq

variable {β ι ν : Type}

/-- A graph to be verified. The output is given by the names of its tensors. -/
abbrev VerifyGraph (β ι ν : Type) : Type :=
  EditGraph OpFields β TensorFields ι (List String) ν

/-- An op to be verified. -/
abbrev VerifyOp (β : Type) : Type := EditOp OpFields β

/-- The op without its sub-ops. -/
def kernelOf (o : VerifyOp β) : KernelOp where
  name := o.name
  op := o.rest.kind
  inputs := o.reads
  outputs := o.writes
  shape := o.rest.shape
  offset := o.rest.offset
  fields := o.rest.fields
  internal := o.internal.getD []

/-- The tensors that an op lists as its outputs or inside. -/
def EditOp.listed (o : VerifyOp β) : List String := o.writes ++ o.internal.getD []

/-- The constants of a graph. -/
def EditGraph.consts (g : VerifyGraph β ι ν) : List String :=
  (g.tensors.items.filter fun item => item.2.isConst).map Prod.fst

/-- The graph inputs and the constants. -/
def EditGraph.given (g : VerifyGraph β ι ν) : List String := g.input.names ++ g.consts

/-- All tensors that the ops list. -/
def EditGraph.allListed (g : VerifyGraph β ι ν) : List String := g.ops.flatMap EditOp.listed

/-! ### Checks -/

/-- The declarations of the inputs and outputs are unchanged, and so are their tensors. -/
def ioOk [DecidableEq ι] (g0 g1 : VerifyGraph β ι ν) : Bool :=
  g1.input = g0.input ∧ g1.output = g0.output ∧
    ∀ t ∈ g0.input.names ++ g0.output,
      (g1.tensors.get? t).isSome ∧ g1.tensors.get? t = g0.tensors.get? t

/-- The names that are there more than once. -/
def duplicates (names : List String) : List String := names.filter fun n => 1 < names.count n

/-- No names are new duplicates, and no tensor is listed by two ops. -/
def namesOk (g0 g1 : VerifyGraph β ι ν) : Bool :=
  let names (g : VerifyGraph β ι ν) := g.ops.map fun o => o.name
  ((duplicates (names g1)).all fun n => n ∈ duplicates (names g0)) && duplicates g1.allListed = []

/-- `_TENSOR_DTYPES` -/
def tensorDtypes : List String := ["f32", "f16", "bf16", "i64", "i32", "b8", "u8"]

/-- An entry of the table is in order, and as in the original graph. -/
def entryOk (g0 : VerifyGraph β ι ν) (t : String) (m : TensorMeta TensorFields) : Bool :=
  (match m.rest.shape with
    | some shape => shape.all (0 < ·)
    | none => false) &&
  (match m.rest.dtype with
    | some dtype => tensorDtypes.contains dtype
    | none => false) &&
  match g0.tensors.get? t with
  | some m0 => m0.rest.shape = m.rest.shape ∧ m0.rest.dtype = m.rest.dtype
  | none => true

/-- The tensors of an op are in the table. -/
def registered (g : VerifyGraph β ι ν) (o : VerifyOp β) : Bool :=
  (∀ t ∈ o.reads ++ o.listed, t ∈ g.tensors.keys) ∧
    ∀ s ∈ o.rest.subOps.getD [], ∀ t ∈ s.inputs ++ s.outputs, t ∈ g.tensors.keys

/-- The table is in order, it has all tensors of the ops, and the outputs are produced. -/
def tensorsOk (g0 g1 : VerifyGraph β ι ν) : Bool :=
  (g1.tensors.items.all fun item => entryOk g0 item.1 item.2) &&
    g1.ops.all (registered g1) &&
      g1.output.all fun t => t ∈ g1.allListed ∨ t ∈ g1.input.names

/-- `prod_idx`: the first op that lists a tensor. -/
def producerIndex (ops : List (VerifyOp β)) : PyDict String ℕ :=
  ops.zipIdx.foldl (fun d p => p.1.listed.foldl
    (fun d t => if t ∈ d.keys then d else d.set t p.2) d) PyDict.empty

/-- An op reads what is available, or what it lists itself. -/
def dagScan (prodIdx : PyDict String ℕ) : ℕ → List String → List (VerifyOp β) → Bool
  | _, _, [] => true
  | i, avail, o :: rest =>
    (o.reads.all fun t => t ∈ avail ∨ prodIdx.get? t = some i) &&
      dagScan prodIdx (i + 1) (avail ++ o.listed) rest

/-- The ops are in an order in which they can run. -/
def dagOk (g : VerifyGraph β ι ν) : Bool :=
  dagScan (producerIndex g.ops) 0 g.given g.ops && (toposort g).isOk

/-- `_bind_op`. A region is bound by the parameters of its spec. -/
def bindOp (specs : String → Option (List Param)) (o : VerifyOp β) : Bool :=
  if "region__".toList.isPrefixOf o.rest.kind.toList then true
  else
    match o.rest.subOps with
    | some stages => stages.all fun s =>
      match specs s.op with
      | some params => (bind s params).isOk
      | none => false
    | none =>
      match specs o.rest.kind with
      | some params => (bind (kernelOf o) params).isOk
      | none => false

/-- Every kind has a spec, and every op is bound to it. The specs are those of `with_fused_specs`,
if they can be built. -/
def kindsOk (specs : Option (String → Option (List Param))) (g : VerifyGraph β ι ν) : Bool :=
  match specs with
  | some specs => g.ops.all fun o =>
    o.rest.kind ∈ aliasOps || (specs o.rest.kind).isSome && bindOp specs o
  | none => false

/-- What `structural` reports. `weights` is the outcome of the check of the weights. -/
def walkable [DecidableEq ι] (specs : Option (String → Option (List Param))) (weights : Bool)
    (g0 g1 : VerifyGraph β ι ν) : Bool :=
  ioOk g0 g1 && namesOk g0 g1 && tensorsOk g0 g1 && dagOk g1 && weights && kindsOk specs g1

/-! ### The walk -/

mutual

/-- The ops that run for an op: its sub-ops, if it has any. -/
def leaves : KernelOp → List KernelOp
  | ⟨name, op, inputs, outputs, shape, offset, fields, internal, []⟩ =>
    [⟨name, op, inputs, outputs, shape, offset, fields, internal, []⟩]
  | ⟨_, _, _, _, _, _, _, _, s :: rest⟩ => leaves s ++ allLeaves rest

@[inherit_doc leaves]
def allLeaves : List KernelOp → List KernelOp
  | [] => []
  | s :: rest => leaves s ++ allLeaves rest

end

/-- The ops that run for an op of the graph. -/
def stepsOf (o : VerifyOp β) : List KernelOp :=
  match o.rest.subOps with
  | some subOps => allLeaves subOps
  | none => [kernelOf o]

/-- An op runs, if there are values for all it reads. -/
def walkStep (env : List String) (s : KernelOp) : Option (List String) :=
  if ∀ t ∈ s.inputs, t ∈ env then some (env ++ s.outputs) else none

/-- `walk`: the tensors that have a value at the end. -/
def walkGraph (g : VerifyGraph β ι ν) : Option (List String) :=
  (g.ops.flatMap stepsOf).foldlM walkStep g.given

/-! ## What structural verification admits -/

open List

variable {g g0 g1 : VerifyGraph β ι ν}

/-! ### Definitions of tensors -/

/-- Where the tensors are defined: as graph inputs and constants, and by the ops. -/
def EditGraph.definitions (g : VerifyGraph β ι ν) : List String := g.given ++ g.allListed

/-- The inputs of a graph are distinct, and no constants. -/
structure InputsDistinct (g : VerifyGraph β ι ν) : Prop where
  nodup : g.input.names.Nodup
  notConst : ∀ t ∈ g.input.names, ∀ m, g.tensors.get? t = some m → m.isConst = false

variable {t : String} {ops after before : List (VerifyOp β)} {i : ℕ} {o : VerifyOp β}
  {env : List String}

theorem mem_consts : t ∈ g.consts ↔ ∃ m, g.tensors.get? t = some m ∧ m.isConst := by
  rw [EditGraph.consts, mem_map]
  constructor
  · rintro ⟨⟨k, m⟩, hmem, rfl⟩
    obtain ⟨hitem, hconst⟩ := mem_filter.mp hmem
    exact ⟨m, PyDict.mem_items_iff.mp hitem, hconst⟩
  · rintro ⟨m, hget, hconst⟩
    exact ⟨(t, m), mem_filter.mpr ⟨PyDict.mem_items_iff.mpr hget, hconst⟩, rfl⟩

/-- The graph inputs and constants of an edited graph are distinct. -/
theorem nodup_given [DecidableEq ι] (h : ioOk g0 g1 = true) (hbase : InputsDistinct g0) :
    g1.given.Nodup := by
  obtain ⟨hinput, -, htensors⟩ := of_decide_eq_true h
  have hconsts : g1.consts.Nodup := by
    have hkeys : (g1.tensors.items.map Prod.fst).Nodup := g1.tensors.nodup
    exact hkeys.sublist (filter_sublist.map Prod.fst)
  rw [EditGraph.given, hinput, nodup_append]
  refine ⟨hbase.nodup, hconsts, ?_⟩
  rintro t ht _ hconst rfl
  obtain ⟨m, hget, hm⟩ := mem_consts.mp hconst
  rw [(htensors t (mem_append_left _ ht)).2] at hget
  rw [hbase.notConst t ht m hget] at hm
  exact Bool.false_ne_true hm

theorem nodup_of_duplicates {l : List String} (h : duplicates l = []) : l.Nodup := by
  rw [nodup_iff_count_le_one]
  intro t
  by_contra hcount
  have hmem : t ∈ duplicates l := by
    refine mem_filter.mpr ⟨?_, decide_eq_true (Nat.lt_of_not_le hcount)⟩
    exact count_pos_iff.mp (by omega)
  rw [h] at hmem
  exact not_mem_nil hmem

/-! ### The order of the ops -/

theorem listed_of_producerIndex (h : (producerIndex ops).get? t = some i) :
    ∃ o, ops[i]? = some o ∧ t ∈ o.listed := by
  have hop : ∀ (l : List String) (d : PyDict String ℕ) (j : ℕ),
      (l.foldl (fun d t => if t ∈ d.keys then d else d.set t j) d).get? t = some i →
        d.get? t = some i ∨ j = i ∧ t ∈ l := by
    intro l
    induction l with
    | nil => exact fun d j hget => .inl hget
    | cons x rest ih =>
      intro d j hget
      rcases ih _ j hget with hget | ⟨hj, hmem⟩
      · dsimp only at hget
        split_ifs at hget with hx
        · exact .inl hget
        · rw [PyDict.get?_set] at hget
          split_ifs at hget with htx
          · exact .inr ⟨Option.some.inj hget, htx ▸ mem_cons_self⟩
          · exact .inl hget
      · exact .inr ⟨hj, mem_cons_of_mem x hmem⟩
  have hall : ∀ (l : List (VerifyOp β × ℕ)) (d : PyDict String ℕ),
      (l.foldl (fun d p => p.1.listed.foldl
        (fun d t => if t ∈ d.keys then d else d.set t p.2) d) d).get? t = some i →
          d.get? t = some i ∨ ∃ o, (o, i) ∈ l ∧ t ∈ o.listed := by
    intro l
    induction l with
    | nil => exact fun d hget => .inl hget
    | cons p rest ih =>
      intro d hget
      rcases ih _ hget with hget | ⟨o, ho, ht⟩
      · rcases hop _ _ _ hget with hget | ⟨rfl, ht⟩
        · exact .inl hget
        · exact .inr ⟨p.1, mem_cons_self, ht⟩
      · exact .inr ⟨o, mem_cons_of_mem p ho, ht⟩
  rcases hall _ _ h with hempty | ⟨o, ho, ht⟩
  · cases hempty
  · exact ⟨o, mem_zipIdx_iff_getElem?.mp ho, ht⟩

/-- What an op reads is given, or listed by an op before it, or by itself. -/
theorem reads_of_dagScan {prodIdx : PyDict String ℕ} {avail : List String}
    (h : dagScan prodIdx i avail (before ++ o :: after) = true) (ht : t ∈ o.reads) :
    t ∈ avail ∨ t ∈ before.flatMap EditOp.listed ∨ prodIdx.get? t = some (i + before.length) := by
  induction before generalizing i avail with
  | nil =>
    rw [nil_append, dagScan, Bool.and_eq_true] at h
    rcases of_decide_eq_true (all_eq_true.mp h.1 t ht) with hmem | hown
    · exact .inl hmem
    · exact .inr (.inr hown)
  | cons p before ih =>
    rw [cons_append, dagScan, Bool.and_eq_true] at h
    rw [flatMap_cons, mem_append, length_cons]
    rcases ih h.2 with hmem | hmem | hown
    · rcases mem_append.mp hmem with hmem | hmem
      · exact .inl hmem
      · exact .inr (.inl (.inl hmem))
    · exact .inr (.inl (.inr hmem))
    · rw [Nat.add_right_comm, Nat.add_assoc] at hown
      exact .inr (.inr hown)

/-! ### The walk -/

/-- The tensors that have a value after some ops. -/
def EditGraph.valuesAfter (g : VerifyGraph β ι ν) (before : List (VerifyOp β)) : List String :=
  g.given ++ (before.flatMap stepsOf).flatMap KernelOp.outputs

theorem eq_of_foldlM_walkStep {steps : List KernelOp} {env' : List String}
    (h : steps.foldlM walkStep env = some env') : env' = env ++ steps.flatMap KernelOp.outputs := by
  induction steps generalizing env with
  | nil =>
    cases h
    exact (append_nil _).symm
  | cons s steps ih =>
    obtain ⟨env₁, hstep, h⟩ := Option.bind_eq_some_iff.mp h
    rw [walkStep] at hstep
    split_ifs at hstep
    obtain rfl := Option.some.inj hstep
    rw [ih h, flatMap_cons, append_assoc]

/-- The walk gets through if it gets through every op. -/
theorem isSome_walk_iff :
    ((ops.flatMap stepsOf).foldlM walkStep env).isSome ↔ ∀ before o after,
      ops = before ++ o :: after → ((stepsOf o).foldlM walkStep
        (env ++ (before.flatMap stepsOf).flatMap KernelOp.outputs)).isSome := by
  induction ops generalizing env with
  | nil =>
    constructor
    · intro _ before o after h
      exact absurd (congrArg List.length h) (by simp)
    · exact fun _ => rfl
  | cons p ops ih =>
    rw [flatMap_cons, foldlM_append]
    constructor
    · intro h before o after hsplit
      obtain ⟨env', henv'⟩ := Option.isSome_iff_exists.mp h
      obtain ⟨env₁, hfirst, hrest⟩ := Option.bind_eq_some_iff.mp henv'
      obtain rfl := eq_of_foldlM_walkStep hfirst
      cases before with
      | nil =>
        obtain ⟨rfl, rfl⟩ := cons_eq_cons.mp hsplit
        rw [flatMap_nil, flatMap_nil, append_nil, hfirst]
        rfl
      | cons q before =>
        obtain ⟨rfl, rfl⟩ := cons_eq_cons.mp hsplit
        rw [flatMap_cons, flatMap_append, ← append_assoc]
        exact ih.mp (by rw [hrest]; rfl) before o after rfl
    · intro h
      obtain ⟨env₁, hfirst⟩ := Option.isSome_iff_exists.mp (h [] p ops rfl)
      rw [flatMap_nil, flatMap_nil, append_nil] at hfirst
      obtain rfl := eq_of_foldlM_walkStep hfirst
      rw [hfirst]
      apply ih.mpr
      intro before o after hsplit
      have := h (p :: before) o after (by rw [hsplit]; rfl)
      rwa [flatMap_cons, flatMap_append, ← append_assoc] at this

theorem isSome_walk_of_plain (ho : o.rest.subOps = none) (env : List String) :
    ((stepsOf o).foldlM walkStep env).isSome ↔ ∀ t ∈ o.reads, t ∈ env := by
  have hsteps : stepsOf o = [kernelOf o] := by rw [stepsOf, ho]
  rw [hsteps, foldlM_cons]
  by_cases hreads : ∀ t ∈ o.reads, t ∈ env
  · have hstep : walkStep env (kernelOf o) = some (env ++ o.writes) := if_pos hreads
    rw [hstep]
    exact iff_of_true rfl hreads
  · have hstep : walkStep env (kernelOf o) = none := if_neg hreads
    rw [hstep]
    exact iff_of_false Bool.false_ne_true hreads

/-! ### What the checks do not see -/

/-- Every tensor has one definition, and the walk has values for all it reads. -/
structure WalksOnce (g : VerifyGraph β ι ν) : Prop where
  /-- A tensor is a graph input, a constant, or listed by one op. -/
  single : ∀ t ∈ g.tensors.keys, g.definitions.count t = 1
  /-- What runs for an op writes what the op lists. -/
  own : ∀ o ∈ g.ops, ∀ s ∈ stepsOf o, ∀ t ∈ s.outputs, t ∈ o.listed
  /-- Nothing is read that has no value yet. -/
  walk : (walkGraph g).isSome

/-- What an edit has to keep to by itself. -/
structure EditFollowed (g : VerifyGraph β ι ν) : Prop where
  /-- No op lists a graph input or a constant. -/
  fresh : ∀ o ∈ g.ops, ∀ t ∈ o.listed, t ∉ g.given
  /-- No entry of the table is left over. -/
  used : ∀ t ∈ g.tensors.keys, t ∈ g.definitions
  /-- Sub-ops write what their op lists. -/
  members : ∀ o ∈ g.ops, o.rest.subOps ≠ none → ∀ s ∈ stepsOf o, ∀ t ∈ s.outputs, t ∈ o.listed
  /-- No op without sub-ops reads what it lists itself. -/
  apart : ∀ o ∈ g.ops, o.rest.subOps = none → ∀ t ∈ o.reads, t ∉ o.listed
  /-- What an op lists and a later op without sub-ops reads is written. -/
  stored : ∀ before o after, g.ops = before ++ o :: after → o.rest.subOps = none →
    ∀ t ∈ o.reads, ∀ p ∈ before, t ∈ p.listed → ∃ s ∈ stepsOf p, t ∈ s.outputs
  /-- Sub-ops get through with what has been written before them. -/
  stages : ∀ before o after, g.ops = before ++ o :: after → o.rest.subOps ≠ none →
    ((stepsOf o).foldlM walkStep (g.valuesAfter before)).isSome

/-- What the verdict says about an edited graph. -/
structure Checked (g : VerifyGraph β ι ν) : Prop where
  given : g.given.Nodup
  listed : g.allListed.Nodup
  registered : ∀ o ∈ g.ops, ∀ t ∈ o.reads ++ o.listed, t ∈ g.tensors.keys
  order : ∀ before o after, g.ops = before ++ o :: after → ∀ t ∈ o.reads,
    t ∈ g.given ∨ (∃ p ∈ before, t ∈ p.listed) ∨ t ∈ o.listed

theorem checked_of_walkable [DecidableEq ι] {specs : Option (String → Option (List Param))}
    {weights : Bool} (hbase : InputsDistinct g0) (h : walkable specs weights g0 g1 = true) :
    Checked g1 := by
  simp only [walkable, Bool.and_eq_true] at h
  obtain ⟨⟨⟨⟨⟨hio, hnames⟩, htensors⟩, hdag⟩, -⟩, -⟩ := h
  constructor
  · exact nodup_given hio hbase
  · rw [namesOk, Bool.and_eq_true] at hnames
    exact nodup_of_duplicates (of_decide_eq_true hnames.2)
  · intro o ho
    simp only [tensorsOk, Bool.and_eq_true] at htensors
    have hop := all_eq_true.mp htensors.1.2 o ho
    exact (of_decide_eq_true hop).1
  · intro before o after hsplit t ht
    rw [dagOk, Bool.and_eq_true, hsplit] at hdag
    rcases reads_of_dagScan hdag.1 ht with hmem | hmem | hown
    · exact .inl hmem
    · exact .inr (.inl (mem_flatMap.mp hmem))
    · obtain ⟨o', ho', ht'⟩ := listed_of_producerIndex hown
      rw [Nat.zero_add, getElem?_append_right (Nat.le_refl _), Nat.sub_self] at ho'
      obtain rfl := Option.some.inj ho'
      exact .inr (.inr ht')

/-- A tensor that two ops list is listed twice. -/
theorem Checked.eq_of_listed (h : Checked g) {p : VerifyOp β}
    (hsplit : g.ops = before ++ o :: after) (hp : p ∈ before) (ht : t ∈ p.listed) :
    t ∉ o.listed := by
  intro ht'
  have hnodup := h.listed
  rw [EditGraph.allListed, hsplit, flatMap_append, nodup_append] at hnodup
  apply hnodup.2.2 t (mem_flatMap.mpr ⟨p, hp, ht⟩) t _ rfl
  exact mem_append_left _ ht'

/-- Ops without sub-ops write what they list. -/
theorem own_of_members
    (h : ∀ o ∈ g.ops, o.rest.subOps ≠ none → ∀ s ∈ stepsOf o, ∀ t ∈ s.outputs, t ∈ o.listed) :
    ∀ o ∈ g.ops, ∀ s ∈ stepsOf o, ∀ t ∈ s.outputs, t ∈ o.listed := by
  intro o ho s hs t ht
  by_cases hplain : o.rest.subOps = none
  · have hsteps : stepsOf o = [kernelOf o] := by rw [stepsOf, hplain]
    rw [hsteps] at hs
    obtain rfl := mem_singleton.mp hs
    exact mem_append_left _ ht
  · exact h o ho hplain s hs t ht

/-- A walkable graph walks once if and only if it keeps to what the checks do not see. -/
theorem Checked.walksOnce_iff_editFollowed (h : Checked g) : WalksOnce g ↔ EditFollowed g := by
  have hlisted : ∀ o ∈ g.ops, ∀ t ∈ o.listed, t ∈ g.allListed :=
    fun o ho t ht => mem_flatMap.mpr ⟨o, ho, ht⟩
  constructor
  · rintro ⟨hsingle, hown, hwalk⟩
    have hfresh : ∀ o ∈ g.ops, ∀ t ∈ o.listed, t ∉ g.given := by
      intro o ho t ht hgiven
      have hcount := hsingle t (h.registered o ho t (mem_append_right _ ht))
      rw [EditGraph.definitions, count_append] at hcount
      have := count_pos_iff.mpr hgiven
      have := count_pos_iff.mpr (hlisted o ho t ht)
      omega
    have hsteps := isSome_walk_iff.mp hwalk
    -- What an op without sub-ops reads has a value.
    have hvalue : ∀ before o after, g.ops = before ++ o :: after → o.rest.subOps = none →
        ∀ t ∈ o.reads, t ∈ g.given ∨ ∃ p ∈ before, ∃ s ∈ stepsOf p, t ∈ s.outputs := by
      intro before o after hsplit hplain t ht
      rcases mem_append.mp ((isSome_walk_of_plain hplain _).mp
        (hsteps before o after hsplit) t ht) with hgiven | hmem
      · exact .inl hgiven
      · obtain ⟨s, hs, hts⟩ := mem_flatMap.mp hmem
        obtain ⟨p, hp, hsp⟩ := mem_flatMap.mp hs
        exact .inr ⟨p, hp, s, hsp, hts⟩
    have hbefore : ∀ before o after, g.ops = before ++ o :: after → o ∈ g.ops ∧
        ∀ p ∈ before, p ∈ g.ops := by
      intro before o after hsplit
      rw [hsplit]
      exact ⟨mem_append_right _ mem_cons_self, fun p hp => mem_append_left _ hp⟩
    constructor
    · exact hfresh
    · intro t ht
      exact count_pos_iff.mp (by rw [hsingle t ht]; exact Nat.one_pos)
    · exact fun o ho _ => hown o ho
    · intro o ho hplain t ht hmem
      obtain ⟨before, after, hsplit⟩ := append_of_mem ho
      rcases hvalue before o after hsplit hplain t ht with hgiven | ⟨p, hp, s, hs, hts⟩
      · exact hfresh o ho t hmem hgiven
      · exact h.eq_of_listed hsplit hp
          (hown p ((hbefore before o after hsplit).2 p hp) s hs t hts) hmem
    · intro before o after hsplit hplain t ht p hp htp
      obtain ⟨-, hmem⟩ := hbefore before o after hsplit
      rcases hvalue before o after hsplit hplain t ht with hgiven | ⟨q, hq, s, hs, hts⟩
      · exact absurd hgiven (hfresh p (hmem p hp) t htp)
      · -- Two ops before it list the tensor, so they are one.
        have htq := hown q (hmem q hq) s hs t hts
        obtain ⟨b, a, hb⟩ := append_of_mem hp
        rw [hb] at hq
        rcases mem_append.mp hq with hq | hq
        · exact absurd htp (h.eq_of_listed (by rw [hsplit, hb, append_assoc]; rfl) hq htq)
        · rcases mem_cons.mp hq with rfl | hq
          · exact ⟨s, hs, hts⟩
          · obtain ⟨b', a', hb'⟩ := append_of_mem hq
            have hsplit' : g.ops = (b ++ p :: b') ++ q :: (a' ++ o :: after) := by
              rw [hsplit, hb, hb']
              simp
            exact absurd htq (h.eq_of_listed hsplit' (mem_append_right _ mem_cons_self) htp)
    · exact fun before o after hsplit _ => hsteps before o after hsplit
  · rintro ⟨hfresh, hused, hmembers, hapart, hstored, hstages⟩
    constructor
    · intro t ht
      have hpos := count_pos_iff.mpr (hused t ht)
      rw [EditGraph.definitions, count_append] at hpos ⊢
      have hgiven := nodup_iff_count_le_one.mp h.given t
      have hlist := nodup_iff_count_le_one.mp h.listed t
      by_cases hmem : t ∈ g.given
      · have hnot : t ∉ g.allListed := fun hmem' => by
          obtain ⟨o, ho, hto⟩ := mem_flatMap.mp hmem'
          exact hfresh o ho t hto hmem
        rw [count_eq_zero.mpr hnot] at hpos ⊢
        omega
      · rw [count_eq_zero.mpr hmem] at hpos ⊢
        omega
    · exact own_of_members hmembers
    · apply isSome_walk_iff.mpr
      intro before o after hsplit
      by_cases hplain : o.rest.subOps = none
      · apply (isSome_walk_of_plain hplain _).mpr
        intro t ht
        rcases h.order before o after hsplit t ht with hgiven | ⟨p, hp, htp⟩ | hown
        · exact mem_append_left _ hgiven
        · obtain ⟨s, hs, hts⟩ := hstored before o after hsplit hplain t ht p hp htp
          exact mem_append_right _ (mem_flatMap.mpr ⟨s, mem_flatMap.mpr ⟨p, hp, hs⟩, hts⟩)
        · have ho : o ∈ g.ops := hsplit ▸ mem_append_right _ mem_cons_self
          exact absurd hown (hapart o ho hplain t ht)
      · exact hstages before o after hsplit hplain

/-- A graph that is reported walkable walks once if and only if it keeps to what the checks do not
see. -/
theorem walksOnce_iff [DecidableEq ι] {specs : Option (String → Option (List Param))}
    {weights : Bool} (hbase : InputsDistinct g0) (h : walkable specs weights g0 g1 = true) :
    WalksOnce g1 ↔ EditFollowed g1 :=
  (checked_of_walkable hbase h).walksOnce_iff_editFollowed

/-- An element-wise op on four elements. -/
def reluOp (name input output : String) : VerifyOp Unit where
  name := name
  inputs := some [input]
  outputs := some [output]
  internal := none
  rest := {
    kind := "relu"
    shape := PyDict.ofList [("n", .atom (.int 4))]
    offset := none
    fields := PyDict.empty
    subOps := none }
  volatile := none

/-- A graph of such ops, from `x` to `y`. -/
def reluGraph (tensors : List String) (ops : List (VerifyOp Unit)) :
    VerifyGraph Unit Unit Unit where
  ops := ops
  tensors := PyDict.ofList (tensors.map fun t => (t, ⟨false, ⟨some [4], some "f32", none⟩⟩))
  input := ⟨["x"], ()⟩
  output := ["y"]
  derivations := none
  weightDtypes := none

/-- The signature of the kernel. -/
def reluSpecs (kind : String) : Option (List Param) :=
  if kind = "relu" then
    some [⟨⟨"float", true, true⟩, "input"⟩, ⟨⟨"float", false, true⟩, "output"⟩,
      ⟨⟨"int", false, false⟩, "n"⟩]
  else none

/-- The graph that is edited. -/
def reluBase : VerifyGraph Unit Unit Unit := reluGraph ["x", "y"] [reluOp "relu" "x" "y"]

theorem inputsDistinct_reluBase : InputsDistinct reluBase := by
  constructor
  · decide
  · intro t ht m hm
    obtain rfl := mem_singleton.mp ht
    have hget : (reluBase.tensors.get? "x").map TensorMeta.isConst = some false := by decide
    rw [hm] at hget
    exact Option.some.inj hget

/-- A second op is put behind the first one. -/
theorem editFollowed_relu : EditFollowed
    (reluGraph ["x", "t", "y"] [reluOp "relu" "x" "t", reluOp "relu_1" "t" "y"]) := by
  have hwalkable : walkable (some reluSpecs) true reluBase
      (reluGraph ["x", "t", "y"] [reluOp "relu" "x" "t", reluOp "relu_1" "t" "y"]) = true := by
    decide
  apply (walksOnce_iff inputsDistinct_reluBase hwalkable).mp
  exact ⟨by decide, by decide, by decide⟩

/-- An op that reads what it writes is reported walkable. -/
theorem walkable_selfRead : InputsDistinct reluBase ∧
    walkable (some reluSpecs) true reluBase (reluGraph ["x", "y"] [reluOp "relu" "y" "y"]) = true ∧
      ¬WalksOnce (reluGraph ["x", "y"] [reluOp "relu" "y" "y"]) := by
  refine ⟨inputsDistinct_reluBase, by decide, fun h => ?_⟩
  exact absurd h.walk (by decide)

end ModelBlaster.GraphEdit
