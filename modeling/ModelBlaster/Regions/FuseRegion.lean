import ModelBlaster.Library.PyList
import ModelBlaster.Regions.Windows

/-!
# Region ops

`fuse_region` replaces some ops of a graph by one region op, at the place of the last of them. Ops in
between that nothing reads may stay in between, unless they read what the region makes: these are
moved behind it. It refuses if an op would then read too early.

What `_member_args` finds for an op is a parameter, as are the C types, that are left out.

## Main definitions

* `eligibleRuns`: the runs of ops that windows are cut from;
* `regionParams`: the parameters of a region op;
* `mergedOps`, `readBeforeDefined`: the new ops, and the check of their order;
* `fuseRegion`: all checks, and the new graph;
* `IsRun`: what a run is;
* `windowOf`: the positions of a window;
* `Dragged`: the dead ops that depend on the members.

## Main results

* `isRun_of_mem_eligibleRuns`: the runs that windows are cut from;
* `positions_windowOf`: the names of a window give its positions;
* `mem_movedOps_iff`: what is moved.
-/

namespace ModelBlaster.RegionSlots

open GraphPrune RegionWindows

/-! ### Ops -/

/-- A stage of an op, as far as it makes tensors. -/
inductive Stage where
  | mk (outputs internal : List String) (stages : List Stage)

mutual
/-- `outs` of a stage: the tensors that it makes, and those that its own stages make. -/
def Stage.outs : Stage → List String
  | .mk outputs internal stages => outputs ++ internal ++ outsOf stages

@[inherit_doc Stage.outs]
def outsOf : List Stage → List String
  | [] => []
  | s :: ss => s.outs ++ outsOf ss
end

/-- An op. A list that is missing is empty. -/
structure RegionOp where
  name : String
  op : String
  inputs : List String
  outputs : List String
  internal : List String
  /-- `sub_ops` -/
  stages : List Stage
  /-- The offset of a view. -/
  offset : ℤ
  /-- `shape.c_each` of a chunk. -/
  cEach : Option ℤ
  /-- `shape.hw` of a chunk. -/
  hw : Option ℤ

/-- A graph. -/
structure RegionGraph where
  ops : List RegionOp
  output : Option GraphOutput

/-- An op as `graph_prune` reads it. -/
def RegionOp.toPrune (o : RegionOp) : PruneOp := ⟨o.op, o.inputs, o.outputs⟩

@[inherit_doc RegionOp.toPrune]
def RegionGraph.toPrune (g : RegionGraph) : PruneGraph := ⟨g.ops.map RegionOp.toPrune, g.output⟩

/-- An op as a stage of the region. -/
def RegionOp.toStage (o : RegionOp) : Stage := .mk o.outputs o.internal o.stages

/-- `outs` of an op. -/
def RegionOp.outs (o : RegionOp) : List String := o.toStage.outs

/-- `is_region`, `_is_region` -/
def isRegion (kind : String) : Bool := "region__".toList.isPrefixOf kind.toList

/-- An op that is pointer arithmetic only. -/
def RegionOp.isAlias (o : RegionOp) : Bool := o.op ∈ aliasOps

/-- The runs that have ended, and the current one. -/
structure RunState where
  runs : List (List ℕ)
  cur : List ℕ

/-- The current run ends. -/
def RunState.close (st : RunState) : List (List ℕ) :=
  if st.cur = [] then st.runs else st.runs ++ [st.cur]

/-- The body of the loop of `eligible_runs`. -/
def runStep (dead : List ℕ) (st : RunState) (p : PruneOp × ℕ) : RunState :=
  if isRegion p.1.op then ⟨st.close, []⟩
  else if p.2 ∈ dead then st
  else { st with cur := st.cur ++ [p.2] }

/-- `eligible_runs` -/
def eligibleRuns (serialKinds : List String) (g : PruneGraph) : List (List ℕ) :=
  (g.ops.zipIdx.foldl (runStep (deadOps serialKinds g none)) ⟨[], []⟩).close

/-! ### Parameters -/

/-- The kinds of arguments of a kernel. -/
inductive ArgKind where
  | input
  | output
  | scratch
  | weight
  | null
  | scalar
deriving DecidableEq, Repr

/-- An argument: a tensor, a weight, or a scalar as C has it. -/
structure RegionArg where
  kind : ArgKind
  value : String
deriving DecidableEq, Repr

/-- The roles of parameters. -/
inductive Role where
  | output
  | scratch
  | input
  | weight
deriving DecidableEq, Repr

/-- The prefix of the name of a parameter. -/
def Role.text : Role → String
  | .output => "out_"
  | .scratch => "scratch_"
  | .input => "in_"
  | .weight => "w_"

/-- `_ident`, for ASCII. -/
def ident (s : String) : String :=
  let word := s.toList.map fun ch => if ch.isAlphanum ∨ ch = '_' then ch else '_'
  String.ofList (if word.head?.any Char.isDigit then '_' :: word else word)

/-- A parameter of a region op: its role, and the tensor or the weight. -/
structure RegionParam where
  role : Role
  value : String
deriving DecidableEq, Repr

/-- The name of a parameter. -/
def RegionParam.name (p : RegionParam) : String := p.role.text ++ ident p.value

/-- What `fuse_region` depends on besides its arguments: the kinds with side effects, the cap on the
members, `MB_REGION_DEAD_MOVE`, `region_kind`, and `_member_args`, which has none where it raises. -/
structure RegionEnv where
  serialKinds : List String
  cap : ℕ
  moveDead : Bool
  kindOf : List RegionOp → String
  args : RegionOp → Option (List RegionArg)

/-- The tensors that the views among some ops make. -/
def aliasOuts (mem : List RegionOp) : List String :=
  (mem.filter RegionOp.isAlias).flatMap RegionOp.outputs

/-- The parameters so far, with the keys of `seen`. -/
structure ParamState where
  params : List RegionParam
  seen : List String

/-- The role of a tensor. -/
def roleOf (outputs internal : List String) (a : RegionArg) : Role :=
  if a.value ∈ outputs then .output
  else if a.value ∈ internal then .scratch
  else if a.kind = .input then .input
  -- It is written by a member, and read nowhere outside.
  else .scratch

/-- The key of a weight. -/
def weightKey (w : String) : String := "w:" ++ w

/-- The parameter of an argument of a member. -/
def addParam (mem : List RegionOp) (outputs internal : List String) (st : ParamState)
    (a : RegionArg) : ParamState :=
  match a.kind with
  | .null | .scalar => st
  | .weight =>
    if weightKey a.value ∈ st.seen then st
    else ⟨st.params ++ [⟨.weight, a.value⟩], st.seen ++ [weightKey a.value]⟩
  | _ =>
    if a.value ∈ aliasOuts mem ∨ a.value ∈ st.seen then st
    else ⟨st.params ++ [⟨roleOf outputs internal a, a.value⟩], st.seen ++ [a.value]⟩

/-- The parameter of the base of a view, if it is external. -/
def addBase (mem : List RegionOp) (st : ParamState) (src : String) : ParamState :=
  if src ∈ st.seen ∨ src ∈ aliasOuts mem ∨ src ∈ mem.flatMap RegionOp.outputs then st
  else ⟨st.params ++ [⟨.input, src⟩], st.seen ++ [src]⟩

/-- The parameters of `region_spec`. -/
def regionParams (env : RegionEnv) (mem : List RegionOp) (outputs internal : List String) :
    Option (List RegionParam) :=
  match (mem.filter (!RegionOp.isAlias ·)).mapM env.args,
      (mem.filter RegionOp.isAlias).mapM (·.inputs.head?) with
  | some args, some bases =>
    some (bases.foldl (addBase mem)
      (args.flatten.foldl (addParam mem outputs internal) ⟨[], []⟩)).params
  | _, _ => none

/-! ### Fusing -/

/-- Why a region is refused. -/
inductive RegionError where
  /-- `KeyError` or `IndexError` -/
  | missing
  /-- "region needs 2..… ops" -/
  | size (cap : ℕ)
  /-- "nested regions" -/
  | nested
  /-- "… reads a region output before the region ends" -/
  | readEarly (name : String)
  /-- "an alias inside the region is read outside it" -/
  | aliasOutside
  /-- "region would leave … reading … before it is produced" -/
  | readLate (name tensor : String)
deriving DecidableEq, Repr

section
variable (g : RegionGraph)

/-- `pos`: the last op of a name. -/
def positionOf (name : String) : Option ℕ :=
  ((g.ops.zipIdx.filter fun p => p.1.name = name).getLast?).map Prod.snd

/-- The positions of the members, in ascending order. -/
def positions (names : List String) : Option (List ℕ) :=
  (names.dedup.mapM (positionOf g)).map fun idx => idx.insertionSort (· ≤ ·)

/-- The ops at some positions. -/
def opsAt (idx : List ℕ) : List RegionOp := idx.filterMap (g.ops[·]?)

/-- `_graph_outputs` -/
def outputsOf : Option (List String) :=
  match g.output with
  | none => none
  | some o => if o.tensors.getD [] ≠ [] then o.tensors else o.tensor.map ([·])

/-- `produced`: what the members make, for themselves and for others. -/
def madeBy (mem : List RegionOp) : List String := mem.flatMap fun m => m.outputs ++ m.internal

/-- The positions between the first member and the last. -/
def between (idx : List ℕ) : List ℕ :=
  List.range' (idx.headD 0) (idx.getLastD 0 - idx.headD 0)

/-- An op between the members that is not dead and reads what they make. -/
def earlyReader (idx dead : List ℕ) : Option String :=
  (opsAt g ((between idx).filter fun j => j ∉ idx ∧ j ∉ dead)).findSome? fun o =>
    if o.inputs.any (· ∈ madeBy (opsAt g idx)) then some o.name else none

/-- `outside_reads` -/
def outsideReads (idx dead : List ℕ) : List String :=
  (opsAt g ((List.range g.ops.length).filter fun j => j ∉ idx ∧ j ∉ dead)).flatMap RegionOp.inputs

/-- The dead ops that are moved, and what they and the members make. -/
structure MoveState where
  moved : List ℕ
  avail : List String

/-- The body of the loop over the dead ops between the members. -/
def moveStep (idx dead : List ℕ) (st : MoveState) (j : ℕ) : MoveState :=
  match g.ops[j]? with
  | none => st
  | some o =>
    if j ∉ idx ∧ j ∈ dead ∧ o.inputs.any (· ∈ st.avail) then
      ⟨st.moved ++ [j], st.avail ++ o.outputs⟩
    else st

/-- `moved` -/
def movedOps (moveDead : Bool) (idx dead : List ℕ) : List ℕ :=
  if moveDead then
    ((between idx).foldl (moveStep g idx dead) ⟨[], madeBy (opsAt g idx)⟩).moved
  else []

/-- The new ops: the region op at the last member's place, and what is moved behind it. -/
def mergedOps (idx moved : List ℕ) (rop : RegionOp) : List RegionOp :=
  g.ops.zipIdx.flatMap fun p =>
    if (p.2 ∈ idx ∧ some p.2 ≠ idx.getLast?) ∨ p.2 ∈ moved then []
    else if some p.2 = idx.getLast? then rop :: opsAt g moved
    else [p.1]

end

/-- The position of the first op that makes a tensor. -/
def producedAt (ops : List RegionOp) (t : String) : Option ℕ := ops.findIdx? fun o => t ∈ o.outs

/-- `_read_before_defined` -/
def readBeforeDefined (ops : List RegionOp) : List (String × String) :=
  ops.zipIdx.flatMap fun p =>
    (p.1.inputs.filter fun t => (producedAt ops t).any fun k => p.2 < k).map fun t => (p.1.name, t)

/-- The region op of some members. -/
def regionOp (env : RegionEnv) (mem : List RegionOp) (read : List String) : RegionOp :=
  let outputs := (mem.flatMap RegionOp.outputs).filter fun t => t ∉ aliasOuts mem ∧ t ∈ read
  { name := "region:" ++ (mem.head?.map RegionOp.name).getD "" ++ ".." ++
      (mem.getLast?.map RegionOp.name).getD ""
    op := env.kindOf mem
    inputs := PyList.orderedUnique ((mem.flatMap RegionOp.inputs).filter (· ∉ madeBy mem))
    outputs := outputs
    internal := (madeBy mem).filter fun t => t ∉ aliasOuts mem ∧ t ∉ outputs
    stages := mem.map RegionOp.toStage
    offset := 0
    cEach := none
    hw := none }

/-- The checks of the order, and the parameters. -/
def finishRegion (env : RegionEnv) (g : RegionGraph) (mem : List RegionOp) (rop : RegionOp)
    (ops : List RegionOp) : Except RegionError (RegionGraph × List RegionParam) :=
  match readBeforeDefined ops with
  | (name, t) :: _ => .error (.readLate name t)
  | [] =>
    match regionParams env mem rop.outputs rop.internal with
    | none => .error .missing
    | some params => .ok ({ g with ops := ops }, params)

/-- `fuse_region`, for the members at some positions. -/
def fuseAt (env : RegionEnv) (g : RegionGraph) (idx : List ℕ) :
    Except RegionError (RegionGraph × List RegionParam) :=
  let mem := opsAt g idx
  let dead := deadOps env.serialKinds g.toPrune none
  if mem.countP (!RegionOp.isAlias ·) < 2 ∨ env.cap < mem.length then .error (.size env.cap)
  else if mem.any fun m => isRegion m.op then .error .nested
  else
    match earlyReader g idx dead, outputsOf g with
    | some name, _ => .error (.readEarly name)
    | none, none => .error .missing
    | none, some gouts =>
      let reads := outsideReads g idx dead ++ gouts
      if (aliasOuts mem).any (· ∈ reads) then .error .aliasOutside
      else
        let rop := regionOp env mem reads
        finishRegion env g mem rop (mergedOps g idx (movedOps g env.moveDead idx dead) rop)

/-- `fuse_region` -/
def fuseRegion (env : RegionEnv) (g : RegionGraph) (names : List String) :
    Except RegionError (RegionGraph × List RegionParam) :=
  match positions g names with
  | none => .error .missing
  | some idx => fuseAt env g idx

/-! ## The ops of a window -/

open List

/-! ### Runs -/

/-- A run: live ops that are no regions, with only dead ops in between. -/
structure IsRun (ops : List PruneOp) (dead run : List ℕ) : Prop where
  ascending : run.Pairwise (· < ·)
  plain : ∀ i ∈ run, ∃ o, ops[i]? = some o ∧ isRegion o.op = false
  live : ∀ i ∈ run, i ∉ dead
  convex : ∀ i ∈ run, ∀ j ∈ run, ∀ k, i < k → k < j → k ∈ run ∨ k ∈ dead

/-- After the given ops: the runs that have ended, and the one that has not. -/
structure RunState.Inv (ops : List PruneOp) (dead : List ℕ) (st : RunState) : Prop where
  runs : ∀ run ∈ st.runs, IsRun ops dead run
  cur : IsRun ops dead st.cur
  lt : ∀ i ∈ st.cur, i < ops.length
  /-- Only dead ops came since. -/
  since : ∀ i ∈ st.cur, ∀ k, i < k → k < ops.length → k ∈ st.cur ∨ k ∈ dead

section
variable {ops : List PruneOp} {dead run : List ℕ} {st : RunState}

theorem isRun_nil : IsRun ops dead [] :=
  ⟨List.Pairwise.nil, fun _ h => absurd h not_mem_nil, fun _ h => absurd h not_mem_nil,
    fun _ h => absurd h not_mem_nil⟩

theorem IsRun.append (h : IsRun ops dead run) (more : List PruneOp) :
    IsRun (ops ++ more) dead run := by
  refine ⟨h.ascending, fun i hi => ?_, h.live, h.convex⟩
  obtain ⟨o, ho, hplain⟩ := h.plain i hi
  refine ⟨o, ?_, hplain⟩
  rw [getElem?_append_left (List.getElem?_eq_some_iff.mp ho).1, ho]

theorem RunState.Inv.close (h : st.Inv ops dead) : ∀ run ∈ st.close, IsRun ops dead run := by
  intro run hrun
  unfold RunState.close at hrun
  split_ifs at hrun
  · exact h.runs run hrun
  · rcases mem_append.mp hrun with hrun | hrun
    · exact h.runs run hrun
    · rw [mem_singleton.mp hrun]
      exact h.cur

theorem RunState.Inv.step (h : st.Inv ops dead) (o : PruneOp) :
    (runStep dead st (o, ops.length)).Inv (ops ++ [o]) dead := by
  have hlast : (ops ++ [o])[ops.length]? = some o := getElem?_concat_length
  unfold runStep
  split_ifs with hregion hdead
  · exact ⟨fun run hrun => (h.close run hrun).append [o], isRun_nil,
      fun i hi => absurd hi not_mem_nil, fun i hi => absurd hi not_mem_nil⟩
  · constructor
    case runs => exact fun run hrun => (h.runs run hrun).append [o]
    case cur => exact h.cur.append [o]
    case lt =>
      intro i hi
      have hlt := h.lt i hi
      rw [length_append, length_singleton]
      omega
    case since =>
      intro i hi k hik hk
      rw [length_append, length_singleton] at hk
      rcases Nat.lt_succ_iff_lt_or_eq.mp hk with hk | rfl
      · exact h.since i hi k hik hk
      · exact .inr hdead
  · have hmem : ∀ i, i ∈ st.cur ++ [ops.length] ↔ i ∈ st.cur ∨ i = ops.length := by
      intro i
      rw [mem_append, mem_singleton]
    constructor
    case runs => exact fun run hrun => (h.runs run hrun).append [o]
    case cur =>
      have hcur := h.cur.append [o]
      constructor
      case ascending =>
        refine pairwise_append.mpr ⟨hcur.ascending, pairwise_singleton _ _, ?_⟩
        intro i hi j hj
        rw [mem_singleton.mp hj]
        exact h.lt i hi
      case plain =>
        intro i hi
        rcases (hmem i).mp hi with hi | rfl
        · exact hcur.plain i hi
        · exact ⟨o, hlast, Bool.eq_false_iff.mpr hregion⟩
      case live =>
        intro i hi
        rcases (hmem i).mp hi with hi | rfl
        · exact hcur.live i hi
        · exact hdead
      case convex =>
        intro i hi j hj k hik hkj
        rw [hmem]
        rcases (hmem i).mp hi with hi | rfl
        · rcases (hmem j).mp hj with hj | rfl
          · exact (hcur.convex i hi j hj k hik hkj).imp_left .inl
          · exact (h.since i hi k hik hkj).imp_left .inl
        · rcases (hmem j).mp hj with hj | rfl
          · have hlt := h.lt j hj
            omega
          · omega
    case lt =>
      intro i hi
      rw [length_append, length_singleton]
      rcases (hmem i).mp hi with hi | rfl
      · have hlt := h.lt i hi
        omega
      · omega
    case since =>
      intro i hi k hik hk
      rw [length_append, length_singleton] at hk
      rw [hmem]
      rcases (hmem i).mp hi with hi | rfl
      · rcases Nat.lt_succ_iff_lt_or_eq.mp hk with hk | rfl
        · exact (h.since i hi k hik hk).imp_left .inl
        · exact .inl (.inr rfl)
      · omega

/-- The runs that windows are cut from. -/
theorem isRun_of_mem_eligibleRuns {serialKinds : List String} {g : PruneGraph}
    (h : run ∈ eligibleRuns serialKinds g) :
    IsRun g.ops (deadOps serialKinds g none) run := by
  generalize hdead : deadOps serialKinds g none = dead
  have hinv : ∀ ops : List PruneOp, (ops.zipIdx.foldl (runStep dead) ⟨[], []⟩).Inv ops dead := by
    intro ops
    induction ops using reverseRecOn with
    | nil =>
      exact ⟨fun run hrun => absurd hrun not_mem_nil, isRun_nil,
        fun i hi => absurd hi not_mem_nil, fun i hi => absurd hi not_mem_nil⟩
    | append_singleton ops o ih =>
      rw [zipIdx_append, foldl_append, Nat.zero_add]
      exact ih.step o
  rw [eligibleRuns, hdead] at h
  exact (hinv g.ops).close run h

/-! ### Windows -/

/-- The positions of a window of a run. -/
def windowOf (run : List ℕ) (a b : ℕ) : List ℕ := (run.take b).drop a

variable {a b i j k : ℕ}

theorem mem_windowOf : i ∈ windowOf run a b ↔ ∃ p, a ≤ p ∧ p < b ∧ run[p]? = some i := by
  rw [windowOf, mem_iff_getElem?]
  simp only [getElem?_drop, getElem?_take]
  constructor
  · rintro ⟨n, hn⟩
    split_ifs at hn with hlt
    exact ⟨a + n, Nat.le_add_right a n, hlt, hn⟩
  · rintro ⟨p, ha, hb, hp⟩
    refine ⟨p - a, ?_⟩
    rw [Nat.add_sub_cancel' ha, if_pos hb]
    exact hp

theorem mem_of_mem_windowOf (h : i ∈ windowOf run a b) : i ∈ run :=
  mem_of_mem_take (mem_of_mem_drop h)

theorem IsRun.ascending_windowOf (h : IsRun ops dead run) :
    (windowOf run a b).Pairwise (· < ·) :=
  (h.ascending.sublist (take_sublist b run)).sublist (drop_sublist a _)

/-- Positions of a run are as its elements are. -/
theorem IsRun.lt_iff (h : IsRun ops dead run) {p q : ℕ} (hp : run[p]? = some i)
    (hq : run[q]? = some j) : i < j ↔ p < q := by
  obtain ⟨hp', rfl⟩ := List.getElem?_eq_some_iff.mp hp
  obtain ⟨hq', rfl⟩ := List.getElem?_eq_some_iff.mp hq
  have hmono := pairwise_iff_getElem.mp h.ascending
  constructor
  · intro hlt
    by_contra hle
    rcases Nat.lt_or_eq_of_le (not_lt.mp hle) with hqp | rfl
    · exact absurd hlt (Nat.lt_asymm (hmono q p hq' hp' hqp))
    · exact lt_irrefl _ hlt
  · exact hmono p q hp' hq'

/-- Only dead ops are between those of a window. -/
theorem IsRun.convex_windowOf (h : IsRun ops dead run) (hi : i ∈ windowOf run a b)
    (hj : j ∈ windowOf run a b) (hik : i < k) (hkj : k < j) : k ∈ windowOf run a b ∨ k ∈ dead := by
  refine (h.convex i (mem_of_mem_windowOf hi) j (mem_of_mem_windowOf hj) k hik hkj).imp_left ?_
  intro hk
  obtain ⟨p, hap, -, hp⟩ := mem_windowOf.mp hi
  obtain ⟨q, -, hqb, hq⟩ := mem_windowOf.mp hj
  obtain ⟨r, hr⟩ := mem_iff_getElem?.mp hk
  have hpr := (h.lt_iff hp hr).mp hik
  have hrq := (h.lt_iff hr hq).mp hkj
  exact mem_windowOf.mpr ⟨r, by omega, by omega, hr⟩

end

/-! ### Members -/

section
variable {g : RegionGraph} {idx dead : List ℕ} {i j : ℕ} {o : RegionOp}

theorem mem_opsAt : o ∈ opsAt g idx ↔ ∃ i ∈ idx, g.ops[i]? = some o := mem_filterMap

/-- An op is found by its name. -/
theorem positionOf_name (hnames : (g.ops.map RegionOp.name).Nodup) (ho : g.ops[i]? = some o) :
    positionOf g o.name = some i := by
  have hfilter : ∀ p ∈ g.ops.zipIdx.filter (fun p => p.1.name = o.name), p = (o, i) := by
    rintro ⟨o', j⟩ hp
    rw [mem_filter, mem_zipIdx_iff_getElem?, decide_eq_true_iff] at hp
    obtain ⟨hj, hname⟩ := hp
    have hlt : j < (g.ops.map RegionOp.name).length := by
      rw [length_map]
      exact (List.getElem?_eq_some_iff.mp hj).1
    have hij : j = i := by
      apply (getElem?_inj hlt hnames).mp
      rw [getElem?_map, getElem?_map, hj, ho, Option.map_some, Option.map_some, hname]
    subst hij
    exact Prod.ext (Option.some.inj (hj.symm.trans ho)) rfl
  have hmem : (o, i) ∈ g.ops.zipIdx.filter fun p => p.1.name = o.name := by
    rw [mem_filter, mem_zipIdx_iff_getElem?, decide_eq_true_iff]
    exact ⟨ho, rfl⟩
  rw [positionOf]
  cases hlast : (g.ops.zipIdx.filter fun p => p.1.name = o.name).getLast? with
  | none =>
    rw [getLast?_eq_none_iff] at hlast
    rw [hlast] at hmem
    cases hmem
  | some p => rw [hfilter p (mem_of_getLast? hlast), Option.map_some]

/-- Ascending positions of ops come back from their names. -/
theorem positions_names (hnames : (g.ops.map RegionOp.name).Nodup) (hasc : idx.Pairwise (· < ·))
    (hlt : ∀ i ∈ idx, i < g.ops.length) :
    positions g ((opsAt g idx).map RegionOp.name) = some idx := by
  have hmap : (opsAt g idx).map RegionOp.name =
      idx.filterMap fun i => (g.ops[i]?).map RegionOp.name := by
    rw [opsAt, map_filterMap]
  have hnodup : ((opsAt g idx).map RegionOp.name).Nodup := by
    rw [hmap]
    refine List.Nodup.filterMap (fun i j name hi hj => ?_) (hasc.imp ne_of_lt)
    obtain ⟨o, ho, rfl⟩ := Option.map_eq_some_iff.mp hi
    obtain ⟨o', ho', hname⟩ := Option.map_eq_some_iff.mp hj
    have hi' := positionOf_name hnames ho
    have hj' := positionOf_name hnames ho'
    rw [hname] at hj'
    exact Option.some.inj (hi'.symm.trans hj')
  have hmapM : ∀ l : List ℕ, (∀ i ∈ l, i < g.ops.length) →
      ((opsAt g l).map RegionOp.name).mapM (positionOf g) = some l := by
    intro l hl
    induction l with
    | nil => rfl
    | cons i l ih =>
      have hi := getElem?_eq_getElem (hl i mem_cons_self)
      rw [opsAt, filterMap_cons_some hi, map_cons, mapM_cons,
        positionOf_name hnames hi, ← opsAt, ih fun j hj => hl j (mem_cons_of_mem i hj)]
      rfl
  rw [positions, hnodup.dedup, hmapM idx hlt, Option.map_some, (hasc.imp le_of_lt).insertionSort_eq]

/-! ### Dragged ops -/

/-- The dead ops between the members that depend on them: they read what a member makes, or an output
of such an op. -/
inductive Dragged (g : RegionGraph) (idx dead : List ℕ) : ℕ → Prop where
  | member {j o t} (hj : j ∈ between idx) (hnot : j ∉ idx) (hdead : j ∈ dead)
      (ho : g.ops[j]? = some o) (ht : t ∈ o.inputs) (hmade : t ∈ madeBy (opsAt g idx)) :
      Dragged g idx dead j
  | next {k o' j o t} (hk : Dragged g idx dead k) (ho' : g.ops[k]? = some o') (hkj : k < j)
      (hj : j ∈ between idx) (hnot : j ∉ idx) (hdead : j ∈ dead)
      (ho : g.ops[j]? = some o) (ht : t ∈ o.inputs) (hmade : t ∈ o'.outputs) :
      Dragged g idx dead j

theorem Dragged.bounds (h : Dragged g idx dead j) :
    j ∈ between idx ∧ j ∉ idx ∧ j ∈ dead ∧ ∃ o, g.ops[j]? = some o := by
  cases h with
  | member hj hnot hdead ho => exact ⟨hj, hnot, hdead, _, ho⟩
  | next _ _ _ hj hnot hdead ho => exact ⟨hj, hnot, hdead, _, ho⟩

/-- After some positions: the dragged ops among them, and what they and the members make. -/
structure MoveState.Inv (g : RegionGraph) (idx dead js : List ℕ) (st : MoveState) : Prop where
  moved : ∀ j, j ∈ st.moved ↔ j ∈ js ∧ Dragged g idx dead j
  ascending : st.moved.Pairwise (· < ·)
  avail : ∀ t, t ∈ st.avail ↔ t ∈ madeBy (opsAt g idx) ∨
    ∃ j ∈ st.moved, ∃ o, g.ops[j]? = some o ∧ t ∈ o.outputs

theorem MoveState.Inv.step {js : List ℕ} {st : MoveState} (h : st.Inv g idx dead js)
    (hlt : ∀ k ∈ js, k < j) (hall : ∀ k ∈ between idx, k < j → k ∈ js) (hj : j ∈ between idx) :
    (moveStep g idx dead st j).Inv g idx dead (js ++ [j]) := by
  -- An op is moved in its turn if it is dragged.
  have hiff : Dragged g idx dead j ↔ ∃ o, g.ops[j]? = some o ∧ j ∉ idx ∧ j ∈ dead ∧
      o.inputs.any (· ∈ st.avail) = true := by
    constructor
    · intro hdragged
      cases hdragged with
      | @member _ o t _ hnot hdead ho ht hmade =>
        refine ⟨o, ho, hnot, hdead, any_eq_true.mpr ⟨t, ht, decide_eq_true ?_⟩⟩
        exact (h.avail t).mpr (.inl hmade)
      | @next k o' _ o t hk ho' hkj _ hnot hdead ho ht hmade =>
        refine ⟨o, ho, hnot, hdead, any_eq_true.mpr ⟨t, ht, decide_eq_true ?_⟩⟩
        exact (h.avail t).mpr (.inr ⟨k, (h.moved k).mpr ⟨hall k hk.bounds.1 hkj, hk⟩, o', ho', hmade⟩)
    · rintro ⟨o, ho, hnot, hdead, hany⟩
      obtain ⟨t, ht, havail⟩ := any_eq_true.mp hany
      rcases (h.avail t).mp (of_decide_eq_true havail) with hmade | ⟨k, hk, o', ho', hmade⟩
      · exact .member hj hnot hdead ho ht hmade
      · obtain ⟨hkjs, hk⟩ := (h.moved k).mp hk
        exact .next hk ho' (hlt k hkjs) hj hnot hdead ho ht hmade
  have hkeep : ¬Dragged g idx dead j → st.Inv g idx dead (js ++ [j]) := by
    refine fun hnot => ⟨fun k => ?_, h.ascending, h.avail⟩
    rw [h.moved, mem_append, mem_singleton]
    constructor
    · exact fun hk => ⟨.inl hk.1, hk.2⟩
    · rintro ⟨hk | rfl, hdragged⟩
      · exact ⟨hk, hdragged⟩
      · exact absurd hdragged hnot
  unfold moveStep
  cases ho : g.ops[j]? with
  | none =>
    apply hkeep
    rw [hiff]
    rintro ⟨o, ho', -⟩
    rw [ho] at ho'
    cases ho'
  | some o =>
    dsimp only
    split_ifs with hmove
    · have hdragged : Dragged g idx dead j := hiff.mpr ⟨o, ho, hmove⟩
      constructor
      case moved =>
        intro k
        rw [mem_append, mem_singleton, h.moved, mem_append, mem_singleton, or_and_right]
        refine or_congr_right ⟨?_, And.left⟩
        rintro rfl
        exact ⟨rfl, hdragged⟩
      case ascending =>
        refine pairwise_append.mpr ⟨h.ascending, pairwise_singleton _ _, ?_⟩
        intro k hk k' hk'
        rw [mem_singleton.mp hk']
        exact hlt k ((h.moved k).mp hk).1
      case avail =>
        intro t
        rw [mem_append, h.avail, or_assoc]
        refine or_congr_right ?_
        constructor
        · rintro (⟨k, hk, o', ho', ht⟩ | ht)
          · exact ⟨k, mem_append_left _ hk, o', ho', ht⟩
          · exact ⟨j, mem_append_right _ (mem_singleton_self j), o, ho, ht⟩
        · rintro ⟨k, hk, o', ho', ht⟩
          rcases mem_append.mp hk with hk | hk
          · exact .inl ⟨k, hk, o', ho', ht⟩
          · rw [mem_singleton.mp hk, ho] at ho'
            cases ho'
            exact .inr ht
    · apply hkeep
      rw [hiff]
      rintro ⟨o', ho', hmove'⟩
      rw [ho] at ho'
      cases ho'
      exact hmove hmove'

/-- What is moved, if anything may be: the dragged ops, in their order. -/
theorem movedOps_spec (moveDead : Bool) :
    (∀ j, j ∈ movedOps g moveDead idx dead ↔ moveDead = true ∧ Dragged g idx dead j) ∧
      (movedOps g moveDead idx dead).Pairwise (· < ·) := by
  unfold movedOps
  cases moveDead with
  | false => simp
  | true =>
    rw [if_pos rfl]
    have hinv : ∀ n, n ≤ idx.getLastD 0 - idx.headD 0 →
        ((List.range' (idx.headD 0) n).foldl (moveStep g idx dead)
          ⟨[], madeBy (opsAt g idx)⟩).Inv g idx dead (List.range' (idx.headD 0) n) := by
      intro n
      induction n with
      | zero =>
        exact fun _ => ⟨by simp, List.Pairwise.nil, by simp⟩
      | succ n ih =>
        intro hn
        rw [range'_1_concat, foldl_append]
        apply (ih (by omega)).step
        · intro k hk
          exact (mem_range'_1.mp hk).2
        · intro k hk hlt
          exact mem_range'_1.mpr ⟨(mem_range'_1.mp hk).1, hlt⟩
        · exact mem_range'_1.mpr ⟨by omega, by omega⟩
    have h := hinv _ le_rfl
    refine ⟨fun j => ?_, h.ascending⟩
    rw [between, h.moved, and_iff_right rfl]
    exact and_iff_right_of_imp fun hdragged => hdragged.bounds.1

end

end ModelBlaster.RegionSlots
