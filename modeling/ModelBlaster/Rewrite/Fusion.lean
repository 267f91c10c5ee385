import ModelBlaster.Graph
import ModelBlaster.Library.EdgeList
import ModelBlaster.Library.Fallible
import ModelBlaster.Library.Contraction

/-!
# Fusion

The rewriter that collapses groups of ops into one op each. A group is checked on its own: its ids
exist, it lists its members in the order of their dependencies, and no op outside lies on a path
between two members. The fused op takes the slot of the member with the smallest id. Dispatch ids
are assigned anew, and the dependencies are translated in a second pass.

## Main definitions

* `validateFuseGroup`: the checks on one group;
* `acceptedGroups`: the groups that are fused, after all checks;
* `buildFusedOp`: the op that stands for a group;
* `applyHint`: the rewriter;
* `ValidGroup`: what is checked for one group;
* `AcceptedGroups`: what holds of the groups that are fused;
* `blockOf`: the nodes of the contraction;
* `ContractionAcyclic`: groups can be contracted without making a cycle.

## Main results

* `acceptedGroups_eq_ok_iff`: what is checked;
* `validateFuseGroup_eq_ok_iff`: the checks on one group;
* `acceptedGroups_eq_ok_iff`: all checks;
* `ValidGroup.pair`: the pairs of a checked group are checked groups;
* `contractionAcyclic_of_pairwiseSplit`: so can the pairs of an accepted group;
* `validateFuseGroup_exact`: the checks on a group say whether it can be.
-/

namespace ModelBlaster

/-- `FusionHintError`, by its cause. -/
inductive FusionHintError where
  /-- A group has no member. -/
  | emptyGroup
  /-- A group names an id twice. -/
  | duplicateIds (group : List ℤ)
  /-- The graph has no such ids. -/
  | unknownIds (missing : List ℤ)
  /-- A member depends on one that the group lists later. -/
  | notTopological (did dep : ℤ)
  /-- An op outside lies on a path between members. -/
  | notClosed (did : ℤ)
  /-- Two groups share ids. -/
  | overlap (ids : List ℤ)
deriving DecidableEq, Repr

/-- How the rewriter fails. -/
inductive FusionError where
  /-- The hint is refused. -/
  | hint (e : FusionHintError)
  /-- A table has no such key. -/
  | keyError (key : ℤ)
deriving DecidableEq, Repr

/-! ### Checks -/

/-- `_dep_edges`: the edges from a dependency to its dependent. Dangling dependencies are dropped. -/
def depEdges (byId : PyDict ℤ GraphOp) : List (ℤ × ℤ) :=
  byId.items.flatMap fun item =>
    (item.2.dependsOn.filter (· ∈ byId.keys)).map fun dep => (dep, item.1)

/-- What a dispatch depends on. -/
def dependenciesOf (byId : PyDict ℤ GraphOp) (did : ℤ) : List ℤ :=
  match byId.get? did with
  | some op => op.dependsOn
  | none => []

/-- The first member that depends on one that the group lists later. -/
def outOfOrder (byId : PyDict ℤ GraphOp) (group : List ℤ) : List ℤ → List ℤ → Option (ℤ × ℤ)
  | _, [] => none
  | seen, did :: rest =>
    match (dependenciesOf byId did).find? fun dep => dep ∈ group ∧ dep ∉ seen with
    | some dep => some (did, dep)
    | none => outOfOrder byId group (did :: seen) rest

/-- The ops outside of a group that lie on a path between members. -/
def trapped (byId : PyDict ℤ GraphOp) (group : List ℤ) : List ℤ :=
  let succ := depEdges byId
  let pred := succ.map Prod.swap
  (EdgeList.closure succ group).filter fun did =>
    did ∈ EdgeList.closure pred group ∧ did ∉ group

/-- `_validate_fuse_group` -/
def validateFuseGroup (byId : PyDict ℤ GraphOp) (group : List ℤ) : Except FusionHintError Unit :=
  if group = [] then .error .emptyGroup
  else if ¬group.Nodup then .error (.duplicateIds group)
  else if (group.filter (· ∉ byId.keys)) ≠ [] then
    .error (.unknownIds (group.filter (· ∉ byId.keys)))
  else
    match outOfOrder byId group [] group with
    | some (did, dep) => .error (.notTopological did dep)
    | none =>
      match (trapped byId group).min? with
      | some did => .error (.notClosed did)
      | none => .ok ()

/-- `_pairwise_split`: the pairs of a chain of alternating `linear_s8` and `elu_s8`. -/
def pairwiseSplit (byId : PyDict ℤ GraphOp) : List ℤ → Option (List (List ℤ))
  | [] => some []
  | [_] => none
  | a :: b :: rest =>
    if (byId.get? a).map GraphOp.op = some "linear_s8" ∧
        (byId.get? b).map GraphOp.op = some "elu_s8" then
      (pairwiseSplit byId rest).map ([a, b] :: ·)
    else none

/-- The groups after the expansion into pairs, if it is asked for. -/
def expandGroups (byId : PyDict ℤ GraphOp) (pairwise : Bool) (fuseGroups : List (List ℤ)) :
    List (List ℤ) :=
  if pairwise then fuseGroups.flatMap fun group => (pairwiseSplit byId group).getD [group]
  else fuseGroups

/-- The groups share no ids, and none with `grouped`. -/
def checkDisjoint : List ℤ → List (List ℤ) → Except FusionHintError Unit
  | _, [] => .ok ()
  | grouped, group :: rest =>
    if grouped.filter (· ∈ group) ≠ [] then
      .error (.overlap ((grouped.filter (· ∈ group)).mergeSort (· ≤ ·)))
    else checkDisjoint (grouped ++ group) rest

/-- The groups that are fused, after all checks. -/
def acceptedGroups (ops : List GraphOp) (fuseGroups : List (List ℤ)) (pairwise : Bool) :
    Except FusionHintError (List (List ℤ)) := do
  let _ ← fuseGroups.mapM (validateFuseGroup (opsById ops))
  let expanded := expandGroups (opsById ops) pairwise fuseGroups
  let _ ← checkDisjoint [] expanded
  return expanded

/-! ### The fused op -/

/-- `_merge_hardware_target` -/
def mergeHardwareTarget (groupOps : List GraphOp) : String :=
  match (groupOps.map fun op => op.hardwareTarget.getD "any").dedup with
  | [target] => target
  | _ => "any"

/-- The kind of a fused op: a registered pair, or a name that lists the members. -/
def fusedOpKind (subOpNames : List String) : String :=
  if subOpNames = ["linear_s8", "elu_s8"] then "linear_s8_elu_s8"
  else if subOpNames = ["batchnorm2d_s8", "silu_s8"] then "batchnorm2d_silu_s8"
  else if subOpNames = ["conv2d_s8", "batchnorm2d_s8"] then "conv2d_batchnorm2d_s8"
  else "__fused__" ++ "__".intercalate subOpNames

/-- The tensors that dispatches outside of a group read. Views are passed over. -/
def consumedOutside (allOps : List GraphOp) (group : List ℤ) : List String :=
  allOps.flatMap fun op =>
    match op.dispatchId with
    | none => []
    | some did => if did ∈ group then [] else op.inputs

/-- The outputs of a fused op: what dispatches outside read, and the outputs of the model. -/
def fusedOutputs (groupOps : List GraphOp) (group : List ℤ) (allOps : List GraphOp)
    (modelOutputs : List String) : List String :=
  (PyList.orderedUnique (groupOps.flatMap GraphOp.outputs)).filter fun t =>
    t ∈ consumedOutside allOps group ∨ t ∈ modelOutputs

/-- `_build_fused_op` -/
def buildFusedOp (groupOps : List GraphOp) (group : List ℤ) (network : String)
    (allOps : List GraphOp) (modelOutputs : List String) : GraphOp :=
  let producedInside := groupOps.flatMap GraphOp.outputs
  let outputs := fusedOutputs groupOps group allOps modelOutputs
  { op := fusedOpKind (groupOps.map GraphOp.op)
    name := network ++ ".fused_" ++ toString (group.headD 0) ++ "_" ++ toString (group.getLastD 0)
    inputs := (PyList.orderedUnique (groupOps.flatMap GraphOp.inputs)).filter (· ∉ producedInside)
    outputs := outputs
    subOps := groupOps
    fusedFrom := some group
    internalTensors := some ((PyList.orderedUnique producedInside).filter (· ∉ outputs))
    hardwareTarget := some (mergeHardwareTarget groupOps) }

/-! ### The rewriter -/

/-- `group_for_id` -/
def groupForId (groups : List (List ℤ)) : PyDict ℤ (List ℤ) :=
  PyDict.ofList (groups.flatMap fun group => group.map (·, group))

/-- The members of a group. -/
def membersOf (byId : PyDict ℤ GraphOp) (group : List ℤ) : List GraphOp :=
  group.filterMap byId.get?

/-- What the members of a group depend on outside of it. -/
def externalDeps (groupOps : List GraphOp) (group : List ℤ) : List ℤ :=
  PyList.orderedUnique ((groupOps.flatMap GraphOp.dependsOn).filter (· ∉ group))

/-- The tables of the first pass. -/
structure Emission where
  /-- `new_ops` -/
  newOps : List GraphOp := []
  /-- `id_remap` -/
  idRemap : PyDict ℤ ℤ := PyDict.empty
  /-- `next_new_id` -/
  nextNewId : ℕ := 0
  /-- `fused_op_external_deps`, by new id. -/
  fusedOpExternalDeps : PyDict ℤ (List ℤ) := PyDict.empty

/-- First pass, one op: it is kept, or the group that it heads is fused, or it is dropped. -/
def emitOp (g : Graph) (groups : List (List ℤ)) (st : Emission) (op : GraphOp) : Emission :=
  match op.dispatchId with
  | none => { st with newOps := st.newOps ++ [op] }
  | some did =>
    match (groupForId groups).get? did with
    | none =>
      { st with
        newOps := st.newOps ++ [{ op with dispatchId := some (st.nextNewId : ℤ) }]
        idRemap := st.idRemap.set did st.nextNewId
        nextNewId := st.nextNewId + 1 }
    | some group =>
      if group.min? ≠ some did then st
      else
        let groupOps := membersOf (opsById g.ops) group
        let fused := buildFusedOp groupOps group g.name g.ops g.modelOutputs
        { newOps := st.newOps ++ [{ fused with dispatchId := some (st.nextNewId : ℤ) }]
          idRemap := group.foldl (fun remap did => remap.set did st.nextNewId) st.idRemap
          nextNewId := st.nextNewId + 1
          fusedOpExternalDeps :=
            st.fusedOpExternalDeps.set st.nextNewId (externalDeps groupOps group) }

/-- The tables after the first pass. -/
def emission (g : Graph) (groups : List (List ℤ)) : Emission := g.ops.foldl (emitOp g groups) {}

/-- `id_remap[d]` -/
def remapId (idRemap : PyDict ℤ ℤ) (did : ℤ) : Except FusionError ℤ :=
  match idRemap.get? did with
  | some new => .ok new
  | none => .error (.keyError did)

/-- Second pass, one op: translate its dependencies. -/
def rewireOp (st : Emission) (op : GraphOp) : Except FusionError GraphOp :=
  match op.dispatchId with
  | none => .ok op
  | some did =>
    if op.fusedFrom ≠ none then
      match st.fusedOpExternalDeps.get? did with
      | none => .error (.keyError did)
      | some deps => do
        let dependsOn ← deps.mapM (remapId st.idRemap)
        return { op with dependsOn := dependsOn }
    else
      .ok { op with dependsOn := PyList.orderedUnique (op.dependsOn.filterMap st.idRemap.get?) }

/-- Both passes. -/
def fuse (g : Graph) (groups : List (List ℤ)) : Except FusionError Graph := do
  let st := emission g groups
  let newOps ← st.newOps.mapM (rewireOp st)
  return { g with
    ops := newOps
    dispatches := g.dispatches.map fun _ => dispatchIds newOps
    idRemap := some (.scalar (st.idRemap.items.mergeSort fun a b => a.1 ≤ b.1)) }

/-- `apply_hint` -/
def applyHint (g : Graph) (fuseGroups : List (List ℤ)) (pairwise : Bool) :
    Except FusionError Graph :=
  if fuseGroups = [] then .ok g
  else
    match acceptedGroups g.ops fuseGroups pairwise with
    | .error e => .error (.hint e)
    | .ok groups => fuse g groups

/-! ## Accepted groups -/

open Relation List Fallible

variable {byId : PyDict ℤ GraphOp}

/-- `a` is a dependency of `b`, and both are dispatches of the graph. -/
abbrev DependencyOf (byId : PyDict ℤ GraphOp) (a b : ℤ) : Prop := EdgeList.Edge (depEdges byId) a b

variable {a b : ℤ}

/-- The edges are the dependencies that exist. -/
theorem dependencyOf_iff :
    DependencyOf byId a b ↔ ∃ op, byId.get? b = some op ∧ a ∈ op.dependsOn ∧ a ∈ byId.keys := by
  unfold DependencyOf EdgeList.Edge depEdges
  simp only [mem_flatMap, mem_map, mem_filter, decide_eq_true_eq, Prod.mk.injEq]
  constructor
  · rintro ⟨⟨d, op⟩, hitem, dep, ⟨hdep, hkey⟩, rfl, rfl⟩
    exact ⟨op, PyDict.mem_items_iff.mp hitem, hdep, hkey⟩
  · rintro ⟨op, hget, hdep, hkey⟩
    exact ⟨(b, op), PyDict.mem_items_iff.mpr hget, a, ⟨hdep, hkey⟩, rfl, rfl⟩

/-- A checked group. -/
structure ValidGroup (byId : PyDict ℤ GraphOp) (group : List ℤ) : Prop where
  /-- It has a member. -/
  nonempty : group ≠ []
  /-- No member is listed twice. -/
  nodup : group.Nodup
  /-- The members are dispatches. -/
  known : ∀ did ∈ group, did ∈ byId.keys
  /-- Members are listed behind their dependencies. -/
  ordered : ∀ a ∈ group, ∀ b ∈ group, DependencyOf byId a b → group.idxOf a < group.idxOf b
  /-- Paths between members stay inside. -/
  closed : ∀ a ∈ group, ∀ b ∈ group, ∀ c, TransGen (DependencyOf byId) a c →
    TransGen (DependencyOf byId) c b → c ∈ group

/-! ### The order of a group -/

variable {group : List ℤ}

/-- No member is out of order iff the members among the dependencies of each are seen before it. -/
theorem outOfOrder_eq_none_iff {seen rest : List ℤ} :
    outOfOrder byId group seen rest = none ↔
      ∀ pre did post, rest = pre ++ did :: post → ∀ dep ∈ dependenciesOf byId did, dep ∈ group →
        dep ∈ seen ∨ dep ∈ pre := by
  induction rest generalizing seen with
  | nil => simp [outOfOrder]
  | cons x rest ih =>
    rw [outOfOrder]
    constructor
    · intro h pre did post heq dep hdep hgroup
      split at h
      · cases h
      next hfind =>
        cases pre with
        | nil =>
          -- The first member: the scan of its dependencies has found none that is not seen.
          obtain ⟨rfl, rfl⟩ := cons_eq_cons.mp heq
          have := find?_eq_none.mp hfind dep hdep
          simp only [decide_eq_true_eq, not_and, not_not] at this
          exact Or.inl (this hgroup)
        | cons y pre =>
          obtain ⟨rfl, rfl⟩ := cons_eq_cons.mp heq
          rcases ih.mp h pre did post rfl dep hdep hgroup with hseen | hpre
          · rcases mem_cons.mp hseen with rfl | hseen
            · exact Or.inr mem_cons_self
            · exact Or.inl hseen
          · exact Or.inr (mem_cons_of_mem x hpre)
    · intro h
      have hfind : ((dependenciesOf byId x).find? fun dep => dep ∈ group ∧ dep ∉ seen) = none := by
        apply find?_eq_none.mpr
        intro dep hdep
        simp only [decide_eq_true_eq, not_and, not_not]
        intro hgroup
        exact (h [] x rest rfl dep hdep hgroup).resolve_right not_mem_nil
      rw [hfind]
      apply ih.mpr
      intro pre did post heq dep hdep hgroup
      rcases h (x :: pre) did post (by rw [heq]; rfl) dep hdep hgroup with hseen | hpre
      · exact Or.inl (mem_cons_of_mem x hseen)
      · rcases mem_cons.mp hpre with rfl | hpre
        · exact Or.inl mem_cons_self
        · exact Or.inr hpre

variable {pre post : List ℤ} {did : ℤ} {dep : ℤ} {u : Unit} {ops : List GraphOp}

/-- The members before a position are those with a smaller index. -/
private theorem mem_pre_iff (hnd : (pre ++ did :: post).Nodup) :
    dep ∈ pre ↔ (pre ++ did :: post).idxOf dep < (pre ++ did :: post).idxOf did := by
  have hdid : did ∉ pre := fun hmem =>
    disjoint_of_nodup_append hnd hmem mem_cons_self
  have hidx : (pre ++ did :: post).idxOf did = pre.length := by
    rw [idxOf_append_of_notMem hdid, idxOf_cons_self, Nat.add_zero]
  rw [hidx]
  constructor
  · intro hmem
    rw [idxOf_append_of_mem hmem]
    exact idxOf_lt_length_of_mem hmem
  · intro hlt
    by_contra hnot
    rw [idxOf_append_of_notMem hnot] at hlt
    omega

/-- The dependencies of a dispatch that is a member. -/
theorem mem_dependenciesOf_iff (hdep : dep ∈ byId.keys) :
    dep ∈ dependenciesOf byId did ↔ DependencyOf byId dep did := by
  rw [dependencyOf_iff, dependenciesOf]
  cases byId.get? did with
  | none => simp
  | some op => simp [hdep]

/-- Nothing is trapped iff paths between members stay inside. -/
theorem trapped_eq_nil_iff :
    trapped byId group = [] ↔ ∀ a ∈ group, ∀ b ∈ group, ∀ c, TransGen (DependencyOf byId) a c →
      TransGen (DependencyOf byId) c b → c ∈ group := by
  have hswap : ∀ {x y}, TransGen (EdgeList.Edge ((depEdges byId).map Prod.swap)) x y ↔
      TransGen (DependencyOf byId) y x := by
    intro x y
    rw [← transGen_swap]
    have hedge : EdgeList.Edge ((depEdges byId).map Prod.swap) =
        Function.swap (DependencyOf byId) := by
      funext a b
      simp only [EdgeList.Edge, mem_map, Prod.exists, Prod.swap_prod_mk, Prod.mk.injEq,
        Function.swap, DependencyOf, eq_iff_iff]
      constructor
      · rintro ⟨c, d, hmem, rfl, rfl⟩
        exact hmem
      · exact fun h => ⟨b, a, h, rfl, rfl⟩
    rw [hedge]
  rw [trapped, filter_eq_nil_iff]
  simp only [EdgeList.mem_closure_iff, hswap, decide_eq_true_eq, not_and, not_not]
  constructor
  · intro h a ha b hb c hac hcb
    exact h c ⟨a, ha, hac⟩ ⟨b, hb, hcb⟩
  · rintro h c ⟨a, ha, hac⟩ ⟨b, hb, hcb⟩
    exact h a ha b hb c hac hcb

/-- The checks on one group. -/
theorem validateFuseGroup_eq_ok_iff :
    validateFuseGroup byId group = .ok u ↔ ValidGroup byId group := by
  unfold validateFuseGroup
  simp only [ite_error_eq_ok_iff, not_not]
  have hknown : group.filter (· ∉ byId.keys) = [] ↔ ∀ did ∈ group, did ∈ byId.keys := by
    simp [filter_eq_nil_iff]
  have hordered : ∀ (_ : group.Nodup) (_ : ∀ did ∈ group, did ∈ byId.keys),
      (outOfOrder byId group [] group = none ↔
        ∀ a ∈ group, ∀ b ∈ group, DependencyOf byId a b → group.idxOf a < group.idxOf b) := by
    intro hnd hkeys
    rw [outOfOrder_eq_none_iff]
    constructor
    · intro h a ha b hb hab
      obtain ⟨pre, post, rfl⟩ := append_of_mem hb
      have := h pre b post rfl a ((mem_dependenciesOf_iff (hkeys a ha)).mpr hab) ha
      exact (mem_pre_iff hnd).mp (this.resolve_left not_mem_nil)
    · rintro h pre did post rfl dep hdep hgroup
      right
      apply (mem_pre_iff hnd).mpr
      exact h dep hgroup did (by simp) ((mem_dependenciesOf_iff (hkeys dep hgroup)).mp hdep)
  constructor
  · rintro ⟨hne, hnd, hfilter, h⟩
    rw [hknown] at hfilter
    split at h
    · cases h
    next hout =>
      split at h
      · cases h
      next hmin =>
        refine ⟨hne, hnd, hfilter, (hordered hnd hfilter).mp hout, ?_⟩
        exact trapped_eq_nil_iff.mp (min?_eq_none_iff.mp hmin)
  · rintro ⟨hne, hnd, hkeys, hord, hclosed⟩
    refine ⟨hne, hnd, hknown.mpr hkeys, ?_⟩
    rw [(hordered hnd hkeys).mpr hord, trapped_eq_nil_iff.mpr hclosed]
    rfl

/-! ### Pairs -/

/-- A path between members runs along the order of the group. -/
theorem ValidGroup.idxOf_lt (hgroup : ValidGroup byId group) (ha : a ∈ group) (hb : b ∈ group)
    (hab : TransGen (DependencyOf byId) a b) :
    group.idxOf a < group.idxOf b := by
  induction hab with
  | single hedge => exact hgroup.ordered a ha _ hb hedge
  | @tail c b hac hcb ih =>
    have hc : c ∈ group := hgroup.closed a ha b hb c hac (.single hcb)
    exact (ih hc).trans (hgroup.ordered c hc b hb hcb)

/-- Neighbours in a list have neighbouring positions. -/
theorem idxOf_neighbour (hnd : group.Nodup) (heq : group = pre ++ a :: b :: post) :
    group.idxOf b = group.idxOf a + 1 := by
  subst heq
  rw [nodup_append, nodup_cons] at hnd
  obtain ⟨-, ⟨hab, -⟩, hpre⟩ := hnd
  have ha : a ∉ pre := fun h => hpre a h a mem_cons_self rfl
  have hb : b ∉ pre := fun h => hpre b h b (by simp) rfl
  have hne : a ≠ b := fun h => hab (h ▸ mem_cons_self)
  rw [idxOf_append_of_notMem ha, idxOf_append_of_notMem hb,
    idxOf_cons_self, idxOf_cons_ne _ hne, idxOf_cons_self]

/-- Two neighbours of a checked group are a checked group. -/
theorem ValidGroup.pair (hgroup : ValidGroup byId group) (heq : group = pre ++ a :: b :: post) :
    ValidGroup byId [a, b] := by
  have hsub : [a, b].Sublist group := by
    rw [heq]
    have hpair : [a, b].Sublist (a :: b :: post) := by simp
    exact hpair.trans (sublist_append_right pre _)
  have hidx := idxOf_neighbour hgroup.nodup heq
  have hmem : ∀ {x}, x ∈ [a, b] → x ∈ group := fun hx => hsub.subset hx
  have hrange : ∀ {x}, x ∈ [a, b] → group.idxOf a ≤ group.idxOf x ∧
      group.idxOf x ≤ group.idxOf a + 1 := by
    intro x hx
    rcases mem_pair.mp hx with rfl | rfl <;> omega
  have hne : a ≠ b := by
    rintro rfl
    omega
  refine ⟨by simp, by simp [hne], fun did hdid => hgroup.known did (hmem hdid), ?_, ?_⟩
  · intro x hx y hy hxy
    have hlt := hgroup.ordered x (hmem hx) y (hmem hy) hxy
    rcases mem_pair.mp hx with rfl | rfl <;> rcases mem_pair.mp hy with rfl | rfl
    · omega
    · simp [hne]
    · omega
    · omega
  · -- A member between two neighbours would have an index between theirs.
    intro x hx y hy c hxc hcy
    have hc := hgroup.closed x (hmem hx) y (hmem hy) c hxc hcy
    have hlt := hgroup.idxOf_lt (hmem hx) hc hxc
    have hlt' := hgroup.idxOf_lt hc (hmem hy) hcy
    have := hrange hx
    have := hrange hy
    omega

/-- The pairs of a group are pairs of neighbours. -/
theorem mem_pairwiseSplit {pair : List ℤ} {pairs : List (List ℤ)}
    (h : pairwiseSplit byId group = some pairs) (hpair : pair ∈ pairs) :
    ∃ pre a b post, pair = [a, b] ∧ group = pre ++ a :: b :: post := by
  induction group using pairwiseSplit.induct byId generalizing pairs with
  | case1 =>
    cases h
    cases hpair
  | case2 => cases h
  | case3 a b rest hkinds ih =>
    rw [pairwiseSplit, if_pos hkinds] at h
    obtain ⟨rest', hrest, rfl⟩ := Option.map_eq_some_iff.mp h
    rcases mem_cons.mp hpair with rfl | hmem
    · exact ⟨[], a, b, rest, rfl, rfl⟩
    · obtain ⟨pre, c, d, post, rfl, rfl⟩ := ih hrest hmem
      exact ⟨a :: b :: pre, c, d, post, rfl, rfl⟩
  | case4 a b rest hkinds =>
    rw [pairwiseSplit, if_neg hkinds] at h
    cases h

variable {fuseGroups : List (List ℤ)} {pairwise : Bool}

/-- Groups stay checked groups under the expansion into pairs. -/
theorem validGroup_of_mem_expandGroups (hvalid : ∀ group ∈ fuseGroups, ValidGroup byId group)
    (h : group ∈ expandGroups byId pairwise fuseGroups) : ValidGroup byId group := by
  unfold expandGroups at h
  split_ifs at h with hpw
  · obtain ⟨whole, hwhole, hmem⟩ := mem_flatMap.mp h
    cases hsplit : pairwiseSplit byId whole with
    | none =>
      rw [hsplit, Option.getD_none, mem_singleton] at hmem
      exact hmem ▸ hvalid whole hwhole
    | some pairs =>
      rw [hsplit, Option.getD_some] at hmem
      obtain ⟨pre, a, b, post, rfl, heq⟩ := mem_pairwiseSplit hsplit hmem
      exact (hvalid whole hwhole).pair heq
  · exact hvalid group h

/-! ### All groups -/

/-- No group stays no group. -/
theorem expandGroups_nil (byId : PyDict ℤ GraphOp) (pairwise : Bool) :
    expandGroups byId pairwise [] = [] := by
  cases pairwise <;> rfl

/-- Groups stay groups. -/
theorem expandGroups_ne_nil (hne : fuseGroups ≠ []) (hmembers : ∀ group ∈ fuseGroups, group ≠ [])
    (pairwise : Bool) :
    expandGroups byId pairwise fuseGroups ≠ [] := by
  unfold expandGroups
  split_ifs
  · obtain ⟨group, hgroup⟩ := exists_mem_of_ne_nil fuseGroups hne
    have hpairs : (pairwiseSplit byId group).getD [group] ≠ [] := by
      match group, hmembers group hgroup with
      | [_], _ => simp [pairwiseSplit]
      | a :: b :: rest, _ =>
        rw [pairwiseSplit]
        split_ifs
        · cases pairwiseSplit byId rest <;> simp
        · simp
    intro hnil
    exact hpairs (flatMap_eq_nil_iff.mp hnil group hgroup)
  · exact hne

variable {groups : List (List ℤ)}

/-- The groups share no ids iff they are disjoint from each other and from `grouped`. -/
theorem checkDisjoint_eq_ok_iff {grouped : List ℤ} :
    checkDisjoint grouped groups = .ok u ↔
      (∀ group ∈ groups, List.Disjoint grouped group) ∧ groups.Pairwise List.Disjoint := by
  induction groups generalizing grouped with
  | nil => simp [checkDisjoint]
  | cons group rest ih =>
    have hfilter : grouped.filter (· ∈ group) = [] ↔ List.Disjoint grouped group := by
      simp [filter_eq_nil_iff, List.Disjoint]
    rw [checkDisjoint, ite_error_eq_ok_iff, not_not, hfilter, ih]
    simp only [mem_cons, forall_eq_or_imp, disjoint_append_left, pairwise_cons]
    constructor
    · rintro ⟨hhead, hrest, hpair⟩
      exact ⟨⟨hhead, fun x hx => (hrest x hx).1⟩, fun x hx => (hrest x hx).2, hpair⟩
    · rintro ⟨⟨hhead, hrest⟩, htail, hpair⟩
      exact ⟨hhead, fun x hx => ⟨hrest x hx, htail x hx⟩, hpair⟩

/-- What holds of the groups that are fused. -/
structure AcceptedGroups (byId : PyDict ℤ GraphOp) (groups : List (List ℤ)) : Prop where
  /-- Each is a checked group. -/
  valid : ∀ group ∈ groups, ValidGroup byId group
  /-- They share no ids. -/
  disjoint : groups.Pairwise List.Disjoint

/-- A dispatch is in one group at most. -/
theorem AcceptedGroups.eq_of_mem (h : AcceptedGroups byId groups) {group' : List ℤ}
    (hg : group ∈ groups) (hg' : group' ∈ groups) (hd : did ∈ group) (hd' : did ∈ group') :
    group = group' := by
  by_contra hne
  have hsymm : Std.Symm (List.Disjoint (α := ℤ)) := ⟨fun _ _ hab => hab.symm⟩
  exact h.disjoint.forall hg hg' hne hd hd'

/-- The rewriter accepts a hint iff each group passes its checks and no two of the groups, after
the expansion into pairs, share ids. -/
theorem acceptedGroups_eq_ok_iff :
    acceptedGroups ops fuseGroups pairwise = .ok groups ↔
      (∀ group ∈ fuseGroups, ValidGroup (opsById ops) group) ∧
        groups = expandGroups (opsById ops) pairwise fuseGroups ∧
        groups.Pairwise List.Disjoint := by
  unfold acceptedGroups
  simp only [bind_eq_ok_iff]
  constructor
  · rintro ⟨us, hvalid, u, hdisjoint, hret⟩
    cases hret
    refine ⟨fun group hgroup => ?_, rfl, (checkDisjoint_eq_ok_iff.mp hdisjoint).2⟩
    obtain ⟨u, -, hu⟩ := exists_of_mapM_eq_ok hvalid hgroup
    exact validateFuseGroup_eq_ok_iff.mp hu
  · rintro ⟨hvalid, rfl, hdisjoint⟩
    obtain ⟨us, hus⟩ := exists_mapM_eq_ok fun group hgroup =>
      ⟨(), validateFuseGroup_eq_ok_iff.mpr (hvalid group hgroup)⟩
    refine ⟨us, hus, (), ?_, rfl⟩
    exact checkDisjoint_eq_ok_iff.mpr ⟨fun _ _ => disjoint_nil_left _, hdisjoint⟩

/-- The groups that are fused are checked, and disjoint. -/
theorem acceptedGroups_spec (h : acceptedGroups ops fuseGroups pairwise = .ok groups) :
    AcceptedGroups (opsById ops) groups := by
  obtain ⟨hvalid, rfl, hdisjoint⟩ := acceptedGroups_eq_ok_iff.mp h
  exact ⟨fun group hgroup => validGroup_of_mem_expandGroups hvalid hgroup, hdisjoint⟩

end ModelBlaster

/-! ## Exact checks of fusion -/

namespace ModelBlaster

open Relation List

/-- What becomes of a dispatch when groups are contracted: its group, or the dispatch alone. -/
def blockOf (groups : List (List ℤ)) (did : ℤ) : List ℤ :=
  (groups.find? fun group => did ∈ group).getD [did]

/-- The contraction of the groups has no cycle but for the edges from a node to itself. -/
def ContractionAcyclic (byId : PyDict ℤ GraphOp) (groups : List (List ℤ)) : Prop :=
  ∀ x, ¬TransGen (Contraction.Edge (DependencyOf byId) (blockOf groups)) x x

section
variable {byId : PyDict ℤ GraphOp} {groups : List (List ℤ)} {group : List ℤ}

/-! ### Blocks -/

theorem mem_blockOf (groups : List (List ℤ)) (did : ℤ) : did ∈ blockOf groups did := by
  unfold blockOf
  cases hfind : groups.find? fun group => did ∈ group with
  | none => exact mem_singleton_self did
  | some group => simpa using find?_some hfind

variable {did : ℤ} {pairs : List (List ℤ)}

theorem blockOf_of_notMem (h : ∀ group ∈ groups, did ∉ group) :
    blockOf groups did = [did] := by
  unfold blockOf
  rw [find?_eq_none.mpr fun group hgroup => by simpa using h group hgroup]
  rfl

/-- Every dispatch of a group is contracted to the group. -/
theorem AcceptedGroups.blockOf_eq (h : AcceptedGroups byId groups) (hgroup : group ∈ groups)
    (hdid : did ∈ group) : blockOf groups did = group := by
  unfold blockOf
  cases hfind : groups.find? fun group => did ∈ group with
  | none => exact absurd hdid (by simpa using find?_eq_none.mp hfind group hgroup)
  | some group' =>
    have hdid' : did ∈ group' := by simpa using find?_some hfind
    exact h.eq_of_mem (mem_of_find?_eq_some hfind) hgroup hdid' hdid

/-! ### Contractions without cycles -/

/-- The contraction of checked groups is acyclic iff no circle of paths goes through groups. -/
theorem AcceptedGroups.contractionAcyclic_iff (hacyclic : EdgeList.Acyclic (depEdges byId))
    (h : AcceptedGroups byId groups) : ContractionAcyclic byId groups ↔
      ∀ x, ¬TransGen (Contraction.GroupPrecedes (· ∈ groups) (DependencyOf byId)
        (blockOf groups)) x x := by
  refine Contraction.acyclic_iff ?_ ?_ hacyclic
  · intro a b heq hnot
    have hsingle : ∀ did, blockOf groups did ∉ groups → blockOf groups did = [did] := by
      intro did hdid
      refine blockOf_of_notMem fun group hgroup hmem => hdid ?_
      rw [h.blockOf_eq hgroup hmem]
      exact hgroup
    have hnot' : blockOf groups b ∉ groups := by rwa [← heq]
    rw [hsingle a hnot, hsingle b hnot'] at heq
    exact singleton_inj.mp heq
  · intro a b c heq hgroup hac hcb
    have hb : b ∈ blockOf groups a := heq ▸ mem_blockOf groups b
    exact h.blockOf_eq hgroup ((h.valid _ hgroup).closed a (mem_blockOf groups a) b hb c hac hcb)

/-- A checked group can be contracted. -/
theorem ValidGroup.contractionAcyclic (hacyclic : EdgeList.Acyclic (depEdges byId))
    (h : ValidGroup byId group) : ContractionAcyclic byId [group] := by
  have hgroups : AcceptedGroups byId [group] :=
    ⟨fun group' hgroup' => mem_singleton.mp hgroup' ▸ h, pairwise_singleton _ _⟩
  rw [hgroups.contractionAcyclic_iff hacyclic]
  -- a circle would go from the group to another one
  intro x hcycle
  obtain ⟨y, ⟨hx, hy, hne, -⟩, -⟩ := TransGen.head'_iff.mp hcycle
  exact hne ((mem_singleton.mp hx).trans (mem_singleton.mp hy).symm)

/-- A group that can be contracted has all dispatches on paths between its members. -/
theorem mem_of_contractionAcyclic (h : ContractionAcyclic byId [group]) {a b c : ℤ} (ha : a ∈ group)
    (hb : b ∈ group) (hac : TransGen (DependencyOf byId) a c)
    (hcb : TransGen (DependencyOf byId) c b) : c ∈ group := by
  by_contra hc
  have hblock : ∀ did ∈ group, blockOf [group] did = group := by
    intro did hdid
    unfold blockOf
    rw [find?_cons_of_pos (by simpa using hdid)]
    rfl
  have hblockC : blockOf [group] c = [c] := by
    refine blockOf_of_notMem fun group' hgroup' => ?_
    rw [mem_singleton.mp hgroup']
    exact hc
  have hne : group ≠ [c] := by
    rintro rfl
    exact hc (mem_singleton_self c)
  -- the path out of the group and the path back are a cycle
  apply h group
  calc TransGen (Contraction.Edge (DependencyOf byId) (blockOf [group])) group [c] :=
        Contraction.transGen_of_precedes ⟨hne, a, c, hblock a ha, hblockC, hac⟩
    TransGen _ [c] group :=
        Contraction.transGen_of_precedes ⟨hne.symm, c, b, hblockC, hblock b hb, hcb⟩

/-! ### Pairs -/

/-- The pairs of a group are the group. -/
theorem flatten_pairwiseSplit (h : pairwiseSplit byId group = some pairs) :
    pairs.flatten = group := by
  induction group using pairwiseSplit.induct byId generalizing pairs with
  | case1 =>
    cases h
    rfl
  | case2 => cases h
  | case3 a b rest hkinds ih =>
    rw [pairwiseSplit, if_pos hkinds] at h
    obtain ⟨rest', hrest, rfl⟩ := Option.map_eq_some_iff.mp h
    rw [flatten_cons, ih hrest]
    rfl
  | case4 a b rest hkinds =>
    rw [pairwiseSplit, if_neg hkinds] at h
    cases h

/-- The pairs of a checked group are checked, and disjoint. -/
theorem ValidGroup.acceptedGroups_pairwiseSplit (h : ValidGroup byId group)
    (hpairs : pairwiseSplit byId group = some pairs) :
    AcceptedGroups byId pairs where
  valid pair hpair := by
    obtain ⟨pre, a, b, post, rfl, heq⟩ := mem_pairwiseSplit hpairs hpair
    exact h.pair heq
  disjoint := by
    have hnodup := h.nodup
    rw [← flatten_pairwiseSplit hpairs] at hnodup
    exact (nodup_flatten.mp hnodup).2

/-- A path between members of different pairs leads to a later pair. -/
theorem ValidGroup.idxOf_pair_lt (h : ValidGroup byId group)
    (hpairs : pairwiseSplit byId group = some pairs) {P Q : List ℤ}
    (hpath : Contraction.GroupPrecedes (· ∈ pairs) (DependencyOf byId) (blockOf pairs) P Q) :
    group.idxOf (P.headD 0) < group.idxOf (Q.headD 0) := by
  obtain ⟨hP, hQ, hne, x, y, hx, hy, hxy⟩ := hpath
  have hgroups := h.acceptedGroups_pairwiseSplit hpairs
  have hxP : x ∈ P := hx ▸ mem_blockOf pairs x
  have hyQ : y ∈ Q := hy ▸ mem_blockOf pairs y
  obtain ⟨pre, a, b, post, rfl, heq⟩ := mem_pairwiseSplit hpairs hP
  obtain ⟨pre', c, d, post', rfl, heq'⟩ := mem_pairwiseSplit hpairs hQ
  have hab := idxOf_neighbour h.nodup heq
  have hcd := idxOf_neighbour h.nodup heq'
  have hac : group.idxOf a ≠ group.idxOf c := by
    intro hsame
    have hmem : a ∈ group := by simp [heq]
    obtain rfl : a = c := (idxOf_inj hmem).mp hsame
    exact hne (hgroups.eq_of_mem hP hQ mem_cons_self mem_cons_self)
  have hmem : ∀ did ∈ [a, b], did ∈ group := by simp [heq]
  have hmem' : ∀ did ∈ [c, d], did ∈ group := by simp [heq']
  have hlt := h.idxOf_lt (hmem x hxP) (hmem' y hyQ) hxy
  show group.idxOf a < group.idxOf c
  rcases mem_pair.mp hxP with rfl | rfl <;>
    rcases mem_pair.mp hyQ with rfl | rfl <;> omega

/-- The pairs of a checked group can be contracted all at once. -/
theorem ValidGroup.contractionAcyclic_pairwiseSplit (hacyclic : EdgeList.Acyclic (depEdges byId))
    (h : ValidGroup byId group) (hpairs : pairwiseSplit byId group = some pairs) :
    ContractionAcyclic byId pairs := by
  rw [(h.acceptedGroups_pairwiseSplit hpairs).contractionAcyclic_iff hacyclic]
  intro x hcycle
  have hlt : TransGen (· < ·) (group.idxOf (x.headD 0)) (group.idxOf (x.headD 0)) :=
    hcycle.lift (fun pair => group.idxOf (pair.headD 0)) fun P Q => h.idxOf_pair_lt hpairs
  rw [transGen_eq_self] at hlt
  exact lt_irrefl _ hlt

/-! ### The check -/

/-- The list has no member in front of another that it depends on. -/
def DependenciesFirst (byId : PyDict ℤ GraphOp) (group : List ℤ) : Prop :=
  ∀ a ∈ group, ∀ b ∈ group, a ∈ dependenciesOf byId b → group.idxOf a < group.idxOf b

theorem validGroup_iff_contractionAcyclic (hacyclic : EdgeList.Acyclic (depEdges byId))
    (hne : group ≠ []) (hnd : group.Nodup) (hknown : ∀ did ∈ group, did ∈ byId.keys)
    (hfirst : DependenciesFirst byId group) :
    ValidGroup byId group ↔ ContractionAcyclic byId [group] := by
  refine ⟨fun h => h.contractionAcyclic hacyclic, fun h => ⟨hne, hnd, hknown, ?_, ?_⟩⟩
  · intro a ha b hb hab
    exact hfirst a ha b hb ((mem_dependenciesOf_iff (hknown a ha)).mpr hab)
  · intro a ha b hb c hac hcb
    exact mem_of_contractionAcyclic h ha hb hac hcb

end

/-- In an acyclic graph, a group is accepted iff contracting it leaves the graph acyclic, and so
does contracting the pairs that an accepted group is split into. -/
theorem validateFuseGroup_exact {byId : PyDict ℤ GraphOp}
    (hacyclic : EdgeList.Acyclic (depEdges byId)) :
    (∀ group, group ≠ [] → group.Nodup → (∀ did ∈ group, did ∈ byId.keys) →
      DependenciesFirst byId group →
        (validateFuseGroup byId group = .ok () ↔ ContractionAcyclic byId [group])) ∧
      ∀ group pairs, validateFuseGroup byId group = .ok () →
        pairwiseSplit byId group = some pairs → ContractionAcyclic byId pairs := by
  constructor
  · intro group hne hnd hknown hfirst
    rw [validateFuseGroup_eq_ok_iff]
    exact validGroup_iff_contractionAcyclic hacyclic hne hnd hknown hfirst
  · intro group pairs hvalid hpairs
    exact (validateFuseGroup_eq_ok_iff.mp hvalid).contractionAcyclic_pairwiseSplit hacyclic hpairs

/-- A chain of three layers with their activations. -/
def mlpControl : List GraphOp := [
  { op := "linear_s8", dispatchId := some 0, inputs := ["x"], outputs := ["a"] },
  { op := "elu_s8", dispatchId := some 1, dependsOn := [0], inputs := ["a"], outputs := ["b"] },
  { op := "linear_s8", dispatchId := some 2, dependsOn := [1], inputs := ["b"], outputs := ["c"] },
  { op := "elu_s8", dispatchId := some 3, dependsOn := [2], inputs := ["c"], outputs := ["d"] },
  { op := "linear_s8", dispatchId := some 4, dependsOn := [3], inputs := ["d"], outputs := ["e"] },
  { op := "elu_s8", dispatchId := some 5, dependsOn := [4], inputs := ["e"], outputs := ["y"] }]

theorem acyclic_mlpControl : EdgeList.Acyclic (depEdges (opsById mlpControl)) := by
  apply EdgeList.acyclic_of_rank Int.toNat
  have hedge : ∀ e ∈ depEdges (opsById mlpControl), e.1.toNat < e.2.toNat := by decide
  exact fun a b hab => hedge (a, b) hab

/-- The chain is contracted in pairs, but not without an op in the middle. -/
theorem validateFuseGroup_mlpControl :
    ContractionAcyclic (opsById mlpControl) [[0, 1], [2, 3], [4, 5]] ∧
      ¬ContractionAcyclic (opsById mlpControl) [[0, 2]] := by
  obtain ⟨hexact, hpairs⟩ := validateFuseGroup_exact acyclic_mlpControl
  constructor
  · exact hpairs [0, 1, 2, 3, 4, 5] [[0, 1], [2, 3], [4, 5]] (by rfl) (by decide)
  · rw [← hexact [0, 2] (by decide) (by decide) (by decide) (by unfold DependenciesFirst; decide)]
    intro h
    cases h

end ModelBlaster
