import ModelBlaster.Rewrite.FusedGraph
import ModelBlaster.Rewrite.Unfuse

/-!
# Fusing and unfusing

Unfusing what fusion has made of contiguous chains gives the ops back, in their order and under
their ids, with the dependencies that their tensors give by name. The rewriter refuses a chain
whose inner tensors it cannot describe, one whose last output is read by no dispatch, and one that
has a single member.

## Main definitions

* `ChainGroup`: a contiguous chain;
* `RestorableGroup`: such a chain that can be restored;
* `RestoredAs`: the same op, up to the metadata of the rewriters.

## Main results

* `applyUnfuseHint_applyHint`: unfusing restores what fusion has fused.
-/

namespace ModelBlaster

open List

/-- A chain of ops that stand next to each other. -/
structure ChainGroup (g : Graph) (group : List ℤ) (members : List GraphOp) : Prop
    extends Contiguous g.ops group members where
  /-- Every member has one output. -/
  single : ∀ m ∈ members, ∃ t, m.outputs = [t]
  /-- The next member reads it. -/
  linked : members.IsChain fun a b => ∀ t ∈ a.outputs, t ∈ b.inputs
  /-- Nobody else does. -/
  unshared : members.IsChain fun a b => ∀ t ∈ a.outputs,
    (∀ op ∈ g.ops, t ∈ op.inputs → op.dispatchId = b.dispatchId) ∧ t ∉ g.modelOutputs
  /-- Every member has a shape and a quantization. -/
  described : ∀ m ∈ members, m.shape.items ≠ [] ∧ m.quant ≠ none
  /-- Its reader's input scale is recorded, or its own output scale. -/
  scaled : members.IsChain fun a b =>
    (b.quant.bind OpQuant.scaleIn).or (a.quant.bind OpQuant.scaleOut) ≠ none

/-- The tensor that `a` hands to `b` can be described, and as it is registered if it is. -/
def Registrable (tensors : PyDict String TensorInfo) (shape : List ℕ) (a b : GraphOp) : Prop :=
  ∃ info, (∀ did, internalTensor a b shape did = .ok info) ∧
    ∀ t ∈ a.outputs, ∀ registered ∈ tensors.get? t,
      registered.shape = [] ∨ registered.shape = info.shape

/-- A chain that can be restored. -/
structure RestorableGroup (g : Graph) (group : List ℤ) (members : List GraphOp) : Prop
    extends ChainGroup g group members where
  /-- It has two members at least. -/
  two : 2 ≤ members.length
  /-- A dispatch outside reads the last output, or the model returns it. -/
  used : ∀ m ∈ members.getLast?, ∀ t ∈ m.outputs,
    t ∈ consumedOutside g.ops group ∨ t ∈ g.modelOutputs
  /-- The tensors inside can be registered. -/
  registrable : ∀ m ∈ members.getLast?,
    members.IsChain (Registrable g.tensors (fusedShape g.tensors m))

/-- The same op, up to the metadata of the rewriters. A dispatch has its dependencies if they are
those that `ops` gives by name. -/
def RestoredAs (ops : List GraphOp) (op op' : GraphOp) : Prop :=
  match op.dispatchId with
  | none => op' = op
  | some did => ∃ deps target origin,
    op' = { op with
      dependsOn := deps
      hardwareTarget := op.hardwareTarget.or target
      unfusedFrom := origin } ∧
    (op.dependsOn = dependsOnOf ops op did → deps = op.dependsOn)

theorem restoredAs_self (ops : List GraphOp) (op : GraphOp) : RestoredAs ops op op := by
  have heta : op = { op with
      dependsOn := op.dependsOn
      hardwareTarget := op.hardwareTarget.or none
      unfusedFrom := op.unfusedFrom } := by
    rw [Option.or_none]
    cases op
    rfl
  unfold RestoredAs
  split
  · rfl
  · exact ⟨_, _, _, heta, fun _ => rfl⟩

/-! ### What a chain is fused into -/

section Chain

variable {g : Graph} {group : List ℤ} {members : List GraphOp} {ops : List GraphOp}

theorem mem_consumedOutside {t : String} :
    t ∈ consumedOutside ops group ↔
      ∃ op ∈ ops, ∃ did, op.dispatchId = some did ∧ did ∉ group ∧ t ∈ op.inputs := by
  simp only [consumedOutside, mem_flatMap]
  constructor
  · rintro ⟨op, hop, ht⟩
    split at ht
    · cases ht
    next did hid =>
      split_ifs at ht with hin
      · cases ht
      · exact ⟨op, hop, did, hid, hin, ht⟩
  · rintro ⟨op, hop, did, hid, hin, ht⟩
    refine ⟨op, hop, ?_⟩
    simp only [hid, if_neg hin]
    exact ht

section
variable (h : Contiguous ops group members)
include h

/-- The ids of members are in the group. -/
private theorem Contiguous.mem_group {m : GraphOp} (hm : m ∈ members) :
    ∃ did ∈ group, m.dispatchId = some did := by
  have hid : m.dispatchId ∈ members.map GraphOp.dispatchId := mem_map_of_mem hm
  rw [h.ids, mem_map] at hid
  obtain ⟨did, hdid, heq⟩ := hid
  exact ⟨did, hdid, heq.symm⟩

/-- The members are dispatches. -/
private theorem Contiguous.filter_eq :
    members.filter (fun op => op.dispatchId.isSome) = members := by
  apply filter_eq_self.mpr
  intro m hm
  obtain ⟨did, -, hid⟩ := h.mem_group hm
  rw [hid]
  rfl

/-- The outputs of the members are outputs of dispatches. -/
private theorem Contiguous.outputs_sublist :
    (members.flatMap GraphOp.outputs).Sublist
      ((ops.filter fun op => op.dispatchId.isSome).flatMap GraphOp.outputs) := by
  rw [← h.filter_eq]
  exact (h.infix_ops.sublist.filter _).flatMap _

end

section
variable (h : RestorableGroup g group members)
include h

/-- The fused op has the outputs of the last member. -/
private theorem RestorableGroup.fusedOutputs_eq
    (hsingle : ((g.ops.filter fun op => op.dispatchId.isSome).flatMap GraphOp.outputs).Nodup)
    {init : List GraphOp} {last : GraphOp} (hlast : members = init ++ [last]) :
    fusedOutputs members group g.ops g.modelOutputs = last.outputs := by
  have hnodup : (members.flatMap GraphOp.outputs).Nodup :=
    hsingle.sublist h.toContiguous.outputs_sublist
  have hinner : ∀ t ∈ init.flatMap GraphOp.outputs,
      ¬(t ∈ consumedOutside g.ops group ∨ t ∈ g.modelOutputs) := by
    intro t ht
    obtain ⟨m, hm, ht⟩ := mem_flatMap.mp ht
    obtain ⟨b, hb, hprivate⟩ := PyList.exists_of_isChain_append_single (hlast ▸ h.unshared) hm
    rw [mem_consumedOutside]
    rintro (⟨op, hop, did, hid, hout, hread⟩ | houtput)
    · -- The reader is the next member.
      obtain ⟨did', hdid', hb'⟩ := h.toContiguous.mem_group (hlast ▸ hb)
      have hsame := (hprivate t ht).1 op hop hread
      rw [hid, hb'] at hsame
      exact hout (Option.some.inj hsame ▸ hdid')
    · exact (hprivate t ht).2 houtput
  have hused : ∀ t ∈ last.outputs, t ∈ consumedOutside g.ops group ∨ t ∈ g.modelOutputs := by
    apply h.used
    rw [hlast]
    simp
  rw [fusedOutputs, PyList.orderedUnique_of_nodup hnodup, hlast, flatMap_append,
    filter_append, flatMap_singleton,
    filter_eq_nil_iff.mpr fun t ht => by simpa using hinner t ht,
    filter_eq_self.mpr fun t ht => by simpa using hused t ht, nil_append]

/-- There is a last member. -/
private theorem RestorableGroup.exists_last :
    ∃ init last, members = init ++ [last] := by
  rcases eq_nil_or_concat members with rfl | ⟨init, last, rfl⟩
  · exact absurd h.two (by simp)
  · exact ⟨init, last, concat_eq_append⟩

/-- The fused op is a chain that unfusing accepts. -/
private theorem RestorableGroup.chain
    (hsingle : ((g.ops.filter fun op => op.dispatchId.isSome).flatMap GraphOp.outputs).Nodup)
    (id : Option ℤ) (deps : List ℤ) :
    Chain { buildFusedOp members group g.name g.ops g.modelOutputs with
      dispatchId := id, dependsOn := deps } := by
  obtain ⟨init, last, hlast⟩ := h.exists_last
  refine ⟨h.two, ?_, ?_, h.described⟩
  · apply h.linked.imp_of_mem_imp
    intro a b ha _ hab
    obtain ⟨t, ht⟩ := h.single a ha
    exact ⟨t, by simp [ht], hab t (by simp [ht])⟩
  · show members.getLast?.map GraphOp.outputs =
      some (fusedOutputs members group g.ops g.modelOutputs)
    rw [h.fusedOutputs_eq hsingle hlast, hlast, getLast?_concat]
    rfl

end

end Chain

/-! ### Registration -/

/-- Registration depends on the outputs only. -/
private theorem Registrable.congr {tensors tensors' : PyDict String TensorInfo} {shape : List ℕ}
    {a b : GraphOp} (h : Registrable tensors shape a b)
    (hsame : ∀ t ∈ a.outputs, tensors'.get? t = tensors.get? t) :
    Registrable tensors' shape a b := by
  obtain ⟨info, hinfo, hregistered⟩ := h
  exact ⟨info, hinfo, fun t ht => hsame t ht ▸ hregistered t ht⟩

/-- The inner tensors of a chain are registered, and nothing else. -/
private theorem exists_registerInternals {shape : List ℕ} {did : ℤ} {members : List GraphOp}
    {tensors : PyDict String TensorInfo} (hsingle : ∀ m ∈ members, ∃ t, m.outputs = [t])
    (hnodup : (members.flatMap GraphOp.outputs).Nodup)
    (hchain : members.IsChain (Registrable tensors shape)) :
    ∃ tensors', registerInternals shape did members tensors = .ok tensors' ∧
      ∀ t, t ∉ members.flatMap GraphOp.outputs → tensors'.get? t = tensors.get? t := by
  induction members generalizing tensors with
  | nil => exact ⟨tensors, rfl, fun _ _ => rfl⟩
  | cons a rest ih =>
    cases rest with
    | nil => exact ⟨tensors, rfl, fun _ _ => rfl⟩
    | cons b rest =>
      obtain ⟨t, ht⟩ := hsingle a mem_cons_self
      rw [flatMap_cons, ht, singleton_append, nodup_cons] at hnodup
      rw [isChain_cons_cons] at hchain
      obtain ⟨⟨info, hinfo, hregistered⟩, hrest⟩ := hchain
      have hsingle' := fun m hm => hsingle m (mem_cons_of_mem a hm)
      rw [flatMap_cons, ht, singleton_append]
      cases hget : tensors.get? t with
      | some registered =>
        obtain ⟨tensors', hok, hkeep⟩ := ih hsingle' hnodup.2 hrest
        refine ⟨tensors', ?_, fun t' ht' => hkeep t' fun hmem => ht' (mem_cons_of_mem t hmem)⟩
        have hshape := hregistered t (by simp [ht]) registered hget
        simp only [registerInternals, hinfo, ht, headD_cons, hget, Fallible.bind_eq_ok_iff]
        refine ⟨info, rfl, ?_⟩
        rw [if_neg (by tauto)]
        exact hok
      | none =>
        -- The other members find their tensors as before.
        have hset : (b :: rest).IsChain (Registrable (tensors.set t info) shape) := by
          apply hrest.imp_of_mem_imp
          intro x y hx _ hxy
          refine hxy.congr fun t' ht' => PyDict.get?_set_of_ne _ _ ?_
          rintro rfl
          exact hnodup.1 (mem_flatMap.mpr ⟨x, hx, ht'⟩)
        obtain ⟨tensors', hok, hkeep⟩ := ih hsingle' hnodup.2 hset
        refine ⟨tensors', ?_, fun t' ht' => ?_⟩
        · simp only [registerInternals, hinfo, ht, headD_cons, hget, Fallible.bind_eq_ok_iff]
          exact ⟨info, rfl, hok⟩
        · rw [mem_cons, not_or] at ht'
          rw [hkeep t' ht'.2, PyDict.get?_set_of_ne _ _ ht'.1]

/-! ### Blocks -/

/-- `op'` is a piece that `op` has become, before the dispatches are numbered. -/
private def Piece (op op' : GraphOp) : Prop :=
  match op.dispatchId with
  | none => op' = op
  | some _ => ∃ id deps target origin, op' = { op with
      dispatchId := some id
      dependsOn := deps
      hardwareTarget := op.hardwareTarget.or target
      unfusedFrom := origin }

section Blocks

variable {g : Graph} {groups : List (List ℤ)} {targets : List ℤ}
  (hordered : (dispatchIds g.ops).Pairwise (· < ·))
  (hgroups : AcceptedGroups (opsById g.ops) groups)
  (hwirable : Rewirable g groups)
  (hrestorable : ∀ group ∈ groups, ∃ members, RestorableGroup g group members)
  (htargets : ∀ d, d ∈ targets ↔ ∃ op ∈ (fusedGraph g groups).ops, op.dispatchId = some d ∧
    ∃ group ∈ groups, op.fusedFrom = some group)

include hordered htargets

variable {op : GraphOp} {n : ℤ} {l : List GraphOp}

section
variable (hop : op ∈ (fusedGraph g groups).ops) (hid : op.dispatchId = some n)
include hop hid

/-- A dispatch of the fused graph is a target iff it is a fused op. -/
private theorem mem_targets_iff :
    n ∈ targets ↔ ∃ group ∈ groups, op.fusedFrom = some group := by
  have hnd : (dispatchIds g.ops).Nodup := hordered.imp fun h => h.ne
  have hfused : (dispatchIds (fusedGraph g groups).ops).Nodup := by
    rw [dispatchIds_fusedGraph hnd]
    exact nodup_range.map fun i j h => Int.ofNat_inj.mp h
  rw [htargets]
  constructor
  · rintro ⟨op', hop', hid', hfrom⟩
    exact eq_of_dispatchIds_nodup hfused hop hop' hid hid' ▸ hfrom
  · exact fun hfrom => ⟨op, hop, hid, hfrom⟩

include hgroups hwirable in
/-- A target stands for a group. -/
private theorem eq_buildFusedOp_of_mem_targets (hn : n ∈ targets) :
    ∃ group ∈ groups, ∃ deps,
      op = { buildFusedOp (membersOf (opsById g.ops) group) group g.name g.ops g.modelOutputs with
        dispatchId := some n, dependsOn := deps } := by
  obtain ⟨other, -, hfrom⟩ := (mem_targets_iff hordered htargets hop hid).mp hn
  obtain ⟨op', hop', hfused⟩ := mem_filterMap.mp hop
  unfold fusedGraphOp at hfused
  cases hid' : op'.dispatchId with
  | none =>
    simp only [hid', Option.some.injEq] at hfused
    rw [← hfused, hid'] at hid
    cases hid
  | some did =>
    simp only [hid'] at hfused
    split_ifs at hfused
    cases hget : (groupForId groups).get? did with
    | none =>
      have hnone := (groupForId_eq_none_iff hgroups).mp hget
      simp only [hget, Option.some.injEq] at hfused
      subst hfused
      have hmark : op'.fusedFrom = some other := hfrom
      rw [hwirable.unmarked op' hop' did hid' hnone] at hmark
      cases hmark
    | some group =>
      obtain ⟨hgroup, -⟩ := (groupForId_eq_some_iff hgroups).mp hget
      simp only [hget, Option.some.injEq] at hfused
      obtain rfl := hfused
      obtain rfl := Option.some.inj hid
      exact ⟨group, hgroup, _, rfl⟩

end

include hgroups hwirable in
/-- What is in no group stays as it is. -/
private theorem single_block (hop : op ∈ g.ops)
    (hnone : ∀ did ∈ op.dispatchId, ∀ group ∈ groups, did ∉ group) :
    ∃ op', fusedGraphOp g groups op = some op' ∧ Piece op op' ∧ piecesOf targets op' = [op'] ∧
      ∀ tensors, registerOp targets tensors op' = .ok tensors := by
  cases hid : op.dispatchId with
  | none =>
    exact ⟨op, by simp [fusedGraphOp, hid], by simp [Piece, hid], by simp [piecesOf, hid],
      by simp [registerOp, hid]⟩
  | some did =>
    obtain ⟨deps, hfused⟩ := fusedGraphOp_single hgroups hid (hnone did hid)
    have hmem : _ ∈ (fusedGraph g groups).ops := mem_filterMap.mpr ⟨op, hop, hfused⟩
    have hnot : (newId groups g.ops did : ℤ) ∉ targets := by
      rw [mem_targets_iff hordered htargets hmem rfl]
      rintro ⟨group, -, hfrom⟩
      rw [hwirable.unmarked op hop did hid (hnone did hid)] at hfrom
      cases hfrom
    refine ⟨_, hfused, ?_, ?_, fun tensors => ?_⟩
    · simp only [Piece, hid]
      exact ⟨_, deps, none, op.unfusedFrom, by rw [Option.or_none]⟩
    · simp only [piecesOf, hnot, not_false_eq_true, if_true]
    · simp only [registerOp, hnot, not_false_eq_true, if_true]

include hgroups in
/-- A group becomes a target. -/
private theorem group_block {group : List ℤ} (hgroup : group ∈ groups) {members : List GraphOp}
    (hmembers : Contiguous g.ops group members) : ∃ n deps, n ∈ targets ∧
      members.filterMap (fusedGraphOp g groups) =
        [{ buildFusedOp members group g.name g.ops g.modelOutputs with
          dispatchId := some n, dependsOn := deps }] := by
  obtain ⟨n, deps, hfused⟩ := filterMap_fusedGraphOp_group hgroups hordered hgroup hmembers
  refine ⟨n, deps, ?_, hfused⟩
  have hmem : { buildFusedOp members group g.name g.ops g.modelOutputs with
      dispatchId := some n, dependsOn := deps } ∈ members.filterMap (fusedGraphOp g groups) := by
    rw [hfused]
    exact mem_singleton_self _
  obtain ⟨m, hm, hm'⟩ := mem_filterMap.mp hmem
  have hmem' : _ ∈ (fusedGraph g groups).ops :=
    mem_filterMap.mpr ⟨m, hmembers.infix_ops.subset hm, hm'⟩
  exact (mem_targets_iff hordered htargets hmem' rfl).mpr ⟨group, hgroup, rfl⟩

omit hordered htargets in
/-- The constituents of a fused op are its members. -/
private theorem forall₂_pieces (fused : GraphOp) (did : ℤ) (members : List GraphOp) (s : ℕ)
    (hids : ∀ m ∈ members, m.dispatchId ≠ none) : List.Forall₂ Piece members
      ((members.zipIdx s).map fun p => restoredPiece fused did 0 p.1 p.2) := by
  induction members generalizing s with
  | nil => exact .nil
  | cons m rest ih =>
    rw [zipIdx_cons, map_cons]
    refine .cons ?_ (ih (s + 1) fun m hm => hids m (mem_cons_of_mem _ hm))
    obtain ⟨d, hd⟩ := Option.ne_none_iff_exists'.mp (hids m mem_cons_self)
    simp only [Piece, hd]
    exact ⟨_, _, _, _, rfl⟩

include hgroups hwirable in
/-- The pieces of the fused graph are the ops, before they are numbered. -/
private theorem forall₂_flatMap_pieces (hblocks : Blocks g.ops groups l) :
    List.Forall₂ Piece l ((l.filterMap (fusedGraphOp g groups)).flatMap (piecesOf targets)) := by
  induction hblocks with
  | nil => exact .nil
  | single hop hnone _ ih =>
    obtain ⟨op', hfused, hpiece, hpieces, -⟩ :=
      single_block hordered hgroups hwirable htargets hop hnone
    rw [filterMap_cons_some hfused, flatMap_cons, hpieces]
    exact .cons hpiece ih
  | @group group members rest hgroup hmembers _ ih =>
    obtain ⟨n, deps, hn, hfused⟩ := group_block hordered hgroups htargets hgroup hmembers
    rw [filterMap_append, hfused, singleton_append, flatMap_cons]
    refine rel_append ?_ ih
    simp only [piecesOf, hn, not_true_eq_false, if_false]
    apply forall₂_pieces
    intro m hm
    obtain ⟨did, -, hid⟩ := hmembers.mem_group hm
    rw [hid]
    exact Option.some_ne_none did

include hgroups hwirable hrestorable in
/-- The inner tensors of the fused ops can be registered. -/
private theorem exists_registerOps (hblocks : Blocks g.ops groups l)
    (hsingle : ((g.ops.filter fun op => op.dispatchId.isSome).flatMap GraphOp.outputs).Nodup)
    (hnodup : ((l.filter fun op => op.dispatchId.isSome).flatMap GraphOp.outputs).Nodup)
    {tensors : PyDict String TensorInfo}
    (hsame : ∀ t ∈ (l.filter fun op => op.dispatchId.isSome).flatMap GraphOp.outputs,
      tensors.get? t = g.tensors.get? t) :
    ∃ tensors', (l.filterMap (fusedGraphOp g groups)).foldlM (registerOp targets) tensors =
      .ok tensors' := by
  induction hblocks generalizing tensors with
  | nil => exact ⟨tensors, rfl⟩
  | @single op rest hop hnone _ ih =>
    obtain ⟨op', hfused, -, -, hregister⟩ :=
      single_block hordered hgroups hwirable htargets hop hnone
    have hsub : ((rest.filter fun op => op.dispatchId.isSome).flatMap GraphOp.outputs).Sublist
        (((op :: rest).filter fun op => op.dispatchId.isSome).flatMap GraphOp.outputs) :=
      ((sublist_cons_self op rest).filter _).flatMap _
    obtain ⟨tensors', hok⟩ := ih (hnodup.sublist hsub) fun t ht => hsame t (hsub.subset ht)
    refine ⟨tensors', ?_⟩
    rw [filterMap_cons_some hfused, foldlM_cons, hregister]
    exact hok
  | @group group members rest hgroup hmembers _ ih =>
    obtain ⟨n, deps, hn, hfused⟩ := group_block hordered hgroups htargets hgroup hmembers
    obtain ⟨members', hrestorable'⟩ := hrestorable group hgroup
    have hnd : (dispatchIds g.ops).Nodup := hordered.imp fun h => h.ne
    obtain rfl : members' = members := by
      rw [← membersOf_of_contiguous hnd hrestorable'.toContiguous,
        membersOf_of_contiguous hnd hmembers]
    obtain ⟨init, last, rfl⟩ := hrestorable'.exists_last
    -- The block writes the outputs of its members, and the rest writes others.
    have hall := hmembers.filter_eq
    rw [filter_append, hall, flatMap_append] at hnodup hsame
    have hlast : last ∈ init ++ [last] := by simp
    have hin : ∀ m ∈ init ++ [last], ∀ t ∈ m.outputs, tensors.get? t = g.tensors.get? t :=
      fun m hm t ht => hsame t (mem_append_left _ (mem_flatMap.mpr ⟨m, hm, ht⟩))
    have hshape : fusedShape tensors { buildFusedOp (init ++ [last]) group g.name g.ops
        g.modelOutputs with dispatchId := some n, dependsOn := deps } =
        fusedShape g.tensors last := by
      have houtputs : (buildFusedOp (init ++ [last]) group g.name g.ops g.modelOutputs).outputs =
          last.outputs := hrestorable'.fusedOutputs_eq hsingle rfl
      obtain ⟨t, ht⟩ := hrestorable'.single last hlast
      simp only [fusedShape, houtputs, ht, head?_cons, Option.bind_some,
        hin last hlast t (by simp [ht])]
    have hchain : (init ++ [last]).IsChain (Registrable tensors (fusedShape g.tensors last)) :=
      (hrestorable'.registrable last (by simp)).imp_of_mem_imp
        fun a b ha _ hab => hab.congr (hin a ha)
    obtain ⟨mid, hmid, hkeep⟩ := @exists_registerInternals _ n _ _ hrestorable'.single
      hnodup.of_append_left hchain
    obtain ⟨tensors', hok⟩ := @ih hnodup.of_append_right mid fun t ht => by
      have hnot : t ∉ (init ++ [last]).flatMap GraphOp.outputs :=
        fun hmem => disjoint_of_nodup_append hnodup hmem ht
      rw [hkeep t hnot]
      exact hsame t (mem_append_right _ ht)
    refine ⟨tensors', ?_⟩
    rw [filterMap_append, hfused, singleton_append, foldlM_cons, Fallible.bind_eq_ok_iff]
    refine ⟨mid, ?_, hok⟩
    simp only [registerOp, hn, not_true_eq_false, if_false, hshape]
    exact hmid

end Blocks

/-! ### Numbers and dependencies -/

/-- `op'` is what `op` has become, with the id that it had. -/
private def Numbered (op op' : GraphOp) : Prop :=
  match op.dispatchId with
  | none => op' = op
  | some _ => ∃ deps target origin, op' = { op with
      dependsOn := deps
      hardwareTarget := op.hardwareTarget.or target
      unfusedFrom := origin }

/-- Pieces get the ids of their ops, when those count up. -/
private theorem forall₂_numberFrom {l l' : List GraphOp} (h : List.Forall₂ Piece l l') {n k : ℕ}
    (hids : dispatchIds l = (List.range' n k).map fun i : ℕ => (i : ℤ)) :
    List.Forall₂ Numbered l (numberFrom n l') := by
  induction h generalizing n k with
  | nil => exact .nil
  | @cons op op' rest rest' hpiece _ ih =>
    cases hid : op.dispatchId with
    | none =>
      simp only [Piece, hid] at hpiece
      subst hpiece
      rw [dispatchIds, filterMap_cons_none hid] at hids
      simp only [numberFrom, hid]
      refine .cons ?_ (ih hids)
      simp [Numbered, hid]
    | some did =>
      simp only [Piece, hid] at hpiece
      obtain ⟨id, deps, target, origin, rfl⟩ := hpiece
      rw [dispatchIds, filterMap_cons_some hid] at hids
      cases k with
      | zero => cases hids
      | succ k =>
        obtain ⟨rfl, hrest⟩ := cons_eq_cons.mp hids
        refine .cons ?_ (ih hrest)
        simp only [Numbered, hid]
        exact ⟨deps, target, origin, rfl⟩

section Numbered

variable {ops ops' : List GraphOp} (h : List.Forall₂ Numbered ops ops')

include h

/-- The same tensors are written by the same dispatches. -/
private theorem producerOf_numbered : producerOf ops' = producerOf ops := by
  unfold producerOf
  congr 1
  induction h with
  | nil => rfl
  | @cons op op' _ _ hop _ ih =>
    rw [flatMap_cons, flatMap_cons, ih]
    congr 1
    cases hid : op.dispatchId with
    | none =>
      simp only [Numbered, hid] at hop
      subst hop
      simp [hid]
    | some did =>
      simp only [Numbered, hid] at hop
      obtain ⟨deps, target, origin, rfl⟩ := hop
      simp

/-- Rebuilding the dependencies restores those that the tensors give. -/
private theorem forall₂_rebuildDependsOn :
    List.Forall₂ (RestoredAs ops) ops (rebuildDependsOn ops') := by
  have hproducers := producerOf_numbered h
  unfold rebuildDependsOn
  rw [forall₂_map_right_iff]
  apply h.imp
  intro op op' hop
  cases hid : op.dispatchId with
  | none =>
    simp only [Numbered, hid] at hop
    subst hop
    simp [RestoredAs, hid]
  | some did =>
    simp only [Numbered, hid] at hop
    obtain ⟨deps, target, origin, rfl⟩ := hop
    simp only [RestoredAs, hid]
    refine ⟨_, target, origin, rfl, fun hdeps => ?_⟩
    rw [hdeps]
    simp only [dependsOnOf, hproducers]

end Numbered

/-- Unfusing restores what fusion has fused. Its ops are the original ops, in their order, with
their ids and their tensors, and with their dependencies where they are those by name. -/
theorem applyUnfuseHint_applyHint {g fused : Graph} {fuseGroups groups : List (List ℤ)}
    {pairwise : Bool} {targets : List ℤ} (model : Option String)
    (hids : dispatchIds g.ops = (List.range (dispatchIds g.ops).length).map fun i : ℕ => (i : ℤ))
    (hsingle : ((g.ops.filter fun op => op.dispatchId.isSome).flatMap GraphOp.outputs).Nodup)
    (haccepted : acceptedGroups g.ops fuseGroups pairwise = .ok groups)
    (hfused : applyHint g fuseGroups pairwise = .ok fused)
    (hrestorable : ∀ group ∈ groups, ∃ members, RestorableGroup g group members)
    (hnodup : targets.Nodup)
    (htargets : ∀ d, d ∈ targets ↔ ∃ op ∈ fused.ops, op.dispatchId = some d ∧
      ∃ group ∈ groups, op.fusedFrom = some group) :
    ∃ out, applyUnfuseHint fused targets model = .ok out ∧
      List.Forall₂ (RestoredAs g.ops) g.ops out.ops := by
  have hordered : (dispatchIds g.ops).Pairwise (· < ·) := by
    rw [hids, pairwise_map]
    exact pairwise_lt_range.imp Int.ofNat_lt.mpr
  have hnd : (dispatchIds g.ops).Nodup := hordered.imp fun h => h.ne
  obtain ⟨hvalid, hexpand, -⟩ := acceptedGroups_eq_ok_iff.mp haccepted
  by_cases hempty : fuseGroups = []
  · -- Nothing is fused, and nothing is restored.
    subst hempty
    rw [expandGroups_nil] at hexpand
    obtain rfl : g = fused := by
      unfold applyHint at hfused
      rw [if_pos rfl] at hfused
      exact Except.ok.inj hfused
    obtain rfl : targets = [] := by
      apply eq_nil_iff_forall_not_mem.mpr
      intro d hd
      obtain ⟨-, -, -, group, hgroup, -⟩ := (htargets d).mp hd
      simp [hexpand] at hgroup
    exact ⟨g, rfl, forall₂_same.mpr fun op _ => restoredAs_self _ op⟩
  · have hgroups := acceptedGroups_spec haccepted
    obtain ⟨hwirable, rfl⟩ : Rewirable g groups ∧ fused = fusedGraph g groups := by
      unfold applyHint at hfused
      rw [if_neg hempty, haccepted] at hfused
      exact (fuse_eq_ok_iff hnd hgroups).mp hfused
    have hblocks : Blocks g.ops groups g.ops := by
      apply blocks_of_contiguous hnd hgroups
      intro group hgroup
      obtain ⟨members, hmembers⟩ := hrestorable group hgroup
      exact ⟨members, hmembers.toContiguous⟩
    have hne : targets ≠ [] := by
      have hmembers : ∀ group ∈ fuseGroups, group ≠ [] :=
        fun group hgroup => (hvalid group hgroup).nonempty
      obtain ⟨group, hgroup⟩ := exists_mem_of_ne_nil groups
        (hexpand ▸ expandGroups_ne_nil hempty hmembers pairwise)
      obtain ⟨members, hmembers⟩ := hrestorable group hgroup
      obtain ⟨n, -, hn, -⟩ := group_block hordered hgroups htargets hgroup hmembers.toContiguous
      exact ne_nil_of_mem hn
    obtain ⟨tensors, htensors⟩ := exists_registerOps hordered hgroups hwirable hrestorable htargets
      hblocks hsingle hsingle fun _ _ => rfl
    obtain ⟨st, hst⟩ := (exists_pass_iff _ { tensors := g.tensors }).mpr ⟨tensors, htensors⟩
    refine ⟨_, (applyUnfuseHint_eq_ok_iff hne).mpr ⟨?_, hnodup, st, hst, rfl⟩, ?_⟩
    · intro did hdid
      obtain ⟨op, hop, hid, -⟩ := (htargets did).mp hdid
      have hnd' : (dispatchIds (fusedGraph g groups).ops).Nodup := by
        rw [dispatchIds_fusedGraph hnd]
        exact nodup_range.map fun i j h => Int.ofNat_inj.mp h
      obtain ⟨group, hgroup, deps, heq⟩ :=
        eq_buildFusedOp_of_mem_targets hordered hgroups hwirable htargets hop hid hdid
      obtain ⟨members, hmembers⟩ := hrestorable group hgroup
      rw [membersOf_of_contiguous hnd hmembers.toContiguous] at heq
      exact ⟨op, (get?_opsById_iff hnd').mpr ⟨hop, hid⟩, heq ▸ hmembers.chain hsingle _ _⟩
    · apply forall₂_rebuildDependsOn
      rw [range_eq_range'] at hids
      exact forall₂_numberFrom
        (forall₂_flatMap_pieces hordered hgroups hwirable htargets hblocks) hids

/-- A chain of three ops, with a reader of its output and one behind a view. -/
def convChain : Graph where
  name := "probe"
  ops := annotateGraphOps (convBnSilu.subOps ++ [flatten,
    { op := "relu_s8", name := "l1", inputs := ["y_act"], outputs := ["u"]
      shape := PyDict.ofList [("n", 64)] },
    { op := "relu_s8", name := "l2", inputs := ["flat"], outputs := ["v"]
      shape := PyDict.ofList [("n", 64)] }])
  modelOutputs := ["u"]
  tensors := PyDict.ofList [("x", { shape := [1, 3, 8, 8], quant := some (1, 0) }),
    ("y_conv", { shape := [1, 4, 4, 4], quant := some (1 / 4, 0) }),
    ("y_bn", { shape := [1, 4, 4, 4], quant := some (1 / 2, 0) }),
    ("y_act", { shape := [1, 4, 4, 4], quant := some (3 / 4, 0) })]

private theorem convChain_restorable :
    RestorableGroup convChain [0, 1, 2] (convChain.ops.take 3) where
  infix_ops := (List.take_prefix 3 convChain.ops).isInfix
  ids := rfl
  single := by
    have hlen : ∀ m ∈ convChain.ops.take 3, m.outputs.length = 1 := by decide
    exact fun m hm => length_eq_one_iff.mp (hlen m hm)
  linked := by decide
  unshared := by decide
  described := by decide
  scaled := by decide
  two := by decide
  used := by decide
  registrable := by
    intro m hm
    have hshape : ∀ m ∈ (convChain.ops.take 3).getLast?,
        fusedShape convChain.tensors m = [1, 4, 4, 4] := by decide
    rw [hshape m hm]
    refine .cons_cons ⟨_, fun _ => rfl, ?_⟩ (.cons_cons ⟨_, fun _ => rfl, ?_⟩ (.singleton _))
    · decide
    · decide

/-- The chain is restored, and so are the ops behind it. -/
theorem convChain_restored : ∃ fused out, applyHint convChain [[0, 1, 2]] false = .ok fused ∧
    applyUnfuseHint fused [0] none = .ok out ∧
      List.Forall₂ (RestoredAs convChain.ops) convChain.ops out.ops := by
  have hrestorable : ∀ group ∈ [[0, 1, 2]], ∃ members, RestorableGroup convChain group members := by
    intro group hgroup
    obtain rfl := mem_singleton.mp hgroup
    exact ⟨_, convChain_restorable⟩
  have hfused : applyHint convChain [[0, 1, 2]] false =
      .ok (fusedGraph convChain [[0, 1, 2]]) := rfl
  have htargets : ∀ d, d ∈ [0] ↔ ∃ op ∈ (fusedGraph convChain [[0, 1, 2]]).ops,
      op.dispatchId = some d ∧ ∃ group ∈ [[0, 1, 2]], op.fusedFrom = some group := by
    intro d
    constructor
    · intro hd
      obtain rfl := mem_singleton.mp hd
      decide
    · have hall : ∀ op ∈ (fusedGraph convChain [[0, 1, 2]]).ops, op.fusedFrom ≠ none →
          op.dispatchId = some 0 := by decide
      rintro ⟨op, hop, hid, group, -, hfrom⟩
      rw [hall op hop (by simp [hfrom])] at hid
      simp [Option.some.inj hid]
  obtain ⟨out, hout, hall⟩ := applyUnfuseHint_applyHint none (by decide)
    (by decide) rfl hfused hrestorable (nodup_singleton 0) htargets
  exact ⟨_, out, hfused, hout, hall⟩

/-- An addition and an activation. -/
def addSilu : Graph where
  name := "probe"
  ops := annotateGraphOps [
    { op := "add_s8", name := "add", inputs := ["x", "y"], outputs := ["s"]
      shape := PyDict.ofList [("n", 64)], quant := some { scaleOut := some (1 / 2) } },
    { op := "silu_s8", name := "act", inputs := ["s"], outputs := ["z"]
      shape := PyDict.ofList [("n", 64)]
      quant := some { scaleIn := some (1 / 2), scaleOut := some (3 / 4) } }]
  modelOutputs := ["z"]
  tensors := PyDict.ofList [("x", { shape := [1, 64] }), ("y", { shape := [1, 64] }),
    ("s", { shape := [1, 64], quant := some (1 / 2, 0) }),
    ("z", { shape := [1, 64], quant := some (3 / 4, 0) })]

private theorem addSilu_chain : ChainGroup addSilu [0, 1] addSilu.ops where
  infix_ops := infix_rfl
  ids := rfl
  single := by
    have hlen : ∀ m ∈ addSilu.ops, m.outputs.length = 1 := by decide
    exact fun m hm => length_eq_one_iff.mp (hlen m hm)
  linked := by decide
  unshared := by decide
  described := by decide
  scaled := by decide

/-- A chain with an addition is fused, and not restored: the rewriter has no rule for the shape of
what an addition returns. -/
theorem addSilu_refused : ¬∀ (g fused : Graph) (ops : List GraphOp)
    (fuseGroups groups : List (List ℤ)) (targets : List ℤ), g.ops = annotateGraphOps ops →
    ((g.ops.filter fun op => op.dispatchId.isSome).flatMap GraphOp.outputs).Nodup →
    acceptedGroups g.ops fuseGroups false = .ok groups →
    applyHint g fuseGroups false = .ok fused →
    (∀ group ∈ groups, ∃ members, ChainGroup g group members) → targets.Nodup →
    (∀ d, d ∈ targets ↔ ∃ op ∈ fused.ops, op.dispatchId = some d ∧
      ∃ group ∈ groups, op.fusedFrom = some group) →
    ∃ out, applyUnfuseHint fused targets none = .ok out ∧
      List.Forall₂ (RestoredAs g.ops) g.ops out.ops := by
  intro h
  have hfused : applyHint addSilu [[0, 1]] false = .ok (fusedGraph addSilu [[0, 1]]) := rfl
  have hchain : ∀ group ∈ [[0, 1]], ∃ members, ChainGroup addSilu group members := by
    intro group hgroup
    obtain rfl := mem_singleton.mp hgroup
    exact ⟨_, addSilu_chain⟩
  have htargets : ∀ d, d ∈ [0] ↔ ∃ op ∈ (fusedGraph addSilu [[0, 1]]).ops,
      op.dispatchId = some d ∧ ∃ group ∈ [[0, 1]], op.fusedFrom = some group := by
    intro d
    constructor
    · intro hd
      obtain rfl := mem_singleton.mp hd
      decide
    · have hall : ∀ op ∈ (fusedGraph addSilu [[0, 1]]).ops, op.dispatchId = some 0 := by
        decide
      rintro ⟨op, hop, hid, -⟩
      rw [hall op hop] at hid
      simp [Option.some.inj hid]
  obtain ⟨out, hout, -⟩ := h addSilu _ _ [[0, 1]] _ [0] rfl (by decide) rfl hfused hchain
    (nodup_singleton 0) htargets
  have hrefused : applyUnfuseHint (fusedGraph addSilu [[0, 1]]) [0] none =
      .error (.hint (.noShapeRule 0 "add_s8")) := rfl
  rw [hrefused] at hout
  cases hout

end ModelBlaster
