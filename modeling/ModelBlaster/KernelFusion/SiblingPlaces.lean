import ModelBlaster.Concurrency.Schedule
import ModelBlaster.KernelFusion.KindName
import ModelBlaster.KernelFusion.ChainSound

/-!
# Sibling ops

Ops of one kind that read one tensor, and that do not depend on one another, can be computed by one
kernel. `find_siblings` looks for such ops, and `fuse_siblings` puts one op with all of them as its
stages at the place of the last one. It refuses if an op in between reads what they write.

`_ancestors` is `Concurrency.ancestors`: the schedule of the calls finds the same masks.

## Main definitions

* `findSiblings`: `find_siblings`;
* `IndependentOps`: the test that `fuse_siblings` makes;
* `fuseSiblings`: `fuse_siblings`;
* `parSeedProgram`: the calls of the composite kernel.

## Main results

* `exists_findSiblings`: in a well-formed graph the search returns;
* `testable_of_findSiblings`: its groups pass the test;
* `replaceOps_eq`: what `replaceOps` returns;
* `perm_places`: the places in front, those of the ops, and the places behind;
* `pairwise_move`: when the ops may move.
-/

namespace ModelBlaster.KernelFusion

open Concurrency StraightLine

/-! ### Looking for siblings -/

/-- `SIBLING_KINDS` -/
def siblingKinds : List String :=
  ["gru_seq", "lstm_seq", "gru_seq_f16", "lstm_seq_f16", "linear", "linear_f16"]

section
variable (specs : Specs)

/-- `first`: the tensor that is bound to the first activation input. -/
def firstActivation (o : KernelOp) : Except KernelError (Option String) := do
  let acts ← actInputs specs o.op
  match bindOp specs o with
  | .ok args =>
    return (args.filter fun a => acts.head? = some a.param.name).findSome? (·.value.input?)
  -- These are caught.
  | .error .stopIteration => return none
  | .error .indexError => return none
  | .error .keyError => return none
  | .error e => .error e

/-- The key of an op, if it may have siblings. -/
def siblingKey (kinds : List String) (o : KernelOp) :
    Except KernelError (Option (String × String)) :=
  if o.op ∉ kinds ∨ o.subOps ≠ [] ∨ o.op ∉ specs.keys ∨ o.inputs = [] then .ok none
  else (firstActivation specs o).map fun first => first.map (Prod.mk o.op)

/-- `groups` after another op. -/
def groupStep (kinds : List String) (groups : PyDict (String × String) (List ℕ))
    (o : KernelOp × ℕ) : Except KernelError (PyDict (String × String) (List ℕ)) :=
  (siblingKey specs kinds o.1).map fun key =>
    match key with
    | none => groups
    | some k => groups.set k ((groups.get? k).getD [] ++ [o.2])

/-- An op of which none of some others is an ancestor, or the other way. -/
def Unrelated (anc : List ℕ) (cur : List ℕ) (i : ℕ) : Prop :=
  ∀ j ∈ cur, (anc.getD i 0).testBit j = false ∧ (anc.getD j 0).testBit i = false

instance (anc cur : List ℕ) (i : ℕ) : Decidable (Unrelated anc cur i) :=
  inferInstanceAs (Decidable (∀ j ∈ cur, _))

/-- The ops of a group that are taken: each that is unrelated to those before. -/
def takeUnrelated (anc : List ℕ) (maxGroup : ℕ) (cur : List ℕ) : List ℕ → List ℕ
  | [] => cur
  | i :: rest =>
    let cur := if Unrelated anc cur i then cur ++ [i] else cur
    if cur.length = maxGroup then cur else takeUnrelated anc maxGroup cur rest

/-- `find_siblings` -/
def findSiblings (kinds : List String) (maxGroup : ℕ) (g : KernelGraph) :
    Except KernelError (List (List String)) :=
  (g.ops.zipIdx.foldlM (groupStep specs kinds) PyDict.empty).map fun groups =>
    let out := (groups.items.map fun group =>
      takeUnrelated (ancestors g.ops) maxGroup [] group.2).filter fun cur => 2 ≤ cur.length
    (out.insertionSort (· ≤ ·)).map fun cur => cur.filterMap fun i => (g.ops[i]?).map KernelOp.name

/-! ### Fusing siblings -/

/-- No op is an ancestor of another. -/
def IndependentOps (anc idx : List ℕ) : Prop :=
  ∀ a ∈ idx, ∀ b ∈ idx, a ≠ b → (anc.getD b 0).testBit a = false

instance (anc idx : List ℕ) : Decidable (IndependentOps anc idx) :=
  inferInstanceAs (Decidable (∀ a ∈ idx, ∀ b ∈ idx, _))

/-- The ops at some places. -/
def opsAt (ops : List KernelOp) (idx : List ℕ) : List KernelOp := idx.filterMap (ops[·]?)

/-- The places strictly between the first and the last of some, without these. -/
def placesBetween (idx : List ℕ) : List ℕ :=
  (List.range (idx.getLastD 0)).filter fun j => idx.headD 0 < j ∧ j ∉ idx

/-- The fields that the stages are stripped of. -/
def strippedFields : List String := ["slot_variant", "hint", "depends_on", "dispatch_id"]

/-- An op as a stage. -/
def asStage (o : KernelOp) : KernelOp :=
  { o with fields := strippedFields.foldl (fun d k => d.pop k) o.fields }

/-- `fused` -/
def parOp (spec : FusedKernelSpec) (names : List String) (sel : List KernelOp) : KernelOp where
  name := "+".intercalate names
  op := spec.op
  inputs := PyList.orderedUnique (sel.flatMap KernelOp.inputs)
  outputs := sel.flatMap KernelOp.outputs
  subOps := sel.map asStage

/-- The last of some ops is replaced, and the others are deleted, from the back to the front. -/
def replaceOps (ops : List KernelOp) (idx : List ℕ) (f : KernelOp) : List KernelOp :=
  idx.dropLast.reverse.foldl List.eraseIdx (ops.set (idx.getLastD 0) f)

/-- `fuse_siblings`, for ops at ascending places. -/
def fuseAtPlaces (g : KernelGraph) (idx : List ℕ) (names : List String) :
    Except KernelError (KernelGraph × FusedKernelSpec) :=
  let sel := opsAt g.ops idx
  if ∃ o ∈ sel, o.subOps ≠ [] then .error .valueError
  else if ¬IndependentOps (ancestors g.ops) idx then .error .valueError
  else if ∃ o ∈ opsAt g.ops (placesBetween idx), ∃ t ∈ o.inputs,
      t ∈ sel.flatMap KernelOp.outputs then
    .error .valueError
  else
    (makeParSpec specs (sel.map KernelOp.op)).map fun spec =>
      (⟨replaceOps g.ops idx (parOp spec names sel), g.outputs⟩, spec)

/-- `fuse_siblings` -/
def fuseSiblings (g : KernelGraph) (names : List String) :
    Except KernelError (KernelGraph × FusedKernelSpec) := do
  let found ← names.mapM (indexOf g)
  if ¬found.Nodup ∨ found.length < 2 then .error .valueError
  else
    let order := (found.zip names).insertionSort fun p q => p.1 ≤ q.1
    fuseAtPlaces specs g (order.map Prod.fst) (order.map Prod.snd)

/-! ### Calls -/

/-- The signature of a spec. -/
def FusedKernelSpec.signature (spec : FusedKernelSpec) : KernelSpec where
  op := spec.op
  params := spec.params

/-- What the composite kernel of siblings passes for the parameters of a stage: its own parameters
of the stage. -/
def parSeedCall (stage : (String × List Param) × ℕ) :
    Except KernelError (String × List (Param × String)) := do
  let args ← stage.1.2.mapM fun p => do
    let letter ← stagePrefix stage.2
    return (p, letter ++ p.name)
  return (stage.1.1, args)

/-- The calls of `FusedKernelSpec.cuda_seed`, of a parallel spec. -/
def parSeedCalls (spec : FusedKernelSpec) :
    Except KernelError (List (String × List (Param × String))) := do
  let sigs ← spec.subOps.mapM (paramsOf specs)
  let _ ← sigs.mapM firstOut
  (spec.subOps.zip sigs).zipIdx.mapM parSeedCall

/-- The calls of the composite kernel, on the arguments of a fused op. They may run in any order, or
at the same time. -/
def parSeedProgram {V : Type} (K : Kernels V) (spec : FusedKernelSpec) (args : List Arg) :
    Except KernelError (List (Instr String V)) := do
  let calls ← parSeedCalls specs spec
  calls.mapM fun call => do
    let passed ← call.2.mapM fun e => do
      let x ← resolve spec.signature args e.2
      return (e.1, x)
    return callInstr K call.1 passed

end

/-! ## Groups of siblings -/

open List

section
variable {specs : Specs} {g : KernelGraph} {kinds : List String} {anc cur idx : List ℕ} {m : ℕ}

/-! ### Taking ops -/

theorem Unrelated.independentOps {i : ℕ} (h : IndependentOps anc cur) (hi : Unrelated anc cur i) :
    IndependentOps anc (cur ++ [i]) := by
  intro a ha b hb hne
  rw [mem_append, mem_singleton] at ha hb
  rcases ha with ha | rfl <;> rcases hb with hb | rfl
  · exact h a ha b hb hne
  · exact (hi a ha).1
  · exact (hi b hb).2
  · exact absurd rfl hne

/-- The ops that are taken are independent, and come from the group. -/
theorem takeUnrelated_spec (anc : List ℕ) (m : ℕ) {rest : List ℕ} (hcur : IndependentOps anc cur)
    (hsorted : (cur ++ rest).Pairwise (· < ·)) :
    IndependentOps anc (takeUnrelated anc m cur rest) ∧
      (takeUnrelated anc m cur rest).Sublist (cur ++ rest) := by
  induction rest generalizing cur with
  | nil =>
    rw [takeUnrelated, append_nil]
    exact ⟨hcur, List.Sublist.refl cur⟩
  | cons i rest ih =>
    rw [takeUnrelated]
    by_cases hi : Unrelated anc cur i
    · rw [if_pos hi]
      have hnext := hi.independentOps hcur
      rw [append_cons cur i rest] at hsorted ⊢
      split_ifs
      · exact ⟨hnext, sublist_append_left _ _⟩
      · exact ih hnext hsorted
    · rw [if_neg hi]
      have hsub : (cur ++ rest).Sublist (cur ++ i :: rest) :=
        (List.Sublist.refl cur).append (sublist_cons_self i rest)
      split_ifs
      · exact ⟨hcur, sublist_append_left _ _⟩
      · obtain ⟨hind, hmem⟩ := ih hcur (hsorted.sublist hsub)
        exact ⟨hind, hmem.trans hsub⟩

/-! ### Groups -/

/-- What a group has: ascending places of ops that are not made of others. -/
structure Group (g : KernelGraph) (n : ℕ) (idx : List ℕ) : Prop where
  sorted : idx.Pairwise (· < ·)
  below : ∀ i ∈ idx, i < n
  plain : ∀ i ∈ idx, ∃ o, g.ops[i]? = some o ∧ o.subOps = []

theorem Group.mono {n n' : ℕ} (h : Group g n idx) (hle : n ≤ n') : Group g n' idx :=
  ⟨h.sorted, fun i hi => Nat.lt_of_lt_of_le (h.below i hi) hle, h.plain⟩

theorem Group.append {n : ℕ} (h : Group g n idx) {o : KernelOp} (ho : g.ops[n]? = some o)
    (hplain : o.subOps = []) : Group g (n + 1) (idx ++ [n]) where
  sorted := pairwise_append.mpr ⟨h.sorted, pairwise_singleton _ _,
    fun i hi j hj => (mem_singleton.mp hj) ▸ h.below i hi⟩
  below := by
    intro i hi
    rcases mem_append.mp hi with hi | hi
    · exact Nat.lt_succ_of_lt (h.below i hi)
    · rw [mem_singleton.mp hi]
      exact Nat.lt_succ_self n
  plain := by
    intro i hi
    rcases mem_append.mp hi with hi | hi
    · exact h.plain i hi
    · rw [mem_singleton.mp hi]
      exact ⟨o, ho, hplain⟩

theorem plain_of_siblingKey {o : KernelOp} {k : String × String}
    (h : siblingKey specs kinds o = .ok (some k)) : o.subOps = [] := by
  rw [siblingKey] at h
  split_ifs at h with hskip
  · cases h
  · by_contra hne
    exact hskip (.inr (.inl hne))

theorem Group.step {o : KernelOp} {n : ℕ} (ho : g.ops[n]? = some o)
    {groups groups' : PyDict (String × String) (List ℕ)}
    (h : ∀ k idx, groups.get? k = some idx → Group g n idx)
    (hstep : groupStep specs kinds groups (o, n) = .ok groups') :
    ∀ k idx, groups'.get? k = some idx → Group g (n + 1) idx := by
  intro k idx hget
  rw [groupStep] at hstep
  cases hkey : siblingKey specs kinds o with
  | error e =>
    rw [hkey] at hstep
    cases hstep
  | ok key =>
    rw [hkey] at hstep
    cases key with
    | none =>
      cases hstep
      exact (h k idx hget).mono (Nat.le_succ n)
    | some k' =>
      cases hstep
      rw [PyDict.get?_set] at hget
      split_ifs at hget with heq
      · -- The group is continued, or begins.
        rw [← Option.some.inj hget]
        refine Group.append ?_ ho (plain_of_siblingKey hkey)
        cases hold : groups.get? k' with
        | none => exact ⟨List.Pairwise.nil, by simp, by simp⟩
        | some old => exact h k' old hold
      · exact (h k idx hget).mono (Nat.le_succ n)

/-- The groups have ascending places of ops that are not made of others. -/
theorem group_of_foldlM {groups : PyDict (String × String) (List ℕ)}
    (h : g.ops.zipIdx.foldlM (groupStep specs kinds) PyDict.empty = .ok groups) :
    ∀ k idx, groups.get? k = some idx → Group g g.ops.length idx := by
  have hrun := @Fallible.foldlM_induction _ _ _ (groupStep specs kinds)
    (fun done groups => ∀ rest, done ++ rest = g.ops.zipIdx →
      ∀ k idx, groups.get? k = some idx → Group g done.length idx) ?_ g.ops.zipIdx
        PyDict.empty groups (fun _ _ k idx hget => by cases hget) h [] (append_nil _)
  · rwa [length_zipIdx] at hrun
  · intro done p groups groups' hinv hstep rest hwhole
    rw [append_assoc, singleton_append] at hwhole
    have hget : g.ops.zipIdx[done.length]? = some p := by
      rw [← hwhole, getElem?_append_right (Nat.le_refl _), Nat.sub_self]
      rfl
    rw [getElem?_zipIdx] at hget
    obtain ⟨o, ho, rfl⟩ := Option.map_eq_some_iff.mp hget
    rw [Nat.zero_add] at hstep hwhole
    rw [length_append, length_singleton]
    exact Group.step ho (hinv _ hwhole) hstep

/-! ### The test -/

/-- Ops pass the test that `fuseSiblings` makes: they are several, are not made of others, and are
independent. -/
def Testable (g : KernelGraph) (names : List String) : Prop :=
  ∃ idx, names.mapM (indexOf g) = .ok idx ∧ idx.Nodup ∧ 2 ≤ idx.length ∧
    (∀ o ∈ opsAt g.ops idx, o.subOps = []) ∧ IndependentOps (ancestors g.ops) idx

/-- The groups that are found pass the test. -/
theorem testable_of_findSiblings (hnames : (g.ops.map KernelOp.name).Nodup)
    {groups : List (List String)} (h : findSiblings specs kinds m g = .ok groups)
    {names : List String} (hmem : names ∈ groups) : Testable g names := by
  rw [findSiblings] at h
  cases hfold : g.ops.zipIdx.foldlM (groupStep specs kinds) PyDict.empty with
  | error e =>
    rw [hfold] at h
    cases h
  | ok found =>
    rw [hfold] at h
    cases h
    obtain ⟨cur, hcur, rfl⟩ := mem_map.mp hmem
    rw [mem_insertionSort, mem_filter, mem_map] at hcur
    obtain ⟨⟨⟨k, idx⟩, hitem, rfl⟩, htwo⟩ := hcur
    have hgroup := group_of_foldlM hfold k idx (PyDict.mem_items_iff.mp hitem)
    obtain ⟨hind, hsub⟩ := takeUnrelated_spec (ancestors g.ops) m
      (show IndependentOps (ancestors g.ops) [] from nofun) hgroup.sorted
    refine ⟨_, ?_, ?_, of_decide_eq_true htwo, ?_, hind⟩
    · -- Every op is found by its name.
      have hfind := @Fallible.mapM_filterMap_eq_ok _ _ _ _
        (fun i => (g.ops[i]?).map KernelOp.name) (indexOf g) some
        (takeUnrelated (ancestors g.ops) m [] idx) ?_
      · rwa [filterMap_some] at hfind
      · intro i hi
        right
        obtain ⟨o, ho, -⟩ := hgroup.plain i (hsub.mem hi)
        obtain ⟨before, after, hops, rfl⟩ := PyList.exists_append_of_getElem? ho
        exact ⟨o.name, before.length, by rw [ho]; rfl, rfl, indexOf_eq hnames hops⟩
    · exact (hgroup.sorted.sublist hsub).imp fun hlt => hlt.ne
    · intro o ho
      obtain ⟨i, hi, hget⟩ := mem_filterMap.mp ho
      obtain ⟨o', ho', hplain⟩ := hgroup.plain i (hsub.mem hi)
      rwa [Option.some.inj (hget.symm.trans ho')]

/-! ### The search returns -/

theorem exists_siblingKey (hwf : WellFormed specs g) {o : KernelOp} (ho : o ∈ g.ops) :
    ∃ key, siblingKey specs kinds o = .ok key := by
  rw [siblingKey]
  split_ifs with hskip
  · exact ⟨none, rfl⟩
  · rw [not_or, not_or, not_or, not_not, not_not] at hskip
    obtain ⟨-, hplain, hspec, -⟩ := hskip
    rw [not_not] at hspec
    obtain ⟨spec, hspec⟩ := PyDict.mem_keys_iff.mp hspec
    have hparams : paramsOf specs o.op = .ok spec.params := by rw [paramsOf, hspec]
    have hleaf : o ∈ g.ops.flatMap leavesOf := mem_flatMap.mpr
      ⟨o, ho, by rw [leavesOf_of_subOps_nil hplain]; exact mem_singleton_self o⟩
    obtain ⟨args, hargs⟩ : ∃ args, bindOp specs o = .ok args := by
      refine (hwf.runs o hleaf).resolve_left fun hkind => ?_
      rw [hwf.aliases o.op hkind] at hparams
      cases hparams
    have hfirst : ∃ first, firstActivation specs o = .ok first := by
      rw [firstActivation, actInputs, hparams, hargs]
      exact ⟨_, rfl⟩
    obtain ⟨first, hfirst⟩ := hfirst
    rw [hfirst]
    exact ⟨_, rfl⟩

/-- In a well-formed graph the search returns. -/
theorem exists_findSiblings (hwf : WellFormed specs g) (kinds : List String) (m : ℕ) :
    ∃ groups, findSiblings specs kinds m g = .ok groups := by
  obtain ⟨found, hfold, -⟩ := @Fallible.exists_foldlM_eq_ok _ _ _ (groupStep specs kinds)
    (fun _ _ => True) g.ops.zipIdx (by
      rintro done ⟨o, i⟩ rest groups hsplit -
      have ho : o ∈ g.ops := by
        have hmem : (o, i) ∈ g.ops.zipIdx := by
          rw [← hsplit]
          exact mem_append_right _ mem_cons_self
        exact mem_of_getElem? (mem_zipIdx_iff_getElem?.mp hmem)
      obtain ⟨key, hkey⟩ := @exists_siblingKey _ _ kinds hwf o ho
      rw [groupStep, hkey]
      exact ⟨_, rfl, trivial⟩) PyDict.empty trivial
  rw [findSiblings, hfold]
  exact ⟨_, rfl⟩

end

/-! ## Places of ops -/

/-! ### Places -/

section
variable {ops : List KernelOp} {idx js : List ℕ} {o : KernelOp}

theorem mem_opsAt : o ∈ opsAt ops idx ↔ ∃ i ∈ idx, ops[i]? = some o := mem_filterMap

theorem opsAt_append (ops : List KernelOp) (idx js : List ℕ) :
    opsAt ops (idx ++ js) = opsAt ops idx ++ opsAt ops js :=
  filterMap_append

variable {l l' : List KernelOp} {n i : ℕ} {R : KernelOp → KernelOp → Prop}

theorem opsAt_append_left (h : ∀ i ∈ idx, i < l.length) :
    opsAt (l ++ l') idx = opsAt l idx :=
  filterMap_congr fun i hi => getElem?_append_left (h i hi)

theorem opsAt_range (ops : List KernelOp) : opsAt ops (List.range ops.length) = ops := by
  induction ops using reverseRecOn with
  | nil => rfl
  | append_singleton ops o ih =>
    rw [length_append, length_singleton, range_succ, opsAt_append,
      opsAt_append_left fun i hi => mem_range.mp hi, ih]
    simp [opsAt]

/-- Places behind some ops are places of the others. -/
theorem opsAt_map_add (l l' : List KernelOp) (idx : List ℕ) :
    opsAt (l ++ l') (idx.map (l.length + ·)) = opsAt l' idx := by
  rw [opsAt, filterMap_map]
  apply filterMap_congr
  intro i _
  show (l ++ l')[l.length + i]? = _
  rw [getElem?_append_right (Nat.le_add_right _ _), Nat.add_sub_cancel_left]

/-- The places that are left. -/
def keptPlaces (n : ℕ) (js : List ℕ) : List ℕ := (List.range n).filter (· ∉ js)

theorem mem_keptPlaces : i ∈ keptPlaces n js ↔ i < n ∧ i ∉ js := by
  rw [keptPlaces, mem_filter, mem_range, decide_eq_true_iff]

/-- What comes behind the deleted ops is kept. -/
theorem opsAt_keptPlaces_append (h : ∀ j ∈ js, j < l.length) :
    opsAt (l ++ l') (keptPlaces (l ++ l').length js) = opsAt l (keptPlaces l.length js) ++ l' := by
  have hback : ((List.range l'.length).map (l.length + ·)).filter (· ∉ js) =
      (List.range l'.length).map (l.length + ·) := by
    rw [filter_eq_self]
    intro i hi
    obtain ⟨k, -, rfl⟩ := mem_map.mp hi
    rw [decide_eq_true_iff]
    intro hmem
    have hlt := h _ hmem
    omega
  rw [keptPlaces, length_append, range_add, filter_append, hback, opsAt_append,
    opsAt_map_add, opsAt_range,
    opsAt_append_left fun i hi => mem_range.mp (mem_filter.mp hi).1]
  rfl

theorem keptPlaces_append_self (n : ℕ) (js : List ℕ) :
    keptPlaces n (js ++ [n]) = keptPlaces n js := by
  apply filter_congr
  intro i hi
  have hne : i ≠ n := Nat.ne_of_lt (mem_range.mp hi)
  simp [hne]

/-- Ops are deleted from the back to the front. -/
theorem foldl_eraseIdx (hsorted : js.Pairwise (· < ·)) (hlt : ∀ j ∈ js, j < ops.length) :
    js.reverse.foldl eraseIdx ops = opsAt ops (keptPlaces ops.length js) := by
  induction js using reverseRecOn generalizing ops with
  | nil =>
    rw [keptPlaces, filter_eq_self.mpr fun i _ => by simp, opsAt_range]
    rfl
  | append_singleton js j ih =>
    obtain ⟨hjs, -, hbelow⟩ := pairwise_append.mp hsorted
    have hj : j < ops.length := hlt j (mem_append_right _ (mem_singleton_self j))
    obtain ⟨o, ho⟩ : ∃ o, ops[j]? = some o := ⟨_, getElem?_eq_getElem hj⟩
    obtain ⟨l, l', rfl, rfl⟩ := PyList.exists_append_of_getElem? ho
    have hfront : ∀ j ∈ js, j < l.length := fun j hj => hbelow j hj _ (mem_singleton_self _)
    have herase : (l ++ o :: l').eraseIdx l.length = l ++ l' := by
      rw [eraseIdx_append_of_length_le (Nat.le_refl _), Nat.sub_self, eraseIdx_cons_zero]
    have hkept : keptPlaces (l ++ [o]).length (js ++ [l.length]) = keptPlaces l.length js := by
      have hgone : [l.length].filter (· ∉ js ++ [l.length]) = [] := by simp
      rw [keptPlaces, length_append, length_singleton, range_succ, filter_append, hgone, append_nil]
      exact keptPlaces_append_self l.length js
    have hlast : ∀ j ∈ js ++ [l.length], j < (l ++ [o]).length := by
      intro j hj
      rw [length_append, length_singleton]
      rcases mem_append.mp hj with hj | hj
      · exact Nat.lt_succ_of_lt (hfront j hj)
      · rw [mem_singleton.mp hj]
        exact Nat.lt_succ_self _
    rw [reverse_append, reverse_singleton, singleton_append, foldl_cons, herase,
      ih hjs fun j hj => by rw [length_append]; exact Nat.lt_add_right _ (hfront j hj),
      opsAt_keptPlaces_append hfront, append_cons l o l', opsAt_keptPlaces_append hlast, hkept,
      opsAt_append_left fun i hi => (mem_keptPlaces.mp hi).1]

/-! ### The new order -/

/-- The places in front of the last of some. -/
def frontPlaces (idx : List ℕ) : List ℕ := keptPlaces (idx.getLastD 0) idx

/-- The places behind the last of some. -/
def backPlaces (n : ℕ) (idx : List ℕ) : List ℕ :=
  (List.range n).filter (idx.getLastD 0 < ·)

theorem mem_frontPlaces : i ∈ frontPlaces idx ↔ i < idx.getLastD 0 ∧ i ∉ idx :=
  mem_keptPlaces

theorem mem_backPlaces : i ∈ backPlaces n idx ↔ i < n ∧ idx.getLastD 0 < i := by
  rw [backPlaces, mem_filter, mem_range, decide_eq_true_iff]

theorem getLastD_append_singleton (js : List ℕ) (j : ℕ) : (js ++ [j]).getLastD 0 = j := by
  rw [getLastD_eq_getLast?, getLast?_append_of_ne_nil _ (cons_ne_nil _ _)]
  rfl

/-- Ascending places end with the greatest. -/
theorem le_getLastD (hsorted : idx.Pairwise (· < ·)) (hi : i ∈ idx) :
    i ≤ idx.getLastD 0 := by
  induction idx using reverseRecOn with
  | nil => cases hi
  | append_singleton js j _ =>
    rw [getLastD_append_singleton]
    rcases mem_append.mp hi with hi | hi
    · exact Nat.le_of_lt ((pairwise_append.mp hsorted).2.2 i hi j (mem_singleton_self j))
    · rw [mem_singleton.mp hi]

theorem headD_le (hsorted : idx.Pairwise (· < ·)) (hi : i ∈ idx) : idx.headD 0 ≤ i := by
  cases idx with
  | nil => cases hi
  | cons j js =>
    rcases mem_cons.mp hi with rfl | hi
    · exact Nat.le_refl _
    · exact Nat.le_of_lt (rel_of_pairwise_cons hsorted hi)

theorem getLastD_mem (hne : idx ≠ []) : idx.getLastD 0 ∈ idx := by
  rw [getLastD_eq_getLast?, getLast?_eq_some_getLast hne]
  exact getLast_mem hne

/-- The last op is replaced, and the others are gone. -/
theorem replaceOps_eq (hsorted : idx.Pairwise (· < ·)) (hne : idx ≠ [])
    (hlt : ∀ i ∈ idx, i < ops.length) (f : KernelOp) :
    replaceOps ops idx f =
      opsAt ops (frontPlaces idx) ++ f :: opsAt ops (backPlaces ops.length idx) := by
  obtain ⟨js, j, rfl⟩ := (eq_nil_or_concat idx).resolve_left hne
  rw [concat_eq_append] at hsorted hlt ⊢
  obtain ⟨hjs, -, hbelow⟩ := pairwise_append.mp hsorted
  have hj : j < ops.length := hlt j (mem_append_right _ (mem_singleton_self j))
  obtain ⟨o, ho⟩ : ∃ o, ops[j]? = some o := ⟨_, getElem?_eq_getElem hj⟩
  obtain ⟨l, l', rfl, rfl⟩ := PyList.exists_append_of_getElem? ho
  have hfront : ∀ j ∈ js, j < l.length := fun j hj => hbelow j hj _ (mem_singleton_self _)
  have hset : (l ++ o :: l').set l.length f = l ++ f :: l' := by
    rw [set_append_right _ _ (Nat.le_refl _), Nat.sub_self, set_cons_zero]
  have hback : backPlaces (l ++ o :: l').length (js ++ [l.length]) =
      (List.range l'.length).map ((l ++ [o]).length + ·) := by
    rw [backPlaces, getLastD_append_singleton, append_cons l o l', length_append,
      range_add, filter_append, filter_eq_nil_iff.mpr, nil_append,
      filter_eq_self]
    · intro i hi
      obtain ⟨k, -, rfl⟩ := mem_map.mp hi
      rw [decide_eq_true_iff, length_append, length_singleton]
      omega
    · intro i hi
      rw [mem_range, length_append, length_singleton] at hi
      rw [decide_eq_true_iff]
      omega
  have hfrontEq : frontPlaces (js ++ [l.length]) = keptPlaces l.length js := by
    rw [frontPlaces, getLastD_append_singleton, keptPlaces_append_self]
  have hbelow' : ∀ j ∈ js, j < (l ++ f :: l').length := by
    intro j hj
    rw [length_append]
    exact Nat.lt_add_right _ (hfront j hj)
  rw [replaceOps, dropLast_concat, getLastD_append_singleton, hset, foldl_eraseIdx hjs hbelow',
    opsAt_keptPlaces_append hfront, hfrontEq,
    opsAt_append_left fun i hi => (mem_keptPlaces.mp hi).1, hback, append_cons l o l',
    opsAt_map_add, opsAt_range]

/-- The places in front, those of some ops, and the places behind are all places. -/
theorem perm_places (hsorted : idx.Pairwise (· < ·)) (hne : idx ≠ []) (hlt : ∀ i ∈ idx, i < n) :
    (frontPlaces idx ++ (idx ++ backPlaces n idx)).Perm (List.range n) := by
  have hlast := hlt _ (getLastD_mem hne)
  rw [perm_ext_iff_of_nodup]
  · intro i
    rw [mem_append, mem_append, mem_frontPlaces, mem_backPlaces, mem_range]
    constructor
    · rintro (⟨hi, -⟩ | hi | ⟨hi, -⟩)
      · omega
      · exact hlt i hi
      · exact hi
    · intro hi
      by_cases hmem : i ∈ idx
      · exact .inr (.inl hmem)
      · rcases Nat.lt_trichotomy i (idx.getLastD 0) with hlt | heq | hgt
        · exact .inl ⟨hlt, hmem⟩
        · exact absurd (heq ▸ getLastD_mem hne) hmem
        · exact .inr (.inr ⟨hi, hgt⟩)
  · refine nodup_append.mpr ⟨nodup_range.filter _, nodup_append.mpr
      ⟨hsorted.imp fun h => h.ne, nodup_range.filter _, ?_⟩, ?_⟩
    · rintro i hi j hj rfl
      have hle := le_getLastD hsorted hi
      have hgt := (mem_backPlaces.mp hj).2
      omega
    · rintro i hi j hj rfl
      obtain ⟨hfront, hnot⟩ := mem_frontPlaces.mp hi
      rcases mem_append.mp hj with hj | hj
      · exact hnot hj
      · have hgt := (mem_backPlaces.mp hj).2
        omega
  · exact nodup_range

/-- Ops at ascending places are in order if all ops are. -/
theorem pairwise_opsAt (h : ops.Pairwise R) {j : ℕ} (hlt : i < j) {o o' : KernelOp}
    (ho : ops[i]? = some o) (ho' : ops[j]? = some o') : R o o' := by
  obtain ⟨hi, rfl⟩ := List.getElem?_eq_some_iff.mp ho
  obtain ⟨hj, rfl⟩ := List.getElem?_eq_some_iff.mp ho'
  exact pairwise_iff_getElem.mp h i j hi hj hlt

/-- Some ops may move to the place of the last one, if those that they pass may come before them. -/
theorem pairwise_move (h : ops.Pairwise R) (hsorted : idx.Pairwise (· < ·))
    (hpass : ∀ i ∈ frontPlaces idx, ∀ j ∈ idx, j < i → ∀ o o', ops[i]? = some o →
      ops[j]? = some o' → R o o') :
    (opsAt ops (frontPlaces idx ++ (idx ++ backPlaces ops.length idx))).Pairwise R := by
  have hrange : ∀ p : ℕ → Bool, ∀ n, ((List.range n).filter p).Pairwise (· < ·) := fun p n =>
    pairwise_lt_range.filter p
  have hkeep : ∀ {js : List ℕ}, js.Pairwise (· < ·) → js.Pairwise fun i j =>
      ∀ o, ops[i]? = some o → ∀ o', ops[j]? = some o' → R o o' := fun hjs =>
    hjs.imp fun hlt o ho o' ho' => pairwise_opsAt h hlt ho ho'
  rw [opsAt, pairwise_filterMap, pairwise_append, pairwise_append]
  refine ⟨hkeep (hrange _ _), ⟨hkeep hsorted, hkeep (hrange _ _), ?_⟩, ?_⟩
  · intro i hi j hj o ho o' ho'
    have hle := le_getLastD hsorted hi
    have hgt := (mem_backPlaces.mp hj).2
    exact pairwise_opsAt h (Nat.lt_of_le_of_lt hle hgt) ho ho'
  · intro i hi j hj o ho o' ho'
    rcases mem_append.mp hj with hj | hj
    · rcases Nat.lt_trichotomy i j with hlt | rfl | hgt
      · exact pairwise_opsAt h hlt ho ho'
      · exact absurd hj (mem_frontPlaces.mp hi).2
      · exact hpass i hi j hj hgt o o' ho ho'
    · have hfront := (mem_frontPlaces.mp hi).1
      have hgt := (mem_backPlaces.mp hj).2
      exact pairwise_opsAt h (Nat.lt_trans hfront hgt) ho ho'

end

end ModelBlaster.KernelFusion
