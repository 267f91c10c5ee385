import ModelBlaster.Rewrite.GraphEdit

/-!
# What a patch reproduces

`apply_patch` replays the ops, the tensors and the derived weights that a patch adds and the ops
and tensors that it removes. Nothing else of the edited graph is in the patch: a tensor that was
declared anew keeps its old entry.

## Main definitions

* `Replayable`: an edit whose changes are all replayed.

## Main results

* `graphDigest_applyPatch_iff`: a patch reproduces the edited graph iff the edit is replayable.
-/

namespace ModelBlaster.GraphEdit

open List Fallible PyDict

variable {α β τ ι ο ν : Type}

/-! ### The loops of `apply_patch` -/

theorem addOps_spec {ops new r : List (EditOp α β)} (h : addOps ops new = .ok r)
    (hnd : (ops.map fun o => o.name).Nodup) :
    r = ops ++ new ∧ (r.map fun o => o.name).Nodup := by
  refine foldlM_induction (P := fun done ops' =>
    ops' = ops ++ done ∧ (ops'.map fun o => o.name).Nodup) ?_
    ⟨(append_nil ops).symm, hnd⟩ h
  intro done o ops' ops'' hinv hstep
  obtain ⟨rfl, hnodup⟩ := hinv
  split_ifs at hstep with hmem
  injection hstep with hstep
  subst hstep
  refine ⟨append_assoc _ _ _, ?_⟩
  rw [map_append, map_singleton]
  exact nodup_append.mpr ⟨hnodup, nodup_singleton _, fun n hn m hm heq =>
    hmem (mem_singleton.mp hm ▸ heq ▸ hn)⟩

/-- An added entry is read, and the others are as they were. -/
theorem get?_addEntries {μ : Type} [DecidableEq μ] {d new d' : PyDict String μ}
    (h : addEntries d new = .ok d') (k : String) : d'.get? k = (new.get? k).or (d.get? k) := by
  have hrun := foldlM_induction (P := fun done d' =>
    ∀ k, d'.get? k = ((PyDict.ofList done).get? k).or (d.get? k)) ?_
    (fun k => rfl) h
  · rw [← get?_ofList_items new]
    exact hrun k
  · intro done item d₁ d₂ hinv hstep
    have hset : d₂ = d₁.set item.1 item.2 := by
      split at hstep
      · split_ifs at hstep
        injection hstep with hstep
        exact hstep.symm
      · injection hstep with hstep
        exact hstep.symm
    intro k
    rw [hset, get?_set, get?_ofList_append_single, hinv k]
    split_ifs <;> rfl

theorem get?_removeTensors (ops : List (EditOp α β)) (d : PyDict String (TensorMeta τ))
    (names : List String) (t : String) :
    (removeTensors ops d names).get? t =
      if t ∈ names ∧ used ops t = false then none else d.get? t := by
  induction names generalizing d with
  | nil => simp [removeTensors]
  | cons n names ih =>
    show (removeTensors ops (if used ops n then d else d.pop n) names).get? t = _
    rw [ih]
    by_cases hused : used ops n = true
    · have hne : used ops t = false → t ≠ n := by
        rintro hfree rfl
        rw [hused] at hfree
        cases hfree
      simp only [hused, if_true, mem_cons]
      by_cases hfree : used ops t = false
      · simp [hne hfree]
      · simp [hfree]
    · rw [if_neg hused, get?_pop]
      by_cases ht : t = n
      · subst ht
        simp [Bool.eq_false_iff.mpr hused]
      · simp [ht]

/-! ### Ops -/

variable {o : EditOp α β}

theorem get?_opsByName {g : EditGraph α β τ ι ο ν} (hnd : (g.ops.map fun o => o.name).Nodup)
    {n : String} : (opsByName g).get? n = some o ↔ o ∈ g.ops ∧ o.name = n := by
  have hfst : (g.ops.map fun o => (o.name, o)).map Prod.fst = g.ops.map fun o => o.name := by
    rw [map_map]
    rfl
  rw [opsByName, get?_ofList_iff (hfst.symm ▸ hnd)]
  simp only [mem_map, Prod.mk.injEq, ← and_assoc]
  constructor
  · rintro ⟨o', ⟨ho', hname⟩, rfl⟩
    exact ⟨ho', hname⟩
  · exact fun h => ⟨o, h, rfl⟩

variable (opSha : OpContent α → String)

/-- An op of a graph is not different iff an op of the other has its name and its digest. -/
theorem differs_eq_false_iff {g g' : EditGraph α β τ ι ο ν}
    (hnd : (g.ops.map fun o => o.name).Nodup) (hnd' : (g'.ops.map fun o => o.name).Nodup)
    (ho : o ∈ g.ops) :
    differs opSha (opsByName g') (opsByName g) o.name = false ↔
      ∃ o' ∈ g'.ops, o'.name = o.name ∧ opDigest opSha o' = opDigest opSha o := by
  have hget := (get?_opsByName hnd).mpr ⟨ho, rfl⟩
  rw [differs, hget]
  cases hget' : (opsByName g').get? o.name with
  | none =>
    refine iff_of_false (by simp) ?_
    rintro ⟨o', ho', hname, -⟩
    rw [(get?_opsByName hnd').mpr ⟨ho', hname⟩] at hget'
    cases hget'
  | some o' =>
    obtain ⟨ho', hname⟩ := (get?_opsByName hnd').mp hget'
    simp only [ne_eq, decide_not, Bool.not_eq_false', decide_eq_true_eq]
    constructor
    · exact fun hdigest => ⟨o', ho', hname, hdigest⟩
    · rintro ⟨o'', ho'', hname', hdigest⟩
      rw [(get?_opsByName hnd').mpr ⟨ho'', hname'⟩] at hget'
      cases hget'
      exact hdigest

section
variable [DecidableEq τ] {base edited : EditGraph α β τ ι ο ν} {o : EditOp α β}

section
variable (hnames : (edited.ops.map fun o => o.name).Nodup)
include hnames

/-- The ops that a patch leaves are those with an op of the same digest under their name. -/
theorem notMem_removeOps_iff (ho : o ∈ (uniqueNames base).ops) :
    o.name ∉ (diff opSha base edited).removeOps ↔
      ∃ o' ∈ edited.ops, o'.name = o.name ∧ opDigest opSha o' = opDigest opSha o := by
  have hkey : o.name ∈ (opsByName (uniqueNames base)).keys :=
    mem_keys_of_get? ((get?_opsByName (nodup_uniqueNames base)).mpr ⟨ho, rfl⟩)
  show o.name ∉ (PyDict.filter _ _).keys ↔ _
  rw [keys_filter, mem_filter, uniqueNames_of_nodup hnames,
    ← differs_eq_false_iff opSha (nodup_uniqueNames base) hnames ho]
  simp [hkey]

/-- The ops that a patch adds are those without one. -/
theorem mem_addOps_iff :
    o ∈ (diff opSha base edited).addOps ↔
      ∃ o' ∈ edited.ops, o = { o' with volatile := none } ∧
        ¬∃ o'' ∈ (uniqueNames base).ops, o''.name = o'.name ∧
          opDigest opSha o'' = opDigest opSha o' := by
  have hitems : (opsByName edited).items = edited.ops.map fun o => (o.name, o) := by
    apply items_ofList
    rw [map_map]
    exact hnames
  show o ∈ ((PyDict.filter _ _).items.map Prod.snd).map _ ↔ _
  rw [uniqueNames_of_nodup hnames, map_map, mem_map, items_filter, hitems]
  constructor
  · rintro ⟨item, hitem, rfl⟩
    obtain ⟨hmem, hdiffers⟩ := mem_filter.mp hitem
    obtain ⟨o', ho', rfl⟩ := mem_map.mp hmem
    refine ⟨o', ho', rfl, fun hex => ?_⟩
    rw [← differs_eq_false_iff opSha hnames (nodup_uniqueNames base) ho'] at hex
    rw [hex] at hdiffers
    cases hdiffers
  · rintro ⟨o', ho', rfl, hno⟩
    refine ⟨(o'.name, o'), mem_filter.mpr ⟨mem_map_of_mem ho', ?_⟩, rfl⟩
    rw [← differs_eq_false_iff opSha hnames (nodup_uniqueNames base) ho'] at hno
    simpa using hno

/-- The names and digests of the ops left and added are those of the edited graph. -/
theorem map_opDigest_perm {ops : List (EditOp α β)}
    (h : addOps ((uniqueNames base).ops.filter fun o =>
      o.name ∉ (diff opSha base edited).removeOps) (diff opSha base edited).addOps = .ok ops) :
    (ops.map fun o => (o.name, opDigest opSha o)).Perm
      (edited.ops.map fun o => (o.name, opDigest opSha o)) := by
  obtain ⟨rfl, hnodup⟩ := addOps_spec h ((nodup_uniqueNames base).sublist (filter_sublist.map _))
  have hpairs : ∀ l : List (EditOp α β), (l.map fun o => o.name).Nodup →
      (l.map fun o => (o.name, opDigest opSha o)).Nodup := by
    intro l hl
    apply List.Nodup.of_map Prod.fst
    rw [map_map]
    exact hl
  refine (perm_ext_iff_of_nodup (hpairs _ hnodup) (hpairs _ hnames)).mpr fun p => ?_
  rw [map_append, mem_append, mem_map, mem_map, mem_map]
  constructor
  · rintro (⟨o, ho, rfl⟩ | ⟨o, ho, rfl⟩)
    · obtain ⟨hmem, hkept⟩ := mem_filter.mp ho
      obtain ⟨o', ho', hname, hdigest⟩ :=
        (notMem_removeOps_iff opSha hnames hmem).mp (of_decide_eq_true hkept)
      exact ⟨o', ho', by rw [hname, hdigest]⟩
    · obtain ⟨o', ho', rfl, -⟩ := (mem_addOps_iff opSha hnames).mp ho
      exact ⟨o', ho', rfl⟩
  · rintro ⟨o', ho', rfl⟩
    by_cases hsame : ∃ o ∈ (uniqueNames base).ops, o.name = o'.name ∧
        opDigest opSha o = opDigest opSha o'
    · obtain ⟨o, ho, hname, hdigest⟩ := hsame
      refine .inl ⟨o, mem_filter.mpr ⟨ho, decide_eq_true ?_⟩, by rw [hname, hdigest]⟩
      exact (notMem_removeOps_iff opSha hnames ho).mpr ⟨o', ho', hname.symm, hdigest.symm⟩
    · exact .inr ⟨_, (mem_addOps_iff opSha hnames).mpr ⟨o', ho', rfl, hsame⟩, rfl⟩

end

end

/-! ### The result -/

/-- What `apply_patch` returns, field by field, when `ops` are the ops left and added. -/
structure Applied (g : EditGraph α β τ ι ο ν) (patch : Patch α β τ ν) (ops : List (EditOp α β))
    (r : EditGraph α β τ ι ο ν) : Prop where
  perm : r.ops.Perm ops
  tensors : ∀ t, r.tensors.get? t =
    if t ∈ patch.removeTensors ∧ used ops t = false then none
    else (patch.addTensors.get? t).or (g.tensors.get? t)
  input : r.input = g.input
  output : r.output = g.output
  derivations : ∀ k, r.derived.get? k = (patch.weightDerivations.get? k).or (g.derived.get? k)

variable [DecidableEq τ] [DecidableEq ν]

theorem applyPatch_spec {graph r : EditGraph α β τ ι ο ν} {patch : Patch α β τ ν}
    (h : applyPatch opSha graph patch = .ok r) :
    ∃ ops, addOps ((uniqueNames graph).ops.filter fun o => o.name ∉ patch.removeOps)
      patch.addOps = .ok ops ∧ Applied graph patch ops r := by
  rw [applyPatch, ite_error_eq_ok_iff] at h
  obtain ⟨-, h⟩ := h
  obtain ⟨-, -, h⟩ := bind_eq_ok_iff.mp h
  obtain ⟨ops, hops, h⟩ := bind_eq_ok_iff.mp h
  obtain ⟨tensors, htensors, h⟩ := bind_eq_ok_iff.mp h
  refine ⟨ops, hops, ?_⟩
  have hget : ∀ t, (removeTensors ops tensors patch.removeTensors).get? t =
      if t ∈ patch.removeTensors ∧ used ops t = false then none
      else (patch.addTensors.get? t).or (graph.tensors.get? t) := by
    intro t
    rw [get?_removeTensors, get?_addEntries htensors]
    rfl
  by_cases hempty : patch.weightDerivations.items.isEmpty = true
  · rw [if_pos hempty] at h
    obtain ⟨hperm, hr⟩ := toposort_spec h
    have hnone : ∀ k, patch.weightDerivations.get? k = none := by
      intro k
      rw [PyDict.get?, List.isEmpty_iff.mp hempty]
      rfl
    rw [hr]
    exact ⟨hperm, hget, rfl, rfl, fun k => by rw [hnone]; rfl⟩
  · rw [if_neg hempty] at h
    obtain ⟨derivations, hderivations, h⟩ := bind_eq_ok_iff.mp h
    obtain ⟨hperm, hr⟩ := toposort_spec h
    rw [hr]
    exact ⟨hperm, hget, rfl, rfl, get?_addEntries hderivations⟩

/-! ### Replayable edits -/

/-- Every change of the edit is one that a patch replays. -/
structure Replayable (base edited : EditGraph α β τ ι ο ν) : Prop where
  /-- No tensor is declared anew. -/
  tensors : ∀ t ∈ base.tensors.keys, t ∈ edited.tensors.keys →
    edited.tensors.get? t = base.tensors.get? t
  /-- No op names a tensor that is gone. -/
  removed : ∀ t ∈ base.tensors.keys, t ∉ edited.tensors.keys → used edited.ops t = false
  input : edited.input = base.input
  output : edited.output = base.output
  /-- The derived weights of the base are there as they were. -/
  derivations : ∀ k ∈ base.derived.keys, edited.derived.get? k = base.derived.get? k

section
variable {base edited r : EditGraph α β τ ι ο ν} {ops : List (EditOp α β)}

omit [DecidableEq ν] in
/-- The ops left and added name the tensors that the edited ops name. -/
theorem used_congr (hnames : (edited.ops.map fun o => o.name).Nodup)
    (hops : ∀ o ∈ (uniqueNames base).ops, ∀ o' ∈ edited.ops,
      opSha o.toOpContent = opSha o'.toOpContent → o.toOpContent = o'.toOpContent)
    (h : addOps ((uniqueNames base).ops.filter fun o =>
      o.name ∉ (diff opSha base edited).removeOps) (diff opSha base edited).addOps = .ok ops)
    (t : String) : used ops t = used edited.ops t := by
  obtain ⟨rfl, -⟩ := addOps_spec h ((nodup_uniqueNames base).sublist (filter_sublist.map _))
  rw [Bool.eq_iff_iff, used, used, any_eq_true, any_eq_true]
  constructor
  · rintro ⟨o, ho, hnamed⟩
    rcases mem_append.mp ho with ho | ho
    · obtain ⟨hmem, hkept⟩ := mem_filter.mp ho
      obtain ⟨o', ho', -, hdigest⟩ :=
        (notMem_removeOps_iff opSha hnames hmem).mp (of_decide_eq_true hkept)
      refine ⟨o', ho', ?_⟩
      rwa [EditOp.reads, EditOp.writes, ← hops o hmem o' ho' hdigest.symm]
    · obtain ⟨o', ho', rfl, -⟩ := (mem_addOps_iff opSha hnames).mp ho
      exact ⟨o', ho', hnamed⟩
  · rintro ⟨o', ho', hnamed⟩
    by_cases hsame : ∃ o ∈ (uniqueNames base).ops, o.name = o'.name ∧
        opDigest opSha o = opDigest opSha o'
    · obtain ⟨o, ho, hname, hdigest⟩ := hsame
      have hkept := (notMem_removeOps_iff opSha hnames ho).mpr ⟨o', ho', hname.symm, hdigest.symm⟩
      refine ⟨o, mem_append_left _ (mem_filter.mpr ⟨ho, decide_eq_true hkept⟩), ?_⟩
      rwa [EditOp.reads, EditOp.writes, hops o ho o' ho' hdigest]
    · exact ⟨_, mem_append_right _ ((mem_addOps_iff opSha hnames).mpr
        ⟨o', ho', rfl, hsame⟩), hnamed⟩

section
variable (h : Applied base (diff opSha base edited) ops r)
include h

omit [DecidableEq ν] in
/-- The tensors come out as edited iff none was declared anew and none that is gone is named. -/
theorem Applied.tensors_iff (hused : ∀ t, used ops t = used edited.ops t) :
    r.tensors.get? = edited.tensors.get? ↔
      (∀ t ∈ base.tensors.keys, t ∈ edited.tensors.keys →
        edited.tensors.get? t = base.tensors.get? t) ∧
      ∀ t ∈ base.tensors.keys, t ∉ edited.tensors.keys → used edited.ops t = false := by
  have hremove : ∀ t, t ∈ (diff opSha base edited).removeTensors ↔
      t ∈ base.tensors.keys ∧ t ∉ edited.tensors.keys := by
    intro t
    show t ∈ base.tensors.keys.filter (fun t => t ∉ edited.tensors.keys) ↔ _
    simp
  have hadd : ∀ t, (diff opSha base edited).addTensors.get? t =
      if t ∉ base.tensors.keys then edited.tensors.get? t else none := by
    intro t
    show (edited.tensors.filter fun t => t ∉ base.tensors.keys).get? t = _
    rw [get?_filter]
    simp
  have hget : ∀ t, r.tensors.get? t = edited.tensors.get? t ↔
      (t ∈ base.tensors.keys → t ∈ edited.tensors.keys →
        edited.tensors.get? t = base.tensors.get? t) ∧
      (t ∈ base.tensors.keys → t ∉ edited.tensors.keys → used edited.ops t = false) := by
    intro t
    rw [h.tensors, hadd, hused]
    simp only [hremove]
    by_cases hbase : t ∈ base.tensors.keys
    · by_cases hedited : t ∈ edited.tensors.keys
      · rw [eq_comm]
        simp [hbase, hedited]
      · -- A tensor that is gone and named is still there.
        obtain ⟨m, hm⟩ := mem_keys_iff.mp hbase
        have hnone := get?_eq_none_iff.mpr hedited
        simp [hbase, hedited, hm, hnone]
    · have hnone := get?_eq_none_iff.mpr hbase
      simp [hbase, hnone]
  rw [funext_iff]
  simp only [hget, forall_and]

omit [DecidableEq ν] in
/-- The derived weights come out as edited iff those of the base are kept. -/
theorem Applied.derivations_iff :
    r.derived.get? = edited.derived.get? ↔
      ∀ k ∈ base.derived.keys, edited.derived.get? k = base.derived.get? k := by
  have hadd : ∀ k, (diff opSha base edited).weightDerivations.get? k =
      if k ∉ base.derived.keys then edited.derived.get? k else none := by
    intro k
    show (edited.derived.filter fun k => k ∉ base.derived.keys).get? k = _
    rw [get?_filter]
    simp
  rw [funext_iff]
  refine forall_congr' fun k => ?_
  rw [h.derivations, hadd]
  by_cases hbase : k ∈ base.derived.keys
  · rw [eq_comm]
    simp [hbase]
  · have hnone := get?_eq_none_iff.mpr hbase
    simp [hbase, hnone]

end

theorem pairwise_sortedPairs (l : List (String × String)) :
    (sortedPairs l).Pairwise fun a b => toLex a ≤ toLex b :=
  haveI : Std.Total fun a b : String × String => toLex a ≤ toLex b := ⟨fun _ _ => le_total _ _⟩
  haveI : IsTrans (String × String) fun a b => toLex a ≤ toLex b := ⟨fun _ _ _ => le_trans⟩
  pairwise_insertionSort _ l

theorem sortedPairs_perm {l l' : List (String × String)} (h : l.Perm l') :
    sortedPairs l = sortedPairs l' := by
  have hantisymm : ∀ a b : String × String, toLex a ≤ toLex b → toLex b ≤ toLex a → a = b :=
    fun _ _ hab hba => toLex.injective (le_antisymm hab hba)
  have hperm : (sortedPairs l).Perm (sortedPairs l') :=
    ((perm_insertionSort _ l).trans h).trans (perm_insertionSort _ l').symm
  exact hperm.eq_of_pairwise (fun a b _ _ => hantisymm a b)
    (pairwise_sortedPairs l) (pairwise_sortedPairs l')

/-- A patch reproduces the edited graph iff it replays every change. -/
theorem graphDigest_applyPatch_iff (graphSha : GraphContent τ ι ο ν → String)
    (hnames : (edited.ops.map fun o => o.name).Nodup)
    (hops : ∀ o ∈ (uniqueNames base).ops, ∀ o' ∈ edited.ops,
      opSha o.toOpContent = opSha o'.toOpContent → o.toOpContent = o'.toOpContent)
    (hgraph : graphSha (graphContent opSha r) = graphSha (graphContent opSha edited) →
      graphContent opSha r = graphContent opSha edited)
    (h : applyPatch opSha base (diff opSha base edited) = .ok r) :
    graphDigest opSha graphSha r = graphDigest opSha graphSha edited ↔ Replayable base edited := by
  obtain ⟨ops, haddOps, happlied⟩ := applyPatch_spec opSha h
  have hpairs : sortedPairs (r.ops.map fun o => (o.name, opDigest opSha o)) =
      sortedPairs (edited.ops.map fun o => (o.name, opDigest opSha o)) :=
    sortedPairs_perm ((happlied.perm.map _).trans (map_opDigest_perm opSha hnames haddOps))
  have hcontent : graphContent opSha r = graphContent opSha edited ↔ Replayable base edited := by
    simp only [graphContent, GraphContent.mk.injEq, hpairs, true_and, happlied.input,
      happlied.output, happlied.tensors_iff opSha (used_congr opSha hnames hops haddOps),
      happlied.derivations_iff opSha]
    constructor
    · rintro ⟨⟨htensors, hremoved⟩, hinput, houtput, hderivations⟩
      exact ⟨htensors, hremoved, hinput.symm, houtput.symm, hderivations⟩
    · rintro ⟨htensors, hremoved, hinput, houtput, hderivations⟩
      exact ⟨⟨htensors, hremoved⟩, hinput.symm, houtput.symm, hderivations⟩
  rw [← hcontent]
  exact ⟨hgraph, congrArg graphSha⟩

end

/-! ### Examples -/

/-- `conv` reads the input and writes `y`, whose entry is given. -/
def convGraph (rest dtype : String) : EditGraph String Unit String Unit Unit String where
  ops := [⟨⟨"conv", some ["x", "w"], some ["y"], none, rest⟩, none⟩]
  tensors := .ofList [("x", ⟨false, "f32"⟩), ("w", ⟨true, "f32"⟩), ("y", ⟨false, dtype⟩)]
  input := ⟨["x"], ()⟩
  output := ()
  derivations := none
  weightDtypes := none

/-- `conv` reads a folded weight instead, and a new op reads what it writes. -/
def foldedGraph : EditGraph String Unit String Unit Unit String where
  ops := [⟨⟨"conv", some ["x", "w_bn"], some ["y"], none, "s1"⟩, none⟩,
    ⟨⟨"relu", some ["y"], some ["z"], none, ""⟩, none⟩]
  tensors := .ofList [("x", ⟨false, "f32"⟩), ("w", ⟨true, "f32"⟩), ("y", ⟨false, "f32"⟩),
    ("w_bn", ⟨true, "f32"⟩), ("z", ⟨false, "f32"⟩)]
  input := ⟨["x"], ()⟩
  output := ()
  derivations := some (.ofList [("w_bn", "mul(w, g)")])
  weightDtypes := some (.ofList [("w_bn", "f32")])

/-- The names of the tensors that an op reads, and its other fields. -/
def plainSha (c : OpContent String) : String := String.join (c.name :: c.rest :: c.inputs.getD [])

/-- The ops with their digests, and the entry of `y`. -/
def plainGraphSha (c : GraphContent String Unit Unit String) : String :=
  String.join (c.ops.map fun p => p.1 ++ p.2) ++ ((c.tensors "y").elim "" TensorMeta.rest)

theorem applyPatch_foldedGraph :
    applyPatch plainSha (convGraph "s1" "f32") (diff plainSha (convGraph "s1" "f32") foldedGraph) =
      .ok foldedGraph ∧
    Replayable (convGraph "s1" "f32") foldedGraph :=
  have h : applyPatch plainSha (convGraph "s1" "f32")
      (diff plainSha (convGraph "s1" "f32") foldedGraph) = .ok foldedGraph := by decide
  ⟨h, (graphDigest_applyPatch_iff plainSha plainGraphSha (by decide) (by decide)
    (fun _ => rfl) h).mp rfl⟩

/-- The entry of `y` is declared anew: the patch is empty, and its result is the base. -/
theorem applyPatch_redeclared :
    ¬∀ base edited r : EditGraph String Unit String Unit Unit String,
      (edited.ops.map fun o => o.name).Nodup →
      applyPatch plainSha base (diff plainSha base edited) = .ok r →
      graphDigest plainSha plainGraphSha r = graphDigest plainSha plainGraphSha edited := by
  intro h
  have heq := h (convGraph "s1" "f32") (convGraph "s1" "f16") (convGraph "s1" "f32")
    (by decide) (by decide)
  revert heq
  decide

end ModelBlaster.GraphEdit
