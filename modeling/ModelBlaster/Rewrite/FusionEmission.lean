import ModelBlaster.Rewrite.Fusion

/-!
# What fusion returns

The two passes of the rewriter in closed form. Every dispatch has a slot: that of the member with
the smallest id of its group, or its own. The new id of a dispatch is the number of its slot.

## Main definitions

* `slotHead`, `slotHeads`: the slot of a dispatch, and all slots in order;
* `newId`: the new id of a dispatch;
* `fusedGraph`: the graph that is returned.

## Main results

* `fuse_eq_ok_iff`: when the passes go through, and what they return.
-/

namespace ModelBlaster

open List Fallible

/-! ### Slots -/

/-- The dispatch at whose place in the list a dispatch is emitted. -/
def slotHead (groups : List (List ℤ)) (did : ℤ) : ℤ :=
  match (groupForId groups).get? did with
  | some group => group.min?.getD did
  | none => did

/-- The dispatches at whose place an op is emitted. -/
def slotHeads (groups : List (List ℤ)) (ops : List GraphOp) : List ℤ :=
  (dispatchIds ops).filter fun did => slotHead groups did = did

/-- The new id of a dispatch. -/
def newId (groups : List (List ℤ)) (ops : List GraphOp) (did : ℤ) : ℕ :=
  (slotHeads groups ops).idxOf (slotHead groups did)

section Slots

variable {byId : PyDict ℤ GraphOp} {groups : List (List ℤ)} (hgroups : AcceptedGroups byId groups)

include hgroups

variable {did : ℤ} {group : List ℤ}

/-- The group of a dispatch. -/
theorem groupForId_eq_some_iff :
    (groupForId groups).get? did = some group ↔ group ∈ groups ∧ did ∈ group := by
  have hnodup : ((groups.flatMap fun group => group.map (·, group)).map Prod.fst).Nodup := by
    have hkeys : ((groups.flatMap fun group => group.map (·, group)).map Prod.fst) =
        groups.flatMap id := by
      rw [map_flatMap]
      congr 1
      funext group
      rw [map_map]
      exact map_id'' (fun _ => rfl) group
    rw [hkeys, nodup_flatMap]
    exact ⟨fun group hgroup => (hgroups.valid group hgroup).nodup, hgroups.disjoint⟩
  rw [groupForId, PyDict.get?_ofList_iff hnodup, mem_flatMap]
  constructor
  · rintro ⟨group', hmem, hpair⟩
    obtain ⟨did', hdid, heq⟩ := mem_map.mp hpair
    cases heq
    exact ⟨hmem, hdid⟩
  · rintro ⟨hmem, hdid⟩
    exact ⟨group, hmem, mem_map.mpr ⟨did, hdid, rfl⟩⟩

/-- A dispatch in no group. -/
theorem groupForId_eq_none_iff :
    (groupForId groups).get? did = none ↔ ∀ group ∈ groups, did ∉ group := by
  rw [Option.eq_none_iff_forall_ne_some]
  simp only [ne_eq, groupForId_eq_some_iff hgroups, not_and]

/-- The slot of a member is that of the smallest member. -/
theorem min?_eq_slotHead (hgroup : group ∈ groups) (hdid : did ∈ group) :
    group.min? = some (slotHead groups did) := by
  rw [slotHead, (groupForId_eq_some_iff hgroups).mpr ⟨hgroup, hdid⟩]
  simp only
  cases hmin : group.min? with
  | none =>
    rw [min?_eq_none_iff] at hmin
    exact absurd hmin (hgroups.valid group hgroup).nonempty
  | some m => rfl

theorem slotHead_mem (hgroup : group ∈ groups) (hdid : did ∈ group) :
    slotHead groups did ∈ group :=
  min?_mem (min?_eq_slotHead hgroups hgroup hdid)

/-- A dispatch in no group has its own slot. -/
theorem slotHead_of_notMem (h : ∀ group ∈ groups, did ∉ group) :
    slotHead groups did = did := by
  rw [slotHead, (groupForId_eq_none_iff hgroups).mpr h]

/-- Two dispatches share a slot iff they are the same or in one group. -/
theorem slotHead_eq_iff {d e : ℤ} :
    slotHead groups d = slotHead groups e ↔ d = e ∨ ∃ group ∈ groups, d ∈ group ∧ e ∈ group := by
  by_cases hd : ∃ group ∈ groups, d ∈ group
  · obtain ⟨group, hgroup, hd⟩ := hd
    have hmem := slotHead_mem hgroups hgroup hd
    constructor
    · intro heq
      right
      by_cases he : ∃ group' ∈ groups, e ∈ group'
      · obtain ⟨group', hgroup', he⟩ := he
        have hmem' := slotHead_mem hgroups hgroup' he
        rw [← heq] at hmem'
        obtain rfl := hgroups.eq_of_mem hgroup hgroup' hmem hmem'
        exact ⟨group, hgroup, hd, he⟩
      · push Not at he
        rw [slotHead_of_notMem hgroups he] at heq
        exact absurd (heq ▸ hmem) (he group hgroup)
    · rintro (rfl | ⟨group', hgroup', hd', he⟩)
      · rfl
      · have hmin := min?_eq_slotHead hgroups hgroup' hd'
        rw [min?_eq_slotHead hgroups hgroup' he] at hmin
        exact (Option.some.inj hmin).symm
  · push Not at hd
    rw [slotHead_of_notMem hgroups hd]
    constructor
    · intro heq
      left
      by_contra hne
      -- Otherwise `d` is the smallest member of a group.
      have he : ∃ group ∈ groups, e ∈ group := by
        by_contra hnone
        push Not at hnone
        exact hne (heq.trans (slotHead_of_notMem hgroups hnone))
      obtain ⟨group, hgroup, he⟩ := he
      exact hd group hgroup (heq ▸ slotHead_mem hgroups hgroup he)
    · rintro (rfl | ⟨group, hgroup, hmem, -⟩)
      · exact (slotHead_of_notMem hgroups hd).symm
      · exact absurd hmem (hd group hgroup)

/-- The slot of a slot is itself. -/
theorem slotHead_slotHead (d : ℤ) : slotHead groups (slotHead groups d) = slotHead groups d := by
  rw [slotHead_eq_iff hgroups]
  by_cases hd : ∃ group ∈ groups, d ∈ group
  · obtain ⟨group, hgroup, hd⟩ := hd
    exact Or.inr ⟨group, hgroup, slotHead_mem hgroups hgroup hd, hd⟩
  · push Not at hd
    exact Or.inl (slotHead_of_notMem hgroups hd)

end Slots

section NewIds

variable {ops : List GraphOp} {groups : List (List ℤ)}
  (hgroups : AcceptedGroups (opsById ops) groups) {d : ℤ}

theorem mem_slotHeads :
    d ∈ slotHeads groups ops ↔ d ∈ dispatchIds ops ∧ slotHead groups d = d := by
  simp [slotHeads]

include hgroups

/-- The members of a group are dispatches. -/
theorem AcceptedGroups.mem_dispatchIds {group : List ℤ} (hgroup : group ∈ groups) {did : ℤ}
    (hdid : did ∈ group) : did ∈ dispatchIds ops :=
  mem_keys_opsById.mp ((hgroups.valid group hgroup).known did hdid)

/-- A dispatch of the graph has its slot in the graph, and no other has. -/
theorem slotHead_mem_slotHeads_iff :
    slotHead groups d ∈ slotHeads groups ops ↔ d ∈ dispatchIds ops := by
  rw [mem_slotHeads]
  by_cases hd : ∃ group ∈ groups, d ∈ group
  · obtain ⟨group, hgroup, hd⟩ := hd
    refine iff_of_true ⟨?_, slotHead_slotHead hgroups d⟩ (hgroups.mem_dispatchIds hgroup hd)
    exact hgroups.mem_dispatchIds hgroup (slotHead_mem hgroups hgroup hd)
  · push Not at hd
    have hself := slotHead_of_notMem hgroups hd
    rw [hself]
    exact ⟨And.left, fun h => ⟨h, hself⟩⟩

/-- Dispatches of the graph get one new id iff they are the same or in one group. -/
theorem newId_eq_iff {e : ℤ} (hd : d ∈ dispatchIds ops) :
    newId groups ops d = newId groups ops e ↔ d = e ∨ ∃ group ∈ groups, d ∈ group ∧ e ∈ group := by
  rw [← slotHead_eq_iff hgroups, newId, newId,
    idxOf_inj ((slotHead_mem_slotHeads_iff hgroups).mpr hd)]

/-- New ids are numbers of slots. -/
theorem newId_lt (hd : d ∈ dispatchIds ops) :
    newId groups ops d < (slotHeads groups ops).length :=
  idxOf_lt_length_of_mem ((slotHead_mem_slotHeads_iff hgroups).mpr hd)

end NewIds

/-! ### The first pass -/

/-- What is emitted for an op, before its dependencies are translated. -/
def emittedOp (g : Graph) (groups : List (List ℤ)) (op : GraphOp) : Option GraphOp :=
  match op.dispatchId with
  | none => some op
  | some did =>
    if slotHead groups did = did then
      match (groupForId groups).get? did with
      | none => some { op with dispatchId := some (newId groups g.ops did : ℤ) }
      | some group =>
        some { buildFusedOp (membersOf (opsById g.ops) group) group g.name g.ops g.modelOutputs with
          dispatchId := some (newId groups g.ops did : ℤ) }
    else none

/-- The tables after the ops `done`. -/
private structure Emitted (g : Graph) (groups : List (List ℤ)) (done : List GraphOp)
    (st : Emission) : Prop where
  nextNewId : st.nextNewId = (slotHeads groups done).length
  newOps : st.newOps = done.filterMap (emittedOp g groups)
  idRemap : ∀ d, st.idRemap.get? d =
    if slotHead groups d ∈ slotHeads groups done then some (newId groups g.ops d : ℤ) else none
  deps : ∀ n deps, st.fusedOpExternalDeps.get? n = some deps ↔
    ∃ group ∈ groups, ∃ did ∈ slotHeads groups done, did ∈ group ∧
      n = (newId groups g.ops did : ℤ) ∧ deps = externalDeps (membersOf (opsById g.ops) group) group

/-- Writing one value under all keys of a list. -/
private theorem get?_foldl_set (l : List ℤ) (d : PyDict ℤ ℤ) (v k : ℤ) :
    (l.foldl (fun d key => d.set key v) d).get? k = if k ∈ l then some v else d.get? k := by
  induction l generalizing d with
  | nil => simp
  | cons x rest ih =>
    rw [foldl_cons, ih, PyDict.get?_set]
    by_cases hrest : k ∈ rest
    · simp [hrest]
    · by_cases hx : k = x <;> simp [hx, hrest]

section FirstPass

variable {g : Graph} {groups : List (List ℤ)} (hnd : (dispatchIds g.ops).Nodup)
  (hgroups : AcceptedGroups (opsById g.ops) groups)

/-- The slots of more ops. -/
private theorem slotHeads_append (l l' : List GraphOp) :
    slotHeads groups (l ++ l') = slotHeads groups l ++ slotHeads groups l' := by
  rw [slotHeads, dispatchIds, filterMap_append, filter_append]
  rfl

variable {op : GraphOp} {did : ℤ} {rest done : List GraphOp} {st : Emission} {group : List ℤ}

private theorem slotHeads_single (hop : op.dispatchId = some did) :
    slotHeads groups [op] = if slotHead groups did = did then [did] else [] := by
  simp only [slotHeads, dispatchIds, filterMap_cons, hop, filterMap_nil,
    filter_cons, filter_nil, decide_eq_true_eq]

include hnd in
/-- The next slot gets the next id. -/
private theorem newId_next (hops : g.ops = done ++ op :: rest) (hop : op.dispatchId = some did)
    (hhead : slotHead groups did = did) {d : ℤ} (hd : slotHead groups d = did) :
    newId groups g.ops d = (slotHeads groups done).length ∧ did ∉ slotHeads groups done := by
  have hnot : did ∉ slotHeads groups done := by
    rw [hops, dispatchIds, filterMap_append, filterMap_cons_some hop] at hnd
    intro hmem
    have := disjoint_of_nodup_append hnd (mem_slotHeads.mp hmem).1
    exact this mem_cons_self
  refine ⟨?_, hnot⟩
  have hsplit : slotHeads groups (op :: rest) = did :: slotHeads groups rest := by
    have happend : slotHeads groups ([op] ++ rest) = slotHeads groups [op] ++ slotHeads groups rest :=
      slotHeads_append [op] rest
    rw [slotHeads_single hop, if_pos hhead] at happend
    exact happend
  rw [newId, hd, hops, slotHeads_append, idxOf_append_of_notMem hnot, hsplit,
    idxOf_cons_self, Nat.add_zero]

/-- Nothing changes but the list of ops: a view is emitted, or nothing. -/
private theorem Emitted.same_slots (h : Emitted g groups done st)
    (hids : slotHeads groups [op] = []) {newOps : List GraphOp}
    (hnew : newOps = st.newOps ++ (emittedOp g groups op).toList) :
    Emitted g groups (done ++ [op]) { st with newOps := newOps } := by
  have hsame : slotHeads groups (done ++ [op]) = slotHeads groups done := by
    rw [slotHeads_append, hids, append_nil]
  refine ⟨by rw [hsame]; exact h.nextNewId, ?_, by rw [hsame]; exact h.idRemap,
    by rw [hsame]; exact h.deps⟩
  rw [filterMap_append, hnew, h.newOps]
  cases hop : emittedOp g groups op <;> simp [hop]

section
variable (hops : g.ops = done ++ op :: rest) (h : Emitted g groups done st)
  (hop : op.dispatchId = some did)
include hops h hop

include hnd hgroups in
/-- An op in no group is kept. -/
private theorem Emitted.keep (hgroup : (groupForId groups).get? did = none) :
    Emitted g groups (done ++ [op])
      { st with
        newOps := st.newOps ++ [{ op with dispatchId := some (st.nextNewId : ℤ) }]
        idRemap := st.idRemap.set did st.nextNewId
        nextNewId := st.nextNewId + 1 } := by
  have hnone := (groupForId_eq_none_iff hgroups).mp hgroup
  have hhead := slotHead_of_notMem hgroups hnone
  have hids : slotHeads groups (done ++ [op]) = slotHeads groups done ++ [did] := by
    rw [slotHeads_append, slotHeads_single hop, if_pos hhead]
  have hnew : newId groups g.ops did = st.nextNewId :=
    (newId_next hnd hops hop hhead hhead).1.trans h.nextNewId.symm
  have hemit : emittedOp g groups op = some { op with dispatchId := some (st.nextNewId : ℤ) } := by
    simp only [emittedOp, hop, hhead, if_true, hgroup, hnew]
  refine ⟨?_, ?_, fun d => ?_, fun n deps => ?_⟩
  · rw [hids, length_append, ← h.nextNewId]
    rfl
  · rw [filterMap_append, filterMap_cons_some hemit, h.newOps]
    rfl
  · -- No other dispatch has the slot.
    simp only [PyDict.get?_set, hids, mem_append, mem_singleton, h.idRemap]
    by_cases hd : d = did
    · rw [hd, hhead, if_pos rfl, if_pos (Or.inr rfl), hnew]
    · have hne : slotHead groups d ≠ did := by
        intro heq
        rcases (slotHead_eq_iff hgroups).mp (heq.trans hhead.symm) with rfl | ⟨group, hmem, -, hdid⟩
        · exact hd rfl
        · exact hnone group hmem hdid
      rw [if_neg hd]
      simp only [hne, or_false]
  · rw [h.deps, hids]
    constructor
    · rintro ⟨group, hmem, did', hdid', hin, heq⟩
      exact ⟨group, hmem, did', mem_append_left _ hdid', hin, heq⟩
    · rintro ⟨group, hmem, did', hdid', hin, heq⟩
      rcases mem_append.mp hdid' with hdid' | hlast
      · exact ⟨group, hmem, did', hdid', hin, heq⟩
      · rw [mem_singleton] at hlast
        exact absurd (hlast ▸ hin) (hnone group hmem)

include hnd hgroups in
/-- A group is fused at the slot of its smallest member. -/
private theorem Emitted.fuse (hgroup : (groupForId groups).get? did = some group)
    (hhead : slotHead groups did = did) :
    Emitted g groups (done ++ [op])
      { newOps := st.newOps ++ [{ buildFusedOp (membersOf (opsById g.ops) group) group g.name g.ops
          g.modelOutputs with dispatchId := some (st.nextNewId : ℤ) }]
        idRemap := group.foldl (fun remap did => remap.set did st.nextNewId) st.idRemap
        nextNewId := st.nextNewId + 1
        fusedOpExternalDeps := st.fusedOpExternalDeps.set st.nextNewId
          (externalDeps (membersOf (opsById g.ops) group) group) } := by
  obtain ⟨hmem, hin⟩ := (groupForId_eq_some_iff hgroups).mp hgroup
  have hids : slotHeads groups (done ++ [op]) = slotHeads groups done ++ [did] := by
    rw [slotHeads_append, slotHeads_single hop, if_pos hhead]
  have hslot : ∀ d, slotHead groups d = did ↔ d ∈ group := by
    intro d
    constructor
    · intro heq
      rcases (slotHead_eq_iff hgroups).mp (heq.trans hhead.symm) with
        rfl | ⟨group', hmem', hd, hin'⟩
      · exact hin
      · exact hgroups.eq_of_mem hmem hmem' hin hin' ▸ hd
    · intro hd
      exact ((slotHead_eq_iff hgroups).mpr (Or.inr ⟨group, hmem, hd, hin⟩)).trans hhead
  have hnew : ∀ {d}, slotHead groups d = did → newId groups g.ops d = st.nextNewId :=
    fun hd => (newId_next hnd hops hop hhead hd).1.trans h.nextNewId.symm
  have hemit : emittedOp g groups op = some { buildFusedOp (membersOf (opsById g.ops) group) group
      g.name g.ops g.modelOutputs with dispatchId := some (st.nextNewId : ℤ) } := by
    simp only [emittedOp, hop, hhead, if_true, hgroup, hnew hhead]
  refine ⟨?_, ?_, fun d => ?_, fun n deps => ?_⟩
  · rw [hids, length_append, ← h.nextNewId]
    rfl
  · rw [filterMap_append, filterMap_cons_some hemit, h.newOps]
    rfl
  · simp only [get?_foldl_set, hids, mem_append, mem_singleton, h.idRemap, hslot]
    by_cases hd : d ∈ group
    · rw [if_pos hd, if_pos (Or.inr hd), hnew ((hslot d).mpr hd)]
    · simp only [hd, if_false, or_false]
  · simp only [PyDict.get?_set, hids, mem_append, mem_singleton]
    by_cases hn : n = (st.nextNewId : ℤ)
    · rw [if_pos hn, Option.some.injEq]
      constructor
      · rintro rfl
        exact ⟨group, hmem, did, Or.inr rfl, hin, by rw [hn, hnew hhead], rfl⟩
      · rintro ⟨group', hmem', did', hdid' | rfl, hin', heq, rfl⟩
        · -- The ids of earlier slots are smaller.
          have hidx : newId groups g.ops did' = (slotHeads groups done).idxOf did' := by
            rw [newId, (mem_slotHeads.mp hdid').2, hops, slotHeads_append,
              idxOf_append_of_mem hdid']
          have hlt := idxOf_lt_length_of_mem hdid'
          rw [hn, h.nextNewId] at heq
          omega
        · rw [hgroups.eq_of_mem hmem hmem' hin hin']
    · rw [if_neg hn, h.deps]
      constructor
      · rintro ⟨group', hmem', did', hdid', rest⟩
        exact ⟨group', hmem', did', Or.inl hdid', rest⟩
      · rintro ⟨group', hmem', did', hdid' | rfl, hin', heq, rfl⟩
        · exact ⟨group', hmem', did', hdid', hin', heq, rfl⟩
        · exact absurd (heq.trans (by rw [hnew hhead])) hn

end

include hnd hgroups in
/-- One op of the first pass. -/
private theorem Emitted.step {done rest : List GraphOp} {op : GraphOp} {st : Emission}
    (hops : g.ops = done ++ op :: rest) (h : Emitted g groups done st) :
    Emitted g groups (done ++ [op]) (emitOp g groups st op) := by
  unfold emitOp
  cases hop : op.dispatchId with
  | none =>
    apply h.same_slots
    · simp [slotHeads, dispatchIds, hop]
    · simp [emittedOp, hop]
  | some did =>
    cases hgroup : (groupForId groups).get? did with
    | none =>
      simp only [hgroup]
      exact h.keep hnd hgroups hops hop hgroup
    | some group =>
      obtain ⟨hmem, hin⟩ := (groupForId_eq_some_iff hgroups).mp hgroup
      simp only [hgroup, min?_eq_slotHead hgroups hmem hin, ne_eq, Option.some.injEq]
      by_cases hhead : slotHead groups did = did
      · rw [if_neg (not_not.mpr hhead)]
        exact h.fuse hnd hgroups hops hop hgroup hhead
      · rw [if_pos hhead]
        apply h.same_slots
        · rw [slotHeads_single hop, if_neg hhead]
        · simp only [emittedOp, hop, if_neg hhead, Option.toList_none, append_nil]

include hnd hgroups in
/-- The tables after the first pass. -/
private theorem emitted_emission : Emitted g groups g.ops (emission g groups) := by
  have hrun : ∀ done rest, g.ops = done ++ rest →
      Emitted g groups done (done.foldl (emitOp g groups) {}) := by
    intro done
    induction done using reverseRecOn with
    | nil =>
      intro rest _
      exact ⟨rfl, rfl, fun d => by simp [slotHeads, dispatchIds],
        fun n deps => by simp [slotHeads, dispatchIds]⟩
    | append_singleton done op ih =>
      intro rest hops
      rw [append_assoc] at hops
      rw [foldl_append]
      exact Emitted.step hnd hgroups hops (ih _ hops)
  exact hrun g.ops [] (append_nil _).symm

include hnd hgroups in
/-- `id_remap` after the first pass. -/
theorem get?_idRemap_emission (d : ℤ) : (emission g groups).idRemap.get? d =
    if d ∈ dispatchIds g.ops then some (newId groups g.ops d : ℤ) else none := by
  rw [(emitted_emission hnd hgroups).idRemap]
  simp only [slotHead_mem_slotHeads_iff hgroups]

include hnd hgroups in
/-- The external dependencies after the first pass, by the new id of any member. -/
theorem get?_externalDeps_emission {n : ℤ} {deps : List ℤ} :
    (emission g groups).fusedOpExternalDeps.get? n = some deps ↔
      ∃ group ∈ groups, ∃ did ∈ group, n = (newId groups g.ops did : ℤ) ∧
        deps = externalDeps (membersOf (opsById g.ops) group) group := by
  rw [(emitted_emission hnd hgroups).deps]
  constructor
  · rintro ⟨group, hgroup, did, -, hdid, heq⟩
    exact ⟨group, hgroup, did, hdid, heq⟩
  · rintro ⟨group, hgroup, did, hdid, rfl, rfl⟩
    have hmem := slotHead_mem hgroups hgroup hdid
    refine ⟨group, hgroup, slotHead groups did, ?_, hmem, ?_, rfl⟩
    · exact (slotHead_mem_slotHeads_iff hgroups).mpr (hgroups.mem_dispatchIds hgroup hdid)
    · rw [newId, newId, slotHead_slotHead hgroups]

include hnd in
/-- The members of a group are ops of the graph. -/
theorem mem_membersOf :
    op ∈ membersOf (opsById g.ops) group ↔ op ∈ g.ops ∧ ∃ did ∈ group, op.dispatchId = some did := by
  rw [membersOf, mem_filterMap]
  constructor
  · rintro ⟨did, hdid, hget⟩
    obtain ⟨hop, hid⟩ := (get?_opsById_iff hnd).mp hget
    exact ⟨hop, did, hdid, hid⟩
  · rintro ⟨hop, did, hdid, hid⟩
    exact ⟨did, hdid, (get?_opsById_iff hnd).mpr ⟨hop, hid⟩⟩

include hnd in
theorem mem_externalDeps {dep : ℤ} :
    dep ∈ externalDeps (membersOf (opsById g.ops) group) group ↔
      dep ∉ group ∧ ∃ op ∈ g.ops, ∃ did ∈ group, op.dispatchId = some did ∧ dep ∈ op.dependsOn := by
  simp only [externalDeps, PyList.mem_orderedUnique, mem_filter, mem_flatMap,
    decide_eq_true_eq, mem_membersOf hnd]
  constructor
  · rintro ⟨⟨op, ⟨hop, did, hdid, hid⟩, hdep⟩, hnot⟩
    exact ⟨hnot, op, hop, did, hdid, hid, hdep⟩
  · rintro ⟨hnot, op, hop, did, hdid, hid, hdep⟩
    exact ⟨⟨op, ⟨hop, did, hdid, hid⟩, hdep⟩, hnot⟩

end FirstPass

/-! ### The second pass -/

/-- What becomes of an op. -/
def fusedGraphOp (g : Graph) (groups : List (List ℤ)) (op : GraphOp) : Option GraphOp :=
  match op.dispatchId with
  | none => some op
  | some did =>
    if slotHead groups did = did then
      match (groupForId groups).get? did with
      | none =>
        some { op with
          dispatchId := some (newId groups g.ops did : ℤ)
          dependsOn := PyList.orderedUnique ((op.dependsOn.filter (· ∈ dispatchIds g.ops)).map
            fun d => (newId groups g.ops d : ℤ)) }
      | some group =>
        some { buildFusedOp (membersOf (opsById g.ops) group) group g.name g.ops g.modelOutputs with
          dispatchId := some (newId groups g.ops did : ℤ)
          dependsOn := (externalDeps (membersOf (opsById g.ops) group) group).map
            fun d => (newId groups g.ops d : ℤ) }
    else none

/-- The graph that is returned. -/
def fusedGraph (g : Graph) (groups : List (List ℤ)) : Graph :=
  { g with
    ops := g.ops.filterMap (fusedGraphOp g groups)
    dispatches := g.dispatches.map fun _ => dispatchIds (g.ops.filterMap (fusedGraphOp g groups))
    idRemap := some (.scalar ((emission g groups).idRemap.items.mergeSort fun a b => a.1 ≤ b.1)) }

/-- The second pass finds what it looks up. -/
structure Rewirable (g : Graph) (groups : List (List ℤ)) : Prop where
  /-- No dispatch outside of the groups carries `fused_from`. -/
  unmarked : ∀ op ∈ g.ops, ∀ did, op.dispatchId = some did → (∀ group ∈ groups, did ∉ group) →
    op.fusedFrom = none
  /-- What a member depends on outside of its group exists. -/
  existing : ∀ group ∈ groups, ∀ op ∈ g.ops, ∀ did ∈ group, op.dispatchId = some did →
    ∀ dep ∈ op.dependsOn, dep ∉ group → dep ∈ dispatchIds g.ops

section SecondPass

variable {g : Graph} {groups : List (List ℤ)} (hnd : (dispatchIds g.ops).Nodup)
  (hgroups : AcceptedGroups (opsById g.ops) groups)

include hnd hgroups

variable {out op : GraphOp} {did : ℤ}

/-- A kept op is rewired iff it is not marked. -/
private theorem rewireOp_kept (hop : op.dispatchId = some did) (hin : op ∈ g.ops)
    (hnone : ∀ group ∈ groups, did ∉ group) :
    rewireOp (emission g groups) { op with dispatchId := some (newId groups g.ops did : ℤ) } =
        .ok out ↔ op.fusedFrom = none ∧ fusedGraphOp g groups op = some out := by
  have hhead := slotHead_of_notMem hgroups hnone
  have hget := (groupForId_eq_none_iff hgroups).mpr hnone
  have hdeps : (emission g groups).fusedOpExternalDeps.get? (newId groups g.ops did : ℤ) = none := by
    apply Option.eq_none_iff_forall_ne_some.mpr
    intro deps hdeps
    obtain ⟨group, hgroup, did', hdid', heq, -⟩ := (get?_externalDeps_emission hnd hgroups).mp hdeps
    have hmem : did ∈ dispatchIds g.ops := mem_filterMap.mpr ⟨op, hin, hop⟩
    rcases (newId_eq_iff hgroups hmem).mp (Int.ofNat_inj.mp heq) with rfl | ⟨group', hgroup', h, -⟩
    · exact hnone group hgroup hdid'
    · exact hnone group' hgroup' h
  have hremap : ∀ l : List ℤ, l.filterMap (emission g groups).idRemap.get? =
      (l.filter (· ∈ dispatchIds g.ops)).map fun d => (newId groups g.ops d : ℤ) := by
    intro l
    rw [← filterMap_eq_map, filterMap_filter]
    congr 1
    funext d
    rw [get?_idRemap_emission hnd hgroups]
    simp
  simp only [rewireOp, hdeps, fusedGraphOp, hop, hhead, if_true, hget, hremap]
  by_cases hmark : op.fusedFrom = none
  · simp [hmark]
  · simp [hmark]

/-- A fused op is rewired iff what its group depends on exists. -/
private theorem rewireOp_fused (hop : op.dispatchId = some did) {group : List ℤ}
    (hgroup : group ∈ groups) (hdid : did ∈ group) (hhead : slotHead groups did = did) :
    rewireOp (emission g groups) { buildFusedOp (membersOf (opsById g.ops) group) group g.name g.ops
        g.modelOutputs with dispatchId := some (newId groups g.ops did : ℤ) } = .ok out ↔
      (∀ dep ∈ externalDeps (membersOf (opsById g.ops) group) group, dep ∈ dispatchIds g.ops) ∧
        fusedGraphOp g groups op = some out := by
  have hget := (groupForId_eq_some_iff hgroups).mpr ⟨hgroup, hdid⟩
  have hdeps := (get?_externalDeps_emission hnd hgroups).mpr ⟨group, hgroup, did, hdid, rfl, rfl⟩
  have hremap : ∀ d, remapId (emission g groups).idRemap d =
      if d ∈ dispatchIds g.ops then .ok (newId groups g.ops d : ℤ) else .error (.keyError d) := by
    intro d
    rw [remapId, get?_idRemap_emission hnd hgroups]
    split_ifs <;> rfl
  have hfused : (buildFusedOp (membersOf (opsById g.ops) group) group g.name g.ops
      g.modelOutputs).fusedFrom ≠ none := by simp [buildFusedOp]
  simp only [rewireOp, hfused, if_true, hdeps, fusedGraphOp, hop, hhead, hget,
    bind_eq_ok_iff, Option.some.injEq, ne_eq, not_false_eq_true]
  constructor
  · rintro ⟨ids, hids, hret⟩
    cases hret
    have hall : ∀ dep ∈ externalDeps (membersOf (opsById g.ops) group) group,
        dep ∈ dispatchIds g.ops := by
      intro dep hdep
      obtain ⟨n, -, hn⟩ := exists_of_mapM_eq_ok hids hdep
      rw [hremap] at hn
      by_contra hnot
      rw [if_neg hnot] at hn
      cases hn
    refine ⟨hall, ?_⟩
    have hmap := mapM_eq_ok_map (f := remapId (emission g groups).idRemap)
      (h := fun d => (newId groups g.ops d : ℤ)) fun dep hdep => by
        rw [hremap, if_pos (hall dep hdep)]
    rw [hmap] at hids
    cases hids
    rfl
  · rintro ⟨hall, rfl⟩
    refine ⟨_, mapM_eq_ok_map (h := fun d => (newId groups g.ops d : ℤ))
      fun dep hdep => ?_, rfl⟩
    rw [hremap, if_pos (hall dep hdep)]

/-- The passes go through iff the second one finds what it looks up. -/
theorem fuse_eq_ok_iff {out : Graph} :
    fuse g groups = .ok out ↔ Rewirable g groups ∧ out = fusedGraph g groups := by
  have hops := (emitted_emission hnd hgroups).newOps
  -- Every op that is emitted is rewired on its own.
  have hop_iff : ∀ op ∈ g.ops, ∀ did, op.dispatchId = some did → ∀ e, emittedOp g groups op = some e →
      ∀ out, rewireOp (emission g groups) e = .ok out ↔
        ((∀ group ∈ groups, did ∉ group) → op.fusedFrom = none) ∧
        (∀ group ∈ groups, did ∈ group → ∀ dep ∈ externalDeps (membersOf (opsById g.ops) group) group,
          dep ∈ dispatchIds g.ops) ∧ fusedGraphOp g groups op = some out := by
    intro op hin did hop e he out
    simp only [emittedOp, hop] at he
    split_ifs at he with hhead
    cases hget : (groupForId groups).get? did with
    | none =>
      have hnone := (groupForId_eq_none_iff hgroups).mp hget
      simp only [hget, Option.some.injEq] at he
      subst he
      rw [rewireOp_kept hnd hgroups hop hin hnone]
      constructor
      · rintro ⟨hmark, hout⟩
        exact ⟨fun _ => hmark, fun group hgroup hdid => absurd hdid (hnone group hgroup), hout⟩
      · rintro ⟨hmark, -, hout⟩
        exact ⟨hmark hnone, hout⟩
    | some group =>
      obtain ⟨hgroup, hdid⟩ := (groupForId_eq_some_iff hgroups).mp hget
      simp only [hget, Option.some.injEq] at he
      subst he
      rw [rewireOp_fused hnd hgroups hop hgroup hdid hhead]
      constructor
      · rintro ⟨hall, hout⟩
        refine ⟨fun hnone => absurd hdid (hnone group hgroup), fun group' hgroup' hdid' => ?_, hout⟩
        exact hgroups.eq_of_mem hgroup hgroup' hdid hdid' ▸ hall
      · rintro ⟨-, hall, hout⟩
        exact ⟨hall group hgroup hdid, hout⟩
  have hkeep : ∀ op did, op.dispatchId = some did → slotHead groups did = did →
      ∃ e, emittedOp g groups op = some e := by
    intro op did hop hhead
    simp only [emittedOp, hop, hhead, if_true]
    split <;> exact ⟨_, rfl⟩
  have hrun : Rewirable g groups → (g.ops.filterMap (emittedOp g groups)).mapM
      (rewireOp (emission g groups)) = .ok (g.ops.filterMap (fusedGraphOp g groups)) := by
    intro hwirable
    apply mapM_filterMap_eq_ok
    intro op hin
    cases hop : op.dispatchId with
    | none =>
      right
      exact ⟨op, op, by simp [emittedOp, hop], by simp [fusedGraphOp, hop], by simp [rewireOp, hop]⟩
    | some did =>
      by_cases hhead : slotHead groups did = did
      · right
        obtain ⟨e, he⟩ := hkeep op did hop hhead
        have hout : ∃ out, fusedGraphOp g groups op = some out := by
          simp only [fusedGraphOp, hop, hhead, if_true]
          split <;> exact ⟨_, rfl⟩
        obtain ⟨out, hout⟩ := hout
        refine ⟨e, out, he, hout, (hop_iff op hin did hop e he out).mpr ⟨?_, ?_, hout⟩⟩
        · exact hwirable.unmarked op hin did hop
        · intro group hgroup hdid dep hdep
          obtain ⟨hnot, op', hin', did', hdid', hop', hdep'⟩ := (mem_externalDeps hnd).mp hdep
          exact hwirable.existing group hgroup op' hin' did' hdid' hop' dep hdep' hnot
      · left
        exact ⟨by simp [emittedOp, hop, hhead], by simp [fusedGraphOp, hop, hhead]⟩
  unfold fuse
  simp only [bind_eq_ok_iff, hops]
  constructor
  · rintro ⟨newOps, hmap, hret⟩
    cases hret
    have hwirable : Rewirable g groups := by
      refine ⟨fun op hin did hop hnone => ?_, fun group hgroup op hin did hdid hop dep hdep hnot => ?_⟩
      · obtain ⟨e, he⟩ := hkeep op did hop (slotHead_of_notMem hgroups hnone)
        obtain ⟨out, -, hout⟩ := exists_of_mapM_eq_ok hmap (mem_filterMap.mpr ⟨op, hin, he⟩)
        exact ((hop_iff op hin did hop e he out).mp hout).1 hnone
      · -- The group is emitted at its slot.
        have hslot := slotHead_mem hgroups hgroup hdid
        obtain ⟨op', hin', hop'⟩ := mem_filterMap.mp (hgroups.mem_dispatchIds hgroup hslot)
        obtain ⟨e, he⟩ := hkeep op' _ hop' (slotHead_slotHead hgroups did)
        obtain ⟨out, -, hout⟩ :=
          exists_of_mapM_eq_ok hmap (mem_filterMap.mpr ⟨op', hin', he⟩)
        apply ((hop_iff op' hin' _ hop' e he out).mp hout).2.1 group hgroup hslot
        exact (mem_externalDeps hnd).mpr ⟨hnot, op, hin, did, hdid, hop, hdep⟩
    rw [hrun hwirable] at hmap
    cases hmap
    exact ⟨hwirable, rfl⟩
  · rintro ⟨hwirable, rfl⟩
    exact ⟨g.ops.filterMap (fusedGraphOp g groups), hrun hwirable, rfl⟩

end SecondPass

end ModelBlaster
