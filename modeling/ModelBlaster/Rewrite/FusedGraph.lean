import ModelBlaster.Rewrite.FusionEmission

/-!
# The quotient law of fusion

The graph that fusion returns is the quotient of its input by the groups: new ids number the
blocks, kept ops are left as they are, and dependencies are translated. Four kinds of input break
the law, and two of them end in an uncontrolled failure.

## Main definitions

* `QuotientLaw`: the law;
* `CleanGroups`: the inputs that obey it;
* `Contiguous`: the members of a group are these, next to each other;
* `Blocks`: a list cut into single ops and groups;
* `GroupBefore`: a member of one group depends on a member of another.

## Main results

* `dispatchIds_fusedGraph`: new ids count up;
* `mem_dependsOn_fusedGraphOp`: the dependencies of the ops that are returned;
* `applyHint_quotient_iff`: fusion obeys the law iff its input is clean;
* `blocks_of_contiguous`: contiguous groups cut the list into blocks;
* `filterMap_fusedGraphOp_group`: what becomes of a group;
* `applyHint_acyclic_iff`: the graph is acyclic iff the groups do not depend on each other in a
  circle;
* `applyHint_dependenciesSmaller_iff`: the list is in order iff the slots are.
-/

namespace ModelBlaster

open List

section FusedGraph

variable {g : Graph} {groups : List (List ℤ)} (hnd : (dispatchIds g.ops).Nodup)
  (hgroups : AcceptedGroups (opsById g.ops) groups)

include hnd in
/-- The edges between dispatches of the graph. -/
theorem dependencyOf_opsById_iff {a b : ℤ} :
    DependencyOf (opsById g.ops) a b ↔
      a ∈ dispatchIds g.ops ∧ ∃ op ∈ g.ops, op.dispatchId = some b ∧ a ∈ op.dependsOn := by
  simp only [dependencyOf_iff, get?_opsById_iff hnd, mem_keys_opsById]
  constructor
  · rintro ⟨op, ⟨hop, hid⟩, hdep, hkey⟩
    exact ⟨hkey, op, hop, hid, hdep⟩
  · rintro ⟨hkey, op, hop, hid, hdep⟩
    exact ⟨op, ⟨hop, hid⟩, hdep, hkey⟩

variable {out op : GraphOp} {did : ℤ}

/-- What becomes of an op: a view stays, and a dispatch at its slot gets a new id. -/
theorem fusedGraphOp_eq_some (h : fusedGraphOp g groups op = some out) :
    op.dispatchId = none ∧ out = op ∨
      ∃ did, op.dispatchId = some did ∧ slotHead groups did = did ∧
        out.dispatchId = some (newId groups g.ops did : ℤ) := by
  unfold fusedGraphOp at h
  cases hop : op.dispatchId with
  | none =>
    simp only [hop, Option.some.injEq] at h
    exact Or.inl ⟨rfl, h.symm⟩
  | some did =>
    simp only [hop] at h
    split_ifs at h with hhead
    right
    refine ⟨did, rfl, hhead, ?_⟩
    split at h <;> cases h <;> rfl

/-- A dispatch at its slot becomes an op. -/
theorem exists_fusedGraphOp (hop : op.dispatchId = some did) (hhead : slotHead groups did = did) :
    ∃ out, fusedGraphOp g groups op = some out := by
  simp only [fusedGraphOp, hop, hhead, if_true]
  split <;> exact ⟨_, rfl⟩

include hnd in
/-- New ids count up along the list. -/
theorem dispatchIds_fusedGraph : dispatchIds (fusedGraph g groups).ops =
    (List.range (slotHeads groups g.ops).length).map fun n : ℕ => (n : ℤ) := by
  have hids : dispatchIds (fusedGraph g groups).ops =
      (slotHeads groups g.ops).map fun did => (newId groups g.ops did : ℤ) := by
    rw [slotHeads, dispatchIds, dispatchIds, filter_filterMap, map_filterMap, fusedGraph,
      filterMap_filterMap]
    apply filterMap_congr
    intro op _
    cases hout : fusedGraphOp g groups op with
    | none =>
      cases hop : op.dispatchId with
      | none => simp [fusedGraphOp, hop] at hout
      | some did =>
        by_cases hhead : slotHead groups did = did
        · obtain ⟨out, h⟩ := exists_fusedGraphOp (g := g) hop hhead
          rw [h] at hout
          cases hout
        · simp [hhead]
    | some out =>
      rcases fusedGraphOp_eq_some hout with ⟨hop, rfl⟩ | ⟨did, hop, hhead, hid⟩
      · simp [hop]
      · simp [hop, hhead, hid]
  have hslots : (slotHeads groups g.ops).Nodup := hnd.filter _
  rw [hids]
  apply List.ext_getElem
  · simp
  · intro i hi hi'
    rw [length_map] at hi
    simp only [getElem_map, getElem_range, newId]
    rw [(mem_slotHeads.mp (getElem_mem hi)).2, hslots.idxOf_getElem i hi]

include hnd hgroups in
/-- The dependencies of an op that is returned are those of the dispatches that it stands for, but
for those inside of its group. -/
theorem mem_dependsOn_fusedGraphOp (hwirable : Rewirable g groups) (hin : op ∈ g.ops)
    (hout : fusedGraphOp g groups op = some out) (hop : op.dispatchId = some did) (k : ℤ) :
    k ∈ out.dependsOn ↔ ∃ a b, DependencyOf (opsById g.ops) a b ∧
      slotHead groups b = slotHead groups did ∧ ¬(∃ group ∈ groups, a ∈ group ∧ b ∈ group) ∧
      k = (newId groups g.ops a : ℤ) := by
  simp only [fusedGraphOp, hop] at hout
  split_ifs at hout with hhead
  cases hget : (groupForId groups).get? did with
  | none =>
    have hnone := (groupForId_eq_none_iff hgroups).mp hget
    simp only [hget, Option.some.injEq] at hout
    subst hout
    simp only [PyList.mem_orderedUnique, mem_map, mem_filter, decide_eq_true_eq,
      dependencyOf_opsById_iff hnd]
    constructor
    · rintro ⟨dep, ⟨hdep, hmem⟩, rfl⟩
      refine ⟨dep, did, ⟨hmem, op, hin, hop, hdep⟩, rfl, ?_, rfl⟩
      rintro ⟨group, hgroup, -, hdid⟩
      exact hnone group hgroup hdid
    · rintro ⟨a, b, ⟨hmem, op', hin', hop', hdep⟩, hslot, -, rfl⟩
      -- A dispatch in no group has its slot for itself.
      obtain rfl : b = did := by
        rcases (slotHead_eq_iff hgroups).mp hslot with heq | ⟨group, hgroup, -, hdid⟩
        · exact heq
        · exact absurd hdid (hnone group hgroup)
      obtain rfl := eq_of_dispatchIds_nodup hnd hin hin' hop hop'
      exact ⟨a, ⟨hdep, hmem⟩, rfl⟩
  | some group =>
    obtain ⟨hgroup, hdid⟩ := (groupForId_eq_some_iff hgroups).mp hget
    simp only [hget, Option.some.injEq] at hout
    subst hout
    simp only [mem_map, mem_externalDeps hnd, dependencyOf_opsById_iff hnd]
    constructor
    · rintro ⟨dep, ⟨hnot, op', hin', b, hb, hop', hdep⟩, rfl⟩
      refine ⟨dep, b, ⟨hwirable.existing group hgroup op' hin' b hb hop' dep hdep hnot, op', hin',
        hop', hdep⟩, (slotHead_eq_iff hgroups).mpr (Or.inr ⟨group, hgroup, hb, hdid⟩), ?_, rfl⟩
      rintro ⟨group', hgroup', hdep', hb'⟩
      exact hnot (hgroups.eq_of_mem hgroup' hgroup hb' hb ▸ hdep')
    · rintro ⟨a, b, ⟨-, op', hin', hop', hdep⟩, hslot, hnot, rfl⟩
      have hb : b ∈ group := by
        rcases (slotHead_eq_iff hgroups).mp hslot with rfl | ⟨group', hgroup', hb, hdid'⟩
        · exact hdid
        · exact hgroups.eq_of_mem hgroup' hgroup hdid' hdid ▸ hb
      exact ⟨a, ⟨fun ha => hnot ⟨group, hgroup, ha, hb⟩, op', hin', b, hb, hop', hdep⟩, rfl⟩

end FusedGraph

/-! ### The law -/

/-- `out` is the quotient of `g` by the groups, along the `id_remap` with these entries. -/
structure QuotientLaw (g out : Graph) (groups : List (List ℤ)) (entries : List (ℤ × ℤ)) : Prop where
  /-- The entries are published. -/
  idRemap : out.idRemap = some (.scalar entries)
  /-- They are a function. -/
  functional : (entries.map Prod.fst).Nodup
  /-- It is defined on the dispatches of the input. -/
  domain : ∀ d, d ∈ entries.map Prod.fst ↔ d ∈ dispatchIds g.ops
  /-- New ids count up. -/
  ids : dispatchIds out.ops = (List.range (dispatchIds out.ops).length).map fun n : ℕ => (n : ℤ)
  /-- Every new id is one of an old dispatch. -/
  onto : ∀ n, n ∈ entries.map Prod.snd ↔ n ∈ dispatchIds out.ops
  /-- The members of a group are identified, and no others. -/
  blocks : ∀ d n e k, (d, n) ∈ entries → (e, k) ∈ entries →
    (n = k ↔ d = e ∨ ∃ group ∈ groups, d ∈ group ∧ e ∈ group)
  /-- Views are left as they are. -/
  views : ∀ op ∈ g.ops, op.dispatchId = none → op ∈ out.ops
  /-- Dispatches in no group keep all fields but their ids. -/
  kept : ∀ op ∈ g.ops, ∀ d, op.dispatchId = some d → (∀ group ∈ groups, d ∉ group) →
    ∃ n deps, (d, n) ∈ entries ∧ { op with dispatchId := some n, dependsOn := deps } ∈ out.ops
  /-- Dependencies are translated: without duplicates, and without the op itself. -/
  dependsOn : ∀ op ∈ out.ops, ∀ n, op.dispatchId = some n → op.dependsOn.Nodup ∧
    ∀ k, k ∈ op.dependsOn ↔ k ≠ n ∧ ∃ a b, (a, k) ∈ entries ∧ (b, n) ∈ entries ∧
      ∃ member ∈ g.ops, member.dispatchId = some b ∧ a ∈ member.dependsOn

/-- The groups on which fusion obeys the law. -/
structure CleanGroups (g : Graph) (groups : List (List ℤ)) : Prop extends Rewirable g groups where
  /-- No dispatch outside of the groups depends on itself. -/
  noSelf : ∀ op ∈ g.ops, ∀ did, op.dispatchId = some did → (∀ group ∈ groups, did ∉ group) →
    did ∉ op.dependsOn
  /-- What the members of one group depend on outside are not two members of another group. -/
  separate : ∀ group ∈ groups, ∀ a ∈ externalDeps (membersOf (opsById g.ops) group) group,
    ∀ b ∈ externalDeps (membersOf (opsById g.ops) group) group,
      (∃ other ∈ groups, a ∈ other ∧ b ∈ other) → a = b

section Law

variable {g : Graph} {groups : List (List ℤ)} (hnd : (dispatchIds g.ops).Nodup)
  (hgroups : AcceptedGroups (opsById g.ops) groups)

/-- The published entries. -/
private def remapEntries (g : Graph) (groups : List (List ℤ)) : List (ℤ × ℤ) :=
  (emission g groups).idRemap.items.mergeSort fun a b => a.1 ≤ b.1

include hnd hgroups

private theorem mem_remapEntries {d n : ℤ} :
    (d, n) ∈ remapEntries g groups ↔ d ∈ dispatchIds g.ops ∧ n = (newId groups g.ops d : ℤ) := by
  rw [remapEntries, mem_mergeSort, PyDict.mem_items_iff, get?_idRemap_emission hnd hgroups]
  split_ifs with h <;> simp [h, eq_comm]

omit hnd in
/-- A dependency between blocks is one of different dispatches that are in no group together. -/
private theorem newId_ne_iff {a b : ℤ} (ha : a ∈ dispatchIds g.ops) :
    (newId groups g.ops a : ℤ) ≠ newId groups g.ops b ↔
      a ≠ b ∧ ¬∃ group ∈ groups, a ∈ group ∧ b ∈ group := by
  rw [ne_eq, Int.ofNat_inj, newId_eq_iff hgroups ha, not_or]

variable {out op : GraphOp} {did : ℤ}

/-- The dependencies of an op that is returned are the translated ones iff it is a fused op, or
does not depend on itself. -/
private theorem dependsOn_law_iff (hwirable : Rewirable g groups) (hin : op ∈ g.ops)
    (hout : fusedGraphOp g groups op = some out) (hop : op.dispatchId = some did) :
    (∀ k, k ∈ out.dependsOn ↔ k ≠ (newId groups g.ops did : ℤ) ∧ ∃ a b,
      (a, k) ∈ remapEntries g groups ∧
      (b, (newId groups g.ops did : ℤ)) ∈ remapEntries g groups ∧
      ∃ member ∈ g.ops, member.dispatchId = some b ∧ a ∈ member.dependsOn) ↔
    ((∀ group ∈ groups, did ∉ group) → did ∉ op.dependsOn) := by
  have hdid : did ∈ dispatchIds g.ops := mem_filterMap.mpr ⟨op, hin, hop⟩
  have hslot : ∀ {b}, slotHead groups b = slotHead groups did ↔
      (newId groups g.ops did : ℤ) = newId groups g.ops b := by
    intro b
    rw [Int.ofNat_inj, newId_eq_iff hgroups hdid, ← slotHead_eq_iff hgroups, eq_comm]
  simp only [mem_dependsOn_fusedGraphOp hnd hgroups hwirable hin hout hop, mem_remapEntries hnd
    hgroups, dependencyOf_opsById_iff hnd, hslot]
  constructor
  · intro h hnone hself
    have hmem := (h (newId groups g.ops did : ℤ)).mp
      ⟨did, did, ⟨hdid, op, hin, hop, hself⟩, rfl, fun ⟨group, hgroup, hd, _⟩ => hnone group hgroup hd,
        rfl⟩
    exact hmem.1 rfl
  · intro hself k
    constructor
    · rintro ⟨a, b, ⟨ha, member, hmember, hb, hdep⟩, hsame, hnot, rfl⟩
      refine ⟨?_, a, b, ⟨ha, rfl⟩, ⟨mem_filterMap.mpr ⟨member, hmember, hb⟩, hsame⟩, member,
        hmember, hb, hdep⟩
      rw [hsame, newId_ne_iff hgroups ha]
      refine ⟨?_, hnot⟩
      rintro rfl
      -- A dispatch that depends on itself is in no group, hence it is this one.
      have hnone : ∀ group ∈ groups, a ∉ group := fun group hgroup h => hnot ⟨group, hgroup, h, h⟩
      obtain rfl : did = a := by
        rcases (newId_eq_iff hgroups hdid).mp (Int.ofNat_inj.mp hsame) with h | ⟨group, hgroup, -, h⟩
        · exact h
        · exact absurd h (hnone group hgroup)
      obtain rfl := eq_of_dispatchIds_nodup hnd hin hmember hop hb
      exact hself hnone hdep
    · rintro ⟨hne, a, b, ⟨ha, rfl⟩, ⟨-, hsame⟩, member, hmember, hb, hdep⟩
      rw [hsame, newId_ne_iff hgroups ha] at hne
      exact ⟨a, b, ⟨ha, member, hmember, hb, hdep⟩, hsame, hne.2, rfl⟩

/-- No dependency of an op that is returned is listed twice, unless two members of one group are
what its group depends on. -/
private theorem nodup_dependsOn_iff (hwirable : Rewirable g groups)
    (hout : fusedGraphOp g groups op = some out) (hop : op.dispatchId = some did) :
    out.dependsOn.Nodup ↔ ∀ group ∈ groups, did ∈ group →
      ∀ a ∈ externalDeps (membersOf (opsById g.ops) group) group,
        ∀ b ∈ externalDeps (membersOf (opsById g.ops) group) group,
          (∃ other ∈ groups, a ∈ other ∧ b ∈ other) → a = b := by
  simp only [fusedGraphOp, hop] at hout
  split_ifs at hout with hhead
  cases hget : (groupForId groups).get? did with
  | none =>
    have hnone := (groupForId_eq_none_iff hgroups).mp hget
    simp only [hget, Option.some.injEq] at hout
    subst hout
    exact iff_of_true (PyList.nodup_orderedUnique _)
      fun group hgroup hdid => absurd hdid (hnone group hgroup)
  | some group =>
    obtain ⟨hgroup, hdid⟩ := (groupForId_eq_some_iff hgroups).mp hget
    simp only [hget, Option.some.injEq] at hout
    subst hout
    have hexisting : ∀ a ∈ externalDeps (membersOf (opsById g.ops) group) group,
        a ∈ dispatchIds g.ops := by
      intro a ha
      obtain ⟨hnot, member, hmember, b, hb, hid, hdep⟩ := (mem_externalDeps hnd).mp ha
      exact hwirable.existing group hgroup member hmember b hb hid a hdep hnot
    show ((externalDeps (membersOf (opsById g.ops) group) group).map
      fun d => (newId groups g.ops d : ℤ)).Nodup ↔ _
    have hnodup : (externalDeps (membersOf (opsById g.ops) group) group).Nodup :=
      PyList.nodup_orderedUnique _
    rw [nodup_map_iff_inj_on hnodup]
    constructor
    · intro h group' hgroup' hdid' a ha b hb hother
      obtain rfl := hgroups.eq_of_mem hgroup hgroup' hdid hdid'
      apply h a ha b hb
      rw [Int.ofNat_inj, newId_eq_iff hgroups (hexisting a ha)]
      exact Or.inr hother
    · intro h a ha b hb heq
      rcases (newId_eq_iff hgroups (hexisting a ha)).mp (Int.ofNat_inj.mp heq) with rfl | hother
      · rfl
      · exact h group hgroup hdid a ha b hb hother

/-- When the passes go through, the law holds iff no kept op depends on itself and no group depends
on two members of another. -/
private theorem quotientLaw_iff (hwirable : Rewirable g groups) :
    (∃ entries, QuotientLaw g (fusedGraph g groups) groups entries) ↔ CleanGroups g groups := by
  constructor
  · rintro ⟨entries, law⟩
    obtain rfl : remapEntries g groups = entries := by
      have := law.idRemap
      simp only [fusedGraph, Option.some.injEq, IdRemap.scalar.injEq] at this
      exact this
    -- The op that is returned at the slot of a dispatch.
    have hat : ∀ did ∈ dispatchIds g.ops, slotHead groups did = did → ∃ op ∈ g.ops,
        op.dispatchId = some did ∧ ∃ out, fusedGraphOp g groups op = some out ∧
          out ∈ (fusedGraph g groups).ops ∧ out.dispatchId = some (newId groups g.ops did : ℤ) := by
      intro did hdid hhead
      obtain ⟨op, hin, hop⟩ := mem_filterMap.mp hdid
      obtain ⟨out, hout⟩ := exists_fusedGraphOp (g := g) hop hhead
      refine ⟨op, hin, hop, out, hout, mem_filterMap.mpr ⟨op, hin, hout⟩, ?_⟩
      rcases fusedGraphOp_eq_some hout with ⟨hnone, -⟩ | ⟨did', hop', -, hid⟩
      · rw [hop] at hnone
        cases hnone
      · rw [hop] at hop'
        cases hop'
        exact hid
    refine ⟨hwirable, fun op hin did hop hnone => ?_, fun group hgroup => ?_⟩
    · have hhead := slotHead_of_notMem hgroups hnone
      obtain ⟨op', hin', hop', out, hout, hmem, hid⟩ :=
        hat did (mem_filterMap.mpr ⟨op, hin, hop⟩) hhead
      obtain rfl := eq_of_dispatchIds_nodup hnd hin hin' hop hop'
      exact (dependsOn_law_iff hnd hgroups hwirable hin hout hop).mp
        (law.dependsOn out hmem _ hid).2 hnone
    · obtain ⟨did, hdid⟩ := exists_mem_of_ne_nil group (hgroups.valid group hgroup).nonempty
      have hslot := slotHead_mem hgroups hgroup hdid
      obtain ⟨op, hin, hop, out, hout, hmem, hid⟩ :=
        hat _ (hgroups.mem_dispatchIds hgroup hslot) (slotHead_slotHead hgroups did)
      exact (nodup_dependsOn_iff hnd hgroups hwirable hout hop).mp (law.dependsOn out hmem _ hid).1
        group hgroup hslot
  · intro hclean
    have hids : dispatchIds (fusedGraph g groups).ops =
        (List.range (slotHeads groups g.ops).length).map fun n : ℕ => (n : ℤ) :=
      dispatchIds_fusedGraph hnd
    refine ⟨remapEntries g groups, rfl, ?_, ?_, ?_, ?_, ?_, ?_, ?_, ?_⟩
    · have hperm := (mergeSort_perm (emission g groups).idRemap.items fun a b => a.1 ≤ b.1).map
        Prod.fst
      exact hperm.nodup_iff.mpr (emission g groups).idRemap.nodup
    · intro d
      simp only [mem_map, Prod.exists, exists_and_right, exists_eq_right,
        mem_remapEntries hnd hgroups]
    · rw [hids, length_map, length_range]
    · intro n
      rw [hids]
      simp only [mem_map, Prod.exists, mem_remapEntries hnd hgroups, mem_range]
      constructor
      · rintro ⟨d, _, ⟨hd, rfl⟩, rfl⟩
        exact ⟨_, newId_lt hgroups hd, rfl⟩
      · rintro ⟨i, hi, rfl⟩
        obtain ⟨hmem, hhead⟩ := mem_slotHeads.mp (getElem_mem hi)
        refine ⟨_, _, ⟨hmem, rfl⟩, ?_⟩
        have hslots : (slotHeads groups g.ops).Nodup := hnd.filter _
        rw [newId, hhead, hslots.idxOf_getElem i hi]
    · intro d n e k hd he
      rw [mem_remapEntries hnd hgroups] at hd he
      rw [hd.2, he.2, Int.ofNat_inj, newId_eq_iff hgroups hd.1]
    · intro op hin hop
      exact mem_filterMap.mpr ⟨op, hin, by simp [fusedGraphOp, hop]⟩
    · intro op hin d hop hnone
      have hhead := slotHead_of_notMem hgroups hnone
      have hget := (groupForId_eq_none_iff hgroups).mpr hnone
      have hout : fusedGraphOp g groups op = some { op with
          dispatchId := some (newId groups g.ops d : ℤ)
          dependsOn := PyList.orderedUnique ((op.dependsOn.filter (· ∈ dispatchIds g.ops)).map
            fun d => (newId groups g.ops d : ℤ)) } := by
        simp only [fusedGraphOp, hop, hhead, if_true, hget]
      have hd : d ∈ dispatchIds g.ops := mem_filterMap.mpr ⟨op, hin, hop⟩
      exact ⟨_, _, (mem_remapEntries hnd hgroups).mpr ⟨hd, rfl⟩, mem_filterMap.mpr ⟨op, hin, hout⟩⟩
    · intro out hout n hn
      obtain ⟨op, hin, hop⟩ := mem_filterMap.mp hout
      rcases fusedGraphOp_eq_some hop with ⟨hnone, rfl⟩ | ⟨did, hdid, hhead, hid⟩
      · rw [hn] at hnone
        cases hnone
      · rw [hn, Option.some.injEq] at hid
        subst hid
        refine ⟨(nodup_dependsOn_iff hnd hgroups hwirable hop hdid).mpr ?_,
          (dependsOn_law_iff hnd hgroups hwirable hin hop hdid).mpr ?_⟩
        · exact fun group hgroup _ => hclean.separate group hgroup
        · exact hclean.noSelf op hin did hdid

end Law

/-- The passes fail by an uncontrolled lookup only. -/
private theorem fuse_ne_hint (g : Graph) (groups : List (List ℤ)) (e : FusionHintError) : fuse g groups ≠ .error (.hint e) := by
  intro h
  have herror : ∃ op ∈ (emission g groups).newOps,
      rewireOp (emission g groups) op = .error (.hint e) := by
    unfold fuse at h
    cases hmap : (emission g groups).newOps.mapM (rewireOp (emission g groups)) with
    | ok newOps =>
      simp only [hmap] at h
      cases h
    | error e' =>
      simp only [hmap] at h
      cases h
      exact Fallible.exists_of_mapM_eq_error hmap
  obtain ⟨op, -, hop⟩ := herror
  unfold rewireOp at hop
  split at hop
  · cases hop
  split_ifs at hop
  split at hop
  · cases hop
  next deps _ =>
    cases hmap : deps.mapM (remapId (emission g groups).idRemap) with
    | ok ids =>
      simp only [hmap] at hop
      cases hop
    | error e' =>
      simp only [hmap] at hop
      cases hop
      obtain ⟨d, -, hd⟩ := Fallible.exists_of_mapM_eq_error hmap
      unfold remapId at hd
      split at hd <;> cases hd

/-- Fusion refuses a hint or returns the quotient of the graph by the groups, iff

* the hint is empty, and the graph already carries such an `id_remap` for itself; or
* the hint is not empty, and refused; or
* the hint is not empty, and no dispatch outside of the groups carries `fused_from` or depends on
  itself, what a member depends on outside of its group exists, and a group does not depend on two
  members of another one. -/
theorem applyHint_quotient_iff {g : Graph} (hnd : (dispatchIds g.ops).Nodup)
    (fuseGroups : List (List ℤ)) (pairwise : Bool) :
    ((∃ e, applyHint g fuseGroups pairwise = .error (.hint e)) ∨
      ∃ out entries, applyHint g fuseGroups pairwise = .ok out ∧
        QuotientLaw g out (expandGroups (opsById g.ops) pairwise fuseGroups) entries) ↔
    (fuseGroups = [] ∧ ∃ entries, QuotientLaw g g [] entries) ∨
      fuseGroups ≠ [] ∧ ((∃ e, acceptedGroups g.ops fuseGroups pairwise = .error e) ∨
        CleanGroups g (expandGroups (opsById g.ops) pairwise fuseGroups)) := by
  unfold applyHint
  by_cases hempty : fuseGroups = []
  · subst hempty
    have hexpand : expandGroups (opsById g.ops) pairwise [] = [] := by
      cases pairwise <;> rfl
    simp only [if_true, hexpand, reduceCtorEq, exists_false, false_or, Except.ok.injEq, true_and,
      ne_eq, not_true_eq_false, false_and, or_false]
    constructor
    · rintro ⟨out, entries, rfl, law⟩
      exact ⟨entries, law⟩
    · rintro ⟨entries, law⟩
      exact ⟨g, entries, rfl, law⟩
  · rw [if_neg hempty]
    simp only [hempty, false_and, false_or, ne_eq, not_false_eq_true, true_and]
    cases haccepted : acceptedGroups g.ops fuseGroups pairwise with
    | error e => simp
    | ok groups =>
      have hgroups := acceptedGroups_spec haccepted
      obtain ⟨-, rfl, -⟩ := acceptedGroups_eq_ok_iff.mp haccepted
      simp only [reduceCtorEq, exists_false, false_or]
      constructor
      · rintro (⟨e, he⟩ | ⟨out, entries, hout, law⟩)
        · exact absurd he (fuse_ne_hint g _ e)
        · obtain ⟨hwirable, rfl⟩ := (fuse_eq_ok_iff hnd hgroups).mp hout
          exact (quotientLaw_iff hnd hgroups hwirable).mp ⟨entries, law⟩
      · intro hclean
        right
        obtain ⟨entries, law⟩ := (quotientLaw_iff hnd hgroups hclean.toRewirable).mpr hclean
        exact ⟨_, entries, (fuse_eq_ok_iff hnd hgroups).mpr ⟨hclean.toRewirable, rfl⟩, law⟩

/-- A chain of three ops, the first of which has the dependencies `deps`. -/
private def chainGraph (deps : List ℤ) : Graph :=
  { ops := [
      { op := "linear_s8", dispatchId := some 0, dependsOn := deps, inputs := ["x"],
        outputs := ["a"] },
      { op := "elu_s8", dispatchId := some 1, dependsOn := [0], inputs := ["a"], outputs := ["b"] },
      { op := "linear_s8", dispatchId := some 2, dependsOn := [1], inputs := ["b"],
        outputs := ["c"] }]
    modelOutputs := ["c"] }

/-- The first two ops of a chain are fused by the law. -/
theorem applyHint_chainGraph_quotient :
    ∃ out entries, applyHint (chainGraph []) [[0, 1]] false = .ok out ∧
      QuotientLaw (chainGraph []) out [[0, 1]] entries := by
  have hnd : (dispatchIds (chainGraph []).ops).Nodup := by decide
  have hunmarked : ∀ op ∈ (chainGraph []).ops, op.fusedFrom = none := by decide
  have hexisting : ∀ op ∈ (chainGraph []).ops, ∀ dep ∈ op.dependsOn,
      dep ∈ dispatchIds (chainGraph []).ops := by decide
  have hself : ∀ op ∈ (chainGraph []).ops, ∀ dep ∈ op.dependsOn, op.dispatchId ≠ some dep := by
    decide
  have hclean : CleanGroups (chainGraph []) [[0, 1]] := by
    refine ⟨⟨fun op hop _ _ _ => hunmarked op hop, ?_⟩, ?_, by decide⟩
    · exact fun _ _ op hop _ _ _ dep hdep _ => hexisting op hop dep hdep
    · exact fun op hop did hdid _ hdep => hself op hop did hdep hdid
  have haccepted : acceptedGroups (chainGraph []).ops [[0, 1]] false = .ok [[0, 1]] := rfl
  rcases (applyHint_quotient_iff hnd [[0, 1]] false).mpr
    (Or.inr ⟨cons_ne_nil _ _, Or.inr hclean⟩) with ⟨e, he⟩ | hlaw
  · simp only [applyHint, haccepted, cons_ne_nil, if_false] at he
    exact absurd he (fuse_ne_hint _ _ e)
  · exact hlaw

/-- A group whose first member depends on a dispatch that does not exist is accepted, and the
second pass looks that dispatch up. -/
theorem applyHint_dangling_not_quotient :
    applyHint (chainGraph [99]) [[0, 1]] false = .error (.keyError 99) ∧
    ¬((∃ e, applyHint (chainGraph [99]) [[0, 1]] false = .error (.hint e)) ∨
      ∃ out entries, applyHint (chainGraph [99]) [[0, 1]] false = .ok out ∧
        QuotientLaw (chainGraph [99]) out [[0, 1]] entries) := by
  have h : applyHint (chainGraph [99]) [[0, 1]] false = .error (.keyError 99) := rfl
  refine ⟨h, ?_⟩
  rw [h]
  rintro (⟨e, he⟩ | ⟨out, entries, hout, -⟩)
  · cases he
  · cases hout

/-! ## Fusion of contiguous groups -/

/-- The members of a group are `members`, and stand next to each other in the order of the group. -/
structure Contiguous (ops : List GraphOp) (group : List ℤ) (members : List GraphOp) : Prop where
  /-- They stand next to each other. -/
  infix_ops : members <:+: ops
  /-- They are the members. -/
  ids : members.map GraphOp.dispatchId = group.map some

/-- A list of single ops in no group and of whole groups of `ops`. -/
inductive Blocks (ops : List GraphOp) (groups : List (List ℤ)) : List GraphOp → Prop
  /-- No op. -/
  | nil : Blocks ops groups []
  /-- An op in no group, then blocks. -/
  | single {op : GraphOp} {rest : List GraphOp} (hop : op ∈ ops)
      (hnone : ∀ did ∈ op.dispatchId, ∀ group ∈ groups, did ∉ group) (h : Blocks ops groups rest) :
      Blocks ops groups (op :: rest)
  /-- A group, then blocks. -/
  | group {group : List ℤ} {members rest : List GraphOp} (hgroup : group ∈ groups)
      (hmembers : Contiguous ops group members) (h : Blocks ops groups rest) :
      Blocks ops groups (members ++ rest)

/-- The ids of the members are the group. -/
theorem dispatchIds_of_map_eq {members : List GraphOp} {group : List ℤ}
    (h : members.map GraphOp.dispatchId = group.map some) : dispatchIds members = group := by
  have hmap : dispatchIds members = (members.map GraphOp.dispatchId).filterMap id := by
    rw [filterMap_map]
    rfl
  rw [hmap, h, filterMap_map]
  exact filterMap_some

section Blocks

variable {ops : List GraphOp} {groups : List (List ℤ)} (hnd : (dispatchIds ops).Nodup)
  (hgroups : AcceptedGroups (opsById ops) groups)

include hnd hgroups

/-- The rest of a list, in front of which no group is cut, is made of blocks. -/
private theorem blocks_of_aligned
    (hcontiguous : ∀ group ∈ groups, ∃ members, Contiguous ops group members) (n : ℕ) :
    ∀ done rest, rest.length ≤ n → ops = done ++ rest →
      (∀ group ∈ groups, (∀ d ∈ group, d ∈ dispatchIds done) ∨ ∀ d ∈ group, d ∈ dispatchIds rest) →
      Blocks ops groups rest := by
  induction n with
  | zero =>
    intro done rest hlen _ _
    rw [length_eq_zero_iff.mp (Nat.le_zero.mp hlen)]
    exact .nil
  | succ n ih =>
    rintro done (_ | ⟨op, rest⟩) hlen hops haligned
    · exact .nil
    have hdisjoint : ∀ d, d ∈ dispatchIds done → d ∉ dispatchIds (op :: rest) := by
      rw [hops, dispatchIds_append] at hnd
      exact fun d hd hd' => disjoint_of_nodup_append hnd hd hd'
    by_cases hnone : ∀ did ∈ op.dispatchId, ∀ group ∈ groups, did ∉ group
    · -- No group is cut behind an op in no group.
      refine .single (by simp [hops]) hnone (ih (done ++ [op]) rest (by simpa using hlen) (by simp [hops]) ?_)
      intro group hgroup
      rcases haligned group hgroup with hin | hin
      · left
        intro d hd
        rw [dispatchIds_append]
        exact mem_append_left _ (hin d hd)
      · right
        intro d hd
        obtain ⟨member, hmember, hid⟩ := mem_filterMap.mp (hin d hd)
        rcases mem_cons.mp hmember with rfl | hmember
        · exact absurd hd (hnone d hid group hgroup)
        · exact mem_filterMap.mpr ⟨member, hmember, hid⟩
    · push Not at hnone
      obtain ⟨did, hdid, group, hgroup, hmem⟩ := hnone
      obtain ⟨members, hmembers'⟩ := hcontiguous group hgroup
      obtain ⟨pre, post, hinfix⟩ := hmembers'.infix_ops
      have hids := hmembers'.ids
      have hmembers := dispatchIds_of_map_eq hids
      have hdid' : did ∈ dispatchIds (op :: rest) := mem_filterMap.mpr ⟨op, mem_cons_self, hdid⟩
      have hin : ∀ d ∈ group, d ∈ dispatchIds (op :: rest) :=
        (haligned group hgroup).resolve_left fun h => hdisjoint did (h did hmem) hdid'
      have hsplit : done ++ op :: rest = pre ++ (members ++ post) := by
        rw [← hops, ← hinfix, append_assoc]
      have hpost : op :: rest = members ++ post := by
        rcases append_eq_append_iff.mp hsplit with ⟨mid, rfl, heq⟩ | ⟨mid, rfl, heq⟩
        · cases mid with
          | nil => exact heq
          | cons x mid =>
            -- Otherwise the member stands in front of its group.
            obtain ⟨rfl, -⟩ := cons_eq_cons.mp heq
            rw [← hinfix, dispatchIds_append, dispatchIds_append, hmembers, append_assoc] at hnd
            refine absurd (mem_append_left _ hmem) (disjoint_of_nodup_append hnd ?_)
            exact mem_filterMap.mpr ⟨op, by simp, hdid⟩
        · cases mid with
          | nil => exact heq.symm
          | cons x mid =>
            -- Otherwise the group is cut.
            cases members with
            | nil => simp [dispatchIds, ← hmembers] at hmem
            | cons m ms =>
              obtain ⟨rfl, -⟩ := cons_eq_cons.mp heq
              obtain ⟨d, hd⟩ : ∃ d, m.dispatchId = some d := by
                cases group with
                | nil => cases hmem
                | cons d group => exact ⟨d, (cons_eq_cons.mp hids).1⟩
              have hdmem : d ∈ dispatchIds (m :: ms) := mem_filterMap.mpr ⟨m, mem_cons_self, hd⟩
              refine absurd (hin d (hmembers ▸ hdmem)) (hdisjoint d ?_)
              exact mem_filterMap.mpr ⟨m, by simp, hd⟩
      rw [hpost]
      refine .group hgroup hmembers' (ih (done ++ members) post ?_ ?_ ?_)
      · have hlen' := congrArg List.length hpost
        rw [length_append] at hlen'
        have hpos : 0 < members.length := by
          cases members with
          | nil => simp [dispatchIds, ← hmembers] at hmem
          | cons => simp
        omega
      · rw [hops, hpost, append_assoc]
      · intro other hother
        rw [dispatchIds_append, hmembers]
        by_cases heq : other = group
        · exact Or.inl fun d hd => mem_append_right _ (heq ▸ hd)
        · rcases haligned other hother with hin' | hin'
          · exact Or.inl fun d hd => mem_append_left _ (hin' d hd)
          · right
            intro d hd
            have hd' := hin' d hd
            rw [hpost, dispatchIds_append, hmembers] at hd'
            refine (mem_append.mp hd').resolve_left fun hd'' => ?_
            exact heq (hgroups.eq_of_mem hother hgroup hd hd'')

/-- Contiguous groups cut the list into blocks. -/
theorem blocks_of_contiguous
    (hcontiguous : ∀ group ∈ groups, ∃ members, Contiguous ops group members) :
    Blocks ops groups ops := by
  apply blocks_of_aligned hnd hgroups hcontiguous ops.length [] ops le_rfl rfl
  exact fun group hgroup => Or.inr fun d hd => hgroups.mem_dispatchIds hgroup hd

omit hgroups in
/-- The members that are looked up are those that stand there. -/
theorem membersOf_of_contiguous {group : List ℤ} {members : List GraphOp}
    (h : Contiguous ops group members) : membersOf (opsById ops) group = members := by
  have hsub : ∀ m ∈ members, m ∈ ops := fun m hm => h.infix_ops.subset hm
  have hids := h.ids
  clear h
  unfold membersOf
  induction group generalizing members with
  | nil =>
    rw [map_nil, map_eq_nil_iff] at hids
    rw [hids]
    rfl
  | cons d group ih =>
    cases members with
    | nil => simp at hids
    | cons m ms =>
      obtain ⟨hm, hms⟩ := cons_eq_cons.mp hids
      have hget := (get?_opsById_iff hnd).mpr ⟨hsub m mem_cons_self, hm⟩
      rw [filterMap_cons_some hget, ih (fun x hx => hsub x (mem_cons_of_mem m hx)) hms]

end Blocks

/-! ### What becomes of a block -/

section FusedBlock

variable {g : Graph} {groups : List (List ℤ)}
  (hgroups : AcceptedGroups (opsById g.ops) groups)

include hgroups

/-- A dispatch in no group is kept. -/
theorem fusedGraphOp_single {op : GraphOp} {did : ℤ} (hid : op.dispatchId = some did)
    (hnone : ∀ group ∈ groups, did ∉ group) : ∃ deps, fusedGraphOp g groups op =
      some { op with dispatchId := some (newId groups g.ops did : ℤ), dependsOn := deps } := by
  have hget := (groupForId_eq_none_iff hgroups).mpr hnone
  simp only [fusedGraphOp, hid, slotHead_of_notMem hgroups hnone, if_true, hget]
  exact ⟨_, rfl⟩

variable (hordered : (dispatchIds g.ops).Pairwise (· < ·)) {group : List ℤ}
  (hgroup : group ∈ groups)

include hordered hgroup

/-- The first member heads its group, and the others do not. -/
private theorem slotHead_of_contiguous {m : GraphOp} {ms : List GraphOp}
    (hmembers : Contiguous g.ops group (m :: ms)) :
    ∃ d, m.dispatchId = some d ∧ d ∈ group ∧ slotHead groups d = d ∧
      ∀ x ∈ ms, ∃ e ∈ group, x.dispatchId = some e ∧ slotHead groups e ≠ e := by
  have hids := dispatchIds_of_map_eq hmembers.ids
  have hsorted : group.Pairwise (· < ·) := by
    rw [← hids]
    exact hordered.sublist (hmembers.infix_ops.sublist.filterMap _)
  cases group with
  | nil => exact absurd rfl (hgroups.valid [] hgroup).nonempty
  | cons d rest =>
    have hmin : (d :: rest).min? = some d := by
      rw [min?_eq_some_iff]
      refine ⟨mem_cons_self, fun e he => ?_⟩
      rcases mem_cons.mp he with rfl | he
      · exact le_rfl
      · exact le_of_lt ((pairwise_cons.mp hsorted).1 e he)
    have hslot : ∀ e ∈ d :: rest, slotHead groups e = d := by
      intro e he
      have := min?_eq_slotHead hgroups hgroup he
      rw [hmin] at this
      exact (Option.some.inj this).symm
    obtain ⟨hm, hms⟩ := cons_eq_cons.mp hmembers.ids
    refine ⟨d, hm, mem_cons_self, hslot d mem_cons_self, fun x hx => ?_⟩
    have hx' : x.dispatchId ∈ ms.map GraphOp.dispatchId := mem_map_of_mem hx
    rw [hms, mem_map] at hx'
    obtain ⟨e, he, hxe⟩ := hx'
    refine ⟨e, mem_cons_of_mem d he, hxe.symm, ?_⟩
    rw [hslot e (mem_cons_of_mem d he)]
    exact ((pairwise_cons.mp hsorted).1 e he).ne

/-- A group becomes one op. -/
theorem filterMap_fusedGraphOp_group {members : List GraphOp}
    (hmembers : Contiguous g.ops group members) : ∃ n deps,
    members.filterMap (fusedGraphOp g groups) =
      [{ buildFusedOp members group g.name g.ops g.modelOutputs with
        dispatchId := some n, dependsOn := deps }] := by
  cases members with
  | nil =>
    have hids := hmembers.ids
    rw [map_nil, eq_comm, map_eq_nil_iff] at hids
    exact absurd hids (hgroups.valid group hgroup).nonempty
  | cons m ms =>
    obtain ⟨d, hd, hmem, hhead, htail⟩ :=
      slotHead_of_contiguous hgroups hordered hgroup hmembers
    have hget := (groupForId_eq_some_iff hgroups).mpr ⟨hgroup, hmem⟩
    have hnd : (dispatchIds g.ops).Nodup := hordered.imp fun h => h.ne
    have hm : ∃ n deps, fusedGraphOp g groups m =
        some { buildFusedOp (m :: ms) group g.name g.ops g.modelOutputs with
          dispatchId := some n, dependsOn := deps } := by
      simp only [fusedGraphOp, hd, hhead, if_true, hget, membersOf_of_contiguous hnd hmembers]
      exact ⟨_, _, rfl⟩
    have hms : ms.filterMap (fusedGraphOp g groups) = [] := by
      rw [filterMap_eq_nil_iff]
      intro x hx
      obtain ⟨e, -, he, hne⟩ := htail x hx
      simp only [fusedGraphOp, he, hne, if_false]
    obtain ⟨n, deps, hm⟩ := hm
    exact ⟨n, deps, by rw [filterMap_cons_some hm, hms]⟩

end FusedBlock

/-! ## Cycles and order after fusion -/

open Relation

/-- A member of `H` depends, directly or not, on a member of `G`. -/
def GroupBefore (byId : PyDict ℤ GraphOp) (groups : List (List ℤ)) (G H : List ℤ) : Prop :=
  G ∈ groups ∧ H ∈ groups ∧ G ≠ H ∧ ∃ a ∈ G, ∃ b ∈ H, TransGen (DependencyOf byId) a b

section Order

variable {g : Graph} {groups : List (List ℤ)} (hnd : (dispatchIds g.ops).Nodup)
  (hearlier : DependenciesEarlier g.ops)

include hnd hearlier

/-- A dependency is listed before its dependent. -/
theorem idxOf_lt_of_dependencyOf {a b : ℤ} (h : DependencyOf (opsById g.ops) a b) :
    (dispatchIds g.ops).idxOf a < (dispatchIds g.ops).idxOf b := by
  obtain ⟨-, op, hin, hid, hdep⟩ := (dependencyOf_opsById_iff hnd).mp h
  obtain ⟨pre, post, hops⟩ := append_of_mem hin
  have ha : a ∈ dispatchIds pre := (hops ▸ hearlier).mem (by simp [hid]) hdep
  have hids : dispatchIds g.ops = dispatchIds pre ++ b :: dispatchIds post := by
    rw [hops, dispatchIds, filterMap_append, filterMap_cons_some hid]
    rfl
  have hb : b ∉ dispatchIds pre := by
    rw [hids] at hnd
    exact fun hmem => disjoint_of_nodup_append hnd hmem mem_cons_self
  rw [hids, idxOf_append_of_mem ha, idxOf_append_of_notMem hb]
  have := idxOf_lt_length_of_mem ha
  omega

/-- An ordered graph has no cycle. -/
theorem acyclic_dependencyOf (a : ℤ) : ¬TransGen (DependencyOf (opsById g.ops)) a a :=
  EdgeList.acyclic_of_rank (dispatchIds g.ops).idxOf
    (fun _ _ h => idxOf_lt_of_dependencyOf hnd hearlier h) a

variable (hgroups : AcceptedGroups (opsById g.ops) groups)

include hgroups

/-- The edges of the graph that is returned are those of the contraction, renumbered. -/
private theorem dependencyEdges_fusedGraph_iff (hwirable : Rewirable g groups) {k n : ℤ} :
    (k, n) ∈ dependencyEdges (fusedGraph g groups).ops ↔
      ∃ x y, Contraction.Edge (DependencyOf (opsById g.ops)) (slotHead groups) x y ∧
        ((slotHeads groups g.ops).idxOf x : ℤ) = k ∧ ((slotHeads groups g.ops).idxOf y : ℤ) = n := by
  rw [mem_dependencyEdges]
  constructor
  · rintro ⟨out, hout, hid, hdep⟩
    obtain ⟨op, hin, hop⟩ := mem_filterMap.mp hout
    rcases fusedGraphOp_eq_some hop with ⟨hnone, rfl⟩ | ⟨did, hdid, hhead, hid'⟩
    · rw [hid] at hnone
      cases hnone
    · rw [hid, Option.some.injEq] at hid'
      obtain ⟨a, b, hab, hslot, hnot, rfl⟩ :=
        (mem_dependsOn_fusedGraphOp hnd hgroups hwirable hin hop hdid k).mp hdep
      refine ⟨slotHead groups a, slotHead groups b, ⟨?_, a, b, rfl, rfl, hab⟩, rfl, ?_⟩
      · intro heq
        rcases (slotHead_eq_iff hgroups).mp heq with rfl | hsame
        · exact acyclic_dependencyOf hnd hearlier a (.single hab)
        · exact hnot hsame
      · rw [hid', newId, hslot]
  · rintro ⟨_, _, ⟨hne, a, b, rfl, rfl, hab⟩, rfl, rfl⟩
    obtain ⟨-, member, hmember, hb, -⟩ := (dependencyOf_opsById_iff hnd).mp hab
    have hslot : slotHead groups b ∈ slotHeads groups g.ops :=
      (slotHead_mem_slotHeads_iff hgroups).mpr (mem_filterMap.mpr ⟨member, hmember, hb⟩)
    obtain ⟨op, hin, hop⟩ := mem_filterMap.mp (mem_slotHeads.mp hslot).1
    obtain ⟨out, hout⟩ := exists_fusedGraphOp (g := g) hop (slotHead_slotHead hgroups b)
    refine ⟨out, mem_filterMap.mpr ⟨op, hin, hout⟩, ?_, ?_⟩
    · rcases fusedGraphOp_eq_some hout with ⟨hnone, -⟩ | ⟨did, hdid, -, hid⟩
      · rw [hop] at hnone
        cases hnone
      · rw [hop, Option.some.injEq] at hdid
        rw [hid, ← hdid, newId, slotHead_slotHead hgroups]
    · refine (mem_dependsOn_fusedGraphOp hnd hgroups hwirable hin hout hop _).mpr
        ⟨a, b, hab, (slotHead_slotHead hgroups b).symm, fun hsame => ?_, rfl⟩
      exact hne ((slotHead_eq_iff hgroups).mpr (Or.inr hsame))

/-- The contraction of checked groups is acyclic iff no circle goes through groups. -/
private theorem acyclic_contraction_iff :
    (∀ x, ¬TransGen (Contraction.Edge (DependencyOf (opsById g.ops)) (slotHead groups)) x x) ↔
      ∀ G, ¬TransGen (GroupBefore (opsById g.ops) groups) G G := by
  let isGroup : ℤ → Prop := fun x => ∃ G ∈ groups, G.min? = some x
  have hmem : ∀ {G a x}, G ∈ groups → G.min? = some x → slotHead groups a = x → a ∈ G := by
    intro G a x hG hmin hslot
    have hx := min?_mem hmin
    have hself : slotHead groups x = x :=
      Option.some.inj ((min?_eq_slotHead hgroups hG hx).symm.trans hmin)
    rcases (slotHead_eq_iff hgroups).mp (hslot.trans hself.symm) with rfl | ⟨G', hG', ha, hx'⟩
    · exact hx
    · exact hgroups.eq_of_mem hG' hG hx' hx ▸ ha
  have hsingle : ∀ a b, slotHead groups a = slotHead groups b → ¬isGroup (slotHead groups a) →
      a = b := by
    intro a b heq hnot
    rcases (slotHead_eq_iff hgroups).mp heq with rfl | ⟨G, hG, ha, -⟩
    · rfl
    · exact absurd ⟨G, hG, min?_eq_slotHead hgroups hG ha⟩ hnot
  have hclosed : ∀ a b c, slotHead groups a = slotHead groups b → isGroup (slotHead groups a) →
      TransGen (DependencyOf (opsById g.ops)) a c → TransGen (DependencyOf (opsById g.ops)) c b →
        slotHead groups c = slotHead groups a := by
    intro a b c heq _ hac hcb
    rcases (slotHead_eq_iff hgroups).mp heq with rfl | ⟨G, hG, ha, hb⟩
    · exact absurd (hac.trans hcb) (acyclic_dependencyOf hnd hearlier a)
    · have hc := (hgroups.valid G hG).closed a ha b hb c hac hcb
      exact (slotHead_eq_iff hgroups).mpr (Or.inr ⟨G, hG, hc, ha⟩)
  rw [Contraction.acyclic_iff hsingle hclosed (acyclic_dependencyOf hnd hearlier)]
  -- A group is named by its smallest member.
  have hname : ∀ {G}, G ∈ groups → ∃ m, G.min? = some m ∧ G.min?.getD 0 = m := by
    intro G hG
    cases hmin : G.min? with
    | none => exact absurd (min?_eq_none_iff.mp hmin) (hgroups.valid G hG).nonempty
    | some m => exact ⟨m, rfl, rfl⟩
  apply Contraction.acyclic_image_iff (f := fun G : List ℤ => G.min?.getD 0)
  · intro x y
    constructor
    · rintro ⟨⟨G, hG, hx⟩, ⟨H, hH, hy⟩, hne, a, b, ha, hb, hab⟩
      refine ⟨G, H, ⟨hG, hH, ?_, a, hmem hG hx ha, b, hmem hH hy hb, hab⟩, by simp [hx], by simp [hy]⟩
      rintro rfl
      exact hne (Option.some.inj (hx.symm.trans hy))
    · rintro ⟨G, H, ⟨hG, hH, hne, a, ha, b, hb, hab⟩, rfl, rfl⟩
      obtain ⟨x, hx, hx'⟩ := hname hG
      obtain ⟨y, hy, hy'⟩ := hname hH
      have ha' := Option.some.inj ((min?_eq_slotHead hgroups hG ha).symm.trans hx)
      have hb' := Option.some.inj ((min?_eq_slotHead hgroups hH hb).symm.trans hy)
      simp only [hx', hy']
      refine ⟨⟨G, hG, hx⟩, ⟨H, hH, hy⟩, ?_, a, b, ha', hb', hab⟩
      rintro rfl
      exact hne (hgroups.eq_of_mem hG hH (min?_mem hx) (min?_mem hy))
  · rintro G H G' H' ⟨-, hH, -⟩ ⟨hG', -⟩ heq
    obtain ⟨x, hx, hx'⟩ := hname hH
    obtain ⟨y, hy, hy'⟩ := hname hG'
    simp only [hx', hy'] at heq
    exact hgroups.eq_of_mem hH hG' (min?_mem hx) (heq ▸ min?_mem hy)

/-- The cycles of the graph that is returned are the circles of groups. -/
private theorem acyclic_fusedGraph_iff (hwirable : Rewirable g groups) :
    EdgeList.Acyclic (dependencyEdges (fusedGraph g groups).ops) ↔
      ∀ G, ¬TransGen (GroupBefore (opsById g.ops) groups) G G := by
  rw [← acyclic_contraction_iff hnd hearlier hgroups]
  have hends : ∀ {x y}, Contraction.Edge (DependencyOf (opsById g.ops)) (slotHead groups) x y →
      x ∈ slotHeads groups g.ops ∧ y ∈ slotHeads groups g.ops := by
    rintro _ _ ⟨-, a, b, rfl, rfl, hab⟩
    obtain ⟨ha, member, hmember, hb, -⟩ := (dependencyOf_opsById_iff hnd).mp hab
    exact ⟨(slotHead_mem_slotHeads_iff hgroups).mpr ha,
      (slotHead_mem_slotHeads_iff hgroups).mpr (mem_filterMap.mpr ⟨member, hmember, hb⟩)⟩
  apply Contraction.acyclic_image_iff (f := fun x => ((slotHeads groups g.ops).idxOf x : ℤ))
  · exact fun k n => dependencyEdges_fusedGraph_iff hnd hearlier hgroups hwirable
  · intro x y z w hxy hzw heq
    exact (idxOf_inj (hends hxy).2).mp (Int.ofNat_inj.mp heq)

omit hnd hearlier in
/-- The new ids of dispatches are ordered as their slots in the list. -/
private theorem newId_lt_iff {a b : ℤ} :
    newId groups g.ops a < newId groups g.ops b ↔
      (dispatchIds g.ops).idxOf (slotHead groups a) <
        (dispatchIds g.ops).idxOf (slotHead groups b) :=
  PyList.idxOf_filter_lt_iff (by simp [slotHead_slotHead hgroups])
    (by simp [slotHead_slotHead hgroups])

/-- The list that is returned is in order iff slots are. -/
private theorem dependenciesSmaller_fusedGraph_iff (hwirable : Rewirable g groups) :
    DependenciesSmaller (fusedGraph g groups).ops ↔
      ∀ a b, DependencyOf (opsById g.ops) a b → (¬∃ group ∈ groups, a ∈ group ∧ b ∈ group) →
        (dispatchIds g.ops).idxOf (slotHead groups a) <
          (dispatchIds g.ops).idxOf (slotHead groups b) := by
  have hsmaller : DependenciesSmaller (fusedGraph g groups).ops ↔
      ∀ k n, (k, n) ∈ dependencyEdges (fusedGraph g groups).ops → k < n := by
    simp only [mem_dependencyEdges]
    constructor
    · rintro h k n ⟨op, hop, hid, hdep⟩
      exact h op hop n hid k hdep
    · exact fun h op hop n hid k hdep => h k n ⟨op, hop, hid, hdep⟩
  simp only [hsmaller, dependencyEdges_fusedGraph_iff hnd hearlier hgroups hwirable]
  constructor
  · intro h a b hab hnot
    rw [← newId_lt_iff hgroups]
    apply Int.ofNat_lt.mp
    refine h _ _ ⟨slotHead groups a, slotHead groups b, ⟨?_, a, b, rfl, rfl, hab⟩, rfl, rfl⟩
    intro heq
    rcases (slotHead_eq_iff hgroups).mp heq with rfl | hsame
    · exact acyclic_dependencyOf hnd hearlier a (.single hab)
    · exact hnot hsame
  · rintro h k n ⟨_, _, ⟨hne, a, b, rfl, rfl, hab⟩, rfl, rfl⟩
    apply Int.ofNat_lt.mpr
    apply (newId_lt_iff hgroups).mpr
    exact h a b hab fun hsame => hne ((slotHead_eq_iff hgroups).mpr (Or.inr hsame))

end Order

section Hints

variable {g : Graph} (hnd : (dispatchIds g.ops).Nodup) {fuseGroups : List (List ℤ)}
  {pairwise : Bool}

include hnd in
/-- What an accepted hint returns. -/
theorem applyHint_eq_ok {out : Graph} (hout : applyHint g fuseGroups pairwise = .ok out) :
    fuseGroups = [] ∧ out = g ∨
      AcceptedGroups (opsById g.ops) (expandGroups (opsById g.ops) pairwise fuseGroups) ∧
        Rewirable g (expandGroups (opsById g.ops) pairwise fuseGroups) ∧
        out = fusedGraph g (expandGroups (opsById g.ops) pairwise fuseGroups) := by
  unfold applyHint at hout
  split_ifs at hout with hempty
  · cases hout
    exact Or.inl ⟨hempty, rfl⟩
  · split at hout
    · cases hout
    next groups haccepted =>
      have hgroups := acceptedGroups_spec haccepted
      obtain ⟨-, rfl, -⟩ := acceptedGroups_eq_ok_iff.mp haccepted
      obtain ⟨hwirable, rfl⟩ := (fuse_eq_ok_iff hnd hgroups).mp hout
      exact Or.inr ⟨hgroups, hwirable, rfl⟩

end Hints

/-- The graph that fusion returns for an ordered graph is acyclic iff no group depends on itself
through other groups. -/
theorem applyHint_acyclic_iff {g : Graph} (hnd : (dispatchIds g.ops).Nodup)
    (hearlier : DependenciesEarlier g.ops) {fuseGroups : List (List ℤ)} {pairwise : Bool}
    {out : Graph} (hout : applyHint g fuseGroups pairwise = .ok out) :
    EdgeList.Acyclic (dependencyEdges out.ops) ↔
      ∀ G, ¬TransGen
        (GroupBefore (opsById g.ops) (expandGroups (opsById g.ops) pairwise fuseGroups)) G G := by
  rcases applyHint_eq_ok hnd hout with ⟨rfl, rfl⟩ | ⟨hgroups, hwirable, rfl⟩
  · -- The graph is left as it is, and no dependency dangles.
    rw [expandGroups_nil]
    refine iff_of_true ?_ ?_
    · apply EdgeList.acyclic_of_rank (dispatchIds out.ops).idxOf
      intro a b hab
      obtain ⟨op, hop, hid, hdep⟩ := mem_dependencyEdges.mp hab
      apply idxOf_lt_of_dependencyOf hnd hearlier
      refine (dependencyOf_opsById_iff hnd).mpr ⟨?_, op, hop, hid, hdep⟩
      obtain ⟨pre, post, hops⟩ := append_of_mem hop
      have ha := (hops ▸ hearlier).mem (by simp [hid]) hdep
      rw [hops, dispatchIds, filterMap_append]
      exact mem_append_left _ ha
    · intro G hcycle
      obtain ⟨H, hstep, -⟩ := TransGen.head'_iff.mp hcycle
      exact not_mem_nil hstep.1
  · exact acyclic_fusedGraph_iff hnd hearlier hgroups hwirable

/-- The list that fusion returns for an ordered graph is in order iff whatever an op depends on
outside of its group has its slot before the slot of the op: the slot of a member of a group is
that of the member with the smallest id. -/
theorem applyHint_dependenciesSmaller_iff {g : Graph} (hnd : (dispatchIds g.ops).Nodup)
    (hearlier : DependenciesEarlier g.ops) (hsmaller : DependenciesSmaller g.ops)
    {fuseGroups : List (List ℤ)} {pairwise : Bool} {out : Graph}
    (hout : applyHint g fuseGroups pairwise = .ok out) :
    let groups := expandGroups (opsById g.ops) pairwise fuseGroups
    DependenciesSmaller out.ops ↔
      ∀ a b, DependencyOf (opsById g.ops) a b → (¬∃ group ∈ groups, a ∈ group ∧ b ∈ group) →
        (dispatchIds g.ops).idxOf (slotHead groups a) <
          (dispatchIds g.ops).idxOf (slotHead groups b) := by
  intro groups
  rcases applyHint_eq_ok hnd hout with ⟨rfl, rfl⟩ | ⟨hgroups, hwirable, rfl⟩
  · have hslot : ∀ d, slotHead groups d = d := by
      intro d
      simp only [groups, expandGroups_nil]
      rfl
    refine iff_of_true hsmaller fun a b hab _ => ?_
    rw [hslot, hslot]
    exact idxOf_lt_of_dependencyOf hnd hearlier hab
  · exact dependenciesSmaller_fusedGraph_iff hnd hearlier hgroups hwirable

/-- Ops `0` and `1`, and ops `2` and `3`, with an edge from the first to the second. -/
private def twoEdges : Graph :=
  { ops := [
      { op := "linear_s8", dispatchId := some 0, inputs := ["x"], outputs := ["a"] },
      { op := "elu_s8", dispatchId := some 1, dependsOn := [0], inputs := ["a"], outputs := ["b"] },
      { op := "linear_s8", dispatchId := some 2, inputs := ["x"], outputs := ["c"] },
      { op := "elu_s8", dispatchId := some 3, dependsOn := [2], inputs := ["c"], outputs := ["d"] }]
    modelOutputs := ["b", "d"] }

/-- Dispatch ids are distinct, and the list is in order. -/
private theorem twoEdges_ordered : (dispatchIds twoEdges.ops).Nodup ∧
    DependenciesEarlier twoEdges.ops ∧ DependenciesSmaller twoEdges.ops := by decide

/-- With one pair of ops fused there is no cycle. -/
theorem applyHint_twoEdges_acyclic : ∃ out, applyHint twoEdges [[0, 1]] false = .ok out ∧
    EdgeList.Acyclic (dependencyEdges out.ops) := by
  have hout : applyHint twoEdges [[0, 1]] false = .ok (fusedGraph twoEdges [[0, 1]]) := rfl
  obtain ⟨hnd, hearlier, -⟩ := twoEdges_ordered
  refine ⟨_, hout, (applyHint_acyclic_iff hnd hearlier hout).mpr ?_⟩
  -- There is no second group.
  intro G hcycle
  obtain ⟨H, ⟨hG, hH, hne, -⟩, -⟩ := TransGen.head'_iff.mp hcycle
  exact hne ((mem_singleton.mp hG).trans (mem_singleton.mp hH).symm)

/-- Each of two groups depends on the other, though none traps an op. -/
theorem applyHint_twoEdges_cyclic : ∃ out, applyHint twoEdges [[0, 3], [1, 2]] false = .ok out ∧
    ¬EdgeList.Acyclic (dependencyEdges out.ops) := by
  refine ⟨fusedGraph twoEdges [[0, 3], [1, 2]], rfl, fun hacyclic => hacyclic 0 ?_⟩
  have hedges : ∀ e ∈ [(0, 1), (1, 0)],
      e ∈ dependencyEdges (fusedGraph twoEdges [[0, 3], [1, 2]]).ops := by decide
  exact (TransGen.single (hedges (0, 1) (by simp))).tail (hedges (1, 0) (by simp))

/-- With one pair of ops fused the list is in order. -/
theorem applyHint_twoEdges_smaller : ∃ out, applyHint twoEdges [[0, 1]] false = .ok out ∧
    DependenciesSmaller out.ops := by
  have hout : applyHint twoEdges [[0, 1]] false = .ok (fusedGraph twoEdges [[0, 1]]) := rfl
  obtain ⟨hnd, hearlier, hsmaller⟩ := twoEdges_ordered
  refine ⟨_, hout, (applyHint_dependenciesSmaller_iff hnd hearlier hsmaller hout).mpr ?_⟩
  have hedge : ∀ e ∈ depEdges (opsById twoEdges.ops), (¬∃ group ∈ [[0, 1]], e.1 ∈ group ∧
      e.2 ∈ group) → (dispatchIds twoEdges.ops).idxOf (slotHead [[0, 1]] e.1) <
        (dispatchIds twoEdges.ops).idxOf (slotHead [[0, 1]] e.2) := by decide
  exact fun a b hab => hedge (a, b) hab

/-- A group whose last member depends on an op behind its slot is listed before that op, though
there is no cycle. -/
theorem applyHint_twoEdges_not_smaller : ∃ out, applyHint twoEdges [[0, 3]] false = .ok out ∧
    EdgeList.Acyclic (dependencyEdges out.ops) ∧ ¬DependenciesSmaller out.ops := by
  refine ⟨fusedGraph twoEdges [[0, 3]], rfl, ?_, by decide⟩
  apply EdgeList.acyclic_of_rank fun n : ℤ => if n = 2 then 0 else if n = 0 then 1 else 2
  have hedge : ∀ e ∈ dependencyEdges (fusedGraph twoEdges [[0, 3]]).ops,
      (if e.1 = 2 then 0 else if e.1 = 0 then 1 else 2) <
        (if e.2 = 2 then 0 else if e.2 = 0 then 1 else 2) := by decide
  exact fun a b hab => hedge (a, b) hab

end ModelBlaster
