import ModelBlaster.Cache.KernelCache

/-!
# Sources are used on their guards

A source of a plan is safe if entries of its file have been verified on the shapes of all instances
that call it. The plans are safe but for two cases: a slot that has the name of a group of a split,
and stages of one kind that differ in their shapes.

## Main definitions

* `OneEntryPerSlot`: the slots of a graph belong to C entries;
* `Guarded`: a safe plan;
* `PlanEnv.Clear`: neither case arises.

## Main results

* `PlanEnv.guarded_iff_clear`: a plan is safe if and only if neither case arises.
-/

namespace ModelBlaster.KernelCache

open PyList List Fallible PyDict

variable {σ : Type} {E : PlanEnv σ}

/-! ### Safe plans -/

/-- The kinds of the stages of an op. -/
def stageKinds (o : PlanOp σ) : Option (List String) :=
  o.rest.subOps.map fun stages => stages.map Prod.fst

/-- A slot belongs to one C entry, whatever the variants of the ops are. -/
def OneEntryPerSlot (specs : String → Option KernelSig) (ops : List (PlanOp σ)) : Prop :=
  ∀ o ∈ ops, ∀ o' ∈ ops, ∀ (v v' : Option String) (sid : String),
    slotOf specs { o with volatile := v } = some sid →
      slotOf specs { o' with volatile := v' } = some sid →
        specs o.rest.kind = specs o'.rest.kind ∧ stageKinds o = stageKinds o'

/-- Every source serves the instances and the stages that call it, and a group with a source is the
slot that is made for it. -/
structure Guarded (E : PlanEnv σ) (plan : CachePlan σ) : Prop where
  slots : ∀ sid source, plan.sources.get? sid = some source →
    ∀ o ∈ instancesOf E.specs plan.ops sid, ∀ sig, E.specs o.rest.kind = some sig →
      E.Serves sig source.file (ownKey E.hashes o)
  stages : ∀ sid seeds kind seed, plan.subSources.get? (some sid) = some seeds →
    seeds.get? kind = some seed → ∀ o ∈ instancesOf E.specs plan.ops sid,
      ∀ stages, o.rest.subOps = some stages → ∀ stage ∈ stages, stage.1 = kind →
        ∀ sig, E.specs kind = some sig → E.Serves sig seed.file (E.hashes.shapeKey stage.2)
  groups : ∀ hint ∈ plan.hints, ∀ (k : ℕ) (group : SplitGroup), hint.groups[k]? = some group →
    group.asSlot = true → variantSlot hint.slot k ∈ plan.sources.keys ∧ group.ops ≠ [] ∧
      ∀ o ∈ plan.ops, calledSlot E.specs o = some (variantSlot hint.slot k) ↔ o.name ∈ group.ops

/-! ### Seeds -/

/-- The entry for the last stage of a kind that has one. -/
def PlanEnv.SeedOf (E : PlanEnv σ) (mine : List (PlanOp σ)) (stages : List (String × ℕ))
    (kind : String) (ie : ℕ × CacheEntry) : Prop :=
  ∃ pre x post, stages = pre ++ x :: post ∧ x.1 = kind ∧
    E.stageEntry mine kind x.2 = .ok (some ie) ∧
      ∀ y ∈ post, y.1 = kind → E.stageEntry mine kind y.2 = .ok none

variable {mine : List (PlanOp σ)} {kind : String} {stages : List (String × ℕ)} {ie : ℕ × CacheEntry}
  {seeds : PyDict String StageSeed} {seed : StageSeed} {graphOps : List (PlanOp σ)}
  {plan : CachePlan σ}

theorem PlanEnv.seedOf_append_single {x : String × ℕ} :
    E.SeedOf mine (stages ++ [x]) kind ie ↔
      x.1 = kind ∧ E.stageEntry mine kind x.2 = .ok (some ie) ∨
        E.SeedOf mine stages kind ie ∧ (x.1 = kind → E.stageEntry mine kind x.2 = .ok none) := by
  constructor
  · rintro ⟨pre, y, post, hsplit, hkind, hentry, hlater⟩
    rcases eq_nil_or_concat post with rfl | ⟨post', z, rfl⟩
    · obtain ⟨-, heq⟩ := append_inj' hsplit rfl
      obtain rfl : x = y := singleton_inj.mp heq
      exact .inl ⟨hkind, hentry⟩
    · rw [concat_eq_append, ← cons_append, ← append_assoc] at hsplit
      obtain ⟨hstages, heq⟩ := append_inj' hsplit rfl
      obtain rfl : x = z := singleton_inj.mp heq
      refine .inr ⟨⟨pre, y, post', hstages, hkind, hentry, fun u hu => ?_⟩, ?_⟩
      · exact hlater u (by rw [concat_eq_append]; exact mem_append_left _ hu)
      · exact hlater x (by rw [concat_eq_append]; exact mem_append_right _ (by simp))
  · rintro (⟨hkind, hentry⟩ | ⟨⟨pre, y, post, rfl, hkind, hentry, hlater⟩, hlast⟩)
    · exact ⟨stages, x, [], rfl, hkind, hentry, fun y hy => by cases hy⟩
    · refine ⟨pre, y, post ++ [x], by simp, hkind, hentry, fun u hu => ?_⟩
      rcases mem_append.mp hu with hold | hnew
      · exact hlater u hold
      · rw [mem_singleton.mp hnew]
        exact hlast

/-- The seeds of a fused slot. -/
theorem PlanEnv.get?_seeds_iff (h : stages.foldlM (E.addSeed mine) PyDict.empty = .ok seeds) :
    seeds.get? kind = some seed ↔
      ∃ ie, E.SeedOf mine stages kind ie ∧ seed = ⟨ie.2.file, ie.1⟩ := by
  have hrun := foldlM_induction (P := fun done seeds => ∀ kind seed, seeds.get? kind = some seed ↔
      ∃ ie, E.SeedOf mine done kind ie ∧ seed = ⟨ie.2.file, ie.1⟩) ?_ ?_ h
  · exact hrun kind seed
  · intro done x seeds seeds' ih hstep kind seed
    obtain ⟨entry, hentry, hstep⟩ := bind_eq_ok_iff.mp hstep
    simp only [seedOf_append_single]
    cases entry with
    | none =>
      rw [← Except.ok.inj hstep, ih kind seed]
      apply exists_congr
      intro ie
      apply and_congr_left'
      constructor
      · intro hseed
        exact .inr ⟨hseed, fun hkind => hkind ▸ hentry⟩
      · rintro (⟨hkind, hsome⟩ | ⟨hseed, -⟩)
        · rw [← hkind, hentry] at hsome
          cases hsome
        · exact hseed
    | some found =>
      rw [← Except.ok.inj hstep]
      by_cases hkind : kind = x.1
      · subst hkind
        rw [get?_set_self]
        constructor
        · intro heq
          exact ⟨found, .inl ⟨rfl, hentry⟩, (Option.some.inj heq).symm⟩
        · rintro ⟨ie, ⟨-, hsome⟩ | ⟨-, hnone⟩, rfl⟩
          · rw [hentry] at hsome
            obtain rfl : found = ie := Option.some.inj (Except.ok.inj hsome)
            rfl
          · rw [hentry] at hnone
            cases hnone rfl
      · rw [get?_set_of_ne _ _ hkind, ih kind seed]
        apply exists_congr
        intro ie
        apply and_congr_left'
        constructor
        · intro hseed
          exact .inr ⟨hseed, fun heq => absurd heq.symm hkind⟩
        · rintro (⟨heq, -⟩ | ⟨hseed, -⟩)
          · exact absurd heq.symm hkind
          · exact hseed
  · intro kind seed
    simp [PlanEnv.SeedOf]

/-- The entry for a stage serves that stage of all instances. -/
theorem PlanEnv.serves_of_stageEntry {i : ℕ} (h : E.stageEntry mine kind i = .ok (some ie))
    {o : PlanOp σ} (ho : o ∈ mine) {stages : List (String × σ)}
    (hstages : o.rest.subOps = some stages) {stage : String × σ} (hstage : stages[i]? = some stage)
    {sig : KernelSig} (hsig : E.specs kind = some sig) :
    E.Serves sig ie.2.file (E.hashes.shapeKey stage.2) := by
  unfold PlanEnv.stageEntry at h
  rw [hsig] at h
  obtain ⟨need, hneed, hlookup⟩ := bind_eq_ok_iff.mp h
  obtain ⟨key, hkey, hok⟩ := exists_of_mapM_eq_ok hneed ho
  unfold stageKey at hok
  simp only [hstages, hstage] at hok
  obtain rfl := Except.ok.inj hok
  exact serves_of_lookup (Except.ok.inj hlookup) hkey

/-- The seeds of the slots: they are those of a fused op without a source, and all such ops have
some. -/
theorem PlanEnv.subSources_spec {sources : PyDict String PlanSource} {ops : List (PlanOp σ)}
    {subs : PyDict (Option String) (PyDict String StageSeed)}
    (h : ops.foldlM (E.addSlotSeeds sources ops) PyDict.empty = .ok subs) :
    (∀ sid seeds, subs.get? sid = some seeds → ∃ o ∈ ops, ∃ stages,
      o.rest.subOps = some stages ∧ slotOf E.specs o = sid ∧
        (∀ s, sid = some s → s ∉ sources.keys) ∧
          E.seedsOf (sharingSlot E.specs ops sid) (stages.map Prod.fst) = .ok seeds) ∧
    ∀ o ∈ ops, o.rest.subOps.isSome → (∀ s, slotOf E.specs o = some s → s ∉ sources.keys) →
      slotOf E.specs o ∈ subs.keys := by
  have hrun := foldlM_induction
    (P := fun done subs => (∀ sid seeds, subs.get? sid = some seeds → ∃ o ∈ done, ∃ stages,
      o.rest.subOps = some stages ∧ slotOf E.specs o = sid ∧
        (∀ s, sid = some s → s ∉ sources.keys) ∧
          E.seedsOf (sharingSlot E.specs ops sid) (stages.map Prod.fst) = .ok seeds) ∧
      ∀ o ∈ done, o.rest.subOps.isSome → (∀ s, slotOf E.specs o = some s → s ∉ sources.keys) →
        slotOf E.specs o ∈ subs.keys) ?_ ?_ h
  · exact hrun
  · rintro done o subs subs' ⟨hfrom, hall⟩ hstep
    unfold PlanEnv.addSlotSeeds at hstep
    split at hstep
    case h_1 hnone =>
      rw [← Except.ok.inj hstep]
      constructor
      · intro sid seeds hget
        obtain ⟨o', ho', hrest⟩ := hfrom sid seeds hget
        exact ⟨o', mem_append_left _ ho', hrest⟩
      · intro o' ho' hsome
        rcases mem_append.mp ho' with hold | hnew
        · exact hall o' hold hsome
        · rw [mem_singleton.mp hnew, hnone] at hsome
          cases hsome
    case h_2 stages hstages =>
      dsimp only at hstep
      split at hstep
      case isTrue hskip =>
        rw [← Except.ok.inj hstep]
        constructor
        · intro sid seeds hget
          obtain ⟨o', ho', hrest⟩ := hfrom sid seeds hget
          exact ⟨o', mem_append_left _ ho', hrest⟩
        · intro o' ho' hsome hnone
          rcases mem_append.mp ho' with hold | hnew
          · exact hall o' hold hsome hnone
          · rw [mem_singleton.mp hnew] at hnone ⊢
            rw [Bool.or_eq_true] at hskip
            refine mem_keys_iff.mpr (Option.isSome_iff_exists.mp
              (hskip.resolve_left fun hany => ?_))
            cases hslot : slotOf E.specs o with
            | none =>
              rw [hslot] at hany
              cases hany
            | some s =>
              rw [hslot] at hany
              exact hnone s hslot (of_decide_eq_true hany)
      case isFalse hdo =>
        obtain ⟨seeds', hseeds, hstep⟩ := bind_eq_ok_iff.mp hstep
        rw [← Except.ok.inj hstep]
        constructor
        · intro sid seeds hget
          by_cases heq : sid = slotOf E.specs o
          · subst heq
            rw [get?_set_self] at hget
            refine ⟨o, by simp, stages, hstages, rfl, fun s hs hkey => ?_, ?_⟩
            · rw [hs, Bool.or_eq_true, not_or] at hdo
              exact hdo.1 (decide_eq_true hkey)
            · rw [← Option.some.inj hget]
              exact hseeds
          · rw [get?_set_of_ne _ _ heq] at hget
            obtain ⟨o', ho', hrest⟩ := hfrom sid seeds hget
            exact ⟨o', mem_append_left _ ho', hrest⟩
        · intro o' ho' hsome hnone
          rw [mem_keys_set]
          rcases mem_append.mp ho' with hold | hnew
          · exact .inr (hall o' hold hsome hnone)
          · rw [mem_singleton.mp hnew]
            exact .inl rfl
  · refine ⟨fun sid seeds hget => ?_, fun o ho => by cases ho⟩
    cases hget

/-! ### Where plans go wrong -/

/-- The graph behind the hints of the decisions. -/
def PlanEnv.splitGraph (E : PlanEnv σ) (ops : List (PlanOp σ))
    (plans : List (String × SlotPlan σ)) : List (PlanOp σ) :=
  (planHints plans).foldl (applySplit E.specs) ops

/-- Neither case arises in which a source is used on shapes that are not in its guards. -/
structure PlanEnv.ClearFor (E : PlanEnv σ) (ops : List (PlanOp σ))
    (plans : List (String × SlotPlan σ)) : Prop where
  /-- No op is in the slot of a group that has a source. -/
  ownFree : ∀ hint ∈ planHints plans, ∀ (k : ℕ) (group : SplitGroup),
    hint.groups[k]? = some group → group.asSlot = true →
      ∀ o ∈ ops, calledSlot E.specs o ≠ some (variantSlot hint.slot k)
  /-- If ops are in the slot of another group, then their source serves the group. -/
  restServed : ∀ hint ∈ planHints plans, ∀ (k : ℕ) (group : SplitGroup),
    hint.groups[k]? = some group → group.asSlot = false →
      ∀ source, (variantSlot hint.slot k, SlotPlan.whole source) ∈ plans →
        ∀ o ∈ ops, o.name ∈ group.ops → ∀ sig, E.specs o.rest.kind = some sig →
          E.Serves sig source.file (ownKey E.hashes o)
  /-- If stages of a fused slot have one kind, then the entry for the last of them that has one
  serves all of them. -/
  repeatedServed : ∀ sid, sid ∉ (planDict plans).keys → ∀ o ∈ E.splitGraph ops plans, ∀ stages,
    o.rest.subOps = some stages → slotOf E.specs o = some sid → ∀ kind ie,
      E.SeedOf (sharingSlot E.specs (E.splitGraph ops plans) (some sid))
          (stages.map Prod.fst).zipIdx kind ie →
        2 ≤ (stages.map Prod.fst).count kind →
          ∀ x ∈ instancesOf E.specs (E.splitGraph ops plans) sid, ∀ stages',
            x.rest.subOps = some stages' → ∀ stage ∈ stages', stage.1 = kind →
              ∀ sig, E.specs kind = some sig →
                E.Serves sig ie.2.file (E.hashes.shapeKey stage.2)

/-- Neither case arises in the plan of a graph. -/
def PlanEnv.Clear (E : PlanEnv σ) (graphOps : List (PlanOp σ)) : Prop :=
  ∀ plans, E.slotPlans (uniqueOps graphOps) = .ok plans → E.ClearFor (uniqueOps graphOps) plans

/-! ### Slots and their sources -/

section
variable {ops : List (PlanOp σ)} {plans : List (String × SlotPlan σ)}

variable {specs : String → Option KernelSig} {o : PlanOp σ} {sid : String}

theorem slotOf_of_calledSlot (h : calledSlot specs o = some sid) : slotOf specs o = some sid := by
  unfold calledSlot at h
  split at h
  case isTrue => cases h
  case isFalse => exact h

variable {o' : PlanOp σ} {hints : List SplitHint} {left graphOps : List (PlanOp σ)} {s : String}
  {part : Part σ} {x : PlanOp σ} {stages : List (String × σ)}

section
variable (h : OneEntryPerSlot specs ops) (ho : o ∈ ops) (ho' : o' ∈ ops)
include h ho ho'

/-- Ops that end up in one slot have one C entry. -/
theorem OneEntryPerSlot.of_splitOp (hslot : slotOf specs (splitOp specs hints o) = some sid)
    (hslot' : slotOf specs (splitOp specs hints o') = some sid) :
    specs o.rest.kind = specs o'.rest.kind ∧ stageKinds o = stageKinds o' := by
  have heta : ∀ u : PlanOp σ, splitOp specs hints u =
      { u with volatile := (splitOp specs hints u).volatile } := by
    intro u
    have hsame : SameOp u (splitOp specs hints u) := sameOp_splitOp hints u
    show _ = GraphEdit.EditOp.mk u.toOpContent _
    rw [← hsame.content]
  rw [heta] at hslot hslot'
  exact h o ho o' ho' _ _ sid hslot hslot'

/-- Ops of one slot have one C entry. -/
theorem OneEntryPerSlot.of_slotOf (hslot : slotOf specs o = some sid)
    (hslot' : slotOf specs o' = some sid) :
    specs o.rest.kind = specs o'.rest.kind ∧ stageKinds o = stageKinds o' :=
  h o ho o' ho' o.volatile o'.volatile sid hslot hslot'

end

variable {hint : SplitHint}

theorem mem_planHints : hint ∈ planHints plans ↔ ∃ parts left,
    (hint.slot, SlotPlan.split parts left) ∈ plans ∧ hint.groups = splitGroups parts left := by
  unfold planHints
  rw [mem_filterMap]
  constructor
  · rintro ⟨⟨sid, plan⟩, hplan, hhint⟩
    cases plan with
    | hand => cases hhint
    | whole => cases hhint
    | split parts left =>
      rw [← Option.some.inj hhint]
      exact ⟨parts, left, hplan, rfl⟩
  · rintro ⟨parts, left, hplan, hgroups⟩
    refine ⟨_, hplan, ?_⟩
    show some _ = some hint
    rw [← hgroups]

variable {parts : List (Part σ)} {k : ℕ} {group : SplitGroup}

/-- The groups with a source are the parts that winners of the slot cover. -/
theorem getElem?_splitGroups_asSlot (hgroup : (splitGroups parts left)[k]? = some group)
    (hslot : group.asSlot = true) :
    ∃ part, parts[k]? = some part ∧ part.cand.own = true ∧
      group.ops = part.covered.map fun o => o.name := by
  unfold splitGroups at hgroup
  rw [getElem?_append] at hgroup
  split at hgroup
  case isTrue =>
    rw [getElem?_map] at hgroup
    obtain ⟨part, hpart, rfl⟩ := Option.map_eq_some_iff.mp hgroup
    exact ⟨part, hpart, hslot, rfl⟩
  case isFalse =>
    have hmem := mem_of_getElem? hgroup
    split at hmem
    case isTrue => cases hmem
    case isFalse =>
      rw [mem_singleton.mp hmem] at hslot
      cases hslot

variable {source : PlanSource}

theorem mem_partSources :
    (s, source) ∈ partSources sid parts ↔ ∃ (k : ℕ) (part : Part σ), parts[k]? = some part ∧
      part.cand.own = true ∧ s = variantSlot sid k ∧
        source = directSource (part.cand.index, part.cand.entry) := by
  unfold partSources
  rw [mem_filterMap]
  constructor
  · rintro ⟨⟨part, k⟩, hmem, hsome⟩
    split at hsome
    case isTrue hown =>
      obtain ⟨rfl, rfl⟩ := Prod.mk.inj (Option.some.inj hsome)
      exact ⟨k, part, mem_zipIdx_iff_getElem?.mp hmem, hown, rfl, rfl⟩
    case isFalse => cases hsome
  · rintro ⟨k, part, hpart, hown, rfl, rfl⟩
    exact ⟨(part, k), mem_zipIdx_iff_getElem?.mpr hpart, if_pos hown⟩

/-- A source is for a whole slot, or for a part of a split. -/
theorem mem_planDict (h : (planDict plans).get? s = some source) :
    (s, SlotPlan.whole source) ∈ plans ∨ ∃ sid parts left,
      (sid, SlotPlan.split parts left) ∈ plans ∧ (s, source) ∈ partSources sid parts := by
  obtain ⟨⟨sid, plan⟩, hplan, hmem⟩ := mem_flatMap.mp (mem_of_get?_ofList h)
  cases plan with
  | hand => cases hmem
  | whole source' =>
    obtain ⟨rfl, rfl⟩ := Prod.mk.inj (mem_singleton.mp hmem)
    exact .inl hplan
  | split parts left => exact .inr ⟨sid, parts, left, hplan, hmem⟩

/-- A slot has one decision. -/
theorem PlanEnv.slotPlans_unique (h : E.slotPlans ops = .ok plans) {plan plan' : SlotPlan σ}
    (hplan : (sid, plan) ∈ plans) (hplan' : (sid, plan') ∈ plans) :
    plan = plan' :=
  congrArg Prod.snd (inj_on_of_nodup_map (nodup_slotPlans h) hplan hplan' rfl)

/-- A slot that is split loses all its ops, and other ops stay. -/
theorem SplitsFit.splitOp_cases (hfits : SplitsFit specs ops hints) (ho : o ∈ ops) :
    (∃ hint ∈ hints, ∃ (k : ℕ) (group : SplitGroup), hint.groups[k]? = some group ∧
      o.name ∈ group.ops ∧
        calledSlot specs (splitOp specs hints o) = some (variantSlot hint.slot k)) ∨
      splitOp specs hints o = o ∧ ∀ hint ∈ hints, calledSlot specs o ≠ some hint.slot := by
  by_cases hin : ∃ hint ∈ hints, ∃ group ∈ hint.groups, o.name ∈ group.ops
  · obtain ⟨hint, hhint, group, hgroup, hmem⟩ := hin
    obtain ⟨k, hk⟩ := getElem?_of_mem hgroup
    exact .inl ⟨hint, hhint, k, group, hk, hmem, hfits.calledSlot_splitOp hhint hk ho hmem⟩
  · refine .inr ⟨splitOp_of_notMem ?_, ?_⟩
    · intro hint hhint group hgroup hmem
      exact hin ⟨hint, hhint, group, hgroup, hmem⟩
    · intro hint hhint hcalled
      obtain ⟨k, group, hk, hmem⟩ := hfits.complete hint hhint o ho hcalled
      exact hin ⟨hint, hhint, group, mem_of_getElem? hk, hmem⟩

theorem getElem?_splitGroups_of_part (left : List (PlanOp σ)) (h : parts[k]? = some part) :
    (splitGroups parts left)[k]? =
      some ⟨part.covered.map fun o => o.name, some part.cand.entry.implId, part.cand.own⟩ := by
  have hk := (List.getElem?_eq_some_iff.mp h).1
  unfold splitGroups
  rw [getElem?_append_left (by rwa [length_map]), getElem?_map, h]
  rfl

theorem PlanEnv.splitGraph_eq (hnames : (ops.map fun o => o.name).Nodup)
    (h : E.slotPlans ops = .ok plans) :
    E.splitGraph ops plans = ops.map (splitOp E.specs (planHints plans)) :=
  (splitsFit_of_slotPlans hnames h).foldl_applySplit

variable {sig : KernelSig}

/-- A winner of a slot serves what it covers. -/
theorem PlanEnv.serves_of_covered (hslots : OneEntryPerSlot E.specs ops)
    (h : E.slotPlans ops = .ok plans) (hplan : (sid, SlotPlan.split parts left) ∈ plans)
    (hpart : part ∈ parts) (hown : part.cand.own = true) (ho : o ∈ part.covered)
    (hsig : E.specs o.rest.kind = some sig) :
    E.Serves sig part.cand.entry.file (ownKey E.hashes o) := by
  obtain ⟨first, hfirst, sig', hsig', hok⟩ := exists_of_mem_slotPlans h hplan
  have hspec := planOf_split hok
  have hinst := hspec.partition.mem_iff.mp (mem_append_left _ (mem_flatMap.mpr ⟨part, hpart, ho⟩))
  rw [mem_instancesOf] at hfirst hinst
  have hsame := (hslots.of_slotOf hinst.1 hfirst.1 (slotOf_of_calledSlot hinst.2)
    (slotOf_of_calledSlot hfirst.2)).1
  rw [hsig, hsig'] at hsame
  obtain rfl := Option.some.inj hsame
  exact ⟨part.cand.entry, mayServe_of_mem_usable (hspec.own part hpart hown), rfl,
    ownKey_mem_of_covers hown (hspec.covered part hpart o ho)⟩

/-- Sources serve their instances where neither case arises. -/
theorem PlanEnv.ClearFor.slots_served (hclear : E.ClearFor ops plans)
    (hslots : OneEntryPerSlot E.specs ops) (hnames : (ops.map fun o => o.name).Nodup)
    (h : E.slotPlans ops = .ok plans) (hget : (planDict plans).get? sid = some source)
    (ho' : o' ∈ instancesOf E.specs (E.splitGraph ops plans) sid)
    (hsig : E.specs o'.rest.kind = some sig) :
    E.Serves sig source.file (ownKey E.hashes o') := by
  have hfits := splitsFit_of_slotPlans hnames h
  rw [mem_instancesOf, splitGraph_eq hnames h] at ho'
  obtain ⟨hmem, hcalled⟩ := ho'
  obtain ⟨o, ho, rfl⟩ := mem_map.mp hmem
  have hrest := (sameOp_splitOp (planHints plans) o : SameOp o (splitOp E.specs _ o)).rest
  rw [hrest] at hsig
  unfold ownKey
  rw [hrest]
  rcases mem_planDict hget with hwhole | ⟨sid', parts, left, hplan, hpart⟩
  · obtain ⟨first, hfirst, sig', hsig', hok⟩ := exists_of_mem_slotPlans h hwhole
    rcases hfits.splitOp_cases ho with ⟨hint, hhint, k, group, hk, hin, hslot⟩ | ⟨heq, -⟩
    · obtain rfl : variantSlot hint.slot k = sid := Option.some.inj (hslot.symm.trans hcalled)
      cases hasSlot : group.asSlot with
      | true =>
        rw [mem_instancesOf] at hfirst
        exact absurd hfirst.2 (hclear.ownFree hint hhint k group hk hasSlot first hfirst.1)
      | false =>
        exact hclear.restServed hint hhint k group hk hasSlot source hwhole o ho hin sig hsig
    · rw [heq] at hcalled
      have hinst := mem_instancesOf.mpr ⟨ho, hcalled⟩
      rw [mem_instancesOf] at hfirst
      have hsame := (hslots.of_slotOf ho hfirst.1 (slotOf_of_calledSlot hcalled)
        (slotOf_of_calledSlot hfirst.2)).1
      rw [hsig, hsig'] at hsame
      obtain rfl := Option.some.inj hsame
      exact (planOf_whole hok).2 o hinst
  · obtain ⟨k, part, hk, hown, rfl, rfl⟩ := mem_partSources.mp hpart
    have hhint : (⟨sid', splitGroups parts left⟩ : SplitHint) ∈ planHints plans :=
      mem_planHints.mpr ⟨parts, left, hplan, rfl⟩
    have hgroup := getElem?_splitGroups_of_part left hk
    rcases hfits.splitOp_cases ho with ⟨hint, hhint', k', group, hk', hin, hslot⟩ | ⟨heq, -⟩
    · obtain ⟨hsid, rfl⟩ := variantSlot_inj (Option.some.inj (hslot.symm.trans hcalled))
      obtain rfl := inj_on_of_nodup_map hfits.slots hhint' hhint hsid
      obtain rfl := Option.some.inj (hk'.symm.trans hgroup)
      obtain ⟨x, hx, hname⟩ := mem_map.mp hin
      have hspec := planOf_split (exists_of_mem_slotPlans h hplan).choose_spec.2.choose_spec.2
      have hxin := hspec.partition.mem_iff.mp (mem_append_left _
        (mem_flatMap.mpr ⟨part, mem_of_getElem? hk, hx⟩))
      obtain rfl := inj_on_of_nodup_map hnames (mem_instancesOf.mp hxin).1 ho hname
      exact serves_of_covered hslots h hplan (mem_of_getElem? hk) hown hx hsig
    · rw [heq] at hcalled
      exact absurd hcalled (hclear.ownFree _ hhint k _ hgroup hown o ho)

/-! ### Safe plans, in both directions -/

/-- A group with a source has the instances that call its slot. -/
theorem PlanEnv.ClearFor.groups_called (hclear : E.ClearFor ops plans)
    (hnames : (ops.map fun o => o.name).Nodup) (h : E.slotPlans ops = .ok plans)
    (hhint : hint ∈ planHints plans) (hgroup : hint.groups[k]? = some group)
    (hslot : group.asSlot = true) (ho' : o' ∈ E.splitGraph ops plans) :
    calledSlot E.specs o' = some (variantSlot hint.slot k) ↔ o'.name ∈ group.ops := by
  have hfits := splitsFit_of_slotPlans hnames h
  rw [splitGraph_eq hnames h] at ho'
  obtain ⟨o, ho, rfl⟩ := mem_map.mp ho'
  rw [(sameOp_splitOp (planHints plans) o : SameOp o (splitOp E.specs _ o)).name]
  constructor
  · intro hcalled
    rcases hfits.splitOp_cases ho with ⟨hint', hhint', k', group', hk', hin, hslot'⟩ | ⟨heq, -⟩
    · obtain ⟨hsid, rfl⟩ := variantSlot_inj (Option.some.inj (hslot'.symm.trans hcalled))
      obtain rfl := inj_on_of_nodup_map hfits.slots hhint' hhint hsid
      obtain rfl := Option.some.inj (hk'.symm.trans hgroup)
      exact hin
    · rw [heq] at hcalled
      exact absurd hcalled (hclear.ownFree hint hhint k group hgroup hslot o ho)
  · exact hfits.calledSlot_splitOp hhint hgroup ho

/-- A group with a source has a key. -/
theorem variantSlot_mem_keys (hhint : hint ∈ planHints plans)
    (hgroup : hint.groups[k]? = some group) (hslot : group.asSlot = true) :
    variantSlot hint.slot k ∈ (planDict plans).keys := by
  obtain ⟨parts, left, hplan, hgroups⟩ := mem_planHints.mp hhint
  obtain ⟨part, hpart, hown, -⟩ := getElem?_splitGroups_asSlot (hgroups ▸ hgroup) hslot
  unfold planDict
  rw [mem_keys_ofList, mem_map]
  refine ⟨(_, directSource (part.cand.index, part.cand.entry)), mem_flatMap.mpr ⟨_, hplan, ?_⟩, rfl⟩
  exact mem_partSources.mpr ⟨k, part, hpart, hown, rfl, rfl⟩

/-- No op is in the slot of a group with a source, if the group is all that is in the slot
afterwards. -/
theorem ownFree_of_groups (hslots : OneEntryPerSlot E.specs ops)
    (hnames : (ops.map fun o => o.name).Nodup) (h : E.slotPlans ops = .ok plans)
    (hhint : hint ∈ planHints plans) (hgroup : hint.groups[k]? = some group)
    (hcalled : ∀ o ∈ E.splitGraph ops plans, calledSlot E.specs o = some (variantSlot hint.slot k) → o.name ∈ group.ops)
    (ho : o ∈ ops) : calledSlot E.specs o ≠ some (variantSlot hint.slot k) := by
  have hfits := splitsFit_of_slotPlans hnames h
  have hgroup' := mem_of_getElem? hgroup
  intro hslot
  rcases hfits.splitOp_cases ho with ⟨hint', hhint', k', other, hk', hin, -⟩ | ⟨heq, -⟩
  · -- the slot is the one of the entry of the op, and that of the entry of the group as well
    obtain ⟨hnone, hown⟩ :=
      hfits.instance_of_mem hhint' (mem_of_getElem? hk') ho hin
    obtain ⟨n, hn⟩ := exists_mem_of_ne_nil _ (hfits.nonempty hint hhint group hgroup')
    obtain ⟨x, hx, rfl, hxnone, hxcalled⟩ := hfits.called hint hhint group hgroup' n hn
    have hxslot := hfits.calledSlot_splitOp hhint hgroup hx hn
    rw [hfits.splitOp_of_mem hhint hgroup hx hn] at hxslot
    have hsame := (hslots o ho x hx o.volatile _ _ (slotOf_of_calledSlot hslot)
      (slotOf_of_calledSlot hxslot)).1
    have hbase := hasBaseSlot_of_called hslot hnone
    have hxbase := hasBaseSlot_of_called hxcalled hxnone
    unfold hasBaseSlot at hbase hxbase
    rw [decide_eq_true_eq] at hbase hxbase
    rw [hsame, hxbase] at hbase
    exact variantSlot_ne _ _ (Option.some.inj hbase).symm
  · have hin := hcalled o (by
      rw [PlanEnv.splitGraph_eq hnames h]
      exact mem_map.mpr ⟨o, ho, heq⟩) hslot
    have hown := (hfits.instance_of_mem hhint hgroup' ho hin).2
    rw [hslot] at hown
    exact variantSlot_ne _ _ (Option.some.inj hown)

/-- The source of a slot that is a group without a source of its own. -/
theorem get?_planDict_of_whole (h : E.slotPlans ops = .ok plans)
    (hnames : (ops.map fun o => o.name).Nodup) (hhint : hint ∈ planHints plans)
    (hgroup : hint.groups[k]? = some group) (hslot : group.asSlot = false)
    (hwhole : (variantSlot hint.slot k, SlotPlan.whole source) ∈ plans) :
    (planDict plans).get? (variantSlot hint.slot k) = some source := by
  have hfits := splitsFit_of_slotPlans hnames h
  have hkey : variantSlot hint.slot k ∈ (planDict plans).keys := by
    unfold planDict
    rw [mem_keys_ofList, mem_map]
    exact ⟨(_, source), mem_flatMap.mpr ⟨_, hwhole, mem_singleton_self _⟩, rfl⟩
  obtain ⟨source', hget⟩ := mem_keys_iff.mp hkey
  rw [hget]
  rcases mem_planDict hget with hwhole' | ⟨sid, parts, left, hplan, hpart⟩
  · injection PlanEnv.slotPlans_unique h hwhole' hwhole with heq
    rw [heq]
  · obtain ⟨k', part, hk', hown, heq, -⟩ := mem_partSources.mp hpart
    obtain ⟨hsid, rfl⟩ := variantSlot_inj heq
    have hhint' : (⟨sid, splitGroups parts left⟩ : SplitHint) ∈ planHints plans :=
      mem_planHints.mpr ⟨parts, left, hplan, rfl⟩
    obtain rfl := inj_on_of_nodup_map hfits.slots hhint hhint' hsid
    obtain rfl := Option.some.inj (hgroup.symm.trans (getElem?_splitGroups_of_part left hk'))
    rw [show part.cand.own = false from hslot] at hown
    cases hown

/-- Ops that share a slot afterwards have stages of the same kinds. -/
theorem PlanEnv.stageKinds_eq (hslots : OneEntryPerSlot E.specs ops)
    (hnames : (ops.map fun o => o.name).Nodup) (h : E.slotPlans ops = .ok plans)
    (ho : o ∈ E.splitGraph ops plans) (hx : x ∈ E.splitGraph ops plans)
    (hslot : slotOf E.specs o = some sid) (hxslot : slotOf E.specs x = some sid) :
    stageKinds o = stageKinds x := by
  rw [splitGraph_eq hnames h] at ho hx
  obtain ⟨o₁, ho₁, rfl⟩ := mem_map.mp ho
  obtain ⟨x₁, hx₁, rfl⟩ := mem_map.mp hx
  have hrest : ∀ u : PlanOp σ, stageKinds (splitOp E.specs (planHints plans) u) = stageKinds u := by
    intro u
    have hsame : SameOp u (splitOp E.specs (planHints plans) u) := sameOp_splitOp _ u
    unfold stageKinds
    rw [hsame.rest]
  rw [hrest, hrest]
  exact (hslots.of_splitOp ho₁ hx₁ hslot hxslot).2

theorem two_le_count {β : Type} [DecidableEq β] {l : List β} {a : β} {i j : ℕ} (hi : l[i]? = some a)
    (hj : l[j]? = some a) (hne : i ≠ j) : 2 ≤ l.count a := by
  rw [← duplicate_iff_two_le_count, duplicate_iff_exists_distinct_get]
  obtain ⟨hilt, rfl⟩ := List.getElem?_eq_some_iff.mp hi
  obtain ⟨hjlt, heq⟩ := List.getElem?_eq_some_iff.mp hj
  rcases Nat.lt_or_gt_of_ne hne with hlt | hgt
  · exact ⟨⟨i, hilt⟩, ⟨j, hjlt⟩, hlt, rfl, heq.symm⟩
  · exact ⟨⟨j, hjlt⟩, ⟨i, hilt⟩, hgt, heq.symm, rfl⟩

variable {subs : PyDict (Option String) (PyDict String StageSeed)}

/-- Seeds serve the stages of all instances where neither case arises. -/
theorem PlanEnv.ClearFor.stages_served (hclear : E.ClearFor ops plans)
    (hslots : OneEntryPerSlot E.specs ops) (hnames : (ops.map fun o => o.name).Nodup)
    (h : E.slotPlans ops = .ok plans)
    (hsubs : (E.splitGraph ops plans).foldlM (E.addSlotSeeds (planDict plans) (E.splitGraph ops plans)) PyDict.empty = .ok subs)
    {kind : String} {seeds : PyDict String StageSeed} {seed : StageSeed}
    (hget : subs.get? (some sid) = some seeds) (hseed : seeds.get? kind = some seed)
    (hx : x ∈ instancesOf E.specs (E.splitGraph ops plans) sid)
    (hstages : x.rest.subOps = some stages) {stage : String × σ} (hmem : stage ∈ stages)
    (hkind : stage.1 = kind) (hsig : E.specs kind = some sig) :
    E.Serves sig seed.file (E.hashes.shapeKey stage.2) := by
  obtain ⟨o, ho, stages', hstages', hslot, hkey, hfold⟩ :=
    (subSources_spec hsubs).1 (some sid) seeds hget
  obtain ⟨ie, hlast, rfl⟩ := (get?_seeds_iff hfold).mp hseed
  by_cases hcount : 2 ≤ (stages'.map Prod.fst).count kind
  · exact hclear.repeatedServed sid (hkey sid rfl) o ho stages' hstages' hslot kind ie hlast hcount
      x hx stages hstages stage hmem hkind sig hsig
  · obtain ⟨pre, y, post, hsplit, hykind, hentry, -⟩ := hlast
    obtain ⟨hxmem, hxcalled⟩ := mem_instancesOf.mp hx
    have hxslot := slotOf_of_calledSlot hxcalled
    have hkinds := stageKinds_eq hslots hnames h ho hxmem hslot hxslot
    unfold stageKinds at hkinds
    rw [hstages, hstages', Option.map_some, Option.map_some, Option.some_inj] at hkinds
    obtain ⟨j, hj⟩ := getElem?_of_mem hmem
    have hjkind : (stages'.map Prod.fst)[j]? = some kind := by
      rw [hkinds, getElem?_map, hj, ← hkind]
      rfl
    have hykind' : (stages'.map Prod.fst)[y.2]? = some kind := by
      have hin : y ∈ (stages'.map Prod.fst).zipIdx := by rw [hsplit]; simp
      rw [← hykind]
      exact mem_zipIdx_iff_getElem?.mp hin
    obtain rfl : j = y.2 := by
      by_contra hne
      exact hcount (two_le_count hjkind hykind' hne)
    have hmine : x ∈ sharingSlot E.specs (E.splitGraph ops plans) (some sid) := by
      unfold sharingSlot
      rw [mem_filter, decide_eq_true_eq, hxslot]
      exact ⟨hxmem, rfl, rfl⟩
    exact serves_of_stageEntry hentry hmine hstages hj hsig

section
variable (hslots : OneEntryPerSlot E.specs ops) (hnames : (ops.map fun o => o.name).Nodup)
  (h : E.slotPlans ops = .ok plans)
  (hsubs : (E.splitGraph ops plans).foldlM (E.addSlotSeeds (planDict plans) (E.splitGraph ops plans)) PyDict.empty = .ok subs)
include hslots hnames h hsubs

/-- Seeds that serve the stages of all instances. -/
theorem repeatedServed_of_stages {kind : String} (hkey : sid ∉ (planDict plans).keys)
    (ho : o ∈ E.splitGraph ops plans) (hstages : o.rest.subOps = some stages)
    (hslot : slotOf E.specs o = some sid) {ie : ℕ × CacheEntry}
    (hlast : E.SeedOf (sharingSlot E.specs (E.splitGraph ops plans) (some sid)) (stages.map Prod.fst).zipIdx kind ie)
    :
    ∃ seeds, subs.get? (some sid) = some seeds ∧ seeds.get? kind = some ⟨ie.2.file, ie.1⟩ := by
  obtain ⟨hfrom, hall⟩ := PlanEnv.subSources_spec hsubs
  have hin := hall o ho (by rw [hstages]; rfl) (by rw [hslot]; rintro s ⟨rfl⟩; exact hkey)
  rw [hslot] at hin
  obtain ⟨seeds, hget⟩ := mem_keys_iff.mp hin
  obtain ⟨o', ho', stages', hstages', hslot', -, hfold⟩ := hfrom (some sid) seeds hget
  have hkinds := PlanEnv.stageKinds_eq hslots hnames h ho' ho hslot' hslot
  unfold stageKinds at hkinds
  rw [hstages, hstages', Option.map_some, Option.map_some, Option.some_inj] at hkinds
  exact ⟨seeds, hget, (PlanEnv.get?_seeds_iff hfold).mpr ⟨ie, hkinds ▸ hlast, rfl⟩⟩

/-- A plan is safe if and only if neither case arises in its decisions. -/
theorem guarded_iff_clearFor :
    Guarded E ⟨E.splitGraph ops plans, planDict plans, subs, planHints plans⟩ ↔
      E.ClearFor ops plans := by
  have hfits := splitsFit_of_slotPlans hnames h
  constructor
  · intro hguarded
    constructor
    case ownFree =>
      intro hint hhint k group hgroup hslot o ho
      obtain ⟨-, -, hcalled⟩ := hguarded.groups hint hhint k group hgroup hslot
      exact ownFree_of_groups hslots hnames h hhint hgroup (fun x hx => (hcalled x hx).mp) ho
    case restServed =>
      intro hint hhint k group hgroup hslot source hwhole o ho hin sig hsig
      have hsame : SameOp o (splitOp E.specs (planHints plans) o) := sameOp_splitOp _ o
      have hserves := hguarded.slots _ source
        (get?_planDict_of_whole h hnames hhint hgroup hslot hwhole)
        (splitOp E.specs (planHints plans) o) (by
          rw [mem_instancesOf]
          refine ⟨?_, hfits.calledSlot_splitOp hhint hgroup ho hin⟩
          show _ ∈ E.splitGraph ops plans
          rw [PlanEnv.splitGraph_eq hnames h]
          exact mem_map_of_mem ho) sig (by rw [hsame.rest]; exact hsig)
      unfold ownKey at hserves ⊢
      rwa [hsame.rest] at hserves
    case repeatedServed =>
      intro sid hkey o ho stages hstages hslot kind ie hlast _ x hx stages' hstages' stage hmem
        hkind sig hsig
      obtain ⟨seeds, hget, hseed⟩ :=
        repeatedServed_of_stages hslots hnames h hsubs hkey ho hstages hslot hlast
      exact hguarded.stages sid seeds kind _ hget hseed x hx stages' hstages' stage hmem hkind sig
        hsig
  · intro hclear
    constructor
    case slots =>
      intro sid source hget o ho sig hsig
      exact hclear.slots_served hslots hnames h hget ho hsig
    case stages =>
      intro sid seeds kind seed hget hseed x hx stages hstages stage hmem hkind sig hsig
      exact hclear.stages_served hslots hnames h hsubs hget hseed hx hstages hmem hkind hsig
    case groups =>
      intro hint hhint k group hgroup hslot
      exact ⟨variantSlot_mem_keys hhint hgroup hslot,
        hfits.nonempty hint hhint group (mem_of_getElem? hgroup),
        fun o ho => hclear.groups_called hnames h hhint hgroup hslot ho⟩

end

/-! ### The plan of a graph -/

/-- Unique names are all that is new. -/
theorem exists_of_mem_renameFrom {seen : String → ℕ} {taken : List String}
    (ho : o ∈ GraphEdit.renameFrom seen taken graphOps) :
    ∃ o' ∈ graphOps, o'.rest = o.rest := by
  induction graphOps generalizing seen taken with
  | nil => cases ho
  | cons x rest ih =>
    rw [GraphEdit.renameFrom] at ho
    split at ho
    case isTrue =>
      rcases mem_cons.mp ho with rfl | htail
      · exact ⟨o, mem_cons_self, rfl⟩
      · obtain ⟨o', ho', heq⟩ := ih htail
        exact ⟨o', mem_cons_of_mem x ho', heq⟩
    case isFalse =>
      rcases mem_cons.mp ho with rfl | htail
      · exact ⟨x, mem_cons_self, rfl⟩
      · obtain ⟨o', ho', heq⟩ := ih htail
        exact ⟨o', mem_cons_of_mem x ho', heq⟩

theorem OneEntryPerSlot.uniqueOps (h : OneEntryPerSlot specs graphOps) :
    OneEntryPerSlot specs (uniqueOps graphOps) := by
  intro o ho o' ho' v v' sid hslot hslot'
  obtain ⟨x, hx, hrest⟩ := exists_of_mem_renameFrom ho
  obtain ⟨x', hx', hrest'⟩ := exists_of_mem_renameFrom ho'
  have hsame : ∀ (u u' : PlanOp σ) (v : Option String), u.rest = u'.rest →
      slotOf specs { u with volatile := v } = slotOf specs { u' with volatile := v } := by
    intro u u' v heq
    show (specs u.rest.kind).map _ = (specs u'.rest.kind).map _
    rw [heq]
    rfl
  rw [← hsame x o v hrest] at hslot
  rw [← hsame x' o' v' hrest'] at hslot'
  have hresult := h x hx x' hx' v v' sid hslot hslot'
  unfold stageKinds at hresult ⊢
  rwa [hrest, hrest'] at hresult

end

/-- A plan comes from the decisions for the slots. -/
theorem PlanEnv.cachePlan_cases (h : E.cachePlan graphOps = .ok plan) :
    ∃ plans subs, E.slotPlans (uniqueOps graphOps) = .ok plans ∧
      (E.splitGraph (uniqueOps graphOps) plans).foldlM
        (E.addSlotSeeds (planDict plans) (E.splitGraph (uniqueOps graphOps) plans))
          PyDict.empty = .ok subs ∧
      plan = ⟨E.splitGraph (uniqueOps graphOps) plans, planDict plans, subs, planHints plans⟩ := by
  obtain ⟨plans, hplans, h⟩ := bind_eq_ok_iff.mp h
  obtain ⟨subs, hsubs, h⟩ := bind_eq_ok_iff.mp h
  exact ⟨plans, subs, hplans, hsubs, (Except.ok.inj h).symm⟩

theorem nodup_uniqueOps (graphOps : List (PlanOp σ)) :
    ((uniqueOps graphOps).map fun o => o.name).Nodup :=
  GraphEdit.nodup_renameFrom fun _ ho => mem_map_of_mem ho

/-- Kinds with a seed have a spec. -/
theorem PlanEnv.specs_of_seed (h : E.cachePlan graphOps = .ok plan) {sid : String}
    (hget : plan.subSources.get? (some sid) = some seeds) (hseed : seeds.get? kind = some seed) :
    ∃ sig, E.specs kind = some sig := by
  obtain ⟨plans, subs, -, hsubs, rfl⟩ := cachePlan_cases h
  obtain ⟨o, -, stages, -, -, -, hfold⟩ := (subSources_spec hsubs).1 (some sid) seeds hget
  obtain ⟨ie, ⟨pre, x, post, -, -, hentry, -⟩, -⟩ := (get?_seeds_iff hfold).mp hseed
  unfold stageEntry at hentry
  split at hentry
  case h_1 => cases hentry
  case h_2 sig hsig => exact ⟨sig, hsig⟩

/-- Shapes are numbers, and hashes are the texts. -/
def plainHashes : Hashes ℕ := ⟨fun n => toString n, id, id⟩

/-- An entry for a C entry, that was verified on some shapes. -/
def reluEntry (file : String) (guard : List String) : CacheEntry where
  op := "relu"
  entry := "kernel_relu"
  signatureSha := "relu"
  dtype := "fp32"
  arch := "sm_75"
  shapeGuard := guard
  slotUs := 1
  implId := file
  file := file
  modelVerified := []
  rejected := []
  superseded := []
  target := "cuda"

/-- The specs of an activation, and of the activation taken twice. -/
def reluSpecs (kind : String) : Option KernelSig :=
  if kind = "relu" then some ⟨"relu", "kernel_relu"⟩
  else if kind = "fused__relu__relu" then some ⟨"relu2", "kernel_fused__relu__relu"⟩
  else none

/-- Plans from a cache of two kernels for the activation. -/
def reluEnv : PlanEnv ℕ where
  hashes := plainHashes
  cache := ⟨"cuda", [reluEntry "a" ["1"], reluEntry "b" ["2"]]⟩
  specs := reluSpecs
  irName := "ir"
  arch := "sm_75"
  split := true

/-- An activation. -/
def reluAt (name : String) (shape : ℕ) (variant : Option String) : PlanOp ℕ :=
  ⟨⟨name, none, none, none, ⟨"relu", shape, none⟩⟩, variant⟩

theorem oneEntryPerSlot_relu {ops : List (PlanOp ℕ)}
    (h : ∀ o ∈ ops, o.rest.kind = "relu" ∧ o.rest.subOps = none) :
    OneEntryPerSlot reluSpecs ops := by
  intro o ho o' ho' _ _ _ _ _
  unfold stageKinds
  rw [(h o ho).1, (h o' ho').1, (h o ho).2, (h o' ho').2]
  exact ⟨rfl, rfl⟩

/-- An activation has the variant that the split of the others makes. -/
def takenVariant : List (PlanOp ℕ) :=
  [reluAt "r1" 1 none, reluAt "r2" 3 none, reluAt "r3" 4 (some "v0")]

/-- The activation is taken twice, on two shapes. -/
def reluTwice : List (PlanOp ℕ) :=
  [⟨⟨"f", none, none, none, ⟨"fused__relu__relu", 0, some [("relu", 1), ("relu", 2)]⟩⟩, none⟩]

end ModelBlaster.KernelCache
