import ModelBlaster.Library.Fallible
import ModelBlaster.Regions.FuseRegion

/-!
# Which windows are accepted

`legal_end` looks at the readers of views in one run, at the position of the window and behind it.
`fuse_region` looks at all live readers in the graph, and at the order in which the ops run then. The
two agree on a window if its views are read in its run only, not before the window, and if no op runs
too early.

## Main definitions

* `place`: where an op stands when the region is made;
* `WindowFits`: the condition.

## Main results

* `readBeforeDefined_mergedOps_iff`: the check of the order, for the ops of the graph;
* `accepts_iff_legalEnd_iff`: where `fuse_region` and `legal_end` agree.
-/

namespace ModelBlaster.RegionSlots

open GraphPrune RegionWindows List

/-! ### Order -/

variable {ops mem : List RegionOp} {read : List String}

/-- No op reads a tensor that a later op defines first. -/
theorem readBeforeDefined_eq_nil_iff : readBeforeDefined ops = [] ↔
    ∀ i o, ops[i]? = some o → ∀ t ∈ o.inputs, ∀ k, producedAt ops t = some k → k ≤ i := by
  unfold readBeforeDefined
  rw [flatMap_eq_nil_iff]
  constructor
  · intro h i o ho t ht k hk
    have hnil := h (o, i) (mem_zipIdx_iff_getElem?.mpr ho)
    rw [map_eq_nil_iff, filter_eq_nil_iff] at hnil
    by_contra hlt
    refine hnil t ht ?_
    rw [hk]
    exact decide_eq_true (not_le.mp hlt)
  · rintro h ⟨o, i⟩ hmem
    rw [map_eq_nil_iff, filter_eq_nil_iff]
    intro t ht hany
    cases hk : producedAt ops t with
    | none =>
      rw [hk] at hany
      cases hany
    | some k =>
      rw [hk] at hany
      have hle := h i o (mem_zipIdx_iff_getElem?.mp hmem) t ht k hk
      exact absurd (of_decide_eq_true hany) (not_lt.mpr hle)

/-- The same, for ops that stand at ascending places. -/
theorem readBeforeDefined_map_iff {κ : Type} [LinearOrder κ] {l : List (RegionOp × κ)}
    (hl : l.Pairwise fun x y => x.2 < y.2) : readBeforeDefined (l.map Prod.fst) = [] ↔
      ∀ x ∈ l, ∀ t ∈ x.1.inputs, ∀ y ∈ l, t ∈ y.1.outs → ∃ z ∈ l, t ∈ z.1.outs ∧ z.2 ≤ x.2 := by
  have hmono : ∀ i j (hi : i < l.length) (hj : j < l.length), l[i].2 ≤ l[j].2 ↔ i ≤ j := by
    intro i j hi hj
    have hpair := pairwise_iff_getElem.mp hl
    constructor
    · intro hle
      by_contra hlt
      exact absurd (hpair j i hj hi (not_le.mp hlt)) (not_lt.mpr hle)
    · intro hle
      rcases Nat.lt_or_eq_of_le hle with hlt | rfl
      · exact (hpair i j hi hj hlt).le
      · exact le_rfl
  rw [readBeforeDefined_eq_nil_iff]
  constructor
  · intro h x hx t ht y hy hmade
    obtain ⟨i, hi, rfl⟩ := mem_iff_getElem.mp hx
    -- The first op that makes the tensor.
    have hsome : (producedAt (l.map Prod.fst) t).isSome := by
      rw [producedAt, findIdx?_isSome, any_eq_true]
      exact ⟨y.1, mem_map_of_mem hy, decide_eq_true hmade⟩
    obtain ⟨k, hk⟩ := Option.isSome_iff_exists.mp hsome
    have hle := h i l[i].1 (by simp [hi]) t ht k hk
    obtain ⟨hklt, hkmade, -⟩ := findIdx?_eq_some_iff_getElem.mp hk
    rw [length_map] at hklt
    rw [getElem_map] at hkmade
    exact ⟨l[k], getElem_mem hklt, of_decide_eq_true hkmade, (hmono k i hklt hi).mpr hle⟩
  · intro h i o ho t ht k hk
    rw [getElem?_map] at ho
    obtain ⟨x, hx, rfl⟩ := Option.map_eq_some_iff.mp ho
    obtain ⟨hi, rfl⟩ := List.getElem?_eq_some_iff.mp hx
    obtain ⟨hklt, hkmade, hfirst⟩ := findIdx?_eq_some_iff_getElem.mp hk
    rw [length_map] at hklt
    rw [getElem_map] at hkmade
    obtain ⟨z, hz, hmade, hle⟩ := h l[i] (getElem_mem hi) t ht l[k] (getElem_mem hklt)
      (of_decide_eq_true hkmade)
    obtain ⟨j, hj, rfl⟩ := mem_iff_getElem.mp hz
    have hkj : k ≤ j := by
      by_contra hlt
      have hnot := hfirst j (not_le.mp hlt)
      rw [getElem_map] at hnot
      exact hnot (decide_eq_true hmade)
    exact hkj.trans ((hmono j i hj hi).mp hle)

/-! ### Places -/

section
variable (env : RegionEnv) (g : RegionGraph) (idx : List ℕ)

/-- The dead ops of the graph. -/
def deadOf : List ℕ := deadOps env.serialKinds g.toPrune none

open Classical in
/-- Where an op stands when the region is made: the members at the place of the last one, the dragged
ops behind it, and all others where they are. -/
noncomputable def place (j : ℕ) : ℕ ×ₗ ℕ :=
  if j ∈ idx then toLex (idx.getLastD 0, 0)
  else if env.moveDead = true ∧ Dragged g idx (deadOf env g) j then
    toLex (idx.getLastD 0, j + 1)
  else toLex (j, 0)

/-- When the region is made, no op reads a tensor all of whose producers come later. What a member
makes is not read by the region. -/
def KeepsOrder : Prop :=
  ∀ j o, g.ops[j]? = some o → ∀ t ∈ o.inputs, (j ∈ idx → t ∉ madeBy (opsAt g idx)) →
    ∀ (i : ℕ) (p : RegionOp), g.ops[i]? = some p → t ∈ p.outs →
      ∃ (k : ℕ) (q : RegionOp), g.ops[k]? = some q ∧ t ∈ q.outs ∧ place env g idx k ≤ place env g idx j

end

variable {env : RegionEnv} {g : RegionGraph} {idx : List ℕ} {i j : ℕ} {o : RegionOp} {t : String}

/-- The new ops with their places. -/
def placedOps (g : RegionGraph) (idx moved : List ℕ) (rop : RegionOp) :
    List (RegionOp × (ℕ ×ₗ ℕ)) :=
  g.ops.zipIdx.flatMap fun p =>
    if (p.2 ∈ idx ∧ some p.2 ≠ idx.getLast?) ∨ p.2 ∈ moved then []
    else if some p.2 = idx.getLast? then
      (rop, toLex (p.2, 0)) ::
        moved.filterMap fun k => (g.ops[k]?).map fun o => (o, toLex (p.2, k + 1))
    else [(p.1, toLex (p.2, 0))]

theorem map_fst_placedOps (moved : List ℕ) (rop : RegionOp) :
    (placedOps g idx moved rop).map Prod.fst = mergedOps g idx moved rop := by
  unfold placedOps mergedOps
  rw [map_flatMap]
  congr 1
  funext p
  split_ifs
  · rfl
  · rw [map_cons, map_filterMap, opsAt]
    congr 2
    funext k
    cases g.ops[k]? with
    | none => rfl
    | some o => rfl
  · rfl

/-- The ops of one place in the old graph stand together. -/
theorem placedOps_pairwise {moved : List ℕ} (hmoved : moved.Pairwise (· < ·)) (rop : RegionOp) :
    (placedOps g idx moved rop).Pairwise fun x y => x.2 < y.2 := by
  have hfst : ∀ p : RegionOp × ℕ, ∀ x ∈ (
      if (p.2 ∈ idx ∧ some p.2 ≠ idx.getLast?) ∨ p.2 ∈ moved then []
      else if some p.2 = idx.getLast? then
        (rop, toLex (p.2, 0)) ::
          moved.filterMap fun k => (g.ops[k]?).map fun o => (o, (toLex (p.2, k + 1) : ℕ ×ₗ ℕ))
      else [(p.1, toLex (p.2, 0))]), (ofLex x.2).1 = p.2 := by
    intro p x hx
    split_ifs at hx
    · cases hx
    · rcases mem_cons.mp hx with rfl | hx
      · rfl
      · obtain ⟨k, -, hk⟩ := mem_filterMap.mp hx
        obtain ⟨o, -, rfl⟩ := Option.map_eq_some_iff.mp hk
        rfl
    · rw [mem_singleton.mp hx]
      rfl
  unfold placedOps
  rw [pairwise_flatMap]
  constructor
  · intro p hp
    split_ifs
    · exact List.Pairwise.nil
    · refine List.Pairwise.cons (fun x hx => ?_) ?_
      · obtain ⟨k, -, hk⟩ := mem_filterMap.mp hx
        obtain ⟨o, -, rfl⟩ := Option.map_eq_some_iff.mp hk
        exact Prod.Lex.toLex_lt_toLex.mpr (.inr ⟨rfl, Nat.succ_pos k⟩)
      · refine List.Pairwise.filterMap _ (fun k k' hlt x hx y hy => ?_) hmoved
        obtain ⟨o, -, rfl⟩ := Option.map_eq_some_iff.mp hx
        obtain ⟨o', -, rfl⟩ := Option.map_eq_some_iff.mp hy
        exact Prod.Lex.toLex_lt_toLex.mpr (.inr ⟨rfl, Nat.succ_lt_succ hlt⟩)
    · exact pairwise_singleton _ _
  · have hzip : g.ops.zipIdx.Pairwise fun p q => p.2 < q.2 := by
      rw [← pairwise_map (f := Prod.snd) (R := (· < ·)), zipIdx_map_snd]
      exact pairwise_lt_range'
    refine hzip.imp fun {p q} hlt x hx y hy => ?_
    rw [Prod.Lex.lt_iff]
    left
    rw [hfst p x hx, hfst q y hy]
    exact hlt

/-- The ops of the graph are at their places: the region op stands for the members. -/
structure StandsFor (env : RegionEnv) (g : RegionGraph) (idx : List ℕ)
    (l : List (RegionOp × (ℕ ×ₗ ℕ))) : Prop where
  placed : ∀ j o, g.ops[j]? = some o → ∃ x ∈ l, x.2 = place env g idx j ∧
    (∀ t ∈ o.outs, t ∈ x.1.outs) ∧
      ∀ t ∈ o.inputs, (j ∈ idx → t ∉ madeBy (opsAt g idx)) → t ∈ x.1.inputs
  makes : ∀ x ∈ l, ∀ t ∈ x.1.outs, ∃ (j : ℕ) (o : RegionOp), g.ops[j]? = some o ∧ t ∈ o.outs ∧
    place env g idx j = x.2
  reads : ∀ x ∈ l, ∀ t ∈ x.1.inputs, ∃ (j : ℕ) (o : RegionOp), g.ops[j]? = some o ∧ t ∈ o.inputs ∧
    (j ∈ idx → t ∉ madeBy (opsAt g idx)) ∧ place env g idx j = x.2

/-- The check of the order, for the ops of the graph. -/
theorem StandsFor.keepsOrder_iff {l : List (RegionOp × (ℕ ×ₗ ℕ))} (h : StandsFor env g idx l)
    (hl : l.Pairwise fun x y => x.2 < y.2) :
    readBeforeDefined (l.map Prod.fst) = [] ↔ KeepsOrder env g idx := by
  rw [readBeforeDefined_map_iff hl]
  constructor
  · intro hread j o ho t ht hfree i p hp hmade
    obtain ⟨x, hx, hplace, -, hin⟩ := h.placed j o ho
    obtain ⟨y, hy, -, hout, -⟩ := h.placed i p hp
    obtain ⟨z, hz, hzout, hle⟩ := hread x hx t (hin t ht hfree) y hy (hout t hmade)
    obtain ⟨k, q, hq, hqout, hkplace⟩ := h.makes z hz t hzout
    refine ⟨k, q, hq, hqout, ?_⟩
    rwa [hkplace, ← hplace]
  · intro hkeep x hx t ht y hy hmade
    obtain ⟨j, o, ho, hin, hfree, hplace⟩ := h.reads x hx t ht
    obtain ⟨i, p, hp, hout, -⟩ := h.makes y hy t hmade
    obtain ⟨k, q, hq, hqout, hle⟩ := hkeep j o ho t hin hfree i p hp hout
    obtain ⟨z, hz, hzplace, hzout, -⟩ := h.placed k q hq
    refine ⟨z, hz, hzout t hqout, ?_⟩
    rwa [hzplace, ← hplace]

theorem mem_outsOf {l : List Stage} : t ∈ outsOf l ↔ ∃ s ∈ l, t ∈ s.outs := by
  induction l with
  | nil => simp [outsOf]
  | cons s l ih => simp [outsOf, ih]

theorem mem_outs : t ∈ o.outs ↔ t ∈ o.outputs ∨ t ∈ o.internal ∨ t ∈ outsOf o.stages := by
  show t ∈ o.outputs ++ o.internal ++ outsOf o.stages ↔ _
  rw [mem_append, mem_append, or_assoc]

theorem mem_madeBy :
    t ∈ madeBy mem ↔ ∃ m ∈ mem, t ∈ m.outputs ∨ t ∈ m.internal := by
  simp only [madeBy, mem_flatMap, mem_append]

/-- The region op makes what the members make. -/
theorem mem_outs_regionOp :
    t ∈ (regionOp env mem read).outs ↔ ∃ m ∈ mem, t ∈ m.outs := by
  have hstages : t ∈ outsOf (mem.map RegionOp.toStage) ↔ ∃ m ∈ mem, t ∈ m.outs := by
    simp only [mem_outsOf, mem_map, exists_exists_and_eq_and]
    rfl
  rw [mem_outs]
  show _ ∨ _ ∨ t ∈ outsOf (mem.map RegionOp.toStage) ↔ _
  rw [hstages]
  refine ⟨?_, fun h => .inr (.inr h)⟩
  rintro (hout | hinternal | h)
  · obtain ⟨m, hm, ht⟩ := mem_flatMap.mp (mem_of_mem_filter hout)
    exact ⟨m, hm, mem_outs.mpr (.inl ht)⟩
  · obtain ⟨m, hm, ht⟩ := mem_madeBy.mp (mem_of_mem_filter hinternal)
    exact ⟨m, hm, mem_outs.mpr (ht.imp_right .inl)⟩
  · exact h

theorem mem_inputs_regionOp :
    t ∈ (regionOp env mem read).inputs ↔ (∃ m ∈ mem, t ∈ m.inputs) ∧ t ∉ madeBy mem := by
  show t ∈ PyList.orderedUnique _ ↔ _
  rw [PyList.mem_orderedUnique, mem_filter, mem_flatMap, decide_eq_true_iff]

section
variable {last : ℕ} {read : List String}

theorem place_of_mem (h : j ∈ idx) (hlast : idx.getLast? = some last) :
    place env g idx j = toLex (last, 0) := by
  rw [place, if_pos h, getLastD_eq_getLast?, hlast, Option.getD_some]

theorem place_of_mem_movedOps (h : j ∈ movedOps g env.moveDead idx (deadOf env g))
    (hlast : idx.getLast? = some last) : place env g idx j = toLex (last, j + 1) := by
  obtain ⟨hmove, hdragged⟩ := ((movedOps_spec env.moveDead).1 j).mp h
  rw [place, if_neg hdragged.bounds.2.1, if_pos ⟨hmove, hdragged⟩, getLastD_eq_getLast?, hlast,
    Option.getD_some]

theorem place_of_notMem (h : j ∉ idx) (hmoved : j ∉ movedOps g env.moveDead idx (deadOf env g)) :
    place env g idx j = toLex (j, 0) := by
  rw [place, if_neg h, if_neg (mt ((movedOps_spec env.moveDead).1 j).mpr hmoved)]

/-- The new ops stand for those of the graph. -/
theorem standsFor_placedOps (hlast : idx.getLast? = some last)
    (hvalid : ∀ j ∈ idx, j < g.ops.length) :
    StandsFor env g idx (placedOps g idx (movedOps g env.moveDead idx (deadOf env g))
      (regionOp env (opsAt g idx) read)) := by
  generalize hrop : regionOp env (opsAt g idx) read = rop
  have hmem : last ∈ idx := mem_of_getLast? hlast
  have hdisjoint : ∀ j ∈ movedOps g env.moveDead idx (deadOf env g), j ∉ idx :=
    fun j hj => (((movedOps_spec env.moveDead).1 j).mp hj).2.bounds.2.1
  -- The region op is at the place of the last member.
  have hregion : (rop, toLex (last, 0)) ∈
      placedOps g idx (movedOps g env.moveDead idx (deadOf env g)) rop := by
    refine mem_flatMap.mpr ⟨(g.ops.get ⟨last, hvalid last hmem⟩, last),
      mem_zipIdx_iff_getElem?.mpr (getElem?_eq_getElem _), ?_⟩
    rw [if_neg, if_pos hlast.symm]
    · exact mem_cons_self
    · rintro (⟨-, hne⟩ | hmoved)
      · exact hne hlast.symm
      · exact hdisjoint last hmoved hmem
  have hother : ∀ j o, g.ops[j]? = some o → j ∉ idx →
      (o, place env g idx j) ∈ placedOps g idx (movedOps g env.moveDead idx (deadOf env g)) rop := by
    intro j o ho hj
    by_cases hmoved : j ∈ movedOps g env.moveDead idx (deadOf env g)
    · rw [place_of_mem_movedOps hmoved hlast]
      refine mem_flatMap.mpr ⟨(g.ops.get ⟨last, hvalid last hmem⟩, last),
        mem_zipIdx_iff_getElem?.mpr (getElem?_eq_getElem _), ?_⟩
      rw [if_neg, if_pos hlast.symm]
      · refine mem_cons_of_mem _ (mem_filterMap.mpr ⟨j, hmoved, ?_⟩)
        rw [ho]
        rfl
      · rintro (⟨-, hne⟩ | hlastMoved)
        · exact hne hlast.symm
        · exact hdisjoint last hlastMoved hmem
    · rw [place_of_notMem hj hmoved]
      refine mem_flatMap.mpr ⟨(o, j), mem_zipIdx_iff_getElem?.mpr ho, ?_⟩
      rw [if_neg (not_or.mpr ⟨fun h => hj h.1, hmoved⟩), if_neg]
      · exact mem_singleton_self _
      · intro heq
        have hjlast : j = last := Option.some.inj (heq.trans hlast)
        exact hj (hjlast ▸ hmem)
  have hall : ∀ x ∈ placedOps g idx (movedOps g env.moveDead idx (deadOf env g)) rop,
      x = (rop, toLex (last, 0)) ∨
        ∃ j o, g.ops[j]? = some o ∧ j ∉ idx ∧ x = (o, place env g idx j) := by
    intro x hx
    obtain ⟨⟨o, j⟩, hj, hx⟩ := mem_flatMap.mp hx
    have ho := mem_zipIdx_iff_getElem?.mp hj
    split_ifs at hx with hskip heq
    · cases hx
    · obtain rfl := Option.some.inj (heq.trans hlast)
      rcases mem_cons.mp hx with rfl | hx
      · exact .inl rfl
      · obtain ⟨k, hk, hkx⟩ := mem_filterMap.mp hx
        obtain ⟨o', ho', rfl⟩ := Option.map_eq_some_iff.mp hkx
        exact .inr ⟨k, o', ho', hdisjoint k hk, by rw [place_of_mem_movedOps hk hlast]⟩
    · rw [not_or, not_and, not_not] at hskip
      have hnot : j ∉ idx := fun h => heq (hskip.1 h)
      exact .inr ⟨j, o, ho, hnot, by
        rw [mem_singleton.mp hx, place_of_notMem hnot hskip.2]⟩
  subst hrop
  constructor
  case placed =>
    intro j o ho
    by_cases hj : j ∈ idx
    · have hmember : o ∈ opsAt g idx := mem_opsAt.mpr ⟨j, hj, ho⟩
      refine ⟨_, hregion, (place_of_mem hj hlast).symm, fun t ht => ?_, fun t ht hfree => ?_⟩
      · exact mem_outs_regionOp.mpr ⟨o, hmember, ht⟩
      · exact mem_inputs_regionOp.mpr ⟨⟨o, hmember, ht⟩, hfree hj⟩
    · exact ⟨_, hother j o ho hj, rfl, fun t ht => ht, fun t ht _ => ht⟩
  case makes =>
    intro x hx t ht
    rcases hall x hx with rfl | ⟨j, o, ho, -, rfl⟩
    · obtain ⟨m, hm, hmt⟩ := mem_outs_regionOp.mp ht
      obtain ⟨j, hj, ho⟩ := mem_opsAt.mp hm
      exact ⟨j, m, ho, hmt, place_of_mem hj hlast⟩
    · exact ⟨j, o, ho, ht, rfl⟩
  case reads =>
    intro x hx t ht
    rcases hall x hx with rfl | ⟨j, o, ho, hj, rfl⟩
    · obtain ⟨⟨m, hm, hmt⟩, hfree⟩ := mem_inputs_regionOp.mp ht
      obtain ⟨j, hj, ho⟩ := mem_opsAt.mp hm
      exact ⟨j, m, ho, hmt, fun _ => hfree, place_of_mem hj hlast⟩
    · exact ⟨j, o, ho, ht, fun h => absurd h hj, rfl⟩

/-- The check of the order of the new ops, for the ops of the graph. -/
theorem readBeforeDefined_mergedOps_iff (hlast : idx.getLast? = some last)
    (hvalid : ∀ j ∈ idx, j < g.ops.length) :
    readBeforeDefined (mergedOps g idx (movedOps g env.moveDead idx (deadOf env g))
      (regionOp env (opsAt g idx) read)) = [] ↔ KeepsOrder env g idx := by
  rw [← map_fst_placedOps]
  exact (standsFor_placedOps hlast hvalid).keepsOrder_iff
    (placedOps_pairwise (movedOps_spec env.moveDead).2 _)

end

/-! ### Aliases -/

/-- A legal end, for the ops: what a view makes in the window is not returned, and not read behind the
window in the run. -/
theorem legalEnd_aliasReach_iff {g : PruneGraph} {run : List ℕ} {a b : ℕ} (hab : a < b)
    (hle : b ≤ run.length) : legalEnd (aliasReach g run) a b = true ↔
      ∀ p i, a ≤ p → p < b → run[p]? = some i → (opAt g i).op ∈ aliasOps →
        ∀ t ∈ (opAt g i).outputs, t ∉ graphOuts g ∧
          ∀ q j, b ≤ q → run[q]? = some j → t ∉ (opAt g j).inputs := by
  constructor
  · intro h p i ha hb hp halias t ht
    exact of_legalEnd_aliasReach h hle ha hb hp halias ht
  · refine fun h => legalEnd_iff.mpr ⟨hab, fun p ha hb => ?_⟩
    have hp : run[p]? = some run[p] := getElem?_eq_getElem (by omega)
    rw [aliasReach, getD_eq_getElem?_getD, getElem?_map, hp, Option.map_some, Option.getD_some]
    split_ifs with halias
    · rw [← foldl_map, foldl_max_lt_iff]
      refine ⟨by omega, fun y hy => ?_⟩
      obtain ⟨t, ht, rfl⟩ := mem_map.mp hy
      obtain ⟨hout, hbehind⟩ := h p run[p] ha hb hp halias t ht
      rw [lastUse, if_neg hout]
      cases hread : lastRead g run t with
      | none => exact (by omega : (-1 : ℤ) < b)
      | some u =>
        -- The last reader is in the run.
        have hmem := (max?_eq_some_iff.mp hread).1
        rw [mem_filter, mem_range, decide_eq_true_iff, getD_eq_getElem?_getD] at hmem
        have hu : run[u]? = some run[u] := getElem?_eq_getElem hmem.1
        rw [hu] at hmem
        refine Int.ofNat_lt.mpr (not_le.mp fun hbu => ?_)
        exact hbehind u run[u] hbu hu hmem.2
    · omega

section
variable {run : List ℕ} {a b : ℕ} {gouts : List String}

theorem opAt_toPrune (ho : g.ops[i]? = some o) : opAt g.toPrune i = o.toPrune := by
  rw [opAt, getD_eq_getElem?_getD, RegionGraph.toPrune, getElem?_map, ho, Option.map_some,
    Option.getD_some]

theorem graphOuts_toPrune (h : outputsOf g = some gouts) : graphOuts g.toPrune = gouts := by
  unfold outputsOf at h
  unfold graphOuts RegionGraph.toPrune
  cases hout : g.output with
  | none =>
    rw [hout] at h
    cases h
  | some out =>
    rw [hout] at h
    dsimp only at h ⊢
    split_ifs at h ⊢ with htensors
    · rw [h, Option.getD_some]
    · obtain ⟨t, ht, rfl⟩ := Option.map_eq_some_iff.mp h
      rw [ht]
      rfl

/-- The views of a window are read in its run only, and not before the window. -/
def AliasesStay (env : RegionEnv) (g : RegionGraph) (run : List ℕ) (a b : ℕ) : Prop :=
  ∀ i ∈ windowOf run a b, ∀ o, g.ops[i]? = some o → o.isAlias = true → ∀ t ∈ o.outputs,
    ∀ j p, g.ops[j]? = some p → j ∉ deadOf env g → t ∈ p.inputs →
      ∃ q, a ≤ q ∧ run[q]? = some j

/-- What the region reads of its views from outside. -/
theorem aliasOuts_any_iff (hrun : IsRun g.toPrune.ops (deadOf env g) run) (hab : a < b)
    (hle : b ≤ run.length) (hgouts : outputsOf g = some gouts) :
    (aliasOuts (opsAt g (windowOf run a b))).any
        (· ∈ outsideReads g (windowOf run a b) (deadOf env g) ++ gouts) = false ↔
      legalEnd (aliasReach g.toPrune run) a b = true ∧ AliasesStay env g run a b := by
  have hout : ∀ i ∈ run, ∃ o, g.ops[i]? = some o := by
    intro i hi
    obtain ⟨o, ho, -⟩ := hrun.plain i hi
    rw [RegionGraph.toPrune, getElem?_map] at ho
    obtain ⟨o', ho', -⟩ := Option.map_eq_some_iff.mp ho
    exact ⟨o', ho'⟩
  have houtside : ∀ t, t ∈ outsideReads g (windowOf run a b) (deadOf env g) ↔
      ∃ j p, g.ops[j]? = some p ∧ j ∉ windowOf run a b ∧ j ∉ deadOf env g ∧ t ∈ p.inputs := by
    intro t
    unfold outsideReads
    rw [mem_flatMap]
    constructor
    · rintro ⟨p, hp, ht⟩
      obtain ⟨j, hj, hget⟩ := mem_opsAt.mp hp
      rw [mem_filter, decide_eq_true_iff] at hj
      exact ⟨j, p, hget, hj.2.1, hj.2.2, ht⟩
    · rintro ⟨j, p, hget, hwindow, hdead, ht⟩
      refine ⟨p, mem_opsAt.mpr ⟨j, ?_, hget⟩, ht⟩
      rw [mem_filter, decide_eq_true_iff, mem_range]
      exact ⟨(List.getElem?_eq_some_iff.mp hget).1, hwindow, hdead⟩
  have hmade : ∀ t, t ∈ aliasOuts (opsAt g (windowOf run a b)) ↔
      ∃ i ∈ windowOf run a b, ∃ o, g.ops[i]? = some o ∧ o.isAlias = true ∧ t ∈ o.outputs := by
    intro t
    unfold aliasOuts
    rw [mem_flatMap]
    constructor
    · rintro ⟨o, ho, ht⟩
      rw [mem_filter] at ho
      obtain ⟨i, hi, hget⟩ := mem_opsAt.mp ho.1
      exact ⟨i, hi, o, hget, ho.2, ht⟩
    · rintro ⟨i, hi, o, hget, halias, ht⟩
      exact ⟨o, mem_filter.mpr ⟨mem_opsAt.mpr ⟨i, hi, hget⟩, halias⟩, ht⟩
  rw [legalEnd_aliasReach_iff hab hle, graphOuts_toPrune hgouts, any_eq_false]
  constructor
  · intro h
    have hnone : ∀ i ∈ windowOf run a b, ∀ o, g.ops[i]? = some o → o.isAlias = true →
        ∀ t ∈ o.outputs, t ∉ outsideReads g (windowOf run a b) (deadOf env g) ∧ t ∉ gouts := by
      intro i hi o ho halias t ht
      have hnot := h t ((hmade t).mpr ⟨i, hi, o, ho, halias, ht⟩)
      rwa [decide_eq_true_iff, mem_append, not_or] at hnot
    refine ⟨fun p i ha hb hp halias t ht => ?_, fun i hi o ho halias t ht j p hget hlive hin => ?_⟩
    · obtain ⟨o, ho⟩ := hout i (mem_of_getElem? hp)
      rw [opAt_toPrune ho] at halias ht
      have hi : i ∈ windowOf run a b := mem_windowOf.mpr ⟨p, ha, hb, hp⟩
      obtain ⟨hread, hreturned⟩ := hnone i hi o ho (decide_eq_true halias) t ht
      refine ⟨hreturned, fun q j hq hj hin => hread ((houtside t).mpr ?_)⟩
      obtain ⟨o', ho'⟩ := hout j (mem_of_getElem? hj)
      rw [opAt_toPrune ho'] at hin
      refine ⟨j, o', ho', fun hwindow => ?_, hrun.live j (mem_of_getElem? hj), hin⟩
      obtain ⟨r, -, hr, hrj⟩ := mem_windowOf.mp hwindow
      have heq : r = q := (getElem?_inj (List.getElem?_eq_some_iff.mp hrj).1
        (hrun.ascending.imp ne_of_lt)).mp (hrj.trans hj.symm)
      omega
    · by_contra hnot
      refine (hnone i hi o ho halias t ht).1 ((houtside t).mpr ⟨j, p, hget, fun hwindow => ?_, hlive, hin⟩)
      obtain ⟨r, har, -, hrj⟩ := mem_windowOf.mp hwindow
      exact hnot ⟨r, har, hrj⟩
  · rintro ⟨hlegal, hstay⟩ t ht
    obtain ⟨i, hi, o, ho, halias, hto⟩ := (hmade t).mp ht
    obtain ⟨p, ha, hb, hp⟩ := mem_windowOf.mp hi
    have hopAt := opAt_toPrune ho
    obtain ⟨hreturned, hbehind⟩ := hlegal p i ha hb hp (by rw [hopAt]; exact of_decide_eq_true halias)
      t (by rw [hopAt]; exact hto)
    rw [decide_eq_true_iff, mem_append, not_or]
    refine ⟨fun hread => ?_, hreturned⟩
    obtain ⟨j, o', ho', hwindow, hlive, hin⟩ := (houtside t).mp hread
    obtain ⟨q, haq, hq⟩ := hstay i hi o ho halias t hto j o' ho' hlive hin
    by_cases hqb : q < b
    · exact hwindow (mem_windowOf.mpr ⟨q, haq, hqb, hq⟩)
    · refine hbehind q j (not_lt.mp hqb) hq ?_
      rw [opAt_toPrune ho']
      exact hin

end

/-! ### The condition -/

/-- The arguments of a member are found; of a view it is the base. -/
def Binds (env : RegionEnv) (o : RegionOp) : Prop :=
  if o.isAlias = true then o.inputs ≠ [] else env.args o ≠ none

/-- The parameters are found if the arguments of all members are. -/
theorem regionParams_ne_none_iff {mem : List RegionOp} {outputs internal : List String} :
    regionParams env mem outputs internal ≠ none ↔ ∀ m ∈ mem, Binds env m := by
  have hsplit : (∀ m ∈ mem, Binds env m) ↔ (mem.filter (!RegionOp.isAlias ·)).mapM env.args ≠ none ∧
        (mem.filter RegionOp.isAlias).mapM (·.inputs.head?) ≠ none := by
    rw [Fallible.mapM_ne_none_iff, Fallible.mapM_ne_none_iff]
    constructor
    · refine fun h => ⟨fun m hm => ?_, fun m hm => ?_⟩
      · obtain ⟨hmem, halias⟩ := mem_filter.mp hm
        have hbinds := h m hmem
        rw [Bool.not_eq_true'] at halias
        rwa [Binds, if_neg (Bool.eq_false_iff.mp halias)] at hbinds
      · obtain ⟨hmem, halias⟩ := mem_filter.mp hm
        have hbinds := h m hmem
        rw [Binds, if_pos halias] at hbinds
        rwa [ne_eq, head?_eq_none_iff]
    · rintro ⟨hargs, hbases⟩ m hm
      unfold Binds
      split_ifs with halias
      · have hbase := hbases m (mem_filter.mpr ⟨hm, halias⟩)
        rwa [ne_eq, head?_eq_none_iff] at hbase
      · exact hargs m (mem_filter.mpr ⟨hm, by rw [Bool.eq_false_iff.mpr halias]; rfl⟩)
  rw [hsplit, regionParams]
  cases (mem.filter (!RegionOp.isAlias ·)).mapM env.args with
  | none => simp
  | some args =>
    cases (mem.filter RegionOp.isAlias).mapM (·.inputs.head?) with
    | none => simp
    | some bases => simp

/-- The last checks. -/
theorem finishRegion_iff {rop : RegionOp} :
    (∃ made, finishRegion env g mem rop ops = .ok made) ↔
      readBeforeDefined ops = [] ∧ ∀ m ∈ mem, Binds env m := by
  have hparams := @regionParams_ne_none_iff env mem rop.outputs rop.internal
  rw [← hparams, finishRegion]
  cases readBeforeDefined ops with
  | cons late rest =>
    refine iff_of_false ?_ fun h => cons_ne_nil _ _ h.1
    rintro ⟨made, hmade⟩
    cases hmade
  | nil =>
    cases regionParams env mem rop.outputs rop.internal with
    | none =>
      refine iff_of_false ?_ fun h => h.2 rfl
      rintro ⟨made, hmade⟩
      cases hmade
    | some params => exact iff_of_true ⟨_, rfl⟩ ⟨rfl, Option.some_ne_none params⟩

/-- What `legal_end` does not look at. -/
structure WindowFits (env : RegionEnv) (g : RegionGraph) (run : List ℕ) (a b : ℕ) : Prop where
  declared : outputsOf g ≠ none
  aliases : AliasesStay env g run a b
  order : KeepsOrder env g (windowOf run a b)
  binds : ∀ i ∈ windowOf run a b, ∀ o, g.ops[i]? = some o → Binds env o

/-- `fuse_region` returns, for the names of a window. -/
def Accepts (env : RegionEnv) (g : RegionGraph) (run : List ℕ) (a b : ℕ) : Prop :=
  ∃ made, fuseRegion env g ((opsAt g (windowOf run a b)).map RegionOp.name) = .ok made

section
variable {run : List ℕ} {a b : ℕ}

/-- No op runs between the members. -/
theorem IsRun.earlyReader_eq_none (hrun : IsRun g.toPrune.ops (deadOf env g) run) :
    earlyReader g (windowOf run a b) (deadOf env g) = none := by
  have hnil : ((between (windowOf run a b)).filter fun j =>
      j ∉ windowOf run a b ∧ j ∉ deadOf env g) = [] := by
    rw [filter_eq_nil_iff]
    intro j hj hnot
    obtain ⟨hwindow, hlive⟩ := of_decide_eq_true hnot
    obtain ⟨hlo, hhi⟩ := mem_range'_1.mp hj
    cases hidx : windowOf run a b with
    | nil =>
      rw [hidx] at hhi
      simp at hhi
    | cons first rest =>
      rw [hidx] at hlo hhi
      have hfirst : first ∈ windowOf run a b := by
        rw [hidx]
        exact mem_cons_self
      have hlast : (first :: rest).getLastD 0 ∈ windowOf run a b := by
        rw [hidx, getLastD_cons]
        exact getLastD_mem_cons
      rw [headD_cons] at hlo hhi
      have hne : j ≠ first := fun heq => hwindow (heq ▸ hfirst)
      rcases hrun.convex_windowOf hfirst hlast (by omega) (by omega : j < _) with h | h
      · exact hwindow h
      · exact hlive h
  rw [earlyReader, hnil]
  rfl

/-- What is needed for a window to be accepted. -/
theorem accepts_iff (hnames : (g.ops.map RegionOp.name).Nodup)
    (hrun : run ∈ eligibleRuns env.serialKinds g.toPrune) (hab : a < b) (hle : b ≤ run.length)
    (hmembers : 2 ≤ (opsAt g (windowOf run a b)).countP (!RegionOp.isAlias ·))
    (hcap : (opsAt g (windowOf run a b)).length ≤ env.cap) :
    Accepts env g run a b ↔
      legalEnd (aliasReach g.toPrune run) a b = true ∧ WindowFits env g run a b := by
  have hisRun : IsRun g.toPrune.ops (deadOf env g) run := isRun_of_mem_eligibleRuns hrun
  have hvalid : ∀ i ∈ windowOf run a b, i < g.ops.length := by
    intro i hi
    obtain ⟨o, ho, -⟩ := hisRun.plain i (mem_of_mem_windowOf hi)
    have hlt := (List.getElem?_eq_some_iff.mp ho).1
    rwa [RegionGraph.toPrune, length_map] at hlt
  have hplain : ((opsAt g (windowOf run a b)).any fun m => isRegion m.op) = false := by
    rw [any_eq_false]
    intro m hm
    obtain ⟨i, hi, ho⟩ := mem_opsAt.mp hm
    obtain ⟨o, ho', hnot⟩ := hisRun.plain i (mem_of_mem_windowOf hi)
    rw [RegionGraph.toPrune, getElem?_map, ho, Option.map_some] at ho'
    obtain rfl := Option.some.inj ho'
    exact Bool.eq_false_iff.mp hnot
  obtain ⟨last, hlast⟩ : ∃ last, (windowOf run a b).getLast? = some last := by
    cases hidx : (windowOf run a b).getLast? with
    | none =>
      rw [getLast?_eq_none_iff] at hidx
      rw [hidx] at hmembers
      simp [opsAt] at hmembers
    | some last => exact ⟨last, rfl⟩
  have hbinds : (∀ m ∈ opsAt g (windowOf run a b), Binds env m) ↔
      ∀ i ∈ windowOf run a b, ∀ o, g.ops[i]? = some o → Binds env o := by
    constructor
    · exact fun h i hi o ho => h o (mem_opsAt.mpr ⟨i, hi, ho⟩)
    · intro h m hm
      obtain ⟨i, hi, ho⟩ := mem_opsAt.mp hm
      exact h i hi m ho
  have hpositions := positions_names hnames hisRun.ascending_windowOf hvalid
  unfold Accepts fuseRegion
  rw [hpositions]
  dsimp only
  unfold fuseAt
  rw [show deadOps env.serialKinds g.toPrune none = deadOf env g from rfl, if_neg (by omega),
    if_neg (Bool.eq_false_iff.mp hplain), hisRun.earlyReader_eq_none]
  cases hgouts : outputsOf g with
  | none =>
    refine iff_of_false ?_ fun h => h.2.declared hgouts
    rintro ⟨made, hmade⟩
    cases hmade
  | some gouts =>
    dsimp only
    have halias := @aliasOuts_any_iff env g run a b gouts hisRun hab hle hgouts
    by_cases hany : (aliasOuts (opsAt g (windowOf run a b))).any
        (· ∈ outsideReads g (windowOf run a b) (deadOf env g) ++ gouts) = true
    · rw [if_pos hany]
      refine iff_of_false ?_ fun h => ?_
      · rintro ⟨made, hmade⟩
        cases hmade
      · rw [halias.mpr ⟨h.1, h.2.aliases⟩] at hany
        cases hany
    · rw [if_neg hany]
      obtain ⟨hlegal, hstay⟩ := halias.mp (Bool.eq_false_iff.mpr hany)
      have horder := @readBeforeDefined_mergedOps_iff env g (windowOf run a b) last
        (outsideReads g (windowOf run a b) (deadOf env g) ++ gouts) hlast hvalid
      rw [finishRegion_iff, horder, hbinds]
      constructor
      · rintro ⟨hkeep, hbind⟩
        refine ⟨hlegal, ?_, hstay, hkeep, hbind⟩
        rw [hgouts]
        exact Option.some_ne_none gouts
      · exact fun h => ⟨h.2.order, h.2.binds⟩

/-- `fuse_region` and `legal_end` agree on a window exactly if the window fits, or is not legal. -/
theorem accepts_iff_legalEnd_iff (env : RegionEnv) (g : RegionGraph)
    (hnames : (g.ops.map RegionOp.name).Nodup) (run : List ℕ)
    (hrun : run ∈ eligibleRuns env.serialKinds g.toPrune) (a b : ℕ) (hle : b ≤ run.length)
    (hmembers : 2 ≤ (opsAt g (windowOf run a b)).countP (!RegionOp.isAlias ·))
    (hcap : (opsAt g (windowOf run a b)).length ≤ env.cap) :
    (Accepts env g run a b ↔ legalEnd (aliasReach g.toPrune run) a b = true) ↔
      (legalEnd (aliasReach g.toPrune run) a b = true → WindowFits env g run a b) := by
  have hab : a < b := by
    by_contra hba
    have hnil : windowOf run a b = [] := by
      rw [windowOf, drop_eq_nil_iff, length_take]
      omega
    rw [hnil] at hmembers
    simp [opsAt] at hmembers
  rw [accepts_iff hnames hrun hab hle hmembers hcap]
  tauto

end

/-! ### Instances -/

/-- An op with one output and one input, which are its arguments. -/
def unaryOp (name op input output : String) : RegionOp :=
  ⟨name, op, [input], [output], [], [], 0, none, none⟩

/-- The default cap and switch, and kernels that take the inputs and the outputs. -/
def plainEnv : RegionEnv where
  serialKinds := []
  cap := 256
  moveDead := true
  kindOf := fun _ => "region__ops__0"
  args := fun o => some (o.inputs.map (⟨.input, ·⟩) ++ o.outputs.map (⟨.output, ·⟩))

/-- A view between two ops, and a region op that reads `read`. -/
def viewGraph (read : List String) : RegionGraph where
  ops := [unaryOp "a" "relu" "x" "h", unaryOp "v" "view" "h" "w", unaryOp "b" "relu" "w" "k",
    ⟨"r", "region__ops__1", read, ["y"], [], [], 0, none, none⟩]
  output := some ⟨none, some "y"⟩

/-- The view is read by the next op only. -/
theorem accepts_view : Accepts plainEnv (viewGraph ["k"]) [0, 1, 2] 0 3 ↔
    legalEnd (aliasReach (viewGraph ["k"]).toPrune [0, 1, 2]) 0 3 = true := by
  have hrun : [0, 1, 2] ∈ eligibleRuns plainEnv.serialKinds (viewGraph ["k"]).toPrune := by decide
  refine (accepts_iff_legalEnd_iff plainEnv (viewGraph ["k"]) (by decide) [0, 1, 2] hrun 0 3
    (by decide) (by decide) (by decide)).mpr fun _ => ?_
  constructor
  case declared => decide
  case aliases =>
    exact ((aliasOuts_any_iff (isRun_of_mem_eligibleRuns hrun) (by decide) (by decide)
      (rfl : _ = some ["y"])).mp (by decide)).2
  case order =>
    exact (@readBeforeDefined_mergedOps_iff plainEnv (viewGraph ["k"]) (windowOf [0, 1, 2] 0 3) 2
      ["y"] (by decide) (by decide)).mp (by decide)
  case binds =>
    have hbinds := (@regionParams_ne_none_iff plainEnv
      (opsAt (viewGraph ["k"]) (windowOf [0, 1, 2] 0 3)) [] []).mp (by decide)
    exact fun i hi o ho => hbinds o (mem_opsAt.mpr ⟨i, hi, ho⟩)

/-- The region op reads the view, too. The window is legal in its run, and it is refused. -/
theorem not_accepts_view : ((viewGraph ["k", "w"]).ops.map RegionOp.name).Nodup ∧
    [0, 1, 2] ∈ eligibleRuns plainEnv.serialKinds (viewGraph ["k", "w"]).toPrune ∧
    2 ≤ (opsAt (viewGraph ["k", "w"]) (windowOf [0, 1, 2] 0 3)).countP (!RegionOp.isAlias ·) ∧
    (opsAt (viewGraph ["k", "w"]) (windowOf [0, 1, 2] 0 3)).length ≤ plainEnv.cap ∧
    legalEnd (aliasReach (viewGraph ["k", "w"]).toPrune [0, 1, 2]) 0 3 = true ∧
    fuseRegion plainEnv (viewGraph ["k", "w"])
        ((opsAt (viewGraph ["k", "w"]) (windowOf [0, 1, 2] 0 3)).map RegionOp.name) =
      .error .aliasOutside ∧
    ¬(Accepts plainEnv (viewGraph ["k", "w"]) [0, 1, 2] 0 3 ↔
      legalEnd (aliasReach (viewGraph ["k", "w"]).toPrune [0, 1, 2]) 0 3 = true) := by
  have hlegal : legalEnd (aliasReach (viewGraph ["k", "w"]).toPrune [0, 1, 2]) 0 3 = true := by
    decide
  have hrefused : fuseRegion plainEnv (viewGraph ["k", "w"])
      ((opsAt (viewGraph ["k", "w"]) (windowOf [0, 1, 2] 0 3)).map RegionOp.name) =
        .error .aliasOutside := by
    rfl
  refine ⟨by decide, by decide, by decide, by decide, hlegal, hrefused, fun h => ?_⟩
  obtain ⟨made, hmade⟩ := h.mpr hlegal
  rw [hrefused] at hmade
  cases hmade

end ModelBlaster.RegionSlots
