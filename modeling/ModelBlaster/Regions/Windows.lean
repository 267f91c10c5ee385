import ModelBlaster.Library.Intervals
import ModelBlaster.Rewrite.GraphPrune

/-!
# Region windows

A run of ops is cut into windows, which become regions. A window `[a, b)` of positions in the run
has a bounded size, and a view that is made inside of it is not read behind it: a view is a pointer
into another tensor, and must stay inside its region.

The windows come from periodic segments of the run, and from cuts between them. Later passes move
their ends, merge them and drop some.

The number of times that a `while` loop may run is bounded; where the bound is met there is no
result.

## Main definitions

* `aliasReach`, `legalEnd`: where a window may end;
* `chunkSegment`, `motifWindows`: the windows of a segment;
* `fixBoundaries`, `coalesce`, `mergeSmall`: the later passes;
* `partitionRun`: the windows of a run.

## Main results

* `of_legalEnd_aliasReach`: what a legal end means for the ops of the run;
* `exists_chunkLoop`, `exists_mergeLoop`: the loops end;
* `fixBoundaries_spec`: what is left of a list of windows is legal.
-/

namespace ModelBlaster.RegionWindows

open GraphPrune Intervals List

/-! ### The sequence -/

/-- `ALIAS_OPS` -/
def aliasOps : List String := ["view", "chunk2_c1"]

/-- `ops[i]` -/
def opAt (g : PruneGraph) (i : ℕ) : PruneOp := g.ops.getD i ⟨"", [], []⟩

/-- The tensors that the graph returns, as this module reads them. -/
def graphOuts (g : PruneGraph) : List String :=
  match g.output with
  | none => []
  | some o => if o.tensors.getD [] ≠ [] then o.tensors.getD [] else o.tensor.toList

/-- The position of the last op of the run that reads a tensor. -/
def lastRead (g : PruneGraph) (idx : List ℕ) (t : String) : Option ℕ :=
  ((List.range idx.length).filter fun p => t ∈ (opAt g (idx.getD p 0)).inputs).max?

/-- The tensors that the run produces, with the position of the first op that produces each. -/
def firstWrites (g : PruneGraph) (idx : List ℕ) : List (String × ℕ) :=
  (List.range idx.length).foldl (fun first p =>
    (opAt g (idx.getD p 0)).outputs.foldl (fun first t =>
      if first.any fun e => e.1 = t then first else first ++ [(t, p)]) first) []

/-- The position behind which a tensor is not needed: the end of the run if the graph returns it. -/
def lastUse (g : PruneGraph) (idx : List ℕ) (t : String) : Option ℕ :=
  if t ∈ graphOuts g then some idx.length else lastRead g idx t

/-- `diff[j] += x` -/
def bump (diff : ℕ → ℤ) (j : ℕ) (x : ℤ) (i : ℕ) : ℤ := if i = j then diff i + x else diff i

/-- A tensor crosses the cuts behind its producer, up to its last reader. -/
def countCrossing (g : PruneGraph) (idx : List ℕ) (diff : ℕ → ℤ) (e : String × ℕ) : ℕ → ℤ :=
  match lastUse g idx e.1 with
  | none => diff
  | some u => if u ≤ e.2 then diff else bump (bump diff (e.2 + 1) 1) (u + 1) (-1)

/-- `cut_costs` -/
def cutCosts (g : PruneGraph) (idx : List ℕ) : List ℤ :=
  let n := idx.length
  let diff := (firstWrites g idx).foldl (countCrossing g idx) fun _ => 0
  (List.range (n + 1)).map fun j =>
    if 0 < j ∧ j < n then ((List.range (j + 1)).map diff).sum else 0

/-- `alias_reach` -/
def aliasReach (g : PruneGraph) (idx : List ℕ) : List ℤ :=
  idx.map fun i =>
    if (opAt g i).op ∈ aliasOps then
      (opAt g i).outputs.foldl (fun r t =>
        max r (((lastUse g idx t).map fun p => (p : ℤ)).getD (-1))) (-1)
    else -1

/-- `max(reach[a:b], default=-1)` -/
def reachMax (reach : List ℤ) (a b : ℕ) : ℤ := ((reach.take b).drop a).foldl max (-1)

/-- `legal_end` -/
def legalEnd (reach : List ℤ) (a b : ℕ) : Bool := a < b ∧ reachMax reach a b < b

/-! ### Cuts -/

/-- The loop of `_legal_cuts` over the next `k` cuts. -/
def legalCutsFrom (reach : List ℤ) (lo : ℕ) (run : ℤ) (c : ℕ) : ℕ → List ℕ
  | 0 => []
  | k + 1 =>
    let run' := if lo < c then max run (reach.getD (c - 1) (-1)) else run
    if run' < c then c :: legalCutsFrom reach lo run' (c + 1) k
    else legalCutsFrom reach lo run' (c + 1) k

/-- `_legal_cuts` -/
def legalCuts (reach : List ℤ) (s lo hi : ℕ) : List ℕ :=
  legalCutsFrom reach lo (reachMax reach s lo) lo (hi + 1 - lo)

/-- `_best_cut` -/
def bestCut (cost reach : List ℤ) (s lo hi : ℕ) (preferSingle : Bool) : Option ℕ :=
  let cands := legalCuts reach s lo hi
  let singles := cands.filter fun c => cost.getD c 0 = 1
  if preferSingle ∧ singles ≠ [] then singles.max?
  else
    -- The cheapest, and the largest of these.
    let m := (cands.map fun c => cost.getD c 0).min?
    (cands.filter fun c => some (cost.getD c 0) = m).max?

/-- The three ways to cut. -/
inductive Mode where
  | chunk
  | blocks
  | motif
deriving DecidableEq, Repr

/-- What the loop of `chunk_segment` does next. -/
inductive ChunkStep where
  /-- The rest is a window. -/
  | whole
  /-- A window up to the cut, which is the next start. -/
  | cut (c : ℕ)
  /-- No window; the next start. -/
  | skip (s : ℕ)
  /-- The rest stays plain. -/
  | stop
deriving DecidableEq, Repr

/-- The body of the loop of `chunk_segment`. -/
def chunkStep (cost reach : List ℤ) (hi m : ℕ) (mode : Mode) (s : ℕ) : ChunkStep :=
  let half := s + max (m / 2) 1
  if hi - s ≤ m ∧ legalEnd reach s hi then .whole
  else
    let top := if m < hi - s then min (min (s + m) hi) (hi - 1) else min (s + m) hi
    let single := if mode = .blocks then
        ((List.range' (s + 1) (top - s)).filter fun x =>
          cost.getD x 0 = 1 ∧ legalEnd reach s x).max?
      else none
    match single.or ((bestCut cost reach s (min (half + 1) top) top true).or
        (bestCut cost reach s (s + 1) top false)) with
    | some c => .cut c
    | none =>
      match (List.range' (top + 1) (hi - top)).find? fun x => legalEnd reach s x with
      | some next => .skip next
      | none => .stop

/-- The loop of `chunk_segment`, which may run `fuel` times. -/
def chunkLoop (cost reach : List ℤ) (hi m : ℕ) (mode : Mode) : ℕ → ℕ → Option (List (ℕ × ℕ))
  | fuel, s =>
    if s < hi then
      match fuel with
      | 0 => none
      | fuel + 1 =>
        match chunkStep cost reach hi m mode s with
        | .whole => some [(s, hi)]
        | .cut c => (chunkLoop cost reach hi m mode fuel c).map fun ws => (s, c) :: ws
        | .skip next => chunkLoop cost reach hi m mode fuel next
        | .stop => some []
    else some []

/-- `chunk_segment` -/
def chunkSegment (fuel : ℕ) (cost reach : List ℤ) (lo hi m : ℕ) (mode : Mode) :
    Option (List (ℕ × ℕ)) :=
  chunkLoop cost reach hi m mode fuel lo

/-! ### Windows that are moved -/

/-- The legal end of `[a, b)` that is nearest to `b`, smaller ones first. A next window that begins
at `b` begins at that end then. -/
def fixedEnd (reach : List ℤ) (size a b : ℕ) (next : Option (ℕ × ℕ)) : Option ℕ :=
  let limit := match next with
    | some w => if w.1 = b then w.2 - 1 else w.1
    | none => reach.length
  ((List.range' 1 reach.length).flatMap fun d => [b - d, b + d]).find? fun c =>
    a < c ∧ c ≤ limit ∧ c - a ≤ size ∧ legalEnd reach a c ∧
      next.all fun w => w.1 = b → w.2 - c ≤ size

/-- What `fix_boundaries` does with a window. -/
inductive Fix where
  | keep
  /-- The end moves, and the start of the next window if it was there. -/
  | move (c : ℕ)
  /-- The next window starts where this one does. -/
  | join
  | drop
deriving DecidableEq, Repr

/-- The choice of `fix_boundaries` for `[a, b)`. -/
def fixOne (reach : List ℤ) (size a b : ℕ) (next : Option (ℕ × ℕ)) : Fix :=
  if legalEnd reach a b then .keep
  else
    match fixedEnd reach size a b next with
    | some c => .move c
    | none =>
      if next.any fun w => w.1 = b ∧ w.2 - a ≤ size ∧ legalEnd reach a w.2 then .join else .drop

/-- The loop of `fix_boundaries`, from the window `[a, b)` on. -/
def fixFrom (reach : List ℤ) (size a b : ℕ) : List (ℕ × ℕ) → List (ℕ × ℕ)
  | [] =>
    match fixOne reach size a b none with
    | .keep => [(a, b)]
    | .move c => [(a, c)]
    | .join => []
    | .drop => []
  | w :: ws =>
    match fixOne reach size a b (some w) with
    | .keep => (a, b) :: fixFrom reach size w.1 w.2 ws
    | .move c => (a, c) :: fixFrom reach size (if w.1 = b then c else w.1) w.2 ws
    | .join => fixFrom reach size a w.2 ws
    | .drop => fixFrom reach size w.1 w.2 ws

/-- `fix_boundaries` -/
def fixBoundaries (wins : List (ℕ × ℕ)) (reach : List ℤ) (size : ℕ) : List (ℕ × ℕ) :=
  match sorted wins with
  | [] => []
  | w :: ws => fixFrom reach size w.1 w.2 ws

/-- The loop of `coalesce`, where `[a, b)` is the last window so far. -/
def coalesceFrom (reach : List ℤ) (size a b : ℕ) : List (ℕ × ℕ) → List (ℕ × ℕ)
  | [] => [(a, b)]
  | w :: ws =>
    if b = w.1 ∧ w.2 - a ≤ size ∧ legalEnd reach a w.2 then coalesceFrom reach size a w.2 ws
    else (a, b) :: coalesceFrom reach size w.1 w.2 ws

/-- `coalesce` -/
def coalesce (wins : List (ℕ × ℕ)) (reach : List ℤ) (size : ℕ) : List (ℕ × ℕ) :=
  match sorted wins with
  | [] => []
  | w :: ws => coalesceFrom reach size w.1 w.2 ws

/-- `_count_nonalias` of the ops of a window. -/
def countNonalias (g : PruneGraph) (idx : List ℕ) (w : ℕ × ℕ) : ℕ :=
  ((idx.take w.2).drop w.1).countP fun i => (opAt g i).op ∉ aliasOps

/-- The union of a small window with a neighbour, if they are adjacent and it fits. -/
def unionOf (size : ℕ) (w v : ℕ × ℕ) : Option (ℕ × ℕ) :=
  if (v.1 = w.2 ∨ v.2 = w.1) ∧ max w.2 v.2 - min w.1 v.1 ≤ size then
    some (min w.1 v.1, max w.2 v.2)
  else none

/-- The windows after the small window `w` between `pre` and `post` is gone. -/
def mergeAt (size : ℕ) (pre : List (ℕ × ℕ)) (w : ℕ × ℕ) (post : List (ℕ × ℕ)) : List (ℕ × ℕ) :=
  match pre.getLast?.bind (unionOf size w) with
  | some u => pre.dropLast ++ u :: post
  | none =>
    match post.head?.bind (unionOf size w) with
    | some u => pre ++ u :: post.tail
    | none => pre ++ post

/-- The first small window of a list, behind the windows `pre`, is merged or dropped. -/
def mergeStep (small : ℕ × ℕ → Bool) (size : ℕ) (pre : List (ℕ × ℕ)) :
    List (ℕ × ℕ) → Option (List (ℕ × ℕ))
  | [] => none
  | w :: post =>
    if small w then some (mergeAt size pre w post) else mergeStep small size (pre ++ [w]) post

/-- The loop of `_merge_small`, which may change the windows `fuel` times. -/
def mergeLoop (small : ℕ × ℕ → Bool) (size : ℕ) : ℕ → List (ℕ × ℕ) → Option (List (ℕ × ℕ))
  | fuel, wins =>
    match mergeStep small size [] wins with
    | none => some wins
    | some wins' =>
      match fuel with
      | 0 => none
      | fuel + 1 => mergeLoop small size fuel wins'

/-- `_merge_small` -/
def mergeSmall (fuel : ℕ) (wins : List (ℕ × ℕ)) (g : PruneGraph) (idx : List ℕ) (size : ℕ)
    (minOps : ℤ) : Option (List (ℕ × ℕ)) :=
  mergeLoop (fun w => countNonalias g idx w < minOps) size fuel wins

/-! ### Legal ends -/

variable {a b p c s m fuel : ℕ} {g : PruneGraph} {idx : List ℕ} {t : String}

/-- A bound of the running maximum. -/
theorem foldl_max_lt_iff {l : List ℤ} {r x : ℤ} : l.foldl max r < x ↔ r < x ∧ ∀ y ∈ l, y < x := by
  induction l generalizing r with
  | nil => simp
  | cons y l ih => rw [foldl_cons, ih, max_lt_iff, forall_mem_cons, and_assoc]

variable {reach : List ℤ}

/-- A bound of the reaches of a window. -/
theorem reachMax_lt_iff {x : ℤ} (hx : -1 < x) :
    reachMax reach a b < x ↔ ∀ p, a ≤ p → p < b → reach.getD p (-1) < x := by
  rw [reachMax, foldl_max_lt_iff]
  constructor
  · rintro ⟨-, h⟩ p ha hb
    rw [getD_eq_getElem?_getD]
    cases hp : reach[p]? with
    | none => exact hx
    | some y =>
      have hy : ((reach.take b).drop a)[p - a]? = some y := by
        rw [getElem?_drop, Nat.add_sub_cancel' ha, getElem?_take_of_lt hb, hp]
      exact h y (mem_of_getElem? hy)
  · refine fun h => ⟨hx, fun y hy => ?_⟩
    obtain ⟨i, hi⟩ := getElem?_of_mem hy
    rw [getElem?_drop] at hi
    have hlt : a + i < b := by
      by_contra hge
      rw [getElem?_take_eq_none (not_lt.mp hge)] at hi
      cases hi
    rw [getElem?_take_of_lt hlt] at hi
    have hlast := h (a + i) (Nat.le_add_right a i) hlt
    rwa [getD_eq_getElem?_getD, hi] at hlast

/-- A window ends legally if what its views reach lies before its end. -/
theorem legalEnd_iff : legalEnd reach a b = true ↔
    a < b ∧ ∀ p, a ≤ p → p < b → reach.getD p (-1) < b := by
  rw [legalEnd, decide_eq_true_iff, reachMax_lt_iff (by omega)]

/-- The maximum bounds the reaches of a window. -/
private theorem le_reachMax (ha : a ≤ p) (hb : p < b) :
    reach.getD p (-1) ≤ reachMax reach a b := by
  have hneg : -1 < reachMax reach a b + 1 := by
    by_contra hlt
    have hless : reachMax reach a b < -1 := by omega
    rw [reachMax, foldl_max_lt_iff] at hless
    exact lt_irrefl _ hless.1
  exact Int.lt_add_one_iff.mp ((reachMax_lt_iff hneg).mp (Int.lt_succ _) p ha hb)

/-- What the running maximum of `_legal_cuts` bounds: the reaches before the last cut, and before
the first one at the start. -/
private theorem of_mem_legalCutsFrom {lo c₀ k : ℕ} {run : ℤ} (hs : s < lo) (hlo : lo ≤ c₀)
    (hrun : ∀ p, s ≤ p → p < (if lo < c₀ then c₀ - 1 else c₀) → reach.getD p (-1) ≤ run)
    (h : c ∈ legalCutsFrom reach lo run c₀ k) : c₀ ≤ c ∧ c < c₀ + k ∧ legalEnd reach s c := by
  induction k generalizing c₀ run with
  | zero => cases h
  | succ k ih =>
    rw [legalCutsFrom] at h
    generalize hrun' : (if lo < c₀ then max run (reach.getD (c₀ - 1) (-1)) else run) = run' at h
    have hcover : ∀ p, s ≤ p → p < c₀ → reach.getD p (-1) ≤ run' := by
      intro p hp hlt
      rw [← hrun']
      split_ifs with hmore
      · by_cases hlast : p = c₀ - 1
        · subst hlast
          exact le_max_right _ _
        · exact (hrun p hp (by rw [if_pos hmore]; omega)).trans (le_max_left _ _)
      · exact hrun p hp (by rw [if_neg hmore]; exact hlt)
    have hrest : c ∈ legalCutsFrom reach lo run' (c₀ + 1) k →
        c₀ ≤ c ∧ c < c₀ + (k + 1) ∧ legalEnd reach s c := by
      intro hmem
      obtain ⟨hge, hlt, hlegal⟩ :=
        ih (by omega) (by rwa [if_pos (by omega), Nat.add_sub_cancel]) hmem
      exact ⟨by omega, by omega, hlegal⟩
    by_cases hcut : run' < c₀
    · rw [if_pos hcut] at h
      rcases mem_cons.mp h with rfl | hmem
      · refine ⟨le_rfl, by omega, legalEnd_iff.mpr ⟨by omega, fun p hp hlt => ?_⟩⟩
        exact (hcover p hp hlt).trans_lt hcut
      · exact hrest hmem
    · rw [if_neg hcut] at h
      exact hrest h

/-- A cut is at a legal end. -/
theorem of_mem_legalCuts {lo hi : ℕ} (hs : s < lo) (h : c ∈ legalCuts reach s lo hi) :
    lo ≤ c ∧ c ≤ hi ∧ legalEnd reach s c := by
  obtain ⟨hge, hlt, hlegal⟩ := of_mem_legalCutsFrom hs le_rfl
    (fun p hp hlt => le_reachMax hp (by rwa [if_neg (lt_irrefl lo)] at hlt)) h
  exact ⟨hge, by omega, hlegal⟩

/-- An op of the run that reads a tensor is not behind the last one that does. -/
theorem exists_lastRead {q j : ℕ} (hq : idx[q]? = some j) (ht : t ∈ (opAt g j).inputs) :
    ∃ p, lastRead g idx t = some p ∧ q ≤ p := by
  have hlt : q < idx.length := (List.getElem?_eq_some_iff.mp hq).1
  have hmem : q ∈ (List.range idx.length).filter fun p => t ∈ (opAt g (idx.getD p 0)).inputs := by
    rw [mem_filter, getD_eq_getElem?_getD, hq]
    exact ⟨mem_range.mpr hlt, decide_eq_true ht⟩
  cases hmax : lastRead g idx t with
  | none => exact absurd hmem (by rw [max?_eq_none_iff.mp hmax]; exact not_mem_nil)
  | some p => exact ⟨p, rfl, (max?_eq_some_iff.mp hmax).2 q hmem⟩

/-- A legal end, for the ops: what a view makes in the window is not returned, and not read behind
the window. -/
theorem of_legalEnd_aliasReach {i : ℕ} (h : legalEnd (aliasReach g idx) a b = true)
    (hle : b ≤ idx.length) (ha : a ≤ p) (hb : p < b) (hp : idx[p]? = some i)
    (halias : (opAt g i).op ∈ aliasOps) (ht : t ∈ (opAt g i).outputs) :
    t ∉ graphOuts g ∧ ∀ q j, b ≤ q → idx[q]? = some j → t ∉ (opAt g j).inputs := by
  have hreach := (legalEnd_iff.mp h).2 p ha hb
  have hlast : ∀ u, lastUse g idx t = some u → u < b := by
    rw [aliasReach, getD_eq_getElem?_getD, getElem?_map, hp, Option.map_some,
      Option.getD_some, if_pos halias, ← foldl_map, foldl_max_lt_iff] at hreach
    intro u hu
    have huse := hreach.2 _ (mem_map_of_mem ht)
    rw [hu] at huse
    exact Int.ofNat_lt.mp huse
  have hout : t ∉ graphOuts g := by
    intro hmem
    have := hlast idx.length (if_pos hmem)
    omega
  refine ⟨hout, fun q j hq hj hread => ?_⟩
  obtain ⟨u, hu, hle⟩ := exists_lastRead hj hread
  have := hlast u ((if_neg hout).trans hu)
  omega

/-- The best cut is one of them. -/
theorem of_bestCut {cost : List ℤ} {lo hi : ℕ} {preferSingle : Bool} (hs : s < lo)
    (h : bestCut cost reach s lo hi preferSingle = some c) :
    lo ≤ c ∧ c ≤ hi ∧ legalEnd reach s c := by
  unfold bestCut at h
  dsimp only at h
  split_ifs at h
  · exact of_mem_legalCuts hs (mem_of_mem_filter (max?_mem h))
  · exact of_mem_legalCuts hs (mem_of_mem_filter (max?_mem h))

/-! ### Windows of a segment -/

/-- Windows of a bounded size, in ascending order within bounds. -/
structure Bounded (size lo hi : ℕ) (ws : List (ℕ × ℕ)) : Prop where
  ascending : Ascending lo hi ws
  size_le : ∀ w ∈ ws, w.2 - w.1 ≤ size

variable {size lo mid hi : ℕ} {v w : ℕ × ℕ} {vs ws : List (ℕ × ℕ)}

theorem bounded_nil (h : lo ≤ hi) : Bounded size lo hi [] := ⟨h, forall_mem_nil _⟩

theorem bounded_cons : Bounded size lo hi (w :: ws) ↔
    lo ≤ w.1 ∧ w.1 < w.2 ∧ w.2 - w.1 ≤ size ∧ Bounded size w.2 hi ws := by
  constructor
  · rintro ⟨⟨hlo, hlt, hasc⟩, hsize⟩
    rw [forall_mem_cons] at hsize
    exact ⟨hlo, hlt, hsize.1, hasc, hsize.2⟩
  · rintro ⟨hlo, hlt, hsize, hasc, hrest⟩
    exact ⟨⟨hlo, hlt, hasc⟩, forall_mem_cons.mpr ⟨hsize, hrest⟩⟩

theorem bounded_append : Bounded size lo hi (vs ++ ws) ↔
    ∃ mid, Bounded size lo mid vs ∧ Bounded size mid hi ws := by
  constructor
  · rintro ⟨hasc, hsize⟩
    obtain ⟨mid, hvs, hws⟩ := ascending_append.mp hasc
    rw [forall_mem_append] at hsize
    exact ⟨mid, ⟨hvs, hsize.1⟩, hws, hsize.2⟩
  · rintro ⟨mid, hvs, hws⟩
    exact ⟨hvs.ascending.append hws.ascending, forall_mem_append.mpr ⟨hvs.size_le, hws.size_le⟩⟩

theorem Bounded.mono {lo' hi' : ℕ} (h : Bounded size lo hi ws) (hlo : lo' ≤ lo) (hhi : hi ≤ hi') :
    Bounded size lo' hi' ws := ⟨h.ascending.mono hlo hhi, h.size_le⟩

theorem Bounded.sublist (h : Bounded size lo hi ws) (hsub : vs.Sublist ws) :
    Bounded size lo hi vs :=
  ⟨h.ascending.sublist hsub, fun w hw => h.size_le w (hsub.subset hw)⟩

/-- What a step of `chunk_segment` from `s` on may do: a window is not too large, and the next start
is behind `s`. -/
def ChunkStep.Sound (hi m s : ℕ) : ChunkStep → Prop
  | .whole => hi - s ≤ m
  | .cut c => s < c ∧ c ≤ hi ∧ c - s ≤ m
  | .skip next => s < next ∧ next ≤ hi
  | .stop => True

theorem chunkStep_sound (cost reach : List ℤ) (mode : Mode) (hm : 0 < m) (hs : s < hi) :
    (chunkStep cost reach hi m mode s).Sound hi m s := by
  unfold chunkStep
  dsimp only
  generalize htop : (if m < hi - s then min (min (s + m) hi) (hi - 1) else min (s + m) hi) = top
  have hbounds : s < top ∧ top ≤ hi ∧ top - s ≤ m := by
    rw [← htop]
    split_ifs <;> omega
  by_cases hwhole : hi - s ≤ m ∧ legalEnd reach s hi
  · rw [if_pos hwhole]
    exact hwhole.1
  rw [if_neg hwhole]
  split
  · rename_i c hc
    -- All three ways to cut stay between `s` and `top`.
    have hcut : s < c ∧ c ≤ top := by
      rw [Option.or_eq_some_iff, Option.or_eq_some_iff] at hc
      rcases hc with hsingle | ⟨-, hbest | ⟨-, hbest⟩⟩
      · split_ifs at hsingle
        have hmem := mem_of_mem_filter (max?_mem hsingle)
        rw [mem_range'_1] at hmem
        omega
      · have := of_bestCut (by omega) hbest
        omega
      · have := of_bestCut (by omega) hbest
        omega
    exact ⟨hcut.1, by omega, by omega⟩
  · split
    · rename_i next hnext
      have hmem := mem_of_find?_eq_some hnext
      rw [mem_range'_1] at hmem
      exact ⟨by omega, by omega⟩
    · trivial

/-- The loop of `chunk_segment` ends after as many steps as there are positions at most. -/
theorem exists_chunkLoop (cost reach : List ℤ) (mode : Mode) (hm : 0 < m) (hs : s ≤ hi)
    (hfuel : hi - s ≤ fuel) :
    ∃ ws, chunkLoop cost reach hi m mode fuel s = some ws ∧ Bounded m s hi ws := by
  induction fuel generalizing s with
  | zero =>
    rw [chunkLoop, if_neg (by omega)]
    exact ⟨[], rfl, bounded_nil hs⟩
  | succ fuel ih =>
    rw [chunkLoop]
    by_cases hlt : s < hi
    · rw [if_pos hlt]
      have hstep := chunkStep_sound cost reach mode hm hlt
      cases hcase : chunkStep cost reach hi m mode s with
      | whole =>
        rw [hcase] at hstep
        exact ⟨_, rfl, bounded_cons.mpr ⟨le_rfl, hlt, hstep, bounded_nil le_rfl⟩⟩
      | cut c =>
        rw [hcase] at hstep
        obtain ⟨hsc, hchi, hsize⟩ := hstep
        obtain ⟨ws, hws, hbounded⟩ := ih hchi (by omega)
        refine ⟨(s, c) :: ws, ?_, bounded_cons.mpr ⟨le_rfl, hsc, hsize, hbounded⟩⟩
        show (chunkLoop cost reach hi m mode fuel c).map (fun ws => (s, c) :: ws) = _
        rw [hws]
        rfl
      | skip next =>
        rw [hcase] at hstep
        obtain ⟨hsn, hnhi⟩ := hstep
        obtain ⟨ws, hws, hbounded⟩ := ih hnhi (by omega)
        exact ⟨ws, hws, hbounded.mono hsn.le le_rfl⟩
      | stop => exact ⟨[], rfl, bounded_nil hs⟩
    · rw [if_neg hlt]
      exact ⟨[], rfl, bounded_nil hs⟩

/-! ### The later passes -/

/-- What `fix_boundaries` may do with `[a, b)`: a window that is kept or moved is legal, and with an
end that moved into the next window, that one is not empty and not too large. -/
def Fix.Sound (reach : List ℤ) (size a b : ℕ) (next : Option (ℕ × ℕ)) : Fix → Prop
  | .keep => legalEnd reach a b
  | .move c => a < c ∧ c - a ≤ size ∧ legalEnd reach a c ∧ (next = none → c ≤ reach.length) ∧
      ∀ w, next = some w → w.1 < w.2 →
        if w.1 = b then c < w.2 ∧ w.2 - c ≤ size else c ≤ w.1
  | .join => ∀ w, next = some w → w.2 - a ≤ size
  | .drop => True

theorem fixOne_sound (reach : List ℤ) (size a b : ℕ) (next : Option (ℕ × ℕ)) :
    (fixOne reach size a b next).Sound reach size a b next := by
  unfold fixOne
  by_cases hkeep : legalEnd reach a b
  · rw [if_pos hkeep]
    exact hkeep
  rw [if_neg hkeep]
  split
  · rename_i c hc
    have hfound := find?_some hc
    simp only [Bool.and_eq_true, decide_eq_true_eq, Bool.decide_and] at hfound
    obtain ⟨hac, hlimit, hsize, hlegal, hnext⟩ := hfound
    refine ⟨hac, hsize, hlegal, ?_, ?_⟩
    · rintro rfl
      exact hlimit
    · rintro w rfl hw
      by_cases hjoined : w.1 = b
      · simp only [hjoined, if_true] at hlimit
        simp only [Option.all_some, decide_eq_true_eq] at hnext
        rw [if_pos hjoined]
        exact ⟨by omega, hnext hjoined⟩
      · simp only [hjoined, if_false] at hlimit
        rw [if_neg hjoined]
        exact hlimit
  · split_ifs with hjoin
    · rintro w rfl
      simp only [Option.any_some, decide_eq_true_eq] at hjoin
      exact hjoin.2.1
    · trivial

/-- From a window on, `fix_boundaries` keeps order and sizes, and what it keeps is legal. -/
theorem fixFrom_spec (h : Bounded size a reach.length ((a, b) :: ws)) :
    Bounded size a reach.length (fixFrom reach size a b ws) ∧
      ∀ w ∈ fixFrom reach size a b ws, legalEnd reach w.1 w.2 := by
  induction ws generalizing a b with
  | nil =>
    obtain ⟨-, hab, hsize, hrest⟩ := bounded_cons.mp h
    have hend : b ≤ reach.length := hrest.ascending
    have hsound := fixOne_sound reach size a b none
    rw [fixFrom]
    cases hcase : fixOne reach size a b none with
    | keep =>
      rw [hcase] at hsound
      exact ⟨h, forall_mem_singleton.mpr hsound⟩
    | move c =>
      rw [hcase] at hsound
      obtain ⟨hac, hfits, hlegal, hlast, -⟩ := hsound
      exact ⟨bounded_cons.mpr ⟨le_rfl, hac, hfits, bounded_nil (hlast rfl)⟩,
        forall_mem_singleton.mpr hlegal⟩
    | join => exact ⟨bounded_nil (by omega), forall_mem_nil _⟩
    | drop => exact ⟨bounded_nil (by omega), forall_mem_nil _⟩
  | cons w ws ih =>
    obtain ⟨-, hab, hsize, hnext⟩ := bounded_cons.mp h
    obtain ⟨hbw, hw, hwsize, hws⟩ := bounded_cons.mp hnext
    have hsame : Bounded size w.1 reach.length ((w.1, w.2) :: ws) :=
      bounded_cons.mpr ⟨le_rfl, hw, hwsize, hws⟩
    have hsound := fixOne_sound reach size a b (some w)
    rw [fixFrom]
    cases hcase : fixOne reach size a b (some w) with
    | keep =>
      rw [hcase] at hsound
      obtain ⟨hrest, hlegal⟩ := ih hsame
      exact ⟨bounded_cons.mpr ⟨le_rfl, hab, hsize, hrest.mono hbw le_rfl⟩,
        forall_mem_cons.mpr ⟨hsound, hlegal⟩⟩
    | move c =>
      rw [hcase] at hsound
      obtain ⟨hac, hfits, hlegal, -, hinto⟩ := hsound
      -- The next window begins at `c`, or behind it.
      have hmoved : c ≤ (if w.1 = b then c else w.1) ∧
          Bounded size (if w.1 = b then c else w.1) reach.length
            ((if w.1 = b then c else w.1, w.2) :: ws) := by
        have hbehind := hinto w rfl hw
        split_ifs at hbehind ⊢ with hjoined
        · exact ⟨le_rfl, bounded_cons.mpr ⟨le_rfl, hbehind.1, hbehind.2, hws⟩⟩
        · exact ⟨hbehind, hsame⟩
      obtain ⟨hrest, hrestlegal⟩ := ih hmoved.2
      exact ⟨bounded_cons.mpr ⟨le_rfl, hac, hfits, hrest.mono hmoved.1 le_rfl⟩,
        forall_mem_cons.mpr ⟨hlegal, hrestlegal⟩⟩
    | join =>
      rw [hcase] at hsound
      exact ih (bounded_cons.mpr ⟨le_rfl, by dsimp only; omega, hsound w rfl, hws⟩)
    | drop =>
      obtain ⟨hrest, hlegal⟩ := ih hsame
      exact ⟨hrest.mono (by omega) le_rfl, hlegal⟩

/-- `fix_boundaries` keeps order and sizes, and what it keeps is legal. -/
theorem fixBoundaries_spec (h : Bounded size 0 reach.length ws) :
    Bounded size 0 reach.length (fixBoundaries ws reach size) ∧
      ∀ w ∈ fixBoundaries ws reach size, legalEnd reach w.1 w.2 := by
  rw [fixBoundaries, sorted_eq_self h.ascending]
  cases ws with
  | nil => exact ⟨h, forall_mem_nil _⟩
  | cons w ws =>
    obtain ⟨-, hw, hsize, hws⟩ := bounded_cons.mp h
    obtain ⟨hrest, hlegal⟩ := fixFrom_spec (bounded_cons.mpr ⟨le_rfl, hw, hsize, hws⟩)
    exact ⟨hrest.mono (Nat.zero_le _) le_rfl, hlegal⟩

theorem bounded_coalesceFrom (h : Bounded size lo hi ((a, b) :: ws)) :
    Bounded size lo hi (coalesceFrom reach size a b ws) := by
  induction ws generalizing lo a b with
  | nil => exact h
  | cons w ws ih =>
    obtain ⟨hlo, hab, hsize, hnext⟩ := bounded_cons.mp h
    obtain ⟨hbw, hw, hwsize, hws⟩ := bounded_cons.mp hnext
    rw [coalesceFrom]
    split_ifs with hunion
    · exact ih (bounded_cons.mpr ⟨hlo, by dsimp only at *; omega, hunion.2.1, hws⟩)
    · exact bounded_cons.mpr ⟨hlo, hab, hsize, ih (bounded_cons.mpr ⟨hbw, hw, hwsize, hws⟩)⟩

/-- `coalesce` keeps order and sizes. -/
theorem bounded_coalesce (h : Bounded size lo hi ws) :
    Bounded size lo hi (coalesce ws reach size) := by
  rw [coalesce, sorted_eq_self h.ascending]
  cases ws with
  | nil => exact h
  | cons w ws => exact bounded_coalesceFrom h

/-- A small window is merged with the one before it, or the one behind it, or it is dropped. -/
theorem mergeAt_cases (size : ℕ) (vs : List (ℕ × ℕ)) (w : ℕ × ℕ) (ws : List (ℕ × ℕ)) :
    (∃ vs' v u, vs = vs' ++ [v] ∧ unionOf size w v = some u ∧
      mergeAt size vs w ws = vs' ++ u :: ws) ∨
    (∃ v ws' u, ws = v :: ws' ∧ unionOf size w v = some u ∧
      mergeAt size vs w ws = vs ++ u :: ws') ∨
    mergeAt size vs w ws = vs ++ ws := by
  unfold mergeAt
  split
  · rename_i u hu
    obtain ⟨v, hv, hunion⟩ := Option.bind_eq_some_iff.mp hu
    exact .inl ⟨vs.dropLast, v, u, (dropLast_append_getLast? v hv).symm, hunion, rfl⟩
  · split
    · rename_i u hu
      obtain ⟨v, hv, hunion⟩ := Option.bind_eq_some_iff.mp hu
      exact .inr (.inl ⟨v, ws.tail, u, (eq_cons_of_mem_head? hv), hunion, rfl⟩)
    · exact .inr (.inr rfl)

/-- One window is gone. -/
theorem length_mergeAt (size : ℕ) (vs : List (ℕ × ℕ)) (w : ℕ × ℕ) (ws : List (ℕ × ℕ)) :
    (mergeAt size vs w ws).length < (vs ++ w :: ws).length := by
  rcases mergeAt_cases size vs w ws with ⟨vs', v, u, rfl, -, heq⟩ | ⟨v, ws', u, rfl, -, heq⟩ | heq
  · rw [heq]
    simp
  · rw [heq]
    simp
  · rw [heq]
    simp

theorem of_unionOf {u : ℕ × ℕ} (h : unionOf size w v = some u) :
    u = (min w.1 v.1, max w.2 v.2) ∧ max w.2 v.2 - min w.1 v.1 ≤ size := by
  unfold unionOf at h
  split_ifs at h with hunion
  exact ⟨(Option.some.inj h).symm, hunion.2⟩

/-- How two windows follow each other. -/
theorem Bounded.follow (h : Bounded size lo hi (vs ++ v :: w :: ws)) :
    v.1 < v.2 ∧ v.2 ≤ w.1 ∧ w.1 < w.2 := by
  obtain ⟨mid, -, hrest⟩ := bounded_append.mp h
  obtain ⟨-, hv, -, hnext⟩ := bounded_cons.mp hrest
  obtain ⟨hle, hw, -, -⟩ := bounded_cons.mp hnext
  exact ⟨hv, hle, hw⟩

/-- Two windows that follow each other may be one. -/
theorem Bounded.union (h : Bounded size lo hi (vs ++ v :: w :: ws)) (hsize : w.2 - v.1 ≤ size) :
    Bounded size lo hi (vs ++ (v.1, w.2) :: ws) := by
  obtain ⟨hv, hle, hw⟩ := h.follow
  obtain ⟨mid, hvs, hrest⟩ := bounded_append.mp h
  obtain ⟨hlo, -, -, hnext⟩ := bounded_cons.mp hrest
  obtain ⟨-, -, -, hws⟩ := bounded_cons.mp hnext
  exact bounded_append.mpr
    ⟨mid, hvs, bounded_cons.mpr ⟨hlo, hv.trans (hle.trans_lt hw), hsize, hws⟩⟩

/-- Merging keeps order and sizes. -/
theorem bounded_mergeAt (h : Bounded size lo hi (vs ++ w :: ws)) :
    Bounded size lo hi (mergeAt size vs w ws) := by
  rcases mergeAt_cases size vs w ws with ⟨vs', v, u, rfl, hunion, heq⟩ |
    ⟨v, ws', u, rfl, hunion, heq⟩ | heq
  · rw [append_assoc] at h
    obtain ⟨rfl, hsize⟩ := of_unionOf hunion
    have hfits := h.follow
    rw [heq, min_eq_right (by omega), max_eq_left (by omega)]
    exact h.union (by omega)
  · obtain ⟨rfl, hsize⟩ := of_unionOf hunion
    have hfits := h.follow
    rw [heq, min_eq_left (by omega), max_eq_right (by omega)]
    exact h.union (by omega)
  · rw [heq]
    exact h.sublist (List.Sublist.append_left (sublist_cons_self w ws) vs)

/-- A step of `_merge_small` keeps order and sizes, and makes the list shorter. -/
theorem mergeStep_spec {small : ℕ × ℕ → Bool} (h : Bounded size lo hi (vs ++ ws))
    {wins : List (ℕ × ℕ)} (hstep : mergeStep small size vs ws = some wins) :
    Bounded size lo hi wins ∧ wins.length < (vs ++ ws).length := by
  induction ws generalizing vs with
  | nil => cases hstep
  | cons w ws ih =>
    rw [mergeStep] at hstep
    split_ifs at hstep with hsmall
    · obtain rfl := Option.some.inj hstep
      exact ⟨bounded_mergeAt h, length_mergeAt size vs w ws⟩
    · have hsame : vs ++ [w] ++ ws = vs ++ w :: ws := by simp
      rw [← hsame] at h ⊢
      exact ih h hstep

/-- The loop of `_merge_small` ends after as many steps as there are windows at most. -/
theorem exists_mergeLoop (small : ℕ × ℕ → Bool) (h : Bounded size lo hi ws)
    (hfuel : ws.length ≤ fuel) :
    ∃ wins, mergeLoop small size fuel ws = some wins ∧ Bounded size lo hi wins := by
  induction fuel generalizing ws with
  | zero =>
    obtain rfl := length_eq_zero_iff.mp (Nat.le_zero.mp hfuel)
    exact ⟨[], rfl, h⟩
  | succ fuel ih =>
    rw [mergeLoop]
    cases hstep : mergeStep small size [] ws with
    | none => exact ⟨ws, rfl, h⟩
    | some wins =>
      have hspec := @mergeStep_spec size lo hi [] ws small h wins hstep
      have hlen : wins.length < ws.length := hspec.2
      exact ih hspec.1 (by omega)

end ModelBlaster.RegionWindows
