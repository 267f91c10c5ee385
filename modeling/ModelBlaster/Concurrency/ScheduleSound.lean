import ModelBlaster.Concurrency.Schedule
import ModelBlaster.Library.StraightLine
import Mathlib.Algebra.Order.BigOperators.Group.Finset

/-!
# Soundness of plans

Calls that a plan leaves unordered have nothing to do with one another: they may run in either
order, or at the same time, and leave the memory as the calls one after the other do.

## Main definitions

* `PlanSound`: what is asked of a plan;
* `Respects`: the steps of the calls stay within what their calls touch;
* `IsOverlap`: an order of the steps that a plan allows;
* `chainWidths`: the branches around the calls, before they are capped;
* `Plan.concWidth`, `smBudget`: what a call is told;
* `Plan.Unordered`: calls that may all run at the same time;
* `Plan.Fits`: their shares are no more than the device has.

## Main results

* `schedule_sound`: the plans of `schedule` are sound;
* `card_le_widths`: calls that may all run at the same time are in different chains;
* `smBudget_fits_iff`: the shares fit on every device if and only if no 33 calls are unordered.
-/

namespace ModelBlaster.Concurrency

open KernelFusion BitMask StraightLine List

/-! ### Predecessors -/

/-- A direct predecessor. -/
def Plan.Edge (plan : Plan) (j k : ℕ) : Prop := ∃ l, plan.preds[k]? = some l ∧ j ∈ l

section
variable {A : List ℕ}

/-- The call is in the mask of another. -/
def InMask (A : List ℕ) (j k : ℕ) : Prop := (A.getD k 0).testBit j = true

variable {k j n : ℕ}

theorem InMask.lt_length (h : InMask A j k) : k < A.length := by
  by_contra hk
  rw [InMask, getD_eq_getElem?_getD, getElem?_eq_none (Nat.le_of_not_lt hk)] at h
  simp at h

/-- The direct predecessors are those with nothing in between. -/
theorem mem_directPreds_iff :
    (∃ l, (directPreds A)[k]? = some l ∧ j ∈ l) ↔ Covering.Direct (InMask A) j k := by
  have hget : ∀ m, A[k]? = some m → A.getD k 0 = m := fun m hm => by
    rw [getD_eq_getElem?_getD, hm]
    rfl
  have hbits : ∀ m, A.getD k 0 = m →
      (j ∈ bits (m.ldiff ((bits m).foldl (fun cover i => cover ||| A.getD i 0) 0)) ↔
        Covering.Direct (InMask A) j k) := by
    rintro m rfl
    rw [mem_bits, testBit_ldiff_iff, testBit_foldl_or, Covering.Direct]
    refine and_congr_right fun _ => not_congr ?_
    constructor
    · rintro (hzero | ⟨i, hi, hbit⟩)
      · simp at hzero
      · exact ⟨i, hbit, mem_bits.mp hi⟩
    · rintro ⟨i, hji, hik⟩
      exact .inr ⟨i, mem_bits.mpr hik, hji⟩
  rw [directPreds, getElem?_map]
  constructor
  · rintro ⟨l, hl, hj⟩
    obtain ⟨m, hm, rfl⟩ := Option.map_eq_some_iff.mp hl
    exact (hbits m (hget m hm)).mp hj
  · intro hdirect
    have hm := getElem?_eq_getElem (InMask.lt_length hdirect.1)
    rw [hm]
    exact ⟨_, rfl, (hbits _ (hget _ hm)).mpr hdirect⟩

/-! ### Lanes -/

theorem getD_modify (D : List ℕ) (j i : ℕ) (f : ℕ → ℕ) (hj : j < D.length) :
    (D.modify j f).getD i 0 = if i = j then f (D.getD i 0) else D.getD i 0 := by
  by_cases hij : j = i
  · subst hij
    simp [getElem?_eq_getElem hj]
  · rw [if_neg fun h => hij h.symm]
    simp [hij]

theorem length_markAll (l D : List ℕ) (k : ℕ) :
    (l.foldl (fun D j => D.modify j fun d => d ||| single k) D).length = D.length := by
  induction l generalizing D with
  | nil => rfl
  | cons j rest ih => rw [foldl_cons, ih, length_modify]

/-- A call is put into the masks of those that it waits for. -/
theorem testBit_markAll {l D : List ℕ} (hl : ∀ j ∈ l, j < D.length) (k i x : ℕ) :
    ((l.foldl (fun D j => D.modify j fun d => d ||| single k) D).getD i 0).testBit x = true ↔
      (D.getD i 0).testBit x = true ∨ i ∈ l ∧ x = k := by
  induction l generalizing D with
  | nil => simp
  | cons j rest ih =>
    have hlen : (D.modify j fun d => d ||| single k).length = D.length := length_modify _ _ _
    have hrest : ∀ j' ∈ rest, j' < (D.modify j fun d => d ||| single k).length := fun j' hj' => by
      rw [hlen]
      exact hl j' (mem_cons_of_mem j hj')
    rw [foldl_cons, ih hrest, getD_modify _ _ _ _ (hl j mem_cons_self), mem_cons]
    by_cases hij : i = j
    · rw [if_pos hij, testBit_or_iff, testBit_single]
      grind
    · rw [if_neg hij]
      grind

/-- The descendants of a call are those in whose masks it is. -/
theorem testBit_descendants (hbelow : ∀ j k, InMask A j k → j < k) (i x : ℕ) :
    ((descendants A).getD i 0).testBit x = true ↔ InMask A i x := by
  have hbits : ∀ e ∈ A.zipIdx, ∀ j ∈ bits e.1, j < A.length := by
    rintro ⟨m, k⟩ he j hj
    have hm := mem_zipIdx_iff_getElem?.mp he
    have hin : InMask A j k := by
      rw [InMask, getD_eq_getElem?_getD, hm]
      exact mem_bits.mp hj
    exact (hbelow j k hin).trans hin.lt_length
  have hmarks : ∀ (l : List (ℕ × ℕ)) (D : List ℕ), D.length = A.length →
      (∀ e ∈ l, ∀ j ∈ bits e.1, j < A.length) → (((l.foldl (fun D mk => (bits mk.1).foldl
          (fun D j => D.modify j fun d => d ||| single mk.2) D) D).getD i 0).testBit x = true ↔
            (D.getD i 0).testBit x = true ∨ ∃ e ∈ l, i ∈ bits e.1 ∧ x = e.2) := by
    intro l
    induction l with
    | nil => simp
    | cons e rest ih =>
      intro D hlen hl
      have hinner := (length_markAll (bits e.1) D e.2).trans hlen
      rw [foldl_cons, ih _ hinner fun e' he' => hl e' (mem_cons_of_mem e he'),
        testBit_markAll fun j hj => hlen ▸ hl e mem_cons_self j hj]
      simp only [mem_cons, exists_eq_or_imp, or_assoc]
  rw [descendants, hmarks _ _ length_replicate hbits]
  constructor
  · rintro (hzero | ⟨⟨m, k⟩, he, hi, rfl⟩)
    · rw [getD_eq_getElem?_getD, getElem?_replicate] at hzero
      split_ifs at hzero <;> simp at hzero
    · rw [InMask, getD_eq_getElem?_getD, mem_zipIdx_iff_getElem?.mp he]
      exact mem_bits.mp hi
  · intro hin
    obtain ⟨m, hm⟩ : ∃ m, A[x]? = some m := ⟨_, getElem?_eq_getElem hin.lt_length⟩
    refine .inr ⟨(m, x), mem_zipIdx_iff_getElem?.mpr hm, ?_, rfl⟩
    rw [InMask, getD_eq_getElem?_getD, hm] at hin
    exact mem_bits.mpr hin

/-- The calls that may overlap a call are those that neither waits for. -/
theorem testBit_concurrentMasks (hbelow : ∀ j k, InMask A j k → j < k) (hk : k < A.length) :
    ((concurrentMasks A (descendants A)).getD k 0).testBit j = true ↔
      j < A.length ∧ ¬InMask A j k ∧ ¬InMask A k j ∧ j ≠ k := by
  have hget : (concurrentMasks A (descendants A)).getD k 0 =
      (((single A.length - 1).ldiff (A.getD k 0)).ldiff ((descendants A).getD k 0)).ldiff
        (single k) := by
    rw [concurrentMasks, getD_eq_getElem?_getD, getElem?_map, getElem?_range hk]
    rfl
  rw [hget, testBit_ldiff_iff, testBit_ldiff_iff, testBit_ldiff_iff, testBit_allBelow,
    testBit_single, testBit_descendants hbelow, and_assoc, and_assoc]
  rfl

/-- Among `n + 1` numbers one is not taken by `n` calls. -/
theorem firstFree_notMem {taken : List ℕ} (h : taken.length ≤ n) :
    firstFree n taken ∉ taken := by
  rw [firstFree]
  cases hfind : (List.range (n + 1)).find? (· ∉ taken) with
  | some x => simpa using find?_some hfind
  | none =>
    rw [find?_eq_none] at hfind
    have hsub : List.range (n + 1) ⊆ taken := fun x hx => by simpa using hfind x hx
    have hlen := (subperm_of_subset nodup_range hsub).length_le
    rw [length_range] at hlen
    omega

/-- What is known of the lanes of the calls so far. -/
structure LaneState.Spec (slots : List String) (conc : List ℕ) (n : ℕ) (st : LaneState) : Prop where
  length : st.lane.length = n
  differ : ∀ j k, j < k → k < n → slots[j]? = slots[k]? → (conc.getD k 0).testBit j = true →
    st.lane[j]? ≠ st.lane[k]?

theorem laneState_spec {slots : List String} {conc : List ℕ} (hlen : conc.length = slots.length)
    (hn : n ≤ slots.length) :
    LaneState.Spec slots conc n
      (((slots.zip conc).take n).foldl (laneStep slots) ⟨[], PyDict.empty⟩) := by
  induction n with
  | zero => exact ⟨rfl, fun j k _ hk => absurd hk (Nat.not_lt_zero k)⟩
  | succ n ih =>
    obtain ⟨hlength, hdiffer⟩ := ih (Nat.le_of_succ_le hn)
    obtain ⟨slot, hslot⟩ : ∃ slot, slots[n]? = some slot :=
      ⟨_, getElem?_eq_getElem (show n < slots.length by omega)⟩
    obtain ⟨m, hm⟩ : ∃ m, conc[n]? = some m :=
      ⟨_, getElem?_eq_getElem (show n < conc.length by omega)⟩
    have hcall : (slots.zip conc)[n]? = some (slot, m) := getElem?_zip_eq_some.mpr ⟨hslot, hm⟩
    rw [take_add_one, hcall, Option.toList_some, foldl_append, foldl_cons, foldl_nil]
    generalize ((slots.zip conc).take n).foldl (laneStep slots) ⟨[], PyDict.empty⟩ = st at *
    have hfew : (takenLanes slots st.lane slot m).length ≤ slots.length := by
      rw [takenLanes, length_map]
      exact (length_filter_le _ _).trans (by rw [length_range]; omega)
    have hfree := firstFree_notMem hfew
    constructor
    · show (st.lane ++ [_]).length = n + 1
      rw [length_append, hlength, length_singleton]
    · intro j k hjk hk hsame hbit
      show (st.lane ++ [_])[j]? ≠ (st.lane ++ [_])[k]?
      rw [getElem?_append_left (show j < st.lane.length by omega)]
      rcases Nat.lt_succ_iff_lt_or_eq.mp hk with hk | rfl
      · rw [getElem?_append_left (by omega)]
        exact hdiffer j k hjk hk hsame hbit
      · rw [getElem?_append_right (by omega), hlength, Nat.sub_self]
        intro heq
        -- The lane of the earlier call is taken.
        apply hfree
        rw [takenLanes, mem_map]
        refine ⟨j, mem_filter.mpr ⟨mem_range.mpr (by omega), ?_⟩, ?_⟩
        · rw [getD_eq_getElem?_getD, hm] at hbit
          exact decide_eq_true ⟨hsame.trans hslot, hbit⟩
        · rw [getD_eq_getElem?_getD, heq]
          rfl

end

/-! ### Overlapping calls -/

section
variable {V : Type}

/-- The steps of a call read what the call touches, or what no call writes, and write what the call
writes. -/
def Respects (calls : List Call) (bufs : List Buffer) (steps : ℕ → List (Instr MemoryCell V)) :
    Prop :=
  ∀ (k : ℕ) c, calls[k]? = some c → ∀ x ∈ steps k,
    (∀ i ∈ x.reads, (c.Reads bufs i ∨ c.Writes bufs i) ∨ ∀ c' ∈ calls, ¬c'.Writes bufs i) ∧
      ∀ i ∈ x.writes, c.Writes bufs i

/-- The steps of the calls, one call after the other: the number of the call, and of its step. -/
def sequentialSteps (steps : ℕ → List (Instr MemoryCell V)) (order : List ℕ) : List (ℕ × ℕ) :=
  order.flatMap fun k => (List.range (steps k).length).map (Prod.mk k)

/-- The step of a number. -/
def stepAt (steps : ℕ → List (Instr MemoryCell V)) (e : ℕ × ℕ) : Instr MemoryCell V :=
  (steps e.1).getD e.2 Instr.skip

/-- A step of the same call that comes first, or of a call that has to be waited for. -/
def Plan.Before (plan : Plan) (e e' : ℕ × ℕ) : Prop :=
  (e.1 = e'.1 ∧ e.2 < e'.2) ∨ Relation.TransGen plan.Edge e.1 e'.1

/-- The calls overlap as the plan allows. -/
structure IsOverlap (plan : Plan) (steps : ℕ → List (Instr MemoryCell V))
    (events : List (ℕ × ℕ)) : Prop where
  perm : events.Perm (sequentialSteps steps (List.range plan.n))
  order : events.Pairwise fun e e' => ¬plan.Before e' e

/-- The steps overlap as those of tasks do. -/
theorem IsOverlap.overlap {plan : Plan} {steps : ℕ → List (Instr MemoryCell V)}
    {events : List (ℕ × ℕ)} (h : IsOverlap plan steps events) :
    Overlap steps (Relation.TransGen plan.Edge) (List.range plan.n) events :=
  ⟨h.perm, h.order⟩

end

/-! ### Soundness -/

/-- What is asked of a plan. -/
structure PlanSound (serialKinds : List String) (ops : List KernelOp) (calls : List Call)
    (bufs : List Buffer) (plan : Plan) : Prop where
  /-- A call is reached from those that it has to wait for, and from no others. -/
  paths : ∀ j k, Relation.TransGen plan.Edge j k ↔
    Relation.TransGen (Required serialKinds ops calls bufs) j k
  /-- No direct predecessor is reached through others. -/
  reduced : ∀ j k, plan.Edge j k →
    ¬∃ i, Relation.TransGen plan.Edge j i ∧ Relation.TransGen plan.Edge i k
  /-- Calls of one slot that may overlap have different lanes. -/
  lanes : ∀ (j k : ℕ) c c', j ≠ k → calls[j]? = some c → calls[k]? = some c' → c.slot = c'.slot →
    ¬Relation.TransGen plan.Edge j k → ¬Relation.TransGen plan.Edge k j →
      ∃ l l', plan.lane[j]? = some l ∧ plan.lane[k]? = some l' ∧ l ≠ l'
  /-- However the calls overlap, the memory is left as by the calls one after the other. -/
  overlap : ∀ (V : Type) (steps : ℕ → List (Instr MemoryCell V)), Respects calls bufs steps →
    ∀ events, IsOverlap plan steps events → ∀ σ,
      run (events.map (stepAt steps)) σ = run ((List.range plan.n).flatMap steps) σ
  /-- So it is in every order of the calls that keeps the predecessors in front. -/
  orders : ∀ (V : Type) (steps : ℕ → List (Instr MemoryCell V)), Respects calls bufs steps →
    ∀ order : List ℕ, order.Perm (List.range plan.n) →
      order.Pairwise (fun j k => ¬Relation.TransGen plan.Edge k j) → ∀ σ,
        run (order.flatMap steps) σ = run ((List.range plan.n).flatMap steps) σ

section
variable {serialKinds : List String} {ops : List KernelOp} {calls : List Call} {bufs : List Buffer}
  {policy : String} {plan : Plan}

/-- What a plan is made of. -/
structure Planned (serialKinds : List String) (ops : List KernelOp) (calls : List Call)
    (bufs : List Buffer) (plan : Plan) (A : List ℕ) : Prop where
  length : A.length = calls.length
  waits : ∀ j k, InMask A j k ↔ Relation.TransGen (Required serialKinds ops calls bufs) j k
  n : plan.n = calls.length
  preds : plan.preds = directPreds A
  lane : plan.lane =
    (assignLanes (calls.map Call.slot) (concurrentMasks A (descendants A))).lane

theorem exists_planned (hops : InOrder ops) (hpart : (calls.map Call.full).Pairwise (· < ·))
    (h : schedule serialKinds ops calls bufs policy = .ok plan) :
    ∃ A, Planned serialKinds ops calls bufs plan A := by
  obtain ⟨A₀, hA, h⟩ := Fallible.bind_eq_ok_iff.mp h
  obtain ⟨f, hf, h⟩ := Fallible.bind_eq_ok_iff.mp h
  cases h
  have hbelow := initialMasks_below hpart hA
  have hlen : (closures f.hazard A₀).1.length = A₀.length := length_closures hbelow
  have hlenA := Fallible.length_of_mapM hA
  have hrequired : ∀ j k, Waits f.hazard A₀ j k ↔ Required serialKinds ops calls bufs j k :=
    fun j k => waits_iff hops hpart hA hf
  refine ⟨(closures f.hazard A₀).1, hlen.trans hlenA, fun j k => ?_, rfl, rfl, rfl⟩
  have hsame : Waits f.hazard A₀ = Required serialKinds ops calls bufs := by
    ext j k
    exact hrequired j k
  by_cases hk : k < A₀.length
  · rw [InMask, testBit_closures hbelow hk, hsame]
  · constructor
    · intro hin
      exact absurd (hlen ▸ hin.lt_length) hk
    · intro hpath
      obtain ⟨i, -, hik⟩ := Relation.TransGen.tail'_iff.mp hpath
      exact absurd ((hrequired i k).mpr hik).2.1 hk

theorem Required.lt {j k : ℕ} (h : Required serialKinds ops calls bufs j k) : j < k := h.1

section
variable {A : List ℕ} {k j : ℕ} {V : Type}

section
variable (h : Planned serialKinds ops calls bufs plan A)
include h

theorem Planned.lt (hin : InMask A j k) :
    j < k := by
  have hpath := (h.waits j k).mp hin
  clear hin
  induction hpath with
  | single hstep => exact hstep.lt
  | tail _ hstep ih => exact ih.trans hstep.lt

theorem Planned.edge_iff (j k : ℕ) :
    plan.Edge j k ↔ Covering.Direct (InMask A) j k := by
  rw [Plan.Edge, h.preds]
  exact mem_directPreds_iff

/-- The paths of the plan are the masks. -/
theorem Planned.transGen_edge_iff (j k : ℕ) :
    Relation.TransGen plan.Edge j k ↔ InMask A j k := by
  have hedge : plan.Edge = Covering.Direct (InMask A) := by
    ext j k
    exact h.edge_iff j k
  rw [hedge]
  apply Covering.transGen_direct_iff id fun j k hin => h.lt hin
  intro i j k hij hjk
  exact (h.waits i k).mpr (((h.waits i j).mp hij).trans ((h.waits j k).mp hjk))

end

variable {steps : ℕ → List (Instr MemoryCell V)}

section
variable (h : Planned serialKinds ops calls bufs plan A)
include h

/-- Calls between which there is no path touch nothing that the other writes. -/
theorem Planned.independent (hsteps : Respects calls bufs steps) (hjk : j < k)
    (hk : k < calls.length) (hpath : ¬Relation.TransGen plan.Edge j k) {x y : Instr MemoryCell V}
    (hx : x ∈ steps j) (hy : y ∈ steps k) : Independent x y := by
  obtain ⟨c, hc⟩ : ∃ c, calls[j]? = some c := ⟨_, getElem?_eq_getElem (hjk.trans hk)⟩
  obtain ⟨c', hc'⟩ : ∃ c', calls[k]? = some c' := ⟨_, getElem?_eq_getElem hk⟩
  have hnot : ¬MustWait serialKinds ops bufs c c' := fun hwait =>
    hpath ((h.transGen_edge_iff j k).mpr ((h.waits j k).mpr (.single ⟨hjk, c, c', hc, hc', hwait⟩)))
  obtain ⟨hreads, hwrites⟩ := hsteps j c hc x hx
  obtain ⟨hreads', hwrites'⟩ := hsteps k c' hc' y hy
  constructor
  · intro i hi hi'
    rcases hreads i hi with (hread | hwrite) | hnone
    · exact hnot (.inr (.inr (.inr ⟨i, hread, hwrites' i hi'⟩)))
    · exact hnot (.inr (.inr (.inl ⟨i, hwrite, .inr (hwrites' i hi')⟩)))
    · exact hnone c' (mem_of_getElem? hc') (hwrites' i hi')
  · intro i hi hi'
    rcases hreads' i hi with (hread | hwrite) | hnone
    · exact hnot (.inr (.inr (.inl ⟨i, hwrites i hi', .inl hread⟩)))
    · exact hnot (.inr (.inr (.inl ⟨i, hwrites i hi', .inr hwrite⟩)))
    · exact hnone c (mem_of_getElem? hc) (hwrites i hi')
  · intro i hi hi'
    exact hnot (.inr (.inr (.inl ⟨i, hwrites i hi, .inr (hwrites' i hi')⟩)))

/-- No path leads back. -/
theorem Planned.not_path (hle : j ≤ k) :
    ¬Relation.TransGen plan.Edge k j := fun hpath =>
  Nat.not_lt_of_le hle (h.lt ((h.transGen_edge_iff k j).mp hpath))

/-- However the calls overlap, the memory is left as by the calls one after the other. -/
theorem Planned.run_overlap (hsteps : Respects calls bufs steps) {events : List (ℕ × ℕ)}
    (hoverlap : IsOverlap plan steps events) (σ : MemoryCell → V) :
    run (events.map (stepAt steps)) σ = run ((List.range plan.n).flatMap steps) σ := by
  apply hoverlap.overlap.run_eq nodup_range
  · exact fun k _ => h.not_path (Nat.le_refl k)
  · exact pairwise_lt_range.imp fun hlt => h.not_path (Nat.le_of_lt hlt)
  · intro j hj k hk hne hpath hpath' x hx y hy
    rw [mem_range, h.n] at hj hk
    rcases Nat.lt_or_gt_of_ne hne with hlt | hlt
    · exact h.independent hsteps hlt hk hpath hx hy
    · exact (h.independent hsteps hlt hj hpath' hy hx).symm

/-- The plans of `schedule` are sound. -/
theorem Planned.sound :
    PlanSound serialKinds ops calls bufs plan where
  paths := fun j k => (h.transGen_edge_iff j k).trans (h.waits j k)
  reduced := by
    rintro j k hedge ⟨i, hji, hik⟩
    exact ((h.edge_iff j k).mp hedge).2
      ⟨i, (h.transGen_edge_iff j i).mp hji, (h.transGen_edge_iff i k).mp hik⟩
  lanes := by
    have hslots : (calls.map Call.slot).length = calls.length := length_map _
    have hconc : (concurrentMasks A (descendants A)).length = (calls.map Call.slot).length := by
      rw [concurrentMasks, length_map, length_range, h.length, hslots]
    have hspec := laneState_spec hconc (Nat.le_refl _)
    rw [take_of_length_le (by rw [length_zip]; omega)] at hspec
    -- Of two calls the later one gets another lane.
    have hdiffer : ∀ (j k : ℕ) c c', j < k → calls[j]? = some c → calls[k]? = some c' →
        c.slot = c'.slot → ¬Relation.TransGen plan.Edge j k → plan.lane[j]? ≠ plan.lane[k]? := by
      intro j k c c' hjk hc hc' hslot hpath
      have hk := (List.getElem?_eq_some_iff.mp hc').1
      rw [h.lane]
      apply hspec.differ j k hjk (by omega)
      · rw [getElem?_map, getElem?_map, hc, hc', Option.map_some, Option.map_some, hslot]
      · rw [testBit_concurrentMasks (fun i i' => h.lt) (by have := h.length; omega)]
        have hlength := h.length
        refine ⟨by omega, fun hin => hpath ((h.transGen_edge_iff j k).mpr hin), fun hin => ?_,
          Nat.ne_of_lt hjk⟩
        exact Nat.lt_asymm hjk (h.lt hin)
    intro j k c c' hne hc hc' hslot hjk hkj
    have hj := (List.getElem?_eq_some_iff.mp hc).1
    have hk := (List.getElem?_eq_some_iff.mp hc').1
    have hlane : plan.lane.length = calls.length := by
      rw [h.lane]
      exact hspec.length.trans hslots
    have hne' : plan.lane[j]? ≠ plan.lane[k]? := by
      rcases Nat.lt_or_gt_of_ne hne with hlt | hlt
      · exact hdiffer j k c c' hlt hc hc' hslot hjk
      · exact (hdiffer k j c' c hlt hc' hc hslot.symm hkj).symm
    obtain ⟨l, hl⟩ : ∃ l, plan.lane[j]? = some l := ⟨_, getElem?_eq_getElem (by omega)⟩
    obtain ⟨l', hl'⟩ : ∃ l', plan.lane[k]? = some l' := ⟨_, getElem?_eq_getElem (by omega)⟩
    refine ⟨l, l', hl, hl', fun heq => hne' ?_⟩
    rw [hl, hl', heq]
  overlap := fun V steps hsteps events hoverlap σ => h.run_overlap hsteps hoverlap σ
  orders := by
    intro V steps hsteps order hperm horder σ
    have hnodup : order.Nodup := hperm.nodup_iff.mpr nodup_range
    have htasks : Overlap steps (Relation.TransGen plan.Edge) order (taskSteps steps order) :=
      overlap_taskSteps hnodup (fun k _ => h.not_path (Nat.le_refl k)) horder
    rw [← map_taskStep_taskSteps steps order]
    exact h.run_overlap hsteps ⟨hperm.flatMap_right _, htasks.order⟩ σ

end

end

/-- The plans of `schedule` are sound. -/
theorem schedule_sound (hops : InOrder ops) (hpart : (calls.map Call.full).Pairwise (· < ·))
    (h : schedule serialKinds ops calls bufs policy = .ok plan) :
    PlanSound serialKinds ops calls bufs plan := by
  obtain ⟨A, hplanned⟩ := exists_planned hops hpart h
  exact hplanned.sound

end

/-- Two branches of a kernel of one slot, and a sum of them through a view. -/
def forkJoinOps : List KernelOp :=
  [{ name := "a", op := "gru", inputs := ["x"], outputs := ["t"] },
    { name := "b", op := "gru", inputs := ["y"], outputs := ["u"] },
    { name := "v", op := "view", inputs := ["u"], outputs := ["w"], offset := some 4 },
    { name := "c", op := "add", inputs := ["t", "w"], outputs := ["z"] }]

@[inherit_doc forkJoinOps]
def forkJoinCalls : List Call :=
  [{ name := "a", op := "gru", inputs := [0], outputs := [2], full := 0, slot := "gru",
      stmt := "a();", scratch := [] },
    { name := "b", op := "gru", inputs := [1], outputs := [3], full := 1, slot := "gru",
      stmt := "b();", scratch := [] },
    { name := "c", op := "add", inputs := [2, 4], outputs := [5], full := 3, slot := "add",
      stmt := "c();", scratch := [] }]

@[inherit_doc forkJoinOps]
def forkJoinBuffers : List Buffer :=
  [⟨none, 8⟩, ⟨none, 8⟩, ⟨none, 8⟩, ⟨none, 8⟩, ⟨some (3, 4), 4⟩, ⟨none, 4⟩]

theorem inOrder_forkJoinOps : InOrder forkJoinOps := by
  constructor
  · simp [forkJoinOps, writtenBy]
  · simp [forkJoinOps, writtenBy]

/-- The branches have no predecessors, and two lanes. -/
theorem schedule_forkJoin :
    ∃ plan, schedule [] forkJoinOps forkJoinCalls forkJoinBuffers "split" = .ok plan ∧
      plan.preds = [[], [], [0, 1]] ∧ plan.lane = [0, 1, 0] ∧
        PlanSound [] forkJoinOps forkJoinCalls forkJoinBuffers plan := by
  obtain ⟨plan, hplan⟩ := Fallible.exists_of_isOk
    (show (schedule [] forkJoinOps forkJoinCalls forkJoinBuffers "split").isOk = true by
      decide)
  have hresult : (schedule [] forkJoinOps forkJoinCalls forkJoinBuffers "split").map
      (fun plan => (plan.preds, plan.lane)) = .ok ([[], [], [0, 1]], [0, 1, 0]) := by
    decide +kernel
  rw [hplan] at hresult
  obtain ⟨hpreds, hlane⟩ := Prod.mk.inj (Except.ok.inj hresult)
  exact ⟨plan, hplan, hpreds, hlane, schedule_sound inOrder_forkJoinOps (by decide) hplan⟩

/-! ## SM budgets -/

open Fallible

/-! ### What is emitted -/

section
variable (serialKinds : List String)

/-- `width`, before it is capped. -/
def chainWidths (ops : List KernelOp) (calls : List Call) (bufs : List Buffer) :
    Except ScheduleError (List ℕ) := do
  let A ← initialMasks ops calls
  let f ← footprints serialKinds calls bufs
  let closed := (closures f.hazard A).1
  return widths closed (concurrentMasks closed (descendants closed))

end

/-- `mb_conc_width`: the branches around a call. A plan in which nothing overlaps comes without the
table `MB_WIDTH`. -/
def Plan.concWidth (plan : Plan) (k : ℕ) : ℕ :=
  if plan.concurrent then
    (if plan.policy ≠ "none" then plan.width else List.replicate plan.n 1).getD k 0
  else 1

/-- `mb_sm_budget`, on a device that reports `sms` multiprocessors. `fixed` is `MB_SM_BUDGET`, which
is 0 if it is not set. -/
def smBudget (fixed sms width : ℕ) : ℕ :=
  let sms := max sms 1
  if 0 < fixed then min fixed sms
  else if 1 < width then max 1 (sms / width)
  else sms

/-- Calls that may all run at the same time. -/
structure Plan.Unordered (plan : Plan) (S : Finset ℕ) : Prop where
  lt : ∀ k ∈ S, k < plan.n
  antichain : IsAntichain (Relation.TransGen plan.Edge) (S : Set ℕ)

theorem Plan.Unordered.subset {plan : Plan} {S T : Finset ℕ} (h : plan.Unordered S) (hT : T ⊆ S) :
    plan.Unordered T :=
  ⟨fun k hk => h.lt k (hT hk), h.antichain.subset (Finset.coe_subset.mpr hT)⟩

/-! ### Chains -/

section
variable {A : List ℕ}

/-- What is known of the chains of the calls so far. -/
structure Chains.Spec (A : List ℕ) (n : ℕ) (st : Chains) : Prop where
  of_length : st.of.length = n
  mask_length : st.mask.length = st.last.length
  /-- A call is in the mask of its chain, and the last call of the chain is the call or waits for
  it. -/
  chain : ∀ k < n, ∃ c m e, st.of[k]? = some c ∧ st.mask[c]? = some m ∧ st.last[c]? = some e ∧
    m.testBit k = true ∧ (k = e ∨ InMask A k e)
  /-- In a chain, a call waits for those before it. -/
  ordered : ∀ j k, j < k → k < n → st.of[j]? = st.of[k]? → InMask A j k

theorem Chains.spec_nil : Chains.Spec A 0 ⟨[], [], []⟩ :=
  ⟨rfl, rfl, fun k hk => absurd hk (Nat.not_lt_zero k), fun _ k _ hk =>
    absurd hk (Nat.not_lt_zero k)⟩

/-- The chain that is found ends with a call that is waited for. -/
theorem findChain_eq_some {m c : ℕ} {last : List ℕ} (h : findChain m last = some c) :
    ∃ e, last[c]? = some e ∧ m.testBit e = true := by
  have hbit : m.testBit (last.getD c 0) = true := by simpa using find?_some h
  have hc : c < last.length := by
    have hmem := mem_of_find?_eq_some h
    rwa [mem_reverse, mem_range] at hmem
  refine ⟨last[c], getElem?_eq_getElem hc, ?_⟩
  rwa [getD_eq_getElem?_getD, getElem?_eq_getElem hc] at hbit

section
variable (htrans : ∀ i j k, InMask A i j → InMask A j k → InMask A i k)
include htrans

/-- One call more is put behind the chain that is found, or into a chain of its own. -/
theorem Chains.Spec.step {n : ℕ} {st : Chains} (h : Chains.Spec A n st) :
    Chains.Spec A (n + 1) (chainStep st (A.getD n 0, n)) := by
  rw [chainStep]
  cases hfind : findChain (A.getD n 0) st.last with
  | some c =>
    obtain ⟨e, he, hbit⟩ := findChain_eq_some hfind
    have hc := (List.getElem?_eq_some_iff.mp he).1
    have hmask : ∃ m, st.mask[c]? = some m := ⟨_, getElem?_eq_getElem (h.mask_length ▸ hc)⟩
    obtain ⟨m, hm⟩ := hmask
    -- The new call waits for all of the chain.
    have hwaits : ∀ j < n, st.of[j]? = some c → InMask A j n := by
      intro j hj hof
      obtain ⟨c', m', e', hof', -, he', -, hlast⟩ := h.chain j hj
      obtain rfl := Option.some.inj (hof.symm.trans hof')
      obtain rfl := Option.some.inj (he.symm.trans he')
      rcases hlast with rfl | hin
      · exact hbit
      · exact htrans j e n hin hbit
    constructor
    case of_length =>
      show (st.of ++ [c]).length = n + 1
      rw [length_append, h.of_length, length_singleton]
    case mask_length =>
      show (st.mask.modify c _).length = (st.last.set c n).length
      rw [length_modify, length_set, h.mask_length]
    case chain =>
      intro k hk
      show ∃ c' m' e', (st.of ++ [c])[k]? = some c' ∧
        (st.mask.modify c (· ||| single n))[c']? = some m' ∧ (st.last.set c n)[c']? = some e' ∧ _
      rcases Nat.lt_succ_iff_lt_or_eq.mp hk with hk | rfl
      · obtain ⟨c', m', e', hof, hm', he', hbit', hlast⟩ := h.chain k hk
        rw [getElem?_append_left (h.of_length.symm ▸ hk)]
        by_cases heq : c = c'
        · subst heq
          refine ⟨c, m' ||| single n, n, hof, ?_, getElem?_set_self hc, ?_, .inr (hwaits k hk hof)⟩
          · rw [getElem?_modify_eq, hm']
            rfl
          · exact testBit_or_iff.mpr (.inl hbit')
        · refine ⟨c', m', e', hof, ?_, ?_, hbit', hlast⟩
          · rw [getElem?_modify_ne _ _ heq, hm']
          · rw [getElem?_set_ne heq, he']
      · refine ⟨c, m ||| single k, k, ?_, ?_, getElem?_set_self hc, ?_, .inl rfl⟩
        · rw [getElem?_append_right h.of_length.le, h.of_length, Nat.sub_self]
          rfl
        · rw [getElem?_modify_eq, hm]
          rfl
        · exact testBit_or_iff.mpr (.inr (testBit_single.mpr rfl))
    case ordered =>
      intro j k hjk hk hsame
      change (st.of ++ [c])[j]? = (st.of ++ [c])[k]? at hsame
      rw [getElem?_append_left (show j < st.of.length by have := h.of_length; omega)] at hsame
      rcases Nat.lt_succ_iff_lt_or_eq.mp hk with hk | rfl
      · rw [getElem?_append_left (h.of_length.symm ▸ hk)] at hsame
        exact h.ordered j k hjk hk hsame
      · rw [getElem?_append_right h.of_length.le, h.of_length, Nat.sub_self] at hsame
        exact hwaits j hjk hsame
  | none =>
    constructor
    case of_length =>
      show (st.of ++ [st.last.length]).length = n + 1
      rw [length_append, h.of_length, length_singleton]
    case mask_length =>
      show (st.mask ++ [single n]).length = (st.last ++ [n]).length
      rw [length_append, length_append, h.mask_length, length_singleton, length_singleton]
    case chain =>
      intro k hk
      show ∃ c' m' e', (st.of ++ [st.last.length])[k]? = some c' ∧
        (st.mask ++ [single n])[c']? = some m' ∧ (st.last ++ [n])[c']? = some e' ∧ _
      rcases Nat.lt_succ_iff_lt_or_eq.mp hk with hk | rfl
      · obtain ⟨c', m', e', hof, hm', he', hrest⟩ := h.chain k hk
        refine ⟨c', m', e', ?_, ?_, ?_, hrest⟩
        · rw [getElem?_append_left (h.of_length.symm ▸ hk), hof]
        · rw [getElem?_append_left (List.getElem?_eq_some_iff.mp hm').1, hm']
        · rw [getElem?_append_left (List.getElem?_eq_some_iff.mp he').1, he']
      · refine ⟨st.last.length, single k, k, ?_, ?_, ?_, testBit_single.mpr rfl, .inl rfl⟩
        · rw [getElem?_append_right h.of_length.le, h.of_length, Nat.sub_self]
          rfl
        · rw [getElem?_append_right h.mask_length.le, h.mask_length, Nat.sub_self]
          rfl
        · rw [getElem?_append_right le_rfl, Nat.sub_self]
          rfl
    case ordered =>
      intro j k hjk hk hsame
      change (st.of ++ [st.last.length])[j]? = (st.of ++ [st.last.length])[k]? at hsame
      rw [getElem?_append_left (show j < st.of.length by have := h.of_length; omega)] at hsame
      rcases Nat.lt_succ_iff_lt_or_eq.mp hk with hk | rfl
      · rw [getElem?_append_left (h.of_length.symm ▸ hk)] at hsame
        exact h.ordered j k hjk hk hsame
      · rw [getElem?_append_right h.of_length.le, h.of_length, Nat.sub_self] at hsame
        -- The chain of an earlier call is one of those before.
        obtain ⟨c', m', e', hof, -, he', -⟩ := h.chain j hjk
        have heq := Option.some.inj (hof.symm.trans hsame)
        rw [heq] at he'
        exact absurd (List.getElem?_eq_some_iff.mp he').1 (Nat.lt_irrefl _)

theorem Chains.spec_foldl {n : ℕ} (hn : n ≤ A.length) :
    Chains.Spec A n ((A.zipIdx.take n).foldl chainStep ⟨[], [], []⟩) := by
  induction n with
  | zero => exact Chains.spec_nil
  | succ n ih =>
    have hget : A.zipIdx[n]? = some (A.getD n 0, n) := by
      rw [getElem?_zipIdx, getElem?_eq_getElem hn, Option.map_some, Nat.zero_add,
        getD_eq_getElem?_getD, getElem?_eq_getElem hn]
      rfl
    rw [take_add_one, hget, Option.toList_some, foldl_append, foldl_cons, foldl_nil]
    exact (ih (Nat.le_of_succ_le hn)).step htrans

/-- Calls of which none waits for another are in different chains, each of which may overlap the
others. -/
theorem card_le_widths (hbelow : ∀ j k, InMask A j k → j < k) {S : Finset ℕ}
    (hlt : ∀ k ∈ S, k < A.length) (hS : IsAntichain (InMask A) (S : Set ℕ)) {k : ℕ} (hk : k ∈ S) :
    S.card ≤ (widths A (concurrentMasks A (descendants A))).getD k 0 := by
  have hspec := Chains.spec_foldl htrans (Nat.le_refl A.length)
  rw [take_of_length_le (by rw [length_zipIdx])] at hspec
  rw [widths, getD_eq_getElem?_getD, getElem?_map, getElem?_range (hlt k hk),
    Option.map_some, Option.getD_some]
  generalize A.zipIdx.foldl chainStep ⟨[], [], []⟩ = chains at hspec ⊢
  set met := (List.range chains.mask.length).filter fun c =>
    c ≠ chains.of.getD k 0 ∧
      chains.mask.getD c 0 &&& (concurrentMasks A (descendants A)).getD k 0 ≠ 0 with hmet
  have hdiffer : ∀ i ∈ S, ∀ j ∈ S, i ≠ j → chains.of[i]? ≠ chains.of[j]? := by
    intro i hi j hj hne heq
    rcases Nat.lt_or_gt_of_ne hne with h | h
    · exact hS hi hj hne (hspec.ordered i j h (hlt j hj) heq)
    · exact hS hj hi hne.symm (hspec.ordered j i h (hlt i hi) heq.symm)
  have hcard : (S.erase k).card ≤ met.toFinset.card := by
    apply Finset.card_le_card_of_injOn fun j => chains.of.getD j 0
    · intro j hj
      obtain ⟨hne, hj⟩ := Finset.mem_erase.mp hj
      obtain ⟨c, m, -, hof, hm, -, hbit, -⟩ := hspec.chain j (hlt j hj)
      obtain ⟨c', -, -, hof', -⟩ := hspec.chain k (hlt k hk)
      have hoverlap : ((concurrentMasks A (descendants A)).getD k 0).testBit j = true :=
        (testBit_concurrentMasks hbelow (hlt k hk)).mpr
          ⟨hlt j hj, hS hj hk hne, hS hk hj hne.symm, hne⟩
      show chains.of.getD j 0 ∈ (met.toFinset : Set ℕ)
      rw [getD_eq_getElem?_getD, hof, Option.getD_some, Finset.mem_coe, mem_toFinset,
        hmet, mem_filter, mem_range]
      refine ⟨(List.getElem?_eq_some_iff.mp hm).1, decide_eq_true ⟨fun heq => ?_, fun hzero => ?_⟩⟩
      · apply hdiffer j hj k hk hne
        rw [hof, hof', heq, getD_eq_getElem?_getD, hof']
        rfl
      · -- The call is in both masks.
        have hboth := congrArg (Nat.testBit · j) hzero
        simp [getD_eq_getElem?_getD, hm, hbit] at hboth hoverlap
        rw [hboth] at hoverlap
        cases hoverlap
    · intro i hi j hj heq
      by_contra hne
      obtain ⟨-, hi⟩ := Finset.mem_erase.mp hi
      obtain ⟨-, hj⟩ := Finset.mem_erase.mp hj
      obtain ⟨c, -, -, hof, -⟩ := hspec.chain i (hlt i hi)
      obtain ⟨c', -, -, hof', -⟩ := hspec.chain j (hlt j hj)
      apply hdiffer i hi j hj hne
      change chains.of.getD i 0 = chains.of.getD j 0 at heq
      rw [getD_eq_getElem?_getD, getD_eq_getElem?_getD, hof, hof'] at heq
      rw [hof, hof']
      exact congrArg some heq
  have hlength := toFinset_card_le met
  rw [Finset.card_erase_of_mem hk] at hcard
  show S.card ≤ 1 + met.length
  omega

end

end

/-! ### Shares -/

theorem smBudget_zero {sms width : ℕ} (hsms : 0 < sms) (hwidth : 0 < width) :
    smBudget 0 sms width = max 1 (sms / width) := by
  have hmax : max sms 1 = sms := max_eq_left hsms
  rw [smBudget, if_neg (Nat.lt_irrefl 0), hmax]
  by_cases h : 1 < width
  · rw [if_pos h]
  · obtain rfl : width = 1 := by omega
    rw [if_neg h, Nat.div_one, max_eq_right hsms]

/-- Shares for at least as many branches as there are calls add up to no more than the device
has. -/
theorem sum_smBudget_le {S : Finset ℕ} {width : ℕ → ℕ} (hwidth : ∀ k ∈ S, S.card ≤ width k)
    {sms : ℕ} (hsms : S.card ≤ sms) : ∑ k ∈ S, smBudget 0 sms (width k) ≤ sms := by
  rcases S.eq_empty_or_nonempty with rfl | hS
  · exact Nat.zero_le sms
  · have hpos : 0 < S.card := Finset.card_pos.mpr hS
    have hshare : ∀ k ∈ S, smBudget 0 sms (width k) ≤ sms / S.card := by
      intro k hk
      rw [smBudget_zero (hpos.trans_le hsms) (hpos.trans_le (hwidth k hk))]
      exact max_le (Nat.div_pos hsms hpos) (Nat.div_le_div_left (hwidth k hk) hpos)
    calc ∑ k ∈ S, smBudget 0 sms (width k)
        ≤ S.card • (sms / S.card) := Finset.sum_le_card_nsmul S _ _ hshare
      _ = S.card * (sms / S.card) := rfl
      _ ≤ sms := Nat.mul_div_le sms S.card

section
variable {serialKinds : List String} {ops : List KernelOp} {calls : List Call} {bufs : List Buffer}
  {policy : String} {plan : Plan}

/-- What the widths of a plan are made of. -/
structure Widened (serialKinds : List String) (ops : List KernelOp) (calls : List Call)
    (bufs : List Buffer) (policy : String) (plan : Plan) (A : List ℕ) : Prop where
  n : plan.n = A.length
  lt : ∀ j k, InMask A j k → j < k
  trans : ∀ i j k, InMask A i j → InMask A j k → InMask A i k
  edge : ∀ j k, Relation.TransGen plan.Edge j k ↔ InMask A j k
  policy : plan.policy = policy
  chainWidths : chainWidths serialKinds ops calls bufs =
    .ok (widths A (concurrentMasks A (descendants A)))
  width : plan.width = (widths A (concurrentMasks A (descendants A))).map (min · 32)
  concurrent : plan.concurrent = (concurrentMasks A (descendants A)).any (· ≠ 0)

theorem exists_widened (hpart : (calls.map Call.full).Pairwise (· < ·))
    (h : schedule serialKinds ops calls bufs policy = .ok plan) :
    ∃ A, Widened serialKinds ops calls bufs policy plan A := by
  obtain ⟨A₀, hA, h⟩ := bind_eq_ok_iff.mp h
  obtain ⟨f, hf, h⟩ := bind_eq_ok_iff.mp h
  cases h
  have hbelow := initialMasks_below hpart hA
  have hlen : (closures f.hazard A₀).1.length = A₀.length := length_closures hbelow
  have hmask : ∀ j k, InMask (closures f.hazard A₀).1 j k ↔
      Relation.TransGen (Waits f.hazard A₀) j k := by
    intro j k
    by_cases hk : k < A₀.length
    · exact testBit_closures hbelow hk j
    · constructor
      · intro hin
        exact absurd (hlen ▸ hin.lt_length) hk
      · intro hpath
        obtain ⟨i, -, hwait⟩ := Relation.TransGen.tail'_iff.mp hpath
        exact absurd hwait.2.1 hk
  have hlt : ∀ j k, InMask (closures f.hazard A₀).1 j k → j < k := by
    intro j k hin
    have hpath := (hmask j k).mp hin
    clear hin
    induction hpath with
    | single hwait => exact hwait.1
    | tail _ hwait ih => exact ih.trans hwait.1
  have htrans : ∀ i j k, InMask (closures f.hazard A₀).1 i j → InMask (closures f.hazard A₀).1 j k →
      InMask (closures f.hazard A₀).1 i k := fun i j k hij hjk =>
    (hmask i k).mpr (((hmask i j).mp hij).trans ((hmask j k).mp hjk))
  refine ⟨(closures f.hazard A₀).1, ?_, hlt, htrans, fun j k => ?_, rfl, ?_, rfl, rfl⟩
  · exact ((hlen.trans (length_of_mapM hA)).symm)
  · have hedge : (planOf calls policy (closures f.hazard A₀).1 (closures f.hazard A₀).2).Edge =
        Covering.Direct (InMask (closures f.hazard A₀).1) := by
      ext j k
      exact mem_directPreds_iff
    rw [hedge]
    exact Covering.transGen_direct_iff id (fun {j k} hin => hlt j k hin)
      fun {i j k} hij hjk => htrans i j k hij hjk
  · rw [chainWidths, hA]
    show (footprints serialKinds calls bufs >>= fun f => _) = _
    rw [hf]
    rfl

section
variable {A : List ℕ} (h : Widened serialKinds ops calls bufs policy plan A)
include h

variable {S : Finset ℕ} {k : ℕ}

theorem Widened.antichain (hS : plan.Unordered S) :
    IsAntichain (InMask A) (S : Set ℕ) := by
  intro j hj k hk hne hin
  exact hS.antichain hj hk hne ((h.edge j k).mpr hin)

theorem Widened.card_le (hS : plan.Unordered S) (hk : k ∈ S) :
    S.card ≤ (widths A (concurrentMasks A (descendants A))).getD k 0 :=
  card_le_widths h.trans h.lt (fun j hj => h.n ▸ hS.lt j hj) (h.antichain hS) hk

/-- In a plan in which nothing overlaps no two calls are unordered. -/
theorem Widened.card_le_one (hnone : plan.concurrent = false) (hS : plan.Unordered S) :
    S.card ≤ 1 := by
  refine Finset.card_le_one.mpr fun j hj k hk => ?_
  by_contra hne
  have hlt := h.n ▸ hS.lt k hk
  have hbit : ((concurrentMasks A (descendants A)).getD k 0).testBit j = true :=
    (testBit_concurrentMasks h.lt hlt).mpr ⟨h.n ▸ hS.lt j hj, h.antichain hS hj hk hne,
      h.antichain hS hk hj (Ne.symm hne), hne⟩
  have hlength : (concurrentMasks A (descendants A)).length = A.length := by
    rw [concurrentMasks, length_map, length_range]
  rw [getD_eq_getElem?_getD, getElem?_eq_getElem (hlength.symm ▸ hlt), Option.getD_some] at hbit
  rw [h.concurrent, any_eq_false] at hnone
  have hzero := hnone _ (getElem_mem (hlength.symm ▸ hlt))
  rw [decide_eq_true_iff, not_not] at hzero
  rw [hzero, Nat.zero_testBit] at hbit
  cases hbit

/-- What a call of a concurrent plan is told. -/
theorem Widened.concWidth_eq (hpolicy : policy ≠ "none") (hconc : plan.concurrent = true)
    (hk : k < plan.n) : plan.concWidth k =
      min ((widths A (concurrentMasks A (descendants A))).getD k 0) 32 := by
  have hlength : (widths A (concurrentMasks A (descendants A))).length = A.length := by
    rw [widths, length_map, length_range]
  rw [Plan.concWidth, if_pos hconc, h.policy, if_pos hpolicy, h.width,
    getD_eq_getElem?_getD, getD_eq_getElem?_getD, getElem?_map,
    getElem?_eq_getElem (hlength.symm ▸ h.n ▸ hk), Option.map_some, Option.getD_some,
    Option.getD_some]

end

/-- However many multiprocessors the device has, calls that may all run at the same time, no more
than that, are given no more than these. -/
def Plan.Fits (plan : Plan) : Prop :=
  ∀ sms, ∀ S : Finset ℕ, plan.Unordered S → S.card ≤ sms →
    ∑ k ∈ S, smBudget 0 sms (plan.concWidth k) ≤ sms

/-- The branches that are counted around a call are no fewer than the calls that may all run at the
same time as it. But the shares fit on every device if and only if no more than 32 calls may. -/
theorem smBudget_fits_iff (hpart : (calls.map Call.full).Pairwise (· < ·))
    (hpolicy : policy ≠ "none") (h : schedule serialKinds ops calls bufs policy = .ok plan) :
    (∃ width, chainWidths serialKinds ops calls bufs = .ok width ∧
      ∀ S : Finset ℕ, plan.Unordered S → ∀ k ∈ S, S.card ≤ width.getD k 0) ∧
    (plan.Fits ↔ ∀ S : Finset ℕ, plan.Unordered S → S.card ≤ 32) := by
  obtain ⟨A, hA⟩ := exists_widened hpart h
  refine ⟨⟨_, hA.chainWidths, fun S hS k hk => hA.card_le hS hk⟩, fun hfits S hS => ?_,
    fun hfew sms S hS hsms => ?_⟩
  · by_contra hmany
    -- Of 33 calls on 64 multiprocessors each is given two.
    obtain ⟨T, hT, hcard⟩ := Finset.exists_subset_card_eq (show 33 ≤ S.card by omega)
    have hconc : plan.concurrent = true := by
      by_contra hnone
      have hone := hA.card_le_one (Bool.eq_false_iff.mpr hnone) hS
      omega
    have hshare : ∀ k ∈ T, smBudget 0 64 (plan.concWidth k) = 2 := by
      intro k hk
      have hwide := hA.card_le hS (hT hk)
      rw [hA.concWidth_eq hpolicy hconc (hS.lt k (hT hk)), min_eq_right (by omega)]
      rfl
    have hsum := hfits 64 T (hS.subset hT) (by omega)
    rw [Finset.sum_congr rfl hshare, Finset.sum_const, hcard] at hsum
    exact absurd hsum (by decide)
  · apply sum_smBudget_le _ hsms
    intro k hk
    by_cases hconc : plan.concurrent = true
    · rw [hA.concWidth_eq hpolicy hconc (hS.lt k hk)]
      exact le_min (hA.card_le hS hk) (hfew S hS)
    · rw [Plan.concWidth, if_neg hconc]
      exact hA.card_le_one (Bool.eq_false_iff.mpr hconc) hS

end

/-- The two branches share nine multiprocessors. -/
theorem smBudget_fits_forkJoin :
    ∃ plan, schedule [] forkJoinOps forkJoinCalls forkJoinBuffers "split" = .ok plan ∧
      ∑ k ∈ {0, 1}, smBudget 0 9 (plan.concWidth k) ≤ 9 := by
  obtain ⟨plan, hplan⟩ := exists_of_isOk
    (show (schedule [] forkJoinOps forkJoinCalls forkJoinBuffers "split").isOk = true by decide)
  have hpreds : (schedule [] forkJoinOps forkJoinCalls forkJoinBuffers "split").map
      (fun plan => (plan.n, plan.preds)) = .ok (3, [[], [], [0, 1]]) := by decide +kernel
  rw [hplan] at hpreds
  obtain ⟨hn, hpreds⟩ := Prod.mk.inj (Except.ok.inj hpreds)
  refine ⟨plan, hplan, (smBudget_fits_iff (by decide) (by decide) hplan).2.mpr ?_ 9 {0, 1} ?_
    (by decide)⟩
  · intro S hS
    have hsub : S ⊆ Finset.range 3 := fun k hk => Finset.mem_range.mpr (hn ▸ hS.lt k hk)
    exact (Finset.card_le_card hsub).trans (by decide)
  · refine ⟨fun k hk => ?_, fun j hj k hk _ hpath => ?_⟩
    · rw [hn]
      revert k
      decide
    · -- Neither call has a predecessor.
      obtain ⟨i, -, l, hl, hi⟩ := Relation.TransGen.tail'_iff.mp hpath
      rw [hpreds] at hl
      rcases Finset.mem_insert.mp hk with rfl | hk
      · cases hl
        cases hi
      · obtain rfl := Finset.mem_singleton.mp hk
        cases hl
        cases hi

/-- Branches that all read one tensor. -/
def wideOps (n : ℕ) : List KernelOp :=
  (List.range n).map fun k =>
    { name := "b" ++ toString k, op := "gru", inputs := ["x"], outputs := ["t" ++ toString k] }

@[inherit_doc wideOps]
def wideCalls (n : ℕ) : List Call :=
  (List.range n).map fun k =>
    { name := "b" ++ toString k, op := "gru", inputs := [0], outputs := [k + 1], full := k,
      slot := "gru", stmt := "gru();", scratch := [] }

/-- On 64 multiprocessors, 33 branches are given two each. -/
theorem wide_oversubscribed :
    ∃ plan, schedule [] (wideOps 33) (wideCalls 33) (List.replicate 34 ⟨none, 8⟩) "split" =
        .ok plan ∧
      plan.Unordered (Finset.range 33) ∧
        64 < ∑ k ∈ Finset.range 33, smBudget 0 64 (plan.concWidth k) := by
  obtain ⟨plan, hplan⟩ := exists_of_isOk
    (show (schedule [] (wideOps 33) (wideCalls 33) (List.replicate 34 ⟨none, 8⟩) "split").isOk =
      true by decide +kernel)
  have hresult : (schedule [] (wideOps 33) (wideCalls 33) (List.replicate 34 ⟨none, 8⟩)
      "split").map (fun plan => (plan.n, plan.preds, plan.concurrent, plan.policy, plan.width)) =
        .ok (33, List.replicate 33 [], true, "split", List.replicate 33 32) := by
    decide +kernel
  rw [hplan] at hresult
  simp only [Except.map, Except.ok.injEq, Prod.mk.injEq] at hresult
  obtain ⟨hn, hpreds, hconc, hpolicy, hwidth⟩ := hresult
  refine ⟨plan, hplan, ⟨fun k hk => ?_, fun j _ k _ _ hpath => ?_⟩, ?_⟩
  · rw [hn]
    exact Finset.mem_range.mp hk
  · obtain ⟨i, -, l, hl, hi⟩ := Relation.TransGen.tail'_iff.mp hpath
    rw [hpreds] at hl
    rw [(mem_replicate.mp (mem_of_getElem? hl)).2] at hi
    cases hi
  · have hshare : ∀ k ∈ Finset.range 33, smBudget 0 64 (plan.concWidth k) = 2 := by
      intro k hk
      rw [Plan.concWidth, hconc, hpolicy, hwidth, if_pos rfl, if_pos (by decide),
        getD_eq_getElem?_getD, getElem?_replicate, if_pos (Finset.mem_range.mp hk)]
      rfl
    rw [Finset.sum_congr rfl hshare, Finset.sum_const, Finset.card_range]
    decide

end ModelBlaster.Concurrency
