import Mathlib.Data.List.Perm.Basic
import Mathlib.Data.List.Nodup

/-!
# Straight-line programs

Programs without jumps over a store of named cells. An instruction declares the cells that it reads
and the cells that it writes; its effect respects both. Where every cell has one writer, and no
reader comes before it, the order of the instructions does not matter.

## Main definitions

* `StraightLine.Instr`: an instruction with its footprint;
* `StraightLine.run`: what a program makes of a store;
* `StraightLine.Scheduled`: one writer for each cell, and readers behind it;
* `StraightLine.taskSteps`: the steps of the tasks, one task after the other;
* `StraightLine.Overlap`: a mixture of the steps;
* `StraightLine.GroupRun`: groups of tasks, one group after the other;
* `Liveness.live`: the cells that matter before a program;
* `Liveness.kept`: whether an item matters in front of a program;
* `Liveness.prune`: the items that matter;
* `Liveness.Reaches`: what an item is needed for.

## Main results

* `StraightLine.run_of_notMem`: cells without a writer keep their contents;
* `StraightLine.run_eq_effect`: in the end every instruction has the effect that it had;
* `StraightLine.effect_comm`: independent instructions commute;
* `StraightLine.run_filter_congr`: which instructions may be left out;
* `StraightLine.run_eq_of_perm`: two schedules of the same instructions have one outcome;
* `StraightLine.run_map_eq_of_perm`: so have two orders that keep what is not independent;
* `StraightLine.Overlap.run_eq`: the mixtures have one outcome;
* `StraightLine.GroupRun.overlap`: groups that respect what waits are such mixtures;
* `Liveness.run_prune`: the wanted cells have the contents that they had;
* `Liveness.kept_prune`: what is kept stays kept.
-/

namespace StraightLine

open List

variable {ι V : Type}

/-- An instruction, with the cells that it reads and those that it writes. -/
structure Instr (ι V : Type) where
  reads : List ι
  writes : List ι
  effect : (ι → V) → ι → V
  /-- Other cells are left alone. -/
  frame : ∀ σ i, i ∉ writes → effect σ i = σ i
  /-- What is written depends on what is read only. -/
  footprint : ∀ σ τ, (∀ i ∈ reads, σ i = τ i) → ∀ i ∈ writes, effect σ i = effect τ i

/-- An instruction that does nothing. -/
def Instr.skip : Instr ι V := ⟨[], [], id, fun _ _ _ => rfl, fun _ _ _ i hi => by cases hi⟩

/-- What a program makes of a store. -/
def run (prog : List (Instr ι V)) (σ : ι → V) : ι → V := prog.foldl (fun σ x => x.effect σ) σ

@[simp]
theorem run_nil (σ : ι → V) : run [] σ = σ := rfl

@[simp]
theorem run_cons (x : Instr ι V) (prog : List (Instr ι V)) (σ : ι → V) :
    run (x :: prog) σ = run prog (x.effect σ) := rfl

theorem run_append (prog prog' : List (Instr ι V)) (σ : ι → V) :
    run (prog ++ prog') σ = run prog' (run prog σ) := foldl_append

variable {prog : List (Instr ι V)} {i : ι} {x y : Instr ι V}

/-- A cell that no instruction writes keeps its content. -/
theorem run_of_notMem (h : ∀ x ∈ prog, i ∉ x.writes) (σ : ι → V) : run prog σ i = σ i := by
  induction prog generalizing σ with
  | nil => rfl
  | cons x rest ih =>
    rw [run_cons, ih fun y hy => h y (mem_cons_of_mem x hy)]
    exact x.frame σ i (h x mem_cons_self)

/-- Neither of two instructions writes a cell that the other reads or writes. -/
structure Independent (x y : Instr ι V) : Prop where
  left : ∀ i ∈ x.reads, i ∉ y.writes
  right : ∀ i ∈ y.reads, i ∉ x.writes
  writes : ∀ i ∈ x.writes, i ∉ y.writes

theorem Independent.symm (h : Independent x y) : Independent y x where
  left := h.right
  right := h.left
  writes := fun i hy hx => h.writes i hx hy

/-- Independent instructions commute. -/
theorem effect_comm (h : Independent x y) (σ : ι → V) :
    x.effect (y.effect σ) = y.effect (x.effect σ) := by
  ext i
  have hread : ∀ {z w : Instr ι V}, (∀ j ∈ z.reads, j ∉ w.writes) → i ∈ z.writes →
      z.effect (w.effect σ) i = z.effect σ i := fun hd hi =>
    Instr.footprint _ _ _ (fun j hj => Instr.frame _ _ _ (hd j hj)) i hi
  by_cases hx : i ∈ x.writes
  · rw [hread h.left hx, y.frame _ _ (h.writes i hx)]
  · by_cases hy : i ∈ y.writes
    · rw [x.frame _ _ hx, hread h.right hy]
    · rw [x.frame _ _ hx, y.frame _ _ hy, y.frame _ _ hy, x.frame _ _ hx]

/-- An instruction may be moved over a program that is independent of it. -/
theorem run_move (h : ∀ y ∈ prog, Independent x y) (σ : ι → V) :
    run (prog ++ [x]) σ = run (x :: prog) σ := by
  induction prog generalizing σ with
  | nil => rfl
  | cons y rest ih =>
    rw [cons_append, run_cons, ih fun z hz => h z (mem_cons_of_mem y hz), run_cons,
      run_cons, run_cons, effect_comm (h y mem_cons_self)]

/-- Instructions may be left out if they write only cells that are not in `C`, and the others read
only cells in `C`. -/
theorem run_filter_congr {α : Type} {C : ι → Prop} {p : α → Bool} {instr : α → Instr ι V}
    {l : List α} {σ τ : ι → V} (hreads : ∀ a ∈ l, p a = true → ∀ i ∈ (instr a).reads, C i)
    (hwrites : ∀ a ∈ l, p a = false → ∀ i ∈ (instr a).writes, ¬C i) (hσ : ∀ i, C i → σ i = τ i) :
    ∀ i, C i → run ((l.filter p).map instr) σ i = run (l.map instr) τ i := by
  induction l generalizing σ τ with
  | nil => exact hσ
  | cons a rest ih =>
    obtain ⟨hread, hreads⟩ := forall_mem_cons.mp hreads
    obtain ⟨hwrite, hwrites⟩ := forall_mem_cons.mp hwrites
    rw [map_cons, run_cons]
    cases hp : p a with
    | true =>
      rw [filter_cons_of_pos hp, map_cons, run_cons]
      refine ih hreads hwrites fun i hi => ?_
      by_cases hin : i ∈ (instr a).writes
      · exact (instr a).footprint _ _ (fun j hj => hσ j (hread hp j hj)) i hin
      · rw [(instr a).frame _ _ hin, (instr a).frame _ _ hin, hσ i hi]
    | false =>
      rw [filter_cons_of_neg (by simp [hp])]
      refine ih hreads hwrites fun i hi => ?_
      rw [(instr a).frame τ i fun hin => hwrite hp i hin hi, hσ i hi]

/-- `x` may come before `y`: it does not read what `y` writes, and they write different cells. -/
def MayPrecede (x y : Instr ι V) : Prop :=
  (∀ i ∈ x.reads, i ∉ y.writes) ∧ ∀ i ∈ x.writes, i ∉ y.writes

/-- Every cell has one writer, and is read behind it. -/
def Scheduled (prog : List (Instr ι V)) : Prop := prog.Pairwise MayPrecede

/-- What an instruction has written agrees with what the other cells contain in the end. -/
theorem run_eq_effect (h : Scheduled prog) (hx : x ∈ prog) (hself : ∀ i ∈ x.reads, i ∉ x.writes)
    (hi : i ∈ x.writes) (σ : ι → V) : run prog σ i = x.effect (run prog σ) i := by
  obtain ⟨before, after, rfl⟩ := append_of_mem hx
  have hafter : ∀ y ∈ after, MayPrecede x y := pairwise_cons.mp (pairwise_append.mp h).2.1 |>.1
  rw [run_append, run_cons, run_of_notMem fun y hy => (hafter y hy).2 i hi]
  -- what is read is not written again, neither by the instruction nor behind it
  refine x.footprint _ _ (fun j hj => ?_) i hi
  rw [run_of_notMem fun y hy => (hafter y hy).1 j hj, x.frame _ _ (hself j hj)]

/-- Instructions that may come in either order are independent. -/
theorem independent_of_mayPrecede (h : MayPrecede x y) (h' : MayPrecede y x) :
    Independent x y :=
  ⟨h.1, h'.1, h.2⟩

/-- Two schedules of the same instructions have one outcome. -/
theorem run_eq_of_perm {prog' : List (Instr ι V)} (hperm : prog.Perm prog') (h : Scheduled prog)
    (h' : Scheduled prog') (σ : ι → V) : run prog σ = run prog' σ := by
  induction prog generalizing prog' σ with
  | nil => rw [hperm.nil_eq]
  | cons x rest ih =>
    -- The first instruction of one schedule is moved to the front of the other.
    obtain ⟨before, after, rfl⟩ := append_of_mem (hperm.mem_iff.mp mem_cons_self)
    have hrest : rest.Perm (before ++ after) := (hperm.trans perm_middle).cons_inv
    obtain ⟨hbefore, hafter, hcross⟩ := pairwise_append.mp h'
    have hindep : ∀ y ∈ before, Independent x y := fun y hy =>
      independent_of_mayPrecede (rel_of_pairwise_cons h (hrest.mem_iff.mpr (mem_append_left _ hy)))
        (hcross y hy x mem_cons_self)
    have hothers : Scheduled (before ++ after) := pairwise_append.mpr
      ⟨hbefore, hafter.of_cons, fun y hy z hz => hcross y hy z (mem_cons_of_mem x hz)⟩
    calc run (x :: rest) σ = run rest (x.effect σ) := rfl
      _ = run (before ++ after) (x.effect σ) := ih hrest h.of_cons hothers _
      _ = run after (run (x :: before) σ) := run_append before after _
      _ = run after (run (before ++ [x]) σ) := by rw [run_move hindep]
      _ = run (before ++ x :: after) σ := by rw [run_append, run_append, run_cons]; rfl

/-- Two orders of the same events have one outcome, if both keep in order what is not independent. -/
theorem run_map_eq_of_perm {ε : Type} {instr : ε → Instr ι V} {before : ε → ε → Prop}
    {events events' : List ε} (hperm : events.Perm events') (hnodup : events.Nodup)
    (hindep : ∀ x ∈ events, ∀ y ∈ events, x ≠ y → ¬before x y → ¬before y x →
      Independent (instr x) (instr y)) (h : events.Pairwise fun x y => ¬before y x)
    (h' : events'.Pairwise fun x y => ¬before y x) (σ : ι → V) :
    run (events.map instr) σ = run (events'.map instr) σ := by
  induction events generalizing events' σ with
  | nil => rw [hperm.nil_eq]
  | cons x rest ih =>
    -- The first event of one order is moved to the front of the other.
    obtain ⟨front, back, rfl⟩ := append_of_mem (hperm.mem_iff.mp mem_cons_self)
    have hrest : rest.Perm (front ++ back) := (hperm.trans perm_middle).cons_inv
    obtain ⟨hfront, hback, hcross⟩ := pairwise_append.mp h'
    obtain ⟨hnotMem, hnodup'⟩ := nodup_cons.mp hnodup
    have hmove : ∀ y ∈ front, Independent (instr x) (instr y) := by
      intro y hy
      have hmem : y ∈ rest := hrest.mem_iff.mpr (mem_append_left _ hy)
      exact hindep x mem_cons_self y (mem_cons_of_mem x hmem)
        (fun heq => hnotMem (heq ▸ hmem)) (hcross y hy x mem_cons_self)
        (rel_of_pairwise_cons h hmem)
    have hothers : (front ++ back).Pairwise fun x y => ¬before y x := pairwise_append.mpr
      ⟨hfront, hback.of_cons, fun y hy z hz => hcross y hy z (mem_cons_of_mem x hz)⟩
    have hindep' : ∀ y ∈ rest, ∀ z ∈ rest, y ≠ z → ¬before y z → ¬before z y →
        Independent (instr y) (instr z) := fun y hy z hz =>
      hindep y (mem_cons_of_mem x hy) z (mem_cons_of_mem x hz)
    have hmoved : ∀ w ∈ front.map instr, Independent (instr x) w := by
      intro w hw
      obtain ⟨y, hy, rfl⟩ := mem_map.mp hw
      exact hmove y hy
    calc run ((x :: rest).map instr) σ = run (rest.map instr) ((instr x).effect σ) := rfl
      _ = run ((front ++ back).map instr) ((instr x).effect σ) :=
          ih hrest hnodup' hindep' h.of_cons hothers _
      _ = run (back.map instr) (run (instr x :: front.map instr) σ) := by
          rw [map_append, run_append]
          rfl
      _ = run (back.map instr) (run (front.map instr ++ [instr x]) σ) := by rw [run_move hmoved]
      _ = run ((front ++ x :: back).map instr) σ := by
          rw [map_append, map_cons, run_append, run_append, run_cons]
          rfl

end StraightLine

/-! ## Tasks that overlap -/

namespace StraightLine

open List

variable {τ ι V : Type}

/-- The steps of the tasks, one task after the other: the task, and the number of its step. -/
def taskSteps (steps : τ → List (Instr ι V)) (order : List τ) : List (τ × ℕ) :=
  order.flatMap fun k => (List.range (steps k).length).map (Prod.mk k)

/-- The step of a number. -/
def taskStep (steps : τ → List (Instr ι V)) (e : τ × ℕ) : Instr ι V :=
  (steps e.1).getD e.2 Instr.skip

/-- A step that must come first: an earlier one of the same task, or one of a task that is waited
for. -/
def Waits (before : τ → τ → Prop) (e e' : τ × ℕ) : Prop :=
  (e.1 = e'.1 ∧ e.2 < e'.2) ∨ before e.1 e'.1

/-- A mixture of the steps of some tasks. -/
structure Overlap (steps : τ → List (Instr ι V)) (before : τ → τ → Prop) (order : List τ)
    (events : List (τ × ℕ)) : Prop where
  perm : events.Perm (taskSteps steps order)
  order : events.Pairwise fun e e' => ¬Waits before e' e

section
variable {steps : τ → List (Instr ι V)} {before : τ → τ → Prop} {order : List τ}
  {events : List (τ × ℕ)}

theorem map_taskStep_taskSteps (steps : τ → List (Instr ι V)) (order : List τ) :
    (taskSteps steps order).map (taskStep steps) = order.flatMap steps := by
  rw [taskSteps, map_flatMap]
  apply flatMap_congr
  intro k _
  rw [map_map]
  apply ext_getElem?
  intro i
  rw [getElem?_map]
  by_cases hi : i < (steps k).length
  · rw [getElem?_range hi, getElem?_eq_getElem hi]
    show some ((steps k).getD i Instr.skip) = _
    rw [getD_eq_getElem?_getD, getElem?_eq_getElem hi]
    rfl
  · rw [getElem?_eq_none (by simpa using hi), getElem?_eq_none (by simpa using hi)]
    rfl

variable {e : τ × ℕ}

theorem mem_taskSteps :
    e ∈ taskSteps steps order ↔ e.1 ∈ order ∧ e.2 < (steps e.1).length := by
  rw [taskSteps, mem_flatMap]
  constructor
  · rintro ⟨k, hk, he⟩
    obtain ⟨i, hi, rfl⟩ := mem_map.mp he
    exact ⟨hk, mem_range.mp hi⟩
  · rintro ⟨hk, hi⟩
    exact ⟨e.1, hk, mem_map.mpr ⟨e.2, mem_range.mpr hi, rfl⟩⟩

theorem taskStep_mem (h : e ∈ taskSteps steps order) :
    e.1 ∈ order ∧ taskStep steps e ∈ steps e.1 := by
  obtain ⟨hk, hi⟩ := mem_taskSteps.mp h
  refine ⟨hk, ?_⟩
  rw [taskStep, getD_eq_getElem?_getD, getElem?_eq_getElem hi]
  exact getElem_mem hi

theorem nodup_taskSteps (hnodup : order.Nodup) : (taskSteps steps order).Nodup := by
  rw [taskSteps, nodup_flatMap]
  constructor
  · intro k _
    exact nodup_range.map fun i i' heq => (Prod.mk.inj heq).2
  · refine hnodup.imp fun {j k} hjk => ?_
    intro e he he'
    obtain ⟨i, -, rfl⟩ := mem_map.mp he
    obtain ⟨i', -, heq⟩ := mem_map.mp he'
    exact hjk (Prod.mk.inj heq).1.symm

/-- The tasks one after the other are such a mixture. -/
theorem overlap_taskSteps (hnodup : order.Nodup) (hself : ∀ k ∈ order, ¬before k k)
    (horder : order.Pairwise fun j k => ¬before k j) :
    Overlap steps before order (taskSteps steps order) where
  perm := List.Perm.refl _
  order := by
    rw [taskSteps, pairwise_flatMap]
    constructor
    · intro k hk
      rw [pairwise_map]
      refine pairwise_lt_range.imp fun {i i'} hlt hwaits => ?_
      rcases hwaits with ⟨-, hlt'⟩ | hbefore
      · exact Nat.lt_asymm hlt hlt'
      · exact hself k hk hbefore
    · refine (hnodup.and horder).imp fun {j k} hjk e he e' he' hwaits => ?_
      obtain ⟨i, -, rfl⟩ := mem_map.mp he
      obtain ⟨i', -, rfl⟩ := mem_map.mp he'
      rcases hwaits with ⟨heq, -⟩ | hbefore
      · exact hjk.1 heq.symm
      · exact hjk.2 hbefore

/-- However the tasks overlap, the store is left as by the tasks one after the other. -/
theorem Overlap.run_eq (h : Overlap steps before order events) (hnodup : order.Nodup)
    (hself : ∀ k ∈ order, ¬before k k) (horder : order.Pairwise fun j k => ¬before k j)
    (hindep : ∀ j ∈ order, ∀ k ∈ order, j ≠ k → ¬before j k → ¬before k j →
      ∀ x ∈ steps j, ∀ y ∈ steps k, Independent x y) (σ : ι → V) :
    run (events.map (taskStep steps)) σ = run (order.flatMap steps) σ := by
  rw [← map_taskStep_taskSteps]
  apply run_map_eq_of_perm h.perm (h.perm.nodup_iff.mpr (nodup_taskSteps hnodup)) _ h.order
    (overlap_taskSteps hnodup hself horder).order
  intro e he e' he' hne hwaits hwaits'
  obtain ⟨hj, hx⟩ := taskStep_mem (h.perm.mem_iff.mp he)
  obtain ⟨hk, hy⟩ := taskStep_mem (h.perm.mem_iff.mp he')
  by_cases heq : e.1 = e'.1
  · -- The steps of one task are in order.
    rcases Nat.lt_trichotomy e.2 e'.2 with hlt | heq' | hlt
    · exact absurd (.inl ⟨heq, hlt⟩) hwaits
    · exact absurd (Prod.ext heq heq') hne
    · exact absurd (.inl ⟨heq.symm, hlt⟩) hwaits'
  · exact hindep e.1 hj e'.1 hk heq (fun hb => hwaits (.inr hb)) (fun hb => hwaits' (.inr hb)) _ hx
      _ hy

/-! ### Groups -/

/-- Groups of tasks, one group after the other; the steps of one group are mixed. -/
def GroupRun (steps : τ → List (Instr ι V)) (groups : List (List τ)) (events : List (τ × ℕ)) :
    Prop :=
  ∃ parts, List.Forall₂ (Overlap steps fun _ _ => False) groups parts ∧ events = parts.flatten

theorem Overlap.of_perm {order' : List τ} (h : Overlap steps before order events)
    (hperm : order.Perm order') : Overlap steps before order' events where
  perm := h.perm.trans (hperm.flatMap_right _)
  order := h.order

theorem Overlap.mem_order (h : Overlap steps before order events) (he : e ∈ events) :
    e.1 ∈ order :=
  (mem_taskSteps.mp (h.perm.mem_iff.mp he)).1

/-- Groups are a mixture of all their tasks, if no task waits for one of its own group or of a later
one. -/
theorem GroupRun.overlap {groups : List (List τ)} (h : GroupRun steps groups events)
    (hgroups : groups.Pairwise fun g g' => ∀ c ∈ g, ∀ d ∈ g', c ≠ d ∧ ¬before d c)
    (hin : ∀ g ∈ groups, ∀ c ∈ g, ∀ d ∈ g, ¬before c d) :
    Overlap steps before groups.flatten events := by
  obtain ⟨parts, hparts, rfl⟩ := h
  induction hparts with
  | nil => exact ⟨List.Perm.refl _, List.Pairwise.nil⟩
  | @cons g part groups parts hpart hparts ih =>
    obtain ⟨hhead, htail⟩ := pairwise_cons.mp hgroups
    have hrest := ih htail fun g' hg' => hin g' (mem_cons_of_mem g hg')
    constructor
    · rw [flatten_cons, flatten_cons, taskSteps, flatMap_append]
      exact hpart.perm.append hrest.perm
    · rw [flatten_cons, pairwise_append]
      refine ⟨?_, hrest.order, ?_⟩
      · -- In a group, only the steps of one task are in order.
        refine (List.Pairwise.and_mem.mp hpart.order).imp ?_
        rintro e e' ⟨he, he', hnot⟩ (hown | hbefore)
        · exact hnot (.inl hown)
        · exact hin g mem_cons_self _ (hpart.mem_order he') _ (hpart.mem_order he) hbefore
      · rintro e he e' he' hwaits
        obtain ⟨g', hg', hmem⟩ := mem_flatten.mp (hrest.mem_order he')
        obtain ⟨hne, hnot⟩ := hhead g' hg' _ (hpart.mem_order he) _ hmem
        rcases hwaits with ⟨heq, -⟩ | hbefore
        · exact hne heq.symm
        · exact hnot hbefore

end

end StraightLine

/-! ## Liveness in straight-line programs -/

namespace Liveness

open StraightLine List

variable {α ι V : Type} [DecidableEq ι] (reads writes : α → List ι) (root : α → Bool)
  (wanted : List ι)

/-- The cells that matter before a program. -/
def live : List α → List ι
  | [] => wanted
  | x :: rest =>
    if root x || (writes x).any (· ∈ live rest) then reads x ++ live rest else live rest

/-- An item matters in front of a program. -/
def kept (x : α) (rest : List α) : Bool :=
  root x || (writes x).any (· ∈ live reads writes root wanted rest)

/-- The items that matter. -/
def prune : List α → List α
  | [] => []
  | x :: rest => if kept reads writes root wanted x rest then x :: prune rest else prune rest

variable {reads writes root wanted}

theorem live_cons (x : α) (rest : List α) : live reads writes root wanted (x :: rest) =
    if kept reads writes root wanted x rest then reads x ++ live reads writes root wanted rest
    else live reads writes root wanted rest := rfl

theorem prune_cons (x : α) (rest : List α) : prune reads writes root wanted (x :: rest) =
    if kept reads writes root wanted x rest then x :: prune reads writes root wanted rest
    else prune reads writes root wanted rest := rfl

variable {x : α} {t : ι} {l : List α} {i : ℕ} {instr : α → Instr ι V}

/-- An item matters if it is a root, or writes a cell that matters behind it. -/
theorem kept_iff {rest : List α} : kept reads writes root wanted x rest = true ↔
    root x = true ∨ ∃ t ∈ writes x, t ∈ live reads writes root wanted rest := by
  simp [kept]

/-! ### Reachability -/

/-- A cell that matters is wanted, or read by an item that is kept. -/
theorem mem_live_iff : t ∈ live reads writes root wanted l ↔
    t ∈ wanted ∨ ∃ j, ∃ x, l[j]? = some x ∧ t ∈ reads x ∧
      kept reads writes root wanted x (l.drop (j + 1)) = true := by
  induction l with
  | nil => simp [live]
  | cons x rest ih =>
    -- The readers are the first item and those behind it.
    have hreaders : (∃ j, ∃ y, (x :: rest)[j]? = some y ∧ t ∈ reads y ∧
        kept reads writes root wanted y ((x :: rest).drop (j + 1)) = true) ↔
        (t ∈ reads x ∧ kept reads writes root wanted x rest = true) ∨
          ∃ j, ∃ y, rest[j]? = some y ∧ t ∈ reads y ∧
            kept reads writes root wanted y (rest.drop (j + 1)) = true := by
      constructor
      · rintro ⟨j, y, hy, ht, hkept⟩
        cases j with
        | zero =>
          cases hy
          exact .inl ⟨ht, hkept⟩
        | succ j => exact .inr ⟨j, y, hy, ht, hkept⟩
      · rintro (⟨ht, hkept⟩ | ⟨j, y, hy, ht, hkept⟩)
        · exact ⟨0, x, rfl, ht, hkept⟩
        · exact ⟨j + 1, y, hy, ht, hkept⟩
    rw [live_cons, hreaders]
    split_ifs with hkept
    · rw [mem_append, ih, and_iff_left hkept]
      exact or_left_comm
    · rw [ih]
      have hnot : ¬(t ∈ reads x ∧ kept reads writes root wanted x rest = true) := fun h => hkept h.2
      rw [or_iff_right hnot]

variable (reads writes root wanted)

/-- The item at `j` reads a cell that the item at `i` writes. -/
def Feeds (l : List α) (i j : ℕ) : Prop :=
  ∃ x, ∃ y, l[i]? = some x ∧ l[j]? = some y ∧ ∃ t ∈ writes x, t ∈ reads y

/-- The item at `i` is a root, or writes a wanted cell. -/
def Needed (l : List α) (i : ℕ) : Prop :=
  ∃ x, l[i]? = some x ∧ (root x = true ∨ ∃ t ∈ writes x, t ∈ wanted)

/-- Along reads, the item at `i` reaches one that is needed. -/
def Reaches (l : List α) (i : ℕ) : Prop :=
  ∃ j, Relation.ReflTransGen (Feeds reads writes l) i j ∧ Needed writes root wanted l j

/-- No item reads what one behind it writes. -/
def Ordered (l : List α) : Prop := ∀ i j, Feeds reads writes l i j → i ≤ j

variable {reads writes root wanted}

/-- What is kept is needed. -/
theorem reaches_of_kept (hx : l[i]? = some x)
    (h : kept reads writes root wanted x (l.drop (i + 1)) = true) :
    Reaches reads writes root wanted l i := by
  -- Induction on the number of items behind it.
  induction hn : l.length - i using Nat.strongRecOn generalizing i x with
  | ind n ih =>
    rcases kept_iff.mp h with hroot | ⟨t, ht, hlive⟩
    · exact ⟨i, .refl, x, hx, .inl hroot⟩
    · rcases mem_live_iff.mp hlive with hwanted | ⟨j, y, hy, hread, hkept⟩
      · exact ⟨i, .refl, x, hx, .inr ⟨t, ht, hwanted⟩⟩
      · have hget : l[i + 1 + j]? = some y := by rwa [getElem?_drop] at hy
        obtain ⟨hlt, -⟩ := List.getElem?_eq_some_iff.mp hget
        rw [drop_drop, show i + 1 + (j + 1) = i + 1 + j + 1 by omega] at hkept
        obtain ⟨k, hpath, hneeded⟩ := ih (l.length - (i + 1 + j)) (by omega) hget hkept rfl
        exact ⟨k, hpath.head ⟨x, y, hx, hget, t, ht, hread⟩, hneeded⟩

/-- What is needed is kept, where nothing is read before it is written. -/
theorem kept_of_reaches (hord : Ordered reads writes l) (hx : l[i]? = some x)
    (h : Reaches reads writes root wanted l i) :
    kept reads writes root wanted x (l.drop (i + 1)) = true := by
  obtain ⟨k, hpath, z, hz, hneeded⟩ := h
  induction hpath using Relation.ReflTransGen.head_induction_on generalizing x with
  | refl =>
    rw [hx] at hz
    cases hz
    refine kept_iff.mpr (hneeded.imp_right fun ⟨t, ht, hwanted⟩ => ⟨t, ht, ?_⟩)
    exact mem_live_iff.mpr (.inl hwanted)
  | @head i j hfeeds hrest ih =>
    obtain ⟨x', y, hx', hy, t, ht, hread⟩ := id hfeeds
    rw [hx] at hx'
    cases hx'
    have hkept := ih hy
    rcases Nat.eq_or_lt_of_le (hord i j hfeeds) with rfl | hlt
    · rw [hx] at hy
      cases hy
      exact hkept
    · refine kept_iff.mpr (.inr ⟨t, ht, mem_live_iff.mpr (.inr ⟨j - (i + 1), y, ?_, hread, ?_⟩)⟩)
      · rw [getElem?_drop, Nat.add_sub_cancel' hlt]
        exact hy
      · rw [drop_drop, ← Nat.add_assoc, Nat.add_sub_cancel' hlt]
        exact hkept

/-! ### Pruning -/

/-- What is left out matters to no cell that is alive. -/
theorem live_prune (l : List α) : live reads writes root wanted (prune reads writes root wanted l) =
    live reads writes root wanted l := by
  induction l with
  | nil => rfl
  | cons x rest ih =>
    rw [prune_cons, live_cons]
    split_ifs with hkept
    · have hkept' : kept reads writes root wanted x (prune reads writes root wanted rest) =
          true := by
        rw [kept, ih]
        exact hkept
      rw [live_cons, if_pos hkept', ih]
    · exact ih

/-- What is kept stays kept. -/
theorem kept_prune (l : List α) {j : ℕ} (hx : (prune reads writes root wanted l)[j]? = some x) :
    kept reads writes root wanted x ((prune reads writes root wanted l).drop (j + 1)) = true := by
  induction l generalizing j with
  | nil => cases hx
  | cons y rest ih =>
    rw [prune_cons] at hx ⊢
    split_ifs at hx ⊢ with hkept
    · cases j with
      | zero =>
        cases hx
        rw [drop_succ_cons, drop_zero, kept, live_prune]
        exact hkept
      | succ j => exact ih hx
    · exact ih hx

/-- From stores that agree on what matters, the program and what is kept of it leave the same in the
wanted cells. -/
theorem run_prune_congr (hreads : ∀ x, (instr x).reads = reads x)
    (hwrites : ∀ x, (instr x).writes = writes x) (l : List α) (σ τ : ι → V)
    (h : ∀ t ∈ live reads writes root wanted l, σ t = τ t) :
    ∀ t ∈ wanted, run ((prune reads writes root wanted l).map instr) σ t =
      run (l.map instr) τ t := by
  induction l generalizing σ τ with
  | nil => exact h
  | cons x rest ih =>
    rw [prune_cons]
    rw [live_cons] at h
    split_ifs at h ⊢ with hkept
    · rw [map_cons, map_cons, run_cons, run_cons]
      apply ih
      intro t ht
      by_cases hw : t ∈ (instr x).writes
      · apply (instr x).footprint
        · intro i hi
          rw [hreads] at hi
          exact h i (mem_append_left _ hi)
        · exact hw
      · rw [(instr x).frame σ t hw, (instr x).frame τ t hw]
        exact h t (mem_append_right _ ht)
    · rw [map_cons, run_cons]
      apply ih
      intro t ht
      -- What is left out writes nothing that matters.
      have hw : t ∉ (instr x).writes := by
        rw [hwrites]
        exact fun hw => hkept (kept_iff.mpr (.inr ⟨t, hw, ht⟩))
      rw [(instr x).frame τ t hw]
      exact h t ht

/-- The wanted cells have the contents that they had. -/
theorem run_prune (hreads : ∀ x, (instr x).reads = reads x)
    (hwrites : ∀ x, (instr x).writes = writes x) (l : List α) (σ : ι → V) (ht : t ∈ wanted) :
    run ((prune reads writes root wanted l).map instr) σ t =
      run (l.map instr) σ t :=
  run_prune_congr hreads hwrites l σ σ (fun _ _ => rfl) t ht

end Liveness
