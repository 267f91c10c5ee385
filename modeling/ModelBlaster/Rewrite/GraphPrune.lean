import ModelBlaster.Library.StraightLine
import ModelBlaster.Library.PyStr

/-!
# Dead ops

An export leaves out the ops that no output of the graph depends on. `graph_prune` finds them in one
scan from the last op to the first. The kinds with side effects, `SERIAL_KINDS`, are a parameter.

## Main definitions

* `analyse`: the scan;
* `deadOps`, `liveTensors`: what it finds;
* `pruneSelection`: the part of a selection of ops that is exported.

## Main results

* `deadOps_exact`: which ops are dead, and that they can be left out.
-/

namespace ModelBlaster.GraphPrune

open StraightLine List

/-- An op. A list that is missing is empty. -/
structure PruneOp where
  op : String
  inputs : List String
  outputs : List String
deriving DecidableEq, Repr

/-- The `output` of a graph. -/
structure GraphOutput where
  tensors : Option (List String)
  tensor : Option String
deriving DecidableEq, Repr

/-- A graph. -/
structure PruneGraph where
  ops : List PruneOp
  output : Option GraphOutput
deriving DecidableEq, Repr

/-- `_graph_outputs` -/
def graphOutputs (g : PruneGraph) : List String :=
  match g.output with
  | none => []
  | some o =>
    if o.tensors.getD [] ≠ [] then o.tensors.getD []
    else if o.tensor.getD "" ≠ "" then o.tensor.toList
    else []

/-- The tensors that are returned: those given, or those that the graph declares. -/
def returned (g : PruneGraph) (outputs : Option (List String)) : List String :=
  outputs.getD (graphOutputs g)

/-- The sets `dead` and `live` of the scan. -/
structure ScanState where
  dead : List ℕ
  live : List String

section
variable (serialKinds : List String)

/-- The scan at one op. -/
def scanOp (p : PruneOp × ℕ) (st : ScanState) : ScanState :=
  let keep := p.1.outputs = [] ∨ p.1.op ∈ serialKinds ∨ ∃ t ∈ p.1.outputs, t ∈ st.live
  if keep then { st with live := p.1.inputs ++ st.live } else { st with dead := p.2 :: st.dead }

/-- `_analyse` -/
def analyse (g : PruneGraph) (outputs : Option (List String)) : ScanState :=
  let outs := returned g outputs
  -- Nothing is known to be returned: prune nothing.
  if outs = [] then ⟨[], []⟩ else g.ops.zipIdx.foldr (scanOp serialKinds) ⟨[], outs⟩

/-- `live_tensors` -/
def liveTensors (g : PruneGraph) (outputs : Option (List String)) : List String :=
  (analyse serialKinds g outputs).live

/-- `dead_ops` -/
def deadOps (g : PruneGraph) (outputs : Option (List String)) : List ℕ :=
  (analyse serialKinds g outputs).dead.insertionSort (· ≤ ·)

/-- The graph without its dead ops. -/
def withoutDead (g : PruneGraph) (outputs : Option (List String)) : PruneGraph :=
  { g with ops := (g.ops.zipIdx.filter fun p => p.2 ∉ deadOps serialKinds g outputs).map Prod.fst }

end

/-! ### The selection -/

/-- A value for the switch. -/
inductive Switch where
  | flag (on : Bool)
  | text (value : String)
deriving DecidableEq, Repr

/-- `ValueError`, with the value that is refused. -/
inductive SwitchError where
  | valueError (value : String)
deriving DecidableEq, Repr

/-- `enabled`, with what the environment has for `MB_PRUNE_DEAD`. The words are of ASCII letters, to
which `lower` takes no others. -/
def enabled (env : Option String) (value : Option Switch) : Except SwitchError Bool :=
  match value.getD (.text (env.getD "1")) with
  | .flag on => .ok on
  | .text s =>
    let v := String.ofList ((PyStr.strip s.toList).map Char.toLower)
    if v ∈ ["1", "on", "true", "yes", ""] then .ok true
    else if v ∈ ["0", "off", "false", "no"] then .ok false
    else .error (.valueError s)

/-- `prune_selection` -/
def pruneSelection (serialKinds : List String) (env : Option String) (g : PruneGraph)
    (sel : List ℕ) (outputs : Option (List String)) (enable : Option Switch) :
    Except SwitchError (List ℕ × List ℕ) :=
  (enabled env enable).map fun on =>
    let dead := deadOps serialKinds g outputs
    let keep := sel.filter (· ∉ dead)
    if !on then (sel, [])
    else if dead = [] then (sel, [])
    -- A selection of dead ops only is exported as it is.
    else if keep = [] then (sel, [])
    else (keep, dead)

/-! ### The scan is a liveness analysis -/

section
variable {serialKinds : List String}

/-- An op without outputs, or of a kind with side effects. -/
def isRoot (serialKinds : List String) (o : PruneOp) : Bool :=
  o.outputs = [] || o.op ∈ serialKinds

/-- Whether an op is kept in front of others. -/
abbrev kept (serialKinds outs : List String) : PruneOp → List PruneOp → Bool :=
  Liveness.kept PruneOp.inputs PruneOp.outputs (isRoot serialKinds) outs

variable {outs : List String} {g : PruneGraph} {outputs : Option (List String)}

theorem kept_iff {o : PruneOp} {rest : List PruneOp} :
    kept serialKinds outs o rest = true ↔ o.outputs = [] ∨ o.op ∈ serialKinds ∨
      ∃ t ∈ o.outputs,
        t ∈ Liveness.live PruneOp.inputs PruneOp.outputs (isRoot serialKinds) outs rest := by
  rw [kept, Liveness.kept_iff, isRoot, Bool.or_eq_true, decide_eq_true_iff, decide_eq_true_iff,
    or_assoc]

/-- The scan of a list of ops, the first of which has index `k`. -/
theorem foldr_scanOp (outs : List String) (l : List PruneOp) (k : ℕ) :
    ((l.zipIdx k).foldr (scanOp serialKinds) ⟨[], outs⟩).live =
        Liveness.live PruneOp.inputs PruneOp.outputs (isRoot serialKinds) outs l ∧
      ∀ i, i ∈ ((l.zipIdx k).foldr (scanOp serialKinds) ⟨[], outs⟩).dead ↔
        ∃ j o, i = k + j ∧ l[j]? = some o ∧ kept serialKinds outs o (l.drop (j + 1)) = false := by
  induction l generalizing k with
  | nil => simp [Liveness.live]
  | cons o rest ih =>
    obtain ⟨hlive, hdead⟩ := ih (k + 1)
    rw [zipIdx_cons, foldr_cons, scanOp, hlive, Liveness.live_cons]
    -- The indices behind the first op.
    have hrest : ∀ i, (∃ j o', i = k + 1 + j ∧ rest[j]? = some o' ∧
        kept serialKinds outs o' (rest.drop (j + 1)) = false) ↔
        ∃ j o', i = k + (j + 1) ∧ (o :: rest)[j + 1]? = some o' ∧
          kept serialKinds outs o' ((o :: rest).drop (j + 1 + 1)) = false := by
      intro i
      simp only [getElem?_cons_succ, drop_succ_cons, Nat.add_assoc, Nat.add_comm 1]
    have hsplit : ∀ i, (∃ j o', i = k + j ∧ (o :: rest)[j]? = some o' ∧
        kept serialKinds outs o' ((o :: rest).drop (j + 1)) = false) ↔
        (i = k ∧ kept serialKinds outs o rest = false) ∨
          ∃ j o', i = k + 1 + j ∧ rest[j]? = some o' ∧
            kept serialKinds outs o' (rest.drop (j + 1)) = false := by
      intro i
      rw [hrest]
      constructor
      · rintro ⟨j, o', rfl, ho', hkept⟩
        cases j with
        | zero =>
          cases ho'
          exact .inl ⟨rfl, hkept⟩
        | succ j => exact .inr ⟨j, o', rfl, ho', hkept⟩
      · rintro (⟨rfl, hkept⟩ | ⟨j, o', rfl, ho', hkept⟩)
        · exact ⟨0, o, rfl, rfl, hkept⟩
        · exact ⟨j + 1, o', rfl, ho', hkept⟩
    by_cases hkept : kept serialKinds outs o rest = true
    · rw [if_pos (kept_iff.mp hkept), if_pos hkept]
      refine ⟨rfl, fun i => ?_⟩
      rw [hsplit, ← hdead]
      simp [hkept]
    · rw [if_neg fun h => hkept (kept_iff.mpr h), if_neg hkept]
      refine ⟨rfl, fun i => ?_⟩
      rw [hsplit, ← hdead]
      simp [hkept]

/-- An index is dead if an output is known and its op is not kept. -/
theorem mem_deadOps_iff (hout : returned g outputs ≠ []) {i : ℕ} :
    i ∈ deadOps serialKinds g outputs ↔
      ∃ o, g.ops[i]? = some o ∧
        kept serialKinds (returned g outputs) o (g.ops.drop (i + 1)) = false := by
  rw [deadOps, mem_insertionSort, analyse, if_neg hout, (foldr_scanOp _ g.ops 0).2]
  constructor
  · rintro ⟨j, o, hj, ho, hkept⟩
    obtain rfl : i = j := by omega
    exact ⟨o, ho, hkept⟩
  · rintro ⟨o, ho, hkept⟩
    exact ⟨i, o, by omega, ho, hkept⟩

theorem deadOps_of_returned_eq_nil (hout : returned g outputs = []) :
    deadOps serialKinds g outputs = [] := by
  rw [deadOps, analyse, if_pos hout]
  rfl

/-- To leave out the dead indices of a list is to prune it. -/
private theorem map_fst_filter_zipIdx {dead : List ℕ} (l : List PruneOp) (k : ℕ)
    (hdead : ∀ j o, l[j]? = some o →
      (k + j ∈ dead ↔ kept serialKinds outs o (l.drop (j + 1)) = false)) :
    ((l.zipIdx k).filter fun p => p.2 ∉ dead).map Prod.fst =
      Liveness.prune PruneOp.inputs PruneOp.outputs (isRoot serialKinds) outs l := by
  induction l generalizing k with
  | nil => rfl
  | cons o rest ih =>
    have hrest := ih (k + 1) fun j o' ho' => by
      rw [Nat.add_assoc, Nat.add_comm 1]
      exact hdead (j + 1) o' ho'
    have hfirst : k ∈ dead ↔ kept serialKinds outs o rest = false := hdead 0 o rfl
    rw [zipIdx_cons, Liveness.prune_cons]
    by_cases hkept : kept serialKinds outs o rest = true
    · have hnot : k ∉ dead := fun h => by simp [hfirst.mp h] at hkept
      rw [filter_cons_of_pos (by simpa using hnot), map_cons, hrest, if_pos hkept]
    · have hmem : k ∈ dead := hfirst.mpr (by simpa using hkept)
      rw [filter_cons_of_neg (by simpa using hmem), hrest, if_neg hkept]

theorem ops_withoutDead (hout : returned g outputs ≠ []) : (withoutDead serialKinds g outputs).ops =
      Liveness.prune PruneOp.inputs PruneOp.outputs (isRoot serialKinds) (returned g outputs)
        g.ops := by
  refine map_fst_filter_zipIdx g.ops 0 fun j o ho => ?_
  rw [Nat.zero_add, mem_deadOps_iff hout, ho]
  exact ⟨fun ⟨o', ho', hkept⟩ => Option.some.inj ho' ▸ hkept, fun hkept => ⟨o, rfl, hkept⟩⟩

/-- Without dead ops the graph is as it was. -/
theorem withoutDead_of_deadOps_eq_nil (h : deadOps serialKinds g outputs = []) :
    withoutDead serialKinds g outputs = g := by
  rw [withoutDead, h]
  simp [zipIdx_map_fst]

end

/-! ### Exactness -/

/-- The ops are listed after the producers of what they read. An op may read what it writes itself. -/
abbrev Ordered (ops : List PruneOp) : Prop := Liveness.Ordered PruneOp.inputs PruneOp.outputs ops

/-- Along reads, the op at an index reaches an op that writes a tensor of `outs`, has no outputs, or
is of a serial kind. -/
abbrev Reaches (serialKinds outs : List String) : List PruneOp → ℕ → Prop :=
  Liveness.Reaches PruneOp.inputs PruneOp.outputs (isRoot serialKinds) outs

/-- What the ops compute: each reads its inputs and writes its outputs. -/
structure Kernels (V : Type) where
  instr : PruneOp → Instr String V
  reads_eq : ∀ o, (instr o).reads = o.inputs
  writes_eq : ∀ o, (instr o).writes = o.outputs

/-- If no output is known, no op is dead. Otherwise the dead ops are those from which no output, no
op without outputs and no op of a serial kind is reached. Without them every output has the value
that it had, and no op is dead any more. -/
theorem deadOps_exact (serialKinds : List String) (g : PruneGraph) (outputs : Option (List String))
    (hord : Ordered g.ops) :
    (returned g outputs = [] → deadOps serialKinds g outputs = []) ∧
    (returned g outputs ≠ [] → ∀ i, i ∈ deadOps serialKinds g outputs ↔
      i < g.ops.length ∧ ¬Reaches serialKinds (returned g outputs) g.ops i) ∧
    (∀ (V : Type) (k : Kernels V) (σ : String → V), ∀ t ∈ returned g outputs,
      run ((withoutDead serialKinds g outputs).ops.map k.instr) σ t =
        run (g.ops.map k.instr) σ t) ∧
    deadOps serialKinds (withoutDead serialKinds g outputs) outputs = [] := by
  by_cases hout : returned g outputs = []
  · have hnil : deadOps serialKinds g outputs = [] := deadOps_of_returned_eq_nil hout
    have hsame := withoutDead_of_deadOps_eq_nil hnil
    refine ⟨fun _ => hnil, fun h => absurd hout h, fun V k σ t ht => ?_, ?_⟩
    · rw [hsame]
    · rw [hsame]
      exact hnil
  · refine ⟨fun h => absurd h hout, fun _ i => ?_, fun V k σ t ht => ?_, ?_⟩
    · rw [mem_deadOps_iff hout]
      constructor
      · rintro ⟨o, ho, hkept⟩
        refine ⟨(List.getElem?_eq_some_iff.mp ho).1, fun hreach => ?_⟩
        rw [kept, Liveness.kept_of_reaches hord ho hreach] at hkept
        cases hkept
      · rintro ⟨hi, hreach⟩
        have ho : g.ops[i]? = some g.ops[i] := getElem?_eq_getElem hi
        refine ⟨g.ops[i], ho, ?_⟩
        rw [← Bool.not_eq_true]
        exact fun hkept => hreach (Liveness.reaches_of_kept ho hkept)
    · rw [ops_withoutDead hout]
      exact Liveness.run_prune k.reads_eq k.writes_eq g.ops σ ht
    · -- Every op that is left was kept, and is kept again.
      rw [eq_nil_iff_forall_not_mem]
      intro i hi
      obtain ⟨o, ho, hkept⟩ := (mem_deadOps_iff (g := withoutDead serialKinds g outputs) hout).mp hi
      rw [ops_withoutDead hout] at ho hkept
      have hagain := Liveness.kept_prune g.ops ho
      exact absurd (hkept.symm.trans hagain) Bool.false_ne_true

/-- An op whose output an op behind it reads, and another one that nothing reads: the second one is
dead. -/
theorem deadOps_exact_branch :
    let g : PruneGraph :=
      ⟨[⟨"relu", ["x"], ["h"]⟩, ⟨"relu", ["h"], ["dead"]⟩, ⟨"relu", ["h"], ["y"]⟩],
        some ⟨some ["y"], none⟩⟩
    deadOps [] g none = [1] ∧ 0 ∉ deadOps [] g none ∧
      deadOps [] (withoutDead [] g none) none = [] := by
  intro g
  have hord : Ordered g.ops := by
    rintro i j ⟨x, y, hx, hy, t, ht, hread⟩
    have hi := (List.getElem?_eq_some_iff.mp hx).1
    have hj := (List.getElem?_eq_some_iff.mp hy).1
    by_contra hlt
    rw [not_le] at hlt
    simp only [g, length_cons, length_nil] at hi hj
    -- What the second and the third op write is not read before.
    interval_cases i <;> interval_cases j <;> cases hx <;> cases hy <;>
      obtain rfl := mem_singleton.mp ht <;> exact absurd hread (by decide)
  have hspec := deadOps_exact [] g none hord
  have hdead : deadOps [] g none = [1] := by decide
  exact ⟨hdead, by rw [hdead]; decide, hspec.2.2.2⟩

/-- Where no output is known nothing is pruned, though no op reaches an output. -/
theorem deadOps_undeclared :
    let g : PruneGraph := ⟨[⟨"relu", ["x"], ["y"]⟩], none⟩
    Ordered g.ops ∧ ¬∀ i, i ∈ deadOps [] g none ↔
      i < g.ops.length ∧ ¬Reaches [] (returned g none) g.ops i := by
  intro g
  have hone : ∀ {i : ℕ} {o : PruneOp}, g.ops[i]? = some o → i = 0 := by
    intro i o ho
    have := (List.getElem?_eq_some_iff.mp ho).1
    simp only [g, length_singleton] at this
    omega
  refine ⟨?_, fun h => ?_⟩
  · rintro i j ⟨x, y, hx, -, -⟩
    rw [hone hx]
    exact Nat.zero_le j
  · have hdead : 0 ∈ deadOps [] g none := (h 0).mpr ⟨Nat.one_pos, ?_⟩
    · exact absurd hdead (by decide)
    · rintro ⟨j, -, o, ho, hneeded⟩
      obtain rfl := hone ho
      cases ho
      rcases hneeded with hroot | ⟨t, -, ht⟩
      · exact absurd hroot (by decide)
      · exact absurd ht not_mem_nil

section
variable {serialKinds : List String} {env : Option String} {g : PruneGraph} {sel keep dead : List ℕ}
  {outputs : Option (List String)} {enable : Option Switch}

/-- Nothing that a dead op writes is returned, or read by an op that is not dead. -/
theorem apart_of_mem_deadOps (hord : Ordered g.ops) {i : ℕ} (hi : i ∈ deadOps serialKinds g outputs)
    {o : PruneOp} (ho : g.ops[i]? = some o) {t : String} (ht : t ∈ o.outputs) :
    t ∉ returned g outputs ∧ ∀ j o', g.ops[j]? = some o' → t ∈ o'.inputs →
      j ∈ deadOps serialKinds g outputs := by
  by_cases hout : returned g outputs = []
  · rw [deadOps_of_returned_eq_nil hout] at hi
    cases hi
  · obtain ⟨o₁, ho₁, hkept⟩ := (mem_deadOps_iff hout).mp hi
    cases ho.symm.trans ho₁
    have hno : ¬Reaches serialKinds (returned g outputs) g.ops i := fun hreach => by
      rw [kept, Liveness.kept_of_reaches hord ho hreach] at hkept
      cases hkept
    refine ⟨fun hret => hno ⟨i, .refl, o, ho, .inr ⟨t, ht, hret⟩⟩, fun j o' ho' hread => ?_⟩
    refine (mem_deadOps_iff hout).mpr ⟨o', ho', ?_⟩
    rw [← Bool.not_eq_true]
    intro hkept'
    obtain ⟨k, hpath, hneeded⟩ := Liveness.reaches_of_kept ho' hkept'
    exact hno ⟨k, hpath.head ⟨o, o', ho, ho', t, ht, hread⟩, hneeded⟩

/-- The calls of the ops at some indices. There is none for an index behind the ops. -/
def Kernels.calls {V : Type} (k : Kernels V) (g : PruneGraph) (sel : List ℕ) :
    List (Instr String V) :=
  sel.map fun i => (g.ops[i]?).elim Instr.skip k.instr

/-- Whatever the selection, also with ops out of order or twice: it is exported without its dead ops,
unless it has no others, and leaves what is returned as it would have. -/
theorem pruneSelection_sound (hord : Ordered g.ops)
    (h : pruneSelection serialKinds env g sel outputs enable = .ok (keep, dead)) :
    keep = sel.filter (· ∉ dead) ∧ (keep = [] → sel = []) ∧
      ∀ (V : Type) (k : Kernels V) (σ : String → V), ∀ t ∈ returned g outputs,
        run (k.calls g keep) σ t = run (k.calls g sel) σ t := by
  have hcases : keep = sel ∧ dead = [] ∨
      keep = sel.filter (· ∉ dead) ∧ dead = deadOps serialKinds g outputs ∧ keep ≠ [] := by
    rw [pruneSelection] at h
    cases hon : enabled env enable with
    | error e =>
      rw [hon] at h
      cases h
    | ok on =>
      rw [hon] at h
      have hpair := Except.ok.inj h
      dsimp only at hpair
      split_ifs at hpair with hoff hnone hempty <;> cases hpair
      · exact .inl ⟨rfl, rfl⟩
      · exact .inl ⟨rfl, rfl⟩
      · exact .inl ⟨rfl, rfl⟩
      · exact .inr ⟨rfl, rfl, hempty⟩
  rcases hcases with ⟨rfl, rfl⟩ | ⟨hkeep, hdead, hne⟩
  · exact ⟨by simp, id, fun _ _ _ _ _ => rfl⟩
  refine ⟨hkeep, fun hnil => absurd hnil hne, fun V k σ t ht => ?_⟩
  rw [hkeep, hdead]
  -- The cells that matter are those that no dead op writes.
  refine @run_filter_congr _ _ _ (fun t => ∀ i ∈ deadOps serialKinds g outputs, ∀ o,
    g.ops[i]? = some o → t ∉ o.outputs) _ _ _ _ _ (fun j _ hj t ht i hi o ho hin => ?_)
    (fun i _ hi t ht hC => ?_) (fun _ _ => rfl) t fun i hi o ho hin => ?_
  · cases hget : g.ops[j]? with
    | none => simp [hget, Instr.skip] at ht
    | some o' =>
      rw [hget, Option.elim_some, k.reads_eq] at ht
      exact of_decide_eq_true hj ((apart_of_mem_deadOps hord hi ho hin).2 j o' hget ht)
  · cases hget : g.ops[i]? with
    | none => simp [hget, Instr.skip] at ht
    | some o =>
      rw [hget, Option.elim_some, k.writes_eq] at ht
      exact hC i (by simpa using hi) o hget ht
  · exact (apart_of_mem_deadOps hord hi ho hin).1 ht

end

/-- Two ops of which the first one is dead, selected in the other order. -/
theorem pruneSelection_sound_two :
    let g : PruneGraph :=
      ⟨[⟨"relu", ["x"], ["h"]⟩, ⟨"relu", ["x"], ["y"]⟩], some ⟨some ["y"], none⟩⟩
    ∀ (V : Type) (k : Kernels V) (σ : String → V),
      run (k.calls g [1]) σ "y" = run (k.calls g [1, 0]) σ "y" := by
  intro g V k σ
  have hread : ∀ o ∈ g.ops, ∀ o' ∈ g.ops, ∀ t ∈ o.outputs, t ∉ o'.inputs := by decide
  have hord : Ordered g.ops := fun i j ⟨o, o', ho, ho', t, ht, hin⟩ =>
    absurd hin (hread o (mem_of_getElem? ho) o' (mem_of_getElem? ho') t ht)
  have h : pruneSelection [] none g [1, 0] none none = .ok ([1], [0]) := by decide +kernel
  exact (pruneSelection_sound hord h).2.2 V k σ "y" mem_cons_self

end ModelBlaster.GraphPrune
