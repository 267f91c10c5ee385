import ModelBlaster.Extract.Int8Walk
import Mathlib.Algebra.Field.Rat

/-!
# When the scales of the int8 IR are consistent

The walk is followed with an invariant about the tensors whose owners are done: they were written,
and they are read and recorded, at the scale that they should have. The invariant holds as long as
the ops are consistent, and each branch keeps them so iff the calibration gives its node what it
should.

## Main definitions

* `Branch`: what a branch does for the node that it is for.

## Main results

* `emit_branch`: every branch does;
* `scaleConsistent_iff`: the scales are consistent iff the calibration is.
-/

namespace ModelBlaster.Extract.Int8

open List Fallible Function

variable {κ : Type} {nodes : List (FxNode κ)}

/-! ### Tables -/

@[simp] theorem Table.write_nil (table : Table κ) : table.write [] = table := rfl

theorem Table.write_append (table : Table κ) (l l' : List (Tensor × κ)) :
    table.write (l ++ l') = (table.write l).write l' :=
  foldl_append

theorem Table.write_singleton (table : Table κ) (t : Tensor) (s : κ) :
    table.write [(t, s)] = Function.update table t (some s) := rfl

variable {table : Table κ} {l : List (Tensor × κ)} {t : Tensor} {s : κ} {x : String} {n : FxNode κ}
  {c : Constants κ} {calibration : String → Option κ} {done done' : List Tensor}
  {ops : List (IrOp κ)}

theorem Table.write_of_notMem (h : ∀ p ∈ l, p.1 ≠ t) : table.write l t = table t := by
  induction l generalizing table with
  | nil => rfl
  | cons p rest ih =>
    show Table.write (Function.update table p.1 (some p.2)) rest t = _
    rw [ih fun q hq => h q (mem_cons_of_mem p hq),
      update_of_ne (h p mem_cons_self).symm]

/-- The first entry counts when no other does. -/
theorem Table.write_cons_self (h : ∀ p ∈ l, p.1 ≠ t) : table.write ((t, s) :: l) t = some s := by
  show Table.write (Function.update table t (some s)) l t = _
  rw [Table.write_of_notMem h, update_self]

@[simp] theorem look_eq_ok :
    look table t = .ok s ↔ table t = some s := by
  unfold look
  cases table t <;> simp

theorem Walk.input_eq_ok {st : Walk κ} (h : st.input x = .ok s) :
    st.scales (.node x) = some s := by
  obtain ⟨_, -, h⟩ := bind_eq_ok_iff.mp h
  exact look_eq_ok.mp h

theorem FxNode.arg_eq_ok (h : n.arg = .ok x) :
    n.args.head? = some x ∧ n.args.take 1 = [x] := by
  unfold FxNode.arg at h
  split at h
  · next hargs =>
    cases h
    rw [hargs]
    exact ⟨rfl, rfl⟩
  · cases h

theorem FxNode.mem_of_arg (h : n.arg = .ok x) : x ∈ n.args :=
  mem_of_mem_head? (FxNode.arg_eq_ok h).1

/-! ### Branches -/

/-- The tensor of a node is written, read and recorded at the scales that it should have. -/
structure Settled (c : Constants κ) (calibration : String → Option κ) (nodes : List (FxNode κ))
    (w scales recorded : Table κ) (y : String) : Prop where
  written : w (.node y) = carried c calibration nodes y
  read : scales (.node y) = readScale c calibration nodes y
  recorded : recorded (.node y) = carried c calibration nodes y

/-- What a branch does for the node that it is for: it writes the entries of what the node owns, and
these are settled iff the calibration gives the node what it should. -/
structure Branch (c : Constants κ) (calibration : String → Option κ) (nodes : List (FxNode κ))
    (n : FxNode κ) (st : Walk κ) (w : Table κ) (e : Emission κ) : Prop where
  keys : ∀ p ∈ e.scales ++ e.recorded, ∀ y, p.1 = .node y → owner nodes y = n.name
  parts : ∀ o ∈ allParts e.ops, ∀ y, .node y ∈ o.outputs → owner nodes y = n.name
  outputs : ∀ o ∈ e.ops, ∀ y, .node y ∈ o.outputs → owner nodes y = n.name
  reads : ∀ x ∈ operands n, ∃ o ∈ e.ops, .node x ∈ o.inputs
  copied : ∀ o ∈ allParts e.ops, o.quant = .copy →
    (∀ t ∈ o.inputs, ∃ x ∈ operands n, t = .node x) ∧ ∀ t ∈ o.outputs, ∃ y, t = .node y
  skip : ∀ y ∈ e.skip, y ∈ fusedReluAfter nodes ∨ y ∈ namesOf isGetitem nodes
  placed : n.kind = .placeholder → Settled c calibration nodes (written w (allParts e.ops))
    (st.scales.write e.scales) (st.recorded.write e.recorded) n.name
  verdict : (∀ x ∈ operands n, Settled c calibration nodes w st.scales st.recorded x) →
    (ReadsConsistent w (allParts e.ops) ∧
      CopiesConsistent (st.recorded.write e.recorded) (allParts e.ops) ↔
    CalibratedAt c calibration nodes n)
  settles : (∀ x ∈ operands n, Settled c calibration nodes w st.scales st.recorded x) →
    CalibratedAt c calibration nodes n → ∀ o ∈ e.ops, ∀ y, .node y ∈ o.outputs →
    Settled c calibration nodes (written w (allParts e.ops)) (st.scales.write e.scales)
      (st.recorded.write e.recorded) y

section
variable (h : Traced nodes) (c : Constants κ) (calibration : String → Option κ)
include h

variable {m : FxNode κ}

theorem Traced.carried_own (hm : m ∈ nodes) (hcopies : copies m.kind = false)
    (hlstm : ∀ first others, m.kind ≠ .lstm first others) :
    carried c calibration nodes m.name = calibration m.name := by
  rw [carried_eq h c calibration hm, carriedAt, if_neg (by simp [hcopies])]
  split
  · next first others hkind => exact absurd hkind (hlstm first others)
  · rfl

theorem Traced.carried_lstm (hm : m ∈ nodes) {first : κ × κ} {others : List (κ × κ)}
    (hkind : m.kind = .lstm first others) :
    carried c calibration nodes m.name = some c.unit := by
  rw [carried_eq h c calibration hm, carriedAt, hkind]
  rfl

theorem Traced.carried_copy (hm : m ∈ nodes) (hcopies : copies m.kind = true) {x : String}
    (hx : m.args.head? = some x) :
    carried c calibration nodes m.name = carried c calibration nodes x := by
  rw [carried_eq h c calibration hm, carriedAt, if_pos hcopies, hx]
  rfl

end

theorem readScale_of_not (hf : forgotten nodes x = false) :
    readScale c calibration nodes x = carried c calibration nodes x := by
  rw [readScale, if_neg (by simp [hf])]

theorem readScale_of (hf : forgotten nodes x = true) :
    readScale c calibration nodes x = calibration x := by
  rw [readScale, if_pos hf]

section
variable {c : Constants κ} {calibration : String → Option κ} {n : FxNode κ}

theorem calibratedAt_iff (hrelu : n.kind ≠ .relu) (hchunk : n.kind ≠ .chunk) :
    CalibratedAt c calibration nodes n ↔ ∀ x ∈ operands n,
      readScale c calibration nodes x = carried c calibration nodes x := by
  unfold CalibratedAt
  split
  · next hkind => exact absurd hkind hrelu
  · next hkind => exact absurd hkind hchunk
  · rfl

variable {st : Walk κ} {w : Table κ} {e : Emission κ}

/-- The scales that an op reads are those that were written iff the readers of its operands have
the scales that the operands should have. -/
theorem reads_iff {xs : List String} {scales : List κ}
    (hreads : List.Forall₂ (fun x s => st.scales (.node x) = some s) xs scales)
    (hsettled : ∀ x ∈ xs, Settled c calibration nodes w st.scales st.recorded x) :
    (∀ p ∈ (xs.map Tensor.node).zip scales, w p.1 = some p.2) ↔
      ∀ x ∈ xs, readScale c calibration nodes x = carried c calibration nodes x := by
  induction hreads with
  | nil => simp
  | @cons x s xs scales hx _ ih =>
    have hhead := hsettled x mem_cons_self
    rw [map_cons, zip_cons_cons, forall_mem_cons, forall_mem_cons,
      ih fun y hy => hsettled y (mem_cons_of_mem x hy), hhead.written, ← hx, hhead.read]
    exact and_congr_left fun _ => eq_comm

/-- A tensor has the scale of the last op that writes it. -/
theorem writeStep_self {o : QuantOp κ} {t : Tensor} {s : κ} (ht : t ∈ o.outputs)
    (hout : o.quant.out = some s) : writeStep w o t = some s := by
  rw [writeStep, if_pos ht, hout]

/-- A branch with several parts, none of which copies. The first reads the operand, and the others
read what is written before them. -/
theorem Branch.chain (out : String) (s : κ) (hplace : n.kind ≠ .placeholder)
    (hrelu : n.kind ≠ .relu) (hchunk : n.kind ≠ .chunk)
    (hcopy : ∀ o ∈ allParts e.ops, o.quant ≠ .copy)
    (hkeys : ∀ p ∈ e.scales ++ e.recorded, ∀ y, p.1 = .node y → owner nodes y = n.name)
    (hparts : ∀ o ∈ allParts e.ops, ∀ y, .node y ∈ o.outputs → owner nodes y = n.name)
    (houts : ∀ o ∈ e.ops, ∀ y, .node y ∈ o.outputs → y = out) (howner : owner nodes out = n.name)
    (hreads : ∀ x ∈ operands n, ∃ o ∈ e.ops, .node x ∈ o.inputs)
    (hskip : ∀ y ∈ e.skip, y ∈ fusedReluAfter nodes ∨ y ∈ namesOf isGetitem nodes)
    (hverdict : (∀ x ∈ operands n, Settled c calibration nodes w st.scales st.recorded x) →
      (ReadsConsistent w (allParts e.ops) ↔ ∀ x ∈ operands n,
        readScale c calibration nodes x = carried c calibration nodes x))
    (hwritten : written w (allParts e.ops) (.node out) = some s)
    (hcarried : carried c calibration nodes out = some s)
    (hscale : st.scales.write e.scales (.node out) = readScale c calibration nodes out)
    (hrec : st.recorded.write e.recorded (.node out) = some s) :
    Branch c calibration nodes n st w e where
  keys := hkeys
  parts := hparts
  outputs := fun o ho y hy => by rw [houts o ho y hy]; exact howner
  reads := hreads
  copied := fun o ho hq => absurd hq (hcopy o ho)
  skip := hskip
  placed := fun hc => absurd hc hplace
  verdict := by
    intro hsettled
    rw [calibratedAt_iff hrelu hchunk, ← hverdict hsettled]
    exact and_iff_left fun o ho hq => absurd hq (hcopy o ho)
  settles := by
    intro _ _ o ho y hy
    rw [houts o ho y hy]
    exact ⟨hwritten.trans hcarried.symm, hscale, hrec.trans hcarried.symm⟩

/-- A branch with one op, which requantizes. -/
theorem Branch.requant (out : String) (s : κ) {t op : String} {q : Quant κ}
    (hops : e.ops = [.plain ⟨t, op, (operands n).map .node, [.node out], q⟩])
    (hreads : List.Forall₂ (fun x s => st.scales (.node x) = some s) (operands n) q.reads)
    (hout : q.out = some s) (hcarried : carried c calibration nodes out = some s)
    (howner : owner nodes out = n.name)
    (hkeys : ∀ p ∈ e.scales ++ e.recorded, ∀ y, p.1 = .node y → owner nodes y = n.name)
    (hskip : ∀ y ∈ e.skip, y ∈ fusedReluAfter nodes ∨ y ∈ namesOf isGetitem nodes)
    (hplace : n.kind ≠ .placeholder) (hrelu : n.kind ≠ .relu) (hchunk : n.kind ≠ .chunk)
    (hscale : st.scales.write e.scales (.node out) = readScale c calibration nodes out)
    (hrec : st.recorded.write e.recorded (.node out) = some s) :
    Branch c calibration nodes n st w e := by
  have hparts : allParts e.ops = [⟨t, op, (operands n).map .node, [.node out], q⟩] := by
    rw [hops]
    rfl
  have hnode : ∀ y, Tensor.node y ∈ [Tensor.node out] → y = out :=
    fun y hy => Tensor.node.inj (mem_singleton.mp hy)
  refine Branch.chain out s hplace hrelu hchunk ?_ hkeys ?_ ?_ howner ?_ hskip ?_ ?_
    hcarried hscale hrec
  · intro o ho hq
    rw [hparts, mem_singleton] at ho
    subst ho
    rw [show q = .copy from hq] at hout
    cases hout
  · intro o ho y hy
    rw [hparts, mem_singleton] at ho
    subst ho
    rw [hnode y hy]
    exact howner
  · intro o ho y hy
    rw [hops, mem_singleton] at ho
    subst ho
    exact hnode y hy
  · intro x hx
    rw [hops]
    exact ⟨_, mem_singleton_self _, mem_map_of_mem hx⟩
  · intro hsettled
    rw [hparts, ← reads_iff hreads hsettled]
    exact and_iff_left trivial
  · rw [hparts]
    exact writeStep_self mem_cons_self hout

/-- A branch with one op, which copies. -/
theorem Branch.copy (outs : List String) {t op x : String}
    (hops : e.ops = [.plain ⟨t, op, [.node x], outs.map .node, .copy⟩]) (hx : operands n = [x])
    (howner : ∀ y ∈ outs, owner nodes y = n.name) (hox : owner nodes x ≠ n.name)
    (hcarried : ∀ y ∈ outs, carried c calibration nodes y = carried c calibration nodes x)
    (hforgotten : ∀ y ∈ outs, forgotten nodes y = false)
    (hkeys : ∀ p ∈ e.scales ++ e.recorded, ∀ y, p.1 = .node y → owner nodes y = n.name)
    (hskip : ∀ y ∈ e.skip, y ∈ fusedReluAfter nodes ∨ y ∈ namesOf isGetitem nodes)
    (hplace : n.kind ≠ .placeholder)
    (hscale : ∀ y ∈ outs, st.scales.write e.scales (.node y) =
      st.recorded.write e.recorded (.node y))
    (hcal : st.scales (.node x) = readScale c calibration nodes x →
      ((∀ y ∈ outs, st.recorded.write e.recorded (.node y) = carried c calibration nodes x) ↔
        CalibratedAt c calibration nodes n)) :
    Branch c calibration nodes n st w e := by
  have hparts : allParts e.ops = [⟨t, op, [.node x], outs.map .node, .copy⟩] := by
    rw [hops]
    rfl
  have hrecx : st.recorded.write e.recorded (.node x) = st.recorded (.node x) :=
    Table.write_of_notMem fun p hp heq =>
      hox (hkeys p (mem_append_right _ hp) x heq)
  constructor
  · exact hkeys
  · intro o ho y hy
    rw [hparts, mem_singleton] at ho
    subst ho
    obtain ⟨y', hy', heq⟩ := mem_map.mp hy
    cases heq
    exact howner y hy'
  · intro o ho y hy
    rw [hops, mem_singleton] at ho
    subst ho
    obtain ⟨y', hy', heq⟩ := mem_map.mp hy
    cases heq
    exact howner y hy'
  · intro x' hx'
    rw [hx, mem_singleton] at hx'
    subst hx'
    rw [hops]
    exact ⟨_, mem_singleton_self _, mem_singleton_self _⟩
  · intro o ho _
    rw [hparts, mem_singleton] at ho
    subst ho
    refine ⟨fun t' ht' => ⟨x, by rw [hx]; exact mem_singleton_self x,
      mem_singleton.mp ht'⟩, fun t' ht' => ?_⟩
    obtain ⟨y, -, heq⟩ := mem_map.mp ht'
    exact ⟨y, heq.symm⟩
  · exact hskip
  · exact fun hkind => absurd hkind hplace
  · intro hsettled
    have hsx := hsettled x (by rw [hx]; exact mem_singleton_self x)
    rw [hparts, ← hcal hsx.read]
    constructor
    · intro hc y hy
      rw [hc.2 _ mem_cons_self rfl (.node x) mem_cons_self (.node y) (mem_map_of_mem hy), hrecx]
      exact hsx.recorded
    · refine fun hc => ⟨⟨(fun p hp => by cases hp), trivial⟩, fun o ho _ x' hx' y' hy' => ?_⟩
      rw [mem_singleton] at ho
      subst ho
      obtain ⟨y, hy, rfl⟩ := mem_map.mp hy'
      rw [mem_singleton.mp hx', hrecx, hsx.recorded]
      exact hc y hy
  · intro hsettled hc o ho y hy
    have hsx := hsettled x (by rw [hx]; exact mem_singleton_self x)
    rw [hops, mem_singleton] at ho
    subst ho
    obtain ⟨y', hy', heq⟩ := mem_map.mp hy
    cases heq
    have hrec := (hcal hsx.read).mpr hc y hy'
    refine ⟨?_, ?_, ?_⟩
    · rw [hparts, hcarried y hy', ← hsx.written]
      show writeStep w _ _ = _
      rw [writeStep, if_pos (mem_map_of_mem hy')]
      rfl
    · rw [hscale y hy', hrec, readScale_of_not (hforgotten y hy'), hcarried y hy']
    · rw [hrec, hcarried y hy']

end

/-! ### Branches with one op -/

/-- The tables of a walk have nothing yet of what a node owns. -/
def Fresh (calibration : String → Option κ) (nodes : List (FxNode κ)) (st : Walk κ)
    (n : FxNode κ) : Prop :=
  ∀ y, owner nodes y = n.name →
    st.scales (.node y) = calibration y ∧ st.recorded (.node y) = none

section
variable {c : Constants κ} {calibration : String → Option κ} {n : FxNode κ} {st : Walk κ}
  {w : Table κ} {e : Emission κ}

/-- What an absorbing node hands on to its relu. -/
structure Hands (nodes : List (FxNode κ)) (n : FxNode κ) (r : String) (forgets : Bool) : Prop where
  owner : owner nodes r = n.name
  args : ∀ m ∈ nodes, m.name = r → m.kind = .relu ∧ m.args = [n.name]
  mem : ∃ m ∈ nodes, m.name = r
  forgotten : forgotten nodes r = forgets

theorem Traced.carried_hands (h : Traced nodes) {r : String} {forgets : Bool}
    (hr : Hands nodes n r forgets) :
    carried c calibration nodes r = carried c calibration nodes n.name := by
  obtain ⟨m, hm, rfl⟩ := hr.mem
  obtain ⟨hkind, hargs⟩ := hr.args m hm rfl
  exact h.carried_copy c calibration hm (by rw [hkind]; rfl) (by rw [hargs]; rfl)

variable {relu : Option String} {s : κ} {op : String}

theorem Walk.unlessRecorded_eq (hfresh : ∀ r, relu = some r → st.recorded (.node r) = none) :
    unlessRecorded st relu s = relu.toList.map fun r => (.node r, s) := by
  cases relu with
  | none => rfl
  | some r => simp [unlessRecorded, hfresh r rfl]

/-- The entries of a node and of the relu that it absorbs. -/
theorem write_unlessRecorded {table : Table κ} (hne : ∀ r, relu = some r → r ≠ n.name) :
    table.write ((.node n.name, s) :: relu.toList.map fun r => (.node r, s))
      (.node (relu.getD n.name)) = some s := by
  cases relu with
  | none => exact Table.write_cons_self fun p hp => by cases hp
  | some r =>
    show Table.write (Function.update table _ _) [(.node r, s)] (.node r) = _
    rw [Table.write_singleton, update_self]

section
variable (h : Traced nodes) (hn : n ∈ nodes) (hfresh : Fresh calibration nodes st n)
  (hself : owner nodes n.name = n.name)
include h hn hfresh hself

theorem emitRequant_branch (hkind : copies n.kind = false)
    (hlstm : ∀ first others, n.kind ≠ .lstm first others) (hplace : n.kind ≠ .placeholder)
    (hops : operands n = n.args.take 1) {quant : κ → κ → Quant κ}
    (hquant : ∀ a b, (quant a b).reads = [a] ∧ (quant a b).out = some b)
    (hrelu : ∀ r, relu = some r → Hands nodes n r true)
    (he : emitRequant st n op relu quant = .ok e) :
    Branch c calibration nodes n st w e := by
  obtain ⟨x, hx, he⟩ := bind_eq_ok_iff.mp he
  obtain ⟨scaleIn, hin, he⟩ := bind_eq_ok_iff.mp he
  obtain ⟨scaleOut, hout, he⟩ := bind_eq_ok_iff.mp he
  rw [look_eq_ok] at hout
  rw [(FxNode.arg_eq_ok hx).2] at hops
  have hrec := Walk.unlessRecorded_eq (s := scaleOut) fun r hr => (hfresh r (hrelu r hr).owner).2
  have hnotrelu : n.kind ≠ .relu := fun hc => by rw [hc] at hkind; cases hkind
  have hchunk : n.kind ≠ .chunk := fun hc => by rw [hc] at hkind; cases hkind
  have hcal : carried c calibration nodes n.name = some scaleOut := by
    rw [h.carried_own c calibration hn hkind hlstm, ← (hfresh n.name hself).1, hout]
  cases he
  refine Branch.requant (relu.getD n.name) scaleOut (by rw [hops]; rfl) ?_ ?_ ?_ ?_ ?_
    ?_ hplace hnotrelu hchunk ?_ ?_
  · rw [hops, (hquant scaleIn scaleOut).1]
    exact .cons (Walk.input_eq_ok hin) .nil
  · exact (hquant scaleIn scaleOut).2
  · cases hr : relu with
    | none => exact hcal
    | some r => exact (h.carried_hands (hrelu r hr)).trans hcal
  · cases hr : relu with
    | none => exact hself
    | some r => exact (hrelu r hr).owner
  · intro p hp y hy
    rw [nil_append, hrec] at hp
    rcases mem_cons.mp hp with rfl | hp
    · cases hy
      exact hself
    · obtain ⟨r, hr, rfl⟩ := mem_map.mp hp
      cases hy
      exact (hrelu _ (Option.mem_toList.mp hr)).owner
  · intro y hy
    cases hy
  · show st.scales _ = _
    cases hr : relu with
    | none =>
      show st.scales (.node n.name) = readScale c calibration nodes n.name
      rw [readScale_of_not (h.forgotten_eq_false hn hnotrelu), hcal, hout]
    | some r =>
      show st.scales (.node r) = readScale c calibration nodes r
      rw [readScale_of (hrelu r hr).forgotten]
      exact (hfresh r (hrelu r hr).owner).1
  · show st.recorded.write (_ :: unlessRecorded st relu scaleOut) _ = _
    rw [hrec]
    exact write_unlessRecorded fun r hr heq => hnotrelu
      (((hrelu r hr).args n hn heq.symm).1)

theorem emitAdd_branch (hkind : n.kind = .add)
    (hrelu : ∀ r, relu = some r → Hands nodes n r false ∧ r ∈ fusedReluAfter nodes)
    (he : emitAdd st n relu = .ok e) : Branch c calibration nodes n st w e := by
  unfold emitAdd at he
  split at he
  · next a b others hargs =>
    obtain ⟨scaleOut, hout, he⟩ := bind_eq_ok_iff.mp he
    obtain ⟨scaleA, ha, he⟩ := bind_eq_ok_iff.mp he
    obtain ⟨scaleB, hb, he⟩ := bind_eq_ok_iff.mp he
    rw [look_eq_ok] at hout hb
    have hops : operands n = [a, b] := by
      rw [operands, hkind, hargs]
      rfl
    have hrec := Walk.unlessRecorded_eq (s := scaleOut) fun r hr =>
      (hfresh r (hrelu r hr).1.owner).2
    have hcal : carried c calibration nodes n.name = some scaleOut := by
      rw [h.carried_own c calibration hn (by rw [hkind]; rfl) (by simp [hkind]),
        ← (hfresh n.name hself).1, hout]
    have howner : ∀ p ∈ unlessRecorded st relu scaleOut, ∀ y, p.1 = .node y →
        owner nodes y = n.name := by
      intro p hp y hy
      rw [hrec] at hp
      obtain ⟨r, hr, rfl⟩ := mem_map.mp hp
      cases hy
      exact (hrelu _ (Option.mem_toList.mp hr)).1.owner
    cases he
    refine Branch.requant (relu.getD n.name) scaleOut (by rw [hops]; rfl) ?_ rfl ?_ ?_
      ?_ ?_ (by simp [hkind]) (by simp [hkind]) (by simp [hkind]) ?_ ?_
    · rw [hops]
      exact .cons (Walk.input_eq_ok ha) (.cons hb .nil)
    · cases hr : relu with
      | none => exact hcal
      | some r => exact (h.carried_hands (hrelu r hr).1).trans hcal
    · cases hr : relu with
      | none => exact hself
      | some r => exact (hrelu r hr).1.owner
    · intro p hp y hy
      rcases mem_append.mp hp with hp | hp
      · exact howner p hp y hy
      · rcases mem_cons.mp hp with rfl | hp
        · cases hy
          exact hself
        · exact howner p hp y hy
    · exact fun y hy => .inl (hrelu y (Option.mem_toList.mp hy)).2
    · show st.scales.write (unlessRecorded st relu scaleOut) _ = _
      rw [hrec]
      cases hr : relu with
      | none =>
        show st.scales (.node n.name) = readScale c calibration nodes n.name
        rw [readScale_of_not (h.forgotten_eq_false hn (by simp [hkind])), hcal, hout]
      | some r =>
        show st.scales.write [(.node r, scaleOut)] (.node r) = readScale c calibration nodes r
        rw [readScale_of_not (hrelu r hr).1.forgotten, h.carried_hands (hrelu r hr).1, hcal,
          Table.write_singleton, update_self]
    · show st.recorded.write (_ :: unlessRecorded st relu scaleOut) _ = _
      rw [hrec]
      refine write_unlessRecorded fun r hr heq => ?_
      have hnrelu := ((hrelu r hr).1.args n hn heq.symm).1
      rw [hkind] at hnrelu
      cases hnrelu
  · cases he

/-- A branch that requantizes its operands into its own tensor. -/
theorem Branch.own (hkind : copies n.kind = false)
    (hlstm : ∀ first others, n.kind ≠ .lstm first others) (hplace : n.kind ≠ .placeholder)
    {t : String} {q : Quant κ} (hout : st.scales (.node n.name) = some s) (hq : q.out = some s)
    (hreads : List.Forall₂ (fun x s => st.scales (.node x) = some s) (operands n) q.reads)
    (he : e = {
      ops := [.plain ⟨t, op, (operands n).map .node, [.node n.name], q⟩]
      recorded := [(.node n.name, s)] }) :
    Branch c calibration nodes n st w e := by
  have hnotrelu : n.kind ≠ .relu := fun hc => by rw [hc] at hkind; cases hkind
  have hchunk : n.kind ≠ .chunk := fun hc => by rw [hc] at hkind; cases hkind
  have hcal : carried c calibration nodes n.name = some s := by
    rw [h.carried_own c calibration hn hkind hlstm, ← (hfresh n.name hself).1, hout]
  subst he
  refine Branch.requant n.name s rfl hreads hq hcal hself ?_ (fun y hy => by cases hy) hplace
    hnotrelu hchunk ?_ ?_
  · intro p hp y hy
    cases mem_singleton.mp hp
    cases hy
    exact hself
  · show st.scales (.node n.name) = _
    rw [readScale_of_not (h.forgotten_eq_false hn hnotrelu), hcal, hout]
  · rw [Table.write_singleton, update_self]

theorem emitMul_branch (hkind : n.kind = .mul) (he : emitMul st n = .ok e) :
    Branch c calibration nodes n st w e := by
  unfold emitMul at he
  split at he
  · next a b others hargs =>
    obtain ⟨scaleA, ha, he⟩ := bind_eq_ok_iff.mp he
    obtain ⟨scaleB, hb, he⟩ := bind_eq_ok_iff.mp he
    obtain ⟨scaleOut, hout, he⟩ := bind_eq_ok_iff.mp he
    have hops : operands n = [a, b] := by
      rw [operands, hkind, hargs]
      rfl
    cases he
    refine Branch.own h hn hfresh hself (by rw [hkind]; rfl) (by simp [hkind]) (by simp [hkind])
      (look_eq_ok.mp hout) (q := .binary scaleA scaleB scaleOut) rfl ?_ (by rw [hops]; rfl)
    rw [hops]
    exact .cons (Walk.input_eq_ok ha) (.cons (Walk.input_eq_ok hb) .nil)
  · cases he

theorem emitCat_branch (hkind : n.kind = .cat) (he : emitCat st n = .ok e) :
    Branch c calibration nodes n st w e := by
  unfold emitCat at he
  split_ifs at he
  obtain ⟨scalesIn, hin, he⟩ := bind_eq_ok_iff.mp he
  obtain ⟨scaleOut, hout, he⟩ := bind_eq_ok_iff.mp he
  have hops : operands n = n.args := by rw [operands, hkind]
  cases he
  refine Branch.own h hn hfresh hself (by rw [hkind]; rfl) (by simp [hkind]) (by simp [hkind])
    (look_eq_ok.mp hout) (q := .concat scalesIn scaleOut) rfl ?_ (by rw [hops])
  rw [hops]
  exact (mapM_eq_ok_iff.mp hin).imp fun x s hx => Walk.input_eq_ok hx

end

section
variable (h : Traced nodes) (hn : n ∈ nodes) (hself : owner nodes n.name = n.name)
  (hkind : copies n.kind = true) (hrelu : n.kind ≠ .relu) (hchunk : n.kind ≠ .chunk)
  (hops : operands n = n.args.take 1)
include h hn hself hkind hrelu hchunk hops

/-- A branch that copies into its own tensor, and gives it the scale of its input. -/
theorem Branch.copyOwn {x : String} (harg : n.arg = .ok x) (hox : owner nodes x ≠ n.name)
    (hin : st.input x = .ok s)
    (he : e = {
      ops := [.plain ⟨n.target, op, [.node x], [.node n.name], .copy⟩]
      scales := [(.node n.name, s)]
      recorded := [(.node n.name, s)] }) :
    Branch c calibration nodes n st w e := by
  have hx : n.args.head? = some x := (FxNode.arg_eq_ok harg).1
  have hplace : n.kind ≠ .placeholder := fun hc => by rw [hc] at hkind; cases hkind
  rw [(FxNode.arg_eq_ok harg).2] at hops
  subst he
  refine Branch.copy [n.name] rfl hops ?_ hox ?_ ?_ ?_ (fun y hy => by cases hy) hplace ?_ ?_
  · exact forall_mem_singleton.mpr hself
  · exact forall_mem_singleton.mpr (h.carried_copy c calibration hn hkind hx)
  · exact forall_mem_singleton.mpr (h.forgotten_eq_false hn hrelu)
  · intro p hp y hy
    simp only [cons_append, nil_append, mem_cons, not_mem_nil, or_false, or_self] at hp
    subst hp
    cases hy
    exact hself
  · refine forall_mem_singleton.mpr ?_
    rw [Table.write_singleton, Table.write_singleton, update_self, update_self]
  · intro hread
    rw [calibratedAt_iff hrelu hchunk, hops, forall_mem_singleton, forall_mem_singleton,
      Table.write_singleton, update_self, ← hread, Walk.input_eq_ok hin]

theorem emitCopy_branch (hox : ∀ x ∈ n.args, owner nodes x ≠ n.name) (he : emitCopy st n op = .ok e) :
    Branch c calibration nodes n st w e := by
  obtain ⟨x, hx, he⟩ := bind_eq_ok_iff.mp he
  obtain ⟨scaleIn, hin, he⟩ := bind_eq_ok_iff.mp he
  obtain ⟨_, -, he⟩ := bind_eq_ok_iff.mp he
  cases he
  exact Branch.copyOwn h hn hself hkind hrelu hchunk hops hx (hox x (FxNode.mem_of_arg hx)) hin rfl

end

theorem emitRelu6_branch (h : Traced nodes) (hn : n ∈ nodes) (hself : owner nodes n.name = n.name)
    (hkind : n.kind = .relu6) (hox : ∀ x ∈ n.args, owner nodes x ≠ n.name)
    (he : emitRelu6 st n = .ok e) : Branch c calibration nodes n st w e := by
  obtain ⟨x, hx, he⟩ := bind_eq_ok_iff.mp he
  obtain ⟨scaleIn, hin, he⟩ := bind_eq_ok_iff.mp he
  cases he
  exact Branch.copyOwn h hn hself (by rw [hkind]; rfl) (by simp [hkind]) (by simp [hkind])
    (by rw [operands, hkind]) hx (hox x (FxNode.mem_of_arg hx)) hin rfl

theorem emitRelu_branch (h : Traced nodes) (hn : n ∈ nodes) (hfresh : Fresh calibration nodes st n)
    (hself : owner nodes n.name = n.name) (hkind : n.kind = .relu)
    (hcons : n.name ∉ convBnConsumed nodes nodes) (hfused : n.name ∉ fusedReluAfter nodes)
    (hox : ∀ x ∈ n.args, owner nodes x ≠ n.name) (he : emitRelu st n = .ok e) :
    Branch c calibration nodes n st w e := by
  obtain ⟨x, hx, he⟩ := bind_eq_ok_iff.mp he
  obtain ⟨_, -, he⟩ := bind_eq_ok_iff.mp he
  obtain ⟨scale, hscale, he⟩ := bind_eq_ok_iff.mp he
  rw [look_eq_ok] at hscale
  have hhead : n.args.head? = some x := (FxNode.arg_eq_ok hx).1
  have hops : operands n = [x] := by
    rw [operands, hkind]
    exact (FxNode.arg_eq_ok hx).2
  have hforgotten : forgotten nodes n.name = false := by
    refine decide_eq_false fun hf => hfused (mem_fusedReluAfter.mpr ?_)
    simp only [mem_append] at hf
    tauto
  cases he
  refine Branch.copy [n.name] rfl hops ?_ (hox x (FxNode.mem_of_arg hx)) ?_ ?_ ?_
    (fun y hy => by cases hy) (by simp [hkind]) ?_ ?_
  · exact forall_mem_singleton.mpr hself
  · exact forall_mem_singleton.mpr (h.carried_copy c calibration hn (by rw [hkind]; rfl) hhead)
  · exact forall_mem_singleton.mpr hforgotten
  · intro p hp y hy
    cases mem_singleton.mp hp
    cases hy
    exact hself
  · refine forall_mem_singleton.mpr ?_
    rw [Table.write_singleton, update_self]
    exact hscale
  · intro _
    rw [CalibratedAt, hkind]
    simp only [hops, forall_mem_singleton, hfused, hcons, not_false_eq_true, true_imp_iff]
    rw [Table.write_singleton, update_self, ← hscale, (hfresh n.name hself).1]

end

/-! ### Branches with more to them -/

theorem mem_getitems {name : String} {i : ℕ} {m : FxNode κ} :
    m ∈ getitems nodes name i ↔ m ∈ nodes ∧ m.kind = .getitem i ∧ m.args = [name] := by
  rw [getitems, mem_filter, and_congr_right_iff]
  intro _
  cases m.kind <;> simp

section
variable {c : Constants κ} {calibration : String → Option κ} {n : FxNode κ} {st : Walk κ}
  {w : Table κ} {e : Emission κ}

theorem emitChunk_branch (h : Traced nodes) (hn : n ∈ nodes) (hfresh : Fresh calibration nodes st n)
    (hkind : n.kind = .chunk) (hox : ∀ x ∈ n.args, owner nodes x ≠ n.name)
    (he : emitChunk nodes st n = .ok e) : Branch c calibration nodes n st w e := by
  obtain ⟨x, hx, he⟩ := bind_eq_ok_iff.mp he
  have hops : operands n = [x] := by
    rw [operands, hkind]
    exact (FxNode.arg_eq_ok hx).2
  split at he
  · next g₀ g₁ hg₀ hg₁ =>
    obtain ⟨scaleIn, hin, he⟩ := bind_eq_ok_iff.mp he
    have hscaleIn := Walk.input_eq_ok hin
    obtain ⟨hm₀, hk₀, ha₀⟩ := mem_getitems.mp (mem_of_getLast? hg₀)
    obtain ⟨hm₁, hk₁, ha₁⟩ := mem_getitems.mp (mem_of_getLast? hg₁)
    have hne : g₀.name ≠ g₁.name := by
      intro heq
      rw [h.eq_of_name hm₀ hm₁ heq, hk₁] at hk₀
      cases hk₀
    have hhalf : ∀ g ∈ [g₀, g₁], g ∈ nodes ∧ ∃ i, g.kind = .getitem i ∧ g.args = [n.name] := by
      intro g hg
      rcases mem_pair.mp hg with rfl | rfl
      · exact ⟨hm₀, _, hk₀, ha₀⟩
      · exact ⟨hm₁, _, hk₁, ha₁⟩
    have howner : ∀ y ∈ [g₀, g₁].map FxNode.name, owner nodes y = n.name := by
      intro y hy
      obtain ⟨g, hg, rfl⟩ := mem_map.mp hy
      obtain ⟨hmem, i, hki, hai⟩ := hhalf g hg
      exact h.owner_getitem hmem hki hai
    have hentry : ∀ {table : Table κ}, ∀ g ∈ [g₀, g₁], table.write ([g₀, g₁].map fun g =>
          (Tensor.node g.name, (st.scales (.node g.name)).getD scaleIn)) (.node g.name) =
        some ((calibration g.name).getD scaleIn) := by
      intro table g hg
      rw [← (hfresh g.name (howner _ (mem_map_of_mem hg))).1]
      rcases mem_pair.mp hg with rfl | rfl
      · refine Table.write_cons_self fun p hp heq => hne ?_
        rw [map_singleton, mem_singleton] at hp
        subst hp
        exact (Tensor.node.inj heq).symm
      · exact update_self ..
    cases he
    refine Branch.copy ([g₀, g₁].map FxNode.name) rfl hops howner
      (hox x (FxNode.mem_of_arg hx)) ?_ ?_ ?_ ?_ (by simp [hkind]) ?_ ?_
    · intro y hy
      obtain ⟨g, hg, rfl⟩ := mem_map.mp hy
      obtain ⟨hmem, i, hki, hai⟩ := hhalf g hg
      calc carried c calibration nodes g.name = carried c calibration nodes n.name :=
            h.carried_copy c calibration hmem (by rw [hki]; rfl) (by rw [hai]; rfl)
        _ = carried c calibration nodes x :=
            h.carried_copy c calibration hn (by rw [hkind]; rfl) (FxNode.arg_eq_ok hx).1
    · intro y hy
      obtain ⟨g, hg, rfl⟩ := mem_map.mp hy
      obtain ⟨hmem, i, hki, hai⟩ := hhalf g hg
      exact h.forgotten_eq_false hmem (by simp [hki])
    · intro p hp y hy
      rw [mem_append, or_self] at hp
      obtain ⟨g, hg, rfl⟩ := mem_map.mp hp
      cases hy
      exact howner _ (mem_map_of_mem hg)
    · intro y hy
      obtain ⟨g, hg, rfl⟩ : ∃ g ∈ [g₀, g₁], g.name = y := mem_map.mp hy
      obtain ⟨hmem, i, hki, hai⟩ := hhalf g hg
      refine .inr ((h.mem_namesOf hmem).mpr ?_)
      rw [hki]
      rfl
    · intro y hy
      obtain ⟨g, hg, rfl⟩ := mem_map.mp hy
      rw [hentry g hg, hentry g hg]
    · intro hread
      have hhalves : chunkHalves nodes n = [g₀, g₁] := by
        rw [chunkHalves, hg₀, hg₁]
        rfl
      rw [CalibratedAt, hkind]
      simp only [hops, forall_mem_singleton, hhalves, forall_mem_map]
      refine forall₂_congr fun g hg => ?_
      rw [hentry g hg, ← hread, hscaleIn]
      cases calibration g.name <;> rfl
  · cases he

/-- A branch that adds nothing. -/
theorem Branch.empty (hkind : n.kind = .output) (he : e = { ops := [], recorded := [] }) :
    Branch c calibration nodes n st w e := by
  have hops : operands n = [] := by rw [operands, hkind]
  subst he
  constructor
  · exact fun p hp => by cases hp
  · exact fun o ho => by cases ho
  · exact fun o ho => by cases ho
  · exact fun x hx => by rw [hops] at hx; cases hx
  · exact fun o ho => by cases ho
  · exact fun y hy => by cases hy
  · exact fun hc => by rw [hkind] at hc; cases hc
  · intro _
    rw [calibratedAt_iff (by simp [hkind]) (by simp [hkind]), hops]
    exact iff_of_true ⟨trivial, fun o ho => by cases ho⟩ fun x hx => by cases hx
  · exact fun _ _ o ho => by cases ho

theorem placeholder_branch (h : Traced nodes) (hn : n ∈ nodes)
    (hfresh : Fresh calibration nodes st n) (hself : owner nodes n.name = n.name)
    (hkind : n.kind = .placeholder)
    (hw : w (.node n.name) = inputScales calibration nodes (.node n.name)) {scale : κ}
    (hscale : st.scales (.node n.name) = some scale)
    (he : e = { ops := [], recorded := [(.node n.name, scale)] }) :
    Branch c calibration nodes n st w e := by
  have hops : operands n = [] := by rw [operands, hkind]
  have hcal : calibration n.name = some scale := by rw [← (hfresh n.name hself).1, hscale]
  have hcarried : carried c calibration nodes n.name = some scale := by
    rw [h.carried_own c calibration hn (by rw [hkind]; rfl) (by simp [hkind]), hcal]
  have hinput : n.name ∈ inputNames nodes := mem_filterMap.mpr ⟨n, hn, by rw [hkind]⟩
  subst he
  constructor
  · intro p hp y hy
    cases mem_singleton.mp hp
    cases hy
    exact hself
  · exact fun o ho => by cases ho
  · exact fun o ho => by cases ho
  · exact fun x hx => by rw [hops] at hx; cases hx
  · exact fun o ho => by cases ho
  · exact fun y hy => by cases hy
  · refine fun _ => ⟨?_, ?_, ?_⟩
    · show w (.node n.name) = _
      rw [hw, hcarried, inputScales, if_pos hinput, hcal]
    · rw [readScale_of_not (h.forgotten_eq_false hn (by simp [hkind])), hcarried]
      exact hscale
    · rw [hcarried, Table.write_singleton, update_self]
  · intro _
    rw [calibratedAt_iff (by simp [hkind]) (by simp [hkind]), hops]
    exact iff_of_true ⟨trivial, fun o ho => by cases ho⟩ fun x hx => by cases hx
  · exact fun _ _ o ho => by cases ho

theorem own_of_activation {k : FxKind κ} (hact : isActivation k = true) (hrelu : k ≠ .relu) :
    copies k = false ∧ ∀ first others, k ≠ .lstm first others := by
  cases k with
  | relu => exact absurd rfl hrelu
  | silu => exact ⟨rfl, fun _ _ hc => by cases hc⟩
  | functionalSilu => exact ⟨rfl, fun _ _ hc => by cases hc⟩
  | _ => cases hact

theorem emitConvBn_branch (h : Traced nodes) {pre rest : List (FxNode κ)}
    (hsplit : nodes = pre ++ n :: rest) (hfresh : Fresh calibration nodes st n)
    (hself : owner nodes n.name = n.name) {wScale : κ} {bn : FxNode κ} {act : Option (FxNode κ)}
    (hfusion : convBnFusion nodes n rest = some (bn, act))
    (he : emitConvBn st n wScale bn act = .ok e) : Branch c calibration nodes n st w e := by
  obtain ⟨x, hx, he⟩ := bind_eq_ok_iff.mp he
  obtain ⟨scaleIn, hin, he⟩ := bind_eq_ok_iff.mp he
  obtain ⟨convOut, hconv, he⟩ := bind_eq_ok_iff.mp he
  obtain ⟨bnOut, hbnout, he⟩ := bind_eq_ok_iff.mp he
  obtain ⟨⟨_, hkind⟩, hbn, hbnargs, rest', hrest, hact⟩ := convBnFusion_spec hfusion
  obtain ⟨hbnowner, hactowner⟩ := h.owner_convBn hsplit hfusion
  have hbnmem : bn ∈ nodes := by simp [hsplit, hrest]
  have hops : operands n = [x] := by
    rw [operands, hkind]
    exact (FxNode.arg_eq_ok hx).2
  rw [look_eq_ok] at hconv hbnout
  have hbncarried : carried c calibration nodes bn.name = some bnOut := by
    rw [h.carried_own c calibration hbnmem (by rw [hbn]; rfl) (by simp [hbn]),
      ← (hfresh bn.name hbnowner).1, hbnout]
  -- Only the convolution reads a tensor that was there before.
  have hread : (∀ y ∈ operands n, Settled c calibration nodes w st.scales st.recorded y) →
      ((∀ p ∈ [Tensor.node x].zip [scaleIn], w p.1 = some p.2) ↔ ∀ y ∈ operands n,
        readScale c calibration nodes y = carried c calibration nodes y) := by
    intro hsettled
    rw [hops] at hsettled ⊢
    exact reads_iff (.cons (Walk.input_eq_ok hin) .nil) hsettled
  have hkeys : ∀ {out : String}, owner nodes out = n.name → ∀ {s : κ},
      ∀ p ∈ [(Tensor.node out, s)] ++ [(Tensor.node out, s)], ∀ y, p.1 = .node y →
        owner nodes y = n.name := by
    intro out howner s p hp y hy
    rw [mem_append, or_self, mem_singleton] at hp
    subst hp
    cases hy
    exact howner
  have hreads : ∀ {name op : String} {outs : List Tensor} {subs : List (QuantOp κ)},
      ∀ y ∈ operands n, ∃ o ∈ [IrOp.fused name op [.node x] outs subs], .node y ∈ o.inputs := by
    intro name op outs subs y hy
    rw [hops] at hy
    cases mem_singleton.mp hy
    exact ⟨_, mem_singleton_self _, mem_singleton_self _⟩
  have houts : ∀ {name op out : String} {subs : List (QuantOp κ)},
      ∀ o ∈ [IrOp.fused name op [.node x] [.node out] subs], ∀ y, .node y ∈ o.outputs →
        y = out := by
    intro name op out subs o ho y hy
    cases mem_singleton.mp ho
    cases mem_singleton.mp hy
    rfl
  -- A convolution with a batch norm, whose output is that of the batch norm or of the relu.
  have hpair : ∀ {out : String}, owner nodes out = n.name →
      carried c calibration nodes out = some bnOut → forgotten nodes out = false →
      Branch c calibration nodes n st w {
        ops := [.fused n.target "conv2d_batchnorm2d_s8" [.node x] [.node out]
          [⟨n.target, "conv2d_s8", [.node x], [.node n.name], .folded scaleIn wScale convOut⟩,
           ⟨bn.target, "batchnorm2d_s8", [.node n.name], [.node out], .unary convOut bnOut⟩]]
        scales := [(.node out, bnOut)]
        recorded := [(.node out, bnOut)] } := by
    intro out howner hcarried hforgotten
    refine Branch.chain out bnOut (by simp [hkind]) (by simp [hkind])
      (by simp [hkind]) ?_ (hkeys howner) ?_ houts howner hreads (fun y hy => by cases hy) ?_
      (writeStep_self mem_cons_self rfl) hcarried ?_ ?_
    · intro o ho
      rcases mem_pair.mp ho with rfl | rfl <;> simp
    · intro o ho y hy
      rcases mem_pair.mp ho with rfl | rfl
      · cases mem_singleton.mp hy
        exact hself
      · cases mem_singleton.mp hy
        exact howner
    · intro hsettled
      rw [← hread hsettled]
      refine and_iff_left ⟨?_, trivial⟩
      exact forall_mem_singleton.mpr (writeStep_self mem_cons_self rfl)
    · rw [Table.write_singleton, update_self, readScale_of_not hforgotten, hcarried]
    · rw [Table.write_singleton, update_self]
  have hconsumed : ∀ {y : String}, y ∈ convBnConsumed nodes nodes → forgotten nodes y = false :=
    fun hy => decide_eq_false fun hf => hf.2 hy
  cases act with
  | none =>
    cases he
    exact hpair hbnowner hbncarried (h.forgotten_eq_false hbnmem (by simp [hbn]))
  | some act =>
    obtain ⟨hactrest, hactkind, hactargs⟩ := hact act rfl
    have hactmem : act ∈ nodes := by simp [hsplit, hrest, hactrest]
    have howner := hactowner act rfl
    have hactconsumed : act.name ∈ convBnConsumed nodes nodes :=
      mem_convBnConsumed.mpr ⟨pre, n, rest, hsplit, bn, some act, hfusion, .inr ⟨act, rfl, rfl⟩⟩
    simp only at he
    split at he
    · next hrelu =>
      cases he
      refine hpair howner ?_ (hconsumed hactconsumed)
      rw [h.carried_copy c calibration hactmem (by rw [hrelu]; rfl) (by rw [hactargs]; rfl),
        hbncarried]
    · next hnotrelu =>
      obtain ⟨siluOut, hsilu, he⟩ := bind_eq_ok_iff.mp he
      rw [look_eq_ok] at hsilu
      have hown := own_of_activation hactkind hnotrelu
      have hcarried : carried c calibration nodes act.name = some siluOut := by
        rw [h.carried_own c calibration hactmem hown.1 hown.2, ← (hfresh act.name howner).1, hsilu]
      cases he
      refine Branch.chain act.name siluOut (by simp [hkind]) (by simp [hkind])
        (by simp [hkind]) ?_ (hkeys howner) ?_ houts howner hreads (fun y hy => by cases hy) ?_
        (writeStep_self mem_cons_self rfl) hcarried ?_ ?_
      · intro o ho
        rcases mem_cons.mp ho with rfl | ho
        · simp
        · rcases mem_pair.mp ho with rfl | rfl <;> simp
      · intro o ho y hy
        rcases mem_cons.mp ho with rfl | ho
        · cases mem_singleton.mp hy
          exact hself
        · rcases mem_pair.mp ho with rfl | rfl
          · cases mem_singleton.mp hy
            exact hbnowner
          · cases mem_singleton.mp hy
            exact howner
      · intro hsettled
        rw [← hread hsettled]
        refine and_iff_left ⟨?_, ?_, trivial⟩
        · exact forall_mem_singleton.mpr (writeStep_self mem_cons_self rfl)
        · exact forall_mem_singleton.mpr (writeStep_self mem_cons_self rfl)
      · rw [Table.write_singleton, update_self, readScale_of_not (hconsumed hactconsumed), hcarried]
      · rw [Table.write_singleton, update_self]

theorem emitSdpa_branch [Mul κ] (h : Traced nodes) (hn : n ∈ nodes)
    (hfresh : Fresh calibration nodes st n) (hself : owner nodes n.name = n.name)
    (hkind : n.kind = .sdpa) (he : emitSdpa c st n = .ok e) :
    Branch c calibration nodes n st w e := by
  unfold emitSdpa at he
  split at he
  · next q k v hargs =>
    obtain ⟨scaleOut, hout, he⟩ := bind_eq_ok_iff.mp he
    obtain ⟨scaleQ, hq, he⟩ := bind_eq_ok_iff.mp he
    obtain ⟨scaleK, hk, he⟩ := bind_eq_ok_iff.mp he
    obtain ⟨scaleV, hv, he⟩ := bind_eq_ok_iff.mp he
    have hops : operands n = [q, k, v] := by rw [operands, hkind, hargs]
    rw [look_eq_ok] at hout
    have hcarried : carried c calibration nodes n.name = some scaleOut := by
      rw [h.carried_own c calibration hn (by rw [hkind]; rfl) (by simp [hkind]),
        ← (hfresh n.name hself).1, hout]
    cases he
    refine Branch.chain n.name scaleOut (by simp [hkind]) (by simp [hkind])
      (by simp [hkind]) ?_ ?_ ?_ ?_ hself ?_ (fun y hy => by cases hy) ?_
      (writeStep_self mem_cons_self rfl) hcarried ?_ ?_
    · intro o ho
      rcases mem_cons.mp ho with rfl | ho
      · simp
      · rcases mem_pair.mp ho with rfl | rfl <;> simp
    · intro p hp y hy
      simp only [cons_append, nil_append, mem_cons, not_mem_nil, or_false] at hp
      rcases hp with rfl | rfl | rfl | rfl | rfl <;> cases hy
      exact hself
    · intro o ho y hy
      rcases mem_cons.mp ho with rfl | ho
      · cases mem_singleton.mp hy
      · rcases mem_pair.mp ho with rfl | rfl
        · cases mem_singleton.mp hy
        · cases mem_singleton.mp hy
          exact hself
    · intro o ho y hy
      rcases mem_cons.mp ho with rfl | ho
      · cases mem_singleton.mp hy
      · rcases mem_pair.mp ho with rfl | rfl
        · cases mem_singleton.mp hy
        · cases mem_singleton.mp hy
          rfl
    · intro y hy
      rw [hops] at hy
      simp only [mem_cons, not_mem_nil, or_false] at hy
      rcases hy with rfl | rfl | rfl
      · exact ⟨_, mem_cons_self, mem_cons_self⟩
      · exact ⟨_, mem_cons_self, mem_cons_of_mem _ mem_cons_self⟩
      · exact ⟨_, mem_cons_of_mem _ (mem_cons_of_mem _ mem_cons_self),
          mem_cons_of_mem _ mem_cons_self⟩
    · intro hsettled
      rw [hops] at hsettled ⊢
      rw [← reads_iff (.cons (Walk.input_eq_ok hq) (.cons (Walk.input_eq_ok hk)
        (.cons (Walk.input_eq_ok hv) .nil))) hsettled]
      -- The scores and the probabilities are read at the scales at which they were just written.
      simp [allParts, IrOp.parts, ReadsConsistent, Quant.reads, writeStep, Quant.out, and_assoc]
    · show Table.write st.scales [_, _] _ = _
      rw [Table.write_of_notMem, readScale_of_not (h.forgotten_eq_false hn (by simp [hkind])),
        hcarried, hout]
      intro p hp
      rcases mem_pair.mp hp with rfl | rfl <;> simp
    · refine Table.write_cons_self fun p hp => ?_
      rcases mem_pair.mp hp with rfl | rfl <;> simp
  · cases he

end

/-! ### The layers of an LSTM -/

section
variable [Mul κ] {c : Constants κ} {target out : String} {curScale : κ} {layer : ℕ}
  {layers others : List (κ × κ)} {curIn : Tensor} {first : κ × κ}

theorem lstmLayers_outputs :
    ∀ o ∈ (lstmLayers c target out layer curIn curScale layers).1,
      o.quant ≠ .copy ∧ ∀ y, .node y ∈ o.outputs → y = out := by
  induction layers generalizing layer curIn curScale with
  | nil => exact fun o ho => by cases ho
  | cons l rest ih =>
    intro o ho
    rcases mem_cons.mp ho with rfl | ho
    · refine ⟨by simp, fun y hy => ?_⟩
      have heq := mem_singleton.mp hy
      split_ifs at heq
      exact Tensor.node.inj heq
    · exact ih o ho

theorem lstmLayers_entries :
    ∀ p ∈ (lstmLayers c target out layer curIn curScale layers).2, ∀ y, p.1 ≠ .node y := by
  induction layers generalizing layer curIn curScale with
  | nil => exact fun p hp => by cases hp
  | cons l rest ih =>
    intro p hp y
    rcases mem_append.mp hp with hp | hp
    · rcases mem_append.mp hp with hp | hp
      · rcases mem_pair.mp hp with rfl | rfl <;> simp
      · split_ifs at hp with hrest
        · cases hp
        · rw [mem_singleton.mp hp]
          simp
    · exact ih p hp y

/-- A layer reads what the layer before it wrote, at the scale of a hidden state. -/
theorem lstmLayers_reads {w : Table κ} :
    ReadsConsistent w (lstmLayers c target out layer curIn curScale (first :: others)).1 ↔
      w curIn = some curScale := by
  have hrest : ∀ {layers : List (κ × κ)} {w : Table κ} {layer : ℕ} {curIn : Tensor},
      w curIn = some c.unit →
      ReadsConsistent w (lstmLayers c target out layer curIn c.unit layers).1 := by
    intro layers
    induction layers with
    | nil => exact fun _ => trivial
    | cons l rest ih =>
      intro w layer curIn hcur
      exact ⟨forall_mem_singleton.mpr hcur, ih (writeStep_self mem_cons_self rfl)⟩
  constructor
  · exact fun hc => hc.1 (curIn, curScale) mem_cons_self
  · exact fun hcur => ⟨forall_mem_singleton.mpr hcur,
      hrest (writeStep_self mem_cons_self rfl)⟩

/-- The last layer writes the output. -/
theorem lstmLayers_written {w : Table κ} :
    written w (lstmLayers c target out layer curIn curScale (first :: others)).1 (.node out) =
      some c.unit := by
  induction others generalizing w layer curIn curScale first with
  | nil => exact writeStep_self mem_cons_self rfl
  | cons second rest ih => exact ih

variable {calibration : String → Option κ} {n : FxNode κ} {st : Walk κ} {w : Table κ}
  {e : Emission κ}

theorem emitLstm_branch (h : Traced nodes) (hn : n ∈ nodes) (hkind : n.kind = .lstm first others)
    (he : emitLstm c nodes st n (first :: others) = .ok e) :
    Branch c calibration nodes n st w e := by
  obtain ⟨x, hx, he⟩ := bind_eq_ok_iff.mp he
  have hops : operands n = [x] := by
    rw [operands, hkind]
    exact (FxNode.arg_eq_ok hx).2
  split at he
  · cases he
  next out hout =>
  obtain ⟨scaleIn, hin, he⟩ := bind_eq_ok_iff.mp he
  obtain ⟨houtmem, houtkind, houtargs⟩ := mem_getitems.mp (mem_of_mem_head? hout)
  have howner : owner nodes out.name = n.name := h.owner_getitem houtmem houtkind houtargs
  have hcarried : carried c calibration nodes out.name = some c.unit := by
    rw [h.carried_copy c calibration houtmem (by rw [houtkind]; rfl) (by rw [houtargs]; rfl),
      h.carried_lstm c calibration hn hkind]
  -- The skipped nodes differ, and nothing else does, with a state that is taken out.
  have hbranch : ∀ skip : List String, (∀ y ∈ skip, y ∈ namesOf isGetitem nodes) →
      Branch c calibration nodes n st w {
        ops := (lstmLayers c n.target out.name 0 (.node x) scaleIn (first :: others)).1.map .plain
        scales := (lstmLayers c n.target out.name 0 (.node x) scaleIn (first :: others)).2 ++
          [(.node out.name, c.unit)]
        recorded := (lstmLayers c n.target out.name 0 (.node x) scaleIn (first :: others)).2 ++
          [(.node out.name, c.unit)]
        skip := skip } := by
    intro skip hskip
    have hparts : ∀ l : List (QuantOp κ), allParts (l.map IrOp.plain) = l := by
      intro l
      induction l with
      | nil => rfl
      | cons o rest ih => exact congrArg (o :: ·) ih
    refine Branch.chain out.name c.unit (by simp [hkind]) (by simp [hkind])
      (by simp [hkind]) ?_ ?_ ?_ ?_ howner ?_ (fun y hy => .inr (hskip y hy)) ?_ ?_ hcarried ?_ ?_
    · rw [hparts]
      exact fun o ho => (lstmLayers_outputs o ho).1
    · intro p hp y hy
      rw [mem_append, or_self, mem_append] at hp
      rcases hp with hp | hp
      · exact absurd hy (lstmLayers_entries p hp y)
      · cases mem_singleton.mp hp
        cases hy
        exact howner
    · rw [hparts]
      intro o ho y hy
      rw [(lstmLayers_outputs o ho).2 y hy]
      exact howner
    · intro o ho y hy
      obtain ⟨o', ho', rfl⟩ := mem_map.mp ho
      exact (lstmLayers_outputs o' ho').2 y hy
    · intro y hy
      rw [hops] at hy
      cases mem_singleton.mp hy
      exact ⟨_, mem_cons_self, mem_cons_self⟩
    · intro hsettled
      rw [hparts, lstmLayers_reads, hops, forall_mem_singleton]
      have hsx := hsettled x (by rw [hops]; exact mem_singleton_self x)
      rw [hsx.written, ← Walk.input_eq_ok hin, hsx.read]
      exact eq_comm
    · rw [hparts]
      exact lstmLayers_written
    · rw [Table.write_append, Table.write_singleton, update_self,
        readScale_of_not (h.forgotten_eq_false houtmem (by simp [houtkind])), hcarried]
    · rw [Table.write_append, Table.write_singleton, update_self]
  have hget : ∀ {m : FxNode κ} {i : ℕ}, m ∈ getitems nodes n.name i →
      m.name ∈ namesOf isGetitem nodes := by
    intro m i hm
    obtain ⟨hmem, hk, -⟩ := mem_getitems.mp hm
    rw [h.mem_namesOf hmem, hk]
    rfl
  have hgetout := hget (mem_of_mem_head? hout)
  simp only at he
  split at he
  · cases he
    exact hbranch [out.name] (forall_mem_singleton.mpr hgetout)
  · next state hstate =>
    split_ifs at he
    · cases he
      refine hbranch [out.name, state.name] fun y hy => ?_
      rcases mem_pair.mp hy with rfl | rfl
      · exact hgetout
      · exact hget (mem_of_mem_head? hstate)

end

/-! ### Every branch -/

/-- A node without a branch of its own. -/
def Idle (nodes : List (FxNode κ)) (n : FxNode κ) : Prop :=
  n.name ∈ convBnConsumed nodes nodes ∨ n.name ∈ fusedReluAfter nodes ∨ isGetitem n.kind = true

section
variable {n : FxNode κ} {pre rest : List (FxNode κ)} {fused : List String} {r : String}

section
variable (h : Traced nodes) (hsplit : nodes = pre ++ n :: rest)
  (hcons : n.name ∉ convBnConsumed nodes nodes) (hsub : ∀ y ∈ fused, y ∈ fusedReluAfter nodes)
  (hr : absorbed fused rest = some r)
include h hsplit hcons hsub hr

theorem Traced.absorbed_spec :
    ∃ q post, rest = q :: post ∧ q ∈ nodes ∧ q.name = r ∧ q.kind = .relu ∧ q.args = [n.name] ∧
      r ∈ fused ∧ r ∉ convBnConsumed nodes nodes := by
  cases rest with
  | nil => cases hr
  | cons q post =>
    simp only [absorbed] at hr
    split_ifs at hr with hmem
    cases hr
    have hq : q ∈ nodes := by simp [hsplit]
    have hrelu : isReluOf n q = true := by
      rcases mem_fusedReluAfter.mp (hsub _ hmem) with hf | hf | hf | hf <;>
        exact (h.relu_of_neighbour hsplit hf).1
    obtain ⟨hkind, hargs⟩ := isReluOf_spec hrelu
    refine ⟨q, post, rfl, hq, rfl, hkind, hargs, hmem, fun hqcons => hcons ?_⟩
    -- A consumed relu reads a batch norm that is consumed as well.
    obtain ⟨bn, hbn, -, hbnargs, hbncons⟩ := h.consumed_arg hq hqcons (by rw [hkind]; rfl)
    rw [hargs, singleton_inj] at hbnargs
    rw [hbnargs]
    exact hbncons

theorem Traced.hands {forgets : Bool} (hforgets : n.kind = .add ↔ forgets = false) :
    Hands nodes n r forgets := by
  obtain ⟨q, post, hrest, hq, hname, hkind, hargs, hmem, hrcons⟩ :=
    h.absorbed_spec hsplit hcons hsub hr
  subst hrest
  subst hname
  have hsel : ∀ {sel : FxKind κ → Bool}, q.name ∈ reluAfter sel nodes → sel n.kind = true :=
    fun hmem => (h.relu_of_neighbour hsplit hmem).2
  refine ⟨h.owner_relu hq hrcons (hsub _ hmem) hargs, ?_, ⟨q, hq, rfl⟩, ?_⟩
  · intro m hm hmname
    rw [h.eq_of_name hm hq hmname]
    exact ⟨hkind, hargs⟩
  · cases forgets with
    | false =>
      have hadd := hforgets.mpr rfl
      refine decide_eq_false fun hf => ?_
      simp only [mem_append, or_assoc] at hf
      rcases hf.1 with hf | hf | hf <;>
      · have hc := hsel hf
        rw [hadd] at hc
        cases hc
    | true =>
      refine decide_eq_true ⟨?_, hrcons⟩
      simp only [mem_append, or_assoc]
      rcases mem_fusedReluAfter.mp (hsub _ hmem) with hf | hf | hf | hf
      · exact .inl hf
      · exact .inr (.inl hf)
      · have hc := hsel hf
        split at hc
        · next hadd => exact absurd (hforgets.mp hadd) Bool.true_eq_false.mp
        · cases hc
      · exact .inr (.inr hf)

end

variable [Mul κ] {c : Constants κ} {calibration : String → Option κ} {st : Walk κ} {w : Table κ}
  {e : Emission κ}

theorem emit_branch (h : Traced nodes) (hsplit : nodes = pre ++ n :: rest) (hidle : ¬Idle nodes n)
    (hfresh : Fresh calibration nodes st n)
    (hw : w (.node n.name) = inputScales calibration nodes (.node n.name))
    (he : emit c nodes st n rest = .ok e) : Branch c calibration nodes n st w e := by
  have hn : n ∈ nodes := by simp [hsplit]
  simp only [Idle, not_or, Bool.not_eq_true] at hidle
  obtain ⟨hcons, hfused, hget⟩ := hidle
  have hself := h.owner_self hn hcons hfused hget
  have hox : ∀ x ∈ n.args, owner nodes x ≠ n.name := by
    intro x hx heq
    have hmem := h.owner_mem hsplit (h.args pre n rest hsplit x hx)
    have hnd := h.nodup
    rw [hsplit, map_append, nodup_append] at hnd
    exact hnd.2.2 _ (heq ▸ hmem) n.name mem_cons_self rfl
  have hrequant : ∀ {op : String} {relu : Option String} {quant : κ → κ → Quant κ},
      (copies n.kind = false ∧ (∀ first others, n.kind ≠ .lstm first others) ∧
        n.kind ≠ .placeholder ∧ operands n = n.args.take 1) →
      (∀ a b, (quant a b).reads = [a] ∧ (quant a b).out = some b) →
      (∀ r, relu = some r → Hands nodes n r true) → emitRequant st n op relu quant = .ok e →
      Branch c calibration nodes n st w e :=
    fun hk hq hr he => emitRequant_branch h hn hfresh hself hk.1 hk.2.1 hk.2.2.1 hk.2.2.2 hq hr he
  have hcopy : ∀ {op : String}, (copies n.kind = true ∧ n.kind ≠ .relu ∧ n.kind ≠ .chunk ∧
      operands n = n.args.take 1) → emitCopy st n op = .ok e →
      Branch c calibration nodes n st w e :=
    fun hk he => emitCopy_branch h hn hself hk.1 hk.2.1 hk.2.2.1 hk.2.2.2 hox he
  have habsorbed : ∀ {r : String}, absorbed (fusedReluAfter nodes) rest = some r →
      n.kind ≠ .add → Hands nodes n r true :=
    fun hr hadd => h.hands hsplit hcons (fun y hy => hy) hr (by simp [hadd])
  unfold emit at he
  split at he
  · next hkind =>
    obtain ⟨scale, hscale, he⟩ := bind_eq_ok_iff.mp he
    cases he
    exact placeholder_branch h hn hfresh hself hkind hw (look_eq_ok.mp hscale) rfl
  · next wScale hkind =>
    exact hrequant ⟨by rw [hkind]; rfl, by simp [hkind], by simp [hkind], by rw [operands, hkind]⟩
      (fun a b => ⟨rfl, rfl⟩) (fun r hr => habsorbed hr (by simp [hkind])) he
  · next wScale hkind =>
    split at he
    · next bn act hfusion => exact emitConvBn_branch h hsplit hfresh hself hfusion he
    · exact hrequant ⟨by rw [hkind]; rfl, by simp [hkind], by simp [hkind], by rw [operands, hkind]⟩
        (fun a b => ⟨rfl, rfl⟩) (fun r hr => habsorbed hr (by simp [hkind])) he
  · next hkind =>
    refine hrequant ⟨by rw [hkind]; rfl, by simp [hkind], by simp [hkind], by rw [operands, hkind]⟩
      (fun a b => ⟨rfl, rfl⟩) (fun r hr => h.hands hsplit hcons ?_ hr (by simp [hkind])) he
    exact fun y hy => mem_fusedReluAfter.mpr (.inr (.inr (.inr hy)))
  · next hkind =>
    rw [if_neg hfused] at he
    exact emitRelu_branch h hn hfresh hself hkind hcons hfused hox he
  · next hkind => exact emitRelu6_branch h hn hself hkind hox he
  iterate 6
    · next hkind =>
      exact hcopy ⟨by rw [hkind]; rfl, by simp [hkind], by simp [hkind], by rw [operands, hkind]⟩ he
  iterate 2
    · next hkind =>
      exact hrequant ⟨by rw [hkind]; rfl, by simp [hkind], by simp [hkind], by rw [operands, hkind]⟩
        (fun a b => ⟨rfl, rfl⟩) (fun r hr => by cases hr) he
  · next first others hkind => exact emitLstm_branch h hn hkind he
  · next hkind =>
    have hsub : ∀ y ∈ fusedAddRelu nodes, y ∈ fusedReluAfter nodes :=
      fun y hy => mem_fusedReluAfter.mpr (.inr (.inr (.inl hy)))
    refine emitAdd_branch h hn hfresh hself hkind (fun r hr => ⟨?_, ?_⟩) he
    · exact h.hands hsplit hcons hsub hr (by simp [hkind])
    · obtain ⟨_, _, _, _, _, _, _, hmem, _⟩ := h.absorbed_spec hsplit hcons hsub hr
      exact hsub r hmem
  · next hkind => exact emitMul_branch h hn hfresh hself hkind he
  · next hkind => exact emitCat_branch h hn hfresh hself hkind he
  · next hkind => exact emitSdpa_branch h hn hfresh hself hkind he
  · next hkind => exact emitChunk_branch h hn hfresh hkind hox he
  · next hkind =>
    cases he
    exact Branch.empty hkind rfl
  all_goals cases he

end

/-! ### The walk -/

theorem simulate_eq_ok (h : simulate done ops = .ok done') :
    done' = done ++ ops.flatMap IrOp.outputs ∧
      ∀ o ∈ ops, ∀ t ∈ o.inputs, t ∈ done ∨ ∃ o' ∈ ops, t ∈ o'.outputs := by
  induction ops generalizing done with
  | nil =>
    cases h
    exact ⟨(append_nil _).symm, fun o ho => by cases ho⟩
  | cons o rest ih =>
    rw [simulate] at h
    split_ifs at h with hin
    obtain ⟨hdone, hreads⟩ := ih h
    refine ⟨by rw [hdone, flatMap_cons, append_assoc], fun o' ho' t ht => ?_⟩
    rcases mem_cons.mp ho' with rfl | ho'
    · exact .inl (hin t ht)
    · rcases hreads o' ho' t ht with hmem | ⟨o'', ho'', hout⟩
      · rcases mem_append.mp hmem with hmem | hmem
        · exact .inl hmem
        · exact .inr ⟨o, mem_cons_self, hmem⟩
      · exact .inr ⟨o'', mem_cons_of_mem o ho'', hout⟩

theorem simulate_append {ops' : List (IrOp κ)} :
    simulate done (ops ++ ops') = .ok done' ↔
      ∃ mid, simulate done ops = .ok mid ∧ simulate mid ops' = .ok done' := by
  induction ops generalizing done with
  | nil => simp [simulate]
  | cons o rest ih =>
    rw [cons_append, simulate, simulate]
    split_ifs
    · exact ih
    · simp

theorem allParts_append (ops ops' : List (IrOp κ)) :
    allParts (ops ++ ops') = allParts ops ++ allParts ops' :=
  flatMap_append

theorem operands_subset (n : FxNode κ) : ∀ x ∈ operands n, x ∈ n.args := by
  intro x hx
  unfold operands at hx
  split at hx
  all_goals first
    | exact mem_of_mem_take hx
    | exact hx
    | cases hx

/-- The walk so far: what belongs to the nodes that are done is written, and settled if the scales
are consistent; the rest is as it was. -/
structure Inv (c : Constants κ) (calibration : String → Option κ) (nodes : List (FxNode κ))
    (done : List String) (st : Walk κ) (tensors : List Tensor) : Prop where
  fresh : ∀ y, owner nodes y ∉ done →
    st.scales (.node y) = calibration y ∧ st.recorded (.node y) = none ∧
      written (inputScales calibration nodes) (allParts st.ops) (.node y) =
        inputScales calibration nodes (.node y)
  produced : ∀ y, .node y ∈ tensors → y ∈ inputNames nodes ∨ owner nodes y ∈ done
  copied : ∀ o ∈ allParts st.ops, o.quant = .copy → ∀ t ∈ o.inputs ++ o.outputs,
    ∃ y, t = .node y ∧ owner nodes y ∈ done
  consumed : ∀ y ∈ convBnConsumed nodes nodes, y ∈ st.skip
  skip : ∀ y ∈ st.skip, y ∈ convBnConsumed nodes nodes ∨ y ∈ fusedReluAfter nodes ∨
    y ∈ namesOf isGetitem nodes
  settled : ScaleConsistent calibration nodes st.ops st.recorded →
    ∀ y, .node y ∈ tensors → owner nodes y ∈ done →
      Settled c calibration nodes
        (written (inputScales calibration nodes) (allParts st.ops)) st.scales st.recorded y

section
variable {c : Constants κ} {calibration : String → Option κ} {n : FxNode κ}
  {pre rest : List (FxNode κ)} {st : Walk κ} {tensors : List Tensor}

theorem Traced.notMem_pre (h : Traced nodes) (hsplit : nodes = pre ++ n :: rest) :
    n.name ∉ pre.map FxNode.name := by
  have hnd := h.nodup
  rw [hsplit, map_append, nodup_append] at hnd
  exact fun hmem => hnd.2.2 _ hmem _ mem_cons_self rfl

theorem Traced.owner_input (h : Traced nodes) {y : String} (hy : y ∈ inputNames nodes) :
    owner nodes y = y ∧ ∃ m ∈ nodes, m.name = y ∧ m.kind = .placeholder := by
  obtain ⟨m, hm, hsome⟩ := mem_filterMap.mp hy
  split at hsome
  · next hkind =>
    cases hsome
    refine ⟨h.owner_self hm (fun hc => ?_) (fun hf => ?_) (by rw [hkind]; rfl), m, hm, rfl, hkind⟩
    · rcases h.kind_of_consumed hm hc with hk | hk
      · rw [hkind] at hk
        cases hk
      · rw [hkind] at hk
        cases hk
    · have hk := h.kind_of_fused hm hf
      rw [hkind] at hk
      cases hk
  · cases hsome

variable {e : Emission κ} {st' : Walk κ}

section
variable (h : Traced nodes)
include h

/-- A branch keeps the invariant, and the scales stay consistent iff its node is calibrated. -/
theorem Inv.branch (hsplit : nodes = pre ++ n :: rest)
    (hinv : Inv c calibration nodes (pre.map FxNode.name) st tensors)
    (hbranch : Branch c calibration nodes n st
      (written (inputScales calibration nodes) (allParts st.ops)) e) {tensors' : List Tensor}
    (hsim : simulate tensors e.ops = .ok tensors') :
    Inv c calibration nodes ((pre ++ [n]).map FxNode.name) (st.apply e) tensors' ∧
      (ScaleConsistent calibration nodes (st.apply e).ops (st.apply e).recorded ↔
        ScaleConsistent calibration nodes st.ops st.recorded ∧
          CalibratedAt c calibration nodes n) := by
  obtain ⟨htensors, hinputs⟩ := simulate_eq_ok hsim
  have hnpre := h.notMem_pre hsplit
  have hdone : ∀ {x : String}, x ∈ (pre ++ [n]).map FxNode.name ↔
      x ∈ pre.map FxNode.name ∨ x = n.name := by
    intro x
    simp
  -- What does not belong to the node is left as it is.
  have hkeep : ∀ {y : String}, owner nodes y ≠ n.name →
      st.scales.write e.scales (.node y) = st.scales (.node y) ∧
        st.recorded.write e.recorded (.node y) = st.recorded (.node y) ∧
        written (inputScales calibration nodes) (allParts (st.ops ++ e.ops)) (.node y) =
          written (inputScales calibration nodes) (allParts st.ops) (.node y) := by
    intro y hy
    refine ⟨?_, ?_, ?_⟩
    · exact Table.write_of_notMem fun p hp heq =>
        hy (hbranch.keys p (mem_append_left _ hp) y heq)
    · exact Table.write_of_notMem fun p hp heq =>
        hy (hbranch.keys p (mem_append_right _ hp) y heq)
    · rw [allParts_append, written_append]
      exact written_of_notMem fun o ho hmem => hy (hbranch.parts o ho y hmem)
  have hoperands : ∀ x ∈ operands n, .node x ∈ tensors ∧ owner nodes x ∈ pre.map FxNode.name := by
    intro x hx
    have howner := h.owner_mem hsplit (h.args pre n rest hsplit x (operands_subset n x hx))
    obtain ⟨o, ho, hmem⟩ := hbranch.reads x hx
    rcases hinputs o ho _ hmem with htensor | ⟨o', ho', hout⟩
    · exact ⟨htensor, howner⟩
    · exact absurd (hbranch.outputs o' ho' x hout ▸ howner) hnpre
  have hverdict : ScaleConsistent calibration nodes (st.apply e).ops (st.apply e).recorded ↔
      ScaleConsistent calibration nodes st.ops st.recorded ∧
        CalibratedAt c calibration nodes n := by
    have hcopies : CopiesConsistent (st.recorded.write e.recorded) (allParts st.ops) ↔
        CopiesConsistent st.recorded (allParts st.ops) := by
      refine forall₃_congr fun o ho hq => forall₂_congr fun x hx => forall₂_congr fun y hy => ?_
      obtain ⟨x', rfl, hx'⟩ := hinv.copied o ho hq x (mem_append_left _ hx)
      obtain ⟨y', rfl, hy'⟩ := hinv.copied o ho hq y (mem_append_right _ hy)
      rw [(hkeep fun heq => hnpre (heq ▸ hx')).2.1, (hkeep fun heq => hnpre (heq ▸ hy')).2.1]
    constructor
    · intro hc
      have hreads := hc.reads
      have hcop := hc.copies
      simp only [Walk.apply, allParts_append] at hreads hcop
      rw [readsConsistent_append] at hreads
      have hold : ScaleConsistent calibration nodes st.ops st.recorded :=
        ⟨hreads.1, hcopies.mp fun o ho => hcop o (mem_append_left _ ho)⟩
      refine ⟨hold, (hbranch.verdict fun x hx => ?_).mp ⟨hreads.2, fun o ho =>
        hcop o (mem_append_right _ ho)⟩⟩
      exact hinv.settled hold x (hoperands x hx).1 (hoperands x hx).2
    · rintro ⟨hold, hcal⟩
      obtain ⟨hreads, hcop⟩ := (hbranch.verdict fun x hx =>
        hinv.settled hold x (hoperands x hx).1 (hoperands x hx).2).mpr hcal
      constructor
      · simp only [Walk.apply, allParts_append]
        exact readsConsistent_append.mpr ⟨hold.reads, hreads⟩
      · simp only [Walk.apply, allParts_append]
        intro o ho
        rcases mem_append.mp ho with ho | ho
        · exact hcopies.mpr hold.copies o ho
        · exact hcop o ho
  refine ⟨?_, hverdict⟩
  constructor
  · intro y hy
    rw [hdone, not_or] at hy
    obtain ⟨hscale, hrec, hwritten⟩ := hkeep hy.2
    obtain ⟨hscale', hrec', hwritten'⟩ := hinv.fresh y hy.1
    exact ⟨hscale.trans hscale', hrec.trans hrec', hwritten.trans hwritten'⟩
  · intro y hy
    rw [hdone]
    rw [htensors, mem_append] at hy
    rcases hy with hy | hy
    · exact (hinv.produced y hy).imp_right .inl
    · obtain ⟨o, ho, hout⟩ := mem_flatMap.mp hy
      exact .inr (.inr (hbranch.outputs o ho y hout))
  · intro o ho hq t ht
    simp only [Walk.apply, allParts_append] at ho
    rcases mem_append.mp ho with ho | ho
    · obtain ⟨y, hy, howner⟩ := hinv.copied o ho hq t ht
      exact ⟨y, hy, hdone.mpr (.inl howner)⟩
    · obtain ⟨hin, hout⟩ := hbranch.copied o ho hq
      rcases mem_append.mp ht with ht | ht
      · obtain ⟨x, hx, heq⟩ := hin t ht
        exact ⟨x, heq, hdone.mpr (.inl (hoperands x hx).2)⟩
      · obtain ⟨y, rfl⟩ := hout t ht
        exact ⟨y, rfl, hdone.mpr (.inr (hbranch.parts o ho y ht))⟩
  · exact fun y hy => mem_append_left _ (hinv.consumed y hy)
  · intro y hy
    rcases mem_append.mp hy with hy | hy
    · exact hinv.skip y hy
    · exact .inr (hbranch.skip y hy)
  · intro hc y hy howner
    obtain ⟨hold, hcal⟩ := hverdict.mp hc
    have hsettled : ∀ x ∈ operands n, Settled c calibration nodes
        (written (inputScales calibration nodes) (allParts st.ops)) st.scales st.recorded x :=
      fun x hx => hinv.settled hold x (hoperands x hx).1 (hoperands x hx).2
    rw [hdone] at howner
    simp only [Walk.apply, allParts_append, written_append]
    by_cases hown : owner nodes y = n.name
    · -- A placeholder is there from the start, and anything else is an output of the branch.
      have hcases : n.kind = .placeholder ∧ y = n.name ∨ ∃ o ∈ e.ops, .node y ∈ o.outputs := by
        rw [htensors, mem_append] at hy
        rcases hy with hy | hy
        · rcases hinv.produced y hy with hinput | hpre
          · obtain ⟨hself, m, hm, hname, hkind⟩ := h.owner_input hinput
            have heq : m.name = n.name := hname.trans (hself.symm.trans hown)
            rw [h.eq_of_name hm (by simp [hsplit]) heq] at hkind
            exact .inl ⟨hkind, hself.symm.trans hown⟩
          · exact absurd (hown ▸ hpre) hnpre
        · exact .inr (mem_flatMap.mp hy)
      rcases hcases with ⟨hkind, rfl⟩ | ⟨o, ho, hout⟩
      · exact hbranch.placed hkind
      · exact hbranch.settles hsettled hcal o ho y hout
    · have hpre := howner.resolve_right hown
      have htensor : .node y ∈ tensors := by
        rw [htensors, mem_append] at hy
        refine hy.resolve_right fun hout => hown ?_
        obtain ⟨o, ho, hout⟩ := mem_flatMap.mp hout
        exact hbranch.outputs o ho y hout
      obtain ⟨hscale, hrec, hwritten⟩ := hkeep hown
      rw [allParts_append, written_append] at hwritten
      have hs := hinv.settled hold y htensor hpre
      exact ⟨hwritten.trans hs.written, hscale.trans hs.read, hrec.trans hs.recorded⟩

/-- A consumed node reads a convolution or a batch norm, and so no relu. -/
theorem Traced.consumed_operand (hn : n ∈ nodes) (hcons : n.name ∈ convBnConsumed nodes nodes)
    {x : String} (hx : n.args.head? = some x) :
    ∃ m ∈ nodes, m.name = x ∧ m.kind ≠ .relu := by
  obtain ⟨before, conv, behind, hsplit, bn, act, hfusion, hy⟩ := mem_convBnConsumed.mp hcons
  obtain ⟨⟨wScale, hconv⟩, hbn, hargs, rest', rfl, hspec⟩ := convBnFusion_spec hfusion
  rcases hy with hy | ⟨a, ha, hy⟩
  · rw [h.eq_of_name hn (by simp [hsplit]) hy, hargs] at hx
    exact ⟨conv, by simp [hsplit], Option.some.inj hx, by simp [hconv]⟩
  · rw [h.eq_of_name hn (by simp [hsplit, (hspec a ha).1]) hy, (hspec a ha).2.2] at hx
    exact ⟨bn, by simp [hsplit], Option.some.inj hx, by simp [hbn]⟩

/-- The calibration has nothing to do for a node without a branch. -/
theorem Traced.calibratedAt_idle (hn : n ∈ nodes) (hidle : Idle nodes n) :
    CalibratedAt c calibration nodes n := by
  by_cases hrelu : n.kind = .relu
  · -- An absorbed relu is not one on its own.
    rw [CalibratedAt, hrelu]
    intro hfused hcons
    rcases hidle with hc | hf | hg
    · exact absurd hc hcons
    · exact absurd hf hfused
    · rw [hrelu] at hg
      cases hg
  · rcases hidle with hcons | hfused | hget
    · have hchunk : n.kind ≠ .chunk := by
        intro hk
        rcases h.kind_of_consumed hn hcons with hc | hc
        · rw [hk] at hc
          cases hc
        · rw [hk] at hc
          cases hc
      rw [calibratedAt_iff hrelu hchunk]
      intro x hx
      have hhead : n.args.head? = some x ∨ operands n = [] := by
        rcases h.kind_of_consumed hn hcons with hk | hk
        · rw [operands, hk] at hx
          cases hargs : n.args with
          | nil => rw [hargs] at hx; cases hx
          | cons a rest =>
            rw [hargs] at hx
            cases mem_singleton.mp hx
            exact .inl rfl
        · obtain ⟨bn, -, -, hargs, -⟩ := h.consumed_arg hn hcons hk
          have hmem := operands_subset n x hx
          rw [hargs] at hmem ⊢
          cases mem_singleton.mp hmem
          exact .inl rfl
      rcases hhead with hhead | hnone
      · obtain ⟨m, hm, rfl, hkind⟩ := h.consumed_operand hn hcons hhead
        exact readScale_of_not (h.forgotten_eq_false hm hkind)
      · rw [hnone] at hx
        cases hx
    · exact absurd (h.kind_of_fused hn hfused) hrelu
    · have hops : operands n = [] := by
        unfold operands
        split <;> simp_all [isGetitem]
      rw [calibratedAt_iff hrelu (fun hk => by rw [hk] at hget; cases hget), hops]
      exact fun x hx => by cases hx

/-- A node without a branch keeps the invariant. -/
theorem Inv.idle (hsplit : nodes = pre ++ n :: rest)
    (hinv : Inv c calibration nodes (pre.map FxNode.name) st tensors) (hidle : Idle nodes n) :
    Inv c calibration nodes ((pre ++ [n]).map FxNode.name) st tensors := by
  have hn : n ∈ nodes := by simp [hsplit]
  have hdone : ∀ {x : String}, x ∈ (pre ++ [n]).map FxNode.name ↔
      x ∈ pre.map FxNode.name ∨ x = n.name := by
    intro x
    simp
  refine ⟨fun y hy => hinv.fresh y fun hc => hy (hdone.mpr (.inl hc)),
    fun y hy => (hinv.produced y hy).imp_right fun hc => hdone.mpr (.inl hc), ?_, hinv.consumed,
    hinv.skip, ?_⟩
  · intro o ho hq t ht
    obtain ⟨y, hy, howner⟩ := hinv.copied o ho hq t ht
    exact ⟨y, hy, hdone.mpr (.inl howner)⟩
  · intro hc y hy howner
    refine hinv.settled hc y hy ?_
    rcases hdone.mp howner with hpre | heq
    · exact hpre
    · -- No tensor belongs to the node: it is no placeholder.
      rcases hinv.produced y hy with hinput | hpre
      · obtain ⟨hself, m, hm, hname, hkind⟩ := h.owner_input hinput
        have hmn : m.name = n.name := hname.trans (hself.symm.trans heq)
        rw [h.eq_of_name hm hn hmn] at hkind
        rcases hidle with hcons | hfused | hget
        · rcases h.kind_of_consumed hn hcons with hk | hk
          · rw [hkind] at hk
            cases hk
          · rw [hkind] at hk
            cases hk
        · rw [h.kind_of_fused hn hfused] at hkind
          cases hkind
        · rw [hkind] at hget
          cases hget
      · exact hpre

end

variable [Mul κ]

theorem emit_idle {nodes : List (FxNode κ)} (h : Traced nodes) (hn : n ∈ nodes)
    (hidle : Idle nodes n) (hcons : n.name ∉ convBnConsumed nodes nodes)
    (he : emit c nodes st n rest = .ok e) : e = { ops := [], recorded := [] } := by
  rcases hidle with hc | hfused | hget
  · exact absurd hc hcons
  · rw [emit, h.kind_of_fused hn hfused] at he
    simp only [if_pos hfused] at he
    exact (Except.ok.inj he).symm
  · cases hkind : n.kind with
    | getitem i =>
      rw [emit, hkind] at he
      cases he
    | _ => rw [hkind] at hget; cases hget

theorem walk_ops {l : List (FxNode κ)} (hwalk : walk c nodes l st = .ok st') :
    ∃ ops, st'.ops = st.ops ++ ops := by
  induction l generalizing st with
  | nil =>
    cases hwalk
    exact ⟨[], (append_nil _).symm⟩
  | cons n rest ih =>
    rw [walk] at hwalk
    split_ifs at hwalk
    · exact ih hwalk
    · obtain ⟨e, -, hwalk⟩ := bind_eq_ok_iff.mp hwalk
      obtain ⟨ops, hops⟩ := ih hwalk
      exact ⟨e.ops ++ ops, by rw [hops, Walk.apply, append_assoc]⟩

/-- The walk keeps the scales consistent iff the calibration gives every node what it should. -/
theorem walk_iff (h : Traced nodes) {inputs done : List Tensor} {post pre : List (FxNode κ)}
    {st : Walk κ} (hsplit : nodes = pre ++ post)
    (hinv : Inv c calibration nodes (pre.map FxNode.name) st tensors)
    (hsim : simulate inputs st.ops = .ok tensors) (hwalk : walk c nodes post st = .ok st')
    (hsim' : simulate inputs st'.ops = .ok done) :
    ScaleConsistent calibration nodes st'.ops st'.recorded ↔
      ScaleConsistent calibration nodes st.ops st.recorded ∧
        ∀ n ∈ post, CalibratedAt c calibration nodes n := by
  induction post generalizing pre st tensors with
  | nil =>
    cases hwalk
    simp
  | cons n rest ih =>
    have hn : n ∈ nodes := by simp [hsplit]
    have hnext : nodes = (pre ++ [n]) ++ rest := by rw [hsplit, append_assoc]; rfl
    rw [forall_mem_cons]
    rw [walk] at hwalk
    split_ifs at hwalk with hskip
    · have hidle : Idle nodes n := by
        rcases hinv.skip n.name hskip with hc | hf | hg
        · exact .inl hc
        · exact .inr (.inl hf)
        · exact .inr (.inr ((h.mem_namesOf hn).mp hg))
      rw [ih hnext (hinv.idle h hsplit hidle) hsim hwalk,
        and_iff_right (h.calibratedAt_idle hn hidle)]
    · obtain ⟨e, he, hwalk⟩ := bind_eq_ok_iff.mp hwalk
      have hcons : n.name ∉ convBnConsumed nodes nodes := fun hc => hskip (hinv.consumed _ hc)
      by_cases hidle : Idle nodes n
      · have hst : st.apply e = st := by
          rw [emit_idle h hn hidle hcons he]
          simp [Walk.apply]
        rw [hst] at hwalk
        rw [ih hnext (hinv.idle h hsplit hidle) hsim hwalk,
          and_iff_right (h.calibratedAt_idle hn hidle)]
      · obtain ⟨ops, hops⟩ := walk_ops hwalk
        have hall := hsim'
        rw [hops, simulate_append] at hall
        obtain ⟨mid, hmid, -⟩ := hall
        have hstep := hmid
        rw [Walk.apply, simulate_append] at hstep
        obtain ⟨tensors', htensors, hstep⟩ := hstep
        cases hsim.symm.trans htensors
        have hself : owner nodes n.name = n.name := by
          simp only [Idle, not_or, Bool.not_eq_true] at hidle
          exact h.owner_self hn hidle.1 hidle.2.1 hidle.2.2
        have hfresh := fun y (hy : owner nodes y = n.name) =>
          hinv.fresh y (hy ▸ h.notMem_pre hsplit)
        have hbranch := emit_branch h hsplit hidle
          (fun y hy => ⟨(hfresh y hy).1, (hfresh y hy).2.1⟩) (hfresh n.name hself).2.2 he
        obtain ⟨hinv', hverdict⟩ := hinv.branch h hsplit hbranch hstep
        rw [ih hnext hinv' hmid hwalk, hverdict, and_assoc]

/-! ### The extraction -/

/-- The scales of the IR are consistent iff the calibration gives what copies the scale that it
should have. -/
theorem scaleConsistent_iff (c : Constants κ) (calibration : String → Option κ)
    (nodes : List (FxNode κ)) (htraced : Traced nodes) {ir : Int8Ir κ}
    (hok : extractInt8 c calibration nodes = .ok ir) :
    ScaleConsistent calibration nodes ir.ops ir.recorded ↔ Calibrated c calibration nodes := by
  obtain ⟨st, hwalk, hok⟩ := bind_eq_ok_iff.mp hok
  split_ifs at hok
  obtain ⟨done, hsim, hok⟩ := bind_eq_ok_iff.mp hok
  split_ifs at hok
  cases hok
  have hinit : Inv c calibration nodes (([] : List (FxNode κ)).map FxNode.name)
      (Walk.initial calibration nodes) ((inputNames nodes).map .node) := by
    constructor
    · exact fun y _ => ⟨rfl, rfl, rfl⟩
    · intro y hy
      obtain ⟨x, hx, heq⟩ := mem_map.mp hy
      cases heq
      exact .inl hx
    · exact fun o ho => by cases ho
    · exact fun y hy => hy
    · exact fun y hy => .inl hy
    · exact fun _ y _ howner => by cases howner
  rw [walk_iff htraced rfl hinit rfl hwalk hsim]
  exact and_iff_right ⟨trivial, fun o ho => by cases ho⟩

end

/-- Two linear layers with a relu between them. -/
def reluGraph : List (FxNode ℚ) :=
  [⟨"x", "x", .placeholder, [], 0⟩, ⟨"fc1", "fc1", .linear 1, ["x"], 1⟩,
   ⟨"relu", "relu", .relu, ["fc1"], 1⟩, ⟨"fc2", "fc2", .linear 1, ["relu"], 1⟩,
   ⟨"output", "output", .output, ["fc2"], 1⟩]

/-- The scales that the code names. -/
def unitScales : Constants ℚ := ⟨1 / 127, 8 / 127, 32⟩

/-- A calibration in which the relu has a scale of its own. -/
def reluCalibration (scale : ℚ) (x : String) : Option ℚ :=
  if x = "relu" then some scale else if x ∈ reluGraph.map FxNode.name then some 1 else none

/-- The layers are consistent when the relu is calibrated to the scale of the first. -/
theorem scaleConsistent_reluGraph : ∃ ir,
    extractInt8 unitScales (reluCalibration 1) reluGraph = .ok ir ∧
      (ScaleConsistent (reluCalibration 1) reluGraph ir.ops ir.recorded ↔
        Calibrated unitScales (reluCalibration 1) reluGraph) := by
  have hok : (extractInt8 unitScales (reluCalibration 1) reluGraph).isOk = true := by
    decide
  obtain ⟨ir, hir⟩ := exists_of_isOk hok
  exact ⟨ir, hir, scaleConsistent_iff unitScales (reluCalibration 1) reluGraph (by decide) hir⟩

/-- The second layer reads the relu at half of the scale at which the first has written it, when the
relu is calibrated to that. -/
theorem reluGraph_not_scaleConsistent : ∃ ir, Traced reluGraph ∧
    extractInt8 unitScales (reluCalibration (1 / 2)) reluGraph = .ok ir ∧
      ¬ScaleConsistent (reluCalibration (1 / 2)) reluGraph ir.ops ir.recorded := by
  have hok : (extractInt8 unitScales (reluCalibration (1 / 2)) reluGraph).isOk = true := by
    decide
  obtain ⟨ir, hir⟩ := exists_of_isOk hok
  refine ⟨ir, by decide, hir, fun hc => ?_⟩
  have hreads : ((extractInt8 unitScales (reluCalibration (1 / 2)) reluGraph).toOption.all fun ir =>
      decide (ReadsConsistent (inputScales (reluCalibration (1 / 2)) reluGraph)
        (allParts ir.ops))) = false := by
    decide +kernel
  rw [hir] at hreads
  exact absurd hc.reads (of_decide_eq_false hreads)

end ModelBlaster.Extract.Int8
