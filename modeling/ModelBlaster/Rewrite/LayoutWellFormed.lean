import ModelBlaster.Rewrite.LayoutFold

/-!
# Well-formed graphs under layout folding

A graph is well-formed when each tensor has one producer, what is read is there, and every tensor
that an op names is registered. A fold takes tensors away: those that only a deleted op has written,
and the outputs of the product that are no outputs of the new op. It keeps the graph well-formed iff
nothing that is left reads one of these.

## Main definitions

* `WellFormed`: the property of a graph;
* `Fold.taken`: the tensors that a fold takes away;
* `Fold.Clean`: nothing that is left reads a tensor that the fold takes away.

## Main results

* `wellFormed_applyFold_iff`: a fold keeps a graph well-formed iff it is clean.
-/

namespace ModelBlaster.LayoutFold

open List Fallible

/-! ### Well-formed graphs -/

namespace LayoutOp

/-- The stages of a fused group. -/
def stages (o : LayoutOp) : List Stage := o.subOps.getD []

/-- The tensors that an op writes, those between its stages among them. -/
def writes (o : LayoutOp) : List String := o.outputs ++ o.stages.flatMap Stage.outputs

/-- The tensors that an op or one of its stages reads. -/
def reads (o : LayoutOp) : List String := o.inputs ++ o.stages.flatMap Stage.inputs

end LayoutOp

/-- Whether a tensor is an input of the graph or a constant. -/
def LayoutGraph.isSource (g : LayoutGraph) (t : String) : Bool :=
  t ∈ g.inputs || (g.tensors.get? t).any TensorEntry.isConst

/-- Every stage reads what is there before it. -/
def StagesReady (there : String → Prop) : List Stage → Prop
  | [] => True
  | s :: rest =>
    (∀ t ∈ s.inputs, there t) ∧ StagesReady (fun t => there t ∨ t ∈ s.outputs) rest

/-- An op and its stages read what is there before them. -/
def OpReady (there : String → Prop) (o : LayoutOp) : Prop :=
  (∀ t ∈ o.inputs, there t) ∧ StagesReady there o.stages

/-- The tensors that are there behind some ops. -/
def Behind (g : LayoutGraph) (ops : List LayoutOp) (t : String) : Prop :=
  g.isSource t = true ∨ ∃ o ∈ ops, t ∈ o.writes

/-- Each tensor has one producer, what is read is a graph input, a constant or produced earlier, and
what is named is registered. -/
structure WellFormed (g : LayoutGraph) : Prop where
  /-- No two ops write one tensor. -/
  ops : g.ops.Pairwise fun o o' => ∀ t ∈ o.writes, t ∉ o'.writes
  outputs : ∀ o ∈ g.ops, o.outputs.Nodup
  stages : ∀ o ∈ g.ops, (o.stages.flatMap Stage.outputs).Nodup
  /-- No op writes an input or a constant. -/
  sources : ∀ o ∈ g.ops, ∀ t ∈ o.writes, g.isSource t = false
  ready : ∀ before o after, g.ops = before ++ o :: after → OpReady (Behind g before) o
  registered : ∀ o ∈ g.ops, ∀ t ∈ o.reads ++ o.writes, (g.tensors.get? t).isSome

instance StagesReady.decidable :
    (there : String → Prop) → [DecidablePred there] → (stages : List Stage) →
      Decidable (StagesReady there stages)
  | _, _, [] => isTrue trivial
  | there, _, s :: rest =>
    have := StagesReady.decidable (fun t => there t ∨ t ∈ s.outputs) rest
    inferInstanceAs (Decidable (_ ∧ _))

instance (there : String → Prop) [DecidablePred there] (o : LayoutOp) :
    Decidable (OpReady there o) :=
  inferInstanceAs (Decidable (_ ∧ _))

instance (g : LayoutGraph) (ops : List LayoutOp) : DecidablePred (Behind g ops) :=
  fun _ => inferInstanceAs (Decidable (_ ∨ _))

theorem wellFormed_iff {g : LayoutGraph} : WellFormed g ↔
    (g.ops.Pairwise fun o o' => ∀ t ∈ o.writes, t ∉ o'.writes) ∧
    (∀ o ∈ g.ops, o.outputs.Nodup ∧ (o.stages.flatMap Stage.outputs).Nodup ∧
      (∀ t ∈ o.writes, g.isSource t = false) ∧
      ∀ t ∈ o.reads ++ o.writes, (g.tensors.get? t).isSome) ∧
    ∀ i, (hi : i < g.ops.length) → OpReady (Behind g (g.ops.take i)) g.ops[i] := by
  constructor
  · intro h
    refine ⟨h.ops, fun o ho => ⟨h.outputs o ho, h.stages o ho, h.sources o ho, h.registered o ho⟩,
      fun i hi => h.ready _ _ (g.ops.drop (i + 1)) ?_⟩
    rw [getElem_cons_drop, take_append_drop]
  · rintro ⟨hops, hall, hready⟩
    refine ⟨hops, fun o ho => (hall o ho).1, fun o ho => (hall o ho).2.1,
      fun o ho => (hall o ho).2.2.1, fun before o after hsplit => ?_,
      fun o ho => (hall o ho).2.2.2⟩
    have hlt : before.length < g.ops.length := by rw [hsplit]; simp
    have h := hready before.length hlt
    simp only [hsplit, take_left, getElem_append_right le_rfl, Nat.sub_self, getElem_cons_zero] at h
    exact h

instance (g : LayoutGraph) : Decidable (WellFormed g) := decidable_of_iff' _ wellFormed_iff

/-! ### What a fold takes away -/

namespace Fold

/-- The tensors that a fold takes away. -/
def taken (f : Fold) : List String :=
  (f.op :: (f.before ++ f.after).filter fun o => !f.stays o).flatMap fun o =>
    o.writes.filter fun t => t ∉ f.new.writes

/-- The outputs of a head stage that the fold drops. -/
def dropped (f : Fold) : List String :=
  if (gemmOps.get? f.op.op).isSome then []
  else (f.op.stages.head?.elim [] Stage.outputs).tail

/-- Nothing that is left reads a tensor that the fold takes away. -/
structure Clean (f : Fold) : Prop where
  left : ∀ o ∈ f.left, ∀ t ∈ o.reads, t ∉ f.taken
  stages : ∀ s ∈ f.op.stages.tail, ∀ t ∈ s.inputs, t ∉ f.dropped

end Fold

/-! ### Chains -/

/-- A chain of copies and views from a tensor up to its root. Each tensor on the way has one
reader. -/
inductive SourceChain (g : LayoutGraph) : String → String → List LayoutOp → Prop
  | nil (t : String) : SourceChain g t t []
  | cons {t src root : String} {o : LayoutOp} {ops : List LayoutOp} {others : List String}
    (hprod : g.producer t = some o) (hop : o.op ∈ moveOps) (hin : o.inputs = src :: others)
    (hsole : (g.readers t).length = 1) (hout : t ∉ g.outputs) (hrest : SourceChain g src root ops) :
    SourceChain g t root (o :: ops)

/-- A chain of copies and views from a tensor down. -/
inductive SinkChain (g : LayoutGraph) : String → String → List LayoutOp → Prop
  | nil (t : String) : SinkChain g t t []
  | cons {t out final : String} {o : LayoutOp} {ops : List LayoutOp} {others : List String}
    (hsole : g.readers t = [o]) (hop : o.op ∈ moveOps) (hout : o.outputs = out :: others)
    (hnot : t ∉ g.outputs) (hrest : SinkChain g out final ops) :
    SinkChain g t final (o :: ops)

variable {draw : List ℕ → List (List ℕ)} {g : LayoutGraph}

theorem first_eq_ok {α : Type} {l : List α} {x : α} (h : first l = .ok x) : ∃ rest, l = x :: rest := by
  cases l with
  | nil => cases h
  | cons y rest =>
    cases h
    exact ⟨rest, rfl⟩

variable {m : AffineMap} {fuel : ℕ} {ops chain : List LayoutOp} {cur t final : String}
  {o : LayoutOp} {gm : Stage} {only : List String} {f : Fold} {there' there : String → Prop}

theorem sourceLoop_spec {root : String} {m' : AffineMap}
    (h : sourceLoop draw g fuel cur m chain = .ok (root, m', ops)) :
    ∃ ops', ops = chain ++ ops' ∧ SourceChain g cur root ops' := by
  induction fuel generalizing cur m chain with
  | zero => cases h
  | succ fuel ih =>
    have hstop : (.ok (cur, m, chain) : Except FoldError (String × AffineMap × List LayoutOp)) =
        .ok (root, m', ops) → ∃ ops', ops = chain ++ ops' ∧ SourceChain g cur root ops' := by
      intro heq
      cases heq
      exact ⟨[], (append_nil _).symm, .nil _⟩
    rw [sourceLoop] at h
    split at h
    · exact hstop h
    · next o hprod =>
      by_cases hop : o.op ∈ moveOps
      · rw [if_neg (not_not.mpr hop)] at h
        obtain ⟨src, hsrc, h⟩ := bind_eq_ok_iff.mp h
        obtain ⟨shape, -, h⟩ := bind_eq_ok_iff.mp h
        obtain ⟨inner, -, h⟩ := bind_eq_ok_iff.mp h
        obtain ⟨nm, -, h⟩ := bind_eq_ok_iff.mp h
        split at h
        · exact hstop h
        · split_ifs at h with hsole
          · obtain ⟨ops', rfl, hchain⟩ := ih h
            obtain ⟨others, hin⟩ := first_eq_ok hsrc
            exact ⟨o :: ops', append_assoc .., .cons hprod hop hin hsole.1 hsole.2 hchain⟩
          · exact hstop h
      · rw [if_pos hop] at h
        exact hstop h

theorem SinkChain.snoc {t cur out : String} {o : LayoutOp} {ops : List LayoutOp}
    {others : List String} (h : SinkChain g t cur ops) (hsole : g.readers cur = [o])
    (hop : o.op ∈ moveOps) (hout : o.outputs = out :: others) (hnot : cur ∉ g.outputs) :
    SinkChain g t out (ops ++ [o]) := by
  induction h with
  | nil t => exact .cons hsole hop hout hnot (.nil out)
  | cons hsole' hop' hout' hnot' _ ih => exact .cons hsole' hop' hout' hnot' (ih hsole hnot)

theorem sinkLoop_spec {n : ℕ} {best : Option (String × List LayoutOp)}
    (hchain : SinkChain g t cur chain)
    (hbest : ∀ final ops, best = some (final, ops) → SinkChain g t final ops ∧ ops ≠ [])
    (h : sinkLoop g n fuel cur chain best = .ok (some (final, ops))) :
    SinkChain g t final ops ∧ ops ≠ [] := by
  induction fuel generalizing cur chain best with
  | zero => cases h
  | succ fuel ih =>
    have hstop : (.ok best : Except FoldError (Option (String × List LayoutOp))) =
        .ok (some (final, ops)) → SinkChain g t final ops ∧ ops ≠ [] :=
      fun heq => hbest final ops (Except.ok.inj heq)
    rw [sinkLoop] at h
    split at h
    · next o hread =>
      split_ifs at h with hout hview hoff
      · exact hstop h
      · exact hstop h
      · obtain ⟨out, hfirst, h⟩ := bind_eq_ok_iff.mp h
        obtain ⟨others, houts⟩ := first_eq_ok hfirst
        rw [not_or, not_not] at hout
        have hnext := hchain.snoc hread hout.2 houts hout.1
        refine ih hnext (fun final ops hsome => ?_) h
        split_ifs at hsome
        · cases hsome
          exact ⟨hnext, by simp⟩
        · exact hbest final ops hsome
      · obtain ⟨m, -, h⟩ := bind_eq_ok_iff.mp h
        split_ifs at h
        · exact hstop h
        · obtain ⟨out, hfirst, h⟩ := bind_eq_ok_iff.mp h
          obtain ⟨others, houts⟩ := first_eq_ok hfirst
          rw [not_or, not_not] at hout
          have hnext := hchain.snoc hread hout.2 houts hout.1
          refine ih hnext (fun final ops hsome => ?_) h
          cases hsome
          exact ⟨hnext, by simp⟩
    · exact hstop h

theorem operandSource_spec {t root : String} {plain m : AffineMap} {ops : List LayoutOp}
    (h : operandSource draw g t plain = .ok (root, m, ops)) : SourceChain g t root ops := by
  obtain ⟨⟨root', m', ops'⟩, hsource, h⟩ := bind_eq_ok_iff.mp h
  obtain ⟨shape, -, hsource⟩ := bind_eq_ok_iff.mp hsource
  obtain ⟨ops'', rfl, hchain⟩ := sourceLoop_spec hsource
  simp only at h
  split_ifs at h
  · cases h
    exact hchain
  · cases h
    exact .nil t

theorem sinkMap_spec (h : sinkMap draw g t = .ok (some (final, m, ops))) :
    SinkChain g t final ops ∧ ops ≠ [] := by
  obtain ⟨shape, -, h⟩ := bind_eq_ok_iff.mp h
  obtain ⟨sink, hloop, h⟩ := bind_eq_ok_iff.mp h
  split at h
  · cases h
  · next final' ops' =>
    obtain ⟨finalShape, -, h⟩ := bind_eq_ok_iff.mp h
    obtain ⟨back, -, h⟩ := bind_eq_ok_iff.mp h
    split at h
    · cases h
    · obtain ⟨w, -, heq⟩ := Option.map_eq_some_iff.mp (Except.ok.inj h)
      cases heq
      exact sinkLoop_spec (.nil t) (fun _ _ hnone => by cases hnone) hloop

theorem resultSink_spec {plain : AffineMap} (h : resultSink draw g o t plain = .ok (final, m, ops))
    :
    final = t ∧ ops = [] ∨
      (gemmOps.get? o.op).isSome ∧ SinkChain g t final ops ∧ ops ≠ [] := by
  unfold resultSink at h
  split_ifs at h with hop
  · obtain ⟨sink, hsink, h⟩ := bind_eq_ok_iff.mp h
    split at h
    · cases h
      exact .inr ⟨hop, sinkMap_spec hsink⟩
    · cases h
      exact .inl ⟨rfl, rfl⟩
  · cases h
    exact .inl ⟨rfl, rfl⟩

/-- What a fold consists of: the chains of the operands and of the result, and the new op. -/
structure FoldSpec (g : LayoutGraph) (o new : LayoutOp) (dead : List LayoutOp) (gm : Stage)
    (aTensor bTensor aRoot bRoot cTensor cFinal : String) : Prop where
  gemm : gemmOf o = some gm
  inputs : ∃ others, gm.inputs = aTensor :: bTensor :: others
  outputs : ∃ others, gm.outputs = cTensor :: others
  new : ∃ shape folded, new = rewritten o gm aTensor bTensor aRoot bRoot cFinal shape folded
  dead : ∃ aOps bOps cOps, dead = aOps ++ bOps ++ cOps ∧ SourceChain g aTensor aRoot aOps ∧
    SourceChain g bTensor bRoot bOps ∧
    (cFinal = cTensor ∧ cOps = [] ∨
      (gemmOps.get? o.op).isSome ∧ SinkChain g cTensor cFinal cOps ∧ cOps ≠ [])

theorem tryFold_spec {new : LayoutOp} {dead : List LayoutOp} (hgemm : gemmOf o = some gm)
    (h : tryFold draw g o gm = .ok (some (new, dead))) :
    ∃ aTensor bTensor aRoot bRoot cTensor cFinal,
      FoldSpec g o new dead gm aTensor bTensor aRoot bRoot cTensor cFinal := by
  obtain ⟨bt, -, h⟩ := bind_eq_ok_iff.mp h
  obtain ⟨M, -, h⟩ := bind_eq_ok_iff.mp h
  obtain ⟨K, -, h⟩ := bind_eq_ok_iff.mp h
  obtain ⟨N, -, h⟩ := bind_eq_ok_iff.mp h
  split at h
  · next aTensor bTensor othersIn cTensor othersOut hin hout =>
    obtain ⟨⟨aRoot, aMap, aOps⟩, ha, h⟩ := bind_eq_ok_iff.mp h
    obtain ⟨⟨bRoot, bMap, bOps⟩, hb, h⟩ := bind_eq_ok_iff.mp h
    obtain ⟨⟨cFinal, cMap, cOps⟩, hc, h⟩ := bind_eq_ok_iff.mp h
    simp only at h
    split_ifs at h with hnone
    · cases h
    · obtain ⟨aCands, -, h⟩ := bind_eq_ok_iff.mp h
      obtain ⟨bCands, -, h⟩ := bind_eq_ok_iff.mp h
      obtain ⟨cCands, -, h⟩ := bind_eq_ok_iff.mp h
      obtain ⟨fitted, -, h⟩ := bind_eq_ok_iff.mp h
      split at h
      · cases h
      · next shape =>
        cases h
        exact ⟨aTensor, bTensor, aRoot, bRoot, cTensor, cFinal, hgemm, ⟨othersIn, hin⟩,
          ⟨othersOut, hout⟩, ⟨shape, _, rfl⟩, aOps, bOps, cOps, rfl, operandSource_spec ha,
          operandSource_spec hb, resultSink_spec hc⟩
  · cases h
  · cases h

theorem pickFrom_spec {before rest : List LayoutOp}
    (h : pickFrom draw g only before rest = .ok (some f)) :
    f.before ++ f.op :: f.after = before ++ rest ∧
      ∃ gm, gemmOf f.op = some gm ∧ tryFold draw g f.op gm = .ok (some (f.new, f.dead)) := by
  induction rest generalizing before with
  | nil => cases h
  | cons o after ih =>
    have hnext : pickFrom draw g only (before ++ [o]) after = .ok (some f) →
        f.before ++ f.op :: f.after = before ++ o :: after ∧
          ∃ gm, gemmOf f.op = some gm ∧ tryFold draw g f.op gm = .ok (some (f.new, f.dead)) := by
      intro h
      obtain ⟨hsplit, hspec⟩ := ih h
      exact ⟨hsplit.trans (append_assoc ..), hspec⟩
    rw [pickFrom] at h
    split at h
    · exact hnext h
    · next gm hgemm =>
      split_ifs at h
      · exact hnext h
      · obtain ⟨r, htry, h⟩ := bind_eq_ok_iff.mp h
        split at h
        · exact hnext h
        · cases h
          exact ⟨rfl, gm, hgemm, htry⟩

/-! ### Stages -/

theorem StagesReady.imp {stages : List Stage} (h : StagesReady there stages)
    (himp : ∀ s ∈ stages, ∀ t ∈ s.inputs, there t → there' t) : StagesReady there' stages := by
  induction stages generalizing there there' with
  | nil => trivial
  | cons s rest ih =>
    refine ⟨fun t ht => himp s mem_cons_self t ht (h.1 t ht), ih h.2 fun s' hs' t ht => ?_⟩
    exact Or.imp_left (himp s' (mem_cons_of_mem s hs') t ht)

/-- What a stage reads is there, or one of the stages writes it. -/
theorem StagesReady.read {stages : List Stage} (h : StagesReady there stages) {s : Stage}
    (hs : s ∈ stages) (ht : t ∈ s.inputs) :
    there t ∨ t ∈ stages.flatMap Stage.outputs := by
  induction stages generalizing there with
  | nil => cases hs
  | cons s' rest ih =>
    rw [flatMap_cons, mem_append]
    rcases mem_cons.mp hs with rfl | hs
    · exact .inl (h.1 t ht)
    · rcases ih h.2 hs with (hthere | hout) | hrest
      · exact .inl hthere
      · exact .inr (.inl hout)
      · exact .inr (.inr hrest)

theorem OpReady.imp (h : OpReady there o) (himp : ∀ t ∈ o.reads, there t → there' t) :
    OpReady there' o := by
  refine ⟨fun t ht => himp t (mem_append_left _ ht) (h.1 t ht), h.2.imp fun s hs t ht => ?_⟩
  exact himp t (mem_append_right _ (mem_flatMap.mpr ⟨s, hs, ht⟩))

theorem OpReady.read (h : OpReady there o) (ht : t ∈ o.reads) : there t ∨ t ∈ o.writes := by
  rcases mem_append.mp ht with ht | ht
  · exact .inl (h.1 t ht)
  · obtain ⟨s, hs, ht⟩ := mem_flatMap.mp ht
    exact (h.2.read hs ht).imp_right (mem_append_right _)

/-! ### What stands where -/

theorem producer_spec (h : g.producer t = some o) :
    o ∈ g.ops ∧ t ∈ o.outputs := by
  obtain ⟨hmem, hout⟩ := mem_filter.mp (mem_of_getLast? h)
  exact ⟨hmem, of_decide_eq_true hout⟩

theorem readers_spec (h : g.readers t = [o]) :
    o ∈ g.ops ∧ t ∈ o.inputs := by
  have hmem : o ∈ g.readers t := by
    rw [h]
    exact mem_singleton_self o
  obtain ⟨o', ho', hread⟩ := mem_flatMap.mp hmem
  obtain ⟨t', ht', rfl⟩ := mem_map.mp hread
  obtain ⟨ht', heq⟩ := mem_filter.mp ht'
  rw [of_decide_eq_true heq] at ht'
  exact ⟨ho', ht'⟩

theorem LayoutOp.writes_of_outputs (h : t ∈ o.outputs) : t ∈ o.writes :=
  mem_append_left _ h

theorem Behind.mono {ops' : List LayoutOp} (hsub : ops ⊆ ops') (h : Behind g ops t) :
    Behind g ops' t :=
  h.imp_right fun ⟨o, ho, ht⟩ => ⟨o, hsub ho, ht⟩

namespace WellFormed

variable (hwf : WellFormed g)
include hwf

variable {after before ops : List LayoutOp} {t root : String} {p o : LayoutOp}

theorem disjoint (hsplit : g.ops = before ++ after) {q : LayoutOp} (hp : p ∈ before)
    (hq : q ∈ after) (htp : t ∈ p.writes) : t ∉ q.writes := by
  have hops := hwf.ops
  rw [hsplit, pairwise_append] at hops
  exact hops.2.2 p hp q hq t htp

/-- The ops before and behind an op write nothing that it does. -/
theorem op_disjoint (hsplit : g.ops = before ++ o :: after) (hp : p ∈ before ++ after)
    (ht : t ∈ o.writes) : t ∉ p.writes := by
  intro htp
  rcases mem_append.mp hp with hp | hp
  · exact hwf.disjoint hsplit hp mem_cons_self htp ht
  · have hsplit' : g.ops = (before ++ [o]) ++ after := by rw [hsplit, append_assoc]; rfl
    exact hwf.disjoint hsplit' (by simp) hp ht htp

theorem eq_of_writes {o' : LayoutOp} (ho : o ∈ g.ops) (ho' : o' ∈ g.ops) (ht : t ∈ o.writes)
    (ht' : t ∈ o'.writes) : o = o' := by
  obtain ⟨before, after, hsplit⟩ := append_of_mem ho
  rw [hsplit, mem_append, mem_cons] at ho'
  rcases ho' with h | h | h
  · exact absurd ht' (hwf.op_disjoint hsplit (mem_append_left _ h) ht)
  · exact h.symm
  · exact absurd ht' (hwf.op_disjoint hsplit (mem_append_right _ h) ht)

/-- A tensor that is there and that an op writes is written by an op before. -/
theorem mem_of_behind (hsplit : g.ops = before ++ after) (ho : o ∈ g.ops) (ht : t ∈ o.writes)
    (h : Behind g before t) :
    o ∈ before := by
  rcases h with hsource | ⟨p, hp, htp⟩
  · rw [hwf.sources o ho t ht] at hsource
    cases hsource
  · rw [hwf.eq_of_writes ho (hsplit ▸ mem_append_left after hp) ht htp]
    exact hp

/-- A chain up from a tensor that is there stands before, and so does its root. -/
theorem source_behind (hsplit : g.ops = before ++ after) (hchain : SourceChain g t root ops)
    (h : Behind g before t) : Behind g before root ∧ ∀ d ∈ ops, d ∈ before := by
  induction hchain with
  | nil t => exact ⟨h, fun d hd => by cases hd⟩
  | @cons t src root o ops others hprod hop hin hsole hout hrest ih =>
    obtain ⟨ho, ht⟩ := producer_spec hprod
    have hmem := hwf.mem_of_behind hsplit ho (LayoutOp.writes_of_outputs ht) h
    obtain ⟨b₁, b₂, hbefore⟩ := append_of_mem hmem
    have hready := hwf.ready b₁ o (b₂ ++ after) (by rw [hsplit, hbefore]; simp)
    have hsrc : Behind g b₁ src := hready.1 src (by rw [hin]; exact mem_cons_self)
    have hsub : b₁ ⊆ before := by
      rw [hbefore]
      exact subset_append_left _ _
    obtain ⟨hroot, hops⟩ := ih (hsrc.mono hsub)
    refine ⟨hroot, fun d hd => ?_⟩
    rcases mem_cons.mp hd with rfl | hd
    · exact hmem
    · exact hops d hd

/-- The root of a chain up is registered. -/
theorem source_registered (hchain : SourceChain g t root ops) (h : (g.tensors.get? t).isSome) :
    (g.tensors.get? root).isSome := by
  induction hchain with
  | nil t => exact h
  | @cons t src root o ops others hprod hop hin hsole hout hrest ih =>
    refine ih (hwf.registered o (producer_spec hprod).1 src ?_)
    refine mem_append_left _ (mem_append_left _ ?_)
    rw [hin]
    exact mem_cons_self

/-- What is read is a source, or an op writes it. -/
theorem read (ho : o ∈ g.ops) (ht : t ∈ o.reads) : Behind g g.ops t := by
  obtain ⟨before, after, hsplit⟩ := append_of_mem ho
  rcases (hwf.ready before o after hsplit).read ht with hthere | hwrites
  · refine hthere.mono ?_
    rw [hsplit]
    exact subset_append_left _ _
  · exact .inr ⟨o, ho, hwrites⟩

/-- A chain down from a tensor that an op writes stands behind the op. -/
theorem sink_behind (hsplit : g.ops = before ++ o :: after) {final : String}
    (hchain : SinkChain g t final ops) (h : ∃ p ∈ o :: after, t ∈ p.writes) :
    (∀ d ∈ ops, d ∈ after) ∧ (ops ≠ [] → ∃ d ∈ ops, final ∈ d.outputs) := by
  induction hchain with
  | nil t => exact ⟨fun d hd => (by cases hd), fun hne => absurd rfl hne⟩
  | @cons t out final d ops others hsole hop hout hnot hrest ih =>
    obtain ⟨hd, ht⟩ := readers_spec hsole
    obtain ⟨p, hp, htp⟩ := h
    -- A reader further up would read what is not there yet.
    have hlate : ∀ b₁ b₂, g.ops = b₁ ++ d :: b₂ → ¬b₁ ⊆ before := by
      intro b₁ b₂ hsplit' hsub
      rcases (hwf.ready b₁ d b₂ hsplit').1 t ht with hsource | ⟨q, hq, htq⟩
      · rw [hwf.sources p (hsplit ▸ mem_append_right before hp) t htp] at hsource
        cases hsource
      · exact hwf.disjoint hsplit (hsub hq) hp htq htp
    have hafter : d ∈ after := by
      have hmem := hd
      rw [hsplit, mem_append, mem_cons] at hmem
      rcases hmem with hmem | rfl | hmem
      · obtain ⟨b₁, b₂, hbefore⟩ := append_of_mem hmem
        refine absurd ?_ (hlate b₁ (b₂ ++ o :: after) (by rw [hsplit, hbefore]; simp))
        rw [hbefore]
        exact subset_append_left _ _
      · exact absurd (List.Subset.refl _) (hlate before after hsplit)
      · exact hmem
    have hwrites : out ∈ d.outputs := by
      rw [hout]
      exact mem_cons_self
    obtain ⟨hops, hlast⟩ := ih ⟨d, mem_cons_of_mem _ hafter, LayoutOp.writes_of_outputs hwrites⟩
    refine ⟨forall_mem_cons.mpr ⟨hafter, hops⟩, fun _ => ?_⟩
    by_cases hempty : ops = []
    · subst hempty
      cases hrest
      exact ⟨d, mem_cons_self, hwrites⟩
    · obtain ⟨d', hd', hfinal⟩ := hlast hempty
      exact ⟨d', mem_cons_of_mem d hd', hfinal⟩

end WellFormed

/-! ### The new op -/

theorem gemmOf_cases (h : gemmOf o = some gm) :
    ((gemmOps.get? o.op).isSome = true ∧ gm = o.toStage) ∨
      ((gemmOps.get? o.op).isSome = false ∧ ∃ rest, o.subOps = some (gm :: rest)) := by
  unfold gemmOf at h
  split_ifs at h with hop
  · exact .inl ⟨hop, (Option.some.inj h).symm⟩
  · refine .inr ⟨by simpa using hop, ?_⟩
    split at h
    · next head rest hsub =>
      split_ifs at h
      cases h
      exact ⟨rest, hsub⟩
    · cases h

section
variable {o new : LayoutOp} {dead : List LayoutOp} {gm : Stage}
  {aTensor bTensor aRoot bRoot cTensor cFinal : String}

section
variable (h : FoldSpec g o new dead gm aTensor bTensor aRoot bRoot cTensor cFinal)
include h

/-- What the new op is: a product with strides, or the group with such a head. -/
theorem FoldSpec.cases :
    ((gemmOps.get? o.op).isSome = true ∧ gm = o.toStage ∧ new.inputs = [aRoot, bRoot] ∧
      new.outputs = [cFinal] ∧ new.stages = o.stages) ∨
    ((gemmOps.get? o.op).isSome = false ∧ cFinal = cTensor ∧
      (∀ t ∈ new.inputs, t = aRoot ∨ t = bRoot ∨ t ∈ o.inputs) ∧ new.outputs = o.outputs ∧
      ∃ head rest, o.stages = gm :: rest ∧ new.stages = head :: rest ∧
        head.inputs = [aRoot, bRoot] ∧ head.outputs = [cTensor]) := by
  obtain ⟨shape, folded, rfl⟩ := h.new
  obtain ⟨aOps, bOps, cOps, -, -, -, hc⟩ := h.dead
  rcases gemmOf_cases h.gemm with ⟨hop, hgm⟩ | ⟨hop, rest, hsub⟩
  · left
    unfold rewritten
    rw [if_pos hop]
    exact ⟨hop, hgm, rfl, rfl, rfl⟩
  · right
    have hfinal : cFinal = cTensor := by
      rcases hc with hc | hc
      · exact hc.1
      · rw [hop] at hc
        exact absurd hc.1 Bool.false_ne_true
    unfold rewritten
    rw [if_neg (by simp [hop])]
    refine ⟨hop, hfinal, fun t ht => ?_, rfl, ?_⟩
    · obtain ⟨t', ht', heq⟩ := mem_map.mp (PyList.mem_orderedUnique.mp ht)
      split_ifs at heq
      · exact .inr (.inl heq.symm)
      · exact .inl heq.symm
      · exact .inr (.inr (heq ▸ ht'))
    · refine ⟨⟨gm.name, (gemmOps.get? gm.op).getD gm.op, [aRoot, bRoot], [cFinal], shape⟩, rest,
        by rw [LayoutOp.stages, hsub]; rfl, ?_, rfl, congrArg (fun c => [c]) hfinal⟩
      rw [LayoutOp.stages, hsub]
      rfl

/-- The head of a group reads its operands where the group does. -/
theorem FoldSpec.behind_operands {there : String → Prop} (hready : OpReady there o) :
    there aTensor ∧ there bTensor := by
  obtain ⟨others, hin⟩ := h.inputs
  have hall : ∀ t ∈ gm.inputs, there t := by
    rcases gemmOf_cases h.gemm with ⟨-, hgm⟩ | ⟨-, rest, hsub⟩
    · rw [hgm]
      exact hready.1
    · have hstages := hready.2
      rw [LayoutOp.stages, hsub] at hstages
      exact hstages.1
  rw [hin] at hall
  exact ⟨hall aTensor mem_cons_self, hall bTensor (mem_cons_of_mem _ mem_cons_self)⟩

/-- The result of the product is written by the op. -/
theorem FoldSpec.writes_result :
    cTensor ∈ o.writes := by
  obtain ⟨others, hout⟩ := h.outputs
  have hmem : cTensor ∈ gm.outputs := by
    rw [hout]
    exact mem_cons_self
  rcases gemmOf_cases h.gemm with ⟨-, hgm⟩ | ⟨-, rest, hsub⟩
  · rw [hgm] at hmem
    exact LayoutOp.writes_of_outputs hmem
  · refine mem_append_right _ (mem_flatMap.mpr ⟨gm, ?_, hmem⟩)
    rw [LayoutOp.stages, hsub]
    exact mem_cons_self

end

end

/-! ### A fold of a well-formed graph -/

/-- A fold that a round picks. -/
def Picked (g : LayoutGraph) (f : Fold) : Prop :=
  g.ops = f.before ++ f.op :: f.after ∧
    ∃ gm aTensor bTensor aRoot bRoot cTensor cFinal,
      FoldSpec g f.op f.new f.dead gm aTensor bTensor aRoot bRoot cTensor cFinal

theorem pickFold_spec (h : pickFold draw g only = .ok (some f)) : Picked g f := by
  obtain ⟨hsplit, gm, hgemm, htry⟩ := pickFrom_spec h
  obtain ⟨aTensor, bTensor, aRoot, bRoot, cTensor, cFinal, hspec⟩ := tryFold_spec hgemm htry
  exact ⟨hsplit.symm, gm, aTensor, bTensor, aRoot, bRoot, cTensor, cFinal, hspec⟩

namespace Fold

variable {f : Fold}

theorem mem_taken {t : String} : t ∈ f.taken ↔ (t ∈ f.op.writes ∨
    ∃ d ∈ f.before ++ f.after, f.stays d = false ∧ t ∈ d.writes) ∧ t ∉ f.new.writes := by
  unfold taken
  rw [mem_flatMap]
  constructor
  · rintro ⟨d, hd, ht⟩
    obtain ⟨ht, hnew⟩ := mem_filter.mp ht
    refine ⟨?_, by simpa using hnew⟩
    rcases mem_cons.mp hd with rfl | hd
    · exact .inl ht
    · obtain ⟨hd, hstays⟩ := mem_filter.mp hd
      exact .inr ⟨d, hd, by simpa using hstays, ht⟩
  · rintro ⟨ht | ⟨d, hd, hstays, ht⟩, hnew⟩
    · exact ⟨f.op, mem_cons_self, mem_filter.mpr ⟨ht, by simpa using hnew⟩⟩
    · exact ⟨d, mem_cons_of_mem _ (mem_filter.mpr ⟨hd, by simpa using hstays⟩),
        mem_filter.mpr ⟨ht, by simpa using hnew⟩⟩

theorem stays_dead {d : LayoutOp} (hd : d ∈ f.dead) : f.stays d = false :=
  decide_eq_false (not_not.mpr (mem_map_of_mem hd))

end Fold

section
variable {f : Fold} (hwf : WellFormed g) (hpicked : Picked g f)
include hwf hpicked

/-- The dead ops are among the others of the graph. -/
theorem Picked.dead_mem {d : LayoutOp} (hd : d ∈ f.dead) : d ∈ f.before ++ f.after := by
  obtain ⟨hsplit, gm, aTensor, bTensor, aRoot, bRoot, cTensor, cFinal, hspec⟩ := hpicked
  obtain ⟨ha, hb⟩ := hspec.behind_operands (hwf.ready _ _ _ hsplit)
  obtain ⟨aOps, bOps, cOps, hdead, hsa, hsb, hc⟩ := hspec.dead
  rw [hdead] at hd
  rcases mem_append.mp hd with hd | hd
  · rcases mem_append.mp hd with hd | hd
    · exact mem_append_left _ ((hwf.source_behind hsplit hsa ha).2 d hd)
    · exact mem_append_left _ ((hwf.source_behind hsplit hsb hb).2 d hd)
  · rcases hc with ⟨-, hnil⟩ | ⟨-, hchain, -⟩
    · rw [hnil] at hd
      cases hd
    · exact mem_append_right _ ((hwf.sink_behind hsplit hchain
        ⟨f.op, mem_cons_self, hspec.writes_result⟩).1 d hd)

variable {t : String} {p : LayoutOp}

omit hwf in
/-- The stages of the new op write what those of the op did. -/
theorem Picked.stages_new (ht : t ∈ f.new.stages.flatMap Stage.outputs) :
    t ∈ f.op.writes := by
  obtain ⟨-, gm, aTensor, bTensor, aRoot, bRoot, cTensor, cFinal, hspec⟩ := hpicked
  rcases hspec.cases with ⟨-, -, -, -, hstages⟩ | ⟨-, -, -, -, head, rest, hold, hnew, -, hout⟩
  · rw [hstages] at ht
    exact mem_append_right _ ht
  · rw [hnew, flatMap_cons, hout, mem_append, mem_singleton] at ht
    rcases ht with rfl | ht
    · exact hspec.writes_result
    · refine mem_append_right _ ?_
      rw [hold, flatMap_cons]
      exact mem_append_right _ ht

/-- The new op writes what the op did, or the end of a chain behind it. -/
theorem Picked.writes_new (ht : t ∈ f.new.writes) : t ∈ f.op.writes ∨
    ∃ d ∈ f.after, f.stays d = false ∧ t ∈ d.writes := by
  rcases mem_append.mp ht with ht | ht
  · obtain ⟨hsplit, gm, aTensor, bTensor, aRoot, bRoot, cTensor, cFinal, hspec⟩ := hpicked
    rcases hspec.cases with ⟨-, -, -, hout, -⟩ | ⟨-, -, -, hout, -⟩
    · rw [hout, mem_singleton] at ht
      subst ht
      obtain ⟨aOps, bOps, cOps, hdead, -, -, hc⟩ := hspec.dead
      rcases hc with ⟨rfl, -⟩ | ⟨-, hchain, hne⟩
      · exact .inl hspec.writes_result
      · obtain ⟨hmem, hlast⟩ := hwf.sink_behind hsplit hchain
          ⟨f.op, mem_cons_self, hspec.writes_result⟩
        obtain ⟨d, hd, hout⟩ := hlast hne
        refine .inr ⟨d, hmem d hd, Fold.stays_dead ?_, LayoutOp.writes_of_outputs hout⟩
        rw [hdead]
        exact mem_append_right _ hd
    · rw [hout] at ht
      exact .inl (LayoutOp.writes_of_outputs ht)
  · exact .inl (hpicked.stages_new ht)

/-- No op that stays writes what the new op does. -/
theorem Picked.new_disjoint (hp : p ∈ f.before ++ f.after) (hstays : f.stays p = true)
    (ht : t ∈ f.new.writes) : t ∉ p.writes := by
  intro htp
  rcases hpicked.writes_new hwf ht with hop | ⟨d, hd, hgone, htd⟩
  · exact hwf.op_disjoint hpicked.1 hp hop htp
  · have hmem : ∀ q ∈ f.before ++ f.after, q ∈ g.ops := by
      intro q hq
      rw [hpicked.1]
      rcases mem_append.mp hq with hq | hq <;> simp [hq]
    rw [hwf.eq_of_writes (hmem p hp) (hmem d (mem_append_right _ hd)) htp htd, hgone] at hstays
    cases hstays

/-- An op that stays writes nothing that is taken away. -/
theorem Picked.writes_left (hp : p ∈ f.left) (ht : t ∈ p.writes) :
    t ∉ f.taken := by
  intro htaken
  obtain ⟨hgone, hnew⟩ := Fold.mem_taken.mp htaken
  have hother : p ∈ f.before ++ f.after → f.stays p = true → False := by
    intro hmem hstays
    rcases hgone with hop | ⟨d, hd, hdgone, htd⟩
    · exact hwf.op_disjoint hpicked.1 hmem hop ht
    · have hops : ∀ q ∈ f.before ++ f.after, q ∈ g.ops := by
        intro q hq
        rw [hpicked.1]
        rcases mem_append.mp hq with hq | hq <;> simp [hq]
      rw [hwf.eq_of_writes (hops p hmem) (hops d hd) ht htd, hdgone] at hstays
      cases hstays
  rcases mem_append.mp hp with hp | hp
  · obtain ⟨hp, hstays⟩ := mem_filter.mp hp
    exact hother (mem_append_left _ hp) hstays
  · rcases mem_cons.mp hp with rfl | hp
    · exact hnew ht
    · obtain ⟨hp, hstays⟩ := mem_filter.mp hp
      exact hother (mem_append_right _ hp) hstays

variable {g' : LayoutGraph} (happly : applyFold g f = .ok g')
include happly

omit hwf hpicked in
theorem applyFold_spec : g'.ops = f.left ∧ g'.inputs = g.inputs ∧ g'.outputs = g.outputs ∧
    ∃ popped : List String, g'.tensors = popped.foldl PyDict.pop g.tensors ∧
      ∀ t ∈ popped, (∃ d ∈ f.dead, t ∈ d.outputs ∧ t ∉ f.new.outputs) ∨
        (f.op.subOps = none ∧ t ∈ f.op.outputs ∧ f.new.outputs.head? ≠ some t) := by
  obtain ⟨own, hown, happly⟩ := bind_eq_ok_iff.mp happly
  cases happly
  refine ⟨rfl, rfl, rfl, _, rfl, fun t ht => ?_⟩
  rcases mem_append.mp ht with ht | ht
  · obtain ⟨d, hd, ht⟩ := mem_flatMap.mp ht
    obtain ⟨hout, hnot⟩ := mem_filter.mp ht
    exact .inl ⟨d, hd, hout, (of_decide_eq_true hnot).2⟩
  · unfold Fold.ownGone at hown
    split at hown
    · cases hown
      cases ht
    · next hsub =>
      obtain ⟨out, hfirst, hown⟩ := bind_eq_ok_iff.mp hown
      obtain ⟨out', hfirst', hown⟩ := bind_eq_ok_iff.mp hown
      cases hown
      obtain ⟨others, hout⟩ := first_eq_ok hfirst
      obtain ⟨others', hout'⟩ := first_eq_ok hfirst'
      split_ifs at ht with hne
      · cases mem_singleton.mp ht
        refine .inr ⟨hsub, by rw [hout]; exact mem_cons_self, fun heq => hne ?_⟩
        rw [hout'] at heq
        exact (Option.some.inj heq).symm
      · cases ht

/-- What is not taken away stays registered. -/
theorem Picked.tensors_kept (ht : t ∉ f.taken) :
    g'.tensors.get? t = g.tensors.get? t := by
  obtain ⟨-, -, -, popped, htensors, hpopped⟩ := applyFold_spec happly
  rw [htensors, PyDict.get?_foldl_pop, if_neg]
  intro hpop
  refine ht (Fold.mem_taken.mpr ?_)
  rcases hpopped t hpop with ⟨d, hd, hout, hnot⟩ | ⟨hsub, hout, hne⟩
  · have hmem := hpicked.dead_mem hwf hd
    have hwrites := LayoutOp.writes_of_outputs hout
    refine ⟨.inr ⟨d, hmem, Fold.stays_dead hd, hwrites⟩, fun hnew => ?_⟩
    rcases mem_append.mp hnew with hnew | hnew
    · exact hnot hnew
    · exact hwf.op_disjoint hpicked.1 hmem (hpicked.stages_new hnew) hwrites
  · refine ⟨.inl (LayoutOp.writes_of_outputs hout), fun hnew => ?_⟩
    obtain ⟨-, gm, aTensor, bTensor, aRoot, bRoot, cTensor, cFinal, hspec⟩ := hpicked
    have hnil : f.op.stages = [] := by rw [LayoutOp.stages, hsub]; rfl
    rcases hspec.cases with ⟨-, -, -, hnewout, hstages⟩ | ⟨-, -, -, -, head, rest, hold, -⟩
    · rw [LayoutOp.writes, hstages, hnil, hnewout] at hnew
      rw [hnewout] at hne
      exact hne (congrArg some (mem_singleton.mp hnew).symm)
    · rw [hnil] at hold
      cases hold

/-- No input and no constant is taken away. -/
theorem Picked.isSource_eq (t : String) : g'.isSource t = g.isSource t := by
  obtain ⟨-, hinputs, -, -⟩ := applyFold_spec happly
  by_cases ht : t ∈ f.taken
  · have hnot : g.isSource t = false := by
      obtain ⟨hop | ⟨d, hd, -, htd⟩, -⟩ := Fold.mem_taken.mp ht
      · refine hwf.sources f.op ?_ t hop
        rw [hpicked.1]
        simp
      · refine hwf.sources d ?_ t htd
        rw [hpicked.1]
        rcases mem_append.mp hd with hd | hd <;> simp [hd]
    obtain ⟨-, -, -, popped, htensors, -⟩ := applyFold_spec happly
    rw [hnot]
    simp only [LayoutGraph.isSource, Bool.or_eq_false_iff] at hnot ⊢
    rw [hinputs, htensors, PyDict.get?_foldl_pop]
    refine ⟨hnot.1, ?_⟩
    split_ifs
    · rfl
    · exact hnot.2
  · rw [LayoutGraph.isSource, LayoutGraph.isSource, hinputs, hpicked.tensors_kept hwf happly ht]

/-- What is there before an op and is not taken away is there after the fold. -/
theorem Picked.behind_before {b₁ b₂ : List LayoutOp} (hbefore : f.before = b₁ ++ b₂)
    (ht : t ∉ f.taken) (h : Behind g b₁ t) : Behind g' (b₁.filter f.stays) t := by
  rcases h with hsource | ⟨p, hp, htp⟩
  · exact .inl ((hpicked.isSource_eq hwf happly t).trans hsource)
  · have hmem : p ∈ f.before := by
      rw [hbefore]
      exact mem_append_left _ hp
    by_cases hstays : f.stays p = true
    · exact .inr ⟨p, mem_filter.mpr ⟨hp, hstays⟩, htp⟩
    · -- The new op writes nothing that stands before the op.
      have hgone : f.stays p = false := by simpa using hstays
      have hnew : t ∈ f.new.writes := by
        by_contra hnot
        exact ht (Fold.mem_taken.mpr ⟨.inr ⟨p, mem_append_left _ hmem, hgone, htp⟩, hnot⟩)
      rcases hpicked.writes_new hwf hnew with hop | ⟨d, hd, -, htd⟩
      · exact absurd htp (hwf.op_disjoint hpicked.1 (mem_append_left _ hmem) hop)
      · exact absurd htd (hwf.disjoint hpicked.1 hmem (mem_cons_of_mem _ hd) htp)

/-- What is there behind the op and is not taken away is there after the fold. -/
theorem Picked.behind_after {a₁ a₂ : List LayoutOp} (hafter : f.after = a₁ ++ a₂) (ht : t ∉ f.taken)
    (h : Behind g (f.before ++ f.op :: a₁) t) :
    Behind g' (f.before.filter f.stays ++ f.new :: a₁.filter f.stays) t := by
  rcases h with hsource | ⟨p, hp, htp⟩
  · exact .inl ((hpicked.isSource_eq hwf happly t).trans hsource)
  · by_cases hnew : t ∈ f.new.writes
    · exact .inr ⟨f.new, by simp, hnew⟩
    · have hgone : ¬(t ∈ f.op.writes ∨
          ∃ d ∈ f.before ++ f.after, f.stays d = false ∧ t ∈ d.writes) :=
        fun hc => ht (Fold.mem_taken.mpr ⟨hc, hnew⟩)
      rw [not_or, not_exists] at hgone
      refine .inr ⟨p, ?_, htp⟩
      have hstays : p ∈ f.before ++ f.after → f.stays p = true := by
        intro hmem
        by_contra hnot
        exact hgone.2 p ⟨hmem, by simpa using hnot, htp⟩
      rcases mem_append.mp hp with hp | hp
      · exact mem_append_left _ (mem_filter.mpr ⟨hp, hstays (mem_append_left _ hp)⟩)
      · rcases mem_cons.mp hp with rfl | hp
        · exact absurd htp hgone.1
        · have hmem : p ∈ f.after := by
            rw [hafter]
            exact mem_append_left _ hp
          exact mem_append_right _ (mem_cons_of_mem _
            (mem_filter.mpr ⟨hp, hstays (mem_append_right _ hmem)⟩))

/-- A fold that leaves a graph well-formed is clean. -/
theorem Picked.clean (hwf' : WellFormed g') : f.Clean := by
  obtain ⟨hops, -, -, -⟩ := applyFold_spec happly
  constructor
  · intro o ho t ht htaken
    rcases hwf'.read (hops ▸ ho) ht with hsource | ⟨p, hp, htp⟩
    · rw [hpicked.isSource_eq hwf happly] at hsource
      obtain ⟨hop | ⟨d, hd, -, htd⟩, -⟩ := Fold.mem_taken.mp htaken
      · rw [hwf.sources f.op (by rw [hpicked.1]; simp) t hop] at hsource
        cases hsource
      · have hd' : d ∈ g.ops := by
          rw [hpicked.1]
          rcases mem_append.mp hd with hd | hd <;> simp [hd]
        rw [hwf.sources d hd' t htd] at hsource
        cases hsource
    · rw [hops] at hp
      exact hpicked.writes_left hwf hp htp htaken
  · intro s hs t ht hdropped
    obtain ⟨hsplit, gm, aTensor, bTensor, aRoot, bRoot, cTensor, cFinal, hspec⟩ := hpicked
    rcases hspec.cases with ⟨hop, -⟩ | ⟨hop, -, -, -, head, rest, hold, hnew, -, hout⟩
    · rw [Fold.dropped, if_pos hop] at hdropped
      cases hdropped
    · obtain ⟨others, hgm⟩ := hspec.outputs
      rw [Fold.dropped, if_neg (by simp [hop]), hold, head?_cons, Option.elim_some, hgm,
        tail_cons] at hdropped
      rw [hold, tail_cons] at hs
      have hmem : f.op ∈ g.ops := by rw [hsplit]; simp
      have hnodup := hwf.stages f.op hmem
      rw [hold, flatMap_cons, hgm, cons_append, nodup_cons, nodup_append] at hnodup
      have hwrites : t ∈ f.op.writes := by
        refine mem_append_right _ ?_
        rw [hold, flatMap_cons, hgm]
        exact mem_append_left _ (mem_cons_of_mem _ hdropped)
      have hready := (hwf'.ready _ f.new _ hops).2
      rw [hnew] at hready
      rcases hready.2.read hs ht with (hthere | hcT) | hrest
      · rcases hthere with hsource | ⟨p, hp, htp⟩
        · rw [Picked.isSource_eq hwf ⟨hsplit, gm, _, _, _, _, _, _, hspec⟩ happly,
            hwf.sources f.op hmem t hwrites] at hsource
          cases hsource
        · exact hwf.op_disjoint hsplit (mem_append_left _ (mem_filter.mp hp).1) hwrites htp
      · rw [hout, mem_singleton] at hcT
        exact hnodup.1 (mem_append_left _ (hcT ▸ hdropped))
      · exact hnodup.2.2.2 t hdropped t hrest rfl

/-- The new op reads what is there. -/
theorem Picked.ready_new (hclean : f.Clean) :
    OpReady (Behind g' (f.before.filter f.stays)) f.new := by
  have hready := hwf.ready f.before f.op f.after hpicked.1
  have hkeep : ∀ {t : String}, t ∈ f.new.reads → Behind g f.before t →
      Behind g' (f.before.filter f.stays) t := by
    intro t ht hthere
    refine hpicked.behind_before hwf happly (append_nil _).symm ?_ hthere
    exact hclean.left f.new (by simp [Fold.left]) t ht
  obtain ⟨hsplit, gm, aTensor, bTensor, aRoot, bRoot, cTensor, cFinal, hspec⟩ := hpicked
  obtain ⟨ha, hb⟩ := hspec.behind_operands hready
  obtain ⟨aOps, bOps, cOps, -, hsa, hsb, -⟩ := hspec.dead
  have hroots : Behind g f.before aRoot ∧ Behind g f.before bRoot :=
    ⟨(hwf.source_behind hsplit hsa ha).1, (hwf.source_behind hsplit hsb hb).1⟩
  rcases hspec.cases with ⟨-, -, hin, -, hstages⟩ |
    ⟨hop, -, hin, -, head, rest, hold, hnew, hheadin, hheadout⟩
  · constructor
    · intro t ht
      refine hkeep (mem_append_left _ ht) ?_
      rw [hin] at ht
      rcases mem_pair.mp ht with rfl | rfl
      · exact hroots.1
      · exact hroots.2
    · have hold := hready.2
      rw [← hstages] at hold
      refine hold.imp fun s hs t ht hthere => hkeep ?_ hthere
      exact mem_append_right _ (mem_flatMap.mpr ⟨s, hs, ht⟩)
  · have hstage : ∀ s ∈ head :: rest, ∀ t ∈ s.inputs, t ∈ f.new.reads := by
      intro s hs t ht
      refine mem_append_right _ (mem_flatMap.mpr ⟨s, ?_, ht⟩)
      rw [hnew]
      exact hs
    constructor
    · intro t ht
      refine hkeep (mem_append_left _ ht) ?_
      rcases hin t ht with rfl | rfl | hmem
      · exact hroots.1
      · exact hroots.2
      · exact hready.1 t hmem
    · have hstages := hready.2
      rw [hold] at hstages
      rw [hnew]
      refine ⟨fun t ht => hkeep (hstage head mem_cons_self t ht) ?_,
        hstages.2.imp fun s hs t ht hthere => ?_⟩
      · rw [hheadin] at ht
        rcases mem_pair.mp ht with rfl | rfl
        · exact hroots.1
        · exact hroots.2
      · rcases hthere with hthere | hout
        · exact .inl (hkeep (hstage s (mem_cons_of_mem _ hs) t ht) hthere)
        · -- Only the first output of the head is still there.
          obtain ⟨others, hgm⟩ := hspec.outputs
          have hnot := hclean.stages s (by rw [hold]; exact hs) t ht
          rw [Fold.dropped, if_neg (by simp [hop]), hold, head?_cons, Option.elim_some, hgm,
            tail_cons] at hnot
          rw [hgm] at hout
          rw [hheadout]
          refine .inr (mem_singleton.mpr ?_)
          exact (mem_cons.mp hout).resolve_right hnot

omit g' happly in
/-- What the new op names was registered. -/
theorem Picked.registered_new (ht : t ∈ f.new.reads ++ f.new.writes) :
    (g.tensors.get? t).isSome := by
  have hmem : f.op ∈ g.ops := by rw [hpicked.1]; simp
  rcases mem_append.mp ht with ht | ht
  · obtain ⟨hsplit, gm, aTensor, bTensor, aRoot, bRoot, cTensor, cFinal, hspec⟩ := hpicked
    obtain ⟨aOps, bOps, cOps, -, hsa, hsb, -⟩ := hspec.dead
    have hop : ∀ t ∈ f.op.reads, (g.tensors.get? t).isSome :=
      fun t ht => hwf.registered f.op hmem t (mem_append_left _ ht)
    have hoperands : aTensor ∈ f.op.reads ∧ bTensor ∈ f.op.reads := by
      -- The head of a group reads what one of its stages does.
      obtain ⟨others, hin⟩ := hspec.inputs
      have hsub : ∀ t ∈ gm.inputs, t ∈ f.op.reads := by
        intro t ht
        rcases gemmOf_cases hspec.gemm with ⟨-, hgm⟩ | ⟨-, rest, hsub⟩
        · exact mem_append_left _ (hgm ▸ ht)
        · refine mem_append_right _ (mem_flatMap.mpr ⟨gm, ?_, ht⟩)
          rw [LayoutOp.stages, hsub]
          exact mem_cons_self
      rw [hin] at hsub
      exact ⟨hsub _ mem_cons_self, hsub _ (mem_cons_of_mem _ mem_cons_self)⟩
    have hroots : ∀ t, t = aRoot ∨ t = bRoot → (g.tensors.get? t).isSome := by
      rintro t (rfl | rfl)
      · exact hwf.source_registered hsa (hop _ hoperands.1)
      · exact hwf.source_registered hsb (hop _ hoperands.2)
    rcases hspec.cases with ⟨-, -, hin, -, hstages⟩ |
      ⟨-, -, hin, -, head, rest, hold, hnew, hheadin, -⟩
    · rcases mem_append.mp ht with ht | ht
      · rw [hin] at ht
        exact hroots t (mem_pair.mp ht)
      · rw [hstages] at ht
        exact hop t (mem_append_right _ ht)
    · rcases mem_append.mp ht with ht | ht
      · rcases hin t ht with h | h | h
        · exact hroots t (.inl h)
        · exact hroots t (.inr h)
        · exact hop t (mem_append_left _ h)
      · rw [hnew, flatMap_cons, hheadin, mem_append] at ht
        rcases ht with ht | ht
        · exact hroots t (mem_pair.mp ht)
        · refine hop t (mem_append_right _ ?_)
          rw [hold, flatMap_cons]
          exact mem_append_right _ ht
  · rcases hpicked.writes_new hwf ht with h | ⟨d, hd, -, htd⟩
    · exact hwf.registered f.op hmem t (mem_append_right _ h)
    · exact hwf.registered d (by rw [hpicked.1]; simp [hd]) t (mem_append_right _ htd)

/-- A clean fold leaves a graph well-formed. -/
theorem Picked.wellFormed (hclean : f.Clean) : WellFormed g' := by
  obtain ⟨hops, -, -, -⟩ := applyFold_spec happly
  have hmem : ∀ q ∈ f.before ++ f.after, q ∈ g.ops := by
    intro q hq
    rw [hpicked.1]
    rcases mem_append.mp hq with hq | hq <;> simp [hq]
  have hop : f.op ∈ g.ops := by rw [hpicked.1]; simp
  -- An op that is left is the new one or one that stays.
  have hleft : ∀ o ∈ f.left, o = f.new ∨ o ∈ f.before ++ f.after ∧ f.stays o = true := by
    intro o ho
    rcases mem_append.mp ho with ho | ho
    · obtain ⟨ho, hstays⟩ := mem_filter.mp ho
      exact .inr ⟨mem_append_left _ ho, hstays⟩
    · rcases mem_cons.mp ho with rfl | ho
      · exact .inl rfl
      · obtain ⟨ho, hstays⟩ := mem_filter.mp ho
        exact .inr ⟨mem_append_right _ ho, hstays⟩
  constructor
  · have hpair := hwf.ops
    rw [hpicked.1, pairwise_append, pairwise_cons] at hpair
    rw [hops, Fold.left, pairwise_append, pairwise_cons]
    refine ⟨hpair.1.filter _, ⟨fun p hp t ht => ?_, hpair.2.1.2.filter _⟩, fun p hp q hq t ht => ?_⟩
    · obtain ⟨hp, hstays⟩ := mem_filter.mp hp
      exact hpicked.new_disjoint hwf (mem_append_right _ hp) hstays ht
    · obtain ⟨hp, hstays⟩ := mem_filter.mp hp
      rcases mem_cons.mp hq with rfl | hq
      · exact fun hnew => hpicked.new_disjoint hwf (mem_append_left _ hp) hstays hnew ht
      · exact hpair.2.2 p hp q (mem_cons_of_mem _ (mem_filter.mp hq).1) t ht
  · intro o ho
    rw [hops] at ho
    rcases hleft o ho with rfl | ⟨ho, -⟩
    · obtain ⟨-, gm, aTensor, bTensor, aRoot, bRoot, cTensor, cFinal, hspec⟩ := hpicked
      rcases hspec.cases with ⟨-, -, -, hout, -⟩ | ⟨-, -, -, hout, -⟩
      · rw [hout]
        exact nodup_singleton cFinal
      · rw [hout]
        exact hwf.outputs f.op hop
    · exact hwf.outputs o (hmem o ho)
  · intro o ho
    rw [hops] at ho
    rcases hleft o ho with rfl | ⟨ho, -⟩
    · obtain ⟨-, gm, aTensor, bTensor, aRoot, bRoot, cTensor, cFinal, hspec⟩ := hpicked
      have hnodup := hwf.stages f.op hop
      rcases hspec.cases with ⟨-, -, -, -, hstages⟩ | ⟨-, -, -, -, head, rest, hold, hnew, -, hout⟩
      · rw [hstages]
        exact hnodup
      · obtain ⟨others, hgm⟩ := hspec.outputs
        rw [hold, flatMap_cons, hgm] at hnodup
        rw [hnew, flatMap_cons, hout]
        exact hnodup.sublist (List.Sublist.append
          (List.Sublist.cons_cons _ (nil_sublist others)) (List.Sublist.refl _))
    · exact hwf.stages o (hmem o ho)
  · intro o ho t ht
    rw [hpicked.isSource_eq hwf happly]
    rw [hops] at ho
    rcases hleft o ho with rfl | ⟨ho, -⟩
    · rcases hpicked.writes_new hwf ht with h | ⟨d, hd, -, htd⟩
      · exact hwf.sources f.op hop t h
      · exact hwf.sources d (hmem d (mem_append_right _ hd)) t htd
    · exact hwf.sources o (hmem o ho) t ht
  · intro before o after hsplit
    rw [hops] at hsplit
    have ho : o ∈ f.left := by
      rw [hsplit]
      simp
    have hreads := hclean.left o ho
    rcases append_eq_append_iff.mp hsplit with ⟨mid, hb, ha⟩ | ⟨mid, hb, ha⟩
    · cases mid with
      | nil =>
        rw [nil_append, List.cons.injEq] at ha
        rw [hb, append_nil, ← ha.1]
        exact hpicked.ready_new hwf happly hclean
      | cons m mid =>
        rw [cons_append, List.cons.injEq] at ha
        obtain ⟨a₁, a₂, hafter, ha₁, ha₂⟩ := filter_eq_append_iff.mp ha.2
        obtain ⟨c₁, c₂, hc, hc₁, hstays, hc₂⟩ := filter_eq_cons_iff.mp ha₂
        have hafter' : f.after = (a₁ ++ c₁) ++ o :: c₂ := by rw [hafter, hc, append_assoc]
        have hready := hwf.ready (f.before ++ f.op :: (a₁ ++ c₁)) o c₂
          (by rw [hpicked.1, hafter']; simp)
        refine hready.imp fun t ht hthere => ?_
        have hnone : c₁.filter f.stays = [] := filter_eq_nil_iff.mpr hc₁
        have hkept := hpicked.behind_after hwf happly hafter' (hreads t ht) hthere
        rw [filter_append, ha₁, hnone, append_nil, ha.1, ← hb] at hkept
        exact hkept
    · cases mid with
      | nil =>
        rw [nil_append, List.cons.injEq] at ha
        rw [append_nil] at hb
        rw [← hb, ha.1]
        exact hpicked.ready_new hwf happly hclean
      | cons m mid =>
        rw [cons_append, List.cons.injEq] at ha
        obtain ⟨b₁, b₂, hbefore, hb₁, hb₂⟩ := filter_eq_append_iff.mp hb
        obtain ⟨c₁, c₂, hc, hc₁, hstays, hc₂⟩ := filter_eq_cons_iff.mp hb₂
        rw [← ha.1] at hc
        have hbefore' : f.before = (b₁ ++ c₁) ++ o :: c₂ := by rw [hbefore, hc, append_assoc]
        have hready := hwf.ready (b₁ ++ c₁) o (c₂ ++ f.op :: f.after)
          (by rw [hpicked.1, hbefore']; simp)
        refine hready.imp fun t ht hthere => ?_
        have hnone : c₁.filter f.stays = [] := filter_eq_nil_iff.mpr hc₁
        have hkept := hpicked.behind_before hwf happly hbefore' (hreads t ht) hthere
        rw [filter_append, hb₁, hnone, append_nil] at hkept
        exact hkept
  · intro o ho t ht
    rw [hops] at ho
    have hnot : t ∉ f.taken := by
      rcases mem_append.mp ht with h | h
      · exact hclean.left o ho t h
      · exact hpicked.writes_left hwf ho h
    rw [hpicked.tensors_kept hwf happly hnot]
    rcases hleft o ho with rfl | ⟨ho, -⟩
    · exact hpicked.registered_new hwf ht
    · exact hwf.registered o (hmem o ho) t ht

/-- A fold leaves a graph well-formed iff nothing that is left reads what it takes away. -/
theorem Picked.wellFormed_iff : WellFormed g' ↔ f.Clean :=
  ⟨hpicked.clean hwf happly, hpicked.wellFormed hwf happly⟩

end

end ModelBlaster.LayoutFold
