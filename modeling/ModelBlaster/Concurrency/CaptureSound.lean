import ModelBlaster.Concurrency.ScheduleSound

/-!
# Soundness of the capture

The nodes of the captured graph are in the order of the plan, also where calls add no node: such a
call hands on what it was put behind.

## Main definitions

* `Dominates`: a node is among some nodes, or in front of one;
* `IssuedBy`: the nodes of a call;
* `LaunchRecord`: what is known of the calls of a launch;
* `LaunchSound`: what is asked of the captured graph;
* `callNodes`: the nodes of a call, in order.

## Main results

* `Capture.addNodes_spec`: nodes come behind all that the dependencies dominate;
* `launch_sound`: the captured graph refines the plan;
* `captured_run`: it leaves the memory as the calls do.
-/

namespace ModelBlaster.Concurrency

open KernelFusion BitMask List

/-! ### Graphs -/

/-- A node is put behind another. -/
def DependsOn (nodes : List (List ℕ)) (a b : ℕ) : Prop := ∃ l, nodes[b]? = some l ∧ a ∈ l

/-- A node is in front of another. -/
def Precedes (nodes : List (List ℕ)) : ℕ → ℕ → Prop := Relation.TransGen (DependsOn nodes)

/-- The node is among some, or in front of one of them. -/
def Dominates (nodes : List (List ℕ)) (s : List ℕ) (a : ℕ) : Prop :=
  ∃ d ∈ s, a = d ∨ Precedes nodes a d

section
variable {nodes : List (List ℕ)} {s s' : List ℕ} {a : ℕ}

theorem Dominates.mono (h : Dominates nodes s a) (hsub : ∀ d ∈ s, d ∈ s') :
    Dominates nodes s' a := by
  obtain ⟨d, hd, ha⟩ := h
  exact ⟨d, hsub d hd, ha⟩

theorem dominates_of_mem (h : a ∈ s) : Dominates nodes s a := ⟨a, h, .inl rfl⟩

/-- A node behind some is behind what they dominate. -/
theorem Dominates.precedes {b : ℕ} (h : Dominates nodes s a) (hb : nodes[b]? = some s) :
    Precedes nodes a b := by
  obtain ⟨d, hd, rfl | hpath⟩ := h
  · exact .single ⟨s, hb, hd⟩
  · exact hpath.tail ⟨s, hb, hd⟩

theorem Capture.mem_setDeps (c : Capture) (v : List ℕ) (d : ℕ) :
    d ∈ (c.setDeps v).deps ↔ d ∈ v := by
  rw [Capture.setDeps, mem_dedup, mem_insertionSort]

theorem Capture.prefix_addNodes (m : ℕ) (c : Capture) : c.nodes <+: (c.addNodes m).nodes := by
  induction m generalizing c with
  | zero => exact prefix_rfl
  | succ m ih => exact (prefix_append c.nodes [c.deps]).trans (ih c.addNode)

theorem getElem?_of_prefix {α : Type} {l l' : List α} (h : l <+: l') {i : ℕ} {x : α}
    (hx : l[i]? = some x) : l'[i]? = some x := by
  obtain ⟨t, rfl⟩ := h
  rw [getElem?_append_left (List.getElem?_eq_some_iff.mp hx).1]
  exact hx

/-- The nodes that a call adds come behind all that the dependencies dominate, and are dominated by
the dependencies that it leaves. -/
theorem Capture.addNodes_spec (m : ℕ) (c : Capture) (h : (c.addNodes m).nodes <+: nodes) :
    (∀ a, Dominates nodes c.deps a → Dominates nodes (c.addNodes m).deps a ∧
      ∀ b, c.nodes.length ≤ b → b < (c.addNodes m).nodes.length → Precedes nodes a b) ∧
    ∀ b, c.nodes.length ≤ b → b < (c.addNodes m).nodes.length →
      Dominates nodes (c.addNodes m).deps b := by
  induction m generalizing c with
  | zero =>
    refine ⟨fun a ha => ⟨ha, fun b hb hb' => ?_⟩, fun b hb hb' => ?_⟩
    all_goals exact absurd hb' (Nat.not_lt_of_le hb)
  | succ m ih =>
    obtain ⟨hdom, hown⟩ := ih c.addNode h
    have hlen : c.addNode.nodes.length = c.nodes.length + 1 := length_append
    have hfirst : nodes[c.nodes.length]? = some c.deps := by
      apply getElem?_of_prefix ((Capture.prefix_addNodes m c.addNode).trans h)
      exact getElem?_concat_length
    have hnew : Dominates nodes c.addNode.deps c.nodes.length :=
      dominates_of_mem (mem_singleton_self _)
    constructor
    · intro a ha
      have hprec := ha.precedes hfirst
      have hdom' := hdom a ⟨_, mem_singleton_self _, .inr hprec⟩
      refine ⟨hdom'.1, fun b hb hb' => ?_⟩
      rcases Nat.eq_or_lt_of_le hb with rfl | hlt
      · exact hprec
      · exact hdom'.2 b (by omega) hb'
    · intro b hb hb'
      rcases Nat.eq_or_lt_of_le hb with rfl | hlt
      · exact (hdom _ hnew).1
      · exact hown b (by omega) hb'

end

/-! ### Arrays -/

/-- The offsets are those of the predecessors in the flat array. -/
theorem flattenPreds_append (preds : List (List ℕ)) (p : List ℕ) :
    flattenPreds (preds ++ [p]) = ((flattenPreds preds).1 ++ [((flattenPreds preds).2 ++ p).length],
      (flattenPreds preds).2 ++ p) := by
  rw [flattenPreds, foldl_append]
  rfl

theorem flattenPreds_snd (preds : List (List ℕ)) : (flattenPreds preds).2 = preds.flatten := by
  induction preds using reverseRecOn with
  | nil => rfl
  | append_singleton preds p ih =>
    rw [flattenPreds_append, flatten_append, ih]
    simp

theorem flattenPreds_fst (preds : List (List ℕ)) :
    (flattenPreds preds).1.length = preds.length + 1 ∧
      ∀ i ≤ preds.length, (flattenPreds preds).1.getD i 0 = (preds.take i).flatten.length := by
  induction preds using reverseRecOn with
  | nil =>
    refine ⟨rfl, fun i hi => ?_⟩
    obtain rfl := Nat.le_zero.mp hi
    rfl
  | append_singleton preds p ih =>
    obtain ⟨hlen, hget⟩ := ih
    rw [flattenPreds_append]
    refine ⟨by simp [hlen], fun i hi => ?_⟩
    rw [length_append, length_singleton] at hi
    rcases Nat.lt_or_ge i (preds.length + 1) with hlt | hge
    · rw [getD_append _ _ _ _ (by omega), hget i (by omega), take_append_of_le_length (by omega)]
    · obtain rfl : i = preds.length + 1 := by omega
      rw [getD_append_right _ _ _ _ (by omega), hlen, Nat.sub_self, flattenPreds_snd,
        take_of_length_le (by simp)]
      simp

theorem getD_cArray (vals : List ℕ) (i : ℕ) : (cArray vals).getD i 0 = vals.getD i 0 := by
  rw [cArray]
  split_ifs with hnil
  · subst hnil
    cases i <;> rfl
  · rfl

/-- The part of a list behind some elements. -/
theorem map_getD_range' (l m r : List ℕ) :
    (List.range' l.length m.length).map ((l ++ m ++ r).getD · 0) = m := by
  apply List.ext_getElem
  · rw [length_map, length_range']
  · intro i hi hi'
    rw [getElem_map, getElem_range', Nat.one_mul, append_assoc,
      getD_append_right _ _ _ _ (Nat.le_add_right _ _), Nat.add_sub_cancel_left,
      getD_append _ _ _ _ hi', getD_eq_getElem?_getD, getElem?_eq_getElem hi']
    rfl

/-- The loop finds the predecessors of a call. -/
theorem launchPreds_eq {plan : Plan} {i : ℕ} {l : List ℕ} (h : plan.preds[i]? = some l) :
    launchPreds plan i = l := by
  obtain ⟨hi, rfl⟩ := List.getElem?_eq_some_iff.mp h
  have hget := (flattenPreds_fst plan.preds).2
  have hnext : (plan.preds.take (i + 1)).flatten =
      (plan.preds.take i).flatten ++ plan.preds[i] := by
    rw [← take_append_getElem hi, flatten_append, flatten_singleton]
  have hflat : plan.preds.flatten =
      (plan.preds.take i).flatten ++ plan.preds[i] ++ (plan.preds.drop (i + 1)).flatten := by
    rw [← hnext, ← flatten_append, take_append_drop]
  simp only [launchPreds, predsAt, getD_cArray, flattenPreds_snd]
  rw [hget i (Nat.le_of_lt hi), hget (i + 1) hi, hnext, length_append, Nat.add_sub_cancel_left,
    hflat]
  exact map_getD_range' _ _ _

/-- The predecessors of a call of a plan come before it. -/
theorem edge_lt {serialKinds : List String} {ops : List KernelOp} {calls : List Call}
    {bufs : List Buffer} {policy : String} {plan : Plan}
    (hpart : (calls.map Call.full).Pairwise (· < ·))
    (h : schedule serialKinds ops calls bufs policy = .ok plan) :
    plan.preds.length = plan.n ∧ ∀ j k, plan.Edge j k → j < k := by
  obtain ⟨A₀, hA, h⟩ := Fallible.bind_eq_ok_iff.mp h
  obtain ⟨f, -, h⟩ := Fallible.bind_eq_ok_iff.mp h
  cases h
  have hbelow := initialMasks_below hpart hA
  have hlen : (closures f.hazard A₀).1.length = A₀.length := length_closures hbelow
  constructor
  · show (directPreds _).length = calls.length
    rw [directPreds, length_map, hlen]
    exact Fallible.length_of_mapM hA
  · intro j k hedge
    have hin := (mem_directPreds_iff.mp hedge).1
    have hpath := (testBit_closures hbelow (hlen ▸ hin.lt_length) j).mp hin
    clear hin hedge
    induction hpath with
    | single hwait => exact hwait.1
    | tail _ hwait ih => exact ih.trans hwait.1

/-! ### The states of a launch -/

section
variable (plan : Plan) (exclusive : ℕ → Bool) (adds : ℕ → Option ℕ) (start : Capture)

/-- The nodes of the graph when a call is issued. -/
def nodesBefore (i : ℕ) : List (List ℕ) :=
  match launchUpTo plan exclusive adds start i with
  | some st => st.capture.nodes
  | none => []

/-- What a call is put behind. -/
def putBehind (i : ℕ) : List ℕ :=
  match launchUpTo plan exclusive adds start i with
  | some st => st.depsOf plan exclusive start i
  | none => []

/-- The last nodes of a call. -/
def lastNodes (i : ℕ) : List ℕ :=
  match launchUpTo plan exclusive adds start (i + 1) with
  | some st => st.capture.deps
  | none => []

/-- A node of a call. -/
def IssuedBy (i a : ℕ) : Prop :=
  (nodesBefore plan exclusive adds start i).length ≤ a ∧
    a < (nodesBefore plan exclusive adds start (i + 1)).length

/-- The last exclusive call before a call. -/
def IsBarrier (exclusive : ℕ → Bool) (e k : ℕ) : Prop :=
  e < k ∧ exclusive e = true ∧ ∀ j, e < j → j < k → exclusive j = false

/-- What the variables of the loop are after `k` calls. -/
structure LaunchState.Spec (k : ℕ) (st : LaunchState) : Prop where
  length_term : st.term.length = plan.n
  length_hasSucc : st.hasSucc.length = plan.n
  term : ∀ j < k, st.term.getD j [] = lastNodes plan exclusive adds start j
  hasSucc : ∀ p < plan.n, st.hasSucc.getD p false = true ↔ ∃ i < k, p ∈ launchPreds plan i
  issued : st.issued = (List.range k).flatMap (lastNodes plan exclusive adds start)
  barrier : (∃ e, IsBarrier exclusive e k ∧ st.barrier = lastNodes plan exclusive adds start e) ∨
    (∀ j < k, exclusive j = false) ∧ st.barrier = []

end

section
variable {plan : Plan} {exclusive : ℕ → Bool} {adds : ℕ → Option ℕ} {start : Capture}

theorem getD_foldl_set (l : List ℕ) (h : List Bool) (p : ℕ) (hp : p < h.length) :
    (l.foldl (fun h q => h.set q true) h).getD p false = true ↔ h.getD p false = true ∨ p ∈ l := by
  induction l generalizing h with
  | nil => simp
  | cons q rest ih =>
    rw [foldl_cons, ih _ (by rwa [length_set]), mem_cons, getD_eq_getElem?_getD,
      getD_eq_getElem?_getD, getElem?_set]
    by_cases hq : q = p
    · subst hq
      simp [hp]
    · rw [if_neg hq, eq_comm, ← getD_eq_getElem?_getD]
      grind

theorem length_foldl_set (l : List ℕ) (h : List Bool) :
    (l.foldl (fun h q => h.set q true) h).length = h.length := by
  induction l generalizing h with
  | nil => rfl
  | cons q rest ih => rw [foldl_cons, ih, length_set]

variable {st' st : LaunchState} {k : ℕ}

theorem launchUpTo_succ (hst : launchUpTo plan exclusive adds start k = some st)
    (hnext : launchStep plan exclusive adds start st k = some st') :
    launchUpTo plan exclusive adds start (k + 1) = some st' := by
  show (launchUpTo plan exclusive adds start k >>= _) = _
  rw [hst]
  exact hnext

/-- The state after a call, and the number of its nodes. -/
theorem exists_of_launchStep (hnext : launchStep plan exclusive adds start st k = some st') :
    ∃ m, st'.capture =
        (st.capture.setDeps (st.depsOf plan exclusive start k)).addNodes m ∧
      st'.term = st.term.set k st'.capture.deps ∧
      st'.hasSucc = (launchPreds plan k).foldl (fun h p => h.set p true) st.hasSucc ∧
      st'.issued = st.issued ++ st'.capture.deps ∧
      st'.barrier = if exclusive k then st'.capture.deps else st.barrier := by
  obtain ⟨m, -, hm⟩ := Option.bind_eq_some_iff.mp hnext
  cases hm
  exact ⟨m, rfl, rfl, rfl, rfl, rfl⟩

theorem LaunchState.Spec.step {k : ℕ} {st st' : LaunchState} (hk : k < plan.n)
    (hst : launchUpTo plan exclusive adds start k = some st)
    (h : st.Spec plan exclusive adds start k)
    (hnext : launchStep plan exclusive adds start st k = some st') :
    st'.Spec plan exclusive adds start (k + 1) := by
  have hlast : lastNodes plan exclusive adds start k = st'.capture.deps := by
    rw [lastNodes, launchUpTo_succ hst hnext]
  obtain ⟨m, -, hterm, hhasSucc, hissued, hbarrier⟩ := exists_of_launchStep hnext
  constructor
  · rw [hterm, length_set, h.length_term]
  · rw [hhasSucc, length_foldl_set, h.length_hasSucc]
  · intro j hj
    rw [hterm, getD_eq_getElem?_getD, getElem?_set]
    by_cases hjk : k = j
    · subst hjk
      rw [if_pos rfl, if_pos (h.length_term ▸ hk), hlast]
      rfl
    · rw [if_neg hjk, ← getD_eq_getElem?_getD]
      exact h.term j (by omega)
  · intro p hp
    rw [hhasSucc, getD_foldl_set _ _ _ (h.length_hasSucc ▸ hp), h.hasSucc p hp]
    constructor
    · rintro (⟨i, hi, hmem⟩ | hmem)
      · exact ⟨i, Nat.lt_succ_of_lt hi, hmem⟩
      · exact ⟨k, Nat.lt_succ_self k, hmem⟩
    · rintro ⟨i, hi, hmem⟩
      rcases Nat.lt_succ_iff_lt_or_eq.mp hi with hi | rfl
      · exact .inl ⟨i, hi, hmem⟩
      · exact .inr hmem
  · rw [hissued, h.issued, range_succ, flatMap_append, flatMap_singleton, hlast]
  · rw [hbarrier]
    by_cases hex : exclusive k = true
    · rw [if_pos hex]
      refine .inl ⟨k, ⟨Nat.lt_succ_self k, hex, fun j hj hj' => ?_⟩, hlast.symm⟩
      omega
    · rw [if_neg hex]
      have hnext : ∀ j, j < k + 1 → (j < k → exclusive j = false) → exclusive j = false := by
        intro j hj hbefore
        rcases Nat.lt_succ_iff_lt_or_eq.mp hj with hj | rfl
        · exact hbefore hj
        · exact Bool.eq_false_iff.mpr hex
      rcases h.barrier with ⟨e, ⟨hlt, hexe, hnone⟩, heq⟩ | ⟨hnone, heq⟩
      · exact .inl ⟨e, ⟨Nat.lt_succ_of_lt hlt, hexe, fun j hj hj' => hnext j hj' (hnone j hj)⟩, heq⟩
      · exact .inr ⟨fun j hj => hnext j hj (hnone j), heq⟩

theorem LaunchState.spec_of_launchUpTo (hk : k ≤ plan.n)
    (hst : launchUpTo plan exclusive adds start k = some st) :
    st.Spec plan exclusive adds start k := by
  induction k generalizing st with
  | zero =>
    cases hst
    refine ⟨length_replicate, length_replicate, fun j hj => absurd hj (Nat.not_lt_zero j),
      fun p hp => ?_, rfl, .inr ⟨fun j hj => absurd hj (Nat.not_lt_zero j), rfl⟩⟩
    simp [getD_eq_getElem?_getD, hp]
  | succ k ih =>
    obtain ⟨st₀, hst₀, hnext⟩ := Option.bind_eq_some_iff.mp hst
    exact (ih (Nat.le_of_succ_le hk) hst₀).step hk hst₀ hnext

theorem exists_launchUpTo_of_le {j : ℕ} (hjk : j ≤ k)
    (hst : launchUpTo plan exclusive adds start k = some st) :
    ∃ st', launchUpTo plan exclusive adds start j = some st' := by
  induction k generalizing st with
  | zero =>
    obtain rfl := Nat.le_zero.mp hjk
    exact ⟨st, hst⟩
  | succ k ih =>
    rcases Nat.le_succ_iff.mp hjk with hjk | rfl
    · obtain ⟨st₀, hst₀, -⟩ := Option.bind_eq_some_iff.mp hst
      exact ih hjk hst₀
    · exact ⟨st, hst⟩

/-- The loop ends if no call invalidates the capture. -/
theorem exists_launchUpTo (hadds : ∀ i < k, (adds i).isSome) :
    ∃ st, launchUpTo plan exclusive adds start k = some st := by
  induction k with
  | zero => exact ⟨_, rfl⟩
  | succ k ih =>
    obtain ⟨st, hst⟩ := ih fun i hi => hadds i (Nat.lt_succ_of_lt hi)
    obtain ⟨m, hm⟩ := Option.isSome_iff_exists.mp (hadds k (Nat.lt_succ_self k))
    have hsome : (launchStep plan exclusive adds start st k).isSome = true := by
      show (adds k >>= _).isSome = true
      rw [hm]
      rfl
    obtain ⟨st', hst'⟩ := Option.isSome_iff_exists.mp hsome
    exact ⟨st', launchUpTo_succ hst hst'⟩

/-! ### The calls of a launch -/

/-- What is known of the calls of a launch: `nodes` are those of a graph, a call `k` has the nodes
`own k`, and is put behind `behind k`; it leaves `last k` as dependencies. -/
structure LaunchRecord (preds : ℕ → List ℕ) (exclusive : ℕ → Bool) (entry : List ℕ) (n : ℕ)
    (nodes : List (List ℕ)) (own : ℕ → ℕ → Prop) (behind last : ℕ → List ℕ) : Prop where
  own_behind : ∀ k < n, ∀ a b, Dominates nodes (behind k) a → own k b → Precedes nodes a b
  last_behind : ∀ k < n, ∀ a, Dominates nodes (behind k) a → Dominates nodes (last k) a
  last_own : ∀ k < n, ∀ b, own k b → Dominates nodes (last k) b
  preds : ∀ k < n, ∀ p ∈ preds k, p < k ∧ ∀ d ∈ last p, d ∈ behind k
  issued : ∀ k < n, exclusive k = true → ∀ j < k, ∀ d ∈ last j, d ∈ behind k
  barrier : ∀ k < n, ∀ e, IsBarrier exclusive e k → ∀ d ∈ last e, d ∈ behind k
  entry : ∀ k < n, (∀ d ∈ entry, d ∈ behind k) ∨ ∃ j < k, ∀ d ∈ last j, d ∈ behind k

section
variable {preds : ℕ → List ℕ} {entry : List ℕ} {n : ℕ} {nodes : List (List ℕ)}
  {own : ℕ → ℕ → Prop} {behind last : ℕ → List ℕ} {k a e : ℕ}

section
variable (h : LaunchRecord preds exclusive entry n nodes own behind last) (hk : k < n)
include h hk

/-- The entry dependencies are in front of every call. -/
theorem LaunchRecord.dominates_entry (ha : a ∈ entry) :
    Dominates nodes (behind k) a := by
  induction k using Nat.strong_induction_on with
  | _ k ih =>
    rcases h.entry k hk with hentry | ⟨j, hj, hlast⟩
    · exact dominates_of_mem (hentry a ha)
    · exact (h.last_behind j (hj.trans hk) a (ih j hj (hj.trans hk))).mono hlast

/-- A call is behind what its predecessors leave. -/
theorem LaunchRecord.dominates_of_path {p : ℕ}
    (hpath : Relation.TransGen (fun j i => j ∈ preds i) p k) (ha : Dominates nodes (last p) a) :
    Dominates nodes (behind k) a := by
  induction hpath with
  | single hedge => exact ha.mono (h.preds _ hk _ hedge).2
  | @tail i k _ hedge ih =>
    obtain ⟨hlt, hsub⟩ := h.preds k hk i hedge
    exact (h.last_behind i (hlt.trans hk) a (ih (hlt.trans hk))).mono hsub

end

theorem IsBarrier.eq {e' : ℕ} (h : IsBarrier exclusive e k) (h' : IsBarrier exclusive e' k) :
    e = e' := by
  obtain ⟨hlt, hex, hnone⟩ := h
  obtain ⟨hlt', hex', hnone'⟩ := h'
  rcases Nat.lt_trichotomy e e' with hee | heq | hee
  · exact absurd hex' (Bool.eq_false_iff.mp (hnone e' hee hlt'))
  · exact heq
  · exact absurd hex (Bool.eq_false_iff.mp (hnone' e hee hlt))

/-- The last exclusive call before a call. -/
theorem exists_isBarrier (hek : e < k) (he : exclusive e = true) :
    ∃ e', IsBarrier exclusive e' k ∧ e ≤ e' := by
  induction k with
  | zero => exact absurd hek (Nat.not_lt_zero e)
  | succ k ih =>
    by_cases hk : exclusive k = true
    · exact ⟨k, ⟨Nat.lt_succ_self k, hk, fun j hj hj' => by omega⟩, Nat.le_of_lt_succ hek⟩
    · have hne : e ≠ k := fun heq => hk (heq ▸ he)
      obtain ⟨e', ⟨hlt, hex, hnone⟩, hle⟩ := ih (by omega)
      refine ⟨e', ⟨Nat.lt_succ_of_lt hlt, hex, fun j hj hj' => ?_⟩, hle⟩
      rcases Nat.lt_succ_iff_lt_or_eq.mp hj' with hj' | rfl
      · exact hnone j hj hj'
      · exact Bool.eq_false_iff.mpr hk

section
variable (h : LaunchRecord preds exclusive entry n nodes own behind last)
include h

/-- Only the last exclusive call is kept: it is behind those before it. -/
theorem LaunchRecord.dominates_of_exclusive (hk : k < n) (hek : e < k) (he : exclusive e = true)
    (ha : Dominates nodes (last e) a) :
    Dominates nodes (behind k) a := by
  obtain ⟨e', hbarrier, hle⟩ := exists_isBarrier hek he
  have hlast : Dominates nodes (last e') a := by
    rcases Nat.eq_or_lt_of_le hle with rfl | hlt
    · exact ha
    · have he'n := hbarrier.1.trans hk
      exact h.last_behind e' he'n a (ha.mono (h.issued e' he'n hbarrier.2.1 e hlt))
  exact hlast.mono (h.barrier k hk e' hbarrier)

/-- What a call leaves is left by a call without successors. -/
theorem LaunchRecord.exists_leaf {j : ℕ} (hj : j < n) (ha : Dominates nodes (last j) a) :
    ∃ i < n, (∀ k < n, i ∉ preds k) ∧ Dominates nodes (last i) a := by
  induction hm : n - j using Nat.strong_induction_on generalizing j with
  | _ m ih =>
    by_cases hleaf : ∃ k < n, j ∈ preds k
    · obtain ⟨k, hk, hmem⟩ := hleaf
      obtain ⟨hlt, hsub⟩ := h.preds k hk j hmem
      exact ih (n - k) (by omega) hk (h.last_behind k hk a (ha.mono hsub)) rfl
    · exact ⟨j, hj, fun k hk hmem => hleaf ⟨k, hk, hmem⟩, ha⟩

end

end

/-! ### Soundness -/

section
variable {st₁ : LaunchState} {nodes : List (List ℕ)} {k a : ℕ} {st : LaunchState}

theorem nodesBefore_eq (hst : launchUpTo plan exclusive adds start k = some st) :
    nodesBefore plan exclusive adds start k = st.capture.nodes := by
  rw [nodesBefore, hst]

theorem prefix_nodesBefore {j : ℕ} (hjk : j ≤ k)
    (hst : launchUpTo plan exclusive adds start k = some st) :
    nodesBefore plan exclusive adds start j <+: st.capture.nodes := by
  induction k generalizing st with
  | zero =>
    obtain rfl := Nat.le_zero.mp hjk
    exact nodesBefore_eq hst ▸ prefix_rfl
  | succ k ih =>
    rcases Nat.le_succ_iff.mp hjk with hjk | rfl
    · obtain ⟨st₀, hst₀, hnext⟩ := Option.bind_eq_some_iff.mp hst
      obtain ⟨m, hcapture, -⟩ := exists_of_launchStep hnext
      rw [hcapture]
      exact (ih hjk hst₀).trans
        (Capture.prefix_addNodes m (st₀.capture.setDeps (st₀.depsOf plan exclusive start k)))
    · exact nodesBefore_eq hst ▸ prefix_rfl

theorem dominates_setDeps {c : Capture} {v : List ℕ} :
    Dominates nodes (c.setDeps v).deps a ↔ Dominates nodes v a := by
  simp only [Dominates, Capture.mem_setDeps]

theorem LaunchState.mem_depsOf {d : ℕ}
    (hd : d ∈ (if exclusive k then st.issued else []) ++
      (launchPreds plan k).flatMap (st.term.getD · []) ++ st.barrier) :
    d ∈ st.depsOf plan exclusive start k := by
  rw [LaunchState.depsOf, if_neg (ne_nil_of_mem hd)]
  exact hd

/-- What the loop does, call by call. -/
theorem launchRecord {preds : ℕ → List ℕ} (hpreds : ∀ k < plan.n, launchPreds plan k = preds k)
    (hlt : ∀ k < plan.n, ∀ p ∈ preds k, p < k)
    (hst₁ : launchUpTo plan exclusive adds start plan.n = some st₁) :
    LaunchRecord preds exclusive start.deps plan.n st₁.capture.nodes
      (IssuedBy plan exclusive adds start) (putBehind plan exclusive adds start)
      (lastNodes plan exclusive adds start) := by
  -- The states before and after a call, and what is known of them.
  have hcall : ∀ k < plan.n, ∃ st st', launchUpTo plan exclusive adds start k = some st ∧
      launchUpTo plan exclusive adds start (k + 1) = some st' ∧
      launchStep plan exclusive adds start st k = some st' ∧
      st.Spec plan exclusive adds start k := by
    intro k hk
    obtain ⟨st', hst'⟩ := exists_launchUpTo_of_le (Nat.succ_le_of_lt hk) hst₁
    obtain ⟨st, hst, hnext⟩ := Option.bind_eq_some_iff.mp hst'
    exact ⟨st, st', hst, hst', hnext, LaunchState.spec_of_launchUpTo (Nat.le_of_lt hk) hst⟩
  have hnodes : ∀ k < plan.n,
      (∀ a, Dominates st₁.capture.nodes (putBehind plan exclusive adds start k) a →
        Dominates st₁.capture.nodes (lastNodes plan exclusive adds start k) a ∧
          ∀ b, IssuedBy plan exclusive adds start k b → Precedes st₁.capture.nodes a b) ∧
      ∀ b, IssuedBy plan exclusive adds start k b →
        Dominates st₁.capture.nodes (lastNodes plan exclusive adds start k) b := by
    intro k hk
    obtain ⟨st, st', hst, hst', hnext, -⟩ := hcall k hk
    obtain ⟨m, hcapture, -⟩ := exists_of_launchStep hnext
    have hfront := prefix_nodesBefore (Nat.succ_le_of_lt hk) hst₁
    rw [nodesBefore_eq hst', hcapture] at hfront
    obtain ⟨hdom, hown⟩ := Capture.addNodes_spec m _ hfront
    simp only [IssuedBy, putBehind, lastNodes, nodesBefore, hst, hst', hcapture]
    refine ⟨fun a ha => ?_, fun b hb => hown b hb.1 hb.2⟩
    obtain ⟨hlast, hbehind⟩ := hdom a (dominates_setDeps.mpr ha)
    exact ⟨hlast, fun b hb => hbehind b hb.1 hb.2⟩
  -- Which of the last nodes are among the dependencies of a call.
  have hpred : ∀ k < plan.n, ∀ p ∈ preds k, ∀ d ∈ lastNodes plan exclusive adds start p,
      d ∈ putBehind plan exclusive adds start k := by
    intro k hk p hp d hd
    obtain ⟨st, st', hst, -, -, hspec⟩ := hcall k hk
    rw [putBehind, hst]
    apply LaunchState.mem_depsOf
    apply mem_append_left
    apply mem_append_right
    rw [hpreds k hk, mem_flatMap]
    exact ⟨p, hp, by rwa [hspec.term p (hlt k hk p hp)]⟩
  have hissued : ∀ k < plan.n, exclusive k = true → ∀ j < k,
      ∀ d ∈ lastNodes plan exclusive adds start j, d ∈ putBehind plan exclusive adds start k := by
    intro k hk hex j hj d hd
    obtain ⟨st, st', hst, -, -, hspec⟩ := hcall k hk
    rw [putBehind, hst]
    apply LaunchState.mem_depsOf
    apply mem_append_left
    apply mem_append_left
    rw [if_pos hex, hspec.issued]
    exact mem_flatMap.mpr ⟨j, mem_range.mpr hj, hd⟩
  have hbarrier : ∀ k < plan.n, ∀ e, IsBarrier exclusive e k →
      ∀ d ∈ lastNodes plan exclusive adds start e, d ∈ putBehind plan exclusive adds start k := by
    intro k hk e he d hd
    obtain ⟨st, st', hst, -, -, hspec⟩ := hcall k hk
    rw [putBehind, hst]
    apply LaunchState.mem_depsOf
    apply mem_append_right
    rcases hspec.barrier with ⟨e', he', heq⟩ | ⟨hnone, -⟩
    · rw [heq, he'.eq he]
      exact hd
    · exact absurd he.2.1 (Bool.eq_false_iff.mp (hnone e he.1))
  refine {
    own_behind := fun k hk a b ha hb => ((hnodes k hk).1 a ha).2 b hb
    last_behind := fun k hk a ha => ((hnodes k hk).1 a ha).1
    last_own := fun k hk => (hnodes k hk).2
    preds := fun k hk p hp => ⟨hlt k hk p hp, hpred k hk p hp⟩
    issued := hissued
    barrier := hbarrier
    entry := fun k hk => ?_ }
  obtain ⟨st, st', hst, -, -, hspec⟩ := hcall k hk
  by_cases hnil : (if exclusive k then st.issued else []) ++
      (launchPreds plan k).flatMap (st.term.getD · []) ++ st.barrier = []
  · refine .inl fun d hd => ?_
    rw [putBehind, hst]
    dsimp only [LaunchState.depsOf]
    rwa [if_pos hnil]
  · -- A dependency comes from an earlier call, and all that this call leaves come with it.
    right
    obtain ⟨d, hd⟩ := exists_mem_of_ne_nil _ hnil
    rcases mem_append.mp hd with hd | hd
    · rcases mem_append.mp hd with hd | hd
      · split_ifs at hd with hex
        · rw [hspec.issued] at hd
          obtain ⟨j, hj, -⟩ := mem_flatMap.mp hd
          exact ⟨j, mem_range.mp hj, hissued k hk hex j (mem_range.mp hj)⟩
        · cases hd
      · obtain ⟨p, hp, -⟩ := mem_flatMap.mp hd
        rw [hpreds k hk] at hp
        exact ⟨p, hlt k hk p hp, hpred k hk p hp⟩
    · rcases hspec.barrier with ⟨e, he, -⟩ | ⟨-, heq⟩
      · exact ⟨e, he.1, hbarrier k hk e he⟩
      · rw [heq] at hd
        cases hd

theorem exists_issuedBy (hst : launchUpTo plan exclusive adds start k = some st)
    (ha : start.nodes.length ≤ a) (ha' : a < st.capture.nodes.length) :
    ∃ i < k, IssuedBy plan exclusive adds start i a := by
  induction k generalizing st with
  | zero =>
    cases hst
    exact absurd ha' (Nat.not_lt_of_le ha)
  | succ k ih =>
    obtain ⟨st₀, hst₀, -⟩ := Option.bind_eq_some_iff.mp hst
    rcases Nat.lt_or_ge a st₀.capture.nodes.length with hlt | hge
    · obtain ⟨i, hi, hissued⟩ := ih hst₀ hlt
      exact ⟨i, Nat.lt_succ_of_lt hi, hissued⟩
    · refine ⟨k, Nat.lt_succ_self k, ?_⟩
      rw [IssuedBy, nodesBefore_eq hst, nodesBefore_eq hst₀]
      exact ⟨hge, ha'⟩

end

end

/-- What is asked of the graph that a plan is captured as. -/
structure LaunchSound (plan : Plan) (exclusive : ℕ → Bool) (adds : ℕ → Option ℕ)
    (start result : Capture) : Prop where
  /-- The nodes that were there are kept, and all others are of some call. -/
  nodes : start.nodes <+: result.nodes ∧ ∀ a, start.nodes.length ≤ a → a < result.nodes.length →
    ∃ i < plan.n, IssuedBy plan exclusive adds start i a
  /-- The nodes of a call are behind those of its predecessors. -/
  predecessors : ∀ p i, Relation.TransGen plan.Edge p i → ∀ a b,
    IssuedBy plan exclusive adds start p a → IssuedBy plan exclusive adds start i b →
      Precedes result.nodes a b
  /-- The nodes of an exclusive call are in order with those of all other calls. -/
  alone : ∀ i < plan.n, ∀ j < i, exclusive i = true ∨ exclusive j = true → ∀ a b,
    IssuedBy plan exclusive adds start j a → IssuedBy plan exclusive adds start i b →
      Precedes result.nodes a b
  /-- All are behind the entry dependencies. -/
  entry : ∀ a ∈ start.deps, ∀ i < plan.n, ∀ b, IssuedBy plan exclusive adds start i b →
    Precedes result.nodes a b
  /-- What comes next on the stream is behind all of them. -/
  join : ∀ i < plan.n, ∀ a, IssuedBy plan exclusive adds start i a →
    Dominates result.nodes result.deps a

section
variable {plan : Plan} {exclusive : ℕ → Bool} {adds : ℕ → Option ℕ} {start : Capture}

/-- What the calls leave is left by the stream in the end. -/
theorem LaunchState.Spec.dominates_join {nodes : List (List ℕ)} {st : LaunchState}
    (h : st.Spec plan exclusive adds start plan.n) {i a : ℕ} (hi : i < plan.n)
    (hleaf : ∀ k < plan.n, i ∉ launchPreds plan k)
    (ha : Dominates nodes (lastNodes plan exclusive adds start i) a) :
    Dominates nodes (st.join plan start) a := by
  have hsub : ∀ d ∈ lastNodes plan exclusive adds start i,
      d ∈ ((List.range plan.n).filter fun i => !st.hasSucc.getD i false).flatMap
        (st.term.getD · []) := by
    intro d hd
    refine mem_flatMap.mpr ⟨i, mem_filter.mpr ⟨mem_range.mpr hi, ?_⟩, ?_⟩
    · rw [Bool.not_eq_true', Bool.eq_false_iff]
      intro hsucc
      obtain ⟨k, hk, hmem⟩ := (h.hasSucc i hi).mp hsucc
      exact hleaf k hk hmem
    · rwa [h.term i hi]
  have hjoin := ha.mono hsub
  obtain ⟨d, hd, -⟩ := ha
  rw [LaunchState.join, if_neg (ne_nil_of_mem (hsub d hd))]
  exact hjoin

end

/-- The graph that a plan of `schedule` is captured as refines the plan. -/
theorem launch_sound {serialKinds : List String} {ops : List KernelOp} {calls : List Call}
    {bufs : List Buffer} {policy : String} {plan : Plan}
    (hpart : (calls.map Call.full).Pairwise (· < ·))
    (hplan : schedule serialKinds ops calls bufs policy = .ok plan) (exclusive : ℕ → Bool)
    {adds : ℕ → Option ℕ} (hadds : ∀ i < plan.n, (adds i).isSome) (start : Capture) :
    ∃ result, launch plan exclusive adds start = some result ∧
      LaunchSound plan exclusive adds start result := by
  obtain ⟨hlength, hlt⟩ := edge_lt hpart hplan
  obtain ⟨st, hst⟩ := exists_launchUpTo hadds
  have hget : ∀ k < plan.n, plan.preds[k]? = some (plan.preds.getD k []) := by
    intro k hk
    rw [getD_eq_getElem?_getD, getElem?_eq_getElem (hlength ▸ hk)]
    rfl
  have hspec := LaunchState.spec_of_launchUpTo (Nat.le_refl _) hst
  have hpreds : ∀ k < plan.n, launchPreds plan k = plan.preds.getD k [] :=
    fun k hk => launchPreds_eq (hget k hk)
  have hrecord := launchRecord hpreds (fun k hk p hp => hlt p k ⟨_, hget k hk, hp⟩) hst
  have hedge : ∀ p i, plan.Edge p i → i < plan.n ∧ p ∈ plan.preds.getD i [] := by
    rintro p i ⟨l, hl, hp⟩
    have hi := (List.getElem?_eq_some_iff.mp hl).1
    rw [getD_eq_getElem?_getD, hl]
    exact ⟨hlength ▸ hi, hp⟩
  refine ⟨st.capture.setDeps (st.join plan start), ?_, ?_⟩
  · show (launchUpTo plan exclusive adds start plan.n >>= _) = _
    rw [hst]
    rfl
  constructor
  · refine ⟨?_, fun a ha ha' => exists_issuedBy hst ha ha'⟩
    exact prefix_nodesBefore (Nat.zero_le _) hst
  · intro p i hpath a b ha hb
    have hi : i < plan.n := by
      obtain ⟨j, -, hji⟩ := Relation.TransGen.tail'_iff.mp hpath
      exact (hedge j i hji).1
    have hp : p < i := by
      clear hb hi
      induction hpath with
      | single hpi => exact hlt _ _ hpi
      | tail _ hji ih => exact ih.trans (hlt _ _ hji)
    have hpath' := Relation.TransGen.mono (fun j i hji => (hedge j i hji).2) p i hpath
    exact hrecord.own_behind i hi a b
      (hrecord.dominates_of_path hi hpath' (hrecord.last_own p (hp.trans hi) a ha)) hb
  · intro i hi j hj hex a b ha hb
    have hlast := hrecord.last_own j (hj.trans hi) a ha
    apply hrecord.own_behind i hi a b _ hb
    rcases hex with hex | hex
    · exact hlast.mono (hrecord.issued i hi hex j hj)
    · exact hrecord.dominates_of_exclusive hi hj hex hlast
  · intro a ha i hi b hb
    exact hrecord.own_behind i hi a b (hrecord.dominates_entry hi ha) hb
  · intro i hi a ha
    obtain ⟨k, hk, hleaf, hdom⟩ := hrecord.exists_leaf hi (hrecord.last_own i hi a ha)
    apply dominates_setDeps.mpr
    apply hspec.dominates_join hk _ hdom
    intro m hm
    rw [hpreds m hm]
    exact hleaf m hm

/-- One branch adds two nodes and the other one none, behind a node that was there. -/
theorem launch_forkJoin :
    ∃ plan, schedule [] forkJoinOps forkJoinCalls forkJoinBuffers "split" = .ok plan ∧
      launch plan (fun _ => false) (fun i => [2, 0, 1][i]?) ⟨[[]], [0]⟩ =
        some ⟨[[], [0], [1], [0, 2]], [3]⟩ ∧
      LaunchSound plan (fun _ => false) (fun i => [2, 0, 1][i]?) ⟨[[]], [0]⟩
        ⟨[[], [0], [1], [0, 2]], [3]⟩ := by
  obtain ⟨plan, hplan⟩ := Fallible.exists_of_isOk
    (show (schedule [] forkJoinOps forkJoinCalls forkJoinBuffers "split").isOk = true by
      decide)
  have hresult : (schedule [] forkJoinOps forkJoinCalls forkJoinBuffers "split").map
      (fun plan => (plan.n, launch plan (fun _ => false) (fun i => [2, 0, 1][i]?) ⟨[[]], [0]⟩)) =
        .ok (3, some ⟨[[], [0], [1], [0, 2]], [3]⟩) := by
    decide +kernel
  rw [hplan] at hresult
  obtain ⟨hn, hlaunch⟩ := Prod.mk.inj (Except.ok.inj hresult)
  have hadds : ∀ i < plan.n, ([2, 0, 1][i]?).isSome := by
    rw [hn]
    decide
  obtain ⟨result, hresult, hsound⟩ :=
    launch_sound (by decide) hplan (fun _ => false) hadds ⟨[[]], [0]⟩
  obtain rfl := Option.some.inj (hresult.symm.trans hlaunch)
  exact ⟨plan, hplan, hlaunch, hsound⟩

/-! ### Running the graph -/

open StraightLine

/-- The nodes that a call adds are a chain. -/
theorem Capture.precedes_addNodes {nodes : List (List ℕ)} (m : ℕ) (c : Capture)
    (h : (c.addNodes m).nodes <+: nodes) {a b : ℕ} (ha : c.nodes.length ≤ a) (hab : a < b)
    (hb : b < (c.addNodes m).nodes.length) : Precedes nodes a b := by
  induction m generalizing c with
  | zero => exact absurd hb (by rw [addNodes]; omega)
  | succ m ih =>
    have hlen : c.addNode.nodes.length = c.nodes.length + 1 := length_append
    rcases Nat.eq_or_lt_of_le ha with rfl | hlt
    · have hfirst : Dominates nodes c.addNode.deps c.nodes.length :=
        dominates_of_mem (mem_singleton_self _)
      exact ((addNodes_spec m c.addNode h).1 _ hfirst).2 b (by omega) hb
    · exact ih c.addNode h (by omega) hb

section
variable (plan : Plan) (exclusive : ℕ → Bool) (adds : ℕ → Option ℕ) (start : Capture)

/-- The nodes of a call, in the order in which they were added. -/
def callNodes (i : ℕ) : List ℕ :=
  List.range' (nodesBefore plan exclusive adds start i).length
    ((nodesBefore plan exclusive adds start (i + 1)).length -
      (nodesBefore plan exclusive adds start i).length)

/-- The nodes of all calls. -/
def launchNodes : List ℕ := (List.range plan.n).flatMap (callNodes plan exclusive adds start)

variable {plan exclusive adds start}

theorem mem_callNodes {i a : ℕ} :
    a ∈ callNodes plan exclusive adds start i ↔ IssuedBy plan exclusive adds start i a := by
  rw [callNodes, mem_range'_1, IssuedBy]
  omega

variable {st : LaunchState} (hst : launchUpTo plan exclusive adds start plan.n = some st)
include hst

/-- The nodes of a call are after those of earlier calls. -/
theorem IssuedBy.lt {i j a b : ℕ} (hi : i < plan.n) (hji : j < i)
    (ha : IssuedBy plan exclusive adds start j a) (hb : IssuedBy plan exclusive adds start i b) :
    a < b := by
  obtain ⟨st', hst'⟩ := exists_launchUpTo_of_le (Nat.le_of_lt hi) hst
  have hle := (prefix_nodesBefore (Nat.succ_le_of_lt hji) hst').length_le
  rw [← nodesBefore_eq hst'] at hle
  exact ha.2.trans_le (hle.trans hb.1)

/-- The nodes of one call are in order. -/
theorem IssuedBy.precedes {i a b : ℕ} (hi : i < plan.n)
    (ha : IssuedBy plan exclusive adds start i a) (hab : a < b)
    (hb : IssuedBy plan exclusive adds start i b) : Precedes st.capture.nodes a b := by
  obtain ⟨st', hst'⟩ := exists_launchUpTo_of_le (Nat.succ_le_of_lt hi) hst
  obtain ⟨st₀, hst₀, hnext⟩ := Option.bind_eq_some_iff.mp hst'
  obtain ⟨m, hcapture, -⟩ := exists_of_launchStep hnext
  have hfront := prefix_nodesBefore (Nat.succ_le_of_lt hi) hst
  rw [nodesBefore_eq hst', hcapture] at hfront
  rw [IssuedBy, nodesBefore_eq hst₀] at ha
  rw [IssuedBy, nodesBefore_eq hst', hcapture] at hb
  exact Capture.precedes_addNodes m _ hfront ha.1 hab hb.2

theorem pairwise_launchNodes : (launchNodes plan exclusive adds start).Pairwise (· < ·) := by
  refine pairwise_flatMap.mpr ⟨fun i _ => pairwise_lt_range' .., ?_⟩
  refine (List.Pairwise.and_mem.mp pairwise_lt_range).imp ?_
  rintro j i ⟨-, hi, hji⟩ a ha b hb
  exact IssuedBy.lt hst (mem_range.mp hi) hji (mem_callNodes.mp ha) (mem_callNodes.mp hb)

end

/-- However the device overlaps the nodes of the captured graph, the memory is left as by the calls
one after the other. -/
theorem captured_run {serialKinds : List String} {ops : List KernelOp} {calls : List Call}
    {bufs : List Buffer} {policy : String} {plan : Plan} (hops : InOrder ops)
    (hpart : (calls.map Call.full).Pairwise (· < ·))
    (hplan : schedule serialKinds ops calls bufs policy = .ok plan) {exclusive : ℕ → Bool}
    {adds : ℕ → Option ℕ} {start result : Capture}
    (hlaunch : launch plan exclusive adds start = some result) {V : Type}
    {steps : ℕ → List (Instr MemoryCell V)}
    (hsteps : Respects calls bufs fun i => (callNodes plan exclusive adds start i).flatMap steps)
    {events : List (ℕ × ℕ)} (hevents : Overlap steps (Precedes result.nodes)
      (launchNodes plan exclusive adds start) events) (σ : MemoryCell → V) :
    run (events.map (taskStep steps)) σ =
      run ((launchNodes plan exclusive adds start).flatMap steps) σ := by
  obtain ⟨st, hst, hjoin⟩ := Option.bind_eq_some_iff.mp hlaunch
  cases hjoin
  obtain ⟨A, hplanned⟩ := exists_planned hops hpart hplan
  obtain ⟨hlength, hlt⟩ := edge_lt hpart hplan
  have hget : ∀ k < plan.n, plan.preds[k]? = some (plan.preds.getD k []) := by
    intro k hk
    rw [getD_eq_getElem?_getD, getElem?_eq_getElem (hlength ▸ hk)]
    rfl
  have hrecord := launchRecord (fun k hk => launchPreds_eq (hget k hk))
    (fun k hk p hp => hlt p k ⟨_, hget k hk, hp⟩) hst
  have hsorted := pairwise_launchNodes hst
  -- Nodes that may overlap are of calls without a path between them.
  have hindep : ∀ a ∈ launchNodes plan exclusive adds start,
      ∀ b ∈ launchNodes plan exclusive adds start, a < b → ¬Precedes st.capture.nodes a b →
        ∀ x ∈ steps a, ∀ y ∈ steps b, Independent x y := by
    intro a ha b hb hab hnot x hx y hy
    obtain ⟨j, hj, ha⟩ := mem_flatMap.mp ha
    obtain ⟨i, hi, hb⟩ := mem_flatMap.mp hb
    rw [mem_range] at hj hi
    have hissued := mem_callNodes.mp ha
    have hissued' := mem_callNodes.mp hb
    rcases Nat.lt_trichotomy j i with hji | rfl | hij
    · refine hplanned.independent hsteps hji (hplanned.n ▸ hi) (fun hpath => hnot ?_)
        (mem_flatMap.mpr ⟨a, ha, hx⟩) (mem_flatMap.mpr ⟨b, hb, hy⟩)
      refine hrecord.own_behind i hi a b (hrecord.dominates_of_path hi (p := j) ?_
        (hrecord.last_own j hj a hissued)) hissued'
      refine Relation.TransGen.mono (fun p k hedge => ?_) j i hpath
      obtain ⟨l, hl, hp⟩ := hedge
      rwa [getD_eq_getElem?_getD, hl]
    · exact absurd (hissued.precedes hst hi hab hissued') hnot
    · exact absurd (IssuedBy.lt hst hj hij hissued' hissued) (Nat.lt_asymm hab)
  -- Only waiting for earlier nodes matters.
  have hforward : Overlap steps (fun a b => a < b ∧ Precedes st.capture.nodes a b)
      (launchNodes plan exclusive adds start) events :=
    ⟨hevents.perm, hevents.order.imp fun hnot hwaits => hnot (hwaits.imp_right And.right)⟩
  apply hforward.run_eq (hsorted.imp Nat.ne_of_lt)
  · exact fun a _ h => Nat.lt_irrefl a h.1
  · refine hsorted.imp fun hab h => ?_
    exact Nat.lt_asymm hab h.1
  · intro a ha b hb hne hab hba x hx y hy
    rcases Nat.lt_or_gt_of_ne hne with hlt | hlt
    · exact hindep a ha b hb hlt (fun h => hab ⟨hlt, h⟩) x hx y hy
    · exact (hindep b hb a ha hlt (fun h => hba ⟨hlt, h⟩) y hy x hx).symm

/-- A node that copies a number from the front of a buffer to that of another. -/
def copyNode (b b' : ℕ) : Instr MemoryCell ℤ where
  reads := [(b, 0)]
  writes := [(b', 0)]
  effect σ := Function.update σ (b', 0) (σ (b, 0))
  frame := by simp +contextual
  footprint := by simp +contextual

/-- The nodes of the two branches, and of their sum. -/
def forkJoinSteps (a : ℕ) : List (Instr MemoryCell ℤ) :=
  [[copyNode 0 2], [copyNode 1 3], [copyNode 2 5]].getD a []

/-- The node of the second branch may run first. -/
theorem captured_run_forkJoin :
    ∃ plan, schedule [] forkJoinOps forkJoinCalls forkJoinBuffers "split" = .ok plan ∧
      ∀ σ, run [copyNode 1 3, copyNode 0 2, copyNode 2 5] σ =
        run ((launchNodes plan (fun _ => false) (fun _ => some 1) ⟨[], []⟩).flatMap
          forkJoinSteps) σ := by
  obtain ⟨plan, hplan⟩ := Fallible.exists_of_isOk
    (show (schedule [] forkJoinOps forkJoinCalls forkJoinBuffers "split").isOk = true by
      decide)
  have hresult : (schedule [] forkJoinOps forkJoinCalls forkJoinBuffers "split").map
      (fun plan => (launch plan (fun _ => false) (fun _ => some 1) ⟨[], []⟩,
        launchNodes plan (fun _ => false) (fun _ => some 1) ⟨[], []⟩,
        (List.range 3).map (callNodes plan (fun _ => false) (fun _ => some 1) ⟨[], []⟩))) =
          .ok (some ⟨[[], [], [0, 1]], [2]⟩, [0, 1, 2], [[0], [1], [2]]) := by
    decide +kernel
  rw [hplan] at hresult
  obtain ⟨hlaunch, hpair⟩ := Prod.mk.inj (Except.ok.inj hresult)
  obtain ⟨hnodes, hcalls⟩ := Prod.mk.inj hpair
  have hsteps : Respects forkJoinCalls forkJoinBuffers fun i =>
      (callNodes plan (fun _ => false) (fun _ => some 1) ⟨[], []⟩ i).flatMap forkJoinSteps := by
    obtain ⟨h₀, h₁, h₂⟩ : _ ∧ _ ∧ _ := by simpa [range_succ] using hcalls
    intro k c hc x hx
    match k with
    | 0 | 1 | 2 =>
      cases hc
      obtain rfl : x = _ := by simpa [h₀, h₁, h₂, forkJoinSteps] using hx
      constructor
      all_goals
        intro i hi
        obtain rfl := mem_singleton.mp hi
      · exact .inl (.inl ⟨_, mem_cons_self, _, rfl, rfl, by decide, by decide⟩)
      · exact ⟨_, mem_cons_self, _, rfl, rfl, by decide, by decide⟩
    | k + 3 => cases hc
  -- Only the sum waits.
  have hprecedes : ∀ a b, Precedes [[], [], [0, 1]] a b → b = 2 := by
    intro a b h
    obtain ⟨d, -, l, hl, hd⟩ := Relation.TransGen.tail'_iff.mp h
    match b with
    | 0 | 1 =>
      cases hl
      cases hd
    | 2 => rfl
    | b + 3 => cases hl
  have hevents : Overlap forkJoinSteps (Precedes [[], [], [0, 1]]) [0, 1, 2]
      [(1, 0), (0, 0), (2, 0)] := by
    have hwaits : ∀ a b, b ≠ 2 → a ≠ b →
        ¬StraightLine.Waits (Precedes [[], [], [0, 1]]) (a, 0) (b, 0) := by
      rintro a b hb hne (⟨heq, -⟩ | h)
      · exact hne heq
      · exact hb (hprecedes a b h)
    exact ⟨by decide, by simp [hwaits]⟩
  exact ⟨plan, hplan, captured_run inOrder_forkJoinOps (by decide) hplan hlaunch hsteps
    (show Overlap _ _ _ [(1, 0), (0, 0), (2, 0)] from hnodes ▸ hevents)⟩

end ModelBlaster.Concurrency
