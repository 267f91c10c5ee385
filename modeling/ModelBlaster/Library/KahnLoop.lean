import ModelBlaster.Library.EdgeList
import Mathlib.Algebra.BigOperators.Group.Finset.Piecewise

/-!
# Kahn's algorithm with a worklist

The topological sort over dependency lists: a worklist holds the nodes whose dependencies
are all placed, a policy says which of them is placed next, and placing a node lowers the
counter of every node that depends on it, once for each time it is listed. Nothing here
depends on the policy: a stack, a queue and a queue that is sorted before each step place
the same nodes.

## Main definitions

* `KahnSort.Ready`: a node that may be placed next;
* `KahnSort.Greedy`: every position holds the ready node of least rank;
* `KahnSort.sort`: the algorithm;
* `KahnLoop.Policy`: a way to take one node from a worklist;
* `KahnLoop.sort`: the algorithm;
* `KahnLoop.Topological`: an order in which every node comes after its dependencies.

## Main results

* `KahnSort.greedy_sort`: the result is greedy, hence topological;
* `KahnSort.perm_sort_iff`: all nodes are placed iff the graph is acyclic;
* `KahnLoop.topological_sort`: the result is topological;
* `KahnLoop.greedy_sort_least`: with the least ready node placed each time it is greedy;
* `KahnLoop.perm_sort_iff`: all nodes are placed iff the dependencies have no cycle.
-/

/-! ## Kahn's algorithm with a priority queue -/

namespace KahnSort

open EdgeList List

variable {κ ρ : Type} [LinearOrder ρ]

/-! ### Specification -/

/-- `v` may be placed after `placed`: it is a node, it is not placed yet and all its
predecessors are. -/
structure Ready (E : List (κ × κ)) (nodes placed : List κ) (v : κ) : Prop where
  mem_nodes : v ∈ nodes
  notMem_placed : v ∉ placed
  preds_placed : ∀ u, (u, v) ∈ E → u ∈ placed

/-- Every position of `l` holds a ready node, the least in rank among the ready ones. -/
def Greedy (E : List (κ × κ)) (nodes : List κ) (rank : κ → ρ) (l : List κ) : Prop :=
  ∀ (i : ℕ) (hi : i < l.length), Ready E nodes (l.take i) l[i] ∧
    ∀ v, Ready E nodes (l.take i) v → rank l[i] ≤ rank v

variable {E : List (κ × κ)} {nodes : List κ} {rank : κ → ρ} {l heap placed : List κ} {u v k : κ}

/-- A greedy order has no repetition. -/
theorem Greedy.nodup (h : Greedy E nodes rank l) : l.Nodup := by
  rw [nodup_iff_injective_get]
  have hlt : ∀ {i j : ℕ} (hi : i < l.length) (hj : j < l.length), i < j → l[i] ≠ l[j] := by
    intro i j hi hj hij heq
    refine (h j hj).1.notMem_placed ?_
    rw [← heq]
    exact mem_take_iff_getElem.mpr ⟨i, by omega, rfl⟩
  intro i j hij
  by_contra hne
  rcases Nat.lt_or_gt_of_ne (fun h => hne (Fin.ext h)) with hlt' | hlt'
  · exact hlt i.2 j.2 hlt' hij
  · exact hlt j.2 i.2 hlt' hij.symm

/-- A greedy order places nodes only. -/
theorem Greedy.subset (h : Greedy E nodes rank l) : l ⊆ nodes := by
  intro v hv
  obtain ⟨i, hi, rfl⟩ := mem_iff_getElem.mp hv
  exact (h i hi).1.mem_nodes

/-- In a greedy order every predecessor of a placed node is placed strictly before it. -/
theorem Greedy.idxOf_lt [DecidableEq κ] (h : Greedy E nodes rank l) (huv : (u, v) ∈ E) (hv : v ∈ l) :
    l.idxOf u < l.idxOf v := by
  have hi := idxOf_lt_length_of_mem hv
  have hpred := (h _ hi).1.preds_placed u (by rwa [getElem_idxOf hi])
  obtain ⟨j, hj, hju⟩ := mem_take_iff_getElem.mp hpred
  have hidx : l.idxOf u = j := by
    rw [← hju]
    exact h.nodup.idxOf_getElem j (by omega)
  omega

/-- A greedy order that places every node shows that the graph is acyclic. -/
theorem Greedy.acyclic [DecidableEq κ] (h : Greedy E nodes rank l) (hE : ∀ u v, (u, v) ∈ E → v ∈ l) :
    Acyclic E :=
  acyclic_of_rank l.idxOf fun u v huv => h.idxOf_lt huv (hE u v huv)

/-! ### The queue -/

/-- Push a node on the queue. -/
def push (rank : κ → ρ) (heap : List κ) (v : κ) : List κ :=
  heap.orderedInsert (fun a b => rank a ≤ rank b) v

/-- A push adds the node. -/
@[simp]
theorem mem_push : v ∈ push rank heap u ↔ v = u ∨ v ∈ heap :=
  mem_orderedInsert _

private theorem nodup_push (h : heap.Nodup) (hv : v ∉ heap) :
    (push rank heap v).Nodup :=
  (perm_orderedInsert _ v heap).nodup_iff.mpr (nodup_cons.mpr ⟨hv, h⟩)

private theorem pairwise_push (h : heap.Pairwise fun a b => rank a ≤ rank b) :
    (push rank heap v).Pairwise fun a b => rank a ≤ rank b := by
  exact List.Pairwise.orderedInsert v heap h

variable [DecidableEq κ]

/-! ### The algorithm -/

/-- What the loop carries. -/
structure State (κ : Type) where
  /-- Nodes without unplaced predecessors, by rank. -/
  heap : List κ
  /-- Number of edges from unplaced predecessors. -/
  indeg : κ → ℤ
  /-- Nodes placed so far. -/
  sorted : List κ

/-- Lower the in-degree of one successor, pushing it when it drops to zero. -/
def relax (rank : κ → ρ) (st : State κ) (nxt : κ) : State κ :=
  let n := st.indeg nxt - 1
  { st with
    indeg := Function.update st.indeg nxt n
    heap := if n = 0 then push rank st.heap nxt else st.heap }

/-- Place the node `k`, popped from a queue with remainder `rest`. -/
def place (E : List (κ × κ)) (rank : κ → ρ) (st : State κ) (k : κ) (rest : List κ) :
    State κ :=
  (adj E k).foldl (relax rank) { st with heap := rest, sorted := st.sorted ++ [k] }

/-- The main loop, at most `fuel` times. -/
def loop (E : List (κ × κ)) (rank : κ → ρ) : ℕ → State κ → State κ
  | 0, st => st
  | fuel + 1, st =>
    match st.heap with
    | [] => st
    | k :: rest => loop E rank fuel (place E rank st k rest)

/-- The number of edges into `v`. -/
def indegree (E : List (κ × κ)) (v : κ) : ℤ := E.countP fun e => e.2 = v

/-- The state before the loop. -/
def init (E : List (κ × κ)) (nodes : List κ) (rank : κ → ρ) : State κ where
  heap := (nodes.filter fun v => indegree E v = 0).foldl (push rank) []
  indeg := indegree E
  sorted := []

/-- Place the nodes one by one, each time the least ready one. -/
def sort (E : List (κ × κ)) (nodes : List κ) (rank : κ → ρ) : List κ :=
  (loop E rank nodes.length (init E nodes rank)).sorted

/-! ### The inner loop -/

/-- What holds of the queue whenever it is looked at: it lists, without repetition and by
rank, the unplaced nodes of in-degree zero. -/
structure HeapInv (nodes : List κ) (rank : κ → ρ) (st : State κ) : Prop where
  nodup : st.heap.Nodup
  ordered : st.heap.Pairwise fun a b => rank a ≤ rank b
  mem_iff : ∀ v, v ∈ st.heap ↔ v ∈ nodes ∧ v ∉ st.sorted ∧ st.indeg v = 0

variable {st : State κ}

private theorem heapInv_relax {nxt : κ} (h : HeapInv nodes rank st) (hpos : 0 < st.indeg nxt)
    (hnode : nxt ∈ nodes) (hnew : nxt ∉ st.sorted) :
    HeapInv nodes rank (relax rank st nxt) := by
  have hnot : nxt ∉ st.heap := fun hmem => by
    have := ((h.mem_iff nxt).mp hmem).2.2
    omega
  by_cases hzero : st.indeg nxt - 1 = 0
  · simp only [relax, hzero, if_true]
    refine ⟨nodup_push h.nodup hnot, pairwise_push h.ordered, fun v => ?_⟩
    by_cases hv : v = nxt
    · subst hv
      simp [hnode, hnew]
    · simp [hv, h.mem_iff v]
  · simp only [relax, hzero, if_false]
    refine ⟨h.nodup, h.ordered, fun v => ?_⟩
    by_cases hv : v = nxt
    · subst hv
      simp [hnot, hzero]
    · simp [hv, h.mem_iff v]

/-- The inner loop subtracts the multiplicity of every successor and keeps the queue in
order. -/
private theorem foldl_relax (f : κ → ℕ) (l : List κ) :
    ∀ st : State κ, HeapInv nodes rank st → (∀ v, st.indeg v = f v + l.count v) →
      (∀ v ∈ l, v ∈ nodes ∧ v ∉ st.sorted) →
      HeapInv nodes rank (l.foldl (relax rank) st) ∧
        (∀ v, (l.foldl (relax rank) st).indeg v = f v) ∧
        (l.foldl (relax rank) st).sorted = st.sorted := by
  induction l with
  | nil => exact fun st h hindeg _ => ⟨h, by simpa using hindeg, rfl⟩
  | cons nxt rest ih =>
    intro st h hindeg hmem
    obtain ⟨hnode, hnew⟩ := hmem nxt mem_cons_self
    have hpos : 0 < st.indeg nxt := by
      rw [hindeg nxt, count_cons_self]
      omega
    refine ih (relax rank st nxt) (heapInv_relax h hpos hnode hnew) (fun v => ?_)
      fun v hv => hmem v (mem_cons_of_mem _ hv)
    by_cases hv : v = nxt
    · subst hv
      have := hindeg v
      rw [count_cons_self] at this
      simp only [relax, Function.update_self]
      omega
    · have := hindeg v
      rw [count_cons_of_ne (Ne.symm hv)] at this
      simp only [relax, Function.update_of_ne hv]
      exact this

/-! ### The loop invariant -/

/-- The edges into `v` from nodes outside `placed`. -/
private def pending (E : List (κ × κ)) (placed : List κ) (v : κ) : ℕ :=
  E.countP fun e => e.2 = v ∧ e.1 ∉ placed

private theorem pending_append (hk : k ∉ placed) (v : κ) :
    pending E placed v = pending E (placed ++ [k]) v + (adj E k).count v := by
  induction E with
  | nil => simp [pending, adj]
  | cons e rest ih =>
    have hcons : adj (e :: rest) k = if e.1 = k then e.2 :: adj rest k else adj rest k := by
      by_cases he : e.1 = k <;> simp [adj, he]
    simp only [pending] at ih
    rw [pending, pending, countP_cons, countP_cons, ih, hcons]
    by_cases hv : e.2 = v
    · by_cases he : e.1 = k
      · subst he hv
        simp [hk]
        omega
      · simp [hv, he]
        omega
    · by_cases he : e.1 = k
      · simp [hv, he]
      · simp [hv, he]

private theorem pending_eq_zero_iff :
    pending E placed v = 0 ↔ ∀ u, (u, v) ∈ E → u ∈ placed := by
  rw [pending, countP_eq_zero]
  constructor
  · intro h u huv
    by_contra hu
    exact h (u, v) huv (by simp [hu])
  · rintro h ⟨u, w⟩ he
    simp only [decide_eq_true_eq, not_and, not_not]
    rintro rfl
    exact h u he

/-- What holds of the state between two placements. -/
structure Inv (E : List (κ × κ)) (nodes : List κ) (rank : κ → ρ) (st : State κ) : Prop where
  heap : HeapInv nodes rank st
  indeg_eq : ∀ v, st.indeg v = E.countP fun e => e.2 = v ∧ e.1 ∉ st.sorted
  greedy : Greedy E nodes rank st.sorted

/-- The queue holds exactly the ready nodes. -/
theorem Inv.mem_heap_iff (h : Inv E nodes rank st) :
    v ∈ st.heap ↔ Ready E nodes st.sorted v := by
  have hzero : st.indeg v = 0 ↔ ∀ u, (u, v) ∈ E → u ∈ st.sorted := by
    rw [h.indeg_eq, Int.natCast_eq_zero]
    exact pending_eq_zero_iff
  rw [h.heap.mem_iff, hzero]
  exact ⟨fun ⟨h₁, h₂, h₃⟩ => ⟨h₁, h₂, h₃⟩, fun ⟨h₁, h₂, h₃⟩ => ⟨h₁, h₂, h₃⟩⟩

private theorem inv_init (hnd : nodes.Nodup) : Inv E nodes rank (init E nodes rank) := by
  have hfold : ∀ l acc : List κ, (acc ++ l).Nodup → (acc.Pairwise fun a b => rank a ≤ rank b) →
      (l.foldl (push rank) acc).Nodup ∧
        ((l.foldl (push rank) acc).Pairwise fun a b => rank a ≤ rank b) ∧
        ∀ v, v ∈ l.foldl (push rank) acc ↔ v ∈ acc ∨ v ∈ l := by
    intro l
    induction l with
    | nil => exact fun acc hacc hord => ⟨by simpa using hacc, hord, by simp⟩
    | cons u rest ih =>
      intro acc hacc hord
      have hperm : (push rank acc u ++ rest).Perm (acc ++ u :: rest) :=
        ((perm_orderedInsert _ u acc).append_right rest).trans perm_middle.symm
      obtain ⟨h₁, h₂, h₃⟩ := ih (push rank acc u) (hperm.nodup_iff.mpr hacc) (pairwise_push hord)
      refine ⟨h₁, h₂, fun v => ?_⟩
      rw [foldl_cons, h₃, mem_push, mem_cons]
      tauto
  obtain ⟨h₁, h₂, h₃⟩ := hfold (nodes.filter fun v => indegree E v = 0) []
    (by simpa using hnd.filter _) List.Pairwise.nil
  refine ⟨⟨h₁, h₂, fun v => ?_⟩, fun v => ?_, fun i hi => absurd hi (Nat.not_lt_zero i)⟩
  · rw [init, h₃]
    simp
  · simp [init, indegree]

private theorem inv_place {rest : List κ} (hE : ∀ u v, (u, v) ∈ E → v ∈ nodes)
    (h : Inv E nodes rank st) (hheap : st.heap = k :: rest) :
    Inv E nodes rank (place E rank st k rest) := by
  have hready : Ready E nodes st.sorted k := h.mem_heap_iff.mp (by simp [hheap])
  have hnodup := h.heap.nodup
  have hord := h.heap.ordered
  rw [hheap] at hnodup hord
  -- before the inner loop the queue lacks exactly the popped node
  have hstart : HeapInv nodes rank { st with heap := rest, sorted := st.sorted ++ [k] } := by
    refine ⟨(nodup_cons.mp hnodup).2, (pairwise_cons.mp hord).2, fun v => ?_⟩
    have hiff := h.heap.mem_iff v
    rw [hheap] at hiff
    by_cases hv : v = k
    · subst hv
      simp [(nodup_cons.mp hnodup).1]
    · simpa [hv] using hiff
  have hsucc : ∀ v ∈ adj E k, v ∈ nodes ∧ v ∉ st.sorted ++ [k] := by
    intro v hv
    rw [mem_adj] at hv
    refine ⟨hE k v hv, fun hmem => ?_⟩
    rcases mem_append.mp hmem with hold | hnew
    · obtain ⟨i, hi, rfl⟩ := mem_iff_getElem.mp hold
      exact hready.notMem_placed (mem_of_mem_take ((h.greedy i hi).1.preds_placed k hv))
    · rw [mem_singleton] at hnew
      subst hnew
      exact hready.notMem_placed (hready.preds_placed v hv)
  obtain ⟨hheap', hindeg', hsorted'⟩ := foldl_relax (pending E (st.sorted ++ [k])) (adj E k)
    _ hstart
    (fun v => by
      have := pending_append (E := E) hready.notMem_placed v
      rw [show st.indeg v = pending E st.sorted v from h.indeg_eq v, this]
      rfl)
    hsucc
  refine ⟨hheap', fun v => ?_, ?_⟩
  · rw [place, hindeg', hsorted']
    rfl
  · rw [place, hsorted']
    intro i hi
    simp only [length_append, length_singleton] at hi
    rcases Nat.lt_or_eq_of_le (Nat.le_of_lt_succ hi) with hlt | rfl
    · rw [getElem_append_left hlt, take_append_of_le_length hlt.le]
      exact h.greedy i hlt
    · rw [getElem_append_right le_rfl, take_left' rfl]
      simp only [Nat.sub_self, getElem_cons_zero]
      refine ⟨hready, fun v hv => ?_⟩
      have hmem := h.mem_heap_iff.mpr hv
      rw [hheap] at hmem
      rcases mem_cons.mp hmem with rfl | hmem
      · exact le_rfl
      · exact (pairwise_cons.mp hord).1 v hmem

private theorem sorted_place (st : State κ) (k : κ) (rest : List κ) :
    (place E rank st k rest).sorted = st.sorted ++ [k] := by
  have hfold : ∀ (l : List κ) (st : State κ), (l.foldl (relax rank) st).sorted = st.sorted := by
    intro l
    induction l with
    | nil => exact fun _ => rfl
    | cons nxt rest ih => exact fun st => ih (relax rank st nxt)
  exact hfold _ _

/-- The loop keeps the invariant, and with enough fuel it empties the queue. -/
private theorem inv_loop (hE : ∀ u v, (u, v) ∈ E → v ∈ nodes) (fuel : ℕ) :
    ∀ st : State κ, Inv E nodes rank st → nodes.length ≤ fuel + st.sorted.length →
      Inv E nodes rank (loop E rank fuel st) ∧ (loop E rank fuel st).heap = [] := by
  induction fuel with
  | zero =>
    intro st h hfuel
    refine ⟨h, ?_⟩
    show st.heap = []
    by_contra hne
    obtain ⟨k, rest, hheap⟩ := exists_cons_of_ne_nil hne
    have hready : Ready E nodes st.sorted k := h.mem_heap_iff.mp (by simp [hheap])
    have hnd : (k :: st.sorted).Nodup := nodup_cons.mpr ⟨hready.notMem_placed, h.greedy.nodup⟩
    have hsub : k :: st.sorted ⊆ nodes := cons_subset.mpr ⟨hready.mem_nodes, h.greedy.subset⟩
    have := (hnd.subperm hsub).length_le
    rw [length_cons] at this
    omega
  | succ fuel ih =>
    intro st h hfuel
    rw [loop]
    split
    next hheap => exact ⟨h, hheap⟩
    next k rest hheap =>
      refine ih _ (inv_place hE h hheap) ?_
      rw [sorted_place, length_append, length_singleton]
      omega

private theorem inv_sort (rank : κ → ρ) (hnd : nodes.Nodup) (hE : ∀ u v, (u, v) ∈ E → v ∈ nodes) :
    Inv E nodes rank (loop E rank nodes.length (init E nodes rank)) ∧
      (loop E rank nodes.length (init E nodes rank)).heap = [] :=
  inv_loop hE nodes.length _ (inv_init hnd) (by simp)

/-! ### Results -/

/-- Every position of the sorted list holds the least ready node. -/
theorem greedy_sort (rank : κ → ρ) (hnd : nodes.Nodup) (hE : ∀ u v, (u, v) ∈ E → v ∈ nodes) :
    Greedy E nodes rank (sort E nodes rank) :=
  (inv_sort rank hnd hE).1.greedy

/-- When the sort stops no node is ready. -/
theorem not_ready_sort (rank : κ → ρ) (hnd : nodes.Nodup) (hE : ∀ u v, (u, v) ∈ E → v ∈ nodes)
    (v : κ) :
    ¬Ready E nodes (sort E nodes rank) v := by
  obtain ⟨hinv, hempty⟩ := inv_sort rank hnd hE
  intro hready
  have := hinv.mem_heap_iff.mpr hready
  rw [hempty] at this
  cases this

/-- The nodes are all placed iff the graph is acyclic. -/
theorem perm_sort_iff (rank : κ → ρ) (hnd : nodes.Nodup)
    (hE : ∀ u v, (u, v) ∈ E → u ∈ nodes ∧ v ∈ nodes) :
    (sort E nodes rank).Perm nodes ↔ Acyclic E := by
  have hE' : ∀ u v, (u, v) ∈ E → v ∈ nodes := fun u v huv => (hE u v huv).2
  have hgreedy := greedy_sort rank hnd hE'
  constructor
  · exact fun hperm => hgreedy.acyclic fun u v huv => hperm.mem_iff.mpr (hE' u v huv)
  · intro hacyc
    refine (perm_ext_iff_of_nodup hgreedy.nodup hnd).mpr fun v => ⟨fun hv =>
      hgreedy.subset hv, fun hv => ?_⟩
    by_contra hv'
    -- the unplaced nodes have a source, and a source among them is ready
    obtain ⟨w, hw, hsource⟩ := hacyc.exists_source
      (S := (nodes.filter fun u => u ∉ sort E nodes rank).toFinset)
      ⟨v, by simp [hv, hv']⟩
    simp only [mem_toFinset, mem_filter, decide_eq_true_eq] at hw hsource
    refine not_ready_sort rank hnd hE' w ⟨hw.1, hw.2, fun u huw => ?_⟩
    by_contra hu
    exact hsource u ⟨(hE u w huw).1, hu⟩ huw

/-- The length already tells whether all nodes are placed. -/
theorem length_sort_eq_iff (rank : κ → ρ) (hnd : nodes.Nodup)
    (hE : ∀ u v, (u, v) ∈ E → u ∈ nodes ∧ v ∈ nodes) :
    (sort E nodes rank).length = nodes.length ↔ Acyclic E := by
  have hgreedy := greedy_sort rank hnd fun u v huv => (hE u v huv).2
  rw [← perm_sort_iff rank hnd hE]
  exact ⟨fun hlen => (hgreedy.nodup.subperm hgreedy.subset).perm_of_length_le hlen.ge,
    fun hperm => hperm.length_eq⟩

/-! ### The least order -/

/-- A list of the nodes with every node behind its predecessors. -/
structure Topological (E : List (κ × κ)) (nodes l : List κ) : Prop where
  perm : l.Perm nodes
  idxOf_lt : ∀ u v, (u, v) ∈ E → l.idxOf u < l.idxOf v

/-- A greedy order of all nodes is topological. -/
theorem Greedy.topological (h : Greedy E nodes rank l) (hperm : l.Perm nodes)
    (hE : ∀ u v, (u, v) ∈ E → v ∈ nodes) : Topological E nodes l where
  perm := hperm
  idxOf_lt := fun u v huv => h.idxOf_lt huv (hperm.mem_iff.mpr (hE u v huv))

/-- In a topological order a node is ready when its turn comes. -/
theorem Topological.ready {p s : List κ} {b : κ} (h : Topological E nodes l) (hnd : nodes.Nodup)
    (hl : l = p ++ b :: s) : Ready E nodes p b := by
  have hndl : l.Nodup := h.perm.nodup_iff.mpr hnd
  have hb : b ∉ p := by
    rw [hl] at hndl
    exact fun hmem => (nodup_append.mp hndl).2.2 b hmem b mem_cons_self rfl
  refine ⟨h.perm.mem_iff.mp (by simp [hl]), hb, fun u hu => ?_⟩
  -- A predecessor stands before the node.
  have hlt := h.idxOf_lt u b hu
  by_contra hnot
  rw [hl, idxOf_append_of_notMem hnot, idxOf_append_of_notMem hb, idxOf_cons_self] at hlt
  omega

/-- Among the topological orders the greedy one comes first. -/
theorem Greedy.eq_or_lex {l' : List κ} (h : Greedy E nodes rank l) (hperm : l.Perm nodes)
    (hnd : nodes.Nodup) (hrank : Function.Injective rank) (h' : Topological E nodes l') :
    l = l' ∨ List.Lex (fun u v => rank u < rank v) l l' := by
  have hlen : l.length = l'.length := hperm.length_eq.trans h'.perm.length_eq.symm
  -- Induction on what follows the common part.
  have hmain : ∀ s s' p, l = p ++ s → l' = p ++ s' →
      s = s' ∨ List.Lex (fun u v => rank u < rank v) s s' := by
    intro s
    induction s with
    | nil =>
      intro s' p hl hl'
      left
      rw [hl, hl', append_nil, length_append] at hlen
      exact (eq_nil_of_length_eq_zero (by omega)).symm
    | cons a s ih =>
      intro s' p hl hl'
      cases s' with
      | nil =>
        rw [hl, hl', append_nil, length_append, length_cons] at hlen
        omega
      | cons b s' =>
        by_cases hab : a = b
        · subst hab
          rcases ih s' (p ++ [a]) (by simp [hl]) (by simp [hl']) with rfl | hlex
          · exact .inl rfl
          · exact .inr (.cons hlex)
        · have hready := h'.ready hnd hl'
          have hle := (h p.length (by simp [hl])).2 b
          simp only [hl, take_left', getElem_append_right le_rfl, Nat.sub_self,
            getElem_cons_zero] at hle
          refine .inr (.rel ((hle hready).lt_of_ne fun heq => hab (hrank heq)))
  exact hmain l l' [] rfl rfl

end KahnSort

namespace KahnLoop

open EdgeList List

variable {κ : Type}

/-! ### Policies -/

/-- How the next node is taken from a worklist: it takes one of its members and leaves the
others, and it takes none only from the empty list. -/
structure Policy (κ : Type) where
  /-- The node taken and the nodes left. -/
  pick : List κ → Option (κ × List κ)
  /-- Only the empty worklist gives nothing. -/
  eq_nil_of_pick : ∀ {l}, pick l = none → l = []
  /-- The node taken and the nodes left are the members of the worklist. -/
  perm_of_pick : ∀ {l k rest}, pick l = some (k, rest) → (k :: rest).Perm l

/-- Take the node pushed last: `stack.pop()`. -/
def Policy.last (κ : Type) : Policy κ where
  pick l := l.getLast?.map fun k => (k, l.dropLast)
  eq_nil_of_pick h := by simpa using h
  perm_of_pick {l k rest} h := by
    obtain ⟨k', hk', heq⟩ := Option.map_eq_some_iff.mp h
    cases heq
    rw [← dropLast_append_getLast? k hk']
    exact (perm_append_singleton k _).symm.trans (by simp)

/-- Sort the worklist stably and take its head: `l.sort(); l.pop(0)`. -/
def Policy.least (r : κ → κ → Prop) [DecidableRel r] : Policy κ where
  pick l := (l.insertionSort r).head?.map fun k => (k, (l.insertionSort r).tail)
  eq_nil_of_pick {l} h := by
    have hnil : l.insertionSort r = [] := by simpa using h
    have hlen := length_insertionSort r l
    rw [hnil] at hlen
    exact length_eq_zero_iff.mp hlen.symm
  perm_of_pick {l k rest} h := by
    obtain ⟨k', hk', heq⟩ := Option.map_eq_some_iff.mp h
    cases heq
    rw [cons_head?_tail hk']
    exact perm_insertionSort r l

/-! ### Specification -/

/-- Every node of `l` is placed once, and after all its dependencies. -/
structure Topological (deps : κ → List κ) (nodes l : List κ) : Prop where
  nodup : l.Nodup
  subset : l ⊆ nodes
  deps_before : ∀ l₁ v l₂, l = l₁ ++ v :: l₂ → ∀ d ∈ deps v, d ∈ l₁

variable {deps : κ → List κ} {nodes : List κ}

/-- Nothing is placed yet. -/
theorem topological_nil : Topological deps nodes [] where
  nodup := nodup_nil
  subset := nil_subset _
  deps_before l₁ v l₂ h := by simp at h

variable {l : List κ} {k v : κ} {r : κ → κ → Prop}

/-- Placing a new node whose dependencies are placed keeps the order topological. -/
theorem Topological.append_single (h : Topological deps nodes l) (hnode : k ∈ nodes) (hnew : k ∉ l)
    (hdeps : ∀ d ∈ deps k, d ∈ l) :
    Topological deps nodes (l ++ [k]) where
  nodup := nodup_append.mpr ⟨h.nodup, nodup_singleton k, by
    rintro a ha b hb rfl
    rw [mem_singleton] at hb
    exact hnew (hb ▸ ha)⟩
  subset := append_subset.mpr ⟨h.subset, by simpa using hnode⟩
  deps_before l₁ v l₂ heq := by
    rcases eq_nil_or_concat' l₂ with rfl | ⟨l₂', z, rfl⟩
    · obtain ⟨rfl, hv⟩ := append_inj' heq rfl
      cases hv
      exact hdeps
    · have heq' : l ++ [k] = (l₁ ++ v :: l₂') ++ [z] := by simpa using heq
      exact h.deps_before l₁ v l₂' (append_inj' heq' rfl).1

/-- A dependency of a placed node is placed. -/
theorem Topological.mem_of_mem_deps (h : Topological deps nodes l) {d : κ} (hv : v ∈ l)
    (hd : d ∈ deps v) : d ∈ l := by
  obtain ⟨l₁, l₂, rfl⟩ := append_of_mem hv
  exact mem_append_left _ (h.deps_before l₁ v l₂ rfl d hd)

/-- `v` may be placed after `placed`: it is an unplaced node whose dependencies are placed. -/
structure Ready (deps : κ → List κ) (nodes placed : List κ) (v : κ) : Prop where
  mem_nodes : v ∈ nodes
  notMem_placed : v ∉ placed
  deps_placed : ∀ d ∈ deps v, d ∈ placed

/-- Every position of `l` holds a ready node, the least one for `r`. -/
def Greedy (r : κ → κ → Prop) (deps : κ → List κ) (nodes l : List κ) : Prop :=
  ∀ l₁ v l₂, l = l₁ ++ v :: l₂ →
    Ready deps nodes l₁ v ∧ ∀ w, Ready deps nodes l₁ w → r v w

/-- There is one greedy order of all nodes. -/
theorem Greedy.eq [Std.Antisymm r] {l' : List κ} (h : Greedy r deps nodes l)
    (h' : Greedy r deps nodes l') (hlen : l.length = l'.length) :
    l = l' := by
  have hrun : ∀ rest rest' done : List κ, rest.length = rest'.length →
      l = done ++ rest → l' = done ++ rest' → rest = rest' := by
    intro rest
    induction rest with
    | nil => exact fun rest' _ hlen _ _ => (length_eq_zero_iff.mp hlen.symm).symm
    | cons v rest ih =>
      intro rest' done hlen hl hl'
      cases rest' with
      | nil => cases hlen
      | cons v' rest' =>
        obtain ⟨hready, hleast⟩ := h done v rest hl
        obtain ⟨hready', hleast'⟩ := h' done v' rest' hl'
        have hv : v = v' := Std.Antisymm.antisymm _ _ (hleast v' hready') (hleast' v hready)
        subst hv
        rw [ih rest' (done ++ [v]) (Nat.succ.inj hlen) (by simpa using hl) (by simpa using hl')]
  exact hrun l l' [] hlen rfl rfl

/-- The dependencies as edges, each from a dependency to the node that lists it. -/
def edges (deps : κ → List κ) (nodes : List κ) : List (κ × κ) :=
  nodes.flatMap fun v => (deps v).map fun d => (d, v)

/-- The edges go from the dependencies of the nodes to the nodes. -/
@[simp]
theorem mem_edges {u : κ} : (u, v) ∈ edges deps nodes ↔ v ∈ nodes ∧ u ∈ deps v := by
  simp only [edges, mem_flatMap, mem_map, Prod.mk.injEq]
  constructor
  · rintro ⟨w, hw, d, hd, rfl, rfl⟩
    exact ⟨hw, hd⟩
  · rintro ⟨hv, hu⟩
    exact ⟨v, hv, u, hu, rfl, rfl⟩

/-- A topological order of all nodes excludes cycles. -/
theorem Topological.acyclic [DecidableEq κ] (h : Topological deps nodes l) (hall : nodes ⊆ l) :
    Acyclic (edges deps nodes) := by
  refine acyclic_of_rank l.idxOf fun u v huv => ?_
  obtain ⟨hv, hu⟩ := mem_edges.mp huv
  obtain ⟨l₁, l₂, rfl⟩ := append_of_mem (hall hv)
  have hmem : u ∈ l₁ := h.deps_before l₁ v l₂ rfl u hu
  have hnot : v ∉ l₁ := fun hv₁ =>
    (nodup_append.mp h.nodup).2.2 v hv₁ v mem_cons_self rfl
  rw [idxOf_append_of_mem hmem, idxOf_append_of_notMem hnot, idxOf_cons_self]
  exact Nat.lt_of_lt_of_le (idxOf_lt_length_of_mem hmem) (Nat.le_add_right _ _)

/-! ### The algorithm -/

variable [DecidableEq κ]

/-- What the loop carries. -/
structure State (κ : Type) where
  /-- Unplaced nodes whose dependencies are all placed. -/
  ready : List κ
  /-- Number of listed dependencies that are not placed. -/
  indeg : κ → ℤ
  /-- Nodes placed so far. -/
  order : List κ

/-- Lower the counter of one dependent node, which becomes ready when it drops to zero. -/
def relax (st : State κ) (s : κ) : State κ :=
  let n := st.indeg s - 1
  { st with
    indeg := Function.update st.indeg s n
    ready := if n = 0 then st.ready ++ [s] else st.ready }

/-- Place the node `k`, taken from a worklist with remainder `rest`. -/
def place (E : List (κ × κ)) (st : State κ) (k : κ) (rest : List κ) : State κ :=
  (adj E k).foldl relax { st with ready := rest, order := st.order ++ [k] }

/-- The main loop, at most `fuel` times. -/
def loop (P : Policy κ) (E : List (κ × κ)) : ℕ → State κ → State κ
  | 0, st => st
  | fuel + 1, st =>
    match P.pick st.ready with
    | none => st
    | some (k, rest) => loop P E fuel (place E st k rest)

/-- The state before the loop. -/
def init (deps : κ → List κ) (nodes : List κ) : State κ where
  ready := nodes.filter fun v => (deps v).length = 0
  indeg v := (deps v).length
  order := []

/-- Place the nodes one by one, in the order in which the policy takes them. -/
def sort (P : Policy κ) (deps : κ → List κ) (nodes : List κ) : List κ :=
  (loop P (edges deps nodes) nodes.length (init deps nodes)).order

/-! ### The inner loop -/

/-- What holds of the worklist whenever it is looked at: it lists, without repetition, the
unplaced nodes whose counter is zero. -/
structure ReadyInv (nodes : List κ) (st : State κ) : Prop where
  nodup : st.ready.Nodup
  mem_iff : ∀ v, v ∈ st.ready ↔ v ∈ nodes ∧ v ∉ st.order ∧ st.indeg v = 0

variable {st : State κ}

private theorem readyInv_relax {s : κ} (h : ReadyInv nodes st) (hpos : 0 < st.indeg s)
    (hnode : s ∈ nodes) (hnew : s ∉ st.order) :
    ReadyInv nodes (relax st s) := by
  have hnot : s ∉ st.ready := fun hmem => by
    have := ((h.mem_iff s).mp hmem).2.2
    omega
  by_cases hzero : st.indeg s - 1 = 0
  · simp only [relax, hzero, if_true]
    refine ⟨nodup_append.mpr ⟨h.nodup, nodup_singleton s, ?_⟩, fun v => ?_⟩
    · rintro a ha b hb rfl
      rw [mem_singleton] at hb
      exact hnot (hb ▸ ha)
    · by_cases hv : v = s
      · subst hv
        simp [hnode, hnew]
      · simp [hv, h.mem_iff v]
  · simp only [relax, hzero, if_false]
    refine ⟨h.nodup, fun v => ?_⟩
    by_cases hv : v = s
    · subst hv
      simp [hnot, hzero]
    · simp [hv, h.mem_iff v]

/-- The inner loop subtracts from every counter the number of times its node occurs. -/
private theorem foldl_relax (f : κ → ℕ) (l : List κ) :
    ∀ st : State κ, ReadyInv nodes st → (∀ v ∈ nodes, st.indeg v = f v + l.count v) →
      (∀ v ∈ l, v ∈ nodes ∧ v ∉ st.order) →
      ReadyInv nodes (l.foldl relax st) ∧ (∀ v ∈ nodes, (l.foldl relax st).indeg v = f v) ∧
        (l.foldl relax st).order = st.order := by
  induction l with
  | nil => exact fun st h hindeg _ => ⟨h, by simpa using hindeg, rfl⟩
  | cons s rest ih =>
    intro st h hindeg hmem
    obtain ⟨hnode, hnew⟩ := hmem s mem_cons_self
    have hpos : 0 < st.indeg s := by
      rw [hindeg s hnode, count_cons_self]
      omega
    refine ih (relax st s) (readyInv_relax h hpos hnode hnew) (fun v hv => ?_)
      fun v hv => hmem v (mem_cons_of_mem _ hv)
    have hv' := hindeg v hv
    by_cases heq : v = s
    · subst heq
      rw [count_cons_self] at hv'
      simp only [relax, Function.update_self]
      omega
    · rw [count_cons_of_ne (Ne.symm heq)] at hv'
      simp only [relax, Function.update_of_ne heq]
      exact hv'

/-! ### The loop invariant -/

/-- What the policy placed: every node was taken from a list of the nodes that were ready. -/
def Picked (P : Policy κ) (deps : κ → List κ) (nodes l : List κ) : Prop :=
  ∀ l₁ v l₂, l = l₁ ++ v :: l₂ →
    ∃ L rest, (∀ w, w ∈ L ↔ Ready deps nodes l₁ w) ∧ P.pick L = some (v, rest)

/-- What holds of the state between two placements. -/
structure Inv (P : Policy κ) (deps : κ → List κ) (nodes : List κ) (st : State κ) : Prop where
  ready : ReadyInv nodes st
  indeg_eq : ∀ v ∈ nodes, st.indeg v = (deps v).countP fun d => d ∉ st.order
  order : Topological deps nodes st.order
  picked : Picked P deps nodes st.order

variable {P : Policy κ}

/-- The worklist holds the ready nodes. -/
theorem Inv.mem_ready_iff (h : Inv P deps nodes st) :
    v ∈ st.ready ↔ Ready deps nodes st.order v := by
  have hiff : v ∈ st.ready ↔ v ∈ nodes ∧ v ∉ st.order ∧ ∀ d ∈ deps v, d ∈ st.order := by
    rw [h.ready.mem_iff]
    refine and_congr_right fun hv => and_congr_right fun _ => ?_
    rw [h.indeg_eq v hv, Int.natCast_eq_zero, countP_eq_zero]
    simp
  rw [hiff]
  exact ⟨fun ⟨h₁, h₂, h₃⟩ => ⟨h₁, h₂, h₃⟩, fun ⟨h₁, h₂, h₃⟩ => ⟨h₁, h₂, h₃⟩⟩

private theorem inv_init (hnd : nodes.Nodup) : Inv P deps nodes (init deps nodes) where
  ready := ⟨hnd.filter _, fun v => by simp [init]⟩
  indeg_eq v _ := by
    have hall : (deps v).countP (fun d => decide (d ∉ (init deps nodes).order)) =
        (deps v).length := countP_eq_length.mpr fun d _ => by simp [init]
    rw [hall]
    rfl
  order := topological_nil
  picked l₁ v l₂ h := by simp [init] at h

/-- Placing `k` settles as many dependencies of `v` as `k` has edges to `v`. -/
private theorem countP_eq_add_count (hnd : nodes.Nodup) {order : List κ} (hk : k ∉ order)
    (hv : v ∈ nodes) :
    (deps v).countP (fun d => decide (d ∉ order)) =
      (deps v).countP (fun d => decide (d ∉ order ++ [k])) +
        (adj (edges deps nodes) k).count v := by
  -- only the block of `v` contributes edges into `v`
  have hblock : (adj (edges deps nodes) k).count v = (deps v).count k := by
    have hone : ∀ w : κ, ((((deps w).map fun d => (d, w)).filter
        fun e => decide (e.1 = k)).map Prod.snd).count v =
        if w = v then (deps v).count k else 0 := by
      intro w
      rw [filter_map, map_map]
      by_cases hw : w = v
      · subst hw
        rw [if_pos rfl, count_eq_countP, countP_map, countP_filter, count_eq_countP]
        refine countP_congr fun d _ => ?_
        simp [Function.comp_def]
      · rw [if_neg hw, count_eq_zero]
        simp [Function.comp_def, Ne.symm hw]
    rw [adj, edges, filter_flatMap, map_flatMap, count_flatMap]
    rw [show (List.count v ∘ fun w => (((deps w).map fun d => (d, w)).filter
        fun e => decide (e.1 = k)).map Prod.snd) = fun w => if w = v then (deps v).count k else 0
      from funext hone]
    rw [← sum_toFinset _ hnd, Finset.sum_ite_eq', if_pos (mem_toFinset.mpr hv)]
  rw [hblock, count_eq_countP]
  induction deps v with
  | nil => rfl
  | cons d rest ih =>
    rw [countP_cons, countP_cons, countP_cons, ih]
    by_cases hd : d = k
    · subst hd
      simp [hk]
      omega
    · simp [hd]
      omega

private theorem inv_place {rest : List κ} (hnd : nodes.Nodup) (h : Inv P deps nodes st)
    (hpicked : P.pick st.ready = some (k, rest)) :
    Inv P deps nodes (place (edges deps nodes) st k rest) := by
  have hpick := P.perm_of_pick hpicked
  obtain ⟨hnode, hnew, hdeps⟩ := h.mem_ready_iff.mp (hpick.subset mem_cons_self)
  have hnodup := hpick.nodup_iff.mpr h.ready.nodup
  -- before the inner loop the worklist lacks exactly the node taken
  have hstart : ReadyInv nodes { st with ready := rest, order := st.order ++ [k] } := by
    refine ⟨(nodup_cons.mp hnodup).2, fun v => ?_⟩
    have hiff := h.ready.mem_iff v
    rw [← hpick.mem_iff] at hiff
    by_cases hv : v = k
    · subst hv
      simp [(nodup_cons.mp hnodup).1]
    · simpa [hv] using hiff
  -- a node that depends on `k` cannot have been placed
  have hsucc : ∀ v ∈ adj (edges deps nodes) k, v ∈ nodes ∧ v ∉ st.order ++ [k] := by
    intro v hv
    rw [mem_adj, mem_edges] at hv
    refine ⟨hv.1, fun hmem => hnew ?_⟩
    rcases mem_append.mp hmem with hold | heq
    · exact h.order.mem_of_mem_deps hold hv.2
    · rw [mem_singleton] at heq
      exact heq ▸ hdeps k (heq ▸ hv.2)
  obtain ⟨hready', hindeg', horder'⟩ := foldl_relax
    (fun v => (deps v).countP fun d => decide (d ∉ st.order ++ [k]))
    (adj (edges deps nodes) k) _ hstart
    (fun v hv => by
      show st.indeg v = _
      rw [h.indeg_eq v hv, countP_eq_add_count hnd hnew hv]
      rfl)
    hsucc
  refine ⟨hready', fun v hv => ?_, ?_, ?_⟩
  · rw [place, horder']
    exact hindeg' v hv
  · rw [place, horder']
    exact h.order.append_single hnode hnew hdeps
  · rw [place, horder']
    intro l₁ v l₂ heq
    rcases eq_nil_or_concat' l₂ with rfl | ⟨l₂', z, rfl⟩
    · obtain ⟨rfl, hv⟩ := append_inj' heq rfl
      cases hv
      exact ⟨st.ready, rest, fun w => h.mem_ready_iff, hpicked⟩
    · have heq' : st.order ++ [k] = (l₁ ++ v :: l₂') ++ [z] := by simpa using heq
      exact h.picked l₁ v l₂' (append_inj' heq' rfl).1

/-- Placing a node appends it to the order. -/
@[simp]
theorem order_place (E : List (κ × κ)) (st : State κ) (k : κ) (rest : List κ) :
    (place E st k rest).order = st.order ++ [k] := by
  have hfold : ∀ (l : List κ) (st : State κ), (l.foldl relax st).order = st.order := by
    intro l
    induction l with
    | nil => exact fun _ => rfl
    | cons s rest ih => exact fun st => ih (relax st s)
  exact hfold _ _

/-- The loop keeps the invariant, and with a step for each node it empties the worklist. -/
private theorem inv_loop (P : Policy κ) (hnd : nodes.Nodup) (fuel : ℕ) :
    ∀ st : State κ, Inv P deps nodes st → nodes.length ≤ fuel + st.order.length →
      Inv P deps nodes (loop P (edges deps nodes) fuel st) ∧
        (loop P (edges deps nodes) fuel st).ready = [] := by
  induction fuel with
  | zero =>
    intro st h hfuel
    refine ⟨h, ?_⟩
    show st.ready = []
    refine eq_nil_iff_forall_not_mem.mpr fun k hk => ?_
    obtain ⟨hnode, hnew, -⟩ := h.mem_ready_iff.mp hk
    have hlen := ((nodup_cons.mpr ⟨hnew, h.order.nodup⟩).subperm
      (cons_subset.mpr ⟨hnode, h.order.subset⟩)).length_le
    rw [length_cons] at hlen
    omega
  | succ fuel ih =>
    intro st h hfuel
    rw [loop]
    split
    next hpick => exact ⟨h, P.eq_nil_of_pick hpick⟩
    next k rest hpick =>
      refine ih _ (inv_place hnd h hpick) ?_
      rw [order_place, length_append, length_singleton]
      omega

private theorem inv_sort (P : Policy κ) (deps : κ → List κ) (hnd : nodes.Nodup) :
    Inv P deps nodes (loop P (edges deps nodes) nodes.length (init deps nodes)) ∧
      (loop P (edges deps nodes) nodes.length (init deps nodes)).ready = [] :=
  inv_loop P hnd nodes.length _ (inv_init hnd) (by simp [init])

/-! ### The result -/

/-- The sort places nodes only, each once and after its dependencies. -/
theorem topological_sort (P : Policy κ) (deps : κ → List κ) (hnd : nodes.Nodup) :
    Topological deps nodes (sort P deps nodes) :=
  (inv_sort P deps hnd).1.order

/-- The sort that always takes the least ready node is greedy. -/
theorem greedy_sort_least [DecidableRel r] [Std.Total r] [IsTrans κ r] (deps : κ → List κ)
    (hnd : nodes.Nodup) :
    Greedy r deps nodes (sort (Policy.least r) deps nodes) := by
  intro l₁ v l₂ heq
  obtain ⟨L, rest, hL, hpick⟩ := (inv_sort (Policy.least r) deps hnd).1.picked l₁ v l₂ heq
  have hperm := (Policy.least r).perm_of_pick hpick
  refine ⟨(hL v).mp (hperm.subset mem_cons_self), fun w hw => ?_⟩
  have hsorted : (L.insertionSort r).Pairwise r := pairwise_insertionSort r L
  have hmem : w ∈ L.insertionSort r := (mem_insertionSort r).mpr ((hL w).mpr hw)
  obtain ⟨v', hv', heq'⟩ := Option.map_eq_some_iff.mp hpick
  cases heq'
  rw [← cons_head?_tail hv'] at hsorted hmem
  rcases mem_cons.mp hmem with rfl | hmem
  · exact (Std.Total.total w w).elim id id
  · exact (pairwise_cons.mp hsorted).1 w hmem

/-- A node that is left over has a dependency that is left over. -/
private theorem exists_dep_of_not_mem_sort (P : Policy κ) (hnd : nodes.Nodup) (hv : v ∈ nodes)
    (hleft : v ∉ sort P deps nodes) :
    ∃ d ∈ deps v, d ∉ sort P deps nodes := by
  obtain ⟨hinv, hready⟩ := inv_sort P deps hnd
  by_contra hall
  push Not at hall
  have := hinv.mem_ready_iff.mpr ⟨hv, hleft, hall⟩
  rw [hready] at this
  exact not_mem_nil this

/-- When the dependencies are nodes, all nodes are placed iff there is no cycle. -/
theorem perm_sort_iff (P : Policy κ) (hnd : nodes.Nodup) (hdeps : ∀ v ∈ nodes, deps v ⊆ nodes) :
    (sort P deps nodes).Perm nodes ↔ Acyclic (edges deps nodes) := by
  have htop := topological_sort P deps hnd
  constructor
  · exact fun hperm => htop.acyclic hperm.symm.subset
  · intro hacyc
    refine (perm_ext_iff_of_nodup htop.nodup hnd).mpr fun v => ⟨fun hv => htop.subset hv, ?_⟩
    intro hv
    by_contra hleft
    -- the nodes left over would all have a predecessor among themselves
    obtain ⟨w, hw, hsrc⟩ := hacyc.exists_source
      (S := (nodes.filter fun v => v ∉ sort P deps nodes).toFinset)
      ⟨v, by simp [hv, hleft]⟩
    simp only [mem_toFinset, mem_filter, decide_eq_true_eq] at hw hsrc
    obtain ⟨d, hd, hdleft⟩ := exists_dep_of_not_mem_sort P hnd hw.1 hw.2
    exact hsrc d ⟨hdeps w hw.1 hd, hdleft⟩ (mem_edges.mpr ⟨hw.1, hd⟩)

/-- The test the callers make: the order is as long as the node list iff there is no
cycle. -/
theorem length_sort_eq_iff (P : Policy κ) (hnd : nodes.Nodup) (hdeps : ∀ v ∈ nodes, deps v ⊆ nodes)
    :
    (sort P deps nodes).length = nodes.length ↔ Acyclic (edges deps nodes) := by
  rw [← perm_sort_iff P hnd hdeps]
  have htop := topological_sort P deps hnd
  constructor
  · intro hlen
    exact (htop.nodup.subperm htop.subset).perm_of_length_le hlen.ge
  · exact List.Perm.length_eq

end KahnLoop
