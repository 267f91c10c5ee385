import Mathlib.Order.WellFoundedSet

/-!
# Digraphs as edge lists

A finite digraph given by the list of its edges, in the order in which they were added.
The search `EdgeList.reaches` is the usual depth-first search with an explicit stack and
a set of seen nodes; its fuel bounds the number of nodes it can ever push.

## Main definitions

* `EdgeList.adj`: the successors of a node, in order and with multiplicity;
* `EdgeList.Acyclic`: no node reaches itself through at least one edge;
* `EdgeList.reaches`: depth-first search;
* `EdgeList.closure`: the nodes reached from the seeds;
* `Covering.Direct`: in order, and with nothing in between.

## Main results

* `EdgeList.reaches_iff`: the search decides reachability;
* `EdgeList.acyclic_append_single_iff`: adding the edge `t → k` to an acyclic graph keeps it
  acyclic iff `k` does not reach `t`;
* `EdgeList.Acyclic.exists_source`: a nonempty finite set of nodes of an acyclic graph has a
  member without a predecessor in the set;
* `EdgeList.mem_closure_iff`: a node is reached iff a path of at least one edge leads to it;
* `Covering.transGen_direct_iff`: the paths of direct pairs are the order.
-/

namespace EdgeList

open List

variable {κ : Type}

/-- `a → b` is an edge. -/
def Edge (E : List (κ × κ)) (a b : κ) : Prop := (a, b) ∈ E

/-- No node reaches itself through at least one edge. -/
def Acyclic (E : List (κ × κ)) : Prop := ∀ k, ¬Relation.TransGen (Edge E) k k

/-! ### Acyclicity -/

variable {E : List (κ × κ)}

/-- Dropping edges keeps a graph acyclic. -/
theorem Acyclic.mono {F : List (κ × κ)} (hF : Acyclic F) (hsub : E ⊆ F) : Acyclic E :=
  have hle : Edge E ≤ Edge F := fun _ _ hab => hsub hab
  fun k hk => hF k (Relation.TransGen.mono hle k k hk)

/-- A rank that increases along every edge excludes cycles. -/
theorem acyclic_of_rank {ρ : Type} [Preorder ρ] (rank : κ → ρ)
    (h : ∀ a b, (a, b) ∈ E → rank a < rank b) : Acyclic E := by
  have hlt : ∀ {a b}, Relation.TransGen (Edge E) a b → rank a < rank b := by
    intro a b hab
    induction hab with
    | single hab => exact h _ _ hab
    | tail _ hbc ih => exact ih.trans (h _ _ hbc)
  exact fun k hk => absurd (hlt hk) (lt_irrefl _)

variable {k t src : κ} {fuel : ℕ}

/-- A path after adding the edge `t → k` is an old path, or passes through the new edge. -/
private theorem transGen_append_single {a b : κ} (h : Relation.TransGen (Edge (E ++ [(t, k)])) a b)
    :
    Relation.TransGen (Edge E) a b ∨
      (Relation.ReflTransGen (Edge E) a t ∧ Relation.ReflTransGen (Edge E) k b) := by
  have hedge : ∀ {x y}, Edge (E ++ [(t, k)]) x y → Edge E x y ∨ (x = t ∧ y = k) := by
    intro x y hxy
    rcases mem_append.mp hxy with hold | hnew
    · exact Or.inl hold
    · right
      simpa using hnew
  induction h with
  | single hab =>
    rcases hedge hab with hold | ⟨rfl, rfl⟩
    · exact Or.inl (.single hold)
    · exact Or.inr ⟨.refl, .refl⟩
  | tail _ hbc ih =>
    rcases hedge hbc with hold | ⟨rfl, rfl⟩
    · rcases ih with hpath | ⟨hat, hkb⟩
      · exact Or.inl (hpath.tail hold)
      · exact Or.inr ⟨hat, hkb.tail hold⟩
    · rcases ih with hpath | ⟨hat, -⟩
      · exact Or.inr ⟨hpath.to_reflTransGen, .refl⟩
      · exact Or.inr ⟨hat, .refl⟩

/-- Adding the edge `t → k` to an acyclic graph keeps it acyclic iff `k` does not reach
`t`. -/
theorem acyclic_append_single_iff (hE : Acyclic E) :
    Acyclic (E ++ [(t, k)]) ↔ ¬Relation.ReflTransGen (Edge E) k t := by
  constructor
  · intro hacyc hkt
    have hnew : Edge (E ++ [(t, k)]) t k := by simp [Edge]
    have hle : Edge E ≤ Edge (E ++ [(t, k)]) := fun _ _ hab => mem_append_left _ hab
    have hback := Relation.ReflTransGen.mono hle k t hkt
    exact hacyc t (Relation.TransGen.head' hnew hback)
  · intro hkt a haa
    rcases transGen_append_single haa with hold | ⟨hat, hka⟩
    · exact hE a hold
    · exact hkt (hka.trans hat)

/-- A nonempty finite set of nodes of an acyclic graph has a member without a predecessor
in the set. -/
theorem Acyclic.exists_source (hE : Acyclic E) {S : Finset κ} (hS : S.Nonempty) :
    ∃ v ∈ S, ∀ u ∈ S, (u, v) ∉ E := by
  by_contra hnone
  push Not at hnone
  have horder : IsStrictOrder κ (Relation.TransGen (Edge E)) :=
    { irrefl := hE, trans := fun _ _ _ => Relation.TransGen.trans }
  have hwf := S.finite_toSet.wellFoundedOn (r := Relation.TransGen (Edge E))
  obtain ⟨v, hv⟩ := hS
  refine hwf.induction (P := fun _ => False) hv fun x hx ih => ?_
  obtain ⟨u, hu, hux⟩ := hnone x hx
  exact ih u hu (.single hux)

/-! ### Depth-first search -/

variable [DecidableEq κ]

/-- The successors of `u`, in the order in which their edges were added. -/
def adj (E : List (κ × κ)) (u : κ) : List κ := (E.filter fun e => e.1 = u).map Prod.snd

/-- A node is among the successors of `u` iff `u` has an edge to it. -/
theorem mem_adj {u v : κ} : v ∈ adj E u ↔ (u, v) ∈ E := by
  simp [adj]

/-- Scan the successors of one node: `none` when `dst` is among them, otherwise the seen
set and the stack with every unseen successor pushed. -/
def visit (dst : κ) : List κ → List κ → List κ → Option (List κ × List κ)
  | [], seen, stack => some (seen, stack)
  | nxt :: rest, seen, stack =>
    if nxt = dst then none
    else if nxt ∈ seen then visit dst rest seen stack
    else visit dst rest (nxt :: seen) (nxt :: stack)

/-- The search loop: pop a node, scan its successors. -/
def search (E : List (κ × κ)) (dst : κ) : ℕ → List κ → List κ → Bool
  | 0, _, _ => false
  | _ + 1, _, [] => false
  | fuel + 1, seen, u :: stack =>
    match visit dst (adj E u) seen stack with
    | none => true
    | some (seen', stack') => search E dst fuel seen' stack'

/-- Is `dst` reachable from `src`? -/
def reaches (E : List (κ × κ)) (src dst : κ) : Bool :=
  src == dst || search E dst (E.length + 1) [src] [src]

variable {dst : κ} {seen stack : List κ}

/-- A scan that stops has found `dst`. -/
theorem mem_of_visit_eq_none {l : List κ} (h : visit dst l seen stack = none) : dst ∈ l := by
  induction l generalizing seen stack with
  | nil => simp [visit] at h
  | cons nxt rest ih =>
    rw [visit] at h
    split_ifs at h with h₁ h₂
    · simp [h₁]
    · exact mem_cons_of_mem _ (ih h)
    · exact mem_cons_of_mem _ (ih h)

/-- What a scan that goes through adds: the new nodes are unseen successors, and no
successor is `dst` or left unseen. -/
theorem visit_eq_some {l seen' stack' : List κ} (h : visit dst l seen stack = some (seen', stack'))
    :
    ∃ new : List κ, seen' = new ++ seen ∧ stack' = new ++ stack ∧ new.Nodup ∧
      (∀ y ∈ new, y ∈ l ∧ y ∉ seen) ∧ ∀ y ∈ l, y ≠ dst ∧ y ∈ seen' := by
  induction l generalizing seen stack with
  | nil =>
    obtain ⟨rfl, rfl⟩ := h
    exact ⟨[], rfl, rfl, nodup_nil, by simp, by simp⟩
  | cons nxt rest ih =>
    rw [visit] at h
    split_ifs at h with h₁ h₂
    · obtain ⟨new, rfl, rfl, hnd, hnew, hall⟩ := ih h
      refine ⟨new, rfl, rfl, hnd, fun y hy => ?_, fun y hy => ?_⟩
      · exact ⟨mem_cons_of_mem _ (hnew y hy).1, (hnew y hy).2⟩
      · rcases mem_cons.mp hy with rfl | hy
        · exact ⟨h₁, mem_append_right _ h₂⟩
        · exact hall y hy
    · obtain ⟨new, rfl, rfl, hnd, hnew, hall⟩ := ih h
      have hnxt : nxt ∉ new := fun hmem => (hnew nxt hmem).2 (mem_cons_self)
      refine ⟨new ++ [nxt], by simp, by simp, ?_, fun y hy => ?_, fun y hy => ?_⟩
      · exact nodup_append.mpr ⟨hnd, nodup_singleton _, by
          intro a ha b hb hab
          rw [mem_singleton] at hb
          exact hnxt (by rw [← hb, ← hab]; exact ha)⟩
      · rcases mem_append.mp hy with hy | hy
        · exact ⟨mem_cons_of_mem _ (hnew y hy).1, fun hs => (hnew y hy).2 (mem_cons_of_mem _ hs)⟩
        · rw [mem_singleton] at hy
          subst hy
          exact ⟨mem_cons_self, h₂⟩
      · rcases mem_cons.mp hy with rfl | hy
        · exact ⟨h₁, by simp⟩
        · exact hall y hy

/-- A search that succeeds from nodes reachable from `src` has found a path. -/
theorem reflTransGen_of_search (hstack : ∀ x ∈ stack, Relation.ReflTransGen (Edge E) src x)
    (h : search E dst fuel seen stack = true) : Relation.ReflTransGen (Edge E) src dst := by
  induction fuel generalizing seen stack with
  | zero => simp [search] at h
  | succ fuel ih =>
    cases stack with
    | nil => simp [search] at h
    | cons u stack =>
      rw [search] at h
      have hu := hstack u mem_cons_self
      split at h
      next hvisit =>
        exact hu.tail (mem_adj.mp (mem_of_visit_eq_none hvisit))
      next seen' stack' hvisit =>
        obtain ⟨new, -, rfl, -, hnew, -⟩ := visit_eq_some hvisit
        refine ih (fun x hx => ?_) h
        rcases mem_append.mp hx with hx | hx
        · exact hu.tail (mem_adj.mp (hnew x hx).1)
        · exact hstack x (mem_cons_of_mem _ hx)

/-- The nodes that can still be pushed. -/
def unseen (E : List (κ × κ)) (seen : List κ) : Finset κ :=
  (E.map Prod.snd).toFinset \ seen.toFinset

/-- New nodes are no longer unseen. -/
theorem card_unseen_append {new : List κ} (hnd : new.Nodup)
    (hnew : ∀ y ∈ new, y ∈ E.map Prod.snd ∧ y ∉ seen) :
    (unseen E (new ++ seen)).card + new.length = (unseen E seen).card := by
  have hsub : new.toFinset ⊆ unseen E seen := by
    intro y hy
    have := hnew y (mem_toFinset.mp hy)
    simp only [unseen, Finset.mem_sdiff, mem_toFinset]
    exact this
  have hsdiff : unseen E (new ++ seen) = unseen E seen \ new.toFinset := by
    ext y
    simp only [unseen, Finset.mem_sdiff, mem_toFinset, mem_append, not_or]
    tauto
  rw [hsdiff, Finset.card_sdiff_of_subset hsub, toFinset_card_of_nodup hnd]
  have := Finset.card_le_card hsub
  rw [toFinset_card_of_nodup hnd] at this
  omega

/-- A search that fails with enough fuel has explored a set of nodes closed under edges
that does not contain `dst`. -/
theorem closed_of_search_eq_false (hsub : ∀ x ∈ stack, x ∈ seen)
    (hclosed : ∀ x ∈ seen, x ∉ stack → ∀ y, Edge E x y → y ∈ seen) (hdst : dst ∉ seen)
    (hfuel : (unseen E seen).card + stack.length ≤ fuel) (h : search E dst fuel seen stack = false)
    :
    ∃ S : List κ, (∀ x ∈ seen, x ∈ S) ∧ (∀ x ∈ S, ∀ y, Edge E x y → y ∈ S) ∧ dst ∉ S := by
  induction fuel generalizing seen stack with
  | zero =>
    have hnil : stack = [] := length_eq_zero_iff.mp (by omega)
    subst hnil
    exact ⟨seen, fun _ hx => hx, fun x hx => hclosed x hx (by simp), hdst⟩
  | succ fuel ih =>
    cases stack with
    | nil => exact ⟨seen, fun _ hx => hx, fun x hx => hclosed x hx (by simp), hdst⟩
    | cons u stack =>
      rw [search] at h
      split at h
      next hvisit => cases h
      next seen' stack' hvisit =>
        obtain ⟨new, rfl, rfl, hnd, hnew, hall⟩ := visit_eq_some hvisit
        have hcard := card_unseen_append (E := E) hnd fun y hy =>
          ⟨mem_map.mpr ⟨(u, y), mem_adj.mp (hnew y hy).1, rfl⟩, (hnew y hy).2⟩
        have hsub' : ∀ x ∈ new ++ stack, x ∈ new ++ seen := by
          intro x hx
          rcases mem_append.mp hx with hx | hx
          · exact mem_append_left _ hx
          · exact mem_append_right _ (hsub x (mem_cons_of_mem _ hx))
        have hclosed' : ∀ x ∈ new ++ seen, x ∉ new ++ stack →
            ∀ y, Edge E x y → y ∈ new ++ seen := by
          intro x hx hxs y hxy
          rw [mem_append, not_or] at hxs
          have hxseen := (mem_append.mp hx).resolve_left hxs.1
          by_cases hxu : x = u
          · exact (hall y (mem_adj.mpr (hxu ▸ hxy))).2
          · exact mem_append_right _ (hclosed x hxseen (by simp [hxu, hxs.2]) y hxy)
        have hdst' : dst ∉ new ++ seen := by
          intro hmem
          rcases mem_append.mp hmem with hmem | hmem
          · exact (hall dst (hnew dst hmem).1).1 rfl
          · exact hdst hmem
        have hfuel' : (unseen E (new ++ seen)).card + (new ++ stack).length ≤ fuel := by
          rw [length_append]
          rw [length_cons] at hfuel
          omega
        obtain ⟨S, hS, hSclosed, hSdst⟩ := ih hsub' hclosed' hdst' hfuel' h
        exact ⟨S, fun x hx => hS x (mem_append_right _ hx), hSclosed, hSdst⟩

/-- The search decides reachability. -/
theorem reaches_iff :
    reaches E src dst = true ↔ Relation.ReflTransGen (Edge E) src dst := by
  constructor
  · intro h
    rcases Bool.or_eq_true_iff.mp h with heq | hsearch
    · rw [beq_iff_eq] at heq
      exact heq ▸ .refl
    · refine reflTransGen_of_search (fun x hx => ?_) hsearch
      rw [mem_singleton] at hx
      exact hx ▸ .refl
  · intro hpath
    by_contra hfalse
    rw [Bool.not_eq_true, reaches, Bool.or_eq_false_iff, beq_eq_false_iff_ne] at hfalse
    have hcard : (unseen E [src]).card ≤ E.length := by
      calc (unseen E [src]).card
          ≤ (E.map Prod.snd).toFinset.card := Finset.card_le_card Finset.sdiff_subset
        _ ≤ (E.map Prod.snd).length := toFinset_card_le _
        _ = E.length := by simp
    obtain ⟨S, hS, hclosed, hdst⟩ := closed_of_search_eq_false (fun _ hx => hx)
      (fun x hx hxs => absurd hx hxs) (by simpa using Ne.symm hfalse.1)
      (by simpa using hcard) hfalse.2
    refine hdst ?_
    clear hfalse hcard hdst
    induction hpath with
    | refl => exact hS src (by simp)
    | tail _ hbc ih => exact hclosed _ ih _ hbc

/-! ### Admitting edges that close no cycle -/

/-- One candidate edge: dropped when its head already reaches its tail. -/
def acceptStep (st : List (κ × κ) × List (κ × κ)) (e : κ × κ) : List (κ × κ) × List (κ × κ) :=
  if reaches st.1 e.2 e.1 then (st.1, st.2 ++ [e]) else (st.1 ++ [e], st.2)

/-- Add the candidate edges to `E` one after the other, dropping each that would close a
cycle with the edges admitted so far. Returns the admitted graph and the dropped edges. -/
def accept (E cands : List (κ × κ)) : List (κ × κ) × List (κ × κ) :=
  cands.foldl acceptStep (E, [])

/-- One admission keeps the graph acyclic. -/
theorem acyclic_acceptStep {st : List (κ × κ) × List (κ × κ)} (h : Acyclic st.1) (e : κ × κ) :
    Acyclic (acceptStep st e).1 := by
  unfold acceptStep
  split_ifs with hr
  · exact h
  · exact (acyclic_append_single_iff h).mpr fun hpath => hr (reaches_iff.mpr hpath)

/-- One step admits the candidate or drops it, as its head reaches its tail or not. -/
theorem acceptStep_eq (st : List (κ × κ) × List (κ × κ)) (e : κ × κ) :
    (reaches st.1 e.2 e.1 = true ∧ acceptStep st e = (st.1, st.2 ++ [e])) ∨
      (reaches st.1 e.2 e.1 = false ∧ acceptStep st e = (st.1 ++ [e], st.2)) := by
  by_cases hr : reaches st.1 e.2 e.1 = true
  · exact Or.inl ⟨hr, if_pos hr⟩
  · exact Or.inr ⟨by simpa using hr, if_neg hr⟩

private theorem subset_foldl_acceptStep (cands : List (κ × κ)) :
    ∀ st : List (κ × κ) × List (κ × κ), st.1 ⊆ (cands.foldl acceptStep st).1 ∧
      st.2 ⊆ (cands.foldl acceptStep st).2 := by
  induction cands with
  | nil => exact fun st => ⟨fun _ hx => hx, fun _ hx => hx⟩
  | cons e rest ih =>
    intro st
    rw [foldl_cons]
    obtain ⟨hsub, hdrop⟩ := ih (acceptStep st e)
    rcases acceptStep_eq st e with ⟨-, hstep⟩ | ⟨-, hstep⟩
    · rw [hstep] at hsub hdrop ⊢
      exact ⟨hsub, fun x hx => hdrop (mem_append_left _ hx)⟩
    · rw [hstep] at hsub hdrop ⊢
      exact ⟨fun x hx => hsub (mem_append_left _ hx), hdrop⟩

private theorem acyclic_foldl_acceptStep (cands : List (κ × κ)) :
    ∀ st : List (κ × κ) × List (κ × κ), Acyclic st.1 → Acyclic (cands.foldl acceptStep st).1 := by
  induction cands with
  | nil => exact fun _ h => h
  | cons e rest ih => exact fun st h => ih (acceptStep st e) (acyclic_acceptStep h e)

private theorem foldl_acceptStep_eq_append (cands : List (κ × κ)) :
    ∀ st : List (κ × κ) × List (κ × κ), Acyclic (st.1 ++ cands) →
      cands.foldl acceptStep st = (st.1 ++ cands, st.2) := by
  induction cands with
  | nil => simp
  | cons e rest ih =>
    intro st h
    have hassoc : st.1 ++ e :: rest = (st.1 ++ [e]) ++ rest := by simp
    rw [hassoc] at h ⊢
    have hnew : Acyclic (st.1 ++ [e]) := h.mono (subset_append_left _ _)
    have hold : Acyclic st.1 := hnew.mono (subset_append_left _ _)
    rcases acceptStep_eq st e with ⟨hr, -⟩ | ⟨-, hstep⟩
    · exact absurd (reaches_iff.mp hr) ((acyclic_append_single_iff hold).mp hnew)
    · rw [foldl_cons, hstep]
      exact ih (st.1 ++ [e], st.2) h

private theorem foldl_acceptStep_mem (cands : List (κ × κ)) :
    ∀ st : List (κ × κ) × List (κ × κ),
      (∀ e ∈ (cands.foldl acceptStep st).1, e ∈ st.1 ∨ e ∈ cands) ∧
        (∀ e ∈ cands, e ∈ (cands.foldl acceptStep st).1 ∨ e ∈ (cands.foldl acceptStep st).2) ∧
        ∀ e ∈ (cands.foldl acceptStep st).2, e ∈ st.2 ∨
          (e ∈ cands ∧ Relation.ReflTransGen (Edge (cands.foldl acceptStep st).1) e.2 e.1) := by
  induction cands with
  | nil => exact fun st => ⟨fun _ he => Or.inl he, by simp, fun _ he => Or.inl he⟩
  | cons e rest ih =>
    intro st
    rw [foldl_cons]
    obtain ⟨hfrom, hcands, hdropped⟩ := ih (acceptStep st e)
    obtain ⟨hsub, hdrop⟩ := subset_foldl_acceptStep rest (acceptStep st e)
    rcases acceptStep_eq st e with ⟨hr, hstep⟩ | ⟨-, hstep⟩
    · rw [hstep] at hfrom hcands hdropped hsub hdrop ⊢
      refine ⟨fun x hx => ?_, fun x hx => ?_, fun x hx => ?_⟩
      · exact (hfrom x hx).imp_right (mem_cons_of_mem e)
      · rcases mem_cons.mp hx with rfl | hx
        · exact Or.inr (hdrop (mem_append_right _ (mem_singleton_self x)))
        · exact hcands x hx
      · rcases hdropped x hx with hold | ⟨hrest, hpath⟩
        · rcases mem_append.mp hold with hold | hnew
          · exact Or.inl hold
          · rw [mem_singleton] at hnew
            subst hnew
            have hle : Edge st.1 ≤ Edge (rest.foldl acceptStep (st.1, st.2 ++ [x])).1 :=
              fun _ _ hab => hsub hab
            exact Or.inr ⟨mem_cons_self, Relation.ReflTransGen.mono hle _ _ (reaches_iff.mp hr)⟩
        · exact Or.inr ⟨mem_cons_of_mem e hrest, hpath⟩
    · rw [hstep] at hfrom hcands hdropped hsub ⊢
      refine ⟨fun x hx => ?_, fun x hx => ?_, fun x hx => ?_⟩
      · rcases hfrom x hx with hold | hrest
        · rcases mem_append.mp hold with hold | hnew
          · exact Or.inl hold
          · exact Or.inr (by simpa using Or.inl (mem_singleton.mp hnew))
        · exact Or.inr (mem_cons_of_mem e hrest)
      · rcases mem_cons.mp hx with rfl | hx
        · exact Or.inl (hsub (mem_append_right _ (mem_singleton_self x)))
        · exact hcands x hx
      · exact (hdropped x hx).imp_right fun hx => ⟨mem_cons_of_mem e hx.1, hx.2⟩

/-- Admission yields an acyclic graph. -/
theorem acyclic_accept (h : Acyclic E) (cands : List (κ × κ)) :
    Acyclic (accept E cands).1 :=
  acyclic_foldl_acceptStep cands (E, []) h

/-- Admission keeps the edges it starts from. -/
theorem subset_accept (E cands : List (κ × κ)) : E ⊆ (accept E cands).1 :=
  (subset_foldl_acceptStep cands (E, [])).1

variable {cands : List (κ × κ)} {e : κ × κ}

/-- Every edge of the admitted graph is an old one or a candidate. -/
theorem mem_or_mem_of_mem_accept (he : e ∈ (accept E cands).1) : e ∈ E ∨ e ∈ cands :=
  (foldl_acceptStep_mem cands (E, [])).1 e he

/-- A candidate is admitted or dropped. -/
theorem mem_accept_or_dropped (he : e ∈ cands) :
    e ∈ (accept E cands).1 ∨ e ∈ (accept E cands).2 :=
  (foldl_acceptStep_mem cands (E, [])).2.1 e he

/-- When all candidates together close no cycle, all are admitted, in order. -/
theorem accept_eq_append (h : Acyclic (E ++ cands)) :
    accept E cands = (E ++ cands, []) :=
  foldl_acceptStep_eq_append cands (E, []) h

/-- No candidate is dropped iff all candidates together close no cycle. -/
theorem accept_dropped_eq_nil_iff (h : Acyclic E) (cands : List (κ × κ)) :
    (accept E cands).2 = [] ↔ Acyclic (E ++ cands) := by
  constructor
  · intro hnil
    refine (acyclic_accept h cands).mono fun e he => ?_
    rcases mem_append.mp he with he | he
    · exact subset_accept E cands he
    · refine (mem_accept_or_dropped he).resolve_right ?_
      rw [hnil]
      exact not_mem_nil
  · intro hacyc
    rw [accept_eq_append hacyc]

end EdgeList

/-! ## Closures in digraphs -/

namespace EdgeList

open List

variable {κ : Type} [DecidableEq κ]

/-- Go through the successors of a node: those not reached yet are reached and pushed. -/
def expand : List κ → List κ → List κ → List κ × List κ
  | [], reached, frontier => (reached, frontier)
  | nxt :: rest, reached, frontier =>
    if nxt ∈ reached then expand rest reached frontier
    else expand rest (nxt :: reached) (nxt :: frontier)

/-- Pop nodes off the frontier until there is none. -/
def closureLoop (E : List (κ × κ)) : ℕ → List κ → List κ → List κ
  | 0, reached, _ => reached
  | _ + 1, reached, [] => reached
  | fuel + 1, reached, node :: frontier =>
    let (reached', frontier') := expand (adj E node) reached frontier
    closureLoop E fuel reached' frontier'

/-- The nodes reachable from `seeds` along at least one edge. -/
def closure (E : List (κ × κ)) (seeds : List κ) : List κ :=
  closureLoop E (E.length + seeds.length) [] seeds

/-- What the successors of one node add: the new nodes are successors that were not reached, and
afterwards every successor is. -/
theorem expand_spec (l reached frontier : List κ) :
    ∃ new : List κ, expand l reached frontier = (new ++ reached, new ++ frontier) ∧ new.Nodup ∧
      (∀ y ∈ new, y ∈ l ∧ y ∉ reached) ∧ ∀ y ∈ l, y ∈ new ++ reached := by
  induction l generalizing reached frontier with
  | nil => exact ⟨[], rfl, nodup_nil, by simp, by simp⟩
  | cons nxt rest ih =>
    rw [expand]
    split_ifs with h
    · obtain ⟨new, heq, hnd, hnew, hall⟩ := ih reached frontier
      refine ⟨new, heq, hnd, fun y hy => ?_, fun y hy => ?_⟩
      · exact ⟨mem_cons_of_mem _ (hnew y hy).1, (hnew y hy).2⟩
      · rcases mem_cons.mp hy with rfl | hy
        · exact mem_append_right _ h
        · exact hall y hy
    · obtain ⟨new, heq, hnd, hnew, hall⟩ := ih (nxt :: reached) (nxt :: frontier)
      have hnxt : nxt ∉ new := fun hmem => (hnew nxt hmem).2 mem_cons_self
      refine ⟨new ++ [nxt], by simp [heq], ?_, fun y hy => ?_, fun y hy => ?_⟩
      · rw [← concat_eq_append]
        exact nodup_concat new nxt |>.mpr ⟨hnxt, hnd⟩
      · rcases mem_append.mp hy with hy | hy
        · exact ⟨mem_cons_of_mem _ (hnew y hy).1, fun hs => (hnew y hy).2 (mem_cons_of_mem _ hs)⟩
        · rw [mem_singleton] at hy
          exact ⟨hy ▸ mem_cons_self, hy ▸ h⟩
      · rcases mem_cons.mp hy with rfl | hy
        · simp
        · simpa using hall y hy

variable {E : List (κ × κ)} {fuel : ℕ} {y : κ} {reached frontier seeds : List κ}

/-- What is reached is reached along edges. -/
theorem transGen_of_mem_closureLoop
    (hreached : ∀ x ∈ reached, ∃ s ∈ seeds, Relation.TransGen (Edge E) s x)
    (hfrontier : ∀ x ∈ frontier, x ∈ seeds ∨ x ∈ reached)
    (h : y ∈ closureLoop E fuel reached frontier) :
    ∃ s ∈ seeds, Relation.TransGen (Edge E) s y := by
  induction fuel generalizing reached frontier with
  | zero => exact hreached y h
  | succ fuel ih =>
    cases frontier with
    | nil => exact hreached y h
    | cons node frontier =>
      obtain ⟨new, heq, -, hnew, -⟩ := expand_spec (adj E node) reached frontier
      rw [closureLoop, heq] at h
      refine ih (fun x hx => ?_) (fun x hx => ?_) h
      · rcases mem_append.mp hx with hx | hx
        · have hedge : Edge E node x := mem_adj.mp (hnew x hx).1
          rcases hfrontier node mem_cons_self with hseed | hnode
          · exact ⟨node, hseed, .single hedge⟩
          · obtain ⟨s, hs, hpath⟩ := hreached node hnode
            exact ⟨s, hs, hpath.tail hedge⟩
        · exact hreached x hx
      · rcases mem_append.mp hx with hx | hx
        · exact Or.inr (mem_append_left _ hx)
        · exact (hfrontier x (mem_cons_of_mem _ hx)).imp_right (mem_append_right _)

/-- With enough fuel the search ends in a set that is closed under edges. -/
theorem closed_closureLoop
    (hclosed : ∀ x, x ∈ seeds ∨ x ∈ reached → x ∉ frontier → ∀ y, Edge E x y → y ∈ reached)
    (hfuel : (unseen E reached).card + frontier.length ≤ fuel) :
    (∀ x ∈ reached, x ∈ closureLoop E fuel reached frontier) ∧
      ∀ x, x ∈ seeds ∨ x ∈ closureLoop E fuel reached frontier → ∀ y, Edge E x y →
        y ∈ closureLoop E fuel reached frontier := by
  induction fuel generalizing reached frontier with
  | zero =>
    have hnil : frontier = [] := length_eq_zero_iff.mp (by omega)
    subst hnil
    exact ⟨fun _ hx => hx, fun x hx => hclosed x hx not_mem_nil⟩
  | succ fuel ih =>
    cases frontier with
    | nil => exact ⟨fun _ hx => hx, fun x hx => hclosed x hx not_mem_nil⟩
    | cons node frontier =>
      obtain ⟨new, heq, hnd, hnew, hall⟩ := expand_spec (adj E node) reached frontier
      have hcard := card_unseen_append (E := E) hnd fun y hy =>
        ⟨mem_map.mpr ⟨(node, y), mem_adj.mp (hnew y hy).1, rfl⟩, (hnew y hy).2⟩
      have hclosed' : ∀ x, x ∈ seeds ∨ x ∈ new ++ reached → x ∉ new ++ frontier →
          ∀ y, Edge E x y → y ∈ new ++ reached := by
        intro x hx hxf y hxy
        rw [mem_append, not_or] at hxf
        by_cases hnode : x = node
        · exact hall y (mem_adj.mpr (hnode ▸ hxy))
        · apply mem_append_right
          apply hclosed x _ _ y hxy
          · exact hx.imp_right fun hmem => (mem_append.mp hmem).resolve_left hxf.1
          · simp [hnode, hxf.2]
      have hfuel' : (unseen E (new ++ reached)).card + (new ++ frontier).length ≤ fuel := by
        rw [length_append]
        rw [length_cons] at hfuel
        omega
      obtain ⟨hsub, hstep⟩ := ih hclosed' hfuel'
      rw [closureLoop, heq]
      exact ⟨fun x hx => hsub x (mem_append_right _ hx), hstep⟩

/-- The closure has the nodes that a path of at least one edge reaches from a seed. -/
theorem mem_closure_iff :
    y ∈ closure E seeds ↔ ∃ s ∈ seeds, Relation.TransGen (Edge E) s y := by
  constructor
  · intro h
    apply transGen_of_mem_closureLoop _ _ h
    · exact fun x hx => absurd hx not_mem_nil
    · exact fun x hx => Or.inl hx
  · rintro ⟨s, hs, hpath⟩
    have hcard : (unseen E []).card ≤ E.length := by
      calc (unseen E []).card
          ≤ (E.map Prod.snd).toFinset.card := Finset.card_le_card Finset.sdiff_subset
        _ ≤ (E.map Prod.snd).length := toFinset_card_le _
        _ = E.length := length_map _
    have hstart : ∀ x, x ∈ seeds ∨ x ∈ ([] : List κ) → x ∉ seeds → ∀ y, Edge E x y →
        y ∈ ([] : List κ) :=
      fun x hx hxs => absurd (hx.resolve_right not_mem_nil) hxs
    have hfuel : (unseen E []).card + seeds.length ≤ E.length + seeds.length := by omega
    obtain ⟨-, hstep⟩ := closed_closureLoop hstart hfuel
    -- Along the path: the first node is a seed, every later one is in the closure.
    induction hpath with
    | single hedge => exact hstep s (Or.inl hs) _ hedge
    | tail _ hedge ih => exact hstep _ (Or.inr ih) _ hedge

end EdgeList

/-! ## Direct predecessors -/

namespace Covering

variable {α : Type}

/-- `a` comes before `b`, and nothing comes between them. -/
def Direct (R : α → α → Prop) (a b : α) : Prop := R a b ∧ ¬∃ c, R a c ∧ R c b

/-- The paths of direct pairs are the order. -/
theorem transGen_direct_iff {R : α → α → Prop} (rank : α → ℕ)
    (hrank : ∀ a b, R a b → rank a < rank b) (htrans : ∀ a b c, R a b → R b c → R a c) {a b : α} :
    Relation.TransGen (Direct R) a b ↔ R a b := by
  constructor
  · intro h
    induction h with
    | single h => exact h.1
    | tail _ h ih => exact htrans _ _ _ ih h.1
  · -- An element in between is closer to both.
    intro h
    induction hd : rank b - rank a using Nat.strongRecOn generalizing a b with
    | _ d ih =>
      by_cases hbetween : ∃ c, R a c ∧ R c b
      · obtain ⟨c, hac, hcb⟩ := hbetween
        have hltac := hrank a c hac
        have hltcb := hrank c b hcb
        exact (ih _ (by omega) hac rfl).trans (ih _ (by omega) hcb rfl)
      · exact .single ⟨h, hbetween⟩

end Covering
