import ModelBlaster.Library.Fallible

/-!
# Depth-first order

A depth-first search puts a node behind the nodes that it depends on. A node that is met again on
the way to itself is a cycle, which ends the search. `follow k c` says of a child `c` of `k` whether
the search goes on there, passes it over or ends with an error.

## Main definitions

* `DepthFirst.sort`: the order of the nodes reached from a list of nodes;
* `DepthFirst.Ordered`: a list in which every node stands behind its children.

## Main results

* `DepthFirst.sort_ordered`: what a search returns is ordered and has the nodes it was given;
* `DepthFirst.exists_sort`: a search succeeds if the nodes have an order.
-/

namespace DepthFirst

open List Fallible

variable {κ ε : Type} [DecidableEq κ]

section
variable (children : κ → List κ) (follow : κ → κ → Except ε Bool)

/-- Visit a node. `path` is the way to it, and `out` is what is done. -/
def visit (cycle : List κ → ε) : ℕ → List κ → List κ → κ → Except ε (List κ)
  | 0, path, _, k => .error (cycle (path ++ [k]))
  | fuel + 1, path, out, k =>
    if k ∈ out then .ok out
    else if k ∈ path then .error (cycle (path ++ [k]))
    else do
      let out ← (children k).foldlM (fun out c => do
        if ← follow k c then visit cycle fuel (path ++ [k]) out c else return out) out
      return out ++ [k]

/-- Visit the nodes of a list. A way that is longer than the list would meet one of them twice. -/
def sort (cycle : List κ → ε) (nodes : List κ) : Except ε (List κ) :=
  nodes.foldlM (visit children follow cycle (nodes.length + 1) []) []

/-- Every child of a node is passed over or is among those done. -/
def Done (out : List κ) (k : κ) : Prop :=
  ∀ c ∈ children k, follow k c = .ok false ∨ follow k c = .ok true ∧ c ∈ out

/-- The nodes are distinct, and each stands behind its children. -/
inductive Ordered : List κ → Prop
  | nil : Ordered []
  | snoc {out : List κ} {k : κ} : Ordered out → k ∉ out → Done children follow out k →
    Ordered (out ++ [k])

end

variable {children : κ → List κ} {follow : κ → κ → Except ε Bool} {cycle : List κ → ε}
  {out' out path nodes ref : List κ} {k : κ} {fuel : ℕ}

omit [DecidableEq κ] in
theorem Done.mono (h : Done children follow out k) (hsub : out ⊆ out') :
    Done children follow out' k := fun c hc =>
  (h c hc).imp_right fun ⟨hfollow, hmem⟩ => ⟨hfollow, hsub hmem⟩

section
variable (h : Ordered children follow out)
include h

omit [DecidableEq κ] in
theorem Ordered.nodup : out.Nodup := by
  induction h with
  | nil => exact nodup_nil
  | snoc _ hk _ ih =>
    exact nodup_append.mpr ⟨ih, nodup_singleton _, fun a ha b hb heq =>
      hk (mem_singleton.mp hb ▸ heq ▸ ha)⟩

omit [DecidableEq κ] in
/-- An order with other children stays one if what is done stays done. -/
theorem Ordered.imp {children' : κ → List κ} {follow' : κ → κ → Except ε Bool}
    (hdone : ∀ pre, ∀ k ∈ out, Done children follow pre k → Done children' follow' pre k) :
    Ordered children' follow' out := by
  induction h with
  | nil => exact .nil
  | snoc _ hk hk' ih =>
    exact .snoc (ih fun pre k hk => hdone pre k (mem_append_left _ hk)) hk
      (hdone _ _ (by simp) hk')

omit [DecidableEq κ] in
/-- All that stands behind a node in an order is done without it. -/
theorem Ordered.done (hk : k ∈ out) :
    Done children follow out k := by
  induction h with
  | nil => cases hk
  | snoc _ _ hdone ih =>
    rcases mem_append.mp hk with hk | hk
    · exact (ih hk).mono (subset_append_left _ _)
    · obtain rfl := mem_singleton.mp hk
      exact hdone.mono (subset_append_left _ _)

omit [DecidableEq κ] in
/-- A node of an order is done by those before it. -/
theorem Ordered.done_before {pre post : List κ} (hout : out = pre ++ k :: post) :
    Done children follow pre k := by
  induction h generalizing post with
  | nil => simp at hout
  | snoc _ _ hdone ih =>
    rcases eq_nil_or_concat post with rfl | ⟨post', x, rfl⟩
    · obtain ⟨rfl, hk⟩ := append_inj' hout rfl
      cases hk
      exact hdone
    · rw [concat_eq_append, ← cons_append, ← append_assoc] at hout
      exact ih (append_inj' hout rfl).1

end

/-! ### What a search returns -/

/-- A set of nodes that has all children that a search goes on to. -/
def Closed (children : κ → List κ) (follow : κ → κ → Except ε Bool) (S : κ → Prop) : Prop :=
  ∀ k c, S k → c ∈ children k → follow k c = .ok true → S c

/-- What a search has done when it comes back from the nodes `ks`. -/
structure Visited (children : κ → List κ) (follow : κ → κ → Except ε Bool) (path out : List κ)
    (ks out' : List κ) : Prop where
  ordered : Ordered children follow out'
  subset : out ⊆ out'
  mem : ∀ k ∈ ks, k ∈ out'
  /-- The nodes on the way are not done. -/
  path : ∀ p ∈ path, p ∉ out → p ∉ out'
  within : ∀ S : κ → Prop, Closed children follow S → (∀ k ∈ ks, S k) → (∀ x ∈ out, S x) →
    ∀ x ∈ out', S x

/-- A visit adds the node, behind all that it depends on. -/
theorem visit_spec (hout : Ordered children follow out)
    (h : visit children follow cycle fuel path out k = .ok out') :
    Visited children follow path out [k] out' := by
  induction fuel generalizing path out out' k with
  | zero => cases h
  | succ fuel ih =>
    rw [visit] at h
    split_ifs at h with hmem hpath
    · injection h with h
      subst h
      exact ⟨hout, fun _ => id, by simpa using hmem, fun _ _ => id, fun _ _ _ => id⟩
    · obtain ⟨mid, hloop, hret⟩ := bind_eq_ok_iff.mp h
      injection hret with hret
      subst hret
      -- The loop leaves the node itself undone.
      have hinv := foldlM_induction (P := fun done out₁ =>
        (∀ c ∈ done, c ∈ children k) → Ordered children follow out₁ ∧ out ⊆ out₁ ∧
        (∀ p ∈ path ++ [k], p ∉ out → p ∉ out₁) ∧
        (∀ c ∈ done, follow k c = .ok false ∨ follow k c = .ok true ∧ c ∈ out₁) ∧
        ∀ S : κ → Prop, Closed children follow S → S k → (∀ x ∈ out, S x) → ∀ x ∈ out₁, S x) ?_
        (fun _ => ⟨hout, fun _ => id, fun _ _ => id, by simp, fun _ _ _ => id⟩) hloop
      · obtain ⟨hord, hsub, hundone, hdone, hwithin⟩ := hinv fun _ => id
        have hk : k ∉ mid := hundone k (by simp) hmem
        refine ⟨.snoc hord hk hdone, fun x hx => mem_append_left _ (hsub hx), by simp,
          fun p hp hpout hpmem => ?_, fun S hS hks hS' x hx => ?_⟩
        · rcases mem_append.mp hpmem with hpmem | hpmem
          · exact hundone p (mem_append_left _ hp) hpout hpmem
          · exact hpath (mem_singleton.mp hpmem ▸ hp)
        · have hSk : S k := hks k mem_cons_self
          rcases mem_append.mp hx with hx | hx
          · exact hwithin S hS hSk hS' x hx
          · exact mem_singleton.mp hx ▸ hSk
      · intro done c out₁ out₂ hinv hstep hdoneChildren
        obtain ⟨hord, hsub, hundone, hdone, hwithin⟩ :=
          hinv fun c' hc' => hdoneChildren c' (mem_append_left _ hc')
        obtain ⟨b, hfollow, hstep⟩ := bind_eq_ok_iff.mp hstep
        cases b with
        | false =>
          injection hstep with hstep
          subst hstep
          refine ⟨hord, hsub, hundone, fun c' hc' => ?_, hwithin⟩
          rcases mem_append.mp hc' with hc' | hc'
          · exact hdone c' hc'
          · exact .inl (mem_singleton.mp hc' ▸ hfollow)
        | true =>
          have hvisit := ih hord hstep
          refine ⟨hvisit.ordered, List.Subset.trans hsub hvisit.subset, fun p hp hpout =>
            hvisit.path p hp (hundone p hp hpout), fun c' hc' => ?_, fun S hS hSk hS' => ?_⟩
          · rcases mem_append.mp hc' with hc' | hc'
            · exact (hdone c' hc').imp_right fun ⟨hf, hmem'⟩ => ⟨hf, hvisit.subset hmem'⟩
            · exact .inr ⟨mem_singleton.mp hc' ▸ hfollow, hvisit.mem c' hc'⟩
          · have hSc : S c := hS k c hSk (hdoneChildren c (by simp)) hfollow
            exact hvisit.within S hS (by simpa using hSc) (hwithin S hS hSk hS')

/-- What a search returns is ordered and has the nodes it was given. -/
theorem sort_ordered (h : sort children follow cycle nodes = .ok out) :
    Ordered children follow out ∧ nodes ⊆ out := by
  have hinv := foldlM_induction (P := fun done out' =>
    Ordered children follow out' ∧ done ⊆ out') ?_ ⟨.nil, by simp⟩ h
  · exact hinv
  · intro done k out₁ out₂ hinv hstep
    have hvisit := visit_spec hinv.1 hstep
    refine ⟨hvisit.ordered, fun x hx => ?_⟩
    rcases mem_append.mp hx with hx | hx
    · exact hvisit.subset (hinv.2 hx)
    · exact hvisit.mem x hx

/-- A search that goes on only to the nodes it was given returns them all. -/
theorem sort_perm (hnd : nodes.Nodup) (hclosed : Closed children follow fun k => k ∈ nodes)
    (h : sort children follow cycle nodes = .ok out) : out.Perm nodes := by
  obtain ⟨hord, hsub⟩ := sort_ordered h
  have hwithin := foldlM_induction (P := fun done out' =>
    done ⊆ nodes → Ordered children follow out' ∧ ∀ x ∈ out', x ∈ nodes) ?_
    (fun _ => ⟨.nil, by simp⟩) h
  · exact (perm_ext_iff_of_nodup hord.nodup hnd).mpr fun x =>
      ⟨(hwithin fun _ => id).2 x, fun hx => hsub hx⟩
  · intro done k out₁ out₂ hinv hstep hdone
    obtain ⟨hord₁, hmem₁⟩ := hinv fun x hx => hdone (mem_append_left _ hx)
    have hvisit := visit_spec hord₁ hstep
    have hk : k ∈ nodes := hdone (by simp)
    exact ⟨hvisit.ordered, hvisit.within _ hclosed (by simpa using hk) hmem₁⟩

/-! ### When a search succeeds -/

/-- In an order, the children that a node goes on to stand before it. -/
theorem Ordered.idxOf_lt (h : Ordered children follow out) {c : κ} (hk : k ∈ out)
    (hc : c ∈ children k) (hfollow : follow k c = .ok true) : out.idxOf c < out.idxOf k := by
  induction h with
  | nil => cases hk
  | @snoc out' k' _ hnew hdone ih =>
    have hmemOr := mem_append.mp hk
    by_cases hk' : k ∈ out'
    · have hlt := ih hk'
      have hc' : c ∈ out' := idxOf_lt_length_iff.mp (Nat.lt_trans hlt (idxOf_lt_length_iff.mpr hk'))
      rwa [idxOf_append_of_mem hc', idxOf_append_of_mem hk']
    · obtain rfl := mem_singleton.mp (hmemOr.resolve_left hk')
      have hc' : c ∈ out' := by
        rcases hdone c hc with hno | ⟨-, hmem⟩
        · rw [hfollow] at hno
          cases hno
        · exact hmem
      rw [idxOf_append_of_mem hc', idxOf_append_of_notMem hnew]
      exact Nat.lt_add_right _ (idxOf_lt_length_iff.mpr hc')

/-- Along an order a visit succeeds: the positions fall on the way down. -/
theorem exists_visit (href : Ordered children follow ref) (hk : k ∈ ref)
    (hfuel : ref.idxOf k < fuel) (hpath : ∀ p ∈ path, ref.idxOf k < ref.idxOf p) :
    ∃ out', visit children follow cycle fuel path out k = .ok out' := by
  induction fuel generalizing path out k with
  | zero => omega
  | succ fuel ih =>
    rw [visit]
    split_ifs with hmem hcycle
    · exact ⟨out, rfl⟩
    · exact absurd (hpath k hcycle) (Nat.lt_irrefl _)
    · have hrun := exists_foldlM_eq_ok (P := fun _ _ => True)
        (f := fun out c => do
          if ← follow k c then visit children follow cycle fuel (path ++ [k]) out c
          else return out)
        (l := children k) ?_ (b := out) trivial
      · obtain ⟨mid, hloop, -⟩ := hrun
        exact ⟨mid ++ [k], bind_eq_ok_iff.mpr ⟨mid, hloop, rfl⟩⟩
      · intro done c rest out₁ hsplit _
        have hc : c ∈ children k := hsplit ▸ by simp
        rcases href.done hk c hc with hfollow | ⟨hfollow, hmem'⟩
        · exact ⟨out₁, by rw [hfollow]; rfl, trivial⟩
        · have hlt := href.idxOf_lt hk hc hfollow
          have hpath' : ∀ p ∈ path ++ [k], ref.idxOf c < ref.idxOf p := by
            intro p hp
            rcases mem_append.mp hp with hp | hp
            · exact Nat.lt_trans hlt (hpath p hp)
            · exact mem_singleton.mp hp ▸ hlt
          obtain ⟨out₂, hvisit⟩ : ∃ out₂,
              visit children follow cycle fuel (path ++ [k]) out₁ c = .ok out₂ :=
            ih hmem' (by omega) hpath'
          exact ⟨out₂, by rw [hfollow]; exact hvisit, trivial⟩

/-- A search succeeds if the nodes have an order. -/
theorem exists_sort (href : Ordered children follow ref) (hperm : ref.Perm nodes) :
    ∃ out, sort children follow cycle nodes = .ok out := by
  have hrun := exists_foldlM_eq_ok (P := fun _ _ => True)
    (f := visit children follow cycle (nodes.length + 1) []) (l := nodes) ?_ (b := []) trivial
  · obtain ⟨out, hout, -⟩ := hrun
    exact ⟨out, hout⟩
  · intro done k rest out₁ hsplit _
    have hk : k ∈ ref := hperm.mem_iff.mpr (hsplit ▸ by simp)
    have hlt := idxOf_lt_length_iff.mpr hk
    obtain ⟨out₂, hvisit⟩ : ∃ out₂,
        visit children follow cycle (nodes.length + 1) [] out₁ k = .ok out₂ :=
      exists_visit href hk (by rw [← hperm.length_eq]; omega) (by simp)
    exact ⟨out₂, hvisit, trivial⟩

end DepthFirst
