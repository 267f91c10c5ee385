import Mathlib.Data.List.Induction
import Mathlib.Data.List.Basic

/-!
# Greedy choice

The elements of a list are taken one after the other, unless they clash with one that is taken.

## Main definitions

* `Greedy.choose`: the elements that are taken;
* `Spliced`: how such a pass makes its result.

## Main results

* `Greedy.pairwise_choose`: no two of them clash;
* `Greedy.mem_choose_or_clash`: what is not taken clashes with an element that is, and comes before;
* `Spliced.filter`: without the new items, the changed ones are left.
-/

namespace Greedy

open List

variable {α : Type} {clash : α → α → Bool} {r : α → α → Prop} {l : List α} {x : α}

/-- The elements of `l` that clash with none that is taken. -/
def choose (clash : α → α → Bool) (l : List α) : List α :=
  l.foldl (fun out x => if out.any (clash x) then out else out ++ [x]) []

theorem choose_concat : choose clash (l ++ [x]) =
    if (choose clash l).any (clash x) then choose clash l else choose clash l ++ [x] := by
  rw [choose, foldl_append]
  rfl

theorem choose_subset (clash : α → α → Bool) (l : List α) : choose clash l ⊆ l := by
  induction l using reverseRecOn with
  | nil => exact List.Subset.refl _
  | append_singleton l x ih =>
    rw [choose_concat]
    split_ifs
    · exact List.Subset.trans ih (subset_append_left l [x])
    · exact append_subset.mpr ⟨List.Subset.trans ih (subset_append_left l [x]),
        subset_append_right l [x]⟩

/-- No two elements that are taken clash. -/
theorem pairwise_choose (clash : α → α → Bool) (l : List α) :
    (choose clash l).Pairwise fun y x => clash x y = false := by
  induction l using reverseRecOn with
  | nil => exact List.Pairwise.nil
  | append_singleton l x ih =>
    rw [choose_concat]
    split_ifs with hany
    · exact ih
    · refine pairwise_append.mpr ⟨ih, pairwise_singleton _ x, fun y hy z hz => ?_⟩
      rw [mem_singleton.mp hz]
      simpa using any_eq_false.mp (Bool.eq_false_iff.mpr hany) y hy

/-- An element that is not taken clashes with one that is, and that comes before it. -/
theorem mem_choose_or_clash (hl : l.Pairwise r) (hx : x ∈ l) :
    x ∈ choose clash l ∨ ∃ y ∈ choose clash l, clash x y = true ∧ r y x := by
  induction l using reverseRecOn with
  | nil => cases hx
  | append_singleton l z ih =>
    obtain ⟨hbefore, -, hlast⟩ := pairwise_append.mp hl
    have hkeep : choose clash l ⊆ choose clash (l ++ [z]) := by
      rw [choose_concat]
      split_ifs
      · exact List.Subset.refl _
      · exact subset_append_left _ _
    rcases mem_append.mp hx with hmem | hmem
    · rcases ih hbefore hmem with h | ⟨y, hy, hclash⟩
      · exact .inl (hkeep h)
      · exact .inr ⟨y, hkeep hy, hclash⟩
    · obtain rfl := mem_singleton.mp hmem
      by_cases hany : (choose clash l).any (clash x) = true
      · obtain ⟨y, hy, hclash⟩ := any_eq_true.mp hany
        exact .inr ⟨y, hkeep hy, hclash, hlast y (choose_subset clash l hy) x hmem⟩
      · refine .inl ?_
        rw [choose_concat, if_neg hany]
        exact mem_append_right _ hmem

end Greedy

/-! ## Lists with items put in -/

namespace ModelBlaster

open List

variable {γ ω : Type}

/-- The items `done` have been changed, and the items `added` made and put between them. -/
inductive Spliced (make : γ → ω) (change : ω → ω) : List γ → List ω → List ω → Prop where
  | nil : Spliced make change [] [] []
  | insert {added done out} (c : γ) (h : Spliced make change added done out) :
      Spliced make change (added ++ [c]) done (out ++ [make c])
  | item {added done out} (o : ω) (h : Spliced make change added done out) :
      Spliced make change added (done ++ [o]) (out ++ [change o])

namespace Spliced

variable {make : γ → ω} {change : ω → ω} {added : List γ} {done out : List ω}

/-- What is in the result was made, or changed. -/
theorem mem_iff (h : Spliced make change added done out) {o' : ω} :
    o' ∈ out ↔ (∃ c ∈ added, o' = make c) ∨ ∃ o ∈ done, o' = change o := by
  induction h with
  | nil => simp
  | insert c _ ih =>
    simp only [mem_append, mem_singleton, ih, or_and_right, exists_or, exists_eq_left]
    exact or_right_comm
  | item o _ ih =>
    simp only [mem_append, mem_singleton, ih, or_and_right, exists_or, exists_eq_left, or_assoc]

variable {keep : ω → Bool}

theorem filter (h : Spliced make change added done out) (hmade : ∀ c ∈ added, keep (make c) = false)
    (hitem : ∀ o ∈ done, keep (change o) = true) :
    out.filter keep = done.map change := by
  induction h with
  | nil => rfl
  | insert c _ ih =>
    rw [filter_append, ih (fun c' hc' => hmade c' (mem_append_left _ hc')) hitem,
      filter_cons_of_neg (by simp [hmade c]), filter_nil, append_nil]
  | item o _ ih =>
    rw [filter_append, ih hmade fun o' ho' => hitem o' (mem_append_left _ ho'),
      filter_cons_of_pos (hitem o (by simp)), filter_nil, map_append]
    rfl

/-- The new items, in the order in which they were put in. -/
theorem filter_made (h : Spliced make change added done out)
    (hmade : ∀ c ∈ added, keep (make c) = true) (hitem : ∀ o ∈ done, keep (change o) = false) :
    out.filter keep = added.map make := by
  induction h with
  | nil => rfl
  | insert c _ ih =>
    rw [filter_append, ih (fun c' hc' => hmade c' (mem_append_left _ hc')) hitem,
      filter_cons_of_pos (hmade c (by simp)), filter_nil, map_append]
    rfl
  | item o _ ih =>
    rw [filter_append, ih hmade fun o' ho' => hitem o' (mem_append_left _ ho'),
      filter_cons_of_neg (by simp [hitem o]), filter_nil, append_nil]

end Spliced

end ModelBlaster
