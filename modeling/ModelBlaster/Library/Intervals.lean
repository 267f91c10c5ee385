import Mathlib.Data.List.Sort

/-!
# Intervals in ascending order

Lists of half-open intervals `[a, b)`. They are in ascending order if every one of them has an
element and begins where the one before it ends, or later.

## Main definitions

* `Intervals.Ascending`: intervals in ascending order within bounds;
* `Intervals.sorted`: the intervals in lexicographic order.

## Main results

* `Intervals.ascending_append`: two lists, one after the other;
* `Intervals.sorted_eq_self`: intervals in ascending order are sorted;
* `Intervals.ascending_mergeSort`: disjoint intervals are in ascending order once they are sorted;
* `Intervals.length_le`: there are at most as many intervals as elements.
-/

namespace Intervals

open List

section Order

variable {α : Type} [LinearOrder α] {lo lo' hi hi' mid : α} {w : α × α} {ws vs : List (α × α)}

/-- Intervals in ascending order, from `lo` on and up to `hi`. -/
def Ascending (lo hi : α) : List (α × α) → Prop
  | [] => lo ≤ hi
  | w :: ws => lo ≤ w.1 ∧ w.1 < w.2 ∧ Ascending w.2 hi ws

@[simp]
theorem ascending_nil : Ascending lo hi [] ↔ lo ≤ hi := Iff.rfl

theorem ascending_cons :
    Ascending lo hi (w :: ws) ↔ lo ≤ w.1 ∧ w.1 < w.2 ∧ Ascending w.2 hi ws := Iff.rfl

theorem Ascending.le (h : Ascending lo hi ws) : lo ≤ hi := by
  induction ws generalizing lo with
  | nil => exact h
  | cons w ws ih => exact h.1.trans (h.2.1.le.trans (ih h.2.2))

/-- The bounds may be wider. -/
theorem Ascending.mono (h : Ascending lo hi ws) (hlo : lo' ≤ lo) (hhi : hi ≤ hi') :
    Ascending lo' hi' ws := by
  induction ws generalizing lo lo' with
  | nil => exact hlo.trans (h.trans hhi)
  | cons w ws ih => exact ⟨hlo.trans h.1, h.2.1, ih h.2.2 le_rfl⟩

/-- Two lists, one after the other. -/
theorem ascending_append :
    Ascending lo hi (vs ++ ws) ↔ ∃ mid, Ascending lo mid vs ∧ Ascending mid hi ws := by
  induction vs generalizing lo with
  | nil =>
    constructor
    · exact fun h => ⟨lo, le_rfl, h⟩
    · rintro ⟨mid, hmid, h⟩
      exact h.mono hmid le_rfl
  | cons v vs ih =>
    rw [cons_append, ascending_cons, ih]
    constructor
    · rintro ⟨hlo, hv, mid, hvs, hws⟩
      exact ⟨mid, ⟨hlo, hv, hvs⟩, hws⟩
    · rintro ⟨mid, ⟨hlo, hv, hvs⟩, hws⟩
      exact ⟨hlo, hv, mid, hvs, hws⟩

theorem Ascending.append (h : Ascending lo mid vs) (h' : Ascending mid hi ws) :
    Ascending lo hi (vs ++ ws) := ascending_append.mpr ⟨mid, h, h'⟩

/-- Intervals may be left out. -/
theorem Ascending.sublist (h : Ascending lo hi ws) (hsub : vs.Sublist ws) :
    Ascending lo hi vs := by
  induction hsub generalizing lo with
  | slnil => exact h
  | cons w _ ih => exact ih (h.2.2.mono (h.1.trans h.2.1.le) le_rfl)
  | cons_cons w _ ih => exact ⟨h.1, h.2.1, ih h.2.2⟩

/-- The intervals lie within the bounds. -/
theorem Ascending.of_mem (h : Ascending lo hi ws) (hw : w ∈ ws) :
    lo ≤ w.1 ∧ w.1 < w.2 ∧ w.2 ≤ hi := by
  induction ws generalizing lo with
  | nil => cases hw
  | cons v ws ih =>
    rcases mem_cons.mp hw with rfl | hw
    · exact ⟨h.1, h.2.1, h.2.2.le⟩
    · obtain ⟨hlo, hlt, hhi⟩ := ih h.2.2 hw
      exact ⟨h.1.trans (h.2.1.le.trans hlo), hlt, hhi⟩

/-- An interval ends where the next ones begin, or earlier. -/
theorem Ascending.pairwise (h : Ascending lo hi ws) : ws.Pairwise fun v w => v.2 ≤ w.1 := by
  induction ws generalizing lo with
  | nil => exact List.Pairwise.nil
  | cons v ws ih => exact List.Pairwise.cons (fun w hw => (h.2.2.of_mem hw).1) (ih h.2.2)

/-- Intervals that follow each other are in ascending order. -/
theorem ascending_of_pairwise (hle : lo ≤ hi) (hpair : ws.Pairwise fun v w => v.2 ≤ w.1)
    (hmem : ∀ w ∈ ws, lo ≤ w.1 ∧ w.1 < w.2 ∧ w.2 ≤ hi) : Ascending lo hi ws := by
  induction ws generalizing lo with
  | nil => exact hle
  | cons v ws ih =>
    rw [pairwise_cons] at hpair
    obtain ⟨hlo, hlt, hhi⟩ := hmem v mem_cons_self
    refine ⟨hlo, hlt, ih hhi hpair.2 fun w hw => ?_⟩
    exact ⟨hpair.1 w hw, (hmem w (mem_cons_of_mem v hw)).2⟩

/-- The intervals in lexicographic order. -/
def sorted (ws : List (α × α)) : List (α × α) :=
  ws.mergeSort fun v w => v.1 < w.1 ∨ v.1 = w.1 ∧ v.2 ≤ w.2

/-- Intervals in ascending order are sorted. -/
theorem sorted_eq_self (h : Ascending lo hi ws) : sorted ws = ws := by
  apply mergeSort_of_pairwise
  have hlt : ∀ v ∈ ws, v.1 < v.2 := fun v hv => (h.of_mem hv).2.1
  exact h.pairwise.imp_of_mem fun {v w} hv _ hle => decide_eq_true (Or.inl ((hlt v hv).trans_le hle))

variable {β : Type} {l : List β}

/-- Elements whose intervals are in ascending order are sorted by where these begin. -/
theorem mergeSort_eq_self (key : β → α × α) (h : Ascending lo hi (l.map key)) :
    (l.mergeSort fun b c => (key b).1 ≤ (key c).1) = l := by
  apply mergeSort_of_pairwise
  have hlt : ∀ b ∈ l, (key b).1 < (key b).2 := fun b hb => (h.of_mem (mem_map_of_mem hb)).2.1
  refine (pairwise_map.mp h.pairwise).imp_of_mem fun {b c} hb _ hle => ?_
  exact decide_eq_true ((hlt b hb).le.trans hle)

/-- Disjoint intervals are in ascending order once they are sorted by where they begin. `key` takes
an element to its interval. -/
theorem ascending_mergeSort (key : β → α × α) (hle : lo ≤ hi)
    (hpair : l.Pairwise fun b c => (key b).2 ≤ (key c).1 ∨ (key c).2 ≤ (key b).1)
    (hmem : ∀ b ∈ l, lo ≤ (key b).1 ∧ (key b).1 < (key b).2 ∧ (key b).2 ≤ hi) :
    Ascending lo hi ((l.mergeSort fun b c => (key b).1 ≤ (key c).1).map key) := by
  have hperm := mergeSort_perm l fun b c => decide ((key b).1 ≤ (key c).1)
  have hsort : (l.mergeSort fun b c => (key b).1 ≤ (key c).1).Pairwise fun b c =>
      decide ((key b).1 ≤ (key c).1) = true := by
    apply pairwise_mergeSort
    · intro a b c hab hbc
      exact decide_eq_true ((of_decide_eq_true hab).trans (of_decide_eq_true hbc))
    · intro a b
      simp only [Bool.or_eq_true, decide_eq_true_eq]
      exact le_total _ _
  have hdisjoint := (hperm.pairwise_iff fun {b c} h => h.symm).mpr hpair
  apply ascending_of_pairwise hle
  · rw [pairwise_map]
    refine (hsort.and hdisjoint).imp_of_mem ?_
    rintro b c hb hc ⟨hbegin, hbc | hcb⟩
    · exact hbc
    · -- The second one would end before it begins.
      have hlt := (hmem c (hperm.mem_iff.mp hc)).2.1
      exact absurd (hlt.trans_le (hcb.trans (of_decide_eq_true hbegin))) (lt_irrefl _)
  · intro w hw
    obtain ⟨b, hb, rfl⟩ := mem_map.mp hw
    exact hmem b (hperm.mem_iff.mp hb)

end Order

/-- There are at most as many intervals as elements. -/
theorem length_le {lo hi : ℕ} {ws : List (ℕ × ℕ)} (h : Ascending lo hi ws) :
    ws.length ≤ hi - lo := by
  induction ws generalizing lo with
  | nil => exact Nat.zero_le _
  | cons w ws ih =>
    have hlen := ih h.2.2
    have hle := h.2.2.le
    have hlo := h.1
    have hlt := h.2.1
    rw [length_cons]
    omega

end Intervals
