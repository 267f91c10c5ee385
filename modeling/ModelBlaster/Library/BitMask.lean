import Mathlib.Data.Nat.Bitwise

/-!
# Bit masks

A natural number as the set of the places of its bits.

## Main definitions

* `BitMask.bits`: the places of the bits, ascending;
* `BitMask.single`: the mask of one place.

## Main results

* `BitMask.testBit_foldl_or`: what masks have that are put together one by one.
-/

namespace BitMask

/-- The places of the bits of a mask, ascending. -/
def bits (m : ℕ) : List ℕ := (List.range (m.log2 + 1)).filter m.testBit

/-- The mask of one place. -/
def single (j : ℕ) : ℕ := 1 <<< j

variable {m j n : ℕ}

@[simp]
theorem mem_bits : j ∈ bits m ↔ m.testBit j = true := by
  rw [bits, List.mem_filter, List.mem_range]
  refine ⟨fun h => h.2, fun h => ⟨?_, h⟩⟩
  by_contra hlarge
  have hpow : 2 ^ (m.log2 + 1) ≤ 2 ^ j := Nat.pow_le_pow_right Nat.two_pos (by omega)
  have hsmall := Nat.testBit_lt_two_pow (Nat.lt_of_lt_of_le Nat.lt_log2_self hpow)
  rw [hsmall] at h
  cases h

@[simp]
theorem testBit_single {i : ℕ} : (single i).testBit j = true ↔ j = i := by
  rw [single, Nat.one_shiftLeft, Nat.testBit_two_pow, decide_eq_true_iff, eq_comm]

theorem testBit_or_iff :
    (m ||| n).testBit j = true ↔ m.testBit j = true ∨ n.testBit j = true := by
  rw [Nat.testBit_or, Bool.or_eq_true]

theorem testBit_ldiff_iff :
    (m.ldiff n).testBit j = true ↔ m.testBit j = true ∧ ¬n.testBit j = true := by
  rw [Nat.testBit_ldiff, Bool.and_eq_true, Bool.not_eq_true', Bool.not_eq_true]

/-- Masks are put together one by one. -/
theorem testBit_foldl_or {α : Type} (f : α → ℕ) (l : List α) (m j : ℕ) :
    (l.foldl (fun acc x => acc ||| f x) m).testBit j = true ↔
      m.testBit j = true ∨ ∃ x ∈ l, (f x).testBit j = true := by
  induction l generalizing m with
  | nil => simp
  | cons x rest ih =>
    rw [List.foldl_cons, ih, testBit_or_iff, or_assoc]
    simp

/-- The mask of all places below a bound. -/
theorem testBit_allBelow : (single n - 1).testBit j = true ↔ j < n := by
  rw [single, Nat.one_shiftLeft, Nat.testBit_two_pow_sub_one, decide_eq_true_iff]

end BitMask
