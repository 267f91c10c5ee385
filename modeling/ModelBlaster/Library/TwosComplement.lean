import Mathlib.Tactic.Linarith
import Mathlib.Tactic.Positivity
import Mathlib.Tactic.Ring

/-!
# Two's complement

Integers as registers of `w` bits hold them. Sums may be wrapped along the way or once at the end.

## Main definitions

* `wrap`: what the register holds;
* `Fits`: what it can hold.

## Main results

* `fits_wrap`, `wrap_eq_self`: a wrapped value fits, and a value that fits is not wrapped;
* `foldl_wrap_add`, `wrap_sum_wrap`: a running sum is the sum.
-/

namespace TwosComplement

variable {w : ℕ} {x y : ℤ}

/-- What a register of `w` bits holds for `x`. -/
def wrap (w : ℕ) (x : ℤ) : ℤ := x.bmod (2 ^ w)

/-- A register of `w` bits can hold `x`. -/
def Fits (w : ℕ) (x : ℤ) : Prop := -2 ^ (w - 1) ≤ x ∧ x < 2 ^ (w - 1)

instance : Decidable (Fits w x) := inferInstanceAs (Decidable (_ ∧ _))

/-- The values of a register: half of them are negative. -/
private theorem two_pow_eq (hw : 0 < w) : ((2 ^ w : ℕ) : ℤ) = 2 * 2 ^ (w - 1) := by
  obtain ⟨v, rfl⟩ : ∃ v, w = v + 1 := ⟨w - 1, by omega⟩
  push_cast
  ring

/-- A register holds what it can hold. -/
theorem fits_wrap (hw : 0 < w) (x : ℤ) : Fits w (wrap w x) := by
  have hpos : 0 < 2 ^ w := Nat.two_pow_pos w
  have htwo := two_pow_eq hw
  have hlo : -((2 ^ w : ℕ) / 2 : ℤ) ≤ x.bmod (2 ^ w) := Int.le_bmod hpos
  have hhi : x.bmod (2 ^ w) < ((2 ^ w : ℕ) + 1) / 2 := Int.bmod_lt hpos
  rw [Fits, wrap]
  omega

/-- A register holds what fits. -/
theorem wrap_eq_self (hw : 0 < w) (h : Fits w x) : wrap w x = x := by
  have htwo := two_pow_eq hw
  obtain ⟨hlo, hhi⟩ := h
  exact Int.bmod_eq_of_le (by omega) (by omega)

/-- A register can hold what an array of values that it can hold has at a place, or a zero. -/
theorem fits_getD {l : List ℤ} (h : ∀ v ∈ l, Fits w v) (i : ℕ) : Fits w (l.getD i 0) := by
  rw [List.getD_eq_getElem?_getD]
  cases hi : l[i]? with
  | none =>
    have hpos : (0 : ℤ) < 2 ^ (w - 1) := by positivity
    exact ⟨neg_nonpos.mpr hpos.le, hpos⟩
  | some v => exact h v (List.mem_of_getElem? hi)

/-- A right shift does not leave the register. -/
theorem fits_shiftRight (h : Fits w x) (n : ℕ) : Fits w (x >>> n) := by
  obtain ⟨hlo, hhi⟩ := h
  have hone : (1 : ℤ) ≤ 2 ^ n := one_le_pow₀ (by decide)
  rw [Fits, Int.shiftRight_eq_div_pow, Nat.cast_pow, Nat.cast_ofNat]
  constructor
  · exact (Int.le_ediv_iff_mul_le (by omega)).mpr (by nlinarith)
  · exact Int.ediv_lt_of_lt_mul (by omega) (by nlinarith)

/-- A value beyond the largest one comes out as a negative one. -/
theorem wrap_eq_sub (hw : 0 < w) (hlo : 2 ^ (w - 1) ≤ x) (hhi : x < 2 ^ w + 2 ^ (w - 1)) :
    wrap w x = x - 2 ^ w := by
  have htwo := two_pow_eq hw
  have hcast : ((2 ^ w : ℕ) : ℤ) = 2 ^ w := by push_cast; rfl
  have hsub : wrap w x = wrap w (x - 2 ^ w) := by
    rw [wrap, wrap, ← hcast, Int.sub_bmod_right]
  rw [hsub]
  exact wrap_eq_self hw ⟨by omega, by omega⟩

theorem wrap_wrap_add : wrap w (wrap w x + y) = wrap w (x + y) := Int.bmod_add_bmod

theorem wrap_add_wrap : wrap w (x + wrap w y) = wrap w (x + y) := Int.add_bmod_bmod

theorem wrap_wrap : wrap w (wrap w x) = wrap w x := Int.bmod_bmod

theorem wrap_mul_wrap : wrap w (wrap w x * wrap w y) = wrap w (x * y) := by
  rw [wrap, wrap, wrap, Int.bmod_mul_bmod, Int.mul_bmod_bmod]
  rfl

/-- A running sum of registers is the sum, wrapped once. -/
theorem foldl_wrap_add {α : Type} (f : α → ℤ) (l : List α) {init : ℤ} (hinit : wrap w init = init) :
    l.foldl (fun acc a => wrap w (acc + f a)) init = wrap w (init + (l.map f).sum) := by
  induction l generalizing init with
  | nil => simpa using hinit.symm
  | cons a rest ih =>
    rw [List.foldl_cons, ih wrap_wrap, wrap_wrap_add, List.map_cons, List.sum_cons, add_assoc]

/-- The terms of a sum may be wrapped as well. -/
theorem wrap_sum_wrap {α : Type} (f : α → ℤ) (l : List α) (init : ℤ) :
    wrap w (init + (l.map fun a => wrap w (f a)).sum) = wrap w (init + (l.map f).sum) := by
  induction l generalizing init with
  | nil => rfl
  | cons a rest ih =>
    rw [List.map_cons, List.sum_cons, ← add_assoc, ih, List.map_cons, List.sum_cons,
      add_right_comm, wrap_add_wrap, add_right_comm, add_assoc]

end TwosComplement
