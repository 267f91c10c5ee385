import Mathlib.Data.Nat.ModEq
import Mathlib.Algebra.BigOperators.Ring.List
import Mathlib.Tactic.Linarith
import Mathlib.Tactic.Ring

/-!
# Mixed radix

Numbers in a mixed radix whose last digit counts units, where each digit has a weight of its own:
the elements of a tensor, whose digits are coordinates and whose weights are strides. Digits of a
sum are the sums of the digits as long as there are no carries. With carries, each of them counts
one more at the digit it goes into and one radix less at the digit it comes from.

## Main definitions

* `radix`: the numbers that the digits can tell apart;
* `value`: the digits of a number, by their weights;
* `carry`: the carry at a place, when numbers are added;
* `excess`: what the carries change, by the weights.

## Main results

* `value_append`: leading and trailing digits;
* `value_sum`: the value of a sum.
-/

namespace MixedRadix

open List

/-- The numbers that digits can tell apart. -/
def radix (dims : List (ℕ × ℕ)) : ℕ := (dims.map Prod.fst).prod

@[simp]
theorem radix_nil : radix [] = 1 := rfl

@[simp]
theorem radix_cons (x : ℕ × ℕ) (dims : List (ℕ × ℕ)) : radix (x :: dims) = x.1 * radix dims := by
  rw [radix, map_cons, prod_cons, radix]

theorem radix_append (xs ys : List (ℕ × ℕ)) : radix (xs ++ ys) = radix xs * radix ys := by
  rw [radix, map_append, prod_append, radix, radix]

variable {dims : List (ℕ × ℕ)} {d c : ℕ}

theorem radix_pos (h : ∀ x ∈ dims, 0 < x.1) : 0 < radix dims := by
  induction dims with
  | nil => exact Nat.one_pos
  | cons x dims ih =>
    rw [forall_mem_cons] at h
    exact Nat.mul_pos h.1 (ih h.2)

/-- The digits of a number, by their weights. -/
def value : List (ℕ × ℕ) → ℕ → ℕ
  | [], _ => 0
  | (d, s) :: dims, p => p / radix dims % d * s + value dims p

@[simp]
theorem value_nil (p : ℕ) : value [] p = 0 := rfl

theorem value_cons (d s : ℕ) (dims : List (ℕ × ℕ)) (p : ℕ) :
    value ((d, s) :: dims) p = p / radix dims % d * s + value dims p := rfl

/-- Leading and trailing digits. -/
theorem value_append (xs ys : List (ℕ × ℕ)) (p : ℕ) :
    value (xs ++ ys) p = value xs (p / radix ys) + value ys p := by
  induction xs with
  | nil => simp
  | cons x xs ih =>
    rw [cons_append, value_cons, value_cons, ih, radix_append, Nat.mul_comm (radix xs),
      Nat.div_div_eq_div_mul, Nat.add_assoc]

/-- Only the digits matter. -/
theorem value_mod (dims : List (ℕ × ℕ)) (p : ℕ) : value dims (p % radix dims) = value dims p := by
  induction dims generalizing p with
  | nil => rfl
  | cons x dims ih =>
    obtain ⟨d, s⟩ := x
    rw [value_cons, value_cons, radix_cons, Nat.mod_mul_left_div_self, Nat.mod_mod,
      ← ih (p % (d * radix dims)), Nat.mod_mul_left_mod, ih]

/-- A single digit. -/
theorem value_singleton {p : ℕ} (s : ℕ) (h : p < d) : value [(d, s)] p = p * s := by
  rw [value_cons, radix_nil, Nat.div_one, Nat.mod_eq_of_lt h, value_nil, Nat.add_zero]

/-- The carry into the place that counts `c`, when numbers are added. -/
def carry (c : ℕ) (ms : List ℕ) : ℕ := (ms.map (· % c)).sum / c

/-- The quotient of a sum: the quotients, and the carry. -/
theorem sum_div (hc : 0 < c) (ms : List ℕ) :
    ms.sum / c = (ms.map (· / c)).sum + carry c ms := by
  have hsum : ms.sum = c * (ms.map (· / c)).sum + (ms.map (· % c)).sum := by
    induction ms with
    | nil => rfl
    | cons m ms ih =>
      rw [sum_cons, map_cons, map_cons, sum_cons, sum_cons, ih]
      have hm := Nat.div_add_mod m c
      rw [Nat.mul_add]
      omega
  rw [carry, hsum, Nat.mul_add_div hc]

/-- What the carries change when numbers are added: at each digit one more for a carry that comes
in, and the radix less for one that goes out. -/
def excess : List (ℕ × ℕ) → List ℕ → ℤ
  | [], _ => 0
  | (d, s) :: dims, ms =>
    ((carry (radix dims) ms : ℤ) - d * carry (d * radix dims) ms) * s + excess dims ms

/-- A digit of a sum. -/
theorem digit_sum (hd : 0 < d) (hc : 0 < c) (ms : List ℕ) :
    ((ms.sum / c % d : ℕ) : ℤ) =
      ((ms.map fun m => m / c % d).sum : ℕ) + ((carry c ms : ℤ) - d * carry (d * c) ms) := by
  have hdigits : ((ms.map fun m => m / c % d).sum : ℕ) + d * (ms.map (· / (d * c))).sum =
      (ms.map (· / c)).sum := by
    induction ms with
    | nil => rfl
    | cons m ms ih =>
      simp only [map_cons, sum_cons]
      have hm := Nat.mod_add_div (m / c) d
      rw [Nat.div_div_eq_div_mul, Nat.mul_comm c d] at hm
      rw [Nat.mul_add]
      omega
  have hquot := Nat.mod_add_div (ms.sum / c) d
  rw [Nat.div_div_eq_div_mul, Nat.mul_comm c d, sum_div hc, sum_div (Nat.mul_pos hd hc),
    Nat.mul_add] at hquot
  rw [← sum_div hc] at hquot
  have hdiv := sum_div hc ms
  zify at hquot hdiv hdigits ⊢
  linarith

/-- The value of a sum: the values, and what the carries change. -/
theorem value_sum (h : ∀ x ∈ dims, 0 < x.1) (ms : List ℕ) :
    (value dims ms.sum : ℤ) = ((ms.map (value dims)).sum : ℕ) + excess dims ms := by
  induction dims with
  | nil => simp [value, excess]
  | cons x dims ih =>
    obtain ⟨d, s⟩ := x
    rw [forall_mem_cons] at h
    have hdigit := digit_sum h.1 (radix_pos h.2) ms
    have hsplit : (ms.map (value ((d, s) :: dims))).sum =
        (ms.map fun m => m / radix dims % d).sum * s + (ms.map (value dims)).sum := by
      rw [← sum_map_mul_right, ← sum_map_add]
      rfl
    rw [value_cons, excess, hsplit, Nat.cast_add, Nat.cast_mul, hdigit, ih h.2]
    push_cast
    ring

end MixedRadix
