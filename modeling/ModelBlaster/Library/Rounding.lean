import Mathlib.Algebra.Order.Floor.Ring
import Mathlib.Tactic.Positivity
import Mathlib.Tactic.Ring

/-!
# Rounding to the nearest integer

Two ways to break ties: away from zero, as `roundf` of C does, and to the even neighbour, as
`np.round` does. They differ at the ties whose smaller neighbour is even, and there by one.

## Main definitions

* `Nearest`: an integer at a distance of half a unit at most;
* `halfAway`, `halfEven`: the two roundings;
* `roundShift`: the rounding shift.

## Main results

* `nearest_halfEven`: the rounding to the even neighbour gives a nearest integer;
* `halfEven_eq_halfAway`: elsewhere they agree;
* `halfEven_of_tie`, `halfAway_of_tie`: at such a tie they do not;
* `nearest_roundShift`: a rounding shift gives a nearest integer;
* `abs_sub_roundShift_roundShift_le`: the error of two rounding shifts.
-/

namespace Rounding

/-- `z` is an integer next to `x`. -/
def Nearest {K : Type} [Field K] [LinearOrder K] (x : K) (z : ℤ) : Prop := |x - z| ≤ 1 / 2

variable {K : Type} [Field K] [LinearOrder K] [IsStrictOrderedRing K] [FloorRing K]

/-- Rounding to the nearest integer, ties away from zero. -/
def halfAway (x : K) : ℤ := if 0 ≤ x then ⌊x + 1 / 2⌋ else -⌊-x + 1 / 2⌋

/-- Rounding to the nearest integer, ties to the even one. -/
def halfEven (x : K) : ℤ :=
  if Int.fract x < 1 / 2 then ⌊x⌋
  else if 1 / 2 < Int.fract x then ⌊x⌋ + 1
  else if ⌊x⌋ % 2 = 0 then ⌊x⌋
  else ⌊x⌋ + 1

/-- Rounding to the even neighbour gives a nearest integer. -/
theorem nearest_halfEven (x : K) : Nearest x (halfEven x) := by
  have hx : (⌊x⌋ : K) + Int.fract x = x := Int.floor_add_fract x
  have hnonneg := Int.fract_nonneg x
  have hlt := Int.fract_lt_one x
  rw [Nearest, abs_le, halfEven]
  split_ifs
  all_goals
    push_cast
    constructor <;> linarith

/-- Away from zero, by the distance to the next smaller integer. -/
theorem halfAway_eq (x : K) :
    halfAway x = if Int.fract x < 1 / 2 ∨ x < 0 ∧ Int.fract x = 1 / 2 then ⌊x⌋ else ⌊x⌋ + 1 := by
  have hx : (⌊x⌋ : K) + Int.fract x = x := Int.floor_add_fract x
  have hnonneg := Int.fract_nonneg x
  have hlt := Int.fract_lt_one x
  unfold halfAway
  split_ifs with hpos hdown hdown
  · rw [Int.floor_eq_iff]
    rcases hdown with hdown | ⟨hneg, -⟩
    · constructor <;> linarith
    · exact absurd hpos (not_le.mpr hneg)
  · rw [not_or, not_lt] at hdown
    rw [Int.floor_eq_iff]
    push_cast
    constructor <;> linarith
  · rw [neg_eq_iff_eq_neg, Int.floor_eq_iff]
    push_cast
    rcases hdown with hdown | ⟨-, htie⟩ <;> constructor <;> linarith
  · rw [not_or, not_lt, not_and] at hdown
    have hne := hdown.2 (not_le.mp hpos)
    have hmore : 1 / 2 < Int.fract x := lt_of_le_of_ne hdown.1 (Ne.symm hne)
    rw [neg_eq_iff_eq_neg, Int.floor_eq_iff]
    push_cast
    constructor <;> linarith

/-- A tie whose smaller neighbour is even is rounded to that one. -/
theorem halfEven_of_tie (j : ℕ) :
    halfEven (2 * j + 1 / 2 : K) = 2 * j ∧ halfEven (-(2 * j + 1 / 2) : K) = -(2 * j) := by
  have hpos : ⌊(2 * j + 1 / 2 : K)⌋ = 2 * j := by
    rw [Int.floor_eq_iff]
    push_cast
    constructor <;> linarith
  have hneg : ⌊(-(2 * j + 1 / 2) : K)⌋ = -(2 * j) - 1 := by
    rw [Int.floor_eq_iff]
    push_cast
    constructor <;> linarith
  constructor
  · have hfract : Int.fract (2 * j + 1 / 2 : K) = 1 / 2 := by
      rw [← Int.self_sub_floor, hpos]
      push_cast
      ring
    rw [halfEven, hfract, hpos, if_neg (lt_irrefl _), if_neg (lt_irrefl _), if_pos (by omega)]
  · have hfract : Int.fract (-(2 * j + 1 / 2) : K) = 1 / 2 := by
      rw [← Int.self_sub_floor, hneg]
      push_cast
      ring
    rw [halfEven, hfract, hneg, if_neg (lt_irrefl _), if_neg (lt_irrefl _), if_neg (by omega)]
    omega

/-- A tie is rounded away from zero. -/
theorem halfAway_of_tie (j : ℕ) :
    halfAway (2 * j + 1 / 2 : K) = 2 * j + 1 ∧
      halfAway (-(2 * j + 1 / 2) : K) = -(2 * j + 1) := by
  have hnonneg : (0 : K) ≤ 2 * j + 1 / 2 := by positivity
  have hsum : ⌊(2 * j + 1 / 2 + 1 / 2 : K)⌋ = 2 * j + 1 := by
    rw [Int.floor_eq_iff]
    push_cast
    constructor <;> linarith
  constructor
  · rw [halfAway, if_pos hnonneg, hsum]
  · have hneg : ¬(0 : K) ≤ -(2 * j + 1 / 2) := by
      linarith
    rw [halfAway, if_neg hneg, neg_neg, hsum]

/-- Elsewhere the two roundings agree. -/
theorem halfEven_eq_halfAway {x : K} (h : ∀ j : ℕ, x ≠ 2 * j + 1 / 2 ∧ x ≠ -(2 * j + 1 / 2)) :
    halfEven x = halfAway x := by
  have hx : (⌊x⌋ : K) + Int.fract x = x := Int.floor_add_fract x
  rw [halfAway_eq, halfEven]
  rcases lt_trichotomy (Int.fract x) (1 / 2) with hdown | htie | hup
  · rw [if_pos hdown, if_pos (Or.inl hdown)]
  · rw [if_neg (by rw [htie]; exact lt_irrefl _), if_neg (by rw [htie]; exact lt_irrefl _)]
    have hor : Int.fract x < 1 / 2 ∨ x < 0 ∧ Int.fract x = 1 / 2 ↔ x < 0 := by
      simp [htie]
    simp only [hor]
    split_ifs with heven hneg hneg
    · rfl
    · -- A tie above zero with an even smaller neighbour.
      have hfloor : 0 ≤ ⌊x⌋ := Int.floor_nonneg.mpr (not_lt.mp hneg)
      obtain ⟨j, hj⟩ : ∃ j : ℕ, ⌊x⌋ = 2 * j := ⟨(⌊x⌋ / 2).toNat, by omega⟩
      refine absurd ?_ (h j).1
      rw [← hx, htie, hj]
      push_cast
      ring
    · -- A tie below zero with an even larger neighbour.
      have hfloor : ⌊x⌋ < 0 := Int.floor_lt_zero.mpr hneg
      obtain ⟨j, hj⟩ : ∃ j : ℕ, ⌊x⌋ = -(2 * j) - 1 := ⟨((-⌊x⌋ - 1) / 2).toNat, by omega⟩
      refine absurd ?_ (h j).2
      rw [← hx, htie, hj]
      push_cast
      ring
    · rfl
  · have hnot : ¬(Int.fract x < 1 / 2 ∨ x < 0 ∧ Int.fract x = 1 / 2) := by
      rintro (hlt | ⟨-, htie⟩)
      · exact absurd hup (not_lt.mpr hlt.le)
      · exact absurd htie (ne_of_gt hup)
    rw [if_neg (not_lt.mpr hup.le), if_pos hup, if_neg hnot]

end Rounding

/-! ## Fixed-point products -/

namespace Rounding

/-- A right shift by `n` bits that rounds: half a unit is added before. -/
def roundShift (p : ℤ) (n : ℕ) : ℤ := (p + 2 ^ n / 2) / 2 ^ n

@[simp]
theorem roundShift_zero (p : ℤ) : roundShift p 0 = p := by
  simp [roundShift]

/-- Half a unit is a power of two. -/
theorem roundShift_eq (p : ℤ) {n : ℕ} (hn : 0 < n) :
    roundShift p n = (p + 2 ^ (n - 1)) / 2 ^ n := by
  obtain ⟨k, rfl⟩ : ∃ k, n = k + 1 := ⟨n - 1, by omega⟩
  rw [roundShift, Nat.add_sub_cancel, pow_succ, Int.mul_ediv_cancel _ (by decide)]

theorem roundShift_mono (n : ℕ) {p q : ℤ} (h : p ≤ q) : roundShift p n ≤ roundShift q n :=
  Int.ediv_le_ediv (by positivity) (by omega)

variable {K : Type} [Field K] [LinearOrder K] [IsStrictOrderedRing K]

/-- A rounding shift gives a nearest integer. -/
theorem nearest_roundShift (p : ℤ) (n : ℕ) : Nearest ((p : K) / 2 ^ n) (roundShift p n) := by
  rcases Nat.eq_zero_or_pos n with rfl | hn
  · simp [Nearest]
  · obtain ⟨k, rfl⟩ : ∃ k, n = k + 1 := ⟨n - 1, by omega⟩
    have hdiv := Int.mul_ediv_add_emod (p + 2 ^ k) (2 ^ (k + 1))
    rw [roundShift_eq p hn, Nat.add_sub_cancel]
    set z := (p + 2 ^ k) / 2 ^ (k + 1)
    -- The distance to `z`, in units of `2 ^ (k + 1)`.
    have hlo : -(2 ^ k : ℤ) ≤ p - 2 ^ (k + 1) * z := by omega
    have hhi : p - 2 ^ (k + 1) * z ≤ (2 ^ k : ℤ) := by omega
    have hpow : (0 : K) < 2 ^ (k + 1) := by positivity
    have hdist : (p : K) / 2 ^ (k + 1) - z = ((p - 2 ^ (k + 1) * z : ℤ) : K) / 2 ^ (k + 1) := by
      push_cast
      field_simp
    have habs : |((p - 2 ^ (k + 1) * z : ℤ) : K)| ≤ 2 ^ k := by
      exact_mod_cast abs_le.mpr ⟨hlo, hhi⟩
    have hhalf : (1 / 2 : K) * 2 ^ (k + 1) = 2 ^ k := by
      ring
    rw [Nearest, hdist, abs_div, abs_of_pos hpow, div_le_iff₀ hpow, hhalf]
    exact habs

/-- Integers at a distance of one at most from `x` are neighbours of the nearest integers. -/
theorem Nearest.abs_sub_le {x : K} {y z : ℤ} (h : Nearest x z) (hy : |x - y| ≤ 1) :
    |y - z| ≤ 1 := by
  have hlt : |((y - z : ℤ) : K)| < (2 : ℤ) := by
    calc |((y - z : ℤ) : K)| = |(x - z) - (x - y)| := by push_cast; ring_nf
      _ ≤ |x - z| + |x - y| := abs_sub ..
      _ ≤ 1 / 2 + 1 := add_le_add h hy
      _ < (2 : ℤ) := by norm_num
  rw [← Int.cast_abs, Int.cast_lt] at hlt
  omega

/-- The error of two rounding shifts. The second one does not round if it drops nothing. -/
theorem abs_sub_roundShift_roundShift_le (p : ℤ) (a b : ℕ) :
    |(p : K) / 2 ^ (a + b) - roundShift (roundShift p a) b| ≤
      1 / 2 / 2 ^ b + if b = 0 then 0 else 1 / 2 := by
  have hpow : (0 : K) < 2 ^ b := by positivity
  have hfirst : |(p : K) / 2 ^ (a + b) - roundShift p a / 2 ^ b| ≤ 1 / 2 / 2 ^ b := by
    rw [pow_add, ← div_div, ← sub_div, abs_div, abs_of_pos hpow]
    exact div_le_div_of_nonneg_right (nearest_roundShift p a) hpow.le
  have hsecond : |(roundShift p a : K) / 2 ^ b - roundShift (roundShift p a) b| ≤
      if b = 0 then 0 else 1 / 2 := by
    split_ifs with hb
    · subst hb
      simp
    · exact nearest_roundShift (roundShift p a) b
  exact (abs_sub_le _ _ _).trans (add_le_add hfirst hsecond)

end Rounding
