import Mathlib.Algebra.Order.Field.Basic
import Mathlib.Data.Nat.Bitwise
import Mathlib.Tactic.Linarith
import Mathlib.Tactic.Ring

/-!
# Rounding to bfloat16

A bfloat16 number is a binary32 number whose low half is zero. `_bf16_hi` rounds a binary32 pattern
with one addition: between two neighbours of that kind the values of the patterns lie on a line,
also where the exponent changes, so that the nearest pattern has the nearest value.

## Main definitions

* `bf16Hi`, `roundBf16`, `bf16Bits`, `bf16Exact`: the functions of the source;
* `value`: the number of a pattern;
* `RoundsTo`: rounding to the nearest, with ties to even.

## Main results

* `bf16_rounds`: `_bf16_hi` rounds so; it is idempotent and monotone, and narrowing loses nothing.
-/

namespace ModelBlaster.Bfloat16

open List

/-! ### The source -/

/-- `nan` of `_bf16_hi`. -/
def isNan (u : BitVec 32) : Bool := 0x7F800000#32 < (u &&& 0x7FFFFFFF#32)

/-- `_bf16_hi` -/
def bf16Hi (u : BitVec 32) : BitVec 32 :=
  let r := (u + 0x7FFF#32 + ((u >>> 16) &&& 1#32)) &&& 0xFFFF0000#32
  if isNan u then (u ||| 0x400000#32) &&& 0xFFFF0000#32 else r

/-- `_BF16_CHUNK` -/
def chunk : ℕ := 2 ^ 24

/-- `for i in range(0, x.size, _BF16_CHUNK): out[i:i + _BF16_CHUNK] = f(u[i:i + _BF16_CHUNK])` -/
def chunked {α : Type} (f : BitVec 32 → α) (u : List (BitVec 32)) : List α :=
  (List.range ((u.length + (chunk - 1)) / chunk)).flatMap fun i =>
    ((u.drop (i * chunk)).take chunk).map f

/-- `round_bf16` -/
def roundBf16 (u : List (BitVec 32)) : List (BitVec 32) := chunked bf16Hi u

/-- `bf16_bits` -/
def bf16Bits (u : List (BitVec 32)) : List (BitVec 16) :=
  chunked (fun x => (bf16Hi x >>> 16).setWidth 16) u

/-- `bf16_exact` -/
def bf16Exact (u : List (BitVec 32)) : Bool := u.all fun x => x &&& 0xFFFF#32 == 0 || isNan x

/-! ### Numbers -/

/-- The number of a pattern without its sign, in units of the smallest subnormal. The pattern of the
infinity counts as the power of two behind the largest finite number. -/
def units (m : ℕ) : ℕ := if m / 2 ^ 23 = 0 then m else (2 ^ 23 + m % 2 ^ 23) * 2 ^ (m / 2 ^ 23 - 1)

/-- A pattern without its sign. -/
def magnitude (u : BitVec 32) : ℕ := u.toNat % 2 ^ 31

/-- The number of a pattern. -/
def value (u : BitVec 32) : ℚ := (if u.msb then -1 else 1) * units (magnitude u) / 2 ^ 149

def IsInf (u : BitVec 32) : Prop := magnitude u = 0x7F800000

def IsFinite (u : BitVec 32) : Prop := magnitude u < 0x7F800000

/-- The low half is zero. -/
def IsBf16 (u : BitVec 32) : Prop := u.toNat % 2 ^ 16 = 0

/-- Where rounding to nearest overflows: half a unit in the last place above the largest number. -/
def overflow : ℚ := 2 ^ 128 - 2 ^ 119

/-- A pattern is rounded to the nearest bfloat16 number, with ties to even. -/
structure RoundsTo (u r : BitVec 32) : Prop where
  isBf16 : IsBf16 r
  sign : r.msb = u.msb
  /-- A NaN is made quiet. -/
  nan : isNan u → isNan r ∧ r.getLsbD 22 = true
  inf : IsInf u → r = u
  tooLarge : IsFinite u → overflow ≤ |value u| → IsInf r
  finite : IsFinite u → |value u| < overflow → IsFinite r
  nearest : IsFinite u → |value u| < overflow → ∀ b, IsBf16 b → IsFinite b →
    |value u - value r| ≤ |value u - value b|
  even : IsFinite u → |value u| < overflow → ∀ b, IsBf16 b → IsFinite b →
    |value u - value r| = |value u - value b| → value b ≠ value r → r.getLsbD 16 = false

/-! ### Patterns as numbers -/

/-- The low half is cleared. -/
theorem toNat_and_high (x : BitVec 32) :
    (x &&& 0xFFFF0000#32).toNat = x.toNat / 2 ^ 16 * 2 ^ 16 := by
  apply Nat.eq_of_testBit_eq
  intro i
  have hx : x.toNat < 2 ^ 32 := x.isLt
  have hconst : (0xFFFF0000#32).toNat = (2 ^ 16 - 1) * 2 ^ 16 := rfl
  rw [BitVec.toNat_and, hconst, Nat.testBit_and, Nat.testBit_mul_two_pow, Nat.testBit_mul_two_pow,
    Nat.testBit_two_pow_sub_one, Nat.testBit_div_two_pow]
  by_cases hi : 16 ≤ i
  · by_cases hi' : i < 32
    · simp [hi, show i - 16 < 16 by omega]
    · simp [hi, Nat.testBit_lt_two_pow (hx.trans_le (Nat.pow_le_pow_right two_pos (not_lt.mp hi')))]
  · simp [hi]

theorem magnitude_eq (u : BitVec 32) : (u &&& 0x7FFFFFFF#32).toNat = magnitude u := by
  exact Nat.and_two_pow_sub_one_eq_mod u.toNat 31

variable {u : BitVec 32}

theorem isNan_iff : isNan u = true ↔ 0x7F800000 < magnitude u := by
  rw [isNan, decide_eq_true_iff, BitVec.lt_def, magnitude_eq]
  rfl

/-- A pattern has its sign in front. -/
theorem toNat_eq (u : BitVec 32) : u.toNat = (if u.msb then 2 ^ 31 else 0) + magnitude u := by
  rw [BitVec.msb_eq_decide, magnitude]
  split_ifs with h <;> simp only [decide_eq_true_eq] at h <;> omega

theorem eq_of_magnitude {v : BitVec 32} (hsign : u.msb = v.msb) (h : magnitude u = magnitude v) :
    u = v := by
  apply BitVec.eq_of_toNat_eq
  rw [toNat_eq, toNat_eq v, hsign, h]

/-- The pattern of the nearest multiple, with ties to even. -/
def nearest (m : ℕ) : ℕ := (m + 0x7FFF + m / 2 ^ 16 % 2) / 2 ^ 16 * 2 ^ 16

theorem nearest_le {m : ℕ} (h : m ≤ 0x7F800000) : nearest m ≤ 0x7F800000 := by
  unfold nearest
  omega

/-- Without a NaN nothing wraps, and the sign is not touched. -/
theorem toNat_bf16Hi (h : isNan u = false) :
    (bf16Hi u).toNat = (if u.msb then 2 ^ 31 else 0) + nearest (magnitude u) := by
  have hm : magnitude u ≤ 0x7F800000 := by
    rw [← not_lt, ← isNan_iff, h]
    exact Bool.false_ne_true
  have hbit : ((u >>> 16) &&& 1#32).toNat = u.toNat / 2 ^ 16 % 2 := by
    rw [BitVec.toNat_and, BitVec.toNat_ushiftRight, Nat.shiftRight_eq_div_pow]
    exact Nat.and_one_is_mod _
  have hu := toNat_eq u
  rw [bf16Hi, if_neg (by simp [h]), toNat_and_high, BitVec.toNat_add, BitVec.toNat_add, hbit,
    show (0x7FFF#32).toNat = 0x7FFF from rfl]
  have hlow : u.toNat / 2 ^ 16 % 2 = magnitude u / 2 ^ 16 % 2 := by
    split_ifs at hu <;> omega
  have hsmall : u.toNat + 0x7FFF + 1 < 2 ^ 32 := by
    split_ifs at hu <;> omega
  rw [hlow, Nat.mod_eq_of_lt (by omega), Nat.mod_eq_of_lt (by omega), nearest, hu]
  split_ifs <;> omega

theorem bf16Hi_spec (h : isNan u = false) :
    (bf16Hi u).msb = u.msb ∧ magnitude (bf16Hi u) = nearest (magnitude u) := by
  have hm : magnitude u ≤ 0x7F800000 := by
    rw [← not_lt, ← isNan_iff, h]
    exact Bool.false_ne_true
  have hle := nearest_le hm
  have hr := toNat_bf16Hi h
  constructor
  · rw [BitVec.msb_eq_decide, hr]
    split_ifs with hsign
    · rw [hsign]
      exact decide_eq_true (Nat.le_add_right _ _)
    · rw [Bool.eq_false_iff.mpr hsign]
      exact decide_eq_false (by omega)
  · rw [magnitude, hr]
    split_ifs <;> omega

/-- A NaN stays one, and is quiet. -/
theorem bf16Hi_nan (h : isNan u = true) : IsBf16 (bf16Hi u) ∧
    (bf16Hi u).msb = u.msb ∧ isNan (bf16Hi u) = true ∧ (bf16Hi u).getLsbD 22 = true := by
  have hr : bf16Hi u = (u ||| 0x400000#32) &&& 0xFFFF0000#32 := by rw [bf16Hi, if_pos h]
  have hquiet : (bf16Hi u).getLsbD 22 = true := by
    rw [hr, BitVec.getLsbD_and, BitVec.getLsbD_or]
    simp
  refine ⟨?_, ?_, ?_, hquiet⟩
  · rw [IsBf16, hr, toNat_and_high]
    exact Nat.mul_mod_left _ _
  · rw [hr, BitVec.msb_and, BitVec.msb_or]
    show ((u.msb || false) && true) = u.msb
    rw [Bool.or_false, Bool.and_true]
  · -- the exponent is that of the NaN, and the bit behind it is set
    have hexp : (u.toNat ||| 0x400000) / 2 ^ 23 = u.toNat / 2 ^ 23 := by
      rw [← Nat.shiftRight_eq_div_pow, Nat.shiftRight_or_distrib, Nat.shiftRight_eq_div_pow]
      exact Nat.or_zero _
    have hbit : (bf16Hi u).toNat / 2 ^ 22 % 2 = 1 := by
      rwa [BitVec.getLsbD, Nat.testBit_eq_decide_div_mod_eq, decide_eq_true_iff] at hquiet
    have hnat : (bf16Hi u).toNat = (u.toNat ||| 0x400000) / 2 ^ 16 * 2 ^ 16 := by
      rw [hr, toNat_and_high, BitVec.toNat_or]
      rfl
    rw [isNan_iff] at h ⊢
    unfold magnitude at *
    omega

/-! ### Neighbours -/

/-- The distance of neighbouring numbers. -/
def ulp (h : ℕ) : ℕ := 2 ^ (h / 2 ^ 7 - 1)

/-- Between two bfloat16 numbers the values lie on a line. -/
theorem units_add {h k : ℕ} (hk : k ≤ 2 ^ 16) :
    units (h * 2 ^ 16 + k) = units (h * 2 ^ 16) + k * ulp h := by
  have hdiv : h * 2 ^ 16 / 2 ^ 23 = h / 2 ^ 7 := by
    omega
  have hmod : h * 2 ^ 16 % 2 ^ 23 = h % 2 ^ 7 * 2 ^ 16 := by
    omega
  unfold units ulp
  rw [hdiv, hmod]
  clear hdiv hmod
  by_cases hcarry : h % 2 ^ 7 * 2 ^ 16 + k < 2 ^ 23
  · -- the exponent does not change
    have hdiv' : (h * 2 ^ 16 + k) / 2 ^ 23 = h / 2 ^ 7 := by
      omega
    have hmod' : (h * 2 ^ 16 + k) % 2 ^ 23 = h % 2 ^ 7 * 2 ^ 16 + k := by
      omega
    rw [hdiv', hmod']
    split_ifs with he
    · rw [he, Nat.zero_sub, pow_zero, mul_one]
    · ring
  · -- the next exponent begins
    have hdiv' : (h * 2 ^ 16 + k) / 2 ^ 23 = h / 2 ^ 7 + 1 := by
      omega
    have hmod' : (h * 2 ^ 16 + k) % 2 ^ 23 = 0 := by
      omega
    have hsum : h % 2 ^ 7 * 2 ^ 16 + k = 2 ^ 23 := by
      omega
    rw [hdiv', hmod', if_neg (Nat.succ_ne_zero _), Nat.add_sub_cancel, add_zero]
    split_ifs with he
    · rw [he, pow_zero, mul_one, mul_one, ← hsum]
      omega
    · obtain ⟨e, he'⟩ := Nat.exists_eq_succ_of_ne_zero he
      rw [he', Nat.succ_sub_one]
      calc 2 ^ 23 * 2 ^ (e + 1) = (2 ^ 23 + 2 ^ 23) * 2 ^ e := by ring
        _ = (2 ^ 23 + (h % 2 ^ 7 * 2 ^ 16 + k)) * 2 ^ e := by rw [hsum]
        _ = (2 ^ 23 + h % 2 ^ 7 * 2 ^ 16) * 2 ^ e + k * 2 ^ e := by ring

theorem units_strictMono : StrictMono units := by
  refine strictMono_nat_of_lt_succ fun m => ?_
  have hm := units_add (h := m / 2 ^ 16) (k := m % 2 ^ 16) (Nat.mod_lt _ (by norm_num)).le
  have hm' := units_add (h := m / 2 ^ 16) (k := m % 2 ^ 16 + 1) (Nat.mod_lt _ (by norm_num))
  rw [Nat.div_add_mod'] at hm
  rw [← add_assoc, Nat.div_add_mod'] at hm'
  rw [hm, hm', Nat.add_lt_add_iff_left, Nat.succ_mul]
  exact Nat.lt_add_of_pos_right (Nat.two_pow_pos _)

/-! ### The nearest number -/

/-- Where a number lies between its neighbours, and which of them is chosen. -/
theorem nearest_cases (m : ℕ) : ∃ h a b : ℕ, units m = units (h * 2 ^ 16) + a ∧
    units ((h + 1) * 2 ^ 16) = units m + b ∧ h = m / 2 ^ 16 ∧ 0 < b ∧
    (nearest m = h * 2 ^ 16 ∧ a ≤ b ∧ (a = b → h % 2 = 0) ∨
      nearest m = (h + 1) * 2 ^ 16 ∧ b ≤ a ∧ (a = b → (h + 1) % 2 = 0)) := by
  have hk : m % 2 ^ 16 < 2 ^ 16 := Nat.mod_lt _ (by norm_num)
  have hm := units_add (h := m / 2 ^ 16) hk.le
  have hup := units_add (h := m / 2 ^ 16) (k := 2 ^ 16) le_rfl
  rw [Nat.div_add_mod'] at hm
  have hulp : 0 < ulp (m / 2 ^ 16) := Nat.two_pow_pos _
  refine ⟨m / 2 ^ 16, m % 2 ^ 16 * ulp (m / 2 ^ 16), (2 ^ 16 - m % 2 ^ 16) * ulp (m / 2 ^ 16), hm,
    ?_, rfl, Nat.mul_pos (by omega) hulp, ?_⟩
  · rw [Nat.succ_mul, hup, hm, add_assoc, ← Nat.add_mul, Nat.add_sub_cancel' hk.le]
  · have heq : ∀ {x y : ℕ}, x * ulp (m / 2 ^ 16) = y * ulp (m / 2 ^ 16) → x = y :=
      fun h => Nat.eq_of_mul_eq_mul_right hulp h
    unfold nearest
    by_cases hlow : m % 2 ^ 16 < 2 ^ 15 ∨ m % 2 ^ 16 = 2 ^ 15 ∧ m / 2 ^ 16 % 2 = 0
    · refine .inl ⟨by omega, Nat.mul_le_mul_right _ (by omega), fun h => ?_⟩
      have hhalf := heq h
      omega
    · refine .inr ⟨by omega, Nat.mul_le_mul_right _ (by omega), fun h => ?_⟩
      have hhalf := heq h
      omega

/-- The chosen neighbour is the nearest, also among numbers of the other sign. -/
theorem nearest_spec (m : ℕ) {c : ℕ} (hc : c % 2 ^ 16 = 0) (s : ℤ) (hs : s = 1 ∨ s = -1) :
    |(units m : ℤ) - units (nearest m)| ≤ |(units m : ℤ) - s * units c| ∧
      (|(units m : ℤ) - units (nearest m)| = |(units m : ℤ) - s * units c| →
        s * units c ≠ (units (nearest m) : ℤ) → nearest m / 2 ^ 16 % 2 = 0) := by
  obtain ⟨h, a, b, hm, hup, hh, hb, hcase⟩ := nearest_cases m
  have hbelow : c ≤ h * 2 ^ 16 → units c ≤ units (h * 2 ^ 16) := fun hle =>
    units_strictMono.monotone hle
  have habove : (h + 1) * 2 ^ 16 ≤ c → units ((h + 1) * 2 ^ 16) ≤ units c := fun hle =>
    units_strictMono.monotone hle
  have hside : c ≤ h * 2 ^ 16 ∨ (h + 1) * 2 ^ 16 ≤ c := by omega
  have hc' : units c ≤ units (h * 2 ^ 16) ∨ units ((h + 1) * 2 ^ 16) ≤ units c :=
    hside.imp hbelow habove
  -- the other number, which is at most zero if its sign is the other one
  have hx : s * units c ≤ (units (h * 2 ^ 16) : ℤ) ∨
      (units ((h + 1) * 2 ^ 16) : ℤ) ≤ s * units c := by
    rcases hs with rfl | rfl <;> omega
  clear hc' hs hc
  simp only [Int.abs_eq_natAbs]
  rcases hcase with ⟨hn, hle, heven⟩ | ⟨hn, hle, heven⟩
  · rw [hn, Nat.mul_div_cancel _ (by norm_num)]
    constructor
    · omega
    · intro heq hne
      apply heven
      omega
  · rw [hn, Nat.mul_div_cancel _ (by norm_num)]
    constructor
    · omega
    · intro heq hne
      apply heven
      omega

/-! ### Values -/

/-- The number of a pattern, in units. -/
def signedUnits (u : BitVec 32) : ℤ := (if u.msb then -1 else 1) * units (magnitude u)

theorem value_eq (u : BitVec 32) : value u = (signedUnits u : ℚ) / 2 ^ 149 := by
  rw [value, signedUnits]
  push_cast
  split_ifs <;> rfl

theorem abs_value (u : BitVec 32) : |value u| = (units (magnitude u) : ℚ) / 2 ^ 149 := by
  rw [value_eq, abs_div, abs_of_pos (show (0 : ℚ) < 2 ^ 149 by positivity), signedUnits]
  split_ifs <;> simp

/-- Distances are compared in units. -/
theorem abs_value_sub (u v : BitVec 32) :
    |value u - value v| = (|signedUnits u - signedUnits v| : ℤ) / 2 ^ 149 := by
  rw [value_eq, value_eq, ← sub_div, abs_div, abs_of_pos (show (0 : ℚ) < 2 ^ 149 by positivity)]
  push_cast
  rfl

/-- Rounding overflows from the middle between the largest number and the next power of two on. -/
theorem abs_value_lt_overflow (u : BitVec 32) :
    |value u| < overflow ↔ magnitude u < 0x7F7F8000 := by
  have hoverflow : overflow = (units 0x7F7F8000 : ℚ) / 2 ^ 149 := by
    have hunits : units 0x7F7F8000 = (2 ^ 23 + 0x7F8000) * 2 ^ 253 := rfl
    rw [hunits, overflow]
    norm_num
  rw [abs_value, hoverflow, div_lt_div_iff_of_pos_right (by positivity), Nat.cast_lt,
    units_strictMono.lt_iff_lt]

/-- The distance to a number, which may have the other sign. -/
theorem exists_sign (u b : BitVec 32) : ∃ s : ℤ, (s = 1 ∨ s = -1) ∧
    |signedUnits u - signedUnits b| = |(units (magnitude u) : ℤ) - s * units (magnitude b)| ∧
    (u.msb = b.msb → s = 1) ∧
    ∀ v, v.msb = u.msb → (signedUnits b = signedUnits v ↔
      s * (units (magnitude b) : ℤ) = units (magnitude v)) := by
  refine ⟨if u.msb = b.msb then 1 else -1, by split_ifs <;> simp, ?_, fun h => if_pos h, ?_⟩
  · unfold signedUnits
    cases u.msb <;> cases b.msb <;>
      simp only [Int.abs_eq_natAbs, Bool.false_eq_true, Bool.true_eq_false, if_true, if_false] <;>
      omega
  · intro v hv
    unfold signedUnits
    rw [hv]
    cases u.msb <;> cases b.msb <;> simp

/-- `_bf16_hi` rounds to the nearest number. -/
theorem bf16Hi_rounds (u : BitVec 32) : RoundsTo u (bf16Hi u) := by
  cases hnan : isNan u with
  | true =>
    obtain ⟨hbf16, hsign, hnan', hquiet⟩ := bf16Hi_nan hnan
    have hm := isNan_iff.mp hnan
    have hfin : ¬IsFinite u := fun h => absurd h (not_lt.mpr hm.le)
    exact {
      isBf16 := hbf16
      sign := hsign
      nan := fun _ => ⟨hnan', hquiet⟩
      inf := fun h => absurd h hm.ne'
      tooLarge := fun h => absurd h hfin
      finite := fun h => absurd h hfin
      nearest := fun h => absurd h hfin
      even := fun h => absurd h hfin }
  | false =>
    obtain ⟨hsign, hmag⟩ := bf16Hi_spec hnan
    have hspec : ∀ b, IsBf16 b → |value u - value (bf16Hi u)| ≤ |value u - value b| ∧
        (|value u - value (bf16Hi u)| = |value u - value b| → value b ≠ value (bf16Hi u) →
          nearest (magnitude u) / 2 ^ 16 % 2 = 0) := by
      intro b hb
      obtain ⟨s, hs, hdist, -, hval⟩ := exists_sign u b
      obtain ⟨s', -, hdist', hone, -⟩ := exists_sign u (bf16Hi u)
      have hc : magnitude b % 2 ^ 16 = 0 := by
        unfold magnitude
        unfold IsBf16 at hb
        omega
      obtain ⟨hle, heven⟩ := nearest_spec (magnitude u) hc s hs
      rw [hone hsign.symm, one_mul, hmag] at hdist'
      rw [← hdist, ← hdist'] at hle heven
      rw [abs_value_sub, abs_value_sub, div_le_div_iff_of_pos_right (by positivity),
        div_left_inj' (by positivity), Int.cast_le, Int.cast_inj]
      refine ⟨hle, fun heq hne => heven heq fun hsame => hne ?_⟩
      rw [← hmag] at hsame
      rw [value_eq, value_eq, (hval _ hsign).mpr hsame]
    have hbit : (bf16Hi u).toNat / 2 ^ 16 % 2 = nearest (magnitude u) / 2 ^ 16 % 2 := by
      rw [toNat_bf16Hi hnan]
      split_ifs <;> omega
    exact {
      isBf16 := by
        rw [IsBf16, toNat_bf16Hi hnan, nearest]
        split_ifs <;> omega
      sign := hsign
      nan := fun h => absurd h (by simp [hnan])
      inf := by
        intro h
        refine eq_of_magnitude hsign ?_
        rw [hmag, show magnitude u = 0x7F800000 from h]
        rfl
      tooLarge := by
        intro h hlarge
        rw [← not_lt, abs_value_lt_overflow] at hlarge
        unfold IsFinite at h
        rw [IsInf, hmag, nearest]
        omega
      finite := by
        intro h hsmall
        rw [abs_value_lt_overflow] at hsmall
        rw [IsFinite, hmag, nearest]
        omega
      nearest := fun _ _ b hb _ => (hspec b hb).1
      even := by
        intro _ _ b hb _ heq hne
        rw [BitVec.getLsbD, Nat.testBit_eq_decide_div_mod_eq, hbit, (hspec b hb).2 heq hne]
        rfl }

/-! ### Arrays -/

/-- The chunks are all of the array. -/
theorem chunked_eq {α : Type} (f : BitVec 32 → α) (u : List (BitVec 32)) :
    chunked f u = u.map f := by
  have htake : ∀ k, (List.range k).flatMap (fun i => (u.drop (i * chunk)).take chunk) =
      u.take (k * chunk) := by
    intro k
    induction k with
    | zero => simp
    | succ k ih => rw [range_succ, flatMap_append, ih, flatMap_singleton, Nat.succ_mul, take_add]
  have hlen : u.length ≤ (u.length + (chunk - 1)) / chunk * chunk := by
    unfold chunk
    omega
  rw [chunked, ← map_flatMap, htake, take_of_length_le hlen]

/-- What is a bfloat16 number is not changed, and nothing else is kept. -/
theorem bf16Hi_eq_self_iff (h : isNan u = false) :
    bf16Hi u = u ↔ u &&& 0xFFFF#32 = 0 := by
  have hlow : u &&& 0xFFFF#32 = 0 ↔ magnitude u % 2 ^ 16 = 0 := by
    rw [← BitVec.toNat_inj, BitVec.toNat_and, show (0xFFFF#32).toNat = 2 ^ 16 - 1 from rfl,
      Nat.and_two_pow_sub_one_eq_mod, magnitude]
    show u.toNat % 2 ^ 16 = 0 ↔ _
    omega
  obtain ⟨hsign, hmag⟩ := bf16Hi_spec h
  rw [hlow]
  constructor
  · intro heq
    rw [← heq, hmag, nearest]
    exact Nat.mul_mod_left _ _
  · intro hzero
    refine eq_of_magnitude hsign ?_
    rw [hmag, nearest]
    omega

theorem bf16Hi_idem (u : BitVec 32) : bf16Hi (bf16Hi u) = bf16Hi u := by
  have hlow := (bf16Hi_rounds u).isBf16
  cases h : isNan (bf16Hi u) with
  | false =>
    refine (bf16Hi_eq_self_iff h).mpr ?_
    rw [← BitVec.toNat_inj, BitVec.toNat_and, show (0xFFFF#32).toNat = 2 ^ 16 - 1 from rfl,
      Nat.and_two_pow_sub_one_eq_mod]
    exact hlow
  | true =>
    cases hu : isNan u with
    | false =>
      rw [isNan_iff, (bf16Hi_spec hu).2] at h
      have hm : magnitude u ≤ 0x7F800000 := by
        rw [← not_lt, ← isNan_iff, hu]
        exact Bool.false_ne_true
      exact absurd h (not_lt.mpr (nearest_le hm))
    | true =>
      have hquiet : ∀ v, isNan v = true → bf16Hi v = (v ||| 0x400000#32) &&& 0xFFFF0000#32 :=
        fun v hv => by rw [bf16Hi, if_pos hv]
      rw [hquiet _ h, hquiet u hu]
      ext i hi
      simp only [BitVec.getElem_and, BitVec.getElem_or]
      cases u[i] <;> cases (0x400000#32)[i] <;> cases (0xFFFF0000#32)[i] <;> rfl

theorem nearest_mono {m m' : ℕ} (h : m ≤ m') : nearest m ≤ nearest m' := by
  unfold nearest
  have hdiv : m / 2 ^ 16 ≤ m' / 2 ^ 16 := Nat.div_le_div_right h
  rcases hdiv.eq_or_lt with heq | hlt
  · rw [heq]
    omega
  · omega

/-- What rounding promises of every pattern and of every array. The infinities count as numbers
beyond the finite ones where patterns are compared. -/
structure Bf16Rounds : Prop where
  rounds : ∀ u, RoundsTo u (bf16Hi u)
  roundBf16_eq : ∀ xs, roundBf16 xs = xs.map bf16Hi
  idempotent : ∀ xs, roundBf16 (roundBf16 xs) = roundBf16 xs
  monotone : ∀ u v, isNan u = false → isNan v = false → value u ≤ value v →
    value (bf16Hi u) ≤ value (bf16Hi v)
  exact_iff : ∀ xs, bf16Exact xs = true ↔
    ∀ p ∈ xs.zip (roundBf16 xs), p.2 = p.1 ∨ isNan p.1 = true
  /-- The halves that are stored give the rounded numbers back. -/
  bits : ∀ xs, (bf16Bits (roundBf16 xs)).map (fun b : BitVec 16 => b.setWidth 32 <<< (16 : ℕ)) =
    roundBf16 xs

theorem bf16_rounds : Bf16Rounds where
  rounds := bf16Hi_rounds
  roundBf16_eq := chunked_eq bf16Hi
  idempotent := by
    intro xs
    unfold roundBf16
    rw [chunked_eq, chunked_eq, map_map]
    exact map_congr_left fun u _ => bf16Hi_idem u
  monotone := by
    intro u v hu hv h
    obtain ⟨hsu, hmu⟩ := bf16Hi_spec hu
    obtain ⟨hsv, hmv⟩ := bf16Hi_spec hv
    rw [value_eq, value_eq, div_le_div_iff_of_pos_right (by positivity), Int.cast_le] at h ⊢
    unfold signedUnits at h ⊢
    rw [hsu, hsv, hmu, hmv]
    have hle : ∀ {m n : ℕ}, units m ≤ units n → units (nearest m) ≤ units (nearest n) :=
      fun h => units_strictMono.monotone (nearest_mono (units_strictMono.le_iff_le.mp h))
    have hzero : ∀ {m : ℕ}, units m = 0 → units (nearest m) = 0 :=
      fun h => Nat.le_zero.mp (hle (n := 0) h.le)
    cases hs : u.msb <;> cases hs' : v.msb <;> rw [hs, hs'] at h <;>
      simp only [Bool.false_eq_true, if_true, if_false, one_mul, neg_one_mul, neg_le_neg_iff] at h ⊢
    · exact_mod_cast hle (by exact_mod_cast h)
    · have hu0 := hzero (m := magnitude u) (by omega)
      have hv0 := hzero (m := magnitude v) (by omega)
      omega
    · omega
    · exact_mod_cast hle (by exact_mod_cast h)
  exact_iff := by
    intro xs
    rw [bf16Exact, all_eq_true, roundBf16, chunked_eq]
    have hone : ∀ x, (x &&& 0xFFFF#32 == 0 || isNan x) = true ↔ bf16Hi x = x ∨ isNan x = true := by
      intro x
      rw [Bool.or_eq_true, beq_iff_eq]
      cases hx : isNan x with
      | false => rw [bf16Hi_eq_self_iff hx]
      | true => simp
    induction xs with
    | nil => simp
    | cons x xs ih =>
      rw [forall_mem_cons, map_cons, zip_cons_cons, forall_mem_cons, hone]
      exact and_congr_right fun _ => ih
  bits := by
    intro xs
    unfold bf16Bits roundBf16
    rw [chunked_eq, chunked_eq, map_map, map_map]
    refine map_congr_left fun u _ => ?_
    have hlow : (bf16Hi u).toNat % 2 ^ 16 = 0 := (bf16Hi_rounds u).isBf16
    show ((bf16Hi (bf16Hi u) >>> 16).setWidth 16).setWidth 32 <<< (16 : ℕ) = bf16Hi u
    rw [bf16Hi_idem]
    apply BitVec.eq_of_toNat_eq
    simp only [BitVec.toNat_shiftLeft, BitVec.toNat_setWidth, BitVec.toNat_ushiftRight,
      Nat.shiftLeft_eq, Nat.shiftRight_eq_div_pow]
    omega

end ModelBlaster.Bfloat16
