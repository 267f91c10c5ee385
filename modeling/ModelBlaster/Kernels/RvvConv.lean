import ModelBlaster.Kernels.RvvReduce

/-!
# The vector kernels over output channels

`kernel_conv2d_s8` of the algorithms `rvv_vsmul_vnclip` and `rvv_oc_blocked`. The lanes of a vector
are output channels, so every lane has an accumulator of its own and no tail is read. The second
kernel goes through the output once for every tile of channels.

## Main definitions

* `vectorElement`: an element of `vout8`, from its accumulator;
* `KeepsOffset`: the parameters for which no sum leaves the register unnoticed;
* `stripWrites`: a strip of output channels, at one place of the output;
* `rvvVsmulVnclip`, `rvvOcBlocked`: the kernels.

## Main results

* `elements_eq_iff`: when the ends of the reference and of the vector kernels agree on a value;
* `not_strays_of_keepsOffset`, `exists_strays`: when they agree on every accumulator;
* `stripAcc_eq`: the accumulators of a strip are those of the reference;
* `mem_ocTiles_iff`: the tiles make up the channels;
* `rvvConv_exact_iff`: when the kernels are those of the reference.
-/

/-! ## Requantisation in vectors -/

namespace ModelBlaster.Kernels

open Extract TwosComplement Rvv

/-- A normalised multiplier, and a shift that the vector kernels are made for. -/
structure RvvRequant extends RequantParams where
  multiplier_ge : 2 ^ 30 ≤ multiplier
  shift_le : shift ≤ 62

/-- `vout16` before the offset: the shift saturates to 16 bits, and is split if it is long. -/
def vectorShift (r : RvvRequant) (acc : ℤ) : ℤ :=
  let vscaled := vsmul 32 acc r.multiplier
  if r.shift < 0 then
    vnclip 16 (vsll 32 vscaled (-r.shift).toNat) 0
  else if r.shift < 32 then
    vnclip 16 vscaled r.shift.toNat
  else
    vnclip 16 (vsra 32 vscaled 31) (min (r.shift.toNat - 31) 31)

/-- An element of `vout8`. -/
def vectorElement (q : QuantBlock) (r : RvvRequant) (acc : ℤ) : ℤ :=
  vnsra 8 (min (max (wrap 16 (vectorShift r acc + wrap 16 q.outputOffset))
    (wrap 16 q.activationMin)) (wrap 16 q.activationMax)) 0

/-! ### The value before the offset -/

/-- The value that the reference adds the offset to. -/
def requantised (r : RvvRequant) (acc : ℤ) : ℤ :=
  if r.shift < 0 then wrap 32 (mulQ31 acc r.multiplier * 2 ^ (-r.shift).toNat)
  else roundoff (mulQ31 acc r.multiplier) r.shift.toNat

section
variable (r : RvvRequant) {acc : ℤ}

/-- The product is not wrapped. -/
theorem mulQ31_eq (hacc : Fits 32 acc) :
    mulQ31 acc r.multiplier = (acc * r.multiplier + 2 ^ 30) / 2 ^ 31 := by
  have hge := r.multiplier_ge
  obtain ⟨-, hlt⟩ := r.multiplier_fits
  obtain ⟨hlo, hhi⟩ := hacc
  norm_num at hlt hlo hhi hge
  have hplo : -2 ^ 62 ≤ acc * r.multiplier := by
    nlinarith
  have hphi : acc * r.multiplier ≤ (2 ^ 31 - 1) * (2 ^ 31 - 1) := by
    have hmul : acc * r.multiplier ≤ (2 ^ 31 - 1) * r.multiplier :=
      mul_le_mul_of_nonneg_right (by omega) (by omega)
    omega
  have hprod : wrap 64 (acc * r.multiplier) = acc * r.multiplier :=
    wrap_eq_self (by decide) ⟨by norm_num; omega, by norm_num; omega⟩
  have hround : wrap 64 (acc * r.multiplier + 2 ^ 30) = acc * r.multiplier + 2 ^ 30 :=
    wrap_eq_self (by decide) ⟨by norm_num; omega, by norm_num; omega⟩
  rw [mulQ31, hprod, hround, Int.shiftRight_eq_div_pow]
  apply wrap_eq_self (by decide)
  constructor <;> norm_num <;> omega

/-- What the product is between. -/
theorem mulQ31_bounds (hacc : Fits 32 acc) :
    2 ^ 31 * mulQ31 acc r.multiplier ≤ acc * r.multiplier + 2 ^ 30 ∧
      acc * r.multiplier + 2 ^ 30 < 2 ^ 31 * mulQ31 acc r.multiplier + 2 ^ 31 := by
  rw [mulQ31_eq r hacc]
  omega

/-- The fraction of the vector kernels is that of the reference. -/
theorem vsmul_eq (hacc : Fits 32 acc) : vsmul 32 acc r.multiplier = mulQ31 acc r.multiplier := by
  have hround : roundoff (acc * r.multiplier) 31 = mulQ31 acc r.multiplier := by
    rw [roundoff_eq _ (by decide), mulQ31_eq r hacc]
  rw [vsmul, hround]
  exact saturate_of_fits (fits_mulQ31 acc r.multiplier)

/-- A long shift leaves nothing. -/
theorem roundoff_of_long {x : ℤ} (hx : Fits 32 x) {d : ℕ} (hd : 32 ≤ d) : roundoff x d = 0 := by
  obtain ⟨hlo, hhi⟩ := hx
  obtain ⟨e, rfl⟩ : ∃ e, d = e + 1 := ⟨d - 1, by omega⟩
  have hpow : (2 : ℤ) ^ 31 ≤ 2 ^ e := pow_le_pow_right₀ (by decide) (by omega)
  rw [roundoff_eq _ (Nat.succ_pos e)]
  show (x + 2 ^ e) / 2 ^ (e + 1) = 0
  exact Int.ediv_eq_zero_of_lt (by omega) (by omega)

/-- The vector kernels saturate the value of the reference. -/
theorem vectorShift_eq (hacc : Fits 32 acc) : vectorShift r acc = saturate 16 (requantised r acc) := by
  have hfits : Fits 32 (mulQ31 acc r.multiplier) := fits_mulQ31 acc r.multiplier
  have hge := r.shift_ge
  rw [vectorShift, requantised, vsmul_eq r hacc]
  split_ifs with hneg hshort
  · have hmod : (-r.shift).toNat % 32 = (-r.shift).toNat := Nat.mod_eq_of_lt (by omega)
    rw [vnclip, vsll, hmod]
    rfl
  · have hmod : r.shift.toNat % (2 * 16) = r.shift.toNat := Nat.mod_eq_of_lt (by omega)
    rw [vnclip, hmod]
  · -- The first shift leaves the sign, and the second rounds it away.
    have hsign : vsra 32 (mulQ31 acc r.multiplier) 31 = 0 ∨
        vsra 32 (mulQ31 acc r.multiplier) 31 = -1 := by
      obtain ⟨hlo, hhi⟩ := hfits
      rw [vsra]
      norm_num at hlo hhi ⊢
      omega
    have hcap : 0 < min (r.shift.toNat - 31) 31 ∧ min (r.shift.toNat - 31) 31 < 32 := by omega
    have hzero : ∀ x : ℤ, x = 0 ∨ x = -1 → ∀ d : ℕ, 0 < d → roundoff x d = 0 := by
      intro x hx d hd
      have hpow : (1 : ℤ) ≤ 2 ^ (d - 1) := one_le_pow₀ (by decide)
      have htwo : (2 : ℤ) ^ d = 2 * 2 ^ (d - 1) := by
        rw [← pow_succ', Nat.sub_add_cancel hd]
      rw [roundoff_eq _ hd]
      apply Int.ediv_eq_zero_of_lt <;> omega
    rw [vnclip, Nat.mod_eq_of_lt (by omega), hzero _ hsign _ hcap.1,
      roundoff_of_long hfits (by omega)]

/-- The reference adds the offset to this value. -/
theorem requantizeC_eq (acc : ℤ) :
    requantizeC acc r.multiplier r.shift = .ok (requantised r acc) := by
  have hfits : Fits 32 (mulQ31 acc r.multiplier) := fits_mulQ31 acc r.multiplier
  have hge := r.shift_ge
  have hle := r.shift_le
  rw [requantizeC, requantised]
  by_cases hpos : 0 < r.shift
  · have hshift : 0 < r.shift.toNat := by omega
    have hpow : (1 : ℤ) ≤ 2 ^ (r.shift.toNat - 1) := one_le_pow₀ (by decide)
    have hpow' : (2 : ℤ) ^ (r.shift.toNat - 1) ≤ 2 ^ 61 := pow_le_pow_right₀ (by decide) (by omega)
    have hsum : wrap 64 (mulQ31 acc r.multiplier + 2 ^ (r.shift.toNat - 1)) =
        mulQ31 acc r.multiplier + 2 ^ (r.shift.toNat - 1) := by
      obtain ⟨hlo, hhi⟩ := hfits
      exact wrap_eq_self (by decide) ⟨by norm_num; omega, by norm_num; omega⟩
    have hsmall : Fits 32 (roundoff (mulQ31 acc r.multiplier) r.shift.toNat) := by
      obtain ⟨hlo, hhi⟩ := hfits
      have htwo : (2 : ℤ) ^ r.shift.toNat = 2 * 2 ^ (r.shift.toNat - 1) := by
        rw [← pow_succ', Nat.sub_add_cancel hshift]
      rw [roundoff_eq _ hshift, htwo]
      norm_num at hlo hhi
      constructor
      · apply (Int.le_ediv_iff_mul_le (by omega)).mpr
        norm_num
        nlinarith
      · apply Int.ediv_lt_of_lt_mul (by omega)
        norm_num
        nlinarith
    rw [if_pos hpos, if_pos (by omega), if_neg (by omega), hsum, Int.shiftRight_eq_div_pow,
      ← wrap_eq_self (by decide) hsmall, roundoff_eq _ hshift]
    rfl
  · rw [if_neg hpos]
    by_cases hneg : r.shift < 0
    · rw [if_pos hneg, if_pos (by omega), if_pos hneg, Int.shiftLeft_eq]
    · rw [if_neg hneg, if_neg hneg, show r.shift.toNat = 0 by omega]
      rfl

theorem fits_requantised : Fits 32 (requantised r acc) := by
  have hfits : Fits 32 (mulQ31 acc r.multiplier) := fits_mulQ31 acc r.multiplier
  rw [requantised]
  split_ifs with hneg
  · exact fits_wrap (by decide) _
  · by_cases hzero : r.shift.toNat = 0
    · rwa [hzero]
    · have hpos : (1 : ℤ) ≤ 2 ^ (r.shift.toNat - 1) := one_le_pow₀ (by decide)
      have htwo : (2 : ℤ) ^ r.shift.toNat = 2 * 2 ^ (r.shift.toNat - 1) := by
        rw [← pow_succ', Nat.sub_add_cancel (by omega)]
      obtain ⟨hlo, hhi⟩ := hfits
      norm_num at hlo hhi
      rw [roundoff_eq _ (by omega), htwo]
      constructor
      · apply (Int.le_ediv_iff_mul_le (by omega)).mpr
        norm_num
        nlinarith
      · apply Int.ediv_lt_of_lt_mul (by omega)
        norm_num
        nlinarith

end

/-! ### One value -/

/-- A sum that leaves a register by less than its size. -/
theorem wrap_cases {w : ℕ} (hw : 0 < w) (x : ℤ) (hlo : -2 ^ w - 2 ^ (w - 1) ≤ x)
    (hhi : x < 2 ^ w + 2 ^ (w - 1)) :
    wrap w x = if 2 ^ (w - 1) ≤ x then x - 2 ^ w else if x < -2 ^ (w - 1) then x + 2 ^ w else x := by
  have htwo : (2 : ℤ) ^ w = 2 * 2 ^ (w - 1) := by
    rw [← pow_succ', Nat.sub_add_cancel hw]
  split_ifs with hpos hneg
  · exact wrap_eq_sub hw hpos hhi
  · have hadd : wrap w x = wrap w (x + 2 ^ w) := by
      have hcast : ((2 ^ w : ℕ) : ℤ) = 2 ^ w := by push_cast; rfl
      rw [wrap, wrap, ← hcast, Int.add_bmod_right]
    rw [hadd]
    exact wrap_eq_self hw ⟨by omega, by omega⟩
  · exact wrap_eq_self hw ⟨by omega, by omega⟩

/-- The sum with the offset leaves 16 bits, and does not leave 32 bits as well. -/
def Strays (off v : ℤ) : Prop :=
  (0 < off ∧ 2 ^ 15 - off ≤ v ∧ v < 2 ^ 31 - off) ∨
    (off < 0 ∧ -2 ^ 31 - off ≤ v ∧ v < -2 ^ 15 - off)

/-- The ends agree on a value iff the sum does not stray, or the range has one element. -/
theorem elements_eq_iff (q : QuantBlock) {v : ℤ} (hv : Fits 32 v) :
    vnsra 8 (min (max (wrap 16 (saturate 16 v + wrap 16 q.outputOffset))
      (wrap 16 q.activationMin)) (wrap 16 q.activationMax)) 0 = q.kernelStore v ↔
      q.activationMax ≤ q.activationMin ∨ ¬Strays q.outputOffset v := by
  obtain ⟨hoff, hoff'⟩ := q.outputOffset_fits
  obtain ⟨hmin, hmin'⟩ := q.activationMin_fits
  obtain ⟨hmax, hmax'⟩ := q.activationMax_fits
  obtain ⟨hlo, hhi⟩ := hv
  norm_num at hoff hoff' hmin hmin' hmax hmax' hlo hhi
  have hwrap : ∀ x : ℤ, -128 ≤ x → x < 128 → wrap 16 x = x := fun x hx hx' =>
    wrap_eq_self (by decide) ⟨by norm_num; omega, by norm_num; omega⟩
  rw [hwrap _ hoff hoff', hwrap _ hmin hmin', hwrap _ hmax hmax', QuantBlock.kernelStore,
    clampC_eq_clip, vnsra, clip]
  have hs : -2 ^ 15 ≤ saturate 16 v ∧ saturate 16 v < 2 ^ 15 := by
    rw [saturate]
    norm_num
  have hA := wrap_cases (show 0 < 16 by decide) (saturate 16 v + q.outputOffset)
    (by norm_num at hs ⊢; omega) (by norm_num at hs ⊢; omega)
  have hB := wrap_cases (show 0 < 32 by decide) (v + q.outputOffset)
    (by norm_num; omega) (by norm_num; omega)
  -- What is left of both is a byte.
  have hbyte : ∀ x, wrap 8 (min (max x q.activationMin) q.activationMax) =
      min (max x q.activationMin) q.activationMax := fun x =>
    wrap_eq_self (by decide) ⟨by norm_num; omega, by norm_num; omega⟩
  have hlhs : wrap 8 (min (max (wrap 16 (saturate 16 v + q.outputOffset)) q.activationMin)
      q.activationMax / 2 ^ (0 % (2 * 8))) =
      min (max (wrap 16 (saturate 16 v + q.outputOffset)) q.activationMin) q.activationMax := by
    rw [Nat.zero_mod, pow_zero, Int.ediv_one, hbyte]
  have hrhs : toInt8 (min (max (wrap 32 (v + q.outputOffset)) q.activationMin)
      q.activationMax) = min (max (wrap 32 (v + q.outputOffset)) q.activationMin)
      q.activationMax := hbyte _
  rw [hlhs, hrhs, hA, hB, Strays, saturate]
  omega

/-! ### All accumulators -/

/-- The parameters that keep the sum with the offset in 16 bits, or drop it: no offset, a range of
one element, a left shift out of the register, or a right shift that leaves room for the offset. -/
def KeepsOffset (q : QuantBlock) (r : RvvRequant) : Prop :=
  q.outputOffset = 0 ∨ q.activationMax ≤ q.activationMin ∨ r.shift = -31 ∨ 17 ≤ r.shift ∨
    r.shift = 16 ∧ (0 < q.outputOffset → r.multiplier + 2 ^ 16 * q.outputOffset + 2 ^ 15 ≤ 2 ^ 31) ∧
      (q.outputOffset < 0 → r.multiplier ≤ 2 ^ 31 + 2 ^ 15 + 2 ^ 16 * q.outputOffset)

instance (q : QuantBlock) (r : RvvRequant) : Decidable (KeepsOffset q r) :=
  inferInstanceAs (Decidable (_ ∨ _ ∨ _ ∨ _ ∨ _))

section
variable (q : QuantBlock) (r : RvvRequant)

/-- An element is written as the reference writes it iff its value does not stray. -/
theorem elementOf_eq_iff {acc : ℤ} (hacc : Fits 32 acc) :
    elementOf q r.toRequantParams acc = .ok (vectorElement q r acc) ↔
      q.activationMax ≤ q.activationMin ∨ ¬Strays q.outputOffset (requantised r acc) := by
  rw [← elements_eq_iff q (fits_requantised r), elementOf, QuantBlock.kernelElement,
    requantizeC_eq r acc, vectorElement, vectorShift_eq r hacc]
  constructor
  · intro h
    injection h with h
    exact h.symm
  · intro h
    rw [h]
    rfl

/-- A small value is the product of an accumulator. -/
theorem exists_mulQ31_eq {m : ℤ} (hlo : -2 ^ 29 ≤ m) (hhi : m ≤ 2 ^ 29) :
    ∃ acc, Fits 32 acc ∧ mulQ31 acc r.multiplier = m := by
  have hge := r.multiplier_ge
  obtain ⟨-, hlt⟩ := r.multiplier_fits
  -- The smallest accumulator whose product reaches `m`.
  have hdiv := Int.emod_add_mul_ediv (-(m * 2 ^ 31 - 2 ^ 30)) r.multiplier
  have hnonneg := Int.emod_nonneg (-(m * 2 ^ 31 - 2 ^ 30)) (show r.multiplier ≠ 0 by omega)
  have hmod := Int.emod_lt_of_pos (-(m * 2 ^ 31 - 2 ^ 30)) (show 0 < r.multiplier by omega)
  generalize hacc : -(m * 2 ^ 31 - 2 ^ 30) / r.multiplier = x at *
  generalize -(m * 2 ^ 31 - 2 ^ 30) % r.multiplier = y at *
  have hfits : Fits 32 (-x) := by
    constructor <;> norm_num <;> nlinarith
  refine ⟨-x, hfits, ?_⟩
  rw [mulQ31_eq r hfits]
  norm_num at hdiv ⊢
  have hprod : -(x * r.multiplier) = m * 2147483648 - 1073741824 + y := by
    rw [mul_comm x]
    omega
  omega

/-- What half of the divisor does to a quotient. -/
theorem roundoff_bounds (x lo hi : ℤ) {d : ℕ} (hd : 0 < d) (hlo : lo * 2 ^ d ≤ x + 2 ^ (d - 1))
    (hhi : x + 2 ^ (d - 1) < hi * 2 ^ d) : lo ≤ roundoff x d ∧ roundoff x d < hi := by
  rw [roundoff_eq x hd]
  have hpos : (0 : ℤ) < 2 ^ d := by positivity
  exact ⟨(Int.le_ediv_iff_mul_le hpos).mpr hlo, Int.ediv_lt_of_lt_mul hpos hhi⟩

/-- With such parameters no value strays. -/
theorem not_strays_of_keepsOffset (h : KeepsOffset q r) {acc : ℤ} (hacc : Fits 32 acc) :
    q.activationMax ≤ q.activationMin ∨ ¬Strays q.outputOffset (requantised r acc) := by
  obtain ⟨hoff, hoff'⟩ := q.outputOffset_fits
  rcases h with hzero | hrange | hleft | hright | ⟨hshift, hpos, hneg⟩
  · right
    rw [Strays]
    omega
  · exact .inl hrange
  · -- Only the lowest bit of the product is left, as the sign.
    right
    have hvalue : requantised r acc = 0 ∨ requantised r acc = -2 ^ 31 := by
      rw [requantised, if_pos (by omega), hleft, show (-(-31 : ℤ)).toNat = 31 from rfl, wrap,
        Int.bmod]
      omega
    rw [Strays]
    omega
  · right
    have hfits : Fits 32 (mulQ31 acc r.multiplier) := fits_mulQ31 acc r.multiplier
    obtain ⟨hlo, hhi⟩ := hfits
    have hpow : (2 : ℤ) ^ 16 ≤ 2 ^ (r.shift.toNat - 1) := pow_le_pow_right₀ (by decide) (by omega)
    have htwo : (2 : ℤ) ^ r.shift.toNat = 2 * 2 ^ (r.shift.toNat - 1) := by
      rw [← pow_succ', Nat.sub_add_cancel (by omega)]
    have hvalue := roundoff_bounds (mulQ31 acc r.multiplier) (-2 ^ 14) (2 ^ 14 + 1)
      (show 0 < r.shift.toNat by omega) (by rw [htwo]; norm_num at hlo hpow ⊢; omega)
      (by rw [htwo]; norm_num at hhi hpow ⊢; omega)
    rw [requantised, if_neg (by omega), Strays]
    omega
  · right
    obtain ⟨hlo, hhi⟩ := mulQ31_bounds r hacc
    have hge := r.multiplier_ge
    obtain ⟨hacc₁, hacc₂⟩ := hacc
    have hmul : acc * r.multiplier ≤ (2 ^ 31 - 1) * r.multiplier :=
      mul_le_mul_of_nonneg_right (by norm_num at hacc₂ ⊢; omega) (by omega)
    have hmul' : -2 ^ 31 * r.multiplier ≤ acc * r.multiplier :=
      mul_le_mul_of_nonneg_right hacc₁ (by omega)
    rw [requantised, if_neg (by omega), show r.shift.toNat = 16 by omega,
      roundoff_eq _ (by decide), Strays]
    omega

/-- A left shift reaches half of the register, and a shift by nothing a quarter of it. -/
theorem exists_strays_left (hoff : q.outputOffset ≠ 0) (hge : -31 < r.shift) (hle : r.shift ≤ 0) :
    ∃ acc, Fits 32 acc ∧ Strays q.outputOffset (requantised r acc) := by
  obtain ⟨hoff₁, hoff₂⟩ := q.outputOffset_fits
  -- The sign of the value is that of the offset.
  have hreach : ∀ σ : ℤ, σ = 1 ∨ σ = -1 → ∃ acc, Fits 32 acc ∧
      (requantised r acc = σ * 2 ^ 30 ∨ requantised r acc = σ * 2 ^ 29) := by
    intro σ hσ
    by_cases hneg : r.shift < 0
    · have hsplit : (2 : ℤ) ^ (30 - (-r.shift).toNat) * 2 ^ (-r.shift).toNat = 2 ^ 30 := by
        rw [← pow_add, Nat.sub_add_cancel (by omega)]
      have hsmall : (2 : ℤ) ^ (30 - (-r.shift).toNat) ≤ 2 ^ 29 :=
        pow_le_pow_right₀ (by decide) (by omega)
      have hpos : (0 : ℤ) < 2 ^ (30 - (-r.shift).toNat) := by positivity
      obtain ⟨acc, hacc, hmul⟩ := exists_mulQ31_eq r
        (show -2 ^ 29 ≤ σ * 2 ^ (30 - (-r.shift).toNat) by rcases hσ with rfl | rfl <;> omega)
        (by rcases hσ with rfl | rfl <;> omega)
      refine ⟨acc, hacc, .inl ?_⟩
      rw [requantised, if_pos hneg, hmul, mul_assoc, hsplit]
      rcases hσ with rfl | rfl <;> decide
    · obtain ⟨acc, hacc, hmul⟩ := exists_mulQ31_eq r
        (show -2 ^ 29 ≤ σ * 2 ^ 29 by rcases hσ with rfl | rfl <;> decide)
        (by rcases hσ with rfl | rfl <;> decide)
      refine ⟨acc, hacc, .inr ?_⟩
      rw [requantised, if_neg hneg, hmul, show r.shift.toNat = 0 by omega]
      rfl
  rcases lt_or_gt_of_ne hoff with hneg | hpos
  · obtain ⟨acc, hacc, hvalue⟩ := hreach (-1) (.inr rfl)
    refine ⟨acc, hacc, .inr ⟨hneg, ?_⟩⟩
    omega
  · obtain ⟨acc, hacc, hvalue⟩ := hreach 1 (.inl rfl)
    refine ⟨acc, hacc, .inl ⟨hpos, ?_⟩⟩
    omega

/-- A right shift by at most 16 does not bring the largest products into 16 bits. -/
theorem exists_strays_right (hge : 0 < r.shift) (hle : r.shift ≤ 16)
    (hroom : r.shift < 16 ∧ q.outputOffset ≠ 0 ∨
      0 < q.outputOffset ∧ 2 ^ 31 < r.multiplier + 2 ^ 16 * q.outputOffset + 2 ^ 15 ∨
      q.outputOffset < 0 ∧ 2 ^ 31 + 2 ^ 15 + 2 ^ 16 * q.outputOffset < r.multiplier) :
    ∃ acc, Fits 32 acc ∧ Strays q.outputOffset (requantised r acc) := by
  have hmge := r.multiplier_ge
  obtain ⟨-, hlt⟩ := r.multiplier_fits
  obtain ⟨hoff₁, hoff₂⟩ := q.outputOffset_fits
  norm_num at hmge hlt hoff₁ hoff₂ hroom
  have hd : 0 < r.shift.toNat := by omega
  have htwo : (2 : ℤ) ^ r.shift.toNat = 2 * 2 ^ (r.shift.toNat - 1) := by
    rw [← pow_succ', Nat.sub_add_cancel hd]
  have hone : (1 : ℤ) ≤ 2 ^ (r.shift.toNat - 1) := one_le_pow₀ (by decide)
  -- Half of the divisor is at most `2 ^ 14`, or the shift is 16.
  have hhalf : r.shift < 16 ∧ (2 : ℤ) ^ (r.shift.toNat - 1) ≤ 16384 ∨
      r.shift = 16 ∧ (2 : ℤ) ^ (r.shift.toNat - 1) = 32768 := by
    rcases lt_or_eq_of_le hle with hlt' | heq
    · have hpow : (2 : ℤ) ^ (r.shift.toNat - 1) ≤ 2 ^ 14 := pow_le_pow_right₀ (by decide) (by omega)
      exact .inl ⟨hlt', hpow⟩
    · exact .inr ⟨heq, by rw [heq]; rfl⟩
  have hnonneg : ¬r.shift < 0 := by omega
  generalize hP : (2 : ℤ) ^ (r.shift.toNat - 1) = P at *
  have hexpand : ∀ x : ℤ, (x - q.outputOffset) * 2 ^ r.shift.toNat =
      2 * x * P - 2 * (q.outputOffset * P) := by
    intro x
    rw [htwo]
    ring
  -- The product of the offset and half of the divisor, or the offset if that is known.
  have hoffset : 0 < q.outputOffset ∧ P ≤ q.outputOffset * P ∧ q.outputOffset * P ≤ 127 * P ∨
      q.outputOffset < 0 ∧ q.outputOffset * P ≤ -P ∧ -128 * P ≤ q.outputOffset * P := by
    rcases lt_trichotomy q.outputOffset 0 with hneg | hzero | hpos
    · exact .inr ⟨hneg, by nlinarith, by nlinarith⟩
    · omega
    · exact .inl ⟨hpos, by nlinarith, by nlinarith⟩
  have hknown : P = 32768 → q.outputOffset * P = 32768 * q.outputOffset := by
    rintro rfl
    rw [mul_comm]
  generalize q.outputOffset * P = c at *
  rcases hoffset with ⟨hpos, hc, hc'⟩ | ⟨hneg, hc, hc'⟩
  · have hacc : Fits 32 (2 ^ 31 - 1 : ℤ) := ⟨by decide, by decide⟩
    obtain ⟨hmul, hmul'⟩ := mulQ31_bounds r hacc
    norm_num at hmul hmul'
    refine ⟨2 ^ 31 - 1, hacc, .inl ⟨hpos, ?_⟩⟩
    rw [requantised, if_neg hnonneg]
    apply roundoff_bounds _ _ _ hd
    · rw [hexpand, hP]
      norm_num
      omega
    · rw [hexpand, hP]
      norm_num
      omega
  · have hacc : Fits 32 (-2 ^ 31 : ℤ) := ⟨by decide, by decide⟩
    obtain ⟨hmul, hmul'⟩ := mulQ31_bounds r hacc
    norm_num at hmul hmul'
    refine ⟨-2 ^ 31, hacc, .inr ⟨hneg, ?_⟩⟩
    rw [requantised, if_neg hnonneg]
    apply roundoff_bounds _ _ _ hd
    · rw [hexpand, hP]
      norm_num
      omega
    · rw [hexpand, hP]
      norm_num
      omega

/-- With other parameters, the value of some accumulator strays. -/
theorem exists_strays (h : ¬KeepsOffset q r) : q.activationMin < q.activationMax ∧
    ∃ acc, Fits 32 acc ∧ Strays q.outputOffset (requantised r acc) := by
  have hge := r.shift_ge
  obtain ⟨hzero, hrange, hleft, hshift, hroom⟩ : q.outputOffset ≠ 0 ∧
      q.activationMin < q.activationMax ∧ r.shift ≠ -31 ∧ r.shift ≤ 16 ∧
      (r.shift = 16 →
        0 < q.outputOffset ∧ 2 ^ 31 < r.multiplier + 2 ^ 16 * q.outputOffset + 2 ^ 15 ∨
        q.outputOffset < 0 ∧ 2 ^ 31 + 2 ^ 15 + 2 ^ 16 * q.outputOffset < r.multiplier) := by
    rw [KeepsOffset] at h
    omega
  refine ⟨hrange, ?_⟩
  by_cases hpos : 0 < r.shift
  · apply exists_strays_right q r hpos hshift
    omega
  · exact exists_strays_left q r hzero (by omega) (by omega)

end

open List Fallible

/-- A vector unit, with strips that fit the buffer of the kernels. -/
structure VectorUnit where
  vlmax : ℕ
  vlmax_pos : 0 < vlmax
  vlmax_le : vlmax ≤ 256
  vsetvl : Vsetvl vlmax

/-- A quantisation whose offsets are bytes. -/
structure RvvBlock extends QuantBlock where
  inputOffset_fits : Fits 8 inputOffset
  filterOffset_fits : Fits 8 filterOffset

/-! ### Instructions -/

/-- `__riscv_vle32_v_i32m4` -/
def vle32 (a : List ℤ) (addr vl : ℕ) : Except CFault (List ℤ) := vle8 a addr vl

/-- `__riscv_vwadd_vx_i16m2` -/
def vwaddVx (va : List ℤ) (x : ℤ) : List ℤ := va.map fun e => wrap 16 (e + wrap 8 x)

/-- `__riscv_vwmacc_vx_i32m4` -/
def vwmaccVx (vacc : List ℤ) (x : ℤ) (va : List ℤ) : List ℤ :=
  zipWith (fun acc e => wrap 32 (acc + wrap 16 x * e)) vacc va

/-! ### The kernels -/

section
variable {sh : ConvShape} (a : ConvArgs sh) (q : RvvBlock) (r : RvvRequant) (u : VectorUnit)

/-- `in_byte`: the input that a tap meets, or zero. -/
def inByte (n oh ow : ℕ) : ℕ × ℕ × ℕ → Except CFault ℤ
  | (ic, kh, kw) =>
    if (0 ≤ sh.ih kh oh ∧ sh.ih kh oh < sh.IH) ∧ 0 ≤ sh.iw kw ow ∧ sh.iw kw ow < sh.IW then
      Extract.load a.input (((n * sh.IC + ic : ℕ) * sh.IH + sh.ih kh oh) * sh.IW + sh.iw kw ow)
    else .ok 0

/-- `vacc`, before the loop. -/
def initStrip (s : ℕ × ℕ) : Except CFault (List ℤ) :=
  match a.bias with
  | some b => vle32 b s.1 s.2
  | none => .ok (List.replicate s.2 0)

/-- A tap of a strip. -/
def stripStep (n oh ow : ℕ) (s : ℕ × ℕ) (vacc : List ℤ) (tap : ℕ × ℕ × ℕ) :
    Except CFault (List ℤ) := do
  let inB ← inByte a n oh ow tap
  let inV := wrap 32 (inB + q.inputOffset)
  let vw8 ← vle8 a.weight (tapIndex sh tap * sh.OC + s.1) s.2
  let vw16 := vwaddVx vw8 (wrap 16 q.filterOffset)
  return vwmaccVx vacc inV vw16

/-- `vout16`, before the offset. -/
def shiftTail (vacc : List ℤ) : List ℤ :=
  let vscaled := vacc.map (vsmul 32 · r.multiplier)
  if r.shift < 0 then (vscaled.map (vsll 32 · (-r.shift).toNat)).map (vnclip 16 · 0)
  else if r.shift < 32 then vscaled.map (vnclip 16 · r.shift.toNat)
  else (vscaled.map (vsra 32 · 31)).map (vnclip 16 · (min (r.shift.toNat - 31) 31))

/-- `vout8` -/
def offsetTail (vout16 : List ℤ) : List ℤ :=
  let vout16 := vout16.map fun x => wrap 16 (x + wrap 16 q.outputOffset)
  let vout16 := vout16.map (max · (wrap 16 q.activationMin))
  let vout16 := vout16.map (min · (wrap 16 q.activationMax))
  vout16.map (vnsra 8 · 0)

/-- The requantisation of a strip. -/
def requantizeTail (vacc : List ℤ) : List ℤ := offsetTail q (shiftTail r vacc)

/-- The stores of a strip, through `_obuf`. -/
def storeStrip (sh : ConvShape) (n oh ow : ℕ) (s : ℕ × ℕ) (vout8 : List ℤ) :
    Except CFault (List (ℕ × ℤ)) :=
  if s.2 ≤ 256 then
    .ok ((List.range s.2).map fun i =>
      ((n * sh.OC + s.1) * sh.OH * sh.OW + oh * sh.OW + ow + i * (sh.OH * sh.OW), vout8.getD i 0))
  else .error .undefinedBehaviour

/-- The accumulators of a strip, at one place of the output. -/
def stripAcc (n oh ow : ℕ) (s : ℕ × ℕ) : Except CFault (List ℤ) := do
  let vacc ← initStrip a s
  sh.taps.foldlM (stripStep a q n oh ow s) vacc

/-- A strip, at one place of the output. -/
def stripWrites (n oh ow : ℕ) (s : ℕ × ℕ) : Except CFault (List (ℕ × ℤ)) := do
  let vacc ← stripAcc a q n oh ow s
  storeStrip sh n oh ow s (requantizeTail q r vacc)

/-- What a strip of channels stores at one place of the output: its place, then the strip. -/
abbrev StripStores : Type := ℕ → ℕ → ℕ → ℕ × ℕ → Except CFault (List (ℕ × ℤ))

/-- The strips of the channels `[tile.1, tile.2)`, at one place of the output. -/
def pixelWrites {vlmax : ℕ} (v : Vsetvl vlmax) (strip : StripStores) (tile : ℕ × ℕ) :
    ℕ × ℕ × ℕ → Except CFault (List (ℕ × ℤ))
  | (n, oh, ow) => do
    let writes ← (v.strips tile.1 tile.2).mapM (strip n oh ow)
    return writes.flatten

/-- The loops over the output, for the channels of a tile. -/
def tileWrites (sh : ConvShape) {vlmax : ℕ} (v : Vsetvl vlmax) (strip : StripStores)
    (tile : ℕ × ℕ) : Except CFault (List (ℕ × ℤ)) := do
  let writes ← (List.range sh.N ×ˢ List.range sh.OH ×ˢ List.range sh.OW).mapM
    (pixelWrites v strip tile)
  return writes.flatten

/-- `rvv_vsmul_vnclip` -/
def rvvVsmulVnclip : Except CFault (List (ℕ × ℤ)) :=
  tileWrites sh u.vsetvl (stripWrites a q r) (0, sh.OC)

/-- `L1D_OC_BUDGET_BYTES` -/
def ocBudgetBytes : ℤ := 24 * 1024

/-- `TILE_OC`, before it is compared with the number of channels. -/
def tileOcOf (vlmax : ℕ) (slab : ℤ) : ℕ :=
  if 0 < slab ∧ slab ≤ ocBudgetBytes then
    if vlmax < (ocBudgetBytes / slab).toNat then (ocBudgetBytes / slab).toNat / vlmax * vlmax
    else vlmax
  else vlmax

/-- `TILE_OC` -/
def tileOc (sh : ConvShape) : ℕ :=
  let tile := min (tileOcOf u.vlmax (wrap 32 (tapCount sh))) sh.OC
  if tile = 0 then sh.OC else tile

/-- `oc_outer` and `oc_end` -/
def ocTiles (sh : ConvShape) : List (ℕ × ℕ) :=
  (List.range ((sh.OC + tileOc u sh - 1) / tileOc u sh)).map fun i =>
    (i * tileOc u sh, min (i * tileOc u sh + tileOc u sh) sh.OC)

/-- `rvv_oc_blocked` -/
def rvvOcBlocked : Except CFault (List (ℕ × ℤ)) := do
  let writes ← (ocTiles u sh).mapM (tileWrites sh u.vsetvl (stripWrites a q r))
  return writes.flatten

end

/-! ### A strip -/

section
variable {sh : ConvShape} (a : ConvArgs sh) (q : RvvBlock) (r : RvvRequant) {n oh ow : ℕ}
  {s : ℕ × ℕ}

/-- The requantisation works on each lane. -/
theorem requantizeTail_eq (vacc : List ℤ) :
    requantizeTail q r vacc = vacc.map (vectorElement q.toQuantBlock r) := by
  have hshift : shiftTail r vacc = vacc.map (vectorShift r) := by
    rw [shiftTail]
    split_ifs with hneg hshort
    all_goals
      simp only [map_map]
      apply map_congr_left
      intro acc _
      simp [vectorShift, hneg]
    · simp [hshort]
    · simp [hshort]
  rw [requantizeTail, hshift, offsetTail]
  simp only [map_map]
  rfl

/-- A sum of two bytes fits every register that is longer than a byte. -/
theorem wrap_add_of_fits {w : ℕ} (hw : 9 ≤ w) {x y : ℤ} (hx : Fits 8 x) (hy : Fits 8 y) :
    wrap w (x + y) = x + y := by
  have hpow : (2 : ℤ) ^ 8 ≤ 2 ^ (w - 1) := pow_le_pow_right₀ (by decide) (by omega)
  rw [Fits] at hx hy
  apply wrap_eq_self (by omega)
  rw [Fits]
  omega

variable {tap : ℕ × ℕ × ℕ}

/-- The scalar of the accumulation is the input of the tap. -/
theorem inByte_eq (oh ow : ℕ) (hn : n < sh.N) (htap : tap ∈ sh.taps) :
    ∃ inB, inByte a n oh ow tap = .ok inB ∧ wrap 16 (wrap 32 (inB + q.inputOffset)) =
      (a.tensors .ihwoc).inputAt q.toQuantBlock n oh ow tap := by
  obtain ⟨ic, kh, kw⟩ := tap
  have hic := (ConvShape.mem_taps.mp htap).1
  by_cases hin : sh.RowInside kh oh ∧ sh.ColInside kw ow
  · have hload := (a.tensors .ihwoc).load_input hn hic hin.1 hin.2
    have hread : (a.tensors .ihwoc).inputAt q.toQuantBlock n oh ow (ic, kh, kw) = _ := if_pos hin
    have hfits := fits_getD (a.tensors .ihwoc).input_fits
      (((n * sh.IC + ic) * sh.IH + (sh.ih kh oh).toNat) * sh.IW + (sh.iw kw ow).toNat)
    refine ⟨_, (if_pos hin).trans hload, ?_⟩
    rw [hread, wrap_add_of_fits (w := 32) (by decide) hfits q.inputOffset_fits,
      wrap_add_of_fits (by decide) hfits q.inputOffset_fits]
  · have hread : (a.tensors .ihwoc).inputAt q.toQuantBlock n oh ow (ic, kh, kw) = _ := if_neg hin
    refine ⟨0, if_neg hin, ?_⟩
    rw [hread, wrap_add_of_fits (w := 32) (by decide) (by decide) q.inputOffset_fits,
      wrap_add_of_fits (by decide) (by decide) q.inputOffset_fits, zero_add]

/-- The channels of a tap follow one another. -/
theorem weightIndex_ihwoc (oc : ℕ) (tap : ℕ × ℕ × ℕ) :
    weightIndex sh .ihwoc oc tap = tapIndex sh tap * sh.OC + oc := rfl

/-- A tap adds its product to every lane. -/
theorem stripStep_eq (hn : n < sh.N) (hs : s.1 + s.2 ≤ sh.OC) (htap : tap ∈ sh.taps) (g : ℕ → ℤ) :
    stripStep a q n oh ow s ((List.range s.2).map g) tap = .ok ((List.range s.2).map fun i =>
      wrap 32 (g i + (a.tensors .ihwoc).inputAt q.toQuantBlock n oh ow tap *
        (a.tensors .ihwoc).factor q.toQuantBlock (s.1 + i) tap)) := by
  obtain ⟨inB, hin, hscalar⟩ := inByte_eq a q oh ow hn htap
  have hvle : vle8 a.weight (tapIndex sh tap * sh.OC + s.1) s.2 = .ok ((List.range s.2).map
      fun i => a.weight.getD (weightIndex sh .ihwoc (s.1 + i) tap) 0) := by
    apply mapM_eq_ok_map
    intro i hi
    have hlt := mem_range.mp hi
    rw [Nat.add_assoc, ← weightIndex_ihwoc]
    exact a.load_weight (by omega) htap
  rw [stripStep, hin, hvle]
  apply congrArg Except.ok
  rw [vwmaccVx, vwaddVx, map_map, zipWith_map, zipWith_self]
  apply map_congr_left
  intro i hi
  have hlt := mem_range.mp hi
  have hoffset : wrap 8 (wrap 16 q.filterOffset) = q.filterOffset := by
    obtain ⟨hlo, hhi⟩ := q.filterOffset_fits
    rw [wrap_eq_self (w := 16) (by decide) ⟨by omega, by omega⟩,
      wrap_eq_self (by decide) q.filterOffset_fits]
  have hweight := fits_getD a.weight_fits (weightIndex sh .ihwoc (s.1 + i) tap)
  rw [hscalar, a.factor_tensors q.toQuantBlock (by omega) htap,
    wrap_add_of_fits (w := 32) (by decide) hweight q.filterOffset_fits]
  show wrap 32 (g i + _ * wrap 16 (_ + wrap 8 (wrap 16 q.filterOffset))) = _
  rw [hoffset, wrap_add_of_fits (by decide) hweight q.filterOffset_fits]

/-- The accumulators of a strip are those of the reference. -/
theorem stripAcc_eq (hn : n < sh.N) (hs : s.1 + s.2 ≤ sh.OC) :
    stripAcc a q n oh ow s = .ok ((List.range s.2).map fun i =>
      a.accumulator q.toQuantBlock .ihwoc (n, s.1 + i, oh, ow)) := by
  have hinit : initStrip a s = .ok ((List.range s.2).map fun i =>
      wrap 32 ((a.tensors .ihwoc).sum q.toQuantBlock n (s.1 + i) oh ow [])) := by
    have hbias : ∀ i, wrap 32 ((a.tensors .ihwoc).sum q.toQuantBlock n (s.1 + i) oh ow []) =
        (a.bias.getD (List.replicate sh.OC 0)).getD (s.1 + i) 0 := by
      intro i
      rw [ConvTensors.sum, map_nil, sum_nil, add_zero]
      exact wrap_eq_self (by decide) ((a.tensors .ihwoc).fits_bias (s.1 + i))
    rw [initStrip]
    cases hb : a.bias with
    | none =>
      apply congrArg Except.ok
      symm
      apply eq_replicate_iff.mpr
      refine ⟨by rw [length_map, length_range], fun x hx => ?_⟩
      obtain ⟨i, hi, rfl⟩ := mem_map.mp hx
      have hlt := mem_range.mp hi
      rw [hbias, hb, Option.getD_none, getD_eq_getElem?_getD, getElem?_replicate_of_lt]
      · rfl
      · omega
    | some b =>
      apply mapM_eq_ok_map
      intro i hi
      have hlt := mem_range.mp hi
      rw [hbias, hb]
      exact load_of_lt (by rw [a.bias_length b hb]; omega)
  have hloop : ∃ vacc, sh.taps.foldlM (stripStep a q n oh ow s) ((List.range s.2).map fun i =>
      wrap 32 ((a.tensors .ihwoc).sum q.toQuantBlock n (s.1 + i) oh ow [])) = .ok vacc ∧
      vacc = (List.range s.2).map fun i =>
        a.accumulator q.toQuantBlock .ihwoc (n, s.1 + i, oh, ow) := by
    refine exists_foldlM_eq_ok (P := fun done vacc => vacc = (List.range s.2).map fun i =>
      wrap 32 ((a.tensors .ihwoc).sum q.toQuantBlock n (s.1 + i) oh ow done)) ?_ rfl
    rintro done tap rest vacc hsplit rfl
    refine ⟨_, stripStep_eq a q hn hs (hsplit ▸ by simp) _, ?_⟩
    apply map_congr_left
    intro i _
    rw [wrap_wrap_add, ConvTensors.sum, ConvTensors.sum, map_append, sum_append,
      map_singleton, sum_singleton, add_assoc]
  obtain ⟨_, hrun, rfl⟩ := hloop
  rw [stripAcc, hinit]
  exact hrun

/-- The lanes of a strip go to the elements of its channels. -/
theorem storeStrip_eq (sh : ConvShape) (n oh ow : ℕ) {s : ℕ × ℕ} (hbuf : s.2 ≤ 256) (f : ℕ → ℤ) :
    storeStrip sh n oh ow s ((List.range s.2).map f) = .ok ((List.range s.2).map fun i =>
      (outAddr sh (n, s.1 + i, oh, ow), f i)) := by
  rw [storeStrip, if_pos hbuf]
  apply congrArg Except.ok
  apply map_congr_left
  intro i hi
  have haddr : (n * sh.OC + s.1) * sh.OH * sh.OW + oh * sh.OW + ow + i * (sh.OH * sh.OW) =
      outAddr sh (n, s.1 + i, oh, ow) := by
    show _ = ((n * sh.OC + (s.1 + i)) * sh.OH + oh) * sh.OW + ow
    ring
  rw [haddr, getD_eq_getElem?_getD, getElem?_map, getElem?_range (mem_range.mp hi)]
  rfl

end

/-! ### The loops -/

/-- At every place of the output, a strip that is no longer than a vector stores the elements of its
channels. -/
def StripStores.Computes (strip : StripStores) (sh : ConvShape) (vlmax : ℕ)
    (value : ℕ × ℕ × ℕ × ℕ → ℤ) : Prop :=
  ∀ n < sh.N, ∀ oh ow, ∀ s : ℕ × ℕ, s.1 + s.2 ≤ sh.OC → s.2 ≤ vlmax →
    strip n oh ow s = .ok ((List.range s.2).map fun i =>
      (outAddr sh (n, s.1 + i, oh, ow), value (n, s.1 + i, oh, ow)))

section
variable {sh : ConvShape} {vlmax : ℕ} (v : Vsetvl vlmax) {strip : StripStores}
  {value : ℕ × ℕ × ℕ × ℕ → ℤ} {tile : ℕ × ℕ}

section
variable (hmax : 0 < vlmax) (hstrip : strip.Computes sh vlmax value)
include hmax hstrip

/-- The strips of a tile store its channels, however long they are. -/
theorem pixelWrites_eq (htile : tile.2 ≤ sh.OC) {n : ℕ} (hn : n < sh.N) (oh ow : ℕ) :
    pixelWrites v strip tile (n, oh, ow) = .ok ((List.range' tile.1 (tile.2 - tile.1)).map fun oc =>
      (outAddr sh (n, oc, oh, ow), value (n, oc, oh, ow))) := by
  have hstrips : (v.strips tile.1 tile.2).mapM (strip n oh ow) =
      .ok ((v.strips tile.1 tile.2).map fun s => (List.range' s.1 s.2).map fun oc =>
        (outAddr sh (n, oc, oh, ow), value (n, oc, oh, ow))) := by
    apply mapM_eq_ok_map
    intro s hs
    obtain ⟨-, hle, -, hmax'⟩ := v.bounds_of_mem_strips hmax hs
    rw [hstrip n hn oh ow s (by omega) hmax', range'_eq_map_range, map_map]
    rfl
  rw [pixelWrites, hstrips, ← v.flatMap_strips hmax, map_flatMap, flatMap_def]
  rfl

/-- The writes of a tile are those of its channels. -/
theorem tileWrites_eq (htile : tile.2 ≤ sh.OC) :
    ∃ writes, tileWrites sh v strip tile = .ok writes ∧ ∀ w, w ∈ writes ↔ ∃ n oc oh ow,
      (n, oc, oh, ow) ∈ sh.outputs ∧ (tile.1 ≤ oc ∧ oc < tile.2) ∧
        w = (outAddr sh (n, oc, oh, ow), value (n, oc, oh, ow)) := by
  have hloop : (List.range sh.N ×ˢ List.range sh.OH ×ˢ List.range sh.OW).mapM
      (pixelWrites v strip tile) = .ok
        ((List.range sh.N ×ˢ List.range sh.OH ×ˢ List.range sh.OW).map fun p =>
          (List.range' tile.1 (tile.2 - tile.1)).map fun oc =>
            (outAddr sh (p.1, oc, p.2.1, p.2.2), value (p.1, oc, p.2.1, p.2.2))) := by
    apply mapM_eq_ok_map
    rintro ⟨n, oh, ow⟩ hp
    exact pixelWrites_eq v hmax hstrip htile (mem_range.mp (mem_product.mp hp).1) oh ow
  refine ⟨_, by rw [tileWrites, hloop]; rfl, fun w => ?_⟩
  have hplaces : ∀ n oh ow, (n, oh, ow) ∈ List.range sh.N ×ˢ List.range sh.OH ×ˢ List.range sh.OW ↔
      n < sh.N ∧ oh < sh.OH ∧ ow < sh.OW := by
    intro n oh ow
    simp
  constructor
  · intro hw
    obtain ⟨l, hl, hw⟩ := mem_flatten.mp hw
    obtain ⟨⟨n, oh, ow⟩, hp, rfl⟩ := mem_map.mp hl
    obtain ⟨oc, hoc, rfl⟩ := mem_map.mp hw
    obtain ⟨hn, hoh, how⟩ := (hplaces n oh ow).mp hp
    rw [mem_range'_1] at hoc
    exact ⟨n, oc, oh, ow, ConvShape.mem_outputs.mpr ⟨hn, by omega, hoh, how⟩, by omega, rfl⟩
  · rintro ⟨n, oc, oh, ow, ht, hoc, rfl⟩
    obtain ⟨hn, -, hoh, how⟩ := ConvShape.mem_outputs.mp ht
    apply mem_flatten.mpr
    refine ⟨_, mem_map_of_mem ((hplaces n oh ow).mpr ⟨hn, hoh, how⟩), mem_map_of_mem ?_⟩
    rw [mem_range'_1]
    omega

/-- The loops over all channels compute the output. -/
theorem computes_tileWrites :
    Computes sh value (tileWrites sh v strip (0, sh.OC)) := by
  obtain ⟨writes, hrun, hmem⟩ := tileWrites_eq v hmax hstrip
    (show (0, sh.OC).2 ≤ sh.OC from Nat.le_refl _)
  refine ⟨writes, hrun, fun w hw => ?_, ?_⟩
  · obtain ⟨n, oc, oh, ow, ht, -, rfl⟩ := (hmem w).mp hw
    exact ⟨_, ht, rfl⟩
  · rintro ⟨n, oc, oh, ow⟩ ht
    have hoc := (ConvShape.mem_outputs.mp ht).2.1
    exact (hmem _).mpr ⟨n, oc, oh, ow, ht, ⟨Nat.zero_le _, hoc⟩, rfl⟩

end

end

section
variable {sh : ConvShape} (a : ConvArgs sh) (q : RvvBlock) (r : RvvRequant) (u : VectorUnit)

/-- A tile is not empty. -/
theorem tileOc_pos (sh : ConvShape) : 0 < tileOc u sh := by
  have hpos := sh.oc_pos
  rw [tileOc]
  split_ifs with htile
  · exact hpos
  · exact Nat.pos_of_ne_zero htile

/-- Every channel is in a tile, and no tile goes beyond the last channel. -/
theorem mem_ocTiles_iff (oc : ℕ) :
    (∃ tile ∈ ocTiles u sh, tile.1 ≤ oc ∧ oc < tile.2) ↔ oc < sh.OC := by
  have hpos := tileOc_pos u sh
  constructor
  · rintro ⟨tile, htile, -, hlt⟩
    obtain ⟨i, -, rfl⟩ := mem_map.mp htile
    exact hlt.trans_le (Nat.min_le_right _ _)
  · intro hoc
    have hdiv := Nat.div_add_mod oc (tileOc u sh)
    have hmod := Nat.mod_lt oc hpos
    rw [Nat.mul_comm] at hdiv
    refine ⟨_, mem_map_of_mem (mem_range.mpr (?_ : oc / tileOc u sh < _)), ?_, ?_⟩
    · rw [Nat.lt_iff_add_one_le, Nat.le_div_iff_mul_le hpos, Nat.add_mul, Nat.one_mul]
      omega
    · show oc / tileOc u sh * tileOc u sh ≤ oc
      omega
    · show oc < min _ _
      omega

theorem le_of_mem_ocTiles {tile : ℕ × ℕ} (h : tile ∈ ocTiles u sh) : tile.2 ≤ sh.OC := by
  obtain ⟨i, -, rfl⟩ := mem_map.mp h
  exact Nat.min_le_right _ _

/-- A strip of the kernels stores the elements of the vectors. -/
theorem computes_stripWrites : StripStores.Computes (stripWrites a q r) sh u.vlmax fun t =>
    vectorElement q.toQuantBlock r (a.accumulator q.toQuantBlock .ihwoc t) := by
  intro n hn oh ow s hs hmax
  rw [stripWrites, stripAcc_eq a q hn hs]
  show storeStrip sh n oh ow s (requantizeTail q r _) = _
  rw [requantizeTail_eq, map_map]
  exact storeStrip_eq sh n oh ow (hmax.trans u.vlmax_le) _

/-- The kernels compute the elements of the vectors. -/
theorem computes_rvvVsmulVnclip : Computes sh
    (fun t => vectorElement q.toQuantBlock r (a.accumulator q.toQuantBlock .ihwoc t))
    (rvvVsmulVnclip a q r u) :=
  computes_tileWrites u.vsetvl u.vlmax_pos (computes_stripWrites a q r u)

theorem computes_rvvOcBlocked : Computes sh
    (fun t => vectorElement q.toQuantBlock r (a.accumulator q.toQuantBlock .ihwoc t))
    (rvvOcBlocked a q r u) := by
  have htile : ∀ tile ∈ ocTiles u sh, _ := fun tile htile =>
    tileWrites_eq u.vsetvl u.vlmax_pos (computes_stripWrites a q r u) (le_of_mem_ocTiles u htile)
  obtain ⟨writes, hrun⟩ := exists_mapM_eq_ok fun tile hmem =>
    (htile tile hmem).imp fun _ h => h.1
  refine ⟨writes.flatten, by rw [rvvOcBlocked, hrun]; rfl, fun w hw => ?_, ?_⟩
  · obtain ⟨l, hl, hw⟩ := mem_flatten.mp hw
    obtain ⟨tile, hmem, htileRun⟩ := exists_of_mem_mapM hrun hl
    obtain ⟨l', hrun', hwrites⟩ := htile tile hmem
    rw [htileRun] at hrun'
    cases hrun'
    obtain ⟨n, oc, oh, ow, ht, -, rfl⟩ := (hwrites w).mp hw
    exact ⟨_, ht, rfl⟩
  · rintro ⟨n, oc, oh, ow⟩ ht
    obtain ⟨tile, hmem, hoc⟩ := (mem_ocTiles_iff u oc).mpr (ConvShape.mem_outputs.mp ht).2.1
    obtain ⟨l, hl, htileRun⟩ := exists_of_mapM_eq_ok hrun hmem
    obtain ⟨l', hrun', hwrites⟩ := htile tile hmem
    rw [htileRun] at hrun'
    cases hrun'
    exact mem_flatten.mpr ⟨l, hl, (hwrites _).mpr ⟨n, oc, oh, ow, ht, hoc, rfl⟩⟩

end

/-! ### Exactness -/

/-- Both kernels write the output of the reference for every argument, and their tails are the same,
iff no sum with the offset of the output leaves its register. -/
theorem rvvConv_exact_iff (sh : ConvShape) (q : RvvBlock) (r : RvvRequant) (u : VectorUnit) :
    ((∀ a : ConvArgs sh, (a.tensors .ihwoc).NoOverflow q.toQuantBlock →
        ∀ out : List ℤ, out.length = sh.outputs.length →
          runKernel out (rvvOcBlocked a q r u) = runKernel out
              (referenceConv2dS8 a q.toQuantBlock r.toRequantParams .ihwoc) ∧
            runKernel out (rvvVsmulVnclip a q r u) = runKernel out
              (referenceConv2dS8 a q.toQuantBlock r.toRequantParams .ihwoc)) ∧
      ∀ acc, Fits 32 acc → elementOf q.toQuantBlock r.toRequantParams acc =
        .ok (vectorElement q.toQuantBlock r acc)) ↔
    KeepsOffset q.toQuantBlock r := by
  constructor
  · rintro ⟨-, htail⟩
    by_contra hkeeps
    obtain ⟨hrange, acc, hacc, hstrays⟩ := exists_strays q.toQuantBlock r hkeeps
    rcases (elementOf_eq_iff q.toQuantBlock r hacc).mp (htail acc hacc) with hempty | hnot
    · omega
    · exact hnot hstrays
  · intro hkeeps
    have htail : ∀ acc, Fits 32 acc → elementOf q.toQuantBlock r.toRequantParams acc =
        .ok (vectorElement q.toQuantBlock r acc) := fun acc hacc =>
      (elementOf_eq_iff q.toQuantBlock r hacc).mpr
        (not_strays_of_keepsOffset q.toQuantBlock r hkeeps hacc)
    refine ⟨fun a _ out hout => ?_, htail⟩
    obtain ⟨f, hf⟩ := exists_elementOf q.toQuantBlock r.toRequantParams
    -- Only accumulators of 32 bits are compared.
    have hvalues : sh.outputs.map (fun t => f (a.accumulator q.toQuantBlock .ihwoc t)) =
        sh.outputs.map fun t =>
          vectorElement q.toQuantBlock r (a.accumulator q.toQuantBlock .ihwoc t) := by
      apply map_congr_left
      intro t _
      have hvalue := htail (a.accumulator q.toQuantBlock .ihwoc t) (fits_wrap (by decide) _)
      rw [hf] at hvalue
      exact Except.ok.inj hvalue
    rw [referenceConv2dS8, runKernel_of_computes (a.computes_referenceLoops _ _ hf) hout, hvalues,
      runKernel_of_computes (computes_rvvOcBlocked a q r u) hout,
      runKernel_of_computes (computes_rvvVsmulVnclip a q r u) hout]
    exact ⟨rfl, rfl⟩

/-- Vectors of four elements. -/
def shortVectors : VectorUnit where
  vlmax := 4
  vlmax_pos := by decide
  vlmax_le := by decide
  vsetvl := ⟨fun avl => min avl 4, fun avl => by constructor <;> omega⟩

/-- Quantisation with an output offset of one hundred. -/
def hundredBlock : RvvBlock :=
  ⟨{ symmetricBlock with outputOffset := 100, outputOffset_fits := by decide }, by decide, by decide⟩

/-- A multiplication by one half. -/
def halfRequant : RvvRequant :=
  ⟨{ identityRequant with multiplier := 2 ^ 30, multiplier_fits := by decide }, by decide, by decide⟩

/-- A convolution of one pixel, with a bias that its quantisation clamps. -/
def biasArgs : ConvArgs pointShape :=
  { zeroArgs with bias := some [2 ^ 16], bias_length := by decide, bias_fits := by decide }

/-- The reference clamps `32868` to `127`, and the vector kernels write `-128`: their sum has left 16
bits. -/
theorem rvvConv_biasArgs_differs : ¬∀ (sh : ConvShape) (q : RvvBlock) (r : RvvRequant)
    (u : VectorUnit) (a : ConvArgs sh), (a.tensors .ihwoc).NoOverflow q.toQuantBlock →
      ∀ out : List ℤ, out.length = sh.outputs.length →
        runKernel out (rvvOcBlocked a q r u) = runKernel out
            (referenceConv2dS8 a q.toQuantBlock r.toRequantParams .ihwoc) ∧
          runKernel out (rvvVsmulVnclip a q r u) = runKernel out
            (referenceConv2dS8 a q.toQuantBlock r.toRequantParams .ihwoc) := by
  intro h
  have hfits : (biasArgs.tensors .ihwoc).NoOverflow hundredBlock.toQuantBlock := by
    unfold ConvTensors.NoOverflow
    decide
  have hrun := (h pointShape hundredBlock halfRequant shortVectors biasArgs hfits [0] rfl).1
  have hvector : runKernel [0] (rvvOcBlocked biasArgs hundredBlock halfRequant shortVectors) =
      .ok [-128] := by decide
  have hscalar : runKernel [0] (referenceConv2dS8 biasArgs hundredBlock.toQuantBlock
      halfRequant.toRequantParams .ihwoc) = .ok [127] := by decide
  rw [hvector, hscalar] at hrun
  revert hrun
  decide

end ModelBlaster.Kernels
