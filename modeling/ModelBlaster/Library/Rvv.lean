import ModelBlaster.Library.TwosComplement

/-!
# Vector instructions

Part of the RISC-V vector extension. The length of a vector is set by the hardware, within limits.
An instruction works on the elements of the body. Those behind it are the tail: if the instruction
does not care about them, each of them either keeps its value or is overwritten with ones.

## Main definitions

* `LegalVl`, `Vsetvl`: the lengths that `vsetvl` may set, and a choice of them;
* `Vsetvl.strips`: the strips of a loop that goes on by the length of its vectors;
* `tailAgnostic`: what a destination holds after an instruction;
* `roundoff`, `saturate`: the rounding and the saturation of the fixed-point instructions.

## Main results

* `Vsetvl.flatMap_strips`: the strips make up the range;
* `Vsetvl.pairwise_strips`: they do not grow;
* `Vsetvl.exists_short_iff`: one of them is short iff the range is no multiple of the longest.
-/

namespace Rvv

open TwosComplement List

/-! ### Vector lengths -/

/-- The lengths that `vsetvl` may set for `avl` elements. -/
structure LegalVl (vlmax avl vl : ℕ) : Prop where
  le : vl ≤ vlmax
  short : avl ≤ vlmax → vl = avl
  half : vlmax < avl → avl < 2 * vlmax → avl ≤ 2 * vl
  long : 2 * vlmax ≤ avl → vl = vlmax

/-- The lengths that an implementation of `vsetvl` sets. -/
structure Vsetvl (vlmax : ℕ) where
  vl : ℕ → ℕ
  legal : ∀ avl, LegalVl vlmax avl (vl avl)

/-- The strips from `base` on: where each begins, and how long it is. -/
def stripsFrom (vl : ℕ → ℕ) (stop : ℕ) : ℕ → ℕ → List (ℕ × ℕ)
  | 0, _ => []
  | fuel + 1, base =>
    if base < stop then
      (base, vl (stop - base)) :: stripsFrom vl stop fuel (base + vl (stop - base))
    else []

namespace Vsetvl

variable {vlmax : ℕ} (v : Vsetvl vlmax)

/-- The strips of `[start, stop)`. -/
def strips (start stop : ℕ) : List (ℕ × ℕ) := stripsFrom v.vl stop (stop - start) start

/-- A strip is not empty, and not longer than what is left. -/
theorem vl_bounds (hmax : 0 < vlmax) {avl : ℕ} (havl : 0 < avl) :
    0 < v.vl avl ∧ v.vl avl ≤ avl ∧ v.vl avl ≤ vlmax := by
  obtain ⟨hle, hshort, hhalf, hlong⟩ := v.legal avl
  by_cases h₁ : avl ≤ vlmax
  · have := hshort h₁
    omega
  · by_cases h₂ : avl < 2 * vlmax
    · have := hhalf (by omega) h₂
      omega
    · have := hlong (by omega)
      omega

/-- The next strip is not longer. -/
theorem vl_sub_le {avl : ℕ} (havl : 0 < avl) :
    v.vl (avl - v.vl avl) ≤ v.vl avl := by
  obtain ⟨hle, hshort, hhalf, hlong⟩ := v.legal avl
  obtain ⟨hle', hshort', -, -⟩ := v.legal (avl - v.vl avl)
  by_cases h₁ : avl ≤ vlmax
  · have := hshort h₁
    omega
  · by_cases h₂ : avl < 2 * vlmax
    · have := hhalf (by omega) h₂
      omega
    · have := hlong (by omega)
      omega

section
variable {stop : ℕ} {base : ℕ}

private theorem flatMap_stripsFrom (hmax : 0 < vlmax) (fuel : ℕ) (hfuel : stop - base ≤ fuel) :
    (stripsFrom v.vl stop fuel base).flatMap (fun s => List.range' s.1 s.2) =
      List.range' base (stop - base) := by
  induction fuel generalizing base with
  | zero =>
    rw [Nat.le_zero.mp hfuel]
    rfl
  | succ fuel ih =>
    rw [stripsFrom]
    split_ifs with hlt
    · obtain ⟨hpos, hle, -⟩ := v.vl_bounds hmax (show 0 < stop - base by omega)
      rw [flatMap_cons, ih (by omega)]
      show List.range' base (v.vl (stop - base)) ++ List.range' (base + v.vl (stop - base)) _ = _
      rw [range'_append_1]
      congr 1
      omega
    · rw [show stop - base = 0 by omega]
      rfl

/-- Strips do not grow from one to the next. -/
private theorem pairwise_stripsFrom (fuel : ℕ) :
    (stripsFrom v.vl stop fuel base).Pairwise (fun s s' => s'.2 ≤ s.2) ∧
      ∀ s ∈ stripsFrom v.vl stop fuel base, base < stop ∧ s.2 ≤ v.vl (stop - base) := by
  induction fuel generalizing base with
  | zero => exact ⟨.nil, fun s hs => absurd hs not_mem_nil⟩
  | succ fuel ih =>
    rw [stripsFrom]
    split_ifs with hlt
    · obtain ⟨hpairwise, hbound⟩ := @ih (base + v.vl (stop - base))
      have hnext := v.vl_sub_le (show 0 < stop - base by omega)
      rw [Nat.sub_sub] at hnext
      have hrest : ∀ s ∈ stripsFrom v.vl stop fuel (base + v.vl (stop - base)),
          s.2 ≤ v.vl (stop - base) := fun s hs => (hbound s hs).2.trans hnext
      refine ⟨pairwise_cons.mpr ⟨hrest, hpairwise⟩, fun s hs => ?_⟩
      rcases mem_cons.mp hs with rfl | hs
      · exact ⟨hlt, Nat.le_refl _⟩
      · exact ⟨hlt, hrest s hs⟩
    · exact ⟨.nil, fun s hs => absurd hs not_mem_nil⟩

private theorem bounds_stripsFrom (hmax : 0 < vlmax) (fuel : ℕ) :
    ∀ s ∈ stripsFrom v.vl stop fuel base,
      base ≤ s.1 ∧ s.1 + s.2 ≤ stop ∧ 0 < s.2 ∧ s.2 ≤ vlmax := by
  induction fuel generalizing base with
  | zero => exact fun s hs => absurd hs not_mem_nil
  | succ fuel ih =>
    rw [stripsFrom]
    split_ifs with hlt
    · intro s hs
      obtain ⟨hpos, hle, hmax'⟩ := v.vl_bounds hmax (show 0 < stop - base by omega)
      rcases mem_cons.mp hs with rfl | hs
      · exact ⟨Nat.le_refl _, by omega, hpos, hmax'⟩
      · obtain ⟨hbase, hrest⟩ := ih s hs
        exact ⟨by omega, hrest⟩
    · exact fun s hs => absurd hs not_mem_nil

private theorem forall_stripsFrom_iff (hmax : 0 < vlmax) (fuel : ℕ) (hfuel : stop - base ≤ fuel) :
    (∀ s ∈ stripsFrom v.vl stop fuel base, s.2 = vlmax) ↔ vlmax ∣ stop - base := by
  induction fuel generalizing base with
  | zero =>
    rw [Nat.le_zero.mp hfuel]
    exact iff_of_true (fun s hs => absurd hs not_mem_nil) (Nat.dvd_zero _)
  | succ fuel ih =>
    rw [stripsFrom]
    split_ifs with hlt
    · obtain ⟨hpos, hle, -⟩ := v.vl_bounds hmax (show 0 < stop - base by omega)
      obtain ⟨-, hshort, -, hlong⟩ := v.legal (stop - base)
      rw [forall_mem_cons, ih (by omega), ← Nat.sub_sub]
      constructor
      · rintro ⟨hvl, hdvd⟩
        replace hvl : v.vl (stop - base) = vlmax := hvl
        rw [hvl] at hdvd hle
        exact (Nat.dvd_sub_iff_left hle (Nat.dvd_refl _)).mp hdvd
      · intro hdvd
        -- A multiple is the longest vector, or has two of them.
        have hvl : v.vl (stop - base) = vlmax := by
          obtain ⟨c, hc⟩ := hdvd
          rcases c with _ | _ | c
          · omega
          · rw [hshort (by omega)]
            omega
          · exact hlong (by rw [hc, Nat.mul_comm]; exact Nat.mul_le_mul_left _ (by omega))
        exact ⟨hvl, hvl.symm ▸ Nat.dvd_sub hdvd (Nat.dvd_refl _)⟩
    · rw [show stop - base = 0 by omega]
      exact iff_of_true (fun s hs => absurd hs not_mem_nil) (Nat.dvd_zero _)

end

variable {start stop : ℕ}

/-- The strips make up the range. -/
theorem flatMap_strips (hmax : 0 < vlmax) :
    (v.strips start stop).flatMap (fun s => List.range' s.1 s.2) =
      List.range' start (stop - start) :=
  v.flatMap_stripsFrom hmax _ (Nat.le_refl _)

/-- The strips do not grow. -/
theorem pairwise_strips : (v.strips start stop).Pairwise fun s s' => s'.2 ≤ s.2 :=
  (v.pairwise_stripsFrom _).1

theorem bounds_of_mem_strips (hmax : 0 < vlmax) {s : ℕ × ℕ} (hs : s ∈ v.strips start stop) :
    start ≤ s.1 ∧ s.1 + s.2 ≤ stop ∧ 0 < s.2 ∧ s.2 ≤ vlmax :=
  v.bounds_stripsFrom hmax _ s hs

/-- No strip is short iff the range is a multiple of the longest vector. -/
theorem forall_strips_iff (hmax : 0 < vlmax) :
    (∀ s ∈ v.strips start stop, s.2 = vlmax) ↔ vlmax ∣ stop - start :=
  v.forall_stripsFrom_iff hmax _ (Nat.le_refl _)

end Vsetvl

/-! ### Tails -/

/-- A destination after an instruction on the first `vl` elements: an element of the tail either is
overwritten with ones or keeps its value. -/
def tailAgnostic (vl : ℕ) (tail : ℕ → Bool) (old new : ℕ → ℤ) : ℕ → ℤ := fun i =>
  if i < vl then new i else if tail i then -1 else old i

/-- An accumulator of `w` bits in each lane, after the strips of a loop that adds the elements of
`f`. What becomes of the tail depends on the strip. -/
def accumulate (w : ℕ) (tail : ℕ → ℕ → Bool) (f : ℕ → ℤ) (strips : List (ℕ × ℕ)) (acc : ℕ → ℤ) :
    ℕ → ℤ :=
  strips.foldl (fun acc s =>
    tailAgnostic s.2 (tail s.1) acc fun i => wrap w (acc i + f (s.1 + i))) acc

/-- What the strips that reach a lane add to it. -/
def laneSum (f : ℕ → ℤ) (strips : List (ℕ × ℕ)) (i : ℕ) : ℤ :=
  (strips.map fun s => if i < s.2 then f (s.1 + i) else 0).sum

/-- A strip that does not reach a lane overwrites it. -/
def Overwritten (tail : ℕ → ℕ → Bool) (strips : List (ℕ × ℕ)) (i : ℕ) : Prop :=
  ∃ s ∈ strips, s.2 ≤ i ∧ tail s.1 i = true

section
variable {w : ℕ} {tail : ℕ → ℕ → Bool} {f : ℕ → ℤ} {strips : List (ℕ × ℕ)} {acc : ℕ → ℤ} {i : ℕ}

instance : Decidable (Overwritten tail strips i) :=
  inferInstanceAs (Decidable (∃ s ∈ strips, s.2 ≤ i ∧ tail s.1 i = true))

theorem overwritten_cons {s : ℕ × ℕ} : Overwritten tail (s :: strips) i ↔
    (s.2 ≤ i ∧ tail s.1 i = true) ∨ Overwritten tail strips i :=
  exists_mem_cons_iff _ _ _

/-- A lane that no strip reaches. -/
theorem accumulate_of_unreached (h : ∀ s ∈ strips, s.2 ≤ i) :
    accumulate w tail f strips acc i = if Overwritten tail strips i then -1 else acc i := by
  induction strips generalizing acc with
  | nil => simp [accumulate, Overwritten]
  | cons s rest ih =>
    have hs := h s mem_cons_self
    have hhead : accumulate w tail f (s :: rest) acc i = accumulate w tail f rest
        (tailAgnostic s.2 (tail s.1) acc fun i => wrap w (acc i + f (s.1 + i))) i := rfl
    rw [hhead, ih fun s' hs' => h s' (mem_cons_of_mem s hs'), tailAgnostic,
      if_neg (Nat.not_lt.mpr hs)]
    by_cases htail : tail s.1 i = true
    · rw [if_pos htail, ite_self, if_pos (overwritten_cons.mpr (.inl ⟨hs, htail⟩))]
    · have hiff : Overwritten tail (s :: rest) i ↔ Overwritten tail rest i :=
        overwritten_cons.trans (or_iff_right fun h => htail h.2)
      rw [if_neg htail]
      simp only [hiff]

/-- A lane holds what the strips have added to it, until one of them overwrites it. -/
theorem accumulate_lane (hpairwise : strips.Pairwise fun s s' => s'.2 ≤ s.2)
    (hacc : wrap w (acc i) = acc i) : accumulate w tail f strips acc i =
      if Overwritten tail strips i then -1 else wrap w (acc i + laneSum f strips i) := by
  induction strips generalizing acc with
  | nil => simp [accumulate, Overwritten, laneSum, hacc]
  | cons s rest ih =>
    obtain ⟨hle, hrest⟩ := pairwise_cons.mp hpairwise
    by_cases hs : i < s.2
    · have hhead : accumulate w tail f (s :: rest) acc i = accumulate w tail f rest
          (tailAgnostic s.2 (tail s.1) acc fun i => wrap w (acc i + f (s.1 + i))) i := rfl
      have hnew : tailAgnostic s.2 (tail s.1) acc (fun i => wrap w (acc i + f (s.1 + i))) i =
          wrap w (acc i + f (s.1 + i)) := if_pos hs
      have hover : Overwritten tail (s :: rest) i ↔ Overwritten tail rest i :=
        overwritten_cons.trans (or_iff_right fun h => Nat.not_le.mpr hs h.1)
      rw [hhead, ih hrest (by rw [hnew, wrap_wrap]), hnew, wrap_wrap_add, add_assoc]
      simp only [hover, laneSum, map_cons, sum_cons, if_pos hs]
    · have hall : ∀ s' ∈ s :: rest, s'.2 ≤ i := by
        intro s' hs'
        rcases mem_cons.mp hs' with rfl | hs'
        · exact Nat.not_lt.mp hs
        · exact (hle s' hs').trans (Nat.not_lt.mp hs)
      have hzero : laneSum f (s :: rest) i = 0 := by
        apply sum_eq_zero
        intro x hx
        obtain ⟨s', hs', rfl⟩ := mem_map.mp hx
        exact if_neg (Nat.not_lt.mpr (hall s' hs'))
      rw [accumulate_of_unreached hall, hzero, add_zero, hacc]

/-- The first elements of a sum. -/
private theorem sum_range_ite {n m : ℕ} (h : n ≤ m) (g : ℕ → ℤ) :
    ((List.range m).map fun i => if i < n then g i else 0).sum = ((List.range n).map g).sum := by
  induction m, h using Nat.le_induction with
  | base =>
    congr 1
    exact map_congr_left fun i hi => if_pos (mem_range.mp hi)
  | succ m hle ih =>
    rw [range_succ, map_append, sum_append, ih, map_singleton,
      sum_singleton, if_neg (by omega), add_zero]

/-- The lanes together hold the sum of the range. -/
theorem sum_laneSum {n : ℕ} (h : ∀ s ∈ strips, s.2 ≤ n) :
    ((List.range n).map (laneSum f strips)).sum =
      ((strips.flatMap fun s => List.range' s.1 s.2).map f).sum := by
  induction strips with
  | nil =>
    apply sum_eq_zero
    intro x hx
    obtain ⟨i, -, rfl⟩ := mem_map.mp hx
    rfl
  | cons s rest ih =>
    obtain ⟨hs, hrest⟩ := forall_mem_cons.mp h
    have hlane : laneSum f (s :: rest) = fun i =>
        (if i < s.2 then f (s.1 + i) else 0) + laneSum f rest i := rfl
    rw [hlane, sum_map_add, sum_range_ite hs fun i => f (s.1 + i), ih hrest,
      flatMap_cons, map_append, sum_append, range'_eq_map_range,
      map_map]
    rfl

end

/-! ### Fixed point -/

/-- A right shift that rounds to the nearest value, and up from the middle. -/
def roundoff (v : ℤ) (d : ℕ) : ℤ :=
  if d = 0 then v else v / 2 ^ d + v / 2 ^ (d - 1) % 2

/-- The nearest value that a register of `w` bits can hold. -/
def saturate (w : ℕ) (x : ℤ) : ℤ := max (-2 ^ (w - 1)) (min x (2 ^ (w - 1) - 1))

/-- `vsmul` on registers of `w` bits: the product of two fractions. -/
def vsmul (w : ℕ) (x y : ℤ) : ℤ := saturate w (roundoff (x * y) (w - 1))

/-- `vnclip` to `w` bits: the shift is taken modulo the width of the source. -/
def vnclip (w : ℕ) (x : ℤ) (shift : ℕ) : ℤ := saturate w (roundoff x (shift % (2 * w)))

/-- `vsll` -/
def vsll (w : ℕ) (x : ℤ) (shift : ℕ) : ℤ := wrap w (x * 2 ^ (shift % w))

/-- `vsra` -/
def vsra (w : ℕ) (x : ℤ) (shift : ℕ) : ℤ := x / 2 ^ (shift % w)

/-- `vnsra` to `w` bits. -/
def vnsra (w : ℕ) (x : ℤ) (shift : ℕ) : ℤ := wrap w (x / 2 ^ (shift % (2 * w)))

/-- The increment is a carry. -/
theorem roundoff_eq (v : ℤ) {d : ℕ} (hd : 0 < d) : roundoff v d = (v + 2 ^ (d - 1)) / 2 ^ d := by
  obtain ⟨e, rfl⟩ : ∃ e, d = e + 1 := ⟨d - 1, by omega⟩
  rw [roundoff, if_neg (Nat.succ_ne_zero e), Nat.add_sub_cancel, pow_succ,
    ← Int.ediv_ediv_of_nonneg (by positivity), ← Int.ediv_ediv_of_nonneg (by positivity)]
  have hadd : (v + 2 ^ e) / 2 ^ e = v / 2 ^ e + 1 := by
    rw [Int.add_ediv_of_dvd_right (dvd_refl _), Int.ediv_self (by positivity)]
  omega

/-- What fits is not changed. -/
theorem saturate_of_fits {w : ℕ} {x : ℤ} (h : Fits w x) : saturate w x = x := by
  obtain ⟨hlo, hhi⟩ := h
  rw [saturate]
  omega

end Rvv
