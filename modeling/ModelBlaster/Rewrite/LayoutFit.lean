import ModelBlaster.Library.MixedRadix
import ModelBlaster.Rewrite.LayoutFold
import ModelBlaster.Library.Strided

/-!
# Merging and fitting sizes

`merge` and `fit` rewrite a list of sizes with strides. Row-major, the list stands for the positions
`Strided.offsets`, and both keep them.

## Main definitions

* `moves`: how far the outer map goes along each size.

## Main results

* `value_of_place`: a piece denotes the digits of a move;
* `compose_exact_iff`: a composed map is right iff the carries cancel;
* `merge_fit_exact`: what `merge` and `fit` return, and when `fit` returns nothing.
-/

/-! ## Composed maps -/

namespace ModelBlaster.LayoutFold

open Fallible MixedRadix List

/-! ### Coordinates -/

/-- The coordinates of an element. -/
def coords : List ℕ → ℕ → List ℕ
  | [], _ => []
  | d :: ds, p => p / ds.prod % d :: coords ds p

theorem coords_cons (d : ℕ) (ds : List ℕ) (p : ℕ) :
    coords (d :: ds) p = p / ds.prod % d :: coords ds p := rfl

theorem contig_cons (d : ℕ) (ds : List ℕ) : contig (d :: ds) = ds.prod :: contig ds := rfl

theorem unravelFrom_cons (p d : ℕ) (ds : List ℕ) :
    unravelFrom p (d :: ds) = unravelFrom p ds >>= fun r =>
      mod r.1 d >>= fun i => .ok (r.1 / d, i :: r.2) := rfl

variable {ds idx : List ℕ} {p base d dr : ℕ} {post pre pieces : List (ℕ × ℕ)}

theorem unravelFrom_eq (h : ∀ d ∈ ds, 0 < d) (p : ℕ) :
    unravelFrom p ds = .ok (p / ds.prod, coords ds p) := by
  induction ds with
  | nil => simp [unravelFrom, coords]
  | cons d ds ih =>
    rw [forall_mem_cons] at h
    rw [unravelFrom_cons, ih h.2]
    show (mod (p / ds.prod) d >>= fun i => _) = _
    rw [mod, if_neg h.1.ne', prod_cons, Nat.mul_comm, ← Nat.div_div_eq_div_mul]
    rfl

theorem unravel_eq (h : ∀ d ∈ ds, 0 < d) (p : ℕ) :
    unravel p ds = .ok (coords ds p) := by
  rw [unravel, unravelFrom_eq h]
  rfl

/-- Coordinates exist for positive sizes only. -/
theorem pos_of_unravelFrom {r : ℕ × List ℕ} (h : unravelFrom p ds = .ok r) : ∀ d ∈ ds, 0 < d := by
  induction ds generalizing r with
  | nil => exact forall_mem_nil _
  | cons d ds ih =>
    rw [unravelFrom_cons, bind_eq_ok_iff] at h
    obtain ⟨⟨q, idx⟩, hrest, h⟩ := h
    rw [bind_eq_ok_iff] at h
    obtain ⟨i, hi, -⟩ := h
    refine forall_mem_cons.mpr ⟨Nat.pos_of_ne_zero fun hd => ?_, ih hrest⟩
    rw [mod, if_pos hd] at hi
    cases hi

theorem pos_of_unravel (h : unravel p ds = .ok idx) :
    ∀ d ∈ ds, 0 < d := by
  rw [unravel, bind_eq_ok_iff] at h
  obtain ⟨r, hr, -⟩ := h
  exact pos_of_unravelFrom hr

/-- The coordinates by the strides are the value of the element. -/
theorem sum_coords (dims : List (ℕ × ℕ)) (p : ℕ) :
    (((coords (dims.map Prod.fst) p).zip dims).map fun q => q.1 * q.2.2).sum = value dims p := by
  induction dims with
  | nil => rfl
  | cons x dims ih =>
    rw [map_cons, coords_cons, zip_cons_cons, map_cons, sum_cons, ih, value_cons, radix]

/-- Where a map finds an element. -/
theorem eval_coords (m : AffineMap) (p : ℕ) :
    m.eval (coords m.sizes p) = m.off + value m.dims p := by
  rw [AffineMap.eval, AffineMap.sizes, sum_coords]

/-! ### Pieces -/

/-- The inner sizes, with their contiguous strides and the coordinates of the offset. -/
def table : List (ℕ × ℕ) → ℕ → List ((ℕ × ℕ) × ℕ × ℕ)
  | [], _ => []
  | (d, s) :: dims, off => ((d, s), radix dims, off / radix dims % d) :: table dims off

theorem table_cons (d s : ℕ) (dims : List (ℕ × ℕ)) (off : ℕ) :
    table ((d, s) :: dims) off = ((d, s), radix dims, off / radix dims % d) :: table dims off := rfl

theorem zip_eq_table (dims : List (ℕ × ℕ)) (off : ℕ) :
    dims.zip ((contig (dims.map Prod.fst)).zip (coords (dims.map Prod.fst) off)) =
      table dims off := by
  induction dims with
  | nil => rfl
  | cons x dims ih =>
    rw [map_cons, contig_cons, coords_cons, zip_cons_cons, zip_cons_cons, ih, table_cons, radix]

/-- An entry of the table stands for a size of the inner map. -/
theorem exists_of_mem_table {dims : List (ℕ × ℕ)} {off s c : ℕ}
    (h : ((d, s), c, base) ∈ table dims off) :
    ∃ pre post, dims = pre ++ (d, s) :: post ∧ c = radix post := by
  induction dims with
  | nil => cases h
  | cons x dims ih =>
    obtain ⟨d', s'⟩ := x
    rcases mem_cons.mp h with heq | hmem
    · simp only [Prod.mk.injEq] at heq
      obtain ⟨⟨rfl, rfl⟩, rfl, -⟩ := heq
      exact ⟨[], dims, rfl, rfl⟩
    · obtain ⟨pre, post, rfl, hc⟩ := ih hmem
      exact ⟨(d', s') :: pre, post, rfl, hc⟩

/-- The element zero. -/
theorem value_zero (dims : List (ℕ × ℕ)) : value dims 0 = 0 := by
  induction dims with
  | nil => rfl
  | cons x dims ih =>
    rw [value_cons, ih, Nat.zero_div, Nat.zero_mod, Nat.zero_mul]

/-- A number whose digits below one digit are zero. -/
theorem value_split (s : ℕ) (hpost : 0 < radix post) (a : ℕ) {b : ℕ} (hb : b < d) :
    value (pre ++ (d, s) :: post) ((a * d + b) * radix post) = value pre a + b * s := by
  have hd : 0 < d := by omega
  rw [value_append, radix_cons, value_cons, Nat.mul_div_cancel _ hpost, Nat.mul_comm d,
    ← Nat.div_div_eq_div_mul, Nat.mul_div_cancel _ hpost]
  have hquot : (a * d + b) / d = a := by
    rw [Nat.mul_comm, Nat.mul_add_div hd, Nat.div_eq_of_lt hb, Nat.add_zero]
  have hrem : (a * d + b) % d = b := by
    rw [Nat.mul_comm, Nat.mul_add_mod, Nat.mod_eq_of_lt hb]
  rw [hquot, hrem, ← value_mod post, Nat.mul_mod_left, value_zero, Nat.add_zero]

variable {dims : List (ℕ × ℕ)} {off : ℕ}

/-- Moves that stay within one digit. -/
theorem value_within {sr t : ℕ} (hpost : 0 < radix post) (hrem : t % radix post = 0)
    (hfits : base + (d - 1) * (t / radix post) < dr) {i : ℕ} (hi : i < d) :
    value [(d, t / radix post * sr)] i = value (pre ++ (dr, sr) :: post) (i * t) := by
  have hmove : i * t = (0 * dr + i * (t / radix post)) * radix post := by
    rw [Nat.zero_mul, Nat.zero_add, Nat.mul_assoc, Nat.div_mul_cancel (Nat.dvd_of_mod_eq_zero hrem)]
  have hdigit : i * (t / radix post) < dr := by
    have hle : i * (t / radix post) ≤ (d - 1) * (t / radix post) :=
      Nat.mul_le_mul_right _ (by omega)
    omega
  rw [hmove, value_split sr hpost 0 hdigit, value_zero, Nat.zero_add, value_singleton _ hi,
    Nat.mul_assoc]

/-- Moves by units of a digit: those through the whole digit, and those within it. -/
theorem value_through (sr : ℕ) (hpost : 0 < radix post) (hdr : 0 < dr) (i : ℕ) :
    value (pre ++ (dr, sr) :: post) (i * radix post) =
      value (pre ++ (dr, sr) :: post) (i / dr * (radix post * dr)) +
        value (pre ++ (dr, sr) :: post) (i % dr * radix post) := by
  have hdigit : i % dr < dr := Nat.mod_lt i hdr
  have hall : i * radix post = (i / dr * dr + i % dr) * radix post := by rw [Nat.div_add_mod']
  have hthrough : i / dr * (radix post * dr) = (i / dr * dr + 0) * radix post := by ring
  have hwithin : i % dr * radix post = (0 * dr + i % dr) * radix post := by ring
  rw [hall, hthrough, value_split sr hpost _ hdigit, value_split sr hpost _ hdr, hwithin,
    value_split sr hpost _ hdigit, value_zero]
  ring

/-- The pieces of a size denote the digits of its moves, without carries among them. -/
theorem value_of_place (hpos : ∀ x ∈ dims, 0 < x.1) {fuel t : ℕ}
    (h : place (table dims off) fuel d t = .ok (some pieces)) :
    radix pieces = d ∧ ∀ i < d, value pieces i = value dims (i * t) := by
  induction fuel generalizing d t pieces with
  | zero => cases h
  | succ fuel ih =>
    rw [place] at h
    by_cases hone : d = 1
    · rw [if_pos hone] at h
      obtain rfl := Option.some.inj (Except.ok.inj h)
      refine ⟨hone.symm, fun i hi => ?_⟩
      obtain rfl : i = 0 := by omega
      rw [Nat.zero_mul, value_zero, value_zero]
    rw [if_neg hone] at h
    by_cases hzero : t = 0
    · rw [if_pos hzero] at h
      obtain rfl := Option.some.inj (Except.ok.inj h)
      refine ⟨by simp, fun i hi => ?_⟩
      rw [hzero, Nat.mul_zero, value_zero, value_singleton 0 hi, Nat.mul_zero]
    rw [if_neg hzero] at h
    split at h
    · cases h
    rename_i dr sr cr base hfind
    obtain ⟨pre, post, rfl, rfl⟩ := exists_of_mem_table (mem_of_find?_eq_some hfind)
    have hpost : 0 < radix post :=
      radix_pos fun x hx => hpos x (mem_append_right _ (mem_cons_of_mem _ hx))
    by_cases hrem : t % radix post ≠ 0
    · rw [if_pos hrem] at h
      cases h
    rw [if_neg hrem] at h
    rw [not_not] at hrem
    by_cases hfits : base + (d - 1) * (t / radix post) < dr
    · rw [if_pos hfits] at h
      obtain rfl := Option.some.inj (Except.ok.inj h)
      exact ⟨by simp, fun i hi => value_within hpost hrem hfits hi⟩
    rw [if_neg hfits] at h
    by_cases hsplit : t / radix post ≠ 1 ∨ base ≠ 0 ∨ d % dr ≠ 0
    · rw [if_pos hsplit] at h
      cases h
    rw [if_neg hsplit, bind_eq_ok_iff] at h
    rw [not_or, not_or, not_not, not_not, not_not] at hsplit
    obtain ⟨hstep, -, hd⟩ := hsplit
    obtain ⟨_ | outer, houter, h⟩ := h
    · cases h
    rw [bind_eq_ok_iff] at h
    obtain ⟨_ | inner, hinner, h⟩ := h
    · cases h
    obtain rfl := Option.some.inj (Except.ok.inj h)
    obtain ⟨hradix, hvalue⟩ := ih houter
    obtain ⟨hradix', hvalue'⟩ := ih hinner
    have ht : t = radix post := by
      have hmul := Nat.div_mul_cancel (Nat.dvd_of_mod_eq_zero hrem)
      rwa [hstep, Nat.one_mul, eq_comm] at hmul
    have hdr : 0 < dr := hpos (dr, sr) (by simp)
    have hall : d / dr * dr = d := Nat.div_mul_cancel (Nat.dvd_of_mod_eq_zero hd)
    refine ⟨by rw [radix_append, hradix, hradix', hall], fun i hi => ?_⟩
    have hquot : i / dr < d / dr := Nat.div_lt_of_lt_mul (by rwa [Nat.mul_comm, hall])
    rw [value_append, hradix', hvalue _ hquot, ← value_mod inner, hradix',
      hvalue' _ (Nat.mod_lt i hdr), ht, ← value_through sr hpost hdr]

/-- How far the outer map goes along each size, at an index. -/
def moves (idx : List ℕ) (dims : List (ℕ × ℕ)) : List ℕ := (idx.zip dims).map fun p => p.1 * p.2.2

/-- The number of an index in row-major order. -/
def ravel (idx ds : List ℕ) : ℕ := ((idx.zip (contig ds)).map fun q => q.1 * q.2).sum

theorem ravel_lt (h : List.Forall₂ (· < ·) idx ds) : ravel idx ds < ds.prod := by
  induction h with
  | nil => exact Nat.one_pos
  | @cons i d idx ds hi _ ih =>
    calc i * ds.prod + ravel idx ds < i * ds.prod + ds.prod := Nat.add_lt_add_left ih _
      _ = (i + 1) * ds.prod := (Nat.succ_mul i _).symm
      _ ≤ d * ds.prod := Nat.mul_le_mul_right _ hi

/-- The pieces of all sizes denote the digits of each move on its own. -/
theorem value_of_placeAll (hpos : ∀ x ∈ dims, 0 < x.1) {work : List (ℕ × ℕ)}
    (h : placeAll (table dims off) work = .ok (some pieces)) :
    radix pieces = radix work ∧ ∀ idx, List.Forall₂ (· < ·) idx (work.map Prod.fst) →
      value pieces (ravel idx (work.map Prod.fst)) = ((moves idx work).map (value dims)).sum := by
  induction work generalizing pieces with
  | nil =>
    obtain rfl := Option.some.inj (Except.ok.inj h)
    refine ⟨rfl, fun idx hidx => ?_⟩
    obtain rfl := forall₂_nil_right_iff.mp hidx
    rfl
  | cons x work ih =>
    obtain ⟨d, t⟩ := x
    rw [placeAll, bind_eq_ok_iff] at h
    obtain ⟨_ | first, hfirst, h⟩ := h
    · cases h
    rw [bind_eq_ok_iff] at h
    obtain ⟨_ | others, hothers, h⟩ := h
    · cases h
    obtain rfl := Option.some.inj (Except.ok.inj h)
    obtain ⟨hradix, hvalue⟩ := value_of_place hpos hfirst
    obtain ⟨hradix', hvalue'⟩ := ih hothers
    refine ⟨by rw [radix_append, hradix, hradix', radix_cons], fun idx hidx => ?_⟩
    obtain ⟨i, rest, hi, hrest, rfl⟩ := forall₂_cons_right_iff.mp hidx
    have hlt : ravel rest (work.map Prod.fst) < radix work := ravel_lt hrest
    have hlin : ravel (i :: rest) (((d, t) :: work).map Prod.fst) =
        radix work * i + ravel rest (work.map Prod.fst) := by
      rw [Nat.mul_comm]
      rfl
    have hquot : (radix work * i + ravel rest (work.map Prod.fst)) / radix work = i := by
      rw [Nat.mul_add_div (by omega), Nat.div_eq_of_lt hlt, Nat.add_zero]
    have hmod : (radix work * i + ravel rest (work.map Prod.fst)) % radix work =
        ravel rest (work.map Prod.fst) := by
      rw [Nat.mul_add_mod, Nat.mod_eq_of_lt hlt]
    rw [value_append, hlin, hradix', hquot, hvalue i hi, ← value_mod others, hradix', hmod,
      hvalue' rest hrest]
    rfl

/-! ### The composed map -/

variable {draw : List ℕ → List (List ℕ)} {outer inner cand : AffineMap} {innerShape : List ℕ}

/-- A map that is returned consists of the pieces, and the corners agree. -/
theorem of_compose (h : compose draw outer innerShape inner = .ok (some cand)) :
    (∀ x ∈ inner.dims, 0 < x.1) ∧
      placeAll (table inner.dims outer.off) outer.dims = .ok (some cand.dims) ∧
      cand.off = inner.off + value inner.dims outer.off ∧
      same draw outer inner cand = .ok true := by
  unfold compose at h
  dsimp only at h
  split_ifs at h with hcount
  · cases h
  rw [bind_eq_ok_iff] at h
  obtain ⟨base, hbase, h⟩ := h
  have hpos := pos_of_unravel hbase
  obtain rfl := Except.ok.inj ((unravel_eq hpos _).symm.trans hbase)
  rw [AffineMap.sizes, zip_eq_table, sum_coords, bind_eq_ok_iff] at h
  obtain ⟨_ | pieces, hpieces, h⟩ := h
  · cases h
  rw [bind_eq_ok_iff] at h
  obtain ⟨agree, hagree, h⟩ := h
  cases agree with
  | false => cases h
  | true =>
    obtain rfl := Option.some.inj (Except.ok.inj h)
    exact ⟨fun x hx => hpos x.1 (mem_map_of_mem hx), hpieces, rfl, hagree⟩

/-- All points that were checked agree. -/
theorem agrees_of_allAgree {points : List (List ℕ)}
    (h : allAgree outer inner cand points = .ok true) :
    ∀ idx ∈ points, agrees outer inner cand idx = .ok true := by
  induction points with
  | nil => exact forall_mem_nil _
  | cons idx points ih =>
    rw [allAgree, bind_eq_ok_iff] at h
    obtain ⟨agree, hagree, h⟩ := h
    cases agree with
    | false => cases h
    | true => exact forall_mem_cons.mpr ⟨hagree, ih h⟩

/-- The corners are always checked. Without sizes there is one point. -/
theorem agrees_of_same (h : same draw outer inner cand = .ok true) :
    (∀ d ∈ outer.sizes, 0 < d) ∧
      agrees outer inner cand (outer.sizes.map (· - 1)) = .ok true := by
  unfold same at h
  split_ifs at h
  · cases h
  · rw [bind_eq_ok_iff] at h
    obtain ⟨points, hpoints, h⟩ := h
    have hall := agrees_of_allAgree h
    unfold samples at hpoints
    split_ifs at hpoints with hnil hzero
    · obtain rfl := Except.ok.inj hpoints
      rw [hnil]
      exact ⟨forall_mem_nil _, hall [] (by simp)⟩
    · obtain rfl := Except.ok.inj hpoints
      exact ⟨fun d hd => Nat.pos_of_ne_zero fun h0 => hzero (h0 ▸ hd), hall _ (by simp)⟩

/-- The element that the outer map reads is the sum of its offset and its moves. -/
theorem eval_eq_sum (m : AffineMap) (idx : List ℕ) :
    m.eval idx = (m.off :: moves idx m.dims).sum := rfl

/-- What the check computes at one index, for maps with positive sizes. -/
theorem agrees_eq (hinner : ∀ x ∈ inner.dims, 0 < x.1) (hcand : ∀ x ∈ cand.dims, 0 < x.1)
    (idx : List ℕ) : agrees outer inner cand idx =
      .ok (cand.off + value cand.dims (ravel idx outer.sizes) =
        if inner.dims = [] then inner.off + outer.eval idx
        else inner.off + value inner.dims (outer.eval idx) : Bool) := by
  have hsizes : ∀ d ∈ inner.sizes, 0 < d := forall_mem_map.mpr hinner
  have hsizes' : ∀ d ∈ cand.sizes, 0 < d := forall_mem_map.mpr hcand
  have hthere : ∀ want : ℕ, (do
      let there ← unravel (ravel idx outer.sizes) cand.sizes
      return (cand.eval there = want : Bool) : Except FoldError Bool) =
        .ok (cand.off + value cand.dims (ravel idx outer.sizes) = want : Bool) := by
    intro want
    rw [unravel_eq hsizes', ← eval_coords]
    rfl
  unfold agrees
  dsimp only
  split_ifs
  · exact hthere _
  · rw [unravel_eq hsizes, ← eval_coords inner]
    exact hthere _

/-- An index is not beyond the corner with the largest coordinates. -/
theorem eval_le_corner (m : AffineMap) (h : List.Forall₂ (· < ·) idx m.sizes) :
    m.eval idx ≤ m.eval (m.sizes.map (· - 1)) := by
  obtain ⟨off, dims⟩ := m
  have hmoves : (moves idx dims).sum ≤ (moves ((dims.map Prod.fst).map (· - 1)) dims).sum := by
    induction dims generalizing idx with
    | nil =>
      obtain rfl := forall₂_nil_right_iff.mp h
      exact le_rfl
    | cons x dims ih =>
      obtain ⟨i, rest, hi, hrest, rfl⟩ := forall₂_cons_right_iff.mp h
      have hle : i * x.2 ≤ (x.1 - 1) * x.2 := Nat.mul_le_mul_right _ (Nat.le_sub_one_of_lt hi)
      exact Nat.add_le_add hle (ih hrest)
  exact Nat.add_le_add_left hmoves off

/-- At one index, a map that `compose` returns is right iff the carries cancel there. -/
theorem agrees_iff (h : compose draw outer innerShape inner = .ok (some cand))
    (hidx : List.Forall₂ (· < ·) idx outer.sizes) :
    agrees outer inner cand idx = .ok true ↔
      excess inner.dims (outer.off :: moves idx outer.dims) = 0 := by
  obtain ⟨hinner, hpieces, hoff, hsame⟩ := of_compose h
  obtain ⟨houter, hcorner⟩ := agrees_of_same hsame
  obtain ⟨hradix, hvalue⟩ := value_of_placeAll hinner hpieces
  have hcand : ∀ x ∈ cand.dims, 0 < x.1 := by
    have hpos : 0 < radix cand.dims := by
      rw [hradix]
      exact radix_pos fun x hx => houter x.1 (mem_map_of_mem hx)
    intro x hx
    refine Nat.pos_of_ne_zero fun h0 => hpos.ne' (prod_eq_zero ?_)
    exact h0 ▸ mem_map_of_mem hx
  have hiff : ∀ idx, List.Forall₂ (· < ·) idx outer.sizes →
      (agrees outer inner cand idx = .ok true ↔ inner.off + value inner.dims outer.off +
            ((moves idx outer.dims).map (value inner.dims)).sum =
          if inner.dims = [] then inner.off + outer.eval idx
          else inner.off + value inner.dims (outer.eval idx)) := by
    intro idx hidx
    rw [agrees_eq hinner hcand, Except.ok.injEq, decide_eq_true_iff, hoff, AffineMap.sizes,
      hvalue idx hidx]
  rw [hiff idx hidx]
  by_cases hnil : inner.dims = []
  · -- Only one element is read, as the last corner tells.
    have hlast : List.Forall₂ (· < ·) (outer.sizes.map (· - 1)) outer.sizes :=
      forall₂_map_left_iff.mpr (forall₂_same.mpr fun d hd =>
        Nat.sub_lt (houter d hd) Nat.one_pos)
    have hzero : ∀ ms : List ℕ, (ms.map (value [])).sum = 0 := fun ms =>
      sum_eq_zero (by simp)
    have hagree := (hiff _ hlast).mp hcorner
    have hle := eval_le_corner outer hidx
    rw [if_pos hnil, hnil, hzero, value_nil] at hagree
    rw [if_pos hnil, hnil, hzero, value_nil]
    exact iff_of_true (by omega) rfl
  · have hsum := value_sum hinner (outer.off :: moves idx outer.dims)
    rw [← eval_eq_sum, map_cons, sum_cons] at hsum
    rw [if_neg hnil]
    omega

/-- A map that `compose` returns denotes the one through the other at every index iff at every index
the carries cancel that arise when the offset and the moves are added in the radix of the inner
sizes: for each digit, the carry that comes in less the radix times the one that goes out, by the
stride. -/
theorem compose_exact_iff (h : compose draw outer innerShape inner = .ok (some cand)) :
    (∀ idx, List.Forall₂ (· < ·) idx outer.sizes → agrees outer inner cand idx = .ok true) ↔
      ∀ idx, List.Forall₂ (· < ·) idx outer.sizes →
        excess inner.dims (outer.off :: moves idx outer.dims) = 0 :=
  forall_congr' fun _ => forall_congr' fun hidx => agrees_iff h hidx

/-- A transposed copy, read in the order of its source. -/
theorem compose_exact_iff_transposed :
    agrees ⟨0, [(3, 1), (2, 3)]⟩ ⟨0, [(2, 1), (3, 2)]⟩ ⟨0, [(3, 2), (2, 1)]⟩ [2, 1] = .ok true := by
  have hcompose : compose (fun _ => []) ⟨0, [(3, 1), (2, 3)]⟩ [2, 3] ⟨0, [(2, 1), (3, 2)]⟩ =
      .ok (some ⟨0, [(3, 2), (2, 1)]⟩) := by decide
  refine (compose_exact_iff hcompose).mpr (fun idx hidx => ?_) [2, 1]
    (.cons (by decide) (.cons (by decide) .nil))
  obtain ⟨i, tail, hi, htail, rfl⟩ := forall₂_cons_right_iff.mp hidx
  obtain ⟨j, last, hj, hlast, rfl⟩ := forall₂_cons_right_iff.mp htail
  obtain rfl := forall₂_nil_right_iff.mp hlast
  dsimp only at hi hj
  interval_cases i <;> interval_cases j <;> rfl

/-- A copy with strides that are not contiguous. -/
def raggedMap : AffineMap := ⟨0, [(2, 3997), (2, 1999), (1998, 1)]⟩

/-- A window of it, whose two inner sizes both move along the last coordinate. -/
def windowMap : AffineMap := ⟨0, [(2, 1998), (1000, 1), (1000, 1)]⟩

/-- At the last corner a carry into the second coordinate and one into the first cancel. At the last
element of the first block only the one into the second coordinate is there. -/
theorem compose_window : ¬∀ (draw : List ℕ → List (List ℕ)) (outer inner cand : AffineMap)
    (innerShape : List ℕ), compose draw outer innerShape inner = .ok (some cand) →
      ∀ idx, List.Forall₂ (· < ·) idx outer.sizes → agrees outer inner cand idx = .ok true := by
  intro h
  have hwindow := h (fun ds => List.replicate 256 (ds.map fun _ => 0)) windowMap raggedMap
    ⟨0, [(2, 1999), (1000, 1), (1000, 1)]⟩ [2, 2, 1998] (by decide +kernel) [0, 999, 999]
    (.cons (by decide) (.cons (by decide) (.cons (by decide) .nil)))
  revert hwindow
  decide

end ModelBlaster.LayoutFold

namespace ModelBlaster.LayoutFold

open List

open Strided (offsets Merged)

/-! ### Merging -/

theorem mergeStep_eq_mergeAxis (p : ℕ × ℤ) (dims : List (ℕ × ℤ)) :
    mergeStep p dims = Strided.mergeAxis p dims := by
  cases dims <;> rfl

theorem merge_eq_merge (dims : List (ℕ × ℤ)) : merge dims = Strided.merge dims := by
  rw [merge, Strided.merge]
  congr 1
  funext p rest
  exact mergeStep_eq_mergeAxis p rest

/-! ### One size -/

/-- `fitOne` when nothing is left. -/
theorem fitOne_nil (want got : ℕ) (stride : Option ℤ) :
    fitOne want got stride [] =
      if got < want then .ok none
      else if got ≠ want then .ok none
      else .ok (some (stride.getD 0, [])) := rfl

variable {want got : ℕ}

/-- `fitOne` when enough is there. -/
theorem fitOne_done (hge : ¬got < want) (stride : Option ℤ) (p : ℕ × ℤ) (src : List (ℕ × ℤ)) :
    fitOne want got stride (p :: src) =
      if got ≠ want then .ok none else .ok (some (stride.getD 0, p :: src)) :=
  if_neg hge

/-- `fitOne` at a size that is to be used. -/
theorem fitOne_cons (hgot : 0 < got) (hlt : got < want) (stride : Option ℤ) (d : ℕ) (s : ℤ)
    (src : List (ℕ × ℤ)) : fitOne want got stride ((d, s) :: src) =
      if want % got ≠ 0 then .ok none
      else if d ≤ want / got then
        if stride.any (· ≠ s * d) then .ok none else fitOne want (got * d) (some s) src
      else if d % (want / got) ≠ 0 then .ok none
      else if stride.any (· ≠ s * (d / (want / got) : ℕ) * (want / got : ℕ)) then .ok none
      else .ok (some (s * (d / (want / got) : ℕ), (d / (want / got), s) :: src)) := by
  have hneed : want / got ≠ 0 := (Nat.div_pos hlt.le hgot).ne'
  rw [fitOne, if_pos hlt, div, mod, if_neg hgot.ne', if_neg hgot.ne']
  by_cases hrem : want % got ≠ 0
  · rw [if_pos hrem]
    simp [bind, Except.bind, pure, Except.pure, hrem]
  · have hfull : got * (want / got) = want :=
      Nat.mul_div_cancel' (Nat.dvd_of_mod_eq_zero (not_not.mp hrem))
    simp [bind, Except.bind, pure, Except.pure, hrem, mod, hneed, hfull]

variable {γ : Type} {x : Except FoldError (Option γ)} {st : ℤ} {res : List ℤ}

/-- A check that gives up or goes on finds something iff its condition fails and the rest does. -/
private theorem ite_none_eq_some_iff {c : Prop} [Decidable c] {b : γ} :
    (if c then .ok none else x) = .ok (some b) ↔ ¬c ∧ x = .ok (some b) := by
  by_cases h : c <;> simp [h]

variable {stride : Option ℤ}

/-- What is there of a size, and a size behind it that continues it. -/
private theorem offsets_glue {d : ℕ} {s : ℤ} (hnone : stride = none → got = 1)
    (hstride : ¬stride.any (· ≠ s * d) = true) (src : List (ℕ × ℤ)) :
    offsets ((got, stride.getD 0) :: (d, s) :: src) = offsets ((got * d, s) :: src) := by
  cases stride with
  | none =>
    rw [hnone rfl, Strided.offsets_cons_one, one_mul]
  | some t =>
    obtain rfl : t = s * d := by simpa using hstride
    exact Strided.offsets_cons_cons got d s src

variable {src src' : List (ℕ × ℤ)}

/-- A size that is found, with its stride, in front of what is left, has the positions of what was
there. -/
theorem offsets_of_fitOne (hgot : 0 < got) (hpos : ∀ p ∈ src, 0 < p.1)
    (hnone : stride = none → got = 1) (h : fitOne want got stride src = .ok (some (st, src'))) :
    offsets ((got, stride.getD 0) :: src) = offsets ((want, st) :: src') := by
  induction src generalizing got stride with
  | nil =>
    rw [fitOne_nil, ite_none_eq_some_iff, ite_none_eq_some_iff] at h
    obtain ⟨-, heq, h⟩ := h
    cases h
    rw [not_not.mp heq]
  | cons p src ih =>
    obtain ⟨d, s⟩ := p
    rw [forall_mem_cons] at hpos
    by_cases hlt : got < want
    · rw [fitOne_cons hgot hlt, ite_none_eq_some_iff] at h
      obtain ⟨hrem, h⟩ := h
      by_cases hle : d ≤ want / got
      · rw [if_pos hle, ite_none_eq_some_iff] at h
        obtain ⟨hstride, h⟩ := h
        have hsome : (some s : Option ℤ) = none → got * d = 1 := fun hs => nomatch hs
        rw [offsets_glue hnone hstride]
        exact ih (Nat.mul_pos hgot hpos.1) hpos.2 hsome h
      · rw [if_neg hle, ite_none_eq_some_iff, ite_none_eq_some_iff] at h
        obtain ⟨hsplit, hstride, h⟩ := h
        cases h
        -- The outer part of the size continues what is there.
        have hd : want / got * (d / (want / got)) = d :=
          Nat.mul_div_cancel' (Nat.dvd_of_mod_eq_zero (not_not.mp hsplit))
        have hfull : got * (want / got) = want :=
          Nat.mul_div_cancel' (Nat.dvd_of_mod_eq_zero (not_not.mp hrem))
        calc offsets ((got, stride.getD 0) :: (d, s) :: src)
            = offsets ((got, stride.getD 0) :: (want / got, s * (d / (want / got) : ℕ)) ::
                (d / (want / got), s) :: src) := by
              apply Strided.offsets_cons_congr
              rw [Strided.offsets_cons_cons, hd]
          _ = offsets ((want, s * (d / (want / got) : ℕ)) :: (d / (want / got), s) :: src) := by
              rw [offsets_glue hnone hstride, hfull]
    · rw [fitOne_done hlt, ite_none_eq_some_iff] at h
      obtain ⟨heq, h⟩ := h
      cases h
      rw [not_not.mp heq]

/-- The sizes that are left are positive. -/
theorem pos_of_fitOne (hgot : 0 < got) (hpos : ∀ p ∈ src, 0 < p.1)
    (h : fitOne want got stride src = .ok (some (st, src'))) : ∀ p ∈ src', 0 < p.1 := by
  induction src generalizing got stride with
  | nil =>
    rw [fitOne_nil, ite_none_eq_some_iff, ite_none_eq_some_iff] at h
    obtain ⟨-, -, h⟩ := h
    cases h
    exact hpos
  | cons p src ih =>
    obtain ⟨d, s⟩ := p
    have hd := (forall_mem_cons.mp hpos).1
    have hsrc := (forall_mem_cons.mp hpos).2
    by_cases hlt : got < want
    · rw [fitOne_cons hgot hlt, ite_none_eq_some_iff] at h
      obtain ⟨-, h⟩ := h
      by_cases hle : d ≤ want / got
      · rw [if_pos hle, ite_none_eq_some_iff] at h
        exact ih (Nat.mul_pos hgot hd) hsrc h.2
      · rw [if_neg hle, ite_none_eq_some_iff, ite_none_eq_some_iff] at h
        obtain ⟨-, -, h⟩ := h
        cases h
        have hneed : 0 < want / got := Nat.div_pos hlt.le hgot
        exact forall_mem_cons.mpr ⟨Nat.div_pos (by omega) hneed, hsrc⟩
    · rw [fitOne_done hlt, ite_none_eq_some_iff] at h
      obtain ⟨-, h⟩ := h
      cases h
      exact hpos

/-- A size is looked for without an exception. -/
theorem exists_fitOne {want got : ℕ} (stride : Option ℤ) {src : List (ℕ × ℤ)} (hgot : 0 < got)
    (hpos : ∀ p ∈ src, 0 < p.1) :
    ∃ r, fitOne want got stride src = .ok r := by
  induction src generalizing got stride with
  | nil =>
    rw [fitOne_nil]
    split_ifs <;> exact ⟨_, rfl⟩
  | cons p src ih =>
    obtain ⟨d, s⟩ := p
    rw [forall_mem_cons] at hpos
    by_cases hlt : got < want
    · rw [fitOne_cons hgot hlt]
      have hrest := ih (some s) (Nat.mul_pos hgot hpos.1) hpos.2
      split_ifs
      all_goals first | exact ⟨_, rfl⟩ | exact hrest
    · rw [fitOne_done hlt]
      split_ifs <;> exact ⟨_, rfl⟩

/-! ### All sizes -/

/-- `fitFrom` at a size of more than one element. -/
theorem fitFrom_cons (hwant : want ≠ 1) (sizes : List ℕ) (src : List (ℕ × ℤ)) :
    fitFrom (want :: sizes) src = (fitOne want 1 none src >>= fun
      | some (stride, src) => (fitFrom sizes src).map (Option.map fun r => (stride :: r.1, r.2))
      | none => .ok none) := by
  rw [fitFrom, if_neg hwant]
  congr 1
  funext r
  cases r with
  | none => rfl
  | some p =>
    obtain ⟨stride, src'⟩ := p
    dsimp only
    cases fitFrom sizes src' with
    | error e => rfl
    | ok r => cases r <;> rfl

/-- `fitFrom` at a size of one element. -/
theorem fitFrom_one (sizes : List ℕ) (src : List (ℕ × ℤ)) : fitFrom (1 :: sizes) src =
    (fitFrom sizes src).map (Option.map fun r => (0 :: r.1, r.2)) := by
  rw [fitFrom, if_pos rfl]
  cases fitFrom sizes src with
  | error e => rfl
  | ok r => cases r <;> rfl

/-- Something found, after a function. -/
private theorem map_eq_some_iff {δ : Type} {f : γ → δ} {b : δ} :
    x.map (Option.map f) = .ok (some b) ↔ ∃ a, x = .ok (some a) ∧ f a = b := by
  cases x with
  | error e => exact ⟨fun h => (nomatch h), fun ⟨_, h, _⟩ => (nomatch h)⟩
  | ok r =>
    show Except.ok (r.map f) = Except.ok (some b) ↔ _
    simp

variable {sizes : List ℕ}

/-- The strides that are found give the sizes the positions that were there. -/
theorem offsets_of_fitFrom (hpos : ∀ p ∈ src, 0 < p.1)
    (h : fitFrom sizes src = .ok (some (res, src'))) :
    res.length = sizes.length ∧ offsets src = offsets (sizes.zip res ++ src') := by
  induction sizes generalizing src res with
  | nil =>
    cases h
    exact ⟨rfl, rfl⟩
  | cons want sizes ih =>
    by_cases hwant : want = 1
    · subst hwant
      rw [fitFrom_one, map_eq_some_iff] at h
      obtain ⟨⟨res', src₁⟩, hrest, heq⟩ := h
      cases heq
      obtain ⟨hlen, hoff⟩ := ih hpos hrest
      refine ⟨congrArg Nat.succ hlen, ?_⟩
      rw [zip_cons_cons, cons_append, Strided.offsets_cons_one, hoff]
    · rw [fitFrom_cons hwant, Fallible.bind_eq_ok_iff] at h
      obtain ⟨r, hone, h⟩ := h
      cases r with
      | none => cases h
      | some r =>
        obtain ⟨⟨res', src₂⟩, hrest, heq⟩ := map_eq_some_iff.mp h
        cases heq
        have hfirst := offsets_of_fitOne Nat.one_pos hpos (fun _ => rfl) hone
        rw [Strided.offsets_cons_one] at hfirst
        obtain ⟨hlen, hoff⟩ := ih (pos_of_fitOne Nat.one_pos hpos hone) hrest
        refine ⟨congrArg Nat.succ hlen, ?_⟩
        rw [hfirst, zip_cons_cons, cons_append]
        exact Strided.offsets_cons_congr _ hoff

/-- The sizes are looked for without an exception. -/
theorem exists_fitFrom (sizes : List ℕ) {src : List (ℕ × ℤ)} (hpos : ∀ p ∈ src, 0 < p.1) :
    ∃ r, fitFrom sizes src = .ok r := by
  induction sizes generalizing src with
  | nil => exact ⟨_, rfl⟩
  | cons want sizes ih =>
    by_cases hwant : want = 1
    · subst hwant
      obtain ⟨r, hr⟩ := ih hpos
      rw [fitFrom_one, hr]
      exact ⟨_, rfl⟩
    · rw [fitFrom_cons hwant]
      obtain ⟨r, hone⟩ := @exists_fitOne want 1 none src Nat.one_pos hpos
      rw [hone]
      cases r with
      | none => exact ⟨_, rfl⟩
      | some r =>
        obtain ⟨r', hrest⟩ := ih (pos_of_fitOne Nat.one_pos hpos hone)
        refine ⟨r'.map fun r' => (r.1 :: r'.1, r'.2), ?_⟩
        show (fitFrom sizes r.2).map _ = _
        rw [hrest]
        rfl

/-! ### Merged sizes -/

/-- The first of some sizes is found in what they are merged to, and leaves what the others are
merged to. -/
theorem fitOne_mergeAxis (hwant : 1 < want) (t : ℤ) {box : List (ℕ × ℤ)} (hpos : ∀ p ∈ box, 0 < p.1)
    (hbox : Merged box) :
    fitOne want 1 none (Strided.mergeAxis (want, t) box) = .ok (some (t, box)) := by
  -- A size that is there whole.
  have hwhole : fitOne want 1 none ((want, t) :: box) = .ok (some (t, box)) := by
    rw [fitOne_cons Nat.one_pos hwant, Nat.div_one, Nat.mod_one, if_neg (not_not.mpr rfl),
      if_pos le_rfl, one_mul, Option.any_none, if_neg Bool.false_ne_true]
    cases box with
    | nil => simp [fitOne]
    | cons p box => simp [fitOne]
  cases box with
  | nil => exact hwhole
  | cons p box =>
    obtain ⟨m, s⟩ := p
    rw [Strided.mergeAxis]
    split_ifs with hnext
    · -- The size is the outer part of a merged one.
      have hm : 1 < m := by
        have h0 := hpos (m, s) mem_cons_self
        have h1 := hbox.ne_one (m, s) mem_cons_self
        omega
      have hlt : ¬want * m ≤ want := by
        have := Nat.mul_le_mul_left want hm
        omega
      have hdiv : want * m / want = m := Nat.mul_div_cancel_left m (by omega)
      rw [fitOne_cons Nat.one_pos hwant, Nat.div_one, Nat.mod_one, if_neg (not_not.mpr rfl),
        if_neg hlt, Nat.mul_mod_right, if_neg (not_not.mpr rfl), Option.any_none,
        if_neg Bool.false_ne_true, hdiv, ← hnext]
    · exact hwhole

/-- Some sizes are found in what they are merged to. -/
theorem exists_fitFrom_merge (box : List (ℕ × ℤ)) (hpos : ∀ p ∈ box, 0 < p.1) :
    ∃ res, fitFrom (box.map Prod.fst) (Strided.merge box) = .ok (some (res, [])) := by
  induction box with
  | nil => exact ⟨[], rfl⟩
  | cons p box ih =>
    obtain ⟨want, t⟩ := p
    rw [forall_mem_cons] at hpos
    obtain ⟨res, hrest⟩ := ih hpos.2
    by_cases hwant : want = 1
    · subst hwant
      have hmerge : Strided.merge ((1, t) :: box) = Strided.merge box := by
        rfl
      refine ⟨0 :: res, ?_⟩
      rw [hmerge, map_cons, fitFrom_one, hrest]
      rfl
    · have hlt : 1 < want := by
        omega
      have hmerge : Strided.merge ((want, t) :: box) =
          Strided.mergeAxis (want, t) (Strided.merge box) := by
        rw [Strided.merge, filter_cons_of_pos (by simpa using hwant)]
        rfl
      refine ⟨t :: res, ?_⟩
      rw [hmerge, map_cons, fitFrom_cons hwant,
        fitOne_mergeAxis hlt t (Strided.pos_of_mem_merge hpos.2) (Strided.merged_merge box)]
      show (fitFrom (box.map Prod.fst) (Strided.merge box)).map _ = _
      rw [hrest]
      rfl

/-! ### What is returned -/

/-- The strides give every index of the sizes the position that the list has there. -/
structure Refits (dims : List (ℕ × ℤ)) (sizes : List ℕ) (strides : List ℤ) : Prop where
  length_eq : strides.length = sizes.length
  prod_eq : sizes.prod = (dims.map Prod.fst).prod
  offset_eq : ∀ idx, NdArray.InBounds sizes idx →
    (offsets dims)[NdArray.ravel sizes idx]? = some (Strided.dot idx strides)

variable {dims : List (ℕ × ℤ)}

/-- In other words, the sizes with these strides have the same positions. -/
theorem refits_iff {strides : List ℤ} :
    Refits dims sizes strides ↔
      strides.length = sizes.length ∧ offsets (sizes.zip strides) = offsets dims := by
  constructor
  · rintro ⟨hlen, hprod, hoff⟩
    refine ⟨hlen, ext_getElem? fun j => ?_⟩
    have hfst : (sizes.zip strides).map Prod.fst = sizes := map_fst_zip hlen.ge
    by_cases hj : j < sizes.prod
    · obtain ⟨idx, hidx, rfl⟩ := NdArray.exists_ravel_eq hj
      rw [hoff idx hidx, Strided.getElem?_offsets hlen hidx]
    · rw [getElem?_eq_none (by rw [Strided.length_offsets, hfst]; omega),
        getElem?_eq_none (by rw [Strided.length_offsets]; omega)]
  · rintro ⟨hlen, heq⟩
    refine ⟨hlen, ?_, fun idx hidx => ?_⟩
    · rw [← Strided.length_offsets, ← heq, Strided.length_offsets, map_fst_zip hlen.ge]
    · rw [← heq, Strided.getElem?_offsets hlen hidx]

/-- `fit` returns what it finds, if nothing is left. -/
theorem fit_eq_some_iff :
    fit dims sizes = .ok (some res) ↔
      fitFrom sizes (dims.filter fun p => p.1 ≠ 1) = .ok (some (res, [])) := by
  rw [fit]
  cases fitFrom sizes (dims.filter fun p => p.1 ≠ 1) with
  | error e => exact ⟨fun h => (nomatch h), fun h => (nomatch h)⟩
  | ok r =>
    rcases r with _ | ⟨res', _ | ⟨p, src⟩⟩
    · exact ⟨fun h => (nomatch h), fun h => (nomatch h)⟩
    · show Except.ok (some res') = Except.ok (some res) ↔ _
      simp
    · refine ⟨fun h => (nomatch h), fun h => ?_⟩
      simp at h

/-- `fit` raises what the search raises. -/
theorem exists_fit (hpos : ∀ p ∈ dims, 0 < p.1) (sizes : List ℕ) :
    ∃ r, fit dims sizes = .ok r := by
  obtain ⟨r, hr⟩ := @exists_fitFrom sizes (dims.filter fun p => p.1 ≠ 1) fun p hp =>
    hpos p (mem_of_mem_filter hp)
  rw [fit, hr]
  rcases r with _ | ⟨res, _ | ⟨p, src⟩⟩ <;> exact ⟨_, rfl⟩

/-- For positive sizes, `merge` keeps the positions. `fit` does not raise; the strides that it
returns give all indices their positions, and where the list is merged and nothing is returned no
strides do. -/
theorem merge_fit_exact (dims : List (ℕ × ℤ)) (hpos : ∀ p ∈ dims, 0 < p.1) :
    offsets (merge dims) = offsets dims ∧ ∀ sizes, (∃ r, fit dims sizes = .ok r) ∧
      (∀ strides, fit dims sizes = .ok (some strides) → Refits dims sizes strides) ∧
      (merge dims = dims → fit dims sizes = .ok none → ∀ strides, ¬Refits dims sizes strides) := by
  have hfilter : ∀ p ∈ dims.filter fun p => p.1 ≠ 1, 0 < p.1 := fun p hp =>
    hpos p (mem_of_mem_filter hp)
  refine ⟨by rw [merge_eq_merge, Strided.offsets_merge], fun sizes =>
    ⟨exists_fit hpos sizes, fun strides h => ?_, fun hmerged hnone strides hrefits => ?_⟩⟩
  · obtain ⟨hlen, hoff⟩ := offsets_of_fitFrom hfilter (fit_eq_some_iff.mp h)
    rw [Strided.offsets_filter, append_nil] at hoff
    exact refits_iff.mpr ⟨hlen, hoff.symm⟩
  · obtain ⟨hlen, hoff⟩ := refits_iff.mp hrefits
    have hfst : (sizes.zip strides).map Prod.fst = sizes := map_fst_zip hlen.ge
    -- The sizes are positive, as there are as many elements as before.
    have hsizes : ∀ p ∈ sizes.zip strides, 0 < p.1 := by
      intro p hp
      refine Nat.pos_of_ne_zero fun hzero => ?_
      have hmem : 0 ∈ sizes := by
        rw [← hfst, ← hzero]
        exact mem_map_of_mem hp
      have hprod := hrefits.prod_eq
      rw [prod_eq_zero hmem, eq_comm, prod_eq_zero_iff] at hprod
      obtain ⟨q, hq, hq0⟩ := mem_map.mp hprod
      exact (hpos q hq).ne' hq0
    -- The list is what the sizes with their strides are merged to.
    rw [merge_eq_merge] at hmerged
    have hdims : Strided.merge (sizes.zip strides) = dims := by
      rw [← hmerged]
      apply Strided.eq_of_offsets_eq (Strided.merged_merge _) (Strided.merged_merge _)
        (Strided.pos_of_mem_merge hsizes) (Strided.pos_of_mem_merge hpos)
      rw [Strided.offsets_merge, Strided.offsets_merge, hoff]
    obtain ⟨res, hres⟩ := exists_fitFrom_merge (sizes.zip strides) hsizes
    have hones : dims.filter (fun p => p.1 ≠ 1) = dims := by
      rw [filter_eq_self]
      intro p hp
      rw [← hmerged] at hp
      simpa using (Strided.merged_merge dims).ne_one p hp
    rw [hfst, hdims, ← hones, ← fit_eq_some_iff, hnone] at hres
    cases hres

/-- Sizes of which two are merged and one is split, and sizes that do not fit. -/
theorem merge_fit_exact_split :
    Refits [(2, -12), (3, -4), (4, 1)] [6, 2, 2] [-4, 2, 1] ∧
      ¬Refits [(6, -4), (4, 1)] [4, 6] [-6, 1] :=
  ⟨((merge_fit_exact _ (by decide)).2 [6, 2, 2]).2.1 _ (by decide),
    ((merge_fit_exact _ (by decide)).2 [4, 6]).2.2 (by decide) (by decide) _⟩

end ModelBlaster.LayoutFold
