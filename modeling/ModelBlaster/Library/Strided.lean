import Mathlib.Algebra.BigOperators.Group.List.Basic
import Mathlib.Data.List.Nodup
import Mathlib.Tactic.Ring
import Mathlib.Data.List.Range

/-!
# Strided boxes

A box of a memory: for each axis its size and its stride, the distance between neighbours. The
positions of its elements are listed with the last axis innermost. Axes of size one do not matter,
and two axes that follow each other in memory are one.

## Main definitions

* `NdArray`: a shape, and as many elements as it asks for;
* `NdArray.ravel`, `NdArray.indices`: the position of an index, and the indices in memory order;
* `NdArray.slice`, `NdArray.transpose`: `a[lo:hi]` and `ascontiguousarray(transpose(a, perm))`;
* `Strided.offsets`: the positions of a box, from its first element;
* `Strided.merge`: a box with fewer axes;
* `Strided.contiguous`: the strides of a contiguous array;
* `Strided.Merged`: a box that cannot be merged any further.

## Main results

* `NdArray.getElem?_indices_iff`: the index at a position is the one that has this position;
* `NdArray.getElem?_data_slice`, `NdArray.getElem?_data_transpose`: where elements have gone;
* `Strided.offsets_merge`: merging keeps the positions;
* `Strided.offsets_contiguous`: a contiguous array has all positions;
* `Strided.getElem?_offsets`: the position of an index;
* `Strided.merged_merge`: merging leaves nothing to merge;
* `Strided.eq_of_offsets_eq`: the positions determine a merged box.
-/

/-! ## Contiguous arrays -/

/-- An array: its shape, and its elements in memory order. -/
structure NdArray (α : Type) where
  /-- The sizes of the axes. -/
  shape : List ℕ
  /-- The elements, the last axis innermost. -/
  data : List α
  /-- There are as many as the shape asks for. -/
  size_eq : data.length = shape.prod

namespace NdArray

open List

variable {α : Type} {a : NdArray α} {β : Type} {shape idx rest : List ℕ} {j lo n hi : ℕ}

@[ext]
theorem ext {b : NdArray α} (hshape : a.shape = b.shape) (hdata : a.data = b.data) : a = b := by
  cases a
  cases b
  cases hshape
  cases hdata
  rfl

/-- The elements under a function. -/
def map {β : Type} (f : α → β) (a : NdArray α) : NdArray β where
  shape := a.shape
  data := a.data.map f
  size_eq := by rw [length_map, a.size_eq]

@[simp]
theorem shape_map (f : α → β) (a : NdArray α) : (a.map f).shape = a.shape := rfl

@[simp]
theorem data_map (f : α → β) (a : NdArray α) : (a.map f).data = a.data.map f := rfl

/-! ### Indices -/

/-- The position of an index in memory. -/
def ravel : List ℕ → List ℕ → ℕ
  | _ :: shape, i :: idx => i * shape.prod + ravel shape idx
  | _, _ => 0

/-- The indices of a shape, in memory order. -/
def indices : List ℕ → List (List ℕ)
  | [] => [[]]
  | n :: shape => (List.range n).flatMap fun i => (indices shape).map (i :: ·)

/-- An index within a shape. -/
abbrev InBounds (shape idx : List ℕ) : Prop := List.Forall₂ (fun i n => i < n) idx shape

theorem length_indices (shape : List ℕ) : (indices shape).length = shape.prod := by
  induction shape with
  | nil => rfl
  | cons n shape ih => simp [indices, ih, length_flatMap]

/-- Rows of one length, one after the other. -/
theorem getElem?_flatMap_range {f : ℕ → List β} {r : ℕ} (hf : ∀ i, (f i).length = r) (n i j : ℕ)
    (hi : i < n) (hj : j < r) :
    ((List.range n).flatMap f)[i * r + j]? = (f i)[j]? := by
  induction n with
  | zero => exact absurd hi (Nat.not_lt_zero i)
  | succ n ih =>
    have hlen : ((List.range n).flatMap f).length = n * r := by
      simp [length_flatMap, hf]
    rw [range_succ, flatMap_append, flatMap_singleton]
    by_cases hlt : i < n
    · rw [getElem?_append_left, ih hlt]
      calc i * r + j < (i + 1) * r := by rw [Nat.succ_mul]; omega
        _ ≤ n * r := Nat.mul_le_mul_right r hlt
        _ = ((List.range n).flatMap f).length := hlen.symm
    · obtain rfl : i = n := by omega
      rw [getElem?_append_right (by omega), hlen, Nat.add_sub_cancel_left]

/-- The index at the position of an index. -/
theorem getElem?_indices (h : InBounds shape idx) :
    ravel shape idx < shape.prod ∧ (indices shape)[ravel shape idx]? = some idx := by
  induction h with
  | nil => simp [ravel, indices]
  | @cons i n idx shape hi _ ih =>
    obtain ⟨hlt, hget⟩ := ih
    refine ⟨?_, ?_⟩
    · rw [ravel, prod_cons]
      calc i * shape.prod + ravel shape idx < (i + 1) * shape.prod := by rw [Nat.succ_mul]; omega
        _ ≤ n * shape.prod := Nat.mul_le_mul_right _ hi
    · have hrow : ∀ i, ((indices shape).map (i :: ·)).length = shape.prod := by
        intro i
        rw [length_map, length_indices]
      rw [ravel, indices, getElem?_flatMap_range hrow n i _ hi hlt, getElem?_map, hget]
      rfl

/-- What is listed is within the shape. -/
theorem inBounds_of_mem_indices (h : idx ∈ indices shape) :
    InBounds shape idx := by
  induction shape generalizing idx with
  | nil =>
    obtain rfl := mem_singleton.mp h
    exact .nil
  | cons n shape ih =>
    obtain ⟨i, hi, hmem⟩ := mem_flatMap.mp h
    obtain ⟨rest, hrest, rfl⟩ := mem_map.mp hmem
    exact .cons (mem_range.mp hi) (ih hrest)

/-- No index is listed twice. -/
theorem nodup_indices (shape : List ℕ) : (indices shape).Nodup := by
  induction shape with
  | nil => exact nodup_singleton []
  | cons n shape ih =>
    rw [indices, nodup_flatMap]
    refine ⟨fun i _ => ih.map fun a b h => (cons_eq_cons.mp h).2, ?_⟩
    apply nodup_range.imp
    intro i j hne
    apply disjoint_left.mpr
    intro _ hi hj
    obtain ⟨a, -, rfl⟩ := mem_map.mp hi
    obtain ⟨b, -, heq⟩ := mem_map.mp hj
    exact hne (cons_eq_cons.mp heq).1.symm

/-- An index is listed at its position, and nowhere else. -/
theorem getElem?_indices_iff :
    (indices shape)[j]? = some idx ↔ InBounds shape idx ∧ j = ravel shape idx := by
  constructor
  · intro h
    have hin := inBounds_of_mem_indices (mem_of_getElem? h)
    obtain ⟨hlt, hget⟩ := getElem?_indices hin
    refine ⟨hin, ?_⟩
    have hj := (List.getElem?_eq_some_iff.mp h).1
    exact (getElem?_inj hj (nodup_indices shape)).mp (h.trans hget.symm)
  · rintro ⟨hin, rfl⟩
    exact (getElem?_indices hin).2

/-- Every position is that of an index. -/
theorem exists_ravel_eq (hj : j < shape.prod) :
    ∃ idx, InBounds shape idx ∧ j = ravel shape idx := by
  have hj' : j < (indices shape).length := by rwa [length_indices]
  exact ⟨_, getElem?_indices_iff.mp (getElem?_eq_getElem hj')⟩

/-! ### Slices -/

/-- `a[lo:hi]` -/
def slice (a : NdArray α) (lo hi : ℕ) : NdArray α :=
  match h : a.shape with
  | [] => a
  | n :: rest =>
    { shape := (min hi n - lo) :: rest
      data := (a.data.drop (lo * rest.prod)).take ((min hi n - lo) * rest.prod)
      size_eq := by
        have hsize := a.size_eq
        rw [h, prod_cons] at hsize
        rw [length_take, length_drop, hsize, prod_cons, ← Nat.sub_mul]
        exact Nat.min_eq_left (Nat.mul_le_mul_right _ (Nat.sub_le_sub_right (Nat.min_le_right _ _) _)) }

/-- The shape of a slice. -/
theorem shape_slice (h : a.shape = n :: rest) (hhi : hi ≤ n) :
    (a.slice lo hi).shape = (hi - lo) :: rest := by
  unfold slice
  split
  next h' =>
    rw [h] at h'
    cases h'
  next n' rest' h' =>
    rw [h] at h'
    cases h'
    show (min hi n - lo) :: rest = _
    rw [Nat.min_eq_left hhi]

/-- The elements of a slice. -/
theorem getElem?_data_slice (h : a.shape = n :: rest) (hhi : hi ≤ n)
    (hj : j < (hi - lo) * rest.prod) :
    (a.slice lo hi).data[j]? = a.data[lo * rest.prod + j]? := by
  unfold slice
  split
  next h' =>
    rw [h] at h'
    cases h'
  next n' rest' h' =>
    rw [h] at h'
    cases h'
    simp only [Nat.min_eq_left hhi]
    rw [getElem?_take_of_lt hj, getElem?_drop]

/-! ### Transpositions -/

/-- The index of the element that a transposition puts at `idx`. -/
def unpermute (perm idx : List ℕ) : List ℕ :=
  (List.range perm.length).map fun axis => idx.getD (perm.idxOf axis) 0

/-- `ascontiguousarray(transpose(a, perm))` -/
def transpose [Inhabited α] (a : NdArray α) (perm : List ℕ) : NdArray α where
  shape := perm.map fun axis => a.shape.getD axis 0
  data := (indices (perm.map fun axis => a.shape.getD axis 0)).map fun idx =>
    a.data.getD (ravel a.shape (unpermute perm idx)) default
  size_eq := by rw [length_map, length_indices]

/-- The elements of a transposition. -/
theorem getElem?_data_transpose [Inhabited α] {perm : List ℕ} {v : α} :
    (a.transpose perm).data[j]? = some v ↔
      ∃ idx, InBounds (perm.map fun axis => a.shape.getD axis 0) idx ∧
        j = ravel (perm.map fun axis => a.shape.getD axis 0) idx ∧
        a.data.getD (ravel a.shape (unpermute perm idx)) default = v := by
  show ((indices _).map _)[j]? = some v ↔ _
  rw [getElem?_map, Option.map_eq_some_iff]
  simp only [getElem?_indices_iff, and_assoc]

end NdArray

namespace Strided

open List

/-- The positions of a box of sizes and strides. -/
def offsets : List (ℕ × ℤ) → List ℤ
  | [] => [0]
  | (n, s) :: box => (List.range n).flatMap fun i : ℕ => (offsets box).map fun x => i * s + x

theorem offsets_cons (n : ℕ) (s : ℤ) (box : List (ℕ × ℤ)) : offsets ((n, s) :: box) =
    (List.range n).flatMap fun i : ℕ => (offsets box).map fun x => i * s + x := rfl

/-- The number of elements. -/
theorem length_offsets (box : List (ℕ × ℤ)) :
    (offsets box).length = (box.map Prod.fst).prod := by
  induction box with
  | nil => rfl
  | cons axis box ih =>
    obtain ⟨n, s⟩ := axis
    simp [offsets_cons, length_flatMap, ih]

/-- An axis of size one does not matter. -/
@[simp]
theorem offsets_cons_one (s : ℤ) (box : List (ℕ × ℤ)) : offsets ((1, s) :: box) = offsets box := by
  simp [offsets_cons, range_one]

/-- Rows of `m`, one after the other. -/
theorem flatMap_range_mul {α : Type} (n m : ℕ) (f : ℕ → List α) :
    (List.range (n * m)).flatMap f =
      (List.range n).flatMap fun i => (List.range m).flatMap fun j => f (i * m + j) := by
  induction n with
  | zero => simp
  | succ n ih =>
    rw [Nat.succ_mul, range_add, flatMap_append, ih, range_succ, flatMap_append,
      flatMap_singleton, flatMap_map]

/-- Two axes that follow each other in memory are one. -/
theorem offsets_cons_cons (n m : ℕ) (s : ℤ) (box : List (ℕ × ℤ)) :
    offsets ((n, s * m) :: (m, s) :: box) = offsets ((n * m, s) :: box) := by
  rw [offsets_cons, offsets_cons, offsets_cons, flatMap_range_mul]
  congr 1
  funext i
  rw [map_flatMap]
  congr 1
  funext j
  rw [map_map]
  apply map_congr_left
  intro x _
  show i * (s * m) + (j * s + x) = ((i * m + j : ℕ) : ℤ) * s + x
  push_cast
  ring

/-- Boxes with one axis in front have the same positions if they had them without. -/
theorem offsets_cons_congr (axis : ℕ × ℤ) {box box' : List (ℕ × ℤ)} (h : offsets box = offsets box') :
    offsets (axis :: box) = offsets (axis :: box') := by
  rw [offsets_cons, offsets_cons, h]

/-- An axis is put in front of a merged box. -/
def mergeAxis (axis : ℕ × ℤ) : List (ℕ × ℤ) → List (ℕ × ℤ)
  | [] => [axis]
  | (m, t) :: box => if axis.2 = t * m then (axis.1 * m, t) :: box else axis :: (m, t) :: box

/-- A box with fewer axes. -/
def merge (box : List (ℕ × ℤ)) : List (ℕ × ℤ) :=
  (box.filter fun axis => axis.1 ≠ 1).foldr mergeAxis []

theorem offsets_mergeAxis (axis : ℕ × ℤ) (box : List (ℕ × ℤ)) :
    offsets (mergeAxis axis box) = offsets (axis :: box) := by
  obtain ⟨n, s⟩ := axis
  cases box with
  | nil => rfl
  | cons head box =>
    rw [mergeAxis]
    split
    · rename_i h
      dsimp only at h
      rw [h, offsets_cons_cons]
    · rfl

/-- Axes of size one may be left out. -/
theorem offsets_filter (box : List (ℕ × ℤ)) :
    offsets (box.filter fun axis => axis.1 ≠ 1) = offsets box := by
  induction box with
  | nil => rfl
  | cons axis box ih =>
    obtain ⟨n, s⟩ := axis
    by_cases hn : n = 1
    · subst hn
      rw [filter_cons_of_neg (by simp), ih, offsets_cons_one]
    · rw [filter_cons_of_pos (by simpa using hn)]
      exact offsets_cons_congr _ ih

/-- Merging keeps the positions. -/
theorem offsets_merge (box : List (ℕ × ℤ)) : offsets (merge box) = offsets box := by
  rw [merge, ← offsets_filter box]
  induction box.filter fun axis => axis.1 ≠ 1 with
  | nil => rfl
  | cons axis rest ih =>
    rw [foldr_cons, offsets_mergeAxis]
    exact offsets_cons_congr _ ih

/-- A box of one axis of neighbours. -/
theorem offsets_line (n : ℕ) : offsets [(n, 1)] = (List.range n).map fun i : ℕ => (i : ℤ) := by
  simp [offsets, ← map_eq_flatMap]

/-- Axes of size one in front. -/
theorem offsets_replicate_append (k : ℕ) (s : ℤ) (box : List (ℕ × ℤ)) :
    offsets (List.replicate k (1, s) ++ box) = offsets box := by
  induction k with
  | zero => rfl
  | succ k ih => rw [replicate_succ, cons_append, offsets_cons_one, ih]

/-- A box with elements begins at its first element. -/
theorem head?_offsets (box : List (ℕ × ℤ)) (h : ∀ axis ∈ box, 0 < axis.1) :
    (offsets box).head? = some 0 := by
  induction box with
  | nil => rfl
  | cons axis box ih =>
    obtain ⟨n, s⟩ := axis
    rw [forall_mem_cons] at h
    obtain ⟨m, rfl⟩ : ∃ m, n = m + 1 := ⟨n - 1, by have := h.1; dsimp only at this; omega⟩
    have hrow : ((offsets box).map fun x => ((0 : ℕ) : ℤ) * s + x).head? = some 0 := by
      rw [head?_map, ih h.2]
      simp
    rw [offsets_cons, range_succ_eq_map, flatMap_cons, head?_append, hrow]
    rfl

/-! ### Contiguous arrays -/

/-- The strides of a contiguous array. -/
def contiguous : List ℕ → List ℤ
  | [] => []
  | _ :: shape => (shape.prod : ℕ) :: contiguous shape

theorem length_contiguous (shape : List ℕ) : (contiguous shape).length = shape.length := by
  induction shape with
  | nil => rfl
  | cons n shape ih => rw [contiguous, length_cons, length_cons, ih]

/-- A contiguous array has all positions, in order. -/
theorem offsets_contiguous (shape : List ℕ) :
    offsets (shape.zip (contiguous shape)) =
      (List.range shape.prod).map fun i : ℕ => (i : ℤ) := by
  induction shape with
  | nil => rfl
  | cons n shape ih =>
    have hbox : offsets ((n, (shape.prod : ℤ)) :: shape.zip (contiguous shape)) =
        offsets [(n, 1 * (shape.prod : ℤ)), (shape.prod, 1)] := by
      rw [one_mul]
      apply offsets_cons_congr
      rw [ih, offsets_line]
    show offsets ((n, (shape.prod : ℤ)) :: shape.zip (contiguous shape)) = _
    rw [hbox, offsets_cons_cons, offsets_line, prod_cons]

/-! ### Indices -/

/-- The position of an index of the box. -/
def dot : List ℕ → List ℤ → ℤ
  | i :: idx, s :: strides => i * s + dot idx strides
  | _, _ => 0

/-- The positions are those of the indices. -/
theorem offsets_zip (shape : List ℕ) (strides : List ℤ) (h : strides.length = shape.length) :
    offsets (shape.zip strides) = (NdArray.indices shape).map fun idx => dot idx strides := by
  induction shape generalizing strides with
  | nil => rfl
  | cons n shape ih =>
    cases strides with
    | nil => cases h
    | cons s strides =>
      have h' : strides.length = shape.length := Nat.succ.inj h
      rw [zip_cons_cons, offsets_cons, ih strides h', NdArray.indices, map_flatMap]
      congr 1
      funext i
      rw [map_map, map_map]
      rfl

variable {strides : List ℤ} {shape idx : List ℕ}

/-- The position of an index. -/
theorem getElem?_offsets (h : strides.length = shape.length) (hidx : NdArray.InBounds shape idx) :
    (offsets (shape.zip strides))[NdArray.ravel shape idx]? = some (dot idx strides) := by
  rw [offsets_zip shape strides h, getElem?_map, (NdArray.getElem?_indices hidx).2]
  rfl

theorem dot_zero (strides : List ℤ) (idx : List ℕ) (h : ∀ i ∈ idx, i = 0) :
    dot idx strides = 0 := by
  induction idx generalizing strides with
  | nil => cases strides <;> rfl
  | cons i idx ih =>
    rw [forall_mem_cons] at h
    cases strides with
    | nil => rfl
    | cons s strides =>
      obtain ⟨rfl, h⟩ := h
      rw [dot, ih strides h]
      simp

/-- The index of the neighbour of the first element along an axis. -/
def unit (rank d : ℕ) : List ℕ := (List.range rank).map fun i => if i = d then 1 else 0

theorem unit_succ (rank d : ℕ) : unit (rank + 1) (d + 1) = 0 :: unit rank d := by
  unfold unit
  rw [range_succ_eq_map, map_cons, map_map]
  congr 1
  apply map_congr_left
  intro i _
  simp

theorem unit_zero (rank : ℕ) : ∃ idx, unit (rank + 1) 0 = 1 :: idx ∧ idx.length = rank ∧
    ∀ i ∈ idx, i = 0 := by
  refine ⟨(List.range rank).map fun _ => 0, ?_, by simp, by simp⟩
  unfold unit
  rw [range_succ_eq_map, map_cons, map_map]
  congr 1

/-- The neighbour along an axis is a stride away. -/
theorem dot_unit (strides : List ℤ) (d : ℕ) : dot (unit strides.length d) strides =
    strides.getD d 0 := by
  induction strides generalizing d with
  | nil => rfl
  | cons s strides ih =>
    cases d with
    | zero =>
      obtain ⟨idx, hunit, -, hzero⟩ := unit_zero strides.length
      rw [length_cons, hunit, dot, dot_zero strides idx hzero]
      simp
    | succ d =>
      rw [length_cons, unit_succ, dot, ih d]
      simp

theorem inBounds_zero (hlen : idx.length = shape.length) (hpos : ∀ n ∈ shape, 0 < n)
    (h : ∀ i ∈ idx, i = 0) : NdArray.InBounds shape idx := by
  induction shape generalizing idx with
  | nil =>
    obtain rfl := length_eq_zero_iff.mp hlen
    exact .nil
  | cons n shape ih =>
    rw [forall_mem_cons] at hpos
    cases idx with
    | nil => cases hlen
    | cons i idx =>
      rw [forall_mem_cons] at h
      exact .cons (h.1 ▸ hpos.1) (ih (Nat.succ.inj hlen) hpos.2 h.2)

/-- There is a neighbour along an axis of more than one element. -/
theorem inBounds_unit (hpos : ∀ n ∈ shape, 0 < n) {d : ℕ} (hd : shape.getD d 0 ≠ 1) :
    NdArray.InBounds shape (unit shape.length d) := by
  induction shape generalizing d with
  | nil => exact .nil
  | cons n shape ih =>
    rw [forall_mem_cons] at hpos
    cases d with
    | zero =>
      obtain ⟨idx, hunit, hlen, hzero⟩ := unit_zero shape.length
      rw [length_cons, hunit]
      have hn : n ≠ 1 := hd
      exact .cons (by omega) (inBounds_zero hlen hpos.2 hzero)
    | succ d =>
      rw [length_cons, unit_succ]
      exact .cons hpos.1 (ih hpos.2 hd)

/-- Strides matter along axes of more than one element only. -/
theorem offsets_congr {strides' : List ℤ} (hlen : strides.length = shape.length)
    (hlen' : strides'.length = shape.length)
    (h : ∀ d, shape.getD d 0 ≠ 1 → strides.getD d 0 = strides'.getD d 0) :
    offsets (shape.zip strides) = offsets (shape.zip strides') := by
  induction shape generalizing strides strides' with
  | nil => rfl
  | cons n shape ih =>
    cases strides with
    | nil => cases hlen
    | cons s strides =>
      cases strides' with
      | nil => cases hlen'
      | cons s' strides' =>
        have hrest := ih (Nat.succ.inj hlen) (Nat.succ.inj hlen') fun d hd => h (d + 1) hd
        rw [zip_cons_cons, zip_cons_cons]
        by_cases hn : n = 1
        · subst hn
          rw [offsets_cons_one, offsets_cons_one, hrest]
        · obtain rfl : s = s' := h 0 hn
          exact offsets_cons_congr _ hrest

end Strided

/-! ## Merged boxes -/

namespace Strided

open List

/-- No axis has size one, and no two neighbours follow each other in memory. -/
structure Merged (box : List (ℕ × ℤ)) : Prop where
  ne_one : ∀ axis ∈ box, axis.1 ≠ 1
  isChain : box.IsChain fun (axis next : ℕ × ℤ) => axis.2 ≠ next.2 * next.1

theorem merged_nil : Merged [] := ⟨by simp, .nil⟩

variable {box box' : List (ℕ × ℤ)} {axis : ℕ × ℤ} {n : ℕ}

/-- An axis in front of a merged box is merged with it, or is one axis more. -/
theorem merged_mergeAxis (hone : axis.1 ≠ 1) (h : Merged box) : Merged (mergeAxis axis box) := by
  cases box with
  | nil => exact ⟨by simpa [mergeAxis] using hone, .singleton _⟩
  | cons next box =>
    obtain ⟨m, t⟩ := next
    rw [mergeAxis]
    split_ifs with hnext
    · have hm : m ≠ 1 := h.ne_one (m, t) mem_cons_self
      refine ⟨fun a ha => ?_, ?_⟩
      · rcases mem_cons.mp ha with rfl | ha
        · exact fun heq => hm (Nat.eq_one_of_mul_eq_one_left heq)
        · exact h.ne_one a (mem_cons_of_mem _ ha)
      · -- The next axis but one sees the same stride as before.
        have hchain := h.isChain
        cases box with
        | nil => exact .singleton _
        | cons next' box =>
          rw [isChain_cons_cons] at hchain ⊢
          exact hchain
    · refine ⟨fun a ha => ?_, .cons_cons hnext h.isChain⟩
      rcases mem_cons.mp ha with rfl | ha
      · exact hone
      · exact h.ne_one a ha

/-- Merging leaves nothing to merge. -/
theorem merged_merge (box : List (ℕ × ℤ)) : Merged (merge box) := by
  rw [merge]
  have hone : ∀ axis ∈ box.filter fun axis => axis.1 ≠ 1, axis.1 ≠ 1 := by
    intro axis haxis
    simpa using (mem_filter.mp haxis).2
  generalize (box.filter fun axis => axis.1 ≠ 1) = l at hone
  induction l with
  | nil => exact merged_nil
  | cons axis rest ih =>
    rw [forall_mem_cons] at hone
    exact merged_mergeAxis hone.1 (ih hone.2)

/-- The sizes stay positive. -/
theorem pos_of_mem_merge (h : ∀ axis ∈ box, 0 < axis.1) :
    ∀ axis ∈ merge box, 0 < axis.1 := by
  rw [merge]
  have hpos : ∀ axis ∈ box.filter fun axis => axis.1 ≠ 1, 0 < axis.1 := fun axis haxis =>
    h axis (mem_of_mem_filter haxis)
  generalize (box.filter fun axis => axis.1 ≠ 1) = l at hpos
  induction l with
  | nil => simp
  | cons axis rest ih =>
    rw [forall_mem_cons] at hpos
    have hrest := ih hpos.2
    rw [foldr_cons]
    cases hfold : rest.foldr mergeAxis [] with
    | nil => simpa [mergeAxis] using hpos.1
    | cons next box' =>
      rw [hfold, forall_mem_cons] at hrest
      rw [mergeAxis]
      split_ifs
      · exact forall_mem_cons.mpr ⟨Nat.mul_pos hpos.1 hrest.1, hrest.2⟩
      · exact forall_mem_cons.mpr ⟨hpos.1, forall_mem_cons.mpr hrest⟩

/-! ### The innermost axis -/

/-- The positions by rows of the innermost axis. -/
theorem offsets_concat (box : List (ℕ × ℤ)) (n : ℕ) (s : ℤ) : offsets (box ++ [(n, s)]) =
    (offsets box).flatMap fun x => (List.range n).map fun j : ℕ => x + j * s := by
  induction box with
  | nil =>
    rw [nil_append, offsets_cons, offsets, flatMap_singleton]
    simp [← map_eq_flatMap]
  | cons axis box ih =>
    obtain ⟨m, t⟩ := axis
    rw [cons_append, offsets_cons, offsets_cons, ih, flatMap_assoc]
    congr 1
    funext i
    rw [map_flatMap, flatMap_map]
    congr 1
    funext x
    rw [map_map]
    apply map_congr_left
    intro j _
    show (i : ℤ) * t + (x + j * s) = i * t + x + j * s
    ring

/-- The position of the element `j` of row `i`. -/
theorem getElem?_offsets_concat {box : List (ℕ × ℤ)} {n i j : ℕ} (s : ℤ) (hj : j < n) :
    (offsets (box ++ [(n, s)]))[i * n + j]? = (offsets box)[i]?.map (· + j * s) := by
  rw [offsets_concat]
  generalize offsets box = rows
  induction rows generalizing i with
  | nil => simp
  | cons x rows ih =>
    have hlen : ((List.range n).map fun j : ℕ => x + j * s).length = n := by simp
    rw [flatMap_cons]
    cases i with
    | zero =>
      rw [getElem?_append_left (by rw [hlen]; omega)]
      simp [hj]
    | succ i =>
      rw [getElem?_append_right (by rw [hlen, Nat.succ_mul]; omega), hlen,
        show (i + 1) * n + j - n = i * n + j by rw [Nat.succ_mul]; omega, ih]
      simp

/-! ### One merged form -/

theorem Merged.of_concat (h : Merged (box ++ [axis])) :
    Merged box :=
  ⟨fun a ha => h.ne_one a (mem_append_left _ ha), h.isChain.left_of_append⟩

/-- A merged box of one element has no axes. -/
theorem Merged.eq_nil (h : Merged box) (hone : (offsets box).length = 1) : box = [] := by
  cases box with
  | nil => rfl
  | cons axis box =>
    rw [length_offsets, map_cons, prod_cons] at hone
    exact absurd (Nat.eq_one_of_mul_eq_one_right hone) (h.ne_one axis mem_cons_self)

/-- The first row of the innermost axis. -/
theorem getElem?_first_row (hpos : ∀ axis ∈ box, 0 < axis.1) {j : ℕ} (s : ℤ) (hj : j < n) :
    (offsets (box ++ [(n, s)]))[j]? = some (j * s) := by
  have hrow := @getElem?_offsets_concat box n 0 j s hj
  have hhead := head?_offsets box hpos
  rw [← head?_eq_getElem?, hhead] at hrow
  simpa using hrow

/-- Behind the first row a merged box does not go on by the same stride. -/
theorem Merged.not_next {s : ℤ} (h : Merged (box ++ [(n, s)]))
    (hpos : ∀ axis ∈ box ++ [(n, s)], 0 < axis.1) :
    (offsets (box ++ [(n, s)]))[n]? ≠ some (n * s) := by
  have hn : 0 < n := hpos (n, s) (by simp)
  rcases eq_nil_or_concat box with rfl | ⟨outer, ⟨m, t⟩, rfl⟩
  · have hlen : (offsets ([] ++ [(n, s)])).length = n := by rw [length_offsets]; simp
    rw [getElem?_eq_none hlen.le]
    exact (Option.some_ne_none _).symm
  · have hm : 1 < m := by
      have h0 := hpos (m, t) (by simp)
      have h1 := h.ne_one (m, t) (by simp)
      omega
    -- The element behind the first row is the first of the second one.
    have hnext := @getElem?_offsets_concat (outer ++ [(m, t)]) n 1 0 s hn
    rw [getElem?_first_row (fun axis haxis => hpos axis (by simp [haxis])) t hm] at hnext
    have hchain : t ≠ s * n := by
      have := h.isChain
      rw [concat_eq_append, append_assoc] at this
      have := this.right_of_append
      simpa using this
    simp only [one_mul, Nat.cast_one, Option.map_some, Nat.cast_zero, zero_mul, add_zero] at hnext
    rw [concat_eq_append, hnext]
    intro heq
    exact hchain ((Option.some.inj heq).trans (mul_comm _ _))

/-- The innermost axis of a merged box is no shorter than that of another one with the same
positions. -/
private theorem innermost_le {m : ℕ} {s t : ℤ} (h : Merged (box ++ [(n, s)]))
    (hpos : ∀ axis ∈ box ++ [(n, s)], 0 < axis.1) (hpos' : ∀ axis ∈ box', 0 < axis.1) (hst : s = t)
    (heq : offsets (box ++ [(n, s)]) = offsets (box' ++ [(m, t)])) : m ≤ n := by
  by_contra hlt
  apply h.not_next hpos
  rw [heq, getElem?_first_row hpos' t (not_le.mp hlt), hst]

/-- The positions determine a merged box. -/
theorem eq_of_offsets_eq (h : Merged box) (h' : Merged box') (hpos : ∀ axis ∈ box, 0 < axis.1)
    (hpos' : ∀ axis ∈ box', 0 < axis.1) (heq : offsets box = offsets box') : box = box' := by
  induction box using reverseRecOn generalizing box' with
  | nil => exact (h'.eq_nil (by rw [← heq]; rfl)).symm
  | append_singleton outer axis ih =>
    obtain ⟨n, s⟩ := axis
    rcases eq_nil_or_concat box' with rfl | ⟨outer', ⟨m, t⟩, rfl⟩
    · exact h.eq_nil (by rw [heq]; rfl)
    · rw [concat_eq_append] at *
      have hrow : ∀ axis ∈ outer, 0 < axis.1 := fun axis ha => hpos axis (by simp [ha])
      have hrow' : ∀ axis ∈ outer', 0 < axis.1 := fun axis ha => hpos' axis (by simp [ha])
      have two_le : ∀ {box : List (ℕ × ℤ)} {n : ℕ} {s : ℤ}, Merged (box ++ [(n, s)]) →
          (∀ axis ∈ box ++ [(n, s)], 0 < axis.1) → 1 < n := by
        intro box n s hm hp
        have h0 := hp (n, s) (by simp)
        have h1 := hm.ne_one (n, s) (by simp)
        omega
      -- The second element gives the stride.
      have hst : s = t := by
        have hs := getElem?_first_row hrow s (two_le h hpos)
        have ht := getElem?_first_row hrow' t (two_le h' hpos')
        rw [heq, ht] at hs
        simpa using hs.symm
      have hnm : n = m := le_antisymm (innermost_le h' hpos' hrow hst.symm heq.symm)
        (innermost_le h hpos hrow' hst heq)
      subst hst hnm
      have houter : offsets outer = offsets outer' := by
        apply ext_getElem?
        intro i
        have hn : 0 < n := (two_le h hpos).trans' Nat.one_pos
        have hi := @getElem?_offsets_concat outer n i 0 s hn
        have hi' := @getElem?_offsets_concat outer' n i 0 s hn
        rw [heq, hi'] at hi
        simpa using hi.symm
      rw [ih h.of_concat h'.of_concat hrow hrow' houter]

end Strided
