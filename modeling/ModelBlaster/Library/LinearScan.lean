import Mathlib.Data.List.Induction
import Mathlib.Data.List.Pairwise
import Mathlib.Data.List.Sort

/-!
# Linear scan with first fit

Items that live for an interval of time are placed in one region, one after the other. An item is
placed in the first hole between the blocks that live at the same time. Blocks whose intervals meet
are disjoint then.

## Main definitions

* `LinearScan.firstFit`: the first hole;
* `LinearScan.placeAll`: the places of a list of items.

## Main results

* `LinearScan.pairwise_placeAll`: blocks that live at the same time are disjoint.
-/

namespace LinearScan

open List

variable {κ : Type}

/-- An item, with the times at which it is touched first and last. -/
structure Item (κ : Type) where
  key : κ
  first : ℤ
  last : ℤ
  size : ℕ

/-- An item with its place. -/
structure Block (κ : Type) where
  item : Item κ
  start : ℕ

/-- The end of a block. -/
def Block.stop (b : Block κ) : ℕ := b.start + b.item.size

/-- Items that live at the same time. -/
def Item.Meets (x y : Item κ) : Prop := ¬(x.last < y.first ∨ y.last < x.first)

instance (x y : Item κ) : Decidable (x.Meets y) := inferInstanceAs (Decidable (¬_))

/-- Blocks with nothing in common. -/
def Block.Apart (a b : Block κ) : Prop := a.stop ≤ b.start ∨ b.stop ≤ a.start

/-- The first hole of a size behind an offset, between blocks in the order of their places. -/
def firstFit (size : ℕ) : ℕ → List (Block κ) → ℕ
  | offset, [] => offset
  | offset, b :: rest =>
    if offset + size ≤ b.start then offset else firstFit size (max offset b.stop) rest

/-- The blocks that live at the same time as an item, in the order of their places. -/
def meeting (blocks : List (Block κ)) (x : Item κ) : List (Block κ) :=
  (blocks.filter fun b => b.item.Meets x).insertionSort fun a b => a.start ≤ b.start

/-- The block of an item. -/
def blockFor (blocks : List (Block κ)) (x : Item κ) : Block κ :=
  ⟨x, firstFit x.size 0 (meeting blocks x)⟩

/-- One item is placed. -/
def place (blocks : List (Block κ)) (x : Item κ) : List (Block κ) := blocks ++ [blockFor blocks x]

/-- The blocks of a list of items. -/
def placeAll (items : List (Item κ)) : List (Block κ) := items.foldl place []

/-- The size of the region. -/
def extent (blocks : List (Block κ)) : ℕ := (blocks.map Block.stop).foldl max 0

/-! ### The first hole -/

theorem le_firstFit (size offset : ℕ) (blocks : List (Block κ)) :
    offset ≤ firstFit size offset blocks := by
  induction blocks generalizing offset with
  | nil => exact le_refl _
  | cons b rest ih =>
    rw [firstFit]
    split
    case isTrue => exact le_refl _
    case isFalse => exact (le_max_left _ _).trans (ih _)

variable {blocks : List (Block κ)} {b a : Block κ} {x : Item κ}

/-- The hole has nothing in common with the blocks. -/
theorem firstFit_apart {size offset : ℕ} (hsorted : blocks.Pairwise fun a b => a.start ≤ b.start)
    (hb : b ∈ blocks) :
    firstFit size offset blocks + size ≤ b.start ∨ b.stop ≤ firstFit size offset blocks := by
  induction blocks generalizing offset with
  | nil => cases hb
  | cons a rest ih =>
    obtain ⟨hhead, htail⟩ := pairwise_cons.mp hsorted
    rw [firstFit]
    split
    case isTrue hfit =>
      -- the hole is in front of `a`, and all later blocks start behind it
      rcases mem_cons.mp hb with rfl | hrest
      · exact .inl hfit
      · exact .inl (hfit.trans (hhead b hrest))
    case isFalse =>
      rcases mem_cons.mp hb with rfl | hrest
      · exact .inr ((le_max_right _ _).trans (le_firstFit _ _ _))
      · exact ih htail hrest

/-! ### Placement -/

theorem mem_meeting :
    b ∈ meeting blocks x ↔ b ∈ blocks ∧ b.item.Meets x := by
  unfold meeting
  rw [mem_insertionSort, mem_filter, decide_eq_true_eq]

theorem pairwise_meeting (blocks : List (Block κ)) (x : Item κ) :
    (meeting blocks x).Pairwise fun a b => a.start ≤ b.start := by
  exact pairwise_insertionSort _ _

/-- An item is placed apart from the blocks that live at the same time. -/
theorem blockFor_apart (hb : b ∈ blocks) (hmeets : b.item.Meets x) : b.Apart (blockFor blocks x) :=
  (firstFit_apart (pairwise_meeting blocks x) (mem_meeting.mpr ⟨hb, hmeets⟩)).symm

theorem placeAll_append_single (items : List (Item κ)) (x : Item κ) :
    placeAll (items ++ [x]) = place (placeAll items) x := by
  unfold placeAll
  rw [foldl_append]
  rfl

/-- Blocks that live at the same time are disjoint. -/
theorem pairwise_placeAll (items : List (Item κ)) :
    (placeAll items).Pairwise fun a b => a.item.Meets b.item → a.Apart b := by
  induction items using reverseRecOn with
  | nil => exact List.Pairwise.nil
  | append_singleton items x ih =>
    rw [placeAll_append_single]
    refine pairwise_append.mpr ⟨ih, pairwise_singleton _ _, fun b hb b' hb' hmeets => ?_⟩
    rw [mem_singleton.mp hb'] at hmeets ⊢
    exact blockFor_apart hb hmeets

/-- There is one block for each item, in their order. -/
theorem map_item_placeAll (items : List (Item κ)) : (placeAll items).map Block.item = items := by
  induction items using reverseRecOn with
  | nil => rfl
  | append_singleton items x ih =>
    rw [placeAll_append_single, place, map_append, ih]
    rfl

theorem Block.Apart.symm (h : a.Apart b) : b.Apart a := Or.symm h

theorem Item.Meets.symm {y : Item κ} (h : x.Meets y) : y.Meets x := fun hlt => h hlt.symm

/-- Different items that live at the same time are apart. -/
theorem apart_of_mem_placeAll {items : List (Item κ)} (ha : a ∈ placeAll items)
    (hb : b ∈ placeAll items) (hne : a.item.key ≠ b.item.key) (hmeets : a.item.Meets b.item) :
    a.Apart b := by
  have hsymm : Std.Symm fun a b : Block κ => a.item.Meets b.item → a.Apart b :=
    ⟨fun a b h hba => (h hba.symm).symm⟩
  exact (pairwise_placeAll items).forall ha hb (fun heq => hne (by rw [heq])) hmeets

/-- Blocks end inside the region. -/
theorem stop_le_extent (hb : b ∈ blocks) :
    b.stop ≤ extent blocks := by
  have hfold : ∀ (l : List ℕ) (m n : ℕ), n = m ∨ n ∈ l → n ≤ l.foldl max m := by
    intro l
    induction l with
    | nil =>
      rintro m n (rfl | hmem)
      · exact le_refl _
      · cases hmem
    | cons a rest ih =>
      rintro m n (rfl | hmem)
      · exact (le_max_left n a).trans (ih _ _ (.inl rfl))
      · rcases mem_cons.mp hmem with rfl | hrest
        · exact (le_max_right m n).trans (ih _ _ (.inl rfl))
        · exact ih _ _ (.inr hrest)
  exact hfold _ _ _ (.inr (mem_map_of_mem hb))

end LinearScan
