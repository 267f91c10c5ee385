import Mathlib.Data.List.Induction
import Mathlib.Data.List.Sort
import Mathlib.Data.List.Dedup
import Mathlib.Data.List.ProdSigma
import Mathlib.Algebra.Order.Ring.Int
import Mathlib.Algebra.BigOperators.Group.List.Basic

/-!
# Lists with keys and lists without duplicates

## Main definitions

* `PyList.orderedUnique`: the list without repetitions, in the order of first occurrences;
* `PyList.sortedSet`: the elements in ascending order, each of them once;
* `PyList.firstBest`: the first of the best elements, as `min` and `max` find it.

## Main results

* `PyList.mem_orderedUnique`, `PyList.nodup_orderedUnique`: what the list has and how often;
* `PyList.eq_of_filterMap_nodup`: distinct keys tell the elements apart.
-/

namespace PyList

open List

variable {α β : Type}

section OrderedUnique

variable [DecidableEq α]

/-- The elements that are not seen yet, each of them once. -/
def uniqueFrom (seen : List α) : List α → List α
  | [] => []
  | x :: xs => if x ∈ seen then uniqueFrom seen xs else x :: uniqueFrom (x :: seen) xs

/-- The list without repetitions, in the order of first occurrences. -/
def orderedUnique (xs : List α) : List α := uniqueFrom [] xs

variable {seen xs : List α} {x : α}

theorem mem_uniqueFrom :
    x ∈ uniqueFrom seen xs ↔ x ∈ xs ∧ x ∉ seen := by
  induction xs generalizing seen with
  | nil => simp [uniqueFrom]
  | cons y ys ih =>
    rw [uniqueFrom]
    split_ifs with hy
    · rw [ih, mem_cons]
      constructor
      · exact fun h => ⟨Or.inr h.1, h.2⟩
      · rintro ⟨rfl | hmem, hnot⟩
        · exact absurd hy hnot
        · exact ⟨hmem, hnot⟩
    · rw [mem_cons, ih, mem_cons, mem_cons, not_or]
      by_cases hxy : x = y
      · simp [hxy, hy]
      · simp [hxy]

theorem nodup_uniqueFrom (seen xs : List α) : (uniqueFrom seen xs).Nodup := by
  induction xs generalizing seen with
  | nil => exact nodup_nil
  | cons y ys ih =>
    rw [uniqueFrom]
    split_ifs
    · exact ih seen
    · refine nodup_cons.mpr ⟨fun h => ?_, ih _⟩
      exact (mem_uniqueFrom.mp h).2 mem_cons_self

/-- No element is lost. -/
@[simp]
theorem mem_orderedUnique : x ∈ orderedUnique xs ↔ x ∈ xs := by
  simp [orderedUnique, mem_uniqueFrom]

/-- No element is left twice. -/
theorem nodup_orderedUnique (xs : List α) : (orderedUnique xs).Nodup := nodup_uniqueFrom [] xs

/-- A list without repetitions stays as it is. -/
theorem orderedUnique_of_nodup (h : xs.Nodup) : orderedUnique xs = xs := by
  have hrun : ∀ seen, (∀ x ∈ xs, x ∉ seen) → uniqueFrom seen xs = xs := by
    induction xs with
    | nil => exact fun _ _ => rfl
    | cons y ys ih =>
      intro seen hseen
      rw [nodup_cons] at h
      rw [uniqueFrom, if_neg (hseen y mem_cons_self), ih h.2]
      intro x hx
      rw [mem_cons, not_or]
      exact ⟨fun heq => h.1 (heq ▸ hx), hseen x (mem_cons_of_mem y hx)⟩
  exact hrun [] fun _ _ => not_mem_nil

/-- What is seen is left out of what is unique. -/
theorem uniqueFrom_eq_filter {seen' : List α} (h : ∀ x ∈ seen', x ∈ seen) (xs : List α) :
    uniqueFrom seen xs = (uniqueFrom seen' xs).filter (· ∉ seen) := by
  induction xs generalizing seen seen' with
  | nil => rfl
  | cons y ys ih =>
    rw [uniqueFrom, uniqueFrom]
    by_cases hy' : y ∈ seen'
    · rw [if_pos (h y hy'), if_pos hy', ih h]
    · rw [if_neg hy', filter_cons]
      by_cases hy : y ∈ seen
      · rw [if_pos hy, if_neg (by simpa using hy)]
        exact ih fun x hx => (mem_cons.mp hx).elim (fun heq => heq ▸ hy) (h x)
      · rw [if_neg hy, if_pos (by simpa using hy)]
        have hcons : ∀ x ∈ y :: seen', x ∈ y :: seen := fun x hx =>
          (mem_cons.mp hx).elim (fun heq => heq ▸ mem_cons_self)
            fun hx => mem_cons_of_mem y (h x hx)
        rw [ih hcons]
        congr 1
        apply filter_congr
        intro x hx
        have hne : x ≠ y := fun heq => (mem_uniqueFrom.mp hx).2 (heq ▸ mem_cons_self)
        simp [hne]

theorem orderedUnique_cons (x : α) (xs : List α) :
    orderedUnique (x :: xs) = x :: (orderedUnique xs).filter (· ≠ x) := by
  show x :: uniqueFrom [x] xs = _
  rw [uniqueFrom_eq_filter fun y (hy : y ∈ []) => absurd hy not_mem_nil]
  simp [orderedUnique]

theorem orderedUnique_filter (p : α → Bool) (xs : List α) :
    orderedUnique (xs.filter p) = (orderedUnique xs).filter p := by
  induction xs with
  | nil => rfl
  | cons x xs ih =>
    rw [orderedUnique_cons, filter_cons, filter_cons]
    by_cases hx : p x = true
    · rw [if_pos hx, if_pos hx, orderedUnique_cons, ih, filter_comm]
    · rw [if_neg hx, if_neg hx, ih, filter_filter]
      apply filter_congr
      intro y _
      by_cases hy : y = x
      · simp [hy, hx]
      · simp [hy]

theorem orderedUnique_append (xs ys : List α) :
    orderedUnique (xs ++ ys) = orderedUnique xs ++ (orderedUnique ys).filter (· ∉ xs) := by
  induction xs with
  | nil => simp [orderedUnique, uniqueFrom]
  | cons x xs ih =>
    rw [cons_append, orderedUnique_cons, orderedUnique_cons, ih, filter_append,
      filter_filter, cons_append]
    congr 2
    apply filter_congr
    intro y _
    simp

theorem orderedUnique_idem (xs : List α) : orderedUnique (orderedUnique xs) = orderedUnique xs :=
  orderedUnique_of_nodup (nodup_orderedUnique xs)

/-- Repetitions may be dropped in front first. -/
theorem orderedUnique_append_left (xs ys : List α) :
    orderedUnique (orderedUnique xs ++ ys) = orderedUnique (xs ++ ys) := by
  rw [orderedUnique_append, orderedUnique_append, orderedUnique_idem]
  simp only [mem_orderedUnique]

/-- Repetitions may be dropped behind first. -/
theorem orderedUnique_append_right (xs ys : List α) :
    orderedUnique (xs ++ orderedUnique ys) = orderedUnique (xs ++ ys) := by
  rw [orderedUnique_append, orderedUnique_append, orderedUnique_idem]

end OrderedUnique

/-- `sorted(set(l))` -/
def sortedSet (l : List ℤ) : List ℤ := l.dedup.insertionSort (· ≤ ·)

@[simp]
theorem mem_sortedSet {l : List ℤ} {x : ℤ} : x ∈ sortedSet l ↔ x ∈ l := by
  simp [sortedSet]

/-- Ascending lists are determined by their elements. -/
theorem sortedSet_eq_iff {l l' : List ℤ} :
    sortedSet l = l' ↔ l'.Pairwise (· < ·) ∧ ∀ x, x ∈ l' ↔ x ∈ l := by
  have hnodup : (sortedSet l).Nodup := (perm_insertionSort _ _).nodup_iff.mpr (nodup_dedup l)
  have hsorted : (sortedSet l).Pairwise (· < ·) :=
    ((pairwise_insertionSort _ _).and hnodup).imp fun h => lt_of_le_of_ne h.1 h.2
  constructor
  · rintro rfl
    exact ⟨hsorted, fun x => mem_sortedSet⟩
  · rintro ⟨hsorted', hmem⟩
    have hnodup' : l'.Nodup := hsorted'.imp fun h => h.ne
    have hperm : (sortedSet l).Perm l' := by
      rw [perm_ext_iff_of_nodup hnodup hnodup']
      exact fun x => by rw [mem_sortedSet, hmem]
    exact hperm.eq_of_pairwise' (hsorted.imp fun h => h.le) (hsorted'.imp fun h => h.le)

theorem pairwise_sortedSet (l : List ℤ) : (sortedSet l).Pairwise (· < ·) :=
  (sortedSet_eq_iff.mp rfl).1

variable {l : List α} {x a : α} {n i : ℕ} {γ : Type} {better : α → α → Bool}

/-- The groups of a list have its elements. -/
theorem perm_flatMap_filter [DecidableEq β] (key : α → β) {ks : List β} (hnodup : ks.Nodup)
    (hkeys : ∀ a ∈ l, key a ∈ ks) :
    (ks.flatMap fun k => l.filter fun a => key a = k).Perm l := by
  induction ks generalizing l with
  | nil =>
    obtain rfl : l = [] := eq_nil_iff_forall_not_mem.mpr fun a ha =>
      absurd (hkeys a ha) not_mem_nil
    exact List.Perm.refl _
  | cons k ks ih =>
    obtain ⟨hk, hrest⟩ := nodup_cons.mp hnodup
    have hothers : (ks.flatMap fun k' => l.filter fun a => key a = k') =
        ks.flatMap fun k' => (l.filter fun a => !Decidable.decide (key a = k)).filter
          fun a => key a = k' := by
      apply flatMap_congr
      intro k' hk'
      rw [filter_filter]
      apply filter_congr
      intro a _
      have hne : k' ≠ k := fun heq => hk (heq ▸ hk')
      by_cases ha : key a = k'
      · simp [ha, hne]
      · simp [ha]
    rw [flatMap_cons, hothers]
    refine (List.Perm.append_left _ (ih hrest ?_)).trans (filter_append_perm _ l)
    intro a ha
    obtain ⟨hmem, hne⟩ := mem_filter.mp ha
    exact (mem_cons.mp (hkeys a hmem)).resolve_left (by simpa using hne)

/-- Dropping elements keeps the order of the others. -/
theorem idxOf_filter_lt_iff [DecidableEq α] {p : α → Bool} {y : α} (hx : p x = true)
    (hy : p y = true) : (l.filter p).idxOf x < (l.filter p).idxOf y ↔ l.idxOf x < l.idxOf y := by
  induction l with
  | nil => simp
  | cons z rest ih =>
    by_cases hz : p z = true
    · rw [filter_cons_of_pos hz]
      by_cases hzx : z = x
      · by_cases hzy : z = y
        · simp [hzx ▸ hzy]
        · simp [hzx, idxOf_cons_ne _ (hzx ▸ hzy)]
      · by_cases hzy : z = y
        · simp [hzy]
        · simp [idxOf_cons_ne _ hzx, idxOf_cons_ne _ hzy, ih]
    · have hzx : z ≠ x := fun h => hz (h ▸ hx)
      have hzy : z ≠ y := fun h => hz (h ▸ hy)
      rw [filter_cons_of_neg hz, ih]
      simp [idxOf_cons_ne _ hzx, idxOf_cons_ne _ hzy]

/-- In a chain, every element but the last one is related to a successor. -/
theorem exists_of_isChain_append_single {R : α → α → Prop} (h : (l ++ [x]).IsChain R) (ha : a ∈ l) :
    ∃ b ∈ l ++ [x], R a b := by
  induction l with
  | nil => cases ha
  | cons y rest ih =>
    obtain ⟨z, tail, hrest⟩ := exists_cons_of_ne_nil (l := rest ++ [x]) (by simp)
    rw [cons_append, hrest, isChain_cons_cons] at h
    rcases mem_cons.mp ha with rfl | ha
    · exact ⟨z, by simp [hrest], h.1⟩
    · obtain ⟨b, hb, hab⟩ := ih (hrest ▸ h.2) ha
      exact ⟨b, mem_cons_of_mem y hb, hab⟩

/-- With distinct keys, the position of an element is that of its key. -/
theorem zipIdx_eq_map_idxOf [BEq β] [LawfulBEq β] {f : α → β} (hnd : (l.map f).Nodup) :
    l.zipIdx = l.map fun x => (x, (l.map f).idxOf (f x)) := by
  apply List.ext_getElem
  · simp
  · intro i hi hi'
    have hlen : i < (l.map f).length := by simpa using hi'
    have hidx := hnd.idxOf_getElem i hlen
    rw [getElem_map] at hidx
    rw [getElem_zipIdx, getElem_map, hidx, Nat.zero_add]

/-- Keys of fewer elements are a sublist of the keys. -/
theorem filterMap_sublist {f g : α → Option β} (h : ∀ x k, g x = some k → f x = some k) (l : List α) :
    (l.filterMap g).Sublist (l.filterMap f) := by
  induction l with
  | nil => exact List.Sublist.slnil
  | cons x rest ih =>
    cases hg : g x with
    | none =>
      rw [filterMap_cons_none hg]
      exact ih.trans ((sublist_cons_self x rest).filterMap f)
    | some k =>
      rw [filterMap_cons_some hg, filterMap_cons_some (h x k hg)]
      exact ih.cons_cons k

/-- Two elements with one key are the same when the keys are distinct. -/
theorem eq_of_filterMap_nodup {f : α → Option β} (hnd : (l.filterMap f).Nodup) {b : α} {k : β}
    (ha : a ∈ l) (hb : b ∈ l) (hfa : f a = some k) (hfb : f b = some k) :
    a = b := by
  induction l with
  | nil => cases ha
  | cons x rest ih =>
    have hmem : ∀ {y}, y ∈ rest → f y = some k → k ∈ rest.filterMap f :=
      fun hy hk => mem_filterMap.mpr ⟨_, hy, hk⟩
    have hhead : f x = some k → k ∉ rest.filterMap f := by
      intro hx
      rw [filterMap_cons_some hx, nodup_cons] at hnd
      exact hnd.1
    have hrest : (rest.filterMap f).Nodup := hnd.sublist ((sublist_cons_self x rest).filterMap _)
    rcases mem_cons.mp ha with rfl | ha'
    · rcases mem_cons.mp hb with rfl | hb'
      · rfl
      · exact absurd (hmem hb' hfb) (hhead hfa)
    · rcases mem_cons.mp hb with rfl | hb'
      · exact absurd (hmem ha' hfa) (hhead hfb)
      · exact ih hrest ha' hb'

/-! ### Contributions -/

/-- When every element contributes at most one entry of a kind, the entries of the kind are those
of the elements that do. -/
theorem filter_flatMap_eq_map {f : α → List β} {p : β → Bool} (q : α → Bool) (g : α → β)
    (h : ∀ x ∈ l, (f x).filter p = if q x then [g x] else []) :
    (l.flatMap f).filter p = (l.filter q).map g := by
  induction l with
  | nil => rfl
  | cons x rest ih =>
    have hrest := ih fun y hy => h y (mem_cons_of_mem x hy)
    rw [flatMap_cons, filter_append, h x mem_cons_self, hrest]
    by_cases hx : q x = true
    · rw [if_pos hx, filter_cons_of_pos hx, map_cons]
      rfl
    · rw [if_neg hx, filter_cons_of_neg hx]
      rfl

/-- A number of a range. -/
theorem filter_range_eq (n t : ℕ) :
    ((List.range n).filter fun u => u = t) = if t < n then [t] else [] := by
  induction n with
  | zero => rfl
  | succ n ih =>
    rw [range_succ, filter_append, ih]
    by_cases hlt : t < n
    · have hne : ¬n = t := by omega
      simp [hlt, hne, Nat.lt_succ_of_lt hlt]
    · by_cases heq : n = t
      · simp [heq]
      · have hge : ¬t < n + 1 := by omega
        simp [hlt, heq, hge]

/-! ### Rows -/

/-- A loop over rows of one length is a loop over all elements. -/
theorem map_range_mul (f : ℕ → β) (m n : ℕ) : (List.range (m * n)).map f =
    (List.range m).flatMap fun i => (List.range n).map fun j => f (i * n + j) := by
  induction m with
  | zero => simp
  | succ m ih =>
    rw [Nat.succ_mul, range_add, map_append, ih, range_succ, flatMap_append,
      flatMap_singleton, map_map]
    rfl

/-- A loop over blocks of one length is a loop over all rows. -/
theorem flatMap_range_mul (f : ℕ → List β) (m n : ℕ) : (List.range (m * n)).flatMap f =
    (List.range m).flatMap fun i => (List.range n).flatMap fun j => f (i * n + j) := by
  induction m with
  | zero => simp
  | succ m ih =>
    rw [Nat.succ_mul, range_add, flatMap_append, ih, range_succ,
      flatMap_append, flatMap_singleton, flatMap_map]

/-- An element of a row is within the rows. -/
theorem mul_add_lt {j m : ℕ} (hi : i < m) (hj : j < n) : i * n + j < m * n := by
  calc i * n + j < (i + 1) * n := by
        rw [Nat.succ_mul]
        exact Nat.add_lt_add_left hj _
    _ ≤ m * n := Nat.mul_le_mul_right n hi

/-- Row and column are determined by the element. -/
theorem mul_add_inj {i' j j' : ℕ} (hj : j < n) (hj' : j' < n) (h : i * n + j = i' * n + j') :
    i = i' ∧ j = j' := by
  have hdiv : (i * n + j) / n = (i' * n + j') / n := by rw [h]
  have hmod : (i * n + j) % n = (i' * n + j') % n := by rw [h]
  rw [Nat.mul_comm i, Nat.mul_comm i', Nat.mul_add_div (by omega), Nat.mul_add_div (by omega),
    Nat.div_eq_of_lt hj, Nat.div_eq_of_lt hj'] at hdiv
  rw [Nat.mul_comm i, Nat.mul_comm i', Nat.mul_add_mod, Nat.mul_add_mod, Nat.mod_eq_of_lt hj,
    Nat.mod_eq_of_lt hj'] at hmod
  exact ⟨hdiv, hmod⟩

/-- A loop over pairs is a nest of two loops. -/
theorem map_product (f : α × β → γ) (l : List α) (l' : List β) :
    (l ×ˢ l').map f = l.flatMap fun a => l'.map fun b => f (a, b) := by
  induction l with
  | nil => rfl
  | cons a rest ih =>
    rw [product_cons, map_append, ih, flatMap_cons, map_map]
    rfl

theorem flatMap_product (f : α × β → List γ) (l : List α) (l' : List β) :
    (l ×ˢ l').flatMap f = l.flatMap fun a => l'.flatMap fun b => f (a, b) := by
  rw [flatMap_def, map_product, flatMap_def, flatMap_def, flatten_flatten, map_map]
  rfl

/-- A sum with one term that is not zero. -/
theorem sum_map_ite_of_nodup [DecidableEq α] (h : l.Nodup) (f : α → ℤ) (b : α) :
    (l.map fun a => if a = b then f a else 0).sum = if b ∈ l then f b else 0 := by
  rw [sum_map_ite_eq]
  by_cases hb : b ∈ l
  · simp [hb, count_eq_one_of_mem h hb]
  · simp [hb, count_eq_zero_of_not_mem hb]

/-- An element of a list whose elements are numbered in their order is at its number. -/
theorem getElem?_iff_of_map_range {addr : α → ℕ} (haddr : l.map addr = List.range l.length) {t : α}
    :
    l[i]? = some t ↔ t ∈ l ∧ addr t = i := by
  have hat : ∀ j u, l[j]? = some u → addr u = j := by
    intro j u hu
    have hj := (List.getElem?_eq_some_iff.mp hu).1
    have hget := congrArg (fun r => r[j]?) haddr
    simp only [getElem?_map, hu, getElem?_range hj, Option.map_some] at hget
    exact Option.some.inj hget
  constructor
  · intro h
    exact ⟨mem_of_getElem? h, hat i t h⟩
  · rintro ⟨hmem, rfl⟩
    obtain ⟨j, hj⟩ := getElem?_of_mem hmem
    rwa [hat j t hj]

/-- A list that is given by its elements. -/
theorem eq_map_range {l : List β} {f : ℕ → β} (hlen : l.length = n)
    (h : ∀ i < n, l[i]? = some (f i)) : l = (List.range n).map f := by
  apply ext_getElem?
  intro i
  by_cases hi : i < n
  · rw [h i hi, getElem?_map, getElem?_range hi, Option.map_some]
  · rw [getElem?_eq_none (by omega), getElem?_eq_none (by simp; omega)]

/-- The element at a place, with those before and behind it. -/
theorem exists_append_of_getElem? (h : l[i]? = some x) :
    ∃ before after, l = before ++ x :: after ∧ before.length = i := by
  obtain ⟨hi, rfl⟩ := List.getElem?_eq_some_iff.mp h
  exact ⟨l.take i, l.drop (i + 1), by simp, length_take_of_le (Nat.le_of_lt hi)⟩

/-! ### The first of the best -/

/-- The first element that no later one is better than: `min` or `max` with a key. -/
def firstBest (better : α → α → Bool) : List α → Option α
  | [] => none
  | a :: l => some (l.foldl (fun best x => if better x best then x else best) a)

theorem firstBest_eq_none_iff :
    firstBest better l = none ↔ l = [] := by
  cases l with
  | nil => exact iff_of_true rfl rfl
  | cons a rest => exact iff_of_false nofun nofun

theorem mem_of_firstBest (h : firstBest better l = some x) : x ∈ l := by
  cases l with
  | nil => cases h
  | cons a rest =>
    rw [← Option.some.inj h]
    clear h
    induction rest generalizing a with
    | nil => exact mem_singleton_self a
    | cons b rest ih =>
      rw [foldl_cons]
      split
      · exact mem_cons_of_mem a (ih b)
      · rcases mem_cons.mp (ih a) with heq | hmem
        · rw [heq]
          exact mem_cons_self
        · exact mem_cons_of_mem a (mem_cons_of_mem b hmem)

end PyList
