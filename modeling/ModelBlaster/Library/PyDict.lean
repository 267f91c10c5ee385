import Mathlib.Data.List.Nodup
import Mathlib.Data.List.Induction

/-!
# Insertion-ordered dictionaries

Python's `dict` iterates in insertion order, and assigning to a key that is already
present keeps its position. `PyDict` is the list of its items together with the proof
that no key occurs twice, so that a dictionary with a repeated key cannot be built.

## Main definitions

* `PyDict.get?`, `PyDict.set`: `d.get(k)` and `d[k] = v`;
* `PyDict.keys`: the keys in iteration order;
* `PyDict.ofList`: a comprehension;
* `PyDict.group`: the groups.

## Main results

* `PyDict.get?_set`: reading after a write;
* `PyDict.mem_items_iff`: an item is in the dictionary iff its key reads its value;
* `PyDict.keys_set_of_mem` and `PyDict.keys_set_of_not_mem`: a write to a present key
  keeps the iteration order, a write to a new key appends to it;
* `PyDict.get?_ofList_iff`: with distinct keys, a comprehension reads exactly its pairs;
* `PyDict.get?_group`: a group holds the elements with its key, in order.
-/

/-- An insertion-ordered dictionary: its items in iteration order, with distinct keys. -/
structure PyDict (κ ν : Type) where
  /-- The `(key, value)` pairs in insertion order. -/
  items : List (κ × ν)
  /-- No key occurs twice. -/
  nodup : (items.map Prod.fst).Nodup

namespace PyDict

open List

variable {κ ν : Type}

/-- The keys in iteration order. -/
def keys (d : PyDict κ ν) : List κ := d.items.map Prod.fst

/-- The empty dictionary. -/
def empty : PyDict κ ν := ⟨[], nodup_nil⟩

/-- The keys of a dictionary are distinct. -/
theorem keys_nodup (d : PyDict κ ν) : d.keys.Nodup := d.nodup

variable {d : PyDict κ ν}

/-- Two dictionaries with the same items are equal. -/
@[ext]
theorem ext {e : PyDict κ ν} (h : d.items = e.items) : d = e := by
  cases d
  cases e
  simpa using h

instance [DecidableEq κ] [DecidableEq ν] : DecidableEq (PyDict κ ν) := fun d e =>
  decidable_of_iff (d.items = e.items) ⟨PyDict.ext, fun h => h ▸ rfl⟩

variable [DecidableEq κ]

/-- `d.get(k)`. -/
def get? (d : PyDict κ ν) (k : κ) : Option ν := d.items.lookup k

/-- Overwrite the value under `k` where it stands. -/
def replace (k : κ) (v : ν) (items : List (κ × ν)) : List (κ × ν) :=
  items.map fun item => if item.1 = k then (k, v) else item

omit [DecidableEq κ] in
private theorem map_fst_append_single (items : List (κ × ν)) (k : κ) (v : ν) :
    (items ++ [(k, v)]).map Prod.fst = items.map Prod.fst ++ [k] := by
  simp

/-- Overwriting a value changes no key. -/
theorem map_fst_replace (k : κ) (v : ν) (items : List (κ × ν)) :
    (replace k v items).map Prod.fst = items.map Prod.fst := by
  rw [replace, map_map]
  apply map_congr_left
  intro item _
  by_cases h : item.1 = k <;> simp [h]

/-- `d[k] = v`: a present key keeps its place, a new key goes to the end. -/
def set (d : PyDict κ ν) (k : κ) (v : ν) : PyDict κ ν :=
  if h : k ∈ d.keys then
    ⟨replace k v d.items, by rw [map_fst_replace]; exact d.nodup⟩
  else
    ⟨d.items ++ [(k, v)], by
      rw [map_fst_append_single]
      exact nodup_append.mpr ⟨d.nodup, nodup_singleton k, by
        intro a ha b hb hab
        rw [mem_singleton] at hb
        exact h (by rw [← hb, ← hab]; exact ha)⟩⟩

/-! ### Reading -/

private theorem lookup_cons_ite (k k' : κ) (v : ν) (items : List (κ × ν)) :
    ((k', v) :: items).lookup k = if k = k' then some v else items.lookup k := by
  by_cases h : k = k'
  · simp [h]
  · rw [lookup_cons, beq_false_of_ne h, if_neg h]

variable {k : κ} {items : List (κ × ν)}

private theorem lookup_eq_none_iff_key :
    items.lookup k = none ↔ k ∉ items.map Prod.fst := by
  rw [lookup_eq_none_iff]
  simp only [mem_map, not_exists, not_and, bne_iff_ne, ne_eq]
  exact ⟨fun h item hitem heq => h item hitem heq.symm, fun h item hitem heq =>
    h item hitem heq.symm⟩

variable {v : ν}

private theorem mem_of_lookup (h : items.lookup k = some v) : (k, v) ∈ items := by
  obtain ⟨before, after, hlist, -⟩ := lookup_eq_some_iff.mp h
  simp [hlist]

private theorem lookup_of_mem (hnd : (items.map Prod.fst).Nodup) (h : (k, v) ∈ items) :
    items.lookup k = some v := by
  induction items with
  | nil => cases h
  | cons item rest ih =>
    obtain ⟨k', v'⟩ := item
    rw [map_cons, nodup_cons] at hnd
    rcases mem_cons.mp h with heq | hmem
    · cases heq
      simp
    · have hne : k ≠ k' := by
        rintro rfl
        exact hnd.1 (mem_map.mpr ⟨(k, v), hmem, rfl⟩)
      rw [lookup_cons_ite, if_neg hne]
      exact ih hnd.2 hmem

/-- An item is in the dictionary iff its key reads its value. -/
theorem mem_items_iff :
    (k, v) ∈ d.items ↔ d.get? k = some v :=
  ⟨lookup_of_mem d.nodup, mem_of_lookup⟩

/-- A key is absent iff it reads nothing. -/
theorem get?_eq_none_iff : d.get? k = none ↔ k ∉ d.keys :=
  lookup_eq_none_iff_key

/-- A key is present iff it reads some value. -/
theorem mem_keys_iff : k ∈ d.keys ↔ ∃ v, d.get? k = some v := by
  rw [← Option.isSome_iff_exists, Option.isSome_iff_ne_none, Ne, get?_eq_none_iff, not_not]

/-- A key that reads a value is present. -/
theorem mem_keys_of_get? (h : d.get? k = some v) :
    k ∈ d.keys :=
  mem_keys_iff.mpr ⟨v, h⟩

@[simp]
theorem get?_empty (k : κ) : (empty : PyDict κ ν).get? k = none := rfl

/-! ### Writing -/

private theorem replace_of_not_mem (v : ν) (h : k ∉ items.map Prod.fst) :
    replace k v items = items := by
  conv_rhs => rw [← map_id items]
  apply map_congr_left
  intro item hitem
  have hne : item.1 ≠ k := fun he => h (mem_map.mpr ⟨item, hitem, he⟩)
  simp [hne]

private theorem lookup_replace (k k' : κ) (v : ν) (items : List (κ × ν))
    (h : k ∈ items.map Prod.fst) :
    (replace k v items).lookup k' = if k' = k then some v else items.lookup k' := by
  induction items with
  | nil => simp at h
  | cons item rest ih =>
    obtain ⟨k₀, v₀⟩ := item
    have hcons : replace k v ((k₀, v₀) :: rest) =
        (if k₀ = k then (k, v) else (k₀, v₀)) :: replace k v rest := rfl
    rw [hcons]
    by_cases hrest : k ∈ rest.map Prod.fst
    · by_cases h₀ : k₀ = k
      · subst h₀
        rw [if_pos rfl, lookup_cons_ite, lookup_cons_ite, ih hrest]
        by_cases hk : k' = k₀ <;> simp [hk]
      · rw [if_neg h₀, lookup_cons_ite, lookup_cons_ite, ih hrest]
        by_cases hk : k' = k₀
        · subst hk
          simp [h₀]
        · simp [hk]
    · have h₀ : k₀ = k := by
        rw [map_cons, mem_cons] at h
        exact (h.resolve_right hrest).symm
      subst h₀
      rw [replace_of_not_mem v hrest, if_pos rfl, lookup_cons_ite, lookup_cons_ite]
      by_cases hk : k' = k₀ <;> simp [hk]

private theorem lookup_append_single (k k' : κ) (v : ν) (items : List (κ × ν))
    (h : k ∉ items.map Prod.fst) :
    (items ++ [(k, v)]).lookup k' = if k' = k then some v else items.lookup k' := by
  rw [lookup_append]
  by_cases hk : k' = k
  · subst hk
    simp [lookup_eq_none_iff_key.mpr h]
  · rw [lookup_cons_ite, if_neg hk, if_neg hk]
    simp

/-- Reading after a write. -/
theorem get?_set (d : PyDict κ ν) (k k' : κ) (v : ν) :
    (d.set k v).get? k' = if k' = k then some v else d.get? k' := by
  unfold set get?
  split
  next h => exact lookup_replace k k' v d.items h
  next h => exact lookup_append_single k k' v d.items h

@[simp]
theorem get?_set_self (d : PyDict κ ν) (k : κ) (v : ν) : (d.set k v).get? k = some v := by
  simp [get?_set]

variable {k' : κ} {μ : Type}

theorem get?_set_of_ne (d : PyDict κ ν) (v : ν) (h : k' ≠ k) :
    (d.set k v).get? k' = d.get? k' := by
  simp [get?_set, h]

/-- Writing to a present key keeps the iteration order. -/
theorem keys_set_of_mem (v : ν) (h : k ∈ d.keys) :
    (d.set k v).keys = d.keys := by
  rw [set, dif_pos h]
  exact map_fst_replace k v d.items

/-- A new key goes to the end. -/
theorem items_set_of_not_mem (v : ν) (h : k ∉ d.keys) :
    (d.set k v).items = d.items ++ [(k, v)] := by
  rw [set, dif_neg h]

/-- Writing to a new key appends it to the iteration order. -/
theorem keys_set_of_not_mem (v : ν) (h : k ∉ d.keys) :
    (d.set k v).keys = d.keys ++ [k] := by
  rw [set, dif_neg h]
  exact map_fst_append_single d.items k v

theorem mem_keys_set :
    k' ∈ (d.set k v).keys ↔ k' = k ∨ k' ∈ d.keys := by
  rw [mem_keys_iff, get?_set, mem_keys_iff]
  by_cases h : k' = k <;> simp [h]

/-! ### Comprehensions -/

/-- `{k: v for k, v in l}` -/
def ofList (l : List (κ × ν)) : PyDict κ ν := l.foldl (fun d p => d.set p.1 p.2) empty

/-- One pair more overwrites. -/
theorem get?_ofList_append_single (l : List (κ × ν)) (k k' : κ) (v : ν) :
    (ofList (l ++ [(k, v)])).get? k' = if k' = k then some v else (ofList l).get? k' := by
  rw [ofList, foldl_append]
  exact get?_set _ k k' v

variable {l : List (κ × ν)}

/-- A comprehension reads one of its pairs. -/
theorem mem_of_get?_ofList (h : (ofList l).get? k = some v) : (k, v) ∈ l := by
  induction l using reverseRecOn with
  | nil => cases h
  | append_singleton l p ih =>
    rw [get?_ofList_append_single] at h
    split_ifs at h with hk
    · cases h
      simp [hk]
    · exact mem_append_left _ (ih h)

/-- The keys of a comprehension. -/
theorem mem_keys_ofList : k ∈ (ofList l).keys ↔ k ∈ l.map Prod.fst := by
  rw [mem_keys_iff]
  induction l using reverseRecOn with
  | nil => simp [ofList]
  | append_singleton l p ih =>
    obtain ⟨k', v'⟩ := p
    simp only [get?_ofList_append_single, map_append, mem_append, ← ih]
    by_cases hk : k = k' <;> simp [hk]

/-- With distinct keys, a comprehension reads exactly its pairs. -/
theorem get?_ofList_iff (hnd : (l.map Prod.fst).Nodup) :
    (ofList l).get? k = some v ↔ (k, v) ∈ l := by
  refine ⟨mem_of_get?_ofList, fun hmem => ?_⟩
  have hkey : k ∈ (ofList l).keys := mem_keys_ofList.mpr (mem_map_of_mem hmem)
  obtain ⟨v', hv'⟩ := mem_keys_iff.mp hkey
  -- The pair that is read has the same key.
  have heq := inj_on_of_nodup_map hnd (mem_of_get?_ofList hv') hmem rfl
  rw [hv', (Prod.mk.injEq ..).mp heq |>.2]

/-- Values under a function. -/
theorem get?_ofList_map (f : ν → μ) (l : List (κ × ν)) (k : κ) :
    (ofList (l.map fun p => (p.1, f p.2))).get? k = ((ofList l).get? k).map f := by
  induction l using reverseRecOn with
  | nil => rfl
  | append_singleton l p ih =>
    rw [map_append, map_singleton, get?_ofList_append_single, get?_ofList_append_single]
    split_ifs with h
    · rfl
    · exact ih

/-- A comprehension reads the last of the pairs with the key. -/
theorem get?_ofList (l : List (κ × ν)) (k : κ) :
    (ofList l).get? k = ((l.filter fun p => p.1 = k).getLast?).map Prod.snd := by
  induction l using reverseRecOn with
  | nil => rfl
  | append_singleton l p ih =>
    rw [get?_ofList_append_single, filter_append, ih]
    by_cases h : p.1 = k
    · simp [h]
    · rw [if_neg fun h' => h h'.symm]
      simp [h]

/-- With distinct keys, a comprehension has its pairs, in their order. -/
theorem items_ofList (hnd : (l.map Prod.fst).Nodup) : (ofList l).items = l := by
  induction l using reverseRecOn with
  | nil => rfl
  | append_singleton l p ih =>
    rw [map_append, nodup_append] at hnd
    have hset : ofList (l ++ [p]) = (ofList l).set p.1 p.2 := by
      rw [ofList, foldl_append]
      rfl
    have hnew : p.1 ∉ (ofList l).keys := by
      rw [mem_keys_ofList]
      exact fun hmem => hnd.2.2 p.1 hmem p.1 (by simp) rfl
    rw [hset, set, dif_neg hnew]
    show (ofList l).items ++ [(p.1, p.2)] = _
    rw [ih hnd.1]

/-- The later pairs of a comprehension overwrite the earlier ones. -/
theorem get?_ofList_append (l l' : List (κ × ν)) (k : κ) :
    (ofList (l ++ l')).get? k = ((ofList l').get? k).or ((ofList l).get? k) := by
  induction l' using reverseRecOn with
  | nil => rw [append_nil]; rfl
  | append_singleton l' p ih =>
    rw [← append_assoc, get?_ofList_append_single, get?_ofList_append_single, ih]
    split_ifs <;> rfl

/-- The items of a dictionary make it up. -/
theorem get?_ofList_items (d : PyDict κ ν) (k : κ) : (ofList d.items).get? k = d.get? k := by
  rw [get?, get?, items_ofList d.nodup]

/-- `{k: f(k, v) for k, v in d.items()}` -/
def mapItems {μ : Type} (f : κ → ν → μ) (d : PyDict κ ν) : PyDict κ μ where
  items := d.items.map fun p => (p.1, f p.1 p.2)
  nodup := by
    rw [map_map]
    exact d.nodup

theorem get?_mapItems (f : κ → ν → μ) (d : PyDict κ ν) (k : κ) :
    (d.mapItems f).get? k = (d.get? k).map (f k) := by
  apply Option.ext
  intro v
  rw [← mem_items_iff, Option.map_eq_some_iff]
  show (k, v) ∈ d.items.map _ ↔ _
  rw [mem_map]
  constructor
  · rintro ⟨p, hp, heq⟩
    cases heq
    exact ⟨p.2, mem_items_iff.mp hp, rfl⟩
  · rintro ⟨v', hv', rfl⟩
    exact ⟨(k, v'), mem_items_iff.mpr hv', rfl⟩

/-! ### Filtering -/

/-- `{k: v for k, v in d.items() if p(k)}` -/
def filter (p : κ → Bool) (d : PyDict κ ν) : PyDict κ ν where
  items := d.items.filter fun item => p item.1
  nodup := d.nodup.sublist (filter_sublist.map Prod.fst)

/-- `d.pop(k, None)` -/
def pop (d : PyDict κ ν) (k : κ) : PyDict κ ν := d.filter fun k' => k' ≠ k

omit [DecidableEq κ] in
theorem items_filter (p : κ → Bool) (d : PyDict κ ν) :
    (d.filter p).items = d.items.filter fun item => p item.1 := rfl

theorem get?_filter (p : κ → Bool) (d : PyDict κ ν) (k : κ) :
    (d.filter p).get? k = if p k then d.get? k else none := by
  apply Option.ext
  intro v
  rw [← mem_items_iff, items_filter, mem_filter, mem_items_iff]
  by_cases hk : p k = true
  · simp [hk]
  · simp [hk]

theorem get?_pop (d : PyDict κ ν) (k k' : κ) :
    (d.pop k).get? k' = if k' = k then none else d.get? k' := by
  rw [pop, get?_filter]
  by_cases hk : k' = k <;> simp [hk]

theorem get?_foldl_pop (d : PyDict κ ν) (ks : List κ) (k : κ) :
    (ks.foldl pop d).get? k = if k ∈ ks then none else d.get? k := by
  induction ks generalizing d with
  | nil => rfl
  | cons k' ks ih =>
    rw [foldl_cons, ih, get?_pop]
    by_cases hks : k ∈ ks <;> by_cases hk : k = k' <;> simp [hks, hk]

omit [DecidableEq κ] in
theorem keys_filter (p : κ → Bool) (d : PyDict κ ν) : (d.filter p).keys = d.keys.filter p := by
  rw [keys, keys, items_filter, filter_map]
  rfl

end PyDict

/-! ## Grouping -/

namespace PyDict

variable {α κ ν : Type} [DecidableEq κ]

/-- `for a in l: groups[key(a)].append(val(a))` -/
def group (key : α → κ) (val : α → ν) (l : List α) : PyDict κ (List ν) :=
  l.foldl (fun groups a => groups.set (key a) ((groups.get? (key a)).getD [] ++ [val a])) empty

variable {key : α → κ} {val : α → ν} {l : List α}

theorem group_append_single (a : α) :
    group key val (l ++ [a]) =
      (group key val l).set (key a) (((group key val l).get? (key a)).getD [] ++ [val a]) := by
  rw [group, List.foldl_append]
  rfl

/-- The keys are those of the elements. -/
theorem mem_keys_group {k : κ} : k ∈ (group key val l).keys ↔ ∃ a ∈ l, key a = k := by
  induction l using List.reverseRecOn with
  | nil => simp [group, empty, keys]
  | append_singleton l a ih =>
    rw [group_append_single, mem_keys_set, ih]
    simp only [List.mem_append, List.mem_singleton, or_and_right, exists_or, exists_eq_left]
    exact or_comm.trans (or_congr_right eq_comm)

/-- A group holds the elements with its key, in order. -/
theorem getD_get?_group (k : κ) :
    ((group key val l).get? k).getD [] = (l.filter fun a => key a = k).map val := by
  induction l using List.reverseRecOn with
  | nil => rfl
  | append_singleton l a ih =>
    rw [group_append_single, get?_set, List.filter_append, List.map_append, ← ih]
    by_cases hk : k = key a
    · subst hk
      simp
    · simp [hk, Ne.symm hk]

/-- A group that exists holds the elements with its key, in order. -/
theorem get?_group {k : κ} {g : List ν} (h : (group key val l).get? k = some g) :
    g = (l.filter fun a => key a = k).map val := by
  rw [← getD_get?_group, h]
  rfl

end PyDict
