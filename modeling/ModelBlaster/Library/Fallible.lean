import Mathlib.Data.List.Nodup

/-!
# Fallible computations

When a sequence of computations in `Except` succeeds.

## Main results

* `Fallible.bind_eq_ok_iff`: a sequence succeeds iff both parts do;
* `Fallible.mapM_eq_ok_iff`: a traversal succeeds iff it does at every element;
* `Fallible.foldlM_invariant`: an invariant of the successful steps holds after the run;
* `Fallible.exists_foldlM_eq_ok`: a run whose steps succeed under an invariant succeeds.
-/

namespace Fallible

open List

variable {α β ε : Type} {b : β} {x : Except ε α} {f : α → Except ε β} {e : ε} {r : List β}
  {l : List α} {a : α}

/-- A sequence succeeds iff both parts do. -/
theorem bind_eq_ok_iff :
    (x >>= f) = .ok b ↔ ∃ a, x = .ok a ∧ f a = .ok b := by
  cases x <;> simp [bind, Except.bind]

/-- A sequence fails iff its first part does, or succeeds and the second fails. -/
theorem bind_eq_error_iff :
    (x >>= f) = .error e ↔ x = .error e ∨ ∃ a, x = .ok a ∧ f a = .error e := by
  cases x <;> simp [bind, Except.bind]

theorem exists_of_isOk (h : x.isOk = true) : ∃ a, x = .ok a := by
  cases x with
  | error e => cases h
  | ok a => exact ⟨a, rfl⟩

/-- A check that throws or goes on succeeds iff its condition fails and the rest does. -/
theorem ite_error_eq_ok_iff {c : Prop} [Decidable c] {x : Except ε β} :
    (if c then .error e else x) = .ok b ↔ ¬c ∧ x = .ok b := by
  by_cases h : c <;> simp [h]

/-- A traversal succeeds iff it does at every element. -/
theorem mapM_eq_ok_iff :
    l.mapM f = .ok r ↔ List.Forall₂ (fun a b => f a = .ok b) l r := by
  induction l generalizing r with
  | nil => cases r <;> simp [pure, Except.pure]
  | cons a rest ih =>
    rw [mapM_cons, bind_eq_ok_iff]
    simp only [bind_eq_ok_iff, ih]
    cases r with
    | nil => simp [pure, Except.pure]
    | cons b bs =>
      rw [forall₂_cons]
      constructor
      · rintro ⟨b', hb', bs', hbs', heq⟩
        cases heq
        exact ⟨hb', hbs'⟩
      · rintro ⟨hb, hbs⟩
        exact ⟨b, hb, bs, hbs, rfl⟩

/-- A traversal with a success at every element succeeds. -/
theorem exists_mapM_eq_ok (h : ∀ a ∈ l, ∃ b, f a = .ok b) : ∃ r, l.mapM f = .ok r := by
  induction l with
  | nil => exact ⟨[], rfl⟩
  | cons a rest ih =>
    obtain ⟨b, hb⟩ := h a mem_cons_self
    obtain ⟨bs, hbs⟩ := ih fun x hx => h x (mem_cons_of_mem a hx)
    rw [mapM_eq_ok_iff] at hbs
    refine ⟨b :: bs, ?_⟩
    rw [mapM_eq_ok_iff]
    exact .cons hb hbs

/-- Lists in step: every element of the one stands against one of the other. -/
theorem exists_of_forall₂_left {R : α → β → Prop} {l : List α} {r : List β} (h : List.Forall₂ R l r)
    {a : α} (ha : a ∈ l) : ∃ b ∈ r, R a b := by
  induction h with
  | nil => cases ha
  | @cons x y l r hxy _ ih =>
    rcases mem_cons.mp ha with rfl | hmem
    · exact ⟨y, mem_cons_self, hxy⟩
    · obtain ⟨b, hb, hab⟩ := ih hmem
      exact ⟨b, mem_cons_of_mem y hb, hab⟩

theorem exists_of_forall₂_right {R : α → β → Prop} {l : List α} {r : List β}
    (h : List.Forall₂ R l r) {b : β} (hb : b ∈ r) : ∃ a ∈ l, R a b :=
  exists_of_forall₂_left h.flip hb

/-- Every element of a successful traversal has succeeded. -/
theorem exists_of_mapM_eq_ok (h : l.mapM f = .ok r) (ha : a ∈ l) : ∃ b ∈ r, f a = .ok b :=
  exists_of_forall₂_left (mapM_eq_ok_iff.mp h) ha

/-- Every result of a successful traversal comes from an element. -/
theorem exists_of_mem_mapM (h : l.mapM f = .ok r) (hb : b ∈ r) : ∃ a ∈ l, f a = .ok b :=
  exists_of_forall₂_right (mapM_eq_ok_iff.mp h) hb

/-- A successful traversal has a result at every place. -/
theorem length_of_mapM (h : l.mapM f = .ok r) :
    r.length = l.length := by
  rw [mapM_eq_ok_iff] at h
  exact h.length_eq.symm

theorem getElem?_of_mapM (h : l.mapM f = .ok r) {i : ℕ} (ha : l[i]? = some a) :
    ∃ b, r[i]? = some b ∧ f a = .ok b := by
  rw [mapM_eq_ok_iff] at h
  induction h generalizing i with
  | nil => cases ha
  | @cons x y l r hxy _ ih =>
    cases i with
    | zero =>
      obtain rfl : x = a := Option.some.inj ha
      exact ⟨y, rfl, hxy⟩
    | succ i => exact ih ha

/-- A successful traversal of two lists traverses each. -/
theorem mapM_append_eq_ok {l' : List α} (h : (l ++ l').mapM f = .ok r) :
    ∃ r', l.mapM f = .ok r' ∧ l'.mapM f = .ok (r.drop l.length) := by
  rw [mapM_append] at h
  simp only [bind_eq_ok_iff] at h
  obtain ⟨r₁, h₁, r₂, h₂, h⟩ := h
  cases h
  refine ⟨r₁, h₁, ?_⟩
  rw [← length_of_mapM h₁, drop_left]
  exact h₂

/-- A traversal fails at an element. -/
theorem exists_of_mapM_eq_error (h : l.mapM f = .error e) : ∃ a ∈ l, f a = .error e := by
  induction l with
  | nil => cases h
  | cons a rest ih =>
    rw [mapM_cons] at h
    cases hfa : f a with
    | error e' =>
      rw [hfa] at h
      cases h
      exact ⟨a, mem_cons_self, hfa⟩
    | ok b =>
      cases hrest : rest.mapM f with
      | error e' =>
        rw [hfa, hrest] at h
        cases h
        obtain ⟨x, hx, hfx⟩ := ih hrest
        exact ⟨x, mem_cons_of_mem a hx, hfx⟩
      | ok bs =>
        rw [hfa, hrest] at h
        cases h

/-- A traversal whose steps are those of a function. -/
theorem mapM_eq_ok_map {h : α → β} (hf : ∀ a ∈ l, f a = .ok (h a)) : l.mapM f = .ok (l.map h) := by
  induction l with
  | nil => rfl
  | cons a rest ih =>
    have hrest := ih fun x hx => hf x (mem_cons_of_mem a hx)
    rw [mapM_eq_ok_iff] at hrest ⊢
    exact .cons (hf a mem_cons_self) hrest

/-- A traversal of the elements that `e` keeps, when `k` says what becomes of each. -/
theorem mapM_filterMap_eq_ok {γ : Type} {e : γ → Option α} {f : α → Except ε β} {k : γ → Option β}
    {l : List γ}
    (h : ∀ x ∈ l, (e x = none ∧ k x = none) ∨ ∃ a b, e x = some a ∧ k x = some b ∧ f a = .ok b) :
    (l.filterMap e).mapM f = .ok (l.filterMap k) := by
  induction l with
  | nil => rfl
  | cons x rest ih =>
    have hrest := ih fun y hy => h y (mem_cons_of_mem x hy)
    rcases h x mem_cons_self with ⟨he, hk⟩ | ⟨a, b, he, hk, hab⟩
    · rwa [filterMap_cons_none he, filterMap_cons_none hk]
    · rw [filterMap_cons_some he, filterMap_cons_some hk]
      rw [mapM_eq_ok_iff] at hrest ⊢
      exact .cons hab hrest

theorem mapM_congr {g : α → Except ε β} (h : ∀ a ∈ l, f a = g a) :
    l.mapM f = l.mapM g := by
  induction l with
  | nil => rfl
  | cons a rest ih =>
    rw [mapM_cons, mapM_cons, h a mem_cons_self, ih fun x hx => h x (mem_cons_of_mem a hx)]

/-- A loop whose steps are those of a function. -/
theorem foldlM_eq_ok_foldl {f : β → α → Except ε β} {g : β → α → β}
    (hf : ∀ a ∈ l, ∀ b, f b a = .ok (g b a)) : l.foldlM f b = .ok (l.foldl g b) := by
  induction l generalizing b with
  | nil => rfl
  | cons a rest ih =>
    rw [foldlM_cons, hf a mem_cons_self]
    exact ih fun x hx => hf x (mem_cons_of_mem a hx)

/-- What the successful steps of a loop preserve holds after a successful run. The invariant may
refer to the elements that are done. -/
theorem foldlM_invariant {f : β → α → Except ε β} {P : List α → β → Prop}
    (hstep : ∀ done a b b', P done b → f b a = .ok b' → P (done ++ [a]) b') {done : List α} {b' : β}
    (hinit : P done b) (h : l.foldlM f b = .ok b') :
    P (done ++ l) b' := by
  induction l generalizing done b with
  | nil =>
    cases h
    rwa [append_nil]
  | cons a rest ih =>
    rw [foldlM_cons, bind_eq_ok_iff] at h
    obtain ⟨b₁, hhead, htail⟩ := h
    rw [append_cons]
    exact ih (hstep done a b b₁ hinit hhead) htail

/-- An invariant of the successful steps that holds before a loop holds after it. -/
theorem foldlM_induction {f : β → α → Except ε β} {P : List α → β → Prop}
    (hstep : ∀ done a b b', P done b → f b a = .ok b' → P (done ++ [a]) b') {l : List α} {b b' : β}
    (hinit : P [] b) (h : l.foldlM f b = .ok b') : P l b' :=
  foldlM_invariant hstep hinit h

/-- A loop whose steps succeed and preserve an invariant succeeds with the invariant. -/
theorem exists_foldlM_eq_ok {f : β → α → Except ε β} {P : List α → β → Prop} {l : List α}
    (hstep : ∀ done a rest b, done ++ a :: rest = l → P done b →
      ∃ b', f b a = .ok b' ∧ P (done ++ [a]) b') {b : β} (hinit : P [] b) :
    ∃ b', l.foldlM f b = .ok b' ∧ P l b' := by
  have hrun : ∀ rest done b, done ++ rest = l → P done b →
      ∃ b', rest.foldlM f b = .ok b' ∧ P l b' := by
    intro rest
    induction rest with
    | nil =>
      intro done b hsplit hb
      refine ⟨b, rfl, ?_⟩
      rwa [← hsplit, append_nil]
    | cons a rest ih =>
      intro done b hsplit hb
      obtain ⟨b₁, hhead, hb₁⟩ := hstep done a rest b hsplit hb
      obtain ⟨b', htail, hb'⟩ := ih (done ++ [a]) b₁ (by simp [hsplit]) hb₁
      refine ⟨b', ?_, hb'⟩
      rw [foldlM_cons, bind_eq_ok_iff]
      exact ⟨b₁, hhead, htail⟩
  exact hrun l [] b rfl hinit

/-! ### Options -/

/-- A traversal finds all elements iff it finds each. -/
theorem mapM_ne_none_iff {f : α → Option β} :
    l.mapM f ≠ none ↔ ∀ x ∈ l, f x ≠ none := by
  induction l with
  | nil => simp
  | cons x l ih =>
    rw [mapM_cons, forall_mem_cons, ← ih]
    cases f x with
    | none => simp
    | some y =>
      cases l.mapM f with
      | none => simp
      | some ys => simp

/-- A traversal that finds all elements keeps them all. -/
theorem filterMap_of_mapM {f : α → Option β} (h : l.mapM f = some r) :
    r = l.filterMap f := by
  induction l generalizing r with
  | nil =>
    cases h
    rfl
  | cons a l ih =>
    rw [mapM_cons] at h
    obtain ⟨b, hb, h⟩ := Option.bind_eq_some_iff.mp h
    obtain ⟨bs, hbs, h⟩ := Option.bind_eq_some_iff.mp h
    cases h
    rw [filterMap_cons_some hb, ih hbs]

theorem flatten_of_mapM {f : α → Option (List β)} {r : List (List β)} (h : l.mapM f = some r) :
    r.flatten = l.flatMap fun a => (f a).getD [] := by
  induction l generalizing r with
  | nil =>
    cases h
    rfl
  | cons a l ih =>
    rw [mapM_cons] at h
    obtain ⟨b, hb, h⟩ := Option.bind_eq_some_iff.mp h
    obtain ⟨bs, hbs, h⟩ := Option.bind_eq_some_iff.mp h
    cases h
    rw [flatten_cons, flatMap_cons, ih hbs, hb]
    rfl

end Fallible
