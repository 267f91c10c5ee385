import Mathlib.Logic.Relation

/-!
# Contracting blocks of a relation

A relation without cycles, whose nodes are put into blocks. The contraction has an edge from one
block to another where the relation has one between their nodes. A block is closed when no path
leaves it and comes back. Closed blocks do not make the contraction acyclic: a cycle may go through
several of them.

## Main definitions

* `Contraction.Edge`: the edges between different blocks;
* `Contraction.Precedes`: a path between different blocks.

## Main results

* `Contraction.acyclic_iff`: when all blocks but the singletons are closed, the contraction is
  acyclic iff no cycle of paths goes through blocks that are not singletons;
* `Contraction.acyclic_image_iff`: renaming nodes keeps cycles, as it keeps paths.
-/

namespace Contraction

open Relation

variable {α β : Type} {r : α → α → Prop} {block : α → β}

/-- An edge between nodes of different blocks. -/
def Edge (r : α → α → Prop) (block : α → β) (x y : β) : Prop :=
  x ≠ y ∧ ∃ a b, block a = x ∧ block b = y ∧ r a b

/-- A path between nodes of different blocks. -/
def Precedes (r : α → α → Prop) (block : α → β) (x y : β) : Prop :=
  x ≠ y ∧ ∃ a b, block a = x ∧ block b = y ∧ TransGen r a b

/-- A path of the contraction along a path of the relation. -/
theorem reflTransGen_of_path {a b : α} (h : ReflTransGen r a b) :
    ReflTransGen (Edge r block) (block a) (block b) := by
  induction h with
  | refl => exact .refl
  | @tail b c _ hbc ih =>
    by_cases hsame : block b = block c
    · exact hsame ▸ ih
    · exact ih.tail ⟨hsame, b, c, rfl, rfl, hbc⟩

/-- A path of the relation between blocks gives one of the contraction. -/
theorem transGen_of_precedes {x y : β} (h : Precedes r block x y) :
    TransGen (Edge r block) x y := by
  obtain ⟨hne, a, b, rfl, rfl, hpath⟩ := h
  rcases reflTransGen_iff_eq_or_transGen.mp (reflTransGen_of_path hpath.to_reflTransGen) with
    heq | hlong
  · exact absurd heq.symm hne
  · exact hlong

section Blocks

variable (group : β → Prop)

/-- `Precedes` between groups. -/
def GroupPrecedes (r : α → α → Prop) (block : α → β) (x y : β) : Prop :=
  group x ∧ group y ∧ Precedes r block x y

variable {group}
variable (hsingle : ∀ a b, block a = block b → ¬group (block a) → a = b)
  (hclosed : ∀ a b c, block a = block b → group (block a) → TransGen r a c → TransGen r c b →
    block c = block a)

include hsingle hclosed in
/-- A walk of the contraction that begins at a group: the last group on it is reached through
groups, and from there a path of the relation leads to the end. -/
private theorem walk_from_group {x y : β} (hx : group x) (h : TransGen (Edge r block) x y) :
    ∃ g, group g ∧ (TransGen (GroupPrecedes group r block) x g ∨ g = x ∧ y ≠ x) ∧
      (y = g ∨ ¬group y ∧ ∃ a b, block a = g ∧ block b = y ∧ TransGen r a b) := by
  induction h with
  | @single y hxy =>
    obtain ⟨hne, a, b, ha, hb, hab⟩ := hxy
    by_cases hy : group y
    · exact ⟨y, hy, Or.inl (.single ⟨hx, hy, hne, a, b, ha, hb, .single hab⟩), Or.inl rfl⟩
    · exact ⟨x, hx, Or.inr ⟨rfl, hne.symm⟩, Or.inr ⟨hy, a, b, ha, hb, .single hab⟩⟩
  | @tail y z _ hyz ih =>
    obtain ⟨g, hg, hreach, hend⟩ := ih
    obtain ⟨hne, c, d, hc, hd, hcd⟩ := hyz
    -- From the last group a path leads to `d`.
    have hpath : ∃ a, block a = g ∧ TransGen r a d ∧ (z = g → y = g) := by
      rcases hend with rfl | ⟨hy, a, b, ha, hb, hab⟩
      · exact ⟨c, hc, .single hcd, fun _ => rfl⟩
      · obtain rfl : b = c := hsingle b c (hb.trans hc.symm) (hb ▸ hy)
        refine ⟨a, ha, hab.tail hcd, fun hzg => ?_⟩
        have := hclosed a d b (by rw [ha, hd, hzg]) (ha ▸ hg) hab (.single hcd)
        rw [← hb, this, ha]
    obtain ⟨a, ha, had, hback⟩ := hpath
    have hzg : z ≠ g := fun h => hne ((hback h).trans h.symm)
    by_cases hz : group z
    · have hstep : GroupPrecedes group r block g z := ⟨hg, hz, hzg.symm, a, d, ha, hd, had⟩
      refine ⟨z, hz, Or.inl ?_, Or.inl rfl⟩
      rcases hreach with hlong | ⟨rfl, -⟩
      · exact hlong.tail hstep
      · exact .single hstep
    · refine ⟨g, hg, ?_, Or.inr ⟨hz, a, d, ha, hd, had⟩⟩
      rcases hreach with hlong | ⟨rfl, -⟩
      · exact Or.inl hlong
      · exact Or.inr ⟨rfl, hzg⟩

include hsingle in
/-- A walk of the contraction either goes through a group or is a path of the relation. -/
private theorem walk_of_single {x y : β} (h : TransGen (Edge r block) x y) :
    (∃ g, group g ∧ TransGen (Edge r block) x g ∧ ReflTransGen (Edge r block) g y) ∨
      ¬group y ∧ ∃ a b, block a = x ∧ block b = y ∧ TransGen r a b := by
  induction h with
  | @single y hxy =>
    by_cases hy : group y
    · exact Or.inl ⟨y, hy, .single hxy, .refl⟩
    · obtain ⟨-, a, b, ha, hb, hab⟩ := hxy
      exact Or.inr ⟨hy, a, b, ha, hb, .single hab⟩
  | @tail y z hwalk hyz ih =>
    rcases ih with ⟨g, hg, hxg, hgy⟩ | ⟨hy, a, b, ha, hb, hab⟩
    · exact Or.inl ⟨g, hg, hxg, hgy.tail hyz⟩
    · by_cases hz : group z
      · exact Or.inl ⟨z, hz, hwalk.tail hyz, .refl⟩
      · obtain ⟨-, c, d, hc, hd, hcd⟩ := hyz
        obtain rfl : b = c := hsingle b c (hb.trans hc.symm) (hb ▸ hy)
        exact Or.inr ⟨hz, a, d, ha, hd, hab.tail hcd⟩

include hsingle hclosed in
/-- Blocks that are not groups have one node, and groups are closed. Then the contraction of an
acyclic relation is acyclic iff no cycle of paths goes through groups. -/
theorem acyclic_iff (hacyclic : ∀ a, ¬TransGen r a a) :
    (∀ x, ¬TransGen (Edge r block) x x) ↔
      ∀ x, ¬TransGen (GroupPrecedes group r block) x x := by
  constructor
  · intro h x hcycle
    apply h x
    have hlift : ∀ {y z}, TransGen (GroupPrecedes group r block) y z →
        TransGen (Edge r block) y z := by
      intro y z hyz
      induction hyz with
      | single hstep => exact transGen_of_precedes hstep.2.2
      | tail _ hstep ih => exact ih.trans (transGen_of_precedes hstep.2.2)
    exact hlift hcycle
  · intro h x hcycle
    -- A cycle through a group comes back to it through groups.
    have hgroup : ∀ g, group g → ¬TransGen (Edge r block) g g := by
      intro g hg hwalk
      obtain ⟨g', hg', hreach, hend⟩ := walk_from_group hsingle hclosed hg hwalk
      rcases hend with rfl | ⟨hnot, -⟩
      · rcases hreach with hlong | ⟨-, hne⟩
        · exact h _ hlong
        · exact hne rfl
      · exact hnot hg
    rcases walk_of_single hsingle hcycle with ⟨g, hg, hxg, hgx⟩ | ⟨hx, a, b, ha, hb, hab⟩
    · exact hgroup g hg (hxg.trans_right hgx)
    · obtain rfl : a = b := hsingle a b (ha.trans hb.symm) (ha ▸ hx)
      exact hacyclic a hab

end Blocks

section Image

variable {γ : Type} {E : β → β → Prop} {E' : γ → γ → Prop} {f : β → γ}
  (himage : ∀ k n, E' k n ↔ ∃ x y, E x y ∧ f x = k ∧ f y = n)
  (hinj : ∀ {x y z w}, E x y → E z w → f y = f z → y = z)

include himage in
/-- A path of nodes is one of names. -/
theorem transGen_image {x y : β} (h : TransGen E x y) : TransGen E' (f x) (f y) :=
  TransGen.lift f (fun a b hab => (himage _ _).mpr ⟨a, b, hab, rfl, rfl⟩) _ _ h

include himage hinj in
/-- A path of names is one of nodes, whose ends are on edges. -/
theorem exists_of_transGen_image {k n : γ} (h : TransGen E' k n) :
    ∃ x y z w, f x = k ∧ f y = n ∧ E x z ∧ E w y ∧ TransGen E x y := by
  induction h with
  | single hstep =>
    obtain ⟨x, y, hxy, rfl, rfl⟩ := (himage _ _).mp hstep
    exact ⟨x, y, y, x, rfl, rfl, hxy, hxy, .single hxy⟩
  | tail _ hstep ih =>
    obtain ⟨x, y, z, w, rfl, hy, hxz, hwy, hpath⟩ := ih
    obtain ⟨y', u, hyu, hy', rfl⟩ := (himage _ _).mp hstep
    obtain rfl := hinj hwy hyu (hy.trans hy'.symm)
    exact ⟨x, u, z, y, rfl, rfl, hxz, hyu, hpath.tail hyu⟩

include himage hinj in
/-- Renaming the nodes of a relation, so that nodes on its edges stay apart, makes and breaks no
cycle. -/
theorem acyclic_image_iff : (∀ k, ¬TransGen E' k k) ↔ ∀ x, ¬TransGen E x x := by
  constructor
  · exact fun h x hcycle => h (f x) (transGen_image himage hcycle)
  · intro h k hcycle
    obtain ⟨x, y, z, w, hx, hy, hxz, hwy, hpath⟩ := exists_of_transGen_image himage hinj hcycle
    obtain rfl := hinj hwy hxz (hy.trans hx.symm)
    exact h y hpath

end Image

end Contraction
