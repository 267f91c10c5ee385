import ModelBlaster.Library.Fallible
import ModelBlaster.Library.KahnLoop
import ModelBlaster.Library.PyDict
import Mathlib.Algebra.Order.Group.Defs

/-!
# List scheduling

Jobs are placed one after the other, each on the tile it is bound to. A job starts when its
dependencies have ended and its tile is free, whichever is later, and its tile is free again
when it ends. The loop looks the ends of the dependencies up in a dictionary, so that it
fails on a job whose dependencies are not placed.

## Main definitions

* `ListSchedule.Jobs`: the dependencies, tiles and durations of the jobs;
* `ListSchedule.run`: the loop;
* `ListSchedule.Schedule`: the start times that the loop assigns, as an equation;
* `ListSchedule.Chain`: how long a chain of jobs before a job takes.

## Main results

* `ListSchedule.exists_run`: on an order in which every job comes after its dependencies the
  loop succeeds, with a schedule;
* `ListSchedule.Schedule.end_dep_le`: a job starts after its dependencies have ended;
* `ListSchedule.Schedule.end_le_start`: the jobs of one tile run one after the other;
* `ListSchedule.Schedule.start_le`: no job could start earlier;
* `ListSchedule.Schedule.isGreatest_chain`: a job starts when the longest chain has run.
-/

namespace ListSchedule

open List

/-! ### The latest end -/

section Latest

variable {τ : Type} [LinearOrder τ]

/-- `max(ends, default=dflt)` -/
def latest (dflt : τ) (ends : List τ) : τ := ends.max?.getD dflt

variable {ends : List τ} {dflt t : τ}

theorem le_latest {e : τ} (h : e ∈ ends) : e ≤ latest dflt ends := by
  obtain ⟨m, hm⟩ := Option.isSome_iff_exists.mp (isSome_max?_of_mem h)
  rw [latest, hm]
  exact (max?_le_iff hm).mp le_rfl e h

theorem latest_le (hdflt : dflt ≤ t) (h : ∀ e ∈ ends, e ≤ t) :
    latest dflt ends ≤ t := by
  rw [latest]
  cases hmax : ends.max? with
  | none => exact hdflt
  | some m => exact (max?_le_iff hmax).mpr h

theorem latest_eq_or_mem (dflt : τ) (ends : List τ) :
    latest dflt ends = dflt ∨ latest dflt ends ∈ ends := by
  rw [latest]
  cases hmax : ends.max? with
  | none => exact Or.inl rfl
  | some m => exact Or.inr (max?_mem hmax)

/-- The latest end is after a time iff some end is. -/
theorem any_max?_iff :
    (ends.max?.any fun e => t < e) = true ↔ ∃ e ∈ ends, t < e := by
  cases hmax : ends.max? with
  | none =>
    rw [max?_eq_none_iff] at hmax
    simp [hmax]
  | some m =>
    simp only [Option.any_some, decide_eq_true_eq]
    constructor
    · exact fun hlt => ⟨m, max?_mem hmax, hlt⟩
    · rintro ⟨e, he, hlt⟩
      exact hlt.trans_le ((max?_le_iff hmax).mp le_rfl e he)

end Latest

/-! ### Jobs -/

variable {κ μ τ : Type} [LinearOrder τ] [Add τ]

/-- The jobs to schedule. -/
structure Jobs (κ μ τ : Type) [LE τ] where
  /-- The jobs that a job waits for. -/
  deps : κ → List κ
  /-- The tile that a job runs on. -/
  tile : κ → μ
  /-- How long a job runs. -/
  duration : κ → τ
  /-- The earliest start of a job, from the ends of its dependencies. -/
  lower : κ → List τ → τ
  /-- A job waits for all its dependencies. -/
  le_lower : ∀ k ends, ∀ e ∈ ends, e ≤ lower k ends

variable (J : Jobs κ μ τ)

/-! ### Specification -/

section Specification

variable [DecidableEq μ]

/-- When a job ends, given when the jobs start. -/
def Jobs.stop (S : κ → τ) (k : κ) : τ := S k + J.duration k

/-- From when on a tile is free after some jobs: the end of the last one that runs on it. -/
def freeAfter (free : μ → τ) (S : κ → τ) (l : List κ) (m : μ) : τ :=
  l.foldl (fun t k => if J.tile k = m then J.stop S k else t) (free m)

/-- The jobs of `order` start as soon as their dependencies and the jobs before them on
their tile allow. -/
def Schedule (free : μ → τ) (order : List κ) (S : κ → τ) : Prop :=
  ∀ l₁ k l₂, order = l₁ ++ k :: l₂ →
    S k = max (J.lower k ((J.deps k).map (J.stop S))) (freeAfter J free S l₁ (J.tile k))

variable {J} {free : μ → τ} {S : κ → τ}

@[simp]
theorem freeAfter_nil (m : μ) : freeAfter J free S [] m = free m := rfl

@[simp]
theorem freeAfter_append_single (l : List κ) (k : κ) (m : μ) :
    freeAfter J free S (l ++ [k]) m =
      if J.tile k = m then J.stop S k else freeAfter J free S l m := by
  rw [freeAfter, foldl_append]
  rfl

/-- A tile is free from the beginning, or from the end of a job that ran on it. -/
theorem freeAfter_eq_or_exists (free : μ → τ) (l : List κ) (m : μ) :
    freeAfter J free S l m = free m ∨
      ∃ a ∈ l, J.tile a = m ∧ freeAfter J free S l m = J.stop S a := by
  induction l using reverseRecOn with
  | nil => exact Or.inl rfl
  | append_singleton l k ih =>
    rw [freeAfter_append_single]
    by_cases hk : J.tile k = m
    · exact Or.inr ⟨k, by simp, hk, if_pos hk⟩
    · rw [if_neg hk]
      exact ih.imp_right fun ⟨a, ha, htile, heq⟩ => ⟨a, mem_append_left _ ha, htile, heq⟩

variable {S' : κ → τ} {order : List κ}

/-- Only the starts of the jobs placed matter. -/
theorem freeAfter_congr {l : List κ} (h : ∀ k ∈ l, S k = S' k) (m : μ) :
    freeAfter J free S l m = freeAfter J free S' l m := by
  induction l using reverseRecOn with
  | nil => rfl
  | append_singleton l k ih =>
    rw [freeAfter_append_single, freeAfter_append_single, Jobs.stop, Jobs.stop,
      h k (by simp), ih fun j hj => h j (mem_append_left _ hj)]

/-- A schedule of an order is one of its beginning. -/
theorem Schedule.left {rest : List κ} (h : Schedule J free (order ++ rest) S) :
    Schedule J free order S := by
  intro l₁ k l₂ heq
  exact h l₁ k (l₂ ++ rest) (by rw [heq, append_assoc, cons_append])

/-- Only the starts of the jobs in the order matter, if their dependencies are among them. -/
theorem Schedule.congr (h : Schedule J free order S)
    (hdeps : ∀ k ∈ order, ∀ d ∈ J.deps k, d ∈ order) (hS : ∀ k ∈ order, S k = S' k) :
    Schedule J free order S' := by
  intro l₁ k l₂ heq
  have hk : k ∈ order := by simp [heq]
  have hends : (J.deps k).map (J.stop S) = (J.deps k).map (J.stop S') :=
    map_congr_left fun d hd => by rw [Jobs.stop, Jobs.stop, hS d (hdeps k hk d hd)]
  have hfree : freeAfter J free S l₁ (J.tile k) = freeAfter J free S' l₁ (J.tile k) :=
    freeAfter_congr (fun j hj => hS j (by simp [heq, hj])) _
  rw [← hS k hk, ← hends, ← hfree]
  exact h l₁ k l₂ heq

/-- Placing one more job. -/
theorem Schedule.append_single {k : κ} (h : Schedule J free order S)
    (hk : S k = max (J.lower k ((J.deps k).map (J.stop S))) (freeAfter J free S order (J.tile k))) :
    Schedule J free (order ++ [k]) S := by
  intro l₁ j l₂ heq
  rcases eq_nil_or_concat l₂ with rfl | ⟨l₂', z, rfl⟩
  · obtain ⟨rfl, hj⟩ := append_inj' heq rfl
    cases hj
    exact hk
  · have heq' : order ++ [k] = (l₁ ++ j :: l₂') ++ [z] := by simpa using heq
    exact h l₁ j l₂' (append_inj' heq' rfl).1

section Bounds

variable {order : List κ} (h : Schedule J free order S)

include h

variable {k a : κ} {l₂ l₁ : List κ}

/-- A job starts after each of its dependencies has ended. -/
theorem Schedule.end_dep_le {d : κ} (hk : k ∈ order) (hd : d ∈ J.deps k) :
    J.stop S d ≤ S k := by
  obtain ⟨l₁, l₂, heq⟩ := append_of_mem hk
  rw [h l₁ k l₂ heq]
  exact (J.le_lower k _ _ (mem_map_of_mem hd)).trans (le_max_left _ _)

/-- A job starts no earlier than its dependencies allow. -/
theorem Schedule.lower_le (hk : k ∈ order) :
    J.lower k ((J.deps k).map (J.stop S)) ≤ S k := by
  obtain ⟨l₁, l₂, heq⟩ := append_of_mem hk
  rw [h l₁ k l₂ heq]
  exact le_max_left _ _

variable (hdur : ∀ k ∈ order, S k ≤ J.stop S k)

include hdur

/-- A tile is free no earlier than at first, and after all jobs that ran on it. -/
private theorem Schedule.le_freeAfter (m : μ) :
    free m ≤ freeAfter J free S order m ∧
      ∀ a ∈ order, J.tile a = m → J.stop S a ≤ freeAfter J free S order m := by
  induction order using reverseRecOn with
  | nil => exact ⟨le_rfl, fun a ha => absurd ha not_mem_nil⟩
  | append_singleton l k ih =>
    obtain ⟨hfree, hall⟩ := ih h.left fun a ha => hdur a (mem_append_left _ ha)
    rw [freeAfter_append_single]
    by_cases hk : J.tile k = m
    · rw [if_pos hk]
      -- the new end is after the start, and the start after everything before
      have hstart : freeAfter J free S l m ≤ J.stop S k := by
        refine le_trans ?_ (hdur k (by simp))
        rw [h l k [] rfl, hk]
        exact le_max_right _ _
      refine ⟨hfree.trans hstart, fun a ha htile => ?_⟩
      rcases mem_append.mp ha with ha | ha
      · exact (hall a ha htile).trans hstart
      · rw [mem_singleton] at ha
        rw [ha]
    · rw [if_neg hk]
      refine ⟨hfree, fun a ha htile => ?_⟩
      rcases mem_append.mp ha with ha | ha
      · exact hall a ha htile
      · rw [mem_singleton] at ha
        exact absurd (ha ▸ htile) hk

/-- Of two jobs on one tile the one placed first ends before the other starts. -/
theorem Schedule.end_le_start (heq : order = l₁ ++ k :: l₂) (ha : a ∈ l₁)
    (htile : J.tile a = J.tile k) : J.stop S a ≤ S k := by
  subst heq
  have hbound := (Schedule.le_freeAfter (h.left) (fun j hj => hdur j (by simp [hj]))
    (J.tile k)).2 a ha htile
  rw [h l₁ k l₂ rfl]
  exact hbound.trans (le_max_right _ _)

/-- A job starts no earlier than its tile is free at first. -/
theorem Schedule.free_le (hk : k ∈ order) : free (J.tile k) ≤ S k := by
  obtain ⟨l₁, l₂, rfl⟩ := append_of_mem hk
  have hbound := (Schedule.le_freeAfter (h.left) (fun j hj => hdur j (by simp [hj]))
    (J.tile k)).1
  rw [h l₁ k l₂ rfl]
  exact hbound.trans (le_max_right _ _)

/-- Two jobs of one tile do not overlap. -/
theorem Schedule.disjoint {b : κ} (ha : a ∈ order) (hb : b ∈ order) (hab : a ≠ b)
    (htile : J.tile a = J.tile b) : J.stop S a ≤ S b ∨ J.stop S b ≤ S a := by
  obtain ⟨l₁, l₂, heq⟩ := append_of_mem hb
  have ha' : a ∈ l₁ ∨ a ∈ l₂ := by
    rw [heq, mem_append, mem_cons] at ha
    tauto
  rcases ha' with hbefore | hafter
  · exact Or.inl (h.end_le_start hdur heq hbefore htile)
  · obtain ⟨l₃, l₄, rfl⟩ := append_of_mem hafter
    have hsplit : order = (l₁ ++ b :: l₃) ++ a :: l₄ := by
      rw [heq, append_assoc, cons_append]
    exact Or.inr (h.end_le_start hdur hsplit (by simp) htile.symm)

omit hdur in
/-- No job could start earlier: a time from which on the dependencies have ended and the
tile is free, at first and of the jobs placed before, is not before its start. -/
theorem Schedule.start_le (heq : order = l₁ ++ k :: l₂) {t : τ}
    (hdeps : J.lower k ((J.deps k).map (J.stop S)) ≤ t) (hfree : free (J.tile k) ≤ t)
    (htile : ∀ a ∈ l₁, J.tile a = J.tile k → J.stop S a ≤ t) : S k ≤ t := by
  rw [h l₁ k l₂ heq]
  refine max_le hdeps ?_
  clear h heq hdeps
  induction l₁ using reverseRecOn with
  | nil => exact hfree
  | append_singleton l j ih =>
    rw [freeAfter_append_single]
    split_ifs with hj
    · exact htile j (by simp) hj
    · exact ih fun a ha => htile a (mem_append_left _ ha)

end Bounds

end Specification

/-! ### The loop -/

variable [DecidableEq κ] [DecidableEq μ]

/-- What the loop carries. -/
structure Board (κ μ τ : Type) where
  /-- The start of each job placed. -/
  starts : PyDict κ τ
  /-- The end of each job placed. -/
  ends : PyDict κ τ
  /-- From when on each tile is free. -/
  free : μ → τ

/-- Nothing is placed, and the tiles are free from the times given. -/
def Board.init (free : μ → τ) : Board κ μ τ := ⟨PyDict.empty, PyDict.empty, free⟩

/-- Place one job. The error is the dependency that is not placed. -/
def place (b : Board κ μ τ) (k : κ) : Except κ (Board κ μ τ) := do
  let ends ← (J.deps k).mapM fun d => (b.ends.get? d).elim (.error d) .ok
  let start := max (J.lower k ends) (b.free (J.tile k))
  let stop := start + J.duration k
  pure {
    starts := b.starts.set k start
    ends := b.ends.set k stop
    free := Function.update b.free (J.tile k) stop }

/-- Place the jobs in order. -/
def run (free : μ → τ) (order : List κ) : Except κ (Board κ μ τ) :=
  order.foldlM (place J) (Board.init free)

/-- What holds of the board when the jobs of `order` have been placed at the times `S`. -/
structure Placed (free : μ → τ) (order : List κ) (b : Board κ μ τ) (S : κ → τ) : Prop where
  schedule : Schedule J free order S
  keys : b.starts.keys = order
  start : ∀ k ∈ order, b.starts.get? k = some (S k)
  ends_keys : b.ends.keys = order
  stop : ∀ k ∈ order, b.ends.get? k = some (J.stop S k)
  free_eq : ∀ m, b.free m = freeAfter J free S order m

variable {J} {free : μ → τ}

/-- Nothing is placed at first. -/
theorem placed_init (S : κ → τ) : Placed J free [] (Board.init free) S where
  schedule l₁ k l₂ h := by simp at h
  keys := rfl
  start k hk := absurd hk not_mem_nil
  ends_keys := rfl
  stop k hk := absurd hk not_mem_nil
  free_eq _ := rfl

theorem place_eq_ok_iff {b b' : Board κ μ τ} {k : κ} :
    place J b k = .ok b' ↔
      ∃ ends, (J.deps k).mapM (fun d => (b.ends.get? d).elim (.error d) Except.ok) = .ok ends ∧
        b' = {
          starts := b.starts.set k (max (J.lower k ends) (b.free (J.tile k)))
          ends := b.ends.set k (max (J.lower k ends) (b.free (J.tile k)) + J.duration k)
          free := Function.update b.free (J.tile k)
            (max (J.lower k ends) (b.free (J.tile k)) + J.duration k) } := by
  rw [place, Fallible.bind_eq_ok_iff]
  refine exists_congr fun ends => and_congr_right fun _ => ?_
  exact ⟨fun h => by cases h; rfl, fun h => h ▸ rfl⟩

/-- A job whose dependencies are placed is placed. -/
theorem Placed.place {order : List κ} {b : Board κ μ τ} {S : κ → τ} (h : Placed J free order b S)
    {k : κ} (hnew : k ∉ order) (hdeps : ∀ d ∈ J.deps k, d ∈ order)
    (hclosed : ∀ j ∈ order, ∀ d ∈ J.deps j, d ∈ order) :
    ∃ b' S', place J b k = .ok b' ∧ Placed J free (order ++ [k]) b' S' := by
  let start := max (J.lower k ((J.deps k).map (J.stop S))) (b.free (J.tile k))
  let S' := Function.update S k start
  have hold : ∀ j ∈ order, S j = S' j := fun j hj => by
    have hne : j ≠ k := fun heq => hnew (heq ▸ hj)
    exact (Function.update_of_ne hne _ _).symm
  have hnewStart : S' k = start := Function.update_self _ _ _
  have hstop : ∀ j ∈ order, J.stop S' j = J.stop S j := fun j hj => by
    rw [Jobs.stop, Jobs.stop, hold j hj]
  have hends : (J.deps k).mapM (fun d => (b.ends.get? d).elim (.error d) Except.ok) =
      .ok ((J.deps k).map (J.stop S)) :=
    Fallible.mapM_eq_ok_map fun d hd => by rw [h.stop d (hdeps d hd)]; rfl
  have hsame : (J.deps k).map (J.stop S') = (J.deps k).map (J.stop S) :=
    map_congr_left fun d hd => hstop d (hdeps d hd)
  have hfree : ∀ m, b.free m = freeAfter J free S' order m := fun m => by
    rw [h.free_eq m]
    exact freeAfter_congr hold m
  refine ⟨_, S', by rw [ListSchedule.place, hends]; rfl, ?_⟩
  refine ⟨?_, ?_, fun j hj => ?_, ?_, fun j hj => ?_, fun m => ?_⟩
  · refine (h.schedule.congr hclosed hold).append_single ?_
    rw [hsame, ← hfree]
    exact hnewStart
  · rw [PyDict.keys_set_of_not_mem _ (h.keys ▸ hnew), h.keys]
  · rw [PyDict.get?_set]
    split_ifs with heq
    · rw [heq, hnewStart]
    · rw [← hold j (by simpa [heq] using hj)]
      exact h.start j (by simpa [heq] using hj)
  · rw [PyDict.keys_set_of_not_mem _ (h.ends_keys ▸ hnew), h.ends_keys]
  · rw [PyDict.get?_set]
    split_ifs with heq
    · rw [heq, Jobs.stop, hnewStart]
    · rw [hstop j (by simpa [heq] using hj)]
      exact h.stop j (by simpa [heq] using hj)
  · show Function.update b.free (J.tile k) (start + J.duration k) m = _
    rw [freeAfter_append_single]
    by_cases hm : J.tile k = m
    · rw [if_pos hm, ← hm, Function.update_self, Jobs.stop, hnewStart]
    · rw [if_neg hm, Function.update_of_ne (Ne.symm hm)]
      exact hfree m

/-- On an order in which every job comes after its dependencies the loop succeeds. -/
theorem exists_run [Inhabited τ] {nodes order : List κ}
    (h : KahnLoop.Topological J.deps nodes order) :
    ∃ b S, run J free order = .ok b ∧ Placed J free order b S := by
  obtain ⟨b, hrun, S, hplaced⟩ := @Fallible.exists_foldlM_eq_ok κ (Board κ μ τ) κ
    (ListSchedule.place J) (fun done b => ∃ S, Placed J free done b S) order
    (fun done k rest b hsplit ⟨S, hb⟩ => by
      have hnew : k ∉ done := fun hmem => by
        have hnd := h.nodup
        rw [← hsplit] at hnd
        exact (nodup_append.mp hnd).2.2 k hmem k mem_cons_self rfl
      have hclosed : ∀ j ∈ done, ∀ d ∈ J.deps j, d ∈ done := fun j hj d hd => by
        obtain ⟨l₁, l₂, rfl⟩ := append_of_mem hj
        refine mem_append_left _ (h.deps_before l₁ j (l₂ ++ k :: rest) ?_ d hd)
        rw [← hsplit, append_assoc, cons_append]
      obtain ⟨b', S', hstep, hb'⟩ := hb.place hnew (h.deps_before done k rest hsplit.symm) hclosed
      exact ⟨b', hstep, S', hb'⟩)
    (Board.init free) ⟨fun _ => default, placed_init _⟩
  exact ⟨b, S, hrun, hplaced⟩

end ListSchedule

/-! ## Critical paths -/

namespace ListSchedule

variable {κ μ τ : Type} [LinearOrder τ] [AddCommGroup τ] [IsOrderedAddMonoid τ] [DecidableEq μ]

/-- A chain of jobs that run one after the other before `k` takes the time `w`: each is a dependency
of the next, or comes before it in the order and runs on its tile. -/
inductive Chain (deps : κ → List κ) (tile : κ → μ) (duration : κ → τ) (order : List κ) :
    κ → τ → Prop where
  | start (k : κ) : Chain deps tile duration order k 0
  | dep {u k : κ} {w : τ} (hchain : Chain deps tile duration order u w) (hdep : u ∈ deps k) :
      Chain deps tile duration order k (w + duration u)
  | tile {u k : κ} {w : τ} {l₁ l₂ : List κ} (hchain : Chain deps tile duration order u w)
      (horder : order = l₁ ++ k :: l₂) (hu : u ∈ l₁) (htile : tile u = tile k) :
      Chain deps tile duration order k (w + duration u)

variable {J : Jobs κ μ τ} {S : κ → τ}

section Greatest

variable {order nodes : List κ} {t₀ : τ} (h : Schedule J (fun _ => t₀) order S)
  (hlower : ∀ k ends, J.lower k ends = latest t₀ ends)
  (htop : KahnLoop.Topological J.deps nodes order)

include h hlower htop

variable {k : κ}

omit hlower in
/-- A chain before a job has run when the job starts. -/
theorem Schedule.chain_le (hdur : ∀ k ∈ order, 0 ≤ J.duration k) {w : τ}
    (hchain : Chain J.deps J.tile J.duration order k w) (hk : k ∈ order) : t₀ + w ≤ S k := by
  have hle : ∀ k ∈ order, S k ≤ J.stop S k := fun k hk => le_add_of_nonneg_right (hdur k hk)
  induction hchain with
  | start k =>
    rw [add_zero]
    exact h.free_le hle hk
  | dep _ hdep ih =>
    have hend := h.end_dep_le hk hdep
    rw [Jobs.stop] at hend
    calc t₀ + (_ + J.duration _) = t₀ + _ + J.duration _ := (add_assoc _ _ _).symm
      _ ≤ S _ + J.duration _ := add_le_add_left (ih (htop.mem_of_mem_deps hk hdep)) _
      _ ≤ S _ := hend
  | tile _ horder hu htile ih =>
    have hend := h.end_le_start hle horder hu htile
    rw [Jobs.stop] at hend
    calc t₀ + (_ + J.duration _) = t₀ + _ + J.duration _ := (add_assoc _ _ _).symm
      _ ≤ S _ + J.duration _ := add_le_add_left (ih (by rw [horder]; simp [hu])) _
      _ ≤ S _ := hend

omit [IsOrderedAddMonoid τ] in
/-- Some chain before a job runs until the job starts. -/
theorem Schedule.chain_start (hk : k ∈ order) :
    Chain J.deps J.tile J.duration order k (S k - t₀) := by
  -- by induction on how many jobs are placed before
  have hrun : ∀ (n : ℕ) (l₁ : List κ) (k : κ) (l₂ : List κ), l₁.length = n →
      order = l₁ ++ k :: l₂ → Chain J.deps J.tile J.duration order k (S k - t₀) := by
    intro n
    induction n using Nat.strong_induction_on with
    | h n ih =>
      intro l₁ k l₂ hlen heq
      have hbefore : ∀ u ∈ l₁, Chain J.deps J.tile J.duration order u (S u - t₀) := by
        intro u hu
        obtain ⟨l₃, l₄, rfl⟩ := List.append_of_mem hu
        refine ih l₃.length ?_ l₃ u (l₄ ++ k :: l₂) rfl (by simp [heq])
        rw [← hlen, List.length_append, List.length_cons]
        omega
      have hnil : Chain J.deps J.tile J.duration order k (t₀ - t₀) := by
        rw [sub_self]
        exact .start k
      have hstop : ∀ u, S u - t₀ + J.duration u = J.stop S u - t₀ := fun u => by
        rw [Jobs.stop]
        exact sub_add_eq_add_sub _ _ _
      rw [h l₁ k l₂ heq, hlower]
      rcases max_choice (latest t₀ ((J.deps k).map (J.stop S)))
          (freeAfter J (fun _ => t₀) S l₁ (J.tile k)) with hmax | hmax
      · rw [hmax]
        rcases latest_eq_or_mem t₀ ((J.deps k).map (J.stop S)) with hdflt | hmem
        · rwa [hdflt]
        · obtain ⟨u, hu, hend⟩ := List.mem_map.mp hmem
          rw [← hend, ← hstop]
          exact .dep (hbefore u (htop.deps_before l₁ k l₂ heq u hu)) hu
      · rw [hmax]
        rcases freeAfter_eq_or_exists (fun _ => t₀) l₁ (J.tile k) with hfree | ⟨u, hu, htile, hend⟩
        · rwa [hfree]
        · rw [hend, ← hstop]
          exact .tile (hbefore u hu) heq hu htile
  obtain ⟨l₁, l₂, heq⟩ := List.append_of_mem hk
  exact hrun l₁.length l₁ k l₂ rfl heq

/-- A job starts when the longest chain of jobs before it has run. -/
theorem Schedule.isGreatest_chain (hdur : ∀ k ∈ order, 0 ≤ J.duration k) (hk : k ∈ order) :
    IsGreatest {w | Chain J.deps J.tile J.duration order k w} (S k - t₀) :=
  ⟨h.chain_start hlower htop hk, fun _ hw => by
    rw [le_sub_iff_add_le']
    exact h.chain_le htop hdur hw hk⟩

end Greatest

end ListSchedule
