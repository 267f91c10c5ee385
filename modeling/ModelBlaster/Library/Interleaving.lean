import Mathlib.Data.List.Basic
import Mathlib.Order.WellFounded

/-!
# Interleaved threads

Threads over a shared state. A thread is deterministic: in every state it either takes its one
next step, which may emit events, or it is blocked. Which thread goes next is open.

## Main definitions

* `Interleaving.Run`: the states that some order of steps reaches, with the events on the way;
* `Interleaving.CanStep`: some thread is not blocked;
* `Interleaving.follow`: the run of a given order of threads.

## Main results

* `Interleaving.Run.invariant`: what every step preserves holds after every run;
* `Interleaving.run_of_follow`: a given order of threads is a run;
* `Interleaving.length_add_le_of_follow`: no order of threads is longer than what each step lowers;
* `Interleaving.canStep_of_rank`: if every blocked thread waits for a thread of lower rank, some
  thread is not blocked.
-/

namespace Interleaving

variable {ι σ ε : Type} {next : ι → σ → Option (σ × List ε)} {s₀ : σ}

/-- The runs of the threads from `s₀`: the events so far and the state. -/
inductive Run (next : ι → σ → Option (σ × List ε)) (s₀ : σ) : List ε → σ → Prop
  /-- Nobody has taken a step. -/
  | start : Run next s₀ [] s₀
  /-- One of the threads takes its next step. -/
  | step {tr evs : List ε} {s s' : σ} {w : ι} :
      Run next s₀ tr s → next w s = some (s', evs) → Run next s₀ (tr ++ evs) s'

/-- What every step preserves holds after every run. -/
theorem Run.invariant {P : List ε → σ → Prop} (hinit : P [] s₀)
    (hstep : ∀ tr evs s s' w, Run next s₀ tr s → P tr s → next w s = some (s', evs) →
      P (tr ++ evs) s') {tr : List ε} {s : σ} (h : Run next s₀ tr s) : P tr s := by
  induction h with
  | start => exact hinit
  | step hrun hnext ih => exact hstep _ _ _ _ _ hrun ih hnext

/-- Some thread is not blocked. -/
def CanStep (next : ι → σ → Option (σ × List ε)) (s : σ) : Prop :=
  ∃ w r, next w s = some r

/-- The run of the given order of threads, unless one of them is blocked. -/
def follow (next : ι → σ → Option (σ × List ε)) : List ι → List ε × σ → Option (List ε × σ)
  | [], r => some r
  | w :: ws, (tr, s) =>
    match next w s with
    | none => none
    | some (s', evs) => follow next ws (tr ++ evs, s')

/-- Following an order of threads continues a run. -/
theorem run_of_follow {ws : List ι} {tr tr' : List ε} {s s' : σ} (hrun : Run next s₀ tr s)
    (h : follow next ws (tr, s) = some (tr', s')) :
    Run next s₀ tr' s' := by
  induction ws generalizing tr s with
  | nil =>
    cases h
    exact hrun
  | cons w ws ih =>
    rw [follow] at h
    split at h
    next => cases h
    next s₁ evs hnext => exact ih (hrun.step hnext) h

/-- No order of threads is longer than a number that each step lowers. -/
theorem length_add_le_of_follow {m : σ → ℕ}
    (hstep : ∀ w s s' evs, next w s = some (s', evs) → m s' < m s) {ws : List ι}
    {tr : List ε} {s : σ} {r : List ε × σ} (h : follow next ws (tr, s) = some r) :
    ws.length + m r.2 ≤ m s := by
  induction ws generalizing tr s with
  | nil =>
    cases h
    exact (Nat.zero_add _).le
  | cons w ws ih =>
    rw [follow] at h
    split at h
    next => cases h
    next s₁ evs hnext =>
      have hrest := ih h
      have hless := hstep w s s₁ evs hnext
      rw [List.length_cons]
      omega

/-- If every unfinished thread can step or waits for an unfinished one of lower rank, and some
thread is unfinished, then some thread can step. -/
theorem canStep_of_rank {α : Type} {r : α → α → Prop} (hwf : WellFounded r) (rank : ι → α)
    (unfinished : ι → Prop) {s : σ}
    (hwait : ∀ w, unfinished w → (∃ r, next w s = some r) ∨ ∃ v, unfinished v ∧ r (rank v) (rank w))
    {w : ι} (hw : unfinished w) : CanStep next s := by
  have hrank : ∀ a w, rank w = a → unfinished w → CanStep next s := by
    intro a
    -- Follow the waits down to a thread that waits for nobody.
    induction a using hwf.induction with
    | _ a ih =>
      rintro w rfl hw
      rcases hwait w hw with hstep | ⟨v, hv, hlt⟩
      · exact ⟨w, hstep⟩
      · exact ih (rank v) hlt v rfl hv
  exact hrank (rank w) w rfl hw

end Interleaving
