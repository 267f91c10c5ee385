import Mathlib.Data.List.Induction

/-!
# Transducers

A machine that takes one input after the other, and shows something in every step.

## Main definitions

* `replay`: what is recorded for a list of inputs;
* `run`: the state after a list of inputs;
* `trace`: the steps on the way, each as the state before it and what it shows.

## Main results

* `replay_concat`: what one more input adds;
* `replay_induction`: what every step keeps holds of the whole history;
* `trace_induction`: what every step keeps, of the steps so far and the state they have led to,
  holds of every run.
-/

/-! ## Histories -/

namespace History

variable {ι ρ : Type} (record : List ρ → ι → ρ)

/-- What is recorded for a list of inputs. -/
def replay (inputs : List ι) : List ρ :=
  inputs.foldl (fun hist i => hist ++ [record hist i]) []

theorem replay_concat (inputs : List ι) (i : ι) :
    replay record (inputs ++ [i]) =
      replay record inputs ++ [record (replay record inputs) i] := by
  rw [replay, List.foldl_append]
  rfl

/-- What every step keeps holds of the whole history. -/
theorem replay_induction {record : List ρ → ι → ρ} {P : List ρ → Prop} (hnil : P [])
    (hstep : ∀ hist i, P hist → P (hist ++ [record hist i])) (inputs : List ι) :
    P (replay record inputs) := by
  induction inputs using List.reverseRecOn with
  | nil => exact hnil
  | append_singleton inputs i ih =>
    rw [replay_concat]
    exact hstep _ _ ih

end History

namespace Transducer

variable {σ α ε : Type} (step : σ → α → ε × σ)

/-- The state after a list of inputs. -/
def run (s : σ) (inputs : List α) : σ := inputs.foldl (fun s a => (step s a).2) s

/-- The steps on the way, each as the state before it and what it shows. -/
def trace : σ → List α → List (σ × ε)
  | _, [] => []
  | s, a :: inputs => (s, (step s a).1) :: trace (step s a).2 inputs

theorem run_concat (s : σ) (inputs : List α) (a : α) :
    run step s (inputs ++ [a]) = (step (run step s inputs) a).2 := by
  rw [run, List.foldl_append]
  rfl

theorem trace_concat (s : σ) (inputs : List α) (a : α) :
    trace step s (inputs ++ [a]) =
      trace step s inputs ++ [(run step s inputs, (step (run step s inputs) a).1)] := by
  induction inputs generalizing s with
  | nil => rfl
  | cons b inputs ih => exact congrArg (_ :: ·) (ih (step s b).2)

/-- What every step keeps holds of every run. -/
theorem trace_induction {step : σ → α → ε × σ} {P : List (σ × ε) → σ → Prop} {s₀ : σ}
    (hinit : P [] s₀) (hstep : ∀ past s a, P past s → P (past ++ [(s, (step s a).1)]) (step s a).2)
    (inputs : List α) : P (trace step s₀ inputs) (run step s₀ inputs) := by
  induction inputs using List.reverseRecOn with
  | nil => exact hinit
  | append_singleton inputs a ih =>
    rw [trace_concat, run_concat]
    exact hstep _ _ a ih

end Transducer
