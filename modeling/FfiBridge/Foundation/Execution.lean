import Mathlib.Tactic

/-! # Executions of a labelled step relation

An execution is any finite number of steps, one label for each, newest first. An
invariant kept by the single steps holds at the end of every execution; a guard on
the steps is kept with the relation, as an execution of the guarded steps. Notes of the
steps can be kept beside the state.
-/
namespace FfiBridge.Foundation

variable {σ τ ι κ γ : Type*}

/-- `Execution step s es t`: from `s` the steps `es` (newest first) lead to `t`. -/
inductive Execution (step : σ → ι → σ → Prop) (s : σ) : List ι → σ → Prop
  | refl : Execution step s [] s
  | step {es : List ι} {t u : σ} {e : ι} :
      Execution step s es t → step t e u → Execution step s (e :: es) u

/-- The steps of `step` that meet the guard `G` where they start. -/
def Guarded (step : σ → ι → σ → Prop) (G : σ → ι → Prop) (s : σ) (e : ι) (t : σ) : Prop :=
  step s e t ∧ G s e

/-- The steps of `step` next to notes that `note` takes of them, and that they do not look at. -/
def Noted (step : σ → ι → σ → Prop) (note : σ → ι → γ → γ) (x : σ × γ) (e : ι) (y : σ × γ) : Prop :=
  step x.1 e y.1 ∧ y.2 = note x.1 e x.2

namespace Execution

variable {step : σ → ι → σ → Prop} {G : σ → ι → Prop} {s t u : σ} {es fs : List ι}

theorem single {e : ι} (h : step s e t) : Execution step s [e] t := .step .refl h

theorem trans (h : Execution step s es t) (h' : Execution step t fs u) :
    Execution step s (fs ++ es) u := by
  induction h' with
  | refl => exact h
  | step _ hstep ih => exact .step ih hstep

/-- What every step keeps holds at the end of every execution. -/
theorem invariant {I : σ → Prop} (hstep : ∀ s e t, I s → step s e t → I t)
    (h : Execution step s es t) (hs : I s) : I t := by
  induction h with
  | refl => exact hs
  | step _ he ih => exact hstep _ _ _ ih he

theorem mono {step' : σ → ι → σ → Prop} (hsub : ∀ s e t, step s e t → step' s e t)
    (h : Execution step s es t) : Execution step' s es t := by
  induction h with
  | refl => exact .refl
  | step _ he ih => exact .step ih (hsub _ _ _ he)

theorem of_guarded (h : Execution (Guarded step G) s es t) : Execution step s es t :=
  h.mono fun _ _ _ hg => hg.1

theorem of_noted {note : σ → ι → γ → γ} {x y : σ × γ} (h : Execution (Noted step note) x es y) :
    Execution step x.1 es y.1 := by
  induction h with
  | refl => exact .refl
  | step _ he ih => exact .step ih he.1

/-- What is done together with another system step by step is done together with it over
executions: `view` is where the other one stands. -/
theorem paired {joint : σ × τ → ι × κ → σ × τ → Prop} {view : σ → τ}
    (hstep : ∀ s e t, step s e t → ∃ f, joint (s, view s) (e, f) (t, view t))
    (h : Execution step s es t) :
    ∃ gs, Execution joint (s, view s) gs (t, view t) ∧ gs.map Prod.fst = es := by
  induction h with
  | refl => exact ⟨[], .refl, rfl⟩
  | @step es t u e _ he ih =>
    obtain ⟨gs, hgs, heq⟩ := ih
    obtain ⟨f, hf⟩ := hstep _ _ _ he
    exact ⟨(e, f) :: gs, hgs.step hf, congrArg (e :: ·) heq⟩

theorem note {note : σ → ι → γ → γ} {x : σ × γ} {c : γ} {e : ι}
    (h : Execution (Noted step note) x es (s, c)) (he : step s e t) :
    Execution (Noted step note) x (e :: es) (t, note s e c) := h.step ⟨he, rfl⟩

/-- Of every execution, notes can be taken. -/
theorem noted (h : Execution step s es t) (note : σ → ι → γ → γ) (c : γ) :
    ∃ d, Execution (Noted step note) (s, c) es (t, d) := by
  induction h with
  | refl => exact ⟨c, .refl⟩
  | step _ he ih =>
    obtain ⟨d, hd⟩ := ih
    exact ⟨_, hd.note he⟩

end Execution

/-- Steps that lower a measure cannot be taken without end. -/
theorem no_infinite_run {step : σ → ι → σ → Prop} {α : Type*} [LT α] [WellFoundedLT α] (μ : σ → α)
    (hμ : ∀ s e t, step s e t → μ t < μ s) (run : ℕ → σ) (es : ℕ → ι) :
    ¬ ∀ n, step (run n) (es n) (run (n + 1)) := by
  intro h
  obtain ⟨n, hn⟩ := WellFounded.not_rel_apply_succ (r := (· < · : α → α → Prop)) fun n => μ (run n)
  exact hn (hμ _ _ _ (h n))

end FfiBridge.Foundation
