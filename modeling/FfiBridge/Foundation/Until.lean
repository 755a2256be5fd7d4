import FfiBridge.Foundation.Script
import FfiBridge.Foundation.Simulation

/-! # Programs that run alike until one stops

The first of two programs may stop, for one reason, where the second goes on. Up to there they run
alike: each construct of a program has a rule, as for programs that run alike to their end.
-/
namespace FfiBridge.Foundation

variable {ε σ τ κ μ α β : Type} {stop : ε} {Z : σ → Prop} {R : σ → τ → Prop}

/-- The ends are alike, or the first run has stopped, in a state with `Z`. -/
inductive EndsUntil (stop : ε) (Z : σ → Prop) (R : σ → τ → Prop) :
    EStateM.Result ε σ α → EStateM.Result ε τ α → Prop
  | alike {r : EStateM.Result ε σ α} {r' : EStateM.Result ε τ α} (h : EndAlike R r r') :
      EndsUntil stop Z R r r'
  | stopped {s : σ} {r' : EStateM.Result ε τ α} (h : Z s) : EndsUntil stop Z R (.error stop s) r'

/-- From related states, the two programs run alike until the first one stops. -/
def RunsUntil (stop : ε) (Z : σ → Prop) (R : σ → τ → Prop) (m : EStateM ε σ α)
    (m' : EStateM ε τ α) : Prop :=
  ∀ s t, R s t → EndsUntil stop Z R (m.run s) (m'.run t)

namespace RunsUntil

variable {m n : EStateM ε σ α} {m' n' : EStateM ε τ α}

theorem of_alike (h : RunAlike R m m') : RunsUntil stop Z R m m' :=
  fun s t hR => .alike (h s t hR)

theorem pure (a : α) : RunsUntil stop Z R (Pure.pure a : EStateM ε σ α) (Pure.pure a) :=
  of_alike (.pure a)

theorem bind {f : α → EStateM ε σ β} {f' : α → EStateM ε τ β} (hm : RunsUntil stop Z R m m')
    (hf : ∀ a, RunsUntil stop Z R (f a) (f' a)) : RunsUntil stop Z R (m >>= f) (m' >>= f') := by
  intro s t h
  have hend := hm s t h
  rw [EStateM.run_bind, EStateM.run_bind]
  generalize m.run s = x, m'.run t = y at hend
  cases hend with
  | stopped hz => exact .stopped hz
  | alike hend =>
    cases hend with
    | ok a h₁ => exact hf a _ _ h₁
    | error e h₁ => exact .alike (.error e h₁)

theorem ite {c : Prop} [Decidable c] (hm : RunsUntil stop Z R m m') (hn : RunsUntil stop Z R n n') :
    RunsUntil stop Z R (if c then m else n) (if c then m' else n') := by
  split
  · exact hm
  · exact hn

/-- Programs on components of related states. -/
theorem within [Component σ κ] [Component τ μ] {Q : κ → μ → Prop} {Y : κ → Prop}
    {m : EStateM ε κ α} {m' : EStateM ε μ α} (hm : RunsUntil stop Y Q m m')
    (hget : ∀ s t, R s t → Q (Component.get s) (Component.get t))
    (hput : ∀ s t, R s t → ∀ k l, Q k l → R (Component.put k s) (Component.put l t))
    (hstop : ∀ s k, Y k → Z (Component.put k s)) :
    RunsUntil stop Z R (Foundation.within m : EStateM ε σ α) (Foundation.within m') := by
  intro s t h
  have hend := hm _ _ (hget s t h)
  rw [run_within, run_within]
  generalize m.run (Component.get s) = x, m'.run (Component.get t) = y at hend
  cases hend with
  | stopped hy => exact .stopped (hstop s _ hy)
  | alike hend =>
    cases hend with
    | ok a hq => exact .alike (.ok a (hput s t h _ _ hq))
    | error e hq => exact .alike (.error e (hput s t h _ _ hq))

end RunsUntil

/-- Operations that run alike until one stops make scripts that do. -/
theorem Script.runsUntil {Op Answer : Type} {exec : Op → EStateM ε σ Answer} {exec' : Op → EStateM ε τ Answer}
    (hexec : ∀ op, RunsUntil stop Z R (exec op) (exec' op)) (script : Script Op Answer α) :
    RunsUntil stop Z R (script.run exec) (script.run exec') := by
  induction script with
  | done a => exact .pure a
  | call op next ih => exact (hexec op).bind ih

end FfiBridge.Foundation
