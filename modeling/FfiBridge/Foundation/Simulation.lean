import FfiBridge.Foundation.Component

/-! # Programs that run alike

Two programs on different states run alike when, from related states, they end in the same
way: with the same value or the same reason, in related states again. Each construct of a
program has a rule, so two translations of one source are compared construct by construct.
-/
namespace FfiBridge.Foundation

variable {ε σ τ κ α β : Type} {R : σ → τ → Prop}

/-- The same end, in related states. -/
inductive EndAlike (R : σ → τ → Prop) : EStateM.Result ε σ α → EStateM.Result ε τ α → Prop
  | ok (a : α) {s : σ} {t : τ} (h : R s t) : EndAlike R (.ok a s) (.ok a t)
  | error (e : ε) {s : σ} {t : τ} (h : R s t) : EndAlike R (.error e s) (.error e t)

theorem EndAlike.of_ok {r : EStateM.Result ε τ α} {a : α} {s : σ}
    (h : EndAlike R (.ok a s : EStateM.Result ε σ α) r) : ∃ t, r = .ok a t ∧ R s t := by
  cases h with
  | ok a h => exact ⟨_, rfl, h⟩

theorem EndAlike.of_error {r : EStateM.Result ε τ α} {e : ε} {s : σ}
    (h : EndAlike R (.error e s : EStateM.Result ε σ α) r) : ∃ t, r = .error e t ∧ R s t := by
  cases h with
  | error e h => exact ⟨_, rfl, h⟩

theorem EndAlike.final {r : EStateM.Result ε σ α} {r' : EStateM.Result ε τ α}
    (h : EndAlike R r r') : R (Foundation.final r) (Foundation.final r') := by
  cases h with
  | ok a h => exact h
  | error e h => exact h

/-- From related states, the two programs end alike. -/
def RunAlike (R : σ → τ → Prop) (m : EStateM ε σ α) (m' : EStateM ε τ α) : Prop :=
  ∀ s t, R s t → EndAlike R (m.run s) (m'.run t)

namespace RunAlike

/-- A program runs like itself. -/
theorem refl (m : EStateM ε σ α) : RunAlike Eq m m := by
  rintro s _ rfl
  cases m.run s with
  | ok a t => exact .ok a rfl
  | error e t => exact .error e rfl

theorem throw (e : ε) : RunAlike R (MonadExcept.throw e : EStateM ε σ α) (MonadExcept.throw e) :=
  fun _ _ h => .error e h

theorem pure (a : α) : RunAlike R (Pure.pure a : EStateM ε σ α) (Pure.pure a) :=
  fun _ _ h => .ok a h

theorem bind {m : EStateM ε σ α} {m' : EStateM ε τ α} {f : α → EStateM ε σ β}
    {f' : α → EStateM ε τ β} (hm : RunAlike R m m') (hf : ∀ a, RunAlike R (f a) (f' a)) :
    RunAlike R (m >>= f) (m' >>= f') := by
  intro s t h
  have hend := hm s t h
  rw [EStateM.run_bind, EStateM.run_bind]
  cases hr : m.run s with
  | ok a s₁ =>
    rw [hr] at hend
    obtain ⟨t₁, hr', h₁⟩ := hend.of_ok
    rw [hr']
    exact hf a s₁ t₁ h₁
  | error e s₁ =>
    rw [hr] at hend
    obtain ⟨t₁, hr', h₁⟩ := hend.of_error
    rw [hr']
    exact .error e h₁

theorem ite {c : Prop} [Decidable c] {m n : EStateM ε σ α} {m' n' : EStateM ε τ α}
    (hm : RunAlike R m m') (hn : RunAlike R n n') :
    RunAlike R (if c then m else n) (if c then m' else n') := by
  split
  · exact hm
  · exact hn

/-- Both change their state, in ways that keep the relation. -/
theorem modify {f : σ → σ} {g : τ → τ} (h : ∀ s t, R s t → R (f s) (g t)) :
    RunAlike R (modify f : EStateM ε σ Unit) (modify g) :=
  fun s t hR => .ok () (h s t hR)

/-- What comes after a look at the state may depend on the state. -/
theorem get {f : σ → EStateM ε σ β} {f' : τ → EStateM ε τ β}
    (h : ∀ s t, R s t → EndAlike R ((f s).run s) ((f' t).run t)) :
    RunAlike R (do f (← MonadState.get)) (do f' (← MonadState.get)) :=
  fun s t hR => h s t hR

/-- A program on a component that related states share. -/
theorem within [Component σ κ] [Component τ κ] (m : EStateM ε κ α)
    (hget : ∀ s t, R s t → (Component.get s : κ) = Component.get t)
    (hput : ∀ s t, R s t → ∀ k : κ, R (Component.put k s) (Component.put k t)) :
    RunAlike R (Foundation.within m : EStateM ε σ α) (Foundation.within m) := by
  intro s t h
  rw [run_within, run_within, ← hget s t h]
  cases m.run (Component.get s) with
  | ok a k => exact .ok a (hput s t h k)
  | error e k => exact .error e (hput s t h k)

end RunAlike

end FfiBridge.Foundation
