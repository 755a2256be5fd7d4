import FfiBridge.Foundation.Effect

/-! # Programs on one component of a larger state

A component is read and replaced by a lawful pair of functions. A program on the
component runs inside the larger state and leaves the rest of it alone.
-/
namespace FfiBridge.Foundation

/-- `τ` is a component of `σ`: what is put is read back, and putting back what was
read, or putting twice, does nothing more. -/
class Component (σ τ : Type) where
  get : σ → τ
  put : τ → σ → σ
  get_put : ∀ t s, get (put t s) = t
  put_get : ∀ s, put (get s) s = s
  put_put : ∀ t t' s, put t (put t' s) = put t s

attribute [simp] Component.get_put Component.put_get Component.put_put

instance Component.self (σ : Type) : Component σ σ where
  get s := s
  put t _ := t
  get_put _ _ := rfl
  put_get _ := rfl
  put_put _ _ _ := rfl

variable {ε σ τ α β : Type} [Component σ τ]

/-- Run a program of the component inside the larger state. -/
def within (m : EStateM ε τ α) : EStateM ε σ α := fun s =>
  match m.run (Component.get s) with
  | .ok a t => .ok a (Component.put t s)
  | .error e t => .error e (Component.put t s)

theorem run_within (m : EStateM ε τ α) (s : σ) :
    (within m : EStateM ε σ α).run s = match m.run (Component.get s) with
      | .ok a t => .ok a (Component.put t s)
      | .error e t => .error e (Component.put t s) := rfl

theorem within_of_ok {m : EStateM ε τ α} {s : σ} {t : τ} {a : α}
    (h : m.run (Component.get s) = .ok a t) :
    (within m : EStateM ε σ α).run s = .ok a (Component.put t s) := by
  rw [run_within, h]

theorem within_of_error {m : EStateM ε τ α} {s : σ} {t : τ} {e : ε}
    (h : m.run (Component.get s) = .error e t) :
    (within m : EStateM ε σ α).run s = .error e (Component.put t s) := by
  rw [run_within, h]

theorem final_within (m : EStateM ε τ α) (s : σ) :
    final ((within m : EStateM ε σ α).run s) =
      Component.put (final (m.run (Component.get s))) s := by
  rw [run_within]
  cases m.run (Component.get s) <;> rfl

theorem within_eq_ok {m : EStateM ε τ α} {s u : σ} {a : α} :
    (within m : EStateM ε σ α).run s = .ok a u ↔
      ∃ t, m.run (Component.get s) = .ok a t ∧ u = Component.put t s := by
  rw [run_within]
  cases m.run (Component.get s) with
  | ok b t =>
    constructor
    · intro h
      cases h
      exact ⟨t, rfl, rfl⟩
    · rintro ⟨t', h, rfl⟩
      cases h
      rfl
  | error e t => simp

theorem within_eq_error {m : EStateM ε τ α} {s u : σ} {e : ε} :
    (within m : EStateM ε σ α).run s = .error e u ↔
      ∃ t, m.run (Component.get s) = .error e t ∧ u = Component.put t s := by
  rw [run_within]
  cases m.run (Component.get s) with
  | ok a t => simp
  | error e' t => simp [eq_comm]

@[simp] theorem within_pure (a : α) :
    (within (pure a : EStateM ε τ α) : EStateM ε σ α) = pure a := by
  funext s
  change EStateM.Result.ok a (Component.put (Component.get s) s) = .ok a s
  rw [Component.put_get]

@[simp] theorem within_self (m : EStateM ε σ α) : (within m : EStateM ε σ α) = m := by
  funext s
  change (match m s with | .ok a t => _ | .error e t => _) = m s
  cases m s <;> rfl

/-- A relation on the larger state holds of a program on the component when it
holds of every replacement of the component the program makes. -/
theorem Respects.within {R : σ → σ → Prop} {Q : τ → τ → Prop} {m : EStateM ε τ α}
    (hm : Respects Q m)
    (h : ∀ s t, Q (Component.get s) t → R s (Component.put t s)) :
    Respects R (Foundation.within m : EStateM ε σ α) := by
  intro s
  have hs := hm (Component.get s)
  rw [run_within]
  cases hr : m.run (Component.get s) with
  | ok a t =>
    rw [hr] at hs
    exact h s t hs
  | error e t =>
    rw [hr] at hs
    exact h s t hs

end FfiBridge.Foundation
