import Mathlib.Tactic

/-! # Runs of state programs that can stop

A program either returns a value or stops with a reason, and keeps its state in
both cases. The rules follow one run through `>>=` and carry a reflexive and
transitive relation from the single steps of a program to the whole of it.
-/
namespace FfiBridge.Foundation

variable {ε σ τ α β : Type}

/-- The last state of a run, whether it returned or stopped. -/
def final : EStateM.Result ε σ α → σ
  | .ok _ s => s
  | .error _ s => s

@[simp] theorem final_ok (a : α) (s : σ) : final (.ok a s : EStateM.Result ε σ α) = s := rfl

@[simp] theorem final_error (e : ε) (s : σ) : final (.error e s : EStateM.Result ε σ α) = s := rfl

theorem bind_eq_ok {m : EStateM ε σ α} {f : α → EStateM ε σ β} {s u : σ} {b : β} :
    (m >>= f).run s = .ok b u ↔ ∃ a t, m.run s = .ok a t ∧ (f a).run t = .ok b u := by
  rw [EStateM.run_bind]
  cases m.run s with
  | ok a t => simp
  | error e t => simp

theorem bind_eq_error {m : EStateM ε σ α} {f : α → EStateM ε σ β} {s u : σ} {e : ε} :
    (m >>= f).run s = .error e u ↔
      m.run s = .error e u ∨ ∃ a t, m.run s = .ok a t ∧ (f a).run t = .error e u := by
  rw [EStateM.run_bind]
  cases m.run s with
  | ok a t => simp
  | error e t => simp

/-- The rest of a program, once the run of its first step is known. -/
theorem bind_of_ok {m : EStateM ε σ α} {s t : σ} {a : α} (h : m.run s = .ok a t)
    (f : α → EStateM ε σ β) : (m >>= f).run s = (f a).run t := by
  rw [EStateM.run_bind, h]

theorem bind_of_error {m : EStateM ε σ α} {s t : σ} {e : ε} (h : m.run s = .error e t)
    (f : α → EStateM ε σ β) : (m >>= f).run s = .error e t := by
  rw [EStateM.run_bind, h]

/-- A run that ended where it began. -/
theorem eq_of_final_ok {m : EStateM ε σ α} {s t u : σ} {a : α} (hf : final (m.run s) = u)
    (hr : m.run s = .ok a t) : t = u := by
  rwa [hr] at hf

theorem eq_of_final_error {m : EStateM ε σ α} {s t u : σ} {e : ε} (hf : final (m.run s) = u)
    (hr : m.run s = .error e t) : t = u := by
  rwa [hr] at hf

/-- What follows leaves the state alone. -/
theorem final_bind_of_state (m : EStateM ε σ α) {f : α → EStateM ε σ β}
    (hf : ∀ a s, final ((f a).run s) = s) (s : σ) : final ((m >>= f).run s) = final (m.run s) := by
  rw [EStateM.run_bind]
  cases m.run s with
  | ok a t => exact hf a t
  | error e t => rfl

theorem final_bind_pure (m : EStateM ε σ α) (f : α → β) (s : σ) :
    final ((m >>= fun a => pure (f a)).run s) = final (m.run s) :=
  final_bind_of_state m (fun _ _ => rfl) s

/-- Every run of `m` takes its first state to its last one along `R`. -/
def Respects (R : σ → σ → Prop) (m : EStateM ε σ α) : Prop :=
  ∀ s, R s (final (m.run s))

namespace Respects

variable {R : σ → σ → Prop}

theorem pure [Std.Refl R] (a : α) : Respects R (Pure.pure a : EStateM ε σ α) :=
  fun s => Std.Refl.refl s

theorem throw [Std.Refl R] (e : ε) : Respects R (MonadExcept.throw e : EStateM ε σ α) :=
  fun s => Std.Refl.refl s

theorem bind [IsTrans σ R] {m : EStateM ε σ α} {f : α → EStateM ε σ β}
    (hm : Respects R m) (hf : ∀ a, Respects R (f a)) : Respects R (m >>= f) := by
  intro s
  have h := hm s
  rw [EStateM.run_bind]
  cases hr : m.run s with
  | ok a t =>
    rw [hr] at h
    exact IsTrans.trans _ _ _ h (hf a t)
  | error e t => simpa [hr] using h

/-- A program that leaves the state as it is. -/
theorem of_state [Std.Refl R] {m : EStateM ε σ α} (hs : ∀ s, final (m.run s) = s) :
    Respects R m := fun s => (hs s).symm ▸ Std.Refl.refl s

theorem ite {c : Prop} [Decidable c] {m n : EStateM ε σ α}
    (hm : Respects R m) (hn : Respects R n) : Respects R (if c then m else n) := by
  split
  · exact hm
  · exact hn

theorem error {m : EStateM ε σ α} (h : Respects R m) {s t : σ} {e : ε}
    (hr : m.run s = .error e t) : R s t := by
  simpa [hr] using h s

end Respects

/-- From `s` the program returns, and `post` holds of its value and its last state. -/
def Yields (m : EStateM ε σ α) (s : σ) (post : α → σ → Prop) : Prop :=
  ∃ a t, m.run s = .ok a t ∧ post a t

namespace Yields

variable {m : EStateM ε σ α} {f : α → EStateM ε σ β} {s t : σ} {a : α} {post post' : α → σ → Prop}
  {next : β → σ → Prop}

theorem of_ok (hr : m.run s = .ok a t) (hp : post a t) : Yields m s post := ⟨a, t, hr, hp⟩

/-- Two runs that are the same. -/
theorem of_eq {m' : EStateM ε σ α} {s' : σ} (he : m.run s = m'.run s') (hm : Yields m' s' post) :
    Yields m s post := by
  obtain ⟨a, t, hr, hp⟩ := hm
  exact ⟨a, t, he.trans hr, hp⟩

theorem pure (hp : post a s) : Yields (Pure.pure a : EStateM ε σ α) s post := ⟨a, s, rfl, hp⟩

theorem bind (hm : Yields m s post) (hf : ∀ a t, post a t → Yields (f a) t next) :
    Yields (m >>= f) s next := by
  obtain ⟨a, t, hr, hp⟩ := hm
  obtain ⟨b, u, hr', hp'⟩ := hf a t hp
  exact ⟨b, u, (bind_of_ok hr f).trans hr', hp'⟩

theorem mono (hm : Yields m s post) (h : ∀ a t, post a t → post' a t) : Yields m s post' := by
  obtain ⟨a, t, hr, hp⟩ := hm
  exact ⟨a, t, hr, h a t hp⟩

end Yields

end FfiBridge.Foundation
