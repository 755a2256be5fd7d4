import FfiBridge.Foundation.Effect
import FfiBridge.Foundation.Exchange

/-! # Ownership triples

`Trade` says of one run of a program what it does to an arena of its state: it is
handed some names, and when it returns it hands back those of its value. A stop from
which the surrounding program goes on hands back none, so nothing can be lost on the
way out. Names held by others are a frame the triple leaves alone.
-/
namespace FfiBridge.Foundation

variable {ε σ α γ β : Type}

/-- Where the arena sits in the state, the stops a program can recover from, and the
stops that are no mistake in the use of a name. -/
structure Ledger (ε σ β : Type) where
  arena : σ → Arena β
  resumes : ε → Prop
  sound : ε → Prop

/-- Run from `s`, the program `m` trades `ins` for what its value owns. -/
structure Trade (L : Ledger ε σ β) (ins : List ℕ) (m : EStateM ε σ α) (outs : α → List ℕ)
    (post : α → σ → Prop) (s : σ) : Prop where
  ok : ∀ a t, m.run s = .ok a t →
    Arena.Exchange (L.arena s) ins (L.arena t) (outs a) ∧ post a t
  stop : ∀ e t, m.run s = .error e t →
    L.sound e ∧ (L.resumes e → Arena.Exchange (L.arena s) ins (L.arena t) [])

namespace Trade

variable {L : Ledger ε σ β} {ins : List ℕ} {m : EStateM ε σ α} {f : α → EStateM ε σ γ}
  {outs : α → List ℕ} {outs' : γ → List ℕ} {post post' : α → σ → Prop} {post'' : γ → σ → Prop}
  {s t : σ} {a : α} {e : ε}

theorem of_ok (hr : m.run s = .ok a t)
    (hx : Arena.Exchange (L.arena s) ins (L.arena t) (outs a)) (hp : post a t) :
    Trade L ins m outs post s where
  ok b u hb := by
    cases hr.symm.trans hb
    exact ⟨hx, hp⟩
  stop e u hb := by cases hr.symm.trans hb

theorem of_error (hr : m.run s = .error e t) (hs : L.sound e)
    (hx : L.resumes e → Arena.Exchange (L.arena s) ins (L.arena t) []) :
    Trade L ins m outs post s where
  ok b u hb := by cases hr.symm.trans hb
  stop e u hb := by
    cases hr.symm.trans hb
    exact ⟨hs, hx⟩

theorem pure (hx : Arena.Exchange (L.arena s) ins (L.arena s) (outs a)) (hp : post a s) :
    Trade L ins (Pure.pure a : EStateM ε σ α) outs post s :=
  of_ok rfl hx hp

theorem bind (hm : Trade L ins m outs post s)
    (hf : ∀ a t, post a t → Trade L (outs a) (f a) outs' post'' t) :
    Trade L ins (m >>= f) outs' post'' s where
  ok c u hr := by
    obtain ⟨a, t, ha, hc⟩ := bind_eq_ok.mp hr
    obtain ⟨hx, hp⟩ := hm.ok a t ha
    obtain ⟨hx', hp'⟩ := (hf a t hp).ok c u hc
    exact ⟨hx.seq hx', hp'⟩
  stop e u hr := by
    rcases bind_eq_error.mp hr with he | ⟨a, t, ha, he⟩
    · exact hm.stop e u he
    · obtain ⟨hx, hp⟩ := hm.ok a t ha
      obtain ⟨hs, hx'⟩ := (hf a t hp).stop e u he
      exact ⟨hs, fun hres => hx.seq (hx' hres)⟩

theorem mono (hm : Trade L ins m outs post s) (h : ∀ a t, post a t → post' a t) :
    Trade L ins m outs post' s where
  ok a t hr := (hm.ok a t hr).imp_right (h a t)
  stop := hm.stop

end Trade

end FfiBridge.Foundation
