import FfiBridge.Foundation.Script

/-! # Reference models of an interface

A reference model says which operations it is ready for, what it replies and what it is then. A
program for each operation follows the model when it returns the reply and stays related to the
model; then so does any script that the model admits.
-/
namespace FfiBridge.Foundation

structure Reference (S Op Reply : Type) where
  ready : S → Op → Prop
  reply : S → Op → Reply
  after : S → Op → S

namespace Reference

variable {S Op Reply ε σ α : Type} {m : Reference S Op Reply} {R : S → σ → Prop}
  {run : Op → EStateM ε σ Reply} {s : S} {st : σ} {script : Script Op Reply α}

/-- What a script returns when the model replies to it, and what the model is then. -/
def outcome (m : Reference S Op Reply) : S → Script Op Reply α → α × S
  | s, .done a => (a, s)
  | s, .call op next => m.outcome (m.after s op) (next (m.reply s op))

/-- The model is ready for each operation when its turn comes. -/
def Admits (m : Reference S Op Reply) : S → Script Op Reply α → Prop
  | _, .done _ => True
  | s, .call op next => m.ready s op ∧ m.Admits (m.after s op) (next (m.reply s op))

end Reference

end FfiBridge.Foundation
