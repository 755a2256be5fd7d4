import FfiBridge.Foundation.Effect

/-! # Clients of an interface

A script is a client of a set of operations: it picks each one by the answers it has had so far.
-/
namespace FfiBridge.Foundation

variable {Op Answer ε σ α : Type}

inductive Script (Op Answer α : Type) where
  | done (a : α)
  | call (op : Op) (next : Answer → Script Op Answer α)

/-- The script, with `exec` for the operations. -/
def Script.run (exec : Op → EStateM ε σ Answer) : Script Op Answer α → EStateM ε σ α
  | done a => pure a
  | call op next => do (next (← exec op)).run exec

end FfiBridge.Foundation
