import FfiBridge.Foundation.Execution
import FfiBridge.Rust.Callback

/-! # Sequences of registry operations

The seven operations of both APIs as one labelled step relation: a label is an operation
with what it answered.
-/
namespace FfiBridge
open Foundation

variable (rt : Runtime)

/-- The operations, on closures of a type `κ`. -/
inductive RegistryOp (κ : Type) where
  | registerCallback (name : String) (f : κ)
  | unregisterCallback (name : String)
  | callbackCount
  | ffiRegisterCallback (name : Option (List UInt8)) (cb : κ)
  | ffiInvokeCallback (name : Option (List UInt8)) (input : FfiBuffer)
  | ffiUnregisterCallback (name : Option (List UInt8))
  | ffiCallbackCount

/-- What the operations return. -/
inductive RegistryAnswer where
  | registered (r : Except FfiError Unit)
  | removed (r : Except FfiError Bool)
  | count (n : ℕ)
  | status (code : ℤ)
  | result (r : FfiResult)

namespace RegistryOp

def run : RegistryOp CallbackFn → Program Library RegistryAnswer
  | registerCallback name f => return .registered (← FfiBridge.registerCallback name f)
  | unregisterCallback name => return .removed (← FfiBridge.unregisterCallback name)
  | callbackCount => return .count (← FfiBridge.callbackCount)
  | ffiRegisterCallback name cb => return .status (← FfiBridge.ffiRegisterCallback name cb)
  | ffiInvokeCallback name input => return .result (← FfiBridge.ffiInvokeCallback rt name input)
  | ffiUnregisterCallback name => return .status (← FfiBridge.ffiUnregisterCallback name)
  | ffiCallbackCount => return .count (← FfiBridge.ffiCallbackCount)

/-- An operation that returned, with its answer. -/
def Step (l : Library) (e : RegistryOp CallbackFn × RegistryAnswer) (l' : Library) : Prop :=
  (e.1.run rt).run l = .ok e.2 l'

end RegistryOp

/-- The error of an operation under `name` that finds the lock poisoned. -/
def refusal (name : Option (List UInt8)) : FfiError :=
  match cstrToString name with
  | .ok _ => .lockPoisoned
  | .error e => e

/-- The status of an operation under `name` that finds the lock poisoned. -/
def refusalStatus (name : Option (List UInt8)) : ℤ :=
  match cstrToString name with
  | .ok _ => -2
  | .error _ => -1

/-- Registrations, removals and invocations report the poisoned lock, unless there is
something wrong with the name, which they find first. -/
def Refuses : RegistryOp CallbackFn → RegistryAnswer → Prop
  | .registerCallback _ _, .registered r => r = .error .lockPoisoned
  | .unregisterCallback _, .removed r => r = .error .lockPoisoned
  | .ffiRegisterCallback name _, .status code => code = refusalStatus name
  | .ffiUnregisterCallback name, .status code => code = refusalStatus name
  | .ffiInvokeCallback name _, .result r => r.errorCode = (refusal name).code
  | .callbackCount, .count _ => True
  | .ffiCallbackCount, .count _ => True
  | _, _ => False

/-! ## On a poisoned lock -/

variable {rt} {l l' : Library} {name : Option (List UInt8)} {input : FfiBuffer}
  {op : RegistryOp CallbackFn} {answer : RegistryAnswer}

theorem run_ffiRegisterCallback_poisoned (cb : CallbackFn) (hp : l.poisoned = true) :
    (ffiRegisterCallback name cb).run l = .ok (refusalStatus name) l := by
  unfold ffiRegisterCallback refusalStatus
  cases cstrToString name with
  | error e => rfl
  | ok n => exact run_lockCallbacks_poisoned hp

theorem run_ffiUnregisterCallback_poisoned (hp : l.poisoned = true) :
    (ffiUnregisterCallback name).run l = .ok (refusalStatus name) l := by
  unfold ffiUnregisterCallback refusalStatus
  cases cstrToString name with
  | error e => rfl
  | ok n => exact run_lockCallbacks_poisoned hp

theorem run_ffiInvokeCallback_poisoned (hp : l.poisoned = true) :
    (ffiInvokeCallback rt name input).run l =
      (within (FfiResult.err rt (refusal name))).run l := by
  cases hn : cstrToString name with
  | error e => rw [run_invoke_invalid hn, refusal, hn]
  | ok n => rw [run_invoke_poisoned hn hp, refusal, hn]

/-- Only an invocation changes anything, the heap, and only it can fail to return. -/
theorem RegistryOp.run_poisoned (op : RegistryOp CallbackFn) (hp : l.poisoned = true) :
    (∃ answer, (op.run rt).run l = .ok answer l ∧ Refuses op answer) ∨
    ∃ name input, op = .ffiInvokeCallback name input := by
  cases op with
  | registerCallback name f =>
    exact .inl ⟨.registered (.error .lockPoisoned), bind_of_ok (run_lockCallbacks_poisoned hp) _, rfl⟩
  | unregisterCallback name =>
    exact .inl ⟨.removed (.error .lockPoisoned), bind_of_ok (run_lockCallbacks_poisoned hp) _, rfl⟩
  | callbackCount => exact .inl ⟨.count 0, bind_of_ok (run_lockCallbacks_poisoned hp) _, trivial⟩
  | ffiRegisterCallback name cb =>
    exact .inl ⟨.status _, bind_of_ok (run_ffiRegisterCallback_poisoned cb hp) _, rfl⟩
  | ffiInvokeCallback name input => exact .inr ⟨name, input, rfl⟩
  | ffiUnregisterCallback name =>
    exact .inl ⟨.status _, bind_of_ok (run_ffiUnregisterCallback_poisoned hp) _, rfl⟩
  | ffiCallbackCount => exact .inl ⟨.count 0, bind_of_ok (run_lockCallbacks_poisoned hp) _, trivial⟩

/-- The registry as it is apart from the heap. -/
def Library.SameRegistry (l l' : Library) : Prop :=
  l'.callbacks = l.callbacks ∧ l'.poisoned = l.poisoned ∧ l'.calls = l.calls

theorem RegistryOp.Step.refused (hs : RegistryOp.Step rt l (op, answer) l')
    (hp : l.poisoned = true) : l.SameRegistry l' ∧ Refuses op answer := by
  obtain ⟨answer', hr, href⟩ | ⟨name, input, rfl⟩ := @RegistryOp.run_poisoned rt l op hp
  · cases hr.symm.trans hs
    exact ⟨⟨rfl, rfl, rfl⟩, href⟩
  · obtain ⟨out, t, hr, ha⟩ := bind_eq_ok.mp hs
    cases ha
    rw [run_ffiInvokeCallback_poisoned hp] at hr
    obtain ⟨-, -, hcode, -⟩ := err_of_within hr
    obtain ⟨h, -, rfl⟩ := within_eq_ok.mp hr
    exact ⟨⟨rfl, rfl, rfl⟩, hcode⟩

end FfiBridge
