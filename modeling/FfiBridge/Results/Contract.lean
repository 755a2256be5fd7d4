import FfiBridge.Panics.ErrorPath
import FfiBridge.Registry.Refinement

/-! # The contract of results

The header promises of every result: no message with a success, no payload with an error, and
an error has a text. A result is built by `ok` and by `err` alone, so whatever handlers and
callbacks return keeps it. What `run_json` answers is decided by the first of its three stages
that does not succeed.
-/
namespace FfiBridge
open Foundation

/-! ## The shape -/

section
variable {rt : Runtime} {σ : Type} [Component σ Heap] {s t : σ} {r : FfiResult} {e : FfiError}

end

/-! ## The stages of `run_json` -/

variable {rt : Runtime} {σ I O ε α : Type} {s t u : σ} {r : FfiResult} {o : JsonEnd}

variable [Component σ Heap]

namespace JsonEnd

end JsonEnd

section
variable {decode : List UInt8 → Program σ (Except String I)}
  {handler : I → Program σ (Except FfiError O)} {encode : O → Program σ (Except String Vec)}
  {call : BridgeCall} {bytes : List UInt8}

/-- The stages after the first. -/
def BridgeCall.handled (rt : Runtime) (handler : I → Program σ (Except FfiError O))
    (encode : O → Program σ (Except String Vec)) (value : I) :
    Program σ (Except FfiError FfiBuffer) := do
  match ← handler value with
  | .error e => return .error e
  | .ok output => FfiBuffer.fromJson rt (encode output)

/-- The first stage reads the input and decodes it. -/
theorem run_jsonStages (hin : (within call.input.asSlice : Program σ _).run s = .ok bytes s) :
    (call.jsonStages rt decode handler encode).run s = (do
      match ← decode bytes with
      | .error e => return .error (.serialization e)
      | .ok value => BridgeCall.handled rt handler encode value :
        Program σ (Except FfiError FfiBuffer)).run s := by
  unfold BridgeCall.jsonStages FfiBuffer.toJson
  rw [bind_assoc, bind_of_ok hin]
  rw [bind_assoc]
  cases hd : (decode bytes).run s with
  | ok x t =>
    rw [bind_of_ok hd, bind_of_ok hd]
    cases x <;> rfl
  | error x t => rw [bind_of_error hd, bind_of_error hd]

end

end FfiBridge
