import FfiBridge.Rust.Errors

/-! # Bridge calls (`bridge.rs`), bridge values and the C string helper (`types.rs`) -/
namespace FfiBridge
open Foundation

variable (rt : Runtime)

/-- `cstr_to_string`, for a null pointer or one to the given bytes before a NUL. -/
def cstrToString (ptr : Option (List UInt8)) : Except FfiError String :=
  match ptr with
  | none => .error .nullPointer
  | some memory =>
    match fromUtf8 (memory.takeWhile (· ≠ 0)) with
    | .ok s => .ok s
    | .error e => .error (.invalidUtf8 e.toString)

/-- `BridgeCall`. -/
structure BridgeCall where
  input : FfiBuffer
  deriving DecidableEq, Repr

namespace BridgeCall

variable {σ I O : Type} [Component σ Heap]

/-- `BridgeCall::run`. -/
def run (self : BridgeCall) (handler : FfiBuffer → Program σ (Except FfiError FfiBuffer)) :
    Program σ FfiResult := catchPanic rt (handler self.input)

/-- The three stages of `run_json`, with serde's implementations for `I` and `O`. -/
def jsonStages (self : BridgeCall) (decode : List UInt8 → Program σ (Except String I))
    (handler : I → Program σ (Except FfiError O)) (encode : O → Program σ (Except String Vec)) :
    Program σ (Except FfiError FfiBuffer) := do
  match ← self.input.toJson decode with
  | .error e => return .error e
  | .ok value =>
    match ← handler value with
    | .error e => return .error e
    | .ok output => FfiBuffer.fromJson rt (encode output)

/-- `BridgeCall::run_json`. -/
def runJson (self : BridgeCall) (decode : List UInt8 → Program σ (Except String I))
    (handler : I → Program σ (Except FfiError O)) (encode : O → Program σ (Except String Vec)) :
    Program σ FfiResult := catchPanic rt (self.jsonStages rt decode handler encode)

/-- `BridgeCall::into_buffer`. -/
def intoBuffer (self : BridgeCall) : FfiBuffer := self.input

end BridgeCall

/-- `BridgeValue`. -/
structure BridgeValue where
  inner : FfiBuffer
  deriving DecidableEq, Repr

namespace BridgeValue

variable {σ T : Type} [Component σ Heap]

/-- `BridgeValue::new`, with `serde_json::to_vec` of the value as `json`. -/
def new (json : Program σ (Except String Vec)) : Program σ (Except FfiError BridgeValue) := do
  match ← FfiBuffer.fromJson rt json with
  | .ok inner => return .ok ⟨inner⟩
  | .error e => return .error e

/-- `BridgeValue::decode`, with `serde_json::from_slice` as `decode`. -/
def decode (self : BridgeValue) (decode : List UInt8 → Program σ (Except String T)) :
    Program σ (Except FfiError T) := self.inner.toJson decode

/-- `BridgeValue::into_buffer`. -/
def intoBuffer (self : BridgeValue) : FfiBuffer := self.inner

end BridgeValue

/-- The handler of `ffi_echo`. -/
def echoHandler (buf : FfiBuffer) : Rust (Except FfiError FfiBuffer) := do
  let bytes ← buf.asSlice
  return .ok (← FfiBuffer.fromVec rt (← toVec rt bytes))

/-- `ffi_echo`. -/
def ffiEcho (input : FfiBuffer) : Rust FfiResult := (BridgeCall.mk input).run rt (echoHandler rt)

/-- `env!("CARGO_PKG_VERSION")`. -/
def cargoPkgVersion : String := "1.0.0"

/-- `ffi_version`. -/
def ffiVersion : Rust FfiBuffer := do FfiBuffer.fromVec rt (← toVec rt (asBytes cargoPkgVersion))

/-! ## Echo and version -/

variable {rt} {h : Heap}

theorem FfiBuffer.asSlice_trade {b : FfiBuffer} (hb : b.Owned h) :
    Trade heapLedger [] b.asSlice (fun _ => []) (fun bytes _ => bytes.length ≤ isizeMax) h := by
  have hmax := hb.1.trans hb.2.le_isizeMax
  rcases run_readBytes_backed hb.2 hb.1 with ⟨bytes, hlen, hr⟩ | ⟨id, hr⟩
  · exact .of_ok hr (.refl _) (hlen.trans_le hmax)
  · refine .of_error hr (fun f hf => ?_) fun ⟨p, hp⟩ => by cases hp
    cases hf
    exact ⟨id, rfl⟩

theorem echoHandler_trade {b : FfiBuffer} (hb : b.Owned h) :
    Trade heapLedger [] (echoHandler rt b) (exceptOwns FfiBuffer.owns)
      (ExceptOwned FfiBuffer.Represented) h := by
  refine (FfiBuffer.asSlice_trade hb).bind fun bytes h₁ _ => ?_
  refine (Vec.build_trade bytes bytes.length).bind fun v h₂ ⟨hv, _, _⟩ => ?_
  refine (FfiBuffer.fromVec_trade hv).bind fun b' h₃ ⟨hb', _, _⟩ => ?_
  refine .pure (.pass (FfiBuffer.owns_nodup b') fun _ => hb'.owned.mem_live) fun a ha => ?_
  cases ha
  exact hb'

/-- Echoing an owned buffer never panics: the bytes are no more than `isize::MAX`. -/
theorem echoHandler_ne_panic {b : FfiBuffer} (hb : b.Owned h) (p : PanicPayload) (h' : Heap) :
    (echoHandler rt b).run h ≠ .error (.panic p) h' := by
  intro hr
  rcases bind_eq_error.mp hr with hr | ⟨bytes, h₁, hs, hr⟩
  · exact readBytes_ne_panic _ _ _ _ _ hr
  rcases bind_eq_error.mp hr with hr | ⟨v, h₂, hv, hr⟩
  · exact Vec.build_ne_panic (by simpa using ((FfiBuffer.asSlice_trade hb).ok _ _ hs).2) p hr
  have hvo := ((Vec.build_trade bytes bytes.length).ok _ _ hv).2.1
  rcases bind_eq_error.mp hr with hr | ⟨b', h₃, hb', hr⟩
  · rcases bind_eq_error.mp hr with hr | ⟨v', h₄, hv', hr⟩
    · exact Vec.shrinkToFit_ne_panic hvo p hr
    · cases hr
  · cases hr

theorem ffiEcho_trade {b : FfiBuffer} (hb : b.Owned h) :
    Trade heapLedger [] (ffiEcho rt b) FfiResult.owns
      (fun r h' => r.Owned h' ∧ r.payload.Readable h') h :=
  catchPanic_trade (echoHandler_trade hb) fun p h' hr => absurd hr (echoHandler_ne_panic hb p h')

theorem ffiVersion_trade : Trade heapLedger [] (ffiVersion rt) FfiBuffer.owns
    (fun b h' => b.Represented h' ∧ b.len = (asBytes cargoPkgVersion).length ∧
      b.asSlice.run h' = .ok (asBytes cargoPkgVersion) h') h := FfiBuffer.fromVec_toVec_trade _

end FfiBridge
