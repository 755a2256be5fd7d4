import FfiBridge.Go.Bridge

/-! # Low-level helpers (`memory.go` and `types.go`) -/
namespace FfiBridge
open Foundation

variable (rt : Runtime)

/-- `AllocBuffer`. -/
def allocBuffer (capacity : ℤ) : Go FfiBuffer := within (ffiBufferAlloc rt (C.size_t capacity))

/-- `FreeBuffer`. -/
def freeBuffer (buf : FfiBuffer) : Go Unit := C.ffiBufferFree buf

/-- `GoStringFromFfiString`. -/
def goStringFromFfiString (s : FfiString) : Go (List UInt8) :=
  if s.data = .null ∨ s.len = 0 then return [] else C.GoStringN s.data (C.int s.len)

/-- `AllocFfiString`. -/
def allocFfiString (s : List UInt8) : Go FfiString :=
  if s = [] then return .null
  else within (ffiStringAlloc rt (some (C.CString s)) (C.size_t s.length))

/-- `FreeFfiString`. -/
def freeFfiString (s : FfiString) : Go Unit := within (ffiStringFree s)

/-- `copyBuffer`. -/
def copyBuffer (raw : FfiBuffer) : Go BufferRef :=
  if raw.data = .null ∨ raw.len = 0 then newBuffer .null
  else do
    crossing raw
    let goBytes ← C.GoBytes raw.data (C.int raw.len)
    fromBytes rt goBytes

/-- `Version`. -/
def version : Go (List UInt8) := do
  let raw ← within (ffiVersion rt)
  deferring (C.ffiBufferFree raw) <|
    if raw.data = .null ∨ raw.len = 0 then return [] else C.GoStringN raw.data (C.int raw.len)

theorem goString_state (s : FfiString) (p : Process) :
    final ((goStringFromFfiString s).run p) = p := by
  unfold goStringFromFfiString C.GoStringN
  split_ifs
  · rfl
  · rfl
  · rfl
  · rw [final_within, fromRawParts_state, Component.put_get]

end FfiBridge
