import FfiBridge.Service.Calls

/-! # JSON calls

`InvokeCallbackJSON` uses buffers as any program does: it makes one of the request, invokes the
callback, reads the buffer that comes back and frees both. So it is a script of calls, and what it
returns is what the store replies to the script: what the function on offer makes of the request.
-/
namespace FfiBridge
open Foundation

variable {rt : Runtime} {p q : Process} {data out : List UInt8} {b buf result : BufferRef}
  {h₀ : Heap} {w : World} {T : Type}

/-! ## `InvokeCallbackJSON` -/

/-- The arguments of a call with what `encoding/json` makes of them. -/
structure JsonCall (T : Type) where
  name : List UInt8
  quotedName : String
  marshal : Except String Slice
  unmarshal : List UInt8 → Except String T

namespace JsonCall

variable {c : JsonCall T} {ret : Except GoError T}

def run (rt : Runtime) (c : JsonCall T) : Go (Except GoError T) :=
  invokeCallbackJSON rt c.name c.quotedName (c.marshal.map Subtype.val) c.unmarshal

/-- The part of the code that reads the response. -/
def readResponse (c : JsonCall T) (result : BufferRef) : Go (Except GoError T) := do
  match ← Buffer.bytes result with
  | none => return .error (.text ("ffi: empty response from callback " ++ c.quotedName))
  | some data =>
    match c.unmarshal data with
    | .ok resp => return .ok resp
    | .error err => return .error (.wrapped "ffi: deserialize response" (.text err))

/-- The part of the code after the making of the request. -/
def invoke (rt : Runtime) (c : JsonCall T) (buf : BufferRef) : Go (Except GoError T) := do
  match ← invokeCallback rt c.name (some buf) with
  | .error err => return .error err
  | .ok result => deferring (Buffer.free result) (c.readResponse result)

/-- What becomes of the bytes of a response. -/
def received (c : JsonCall T) : Option (List UInt8) → Except GoError T
  | none => .error (.text ("ffi: empty response from callback " ++ c.quotedName))
  | some data =>
    match c.unmarshal data with
    | .ok resp => .ok resp
    | .error err => .error (.wrapped "ffi: deserialize response" (.text err))

/-- What becomes of a request. -/
def told (o : Offer) (c : JsonCall T) (data : List UInt8) : Except GoError T :=
  match o.invoke c.name data with
  | .error e => .error (.ffiError e.code.toInt (asBytes e.message))
  | .ok out => c.received (nilIfEmpty out)

/-- What the caller gets back. -/
def answer (o : Offer) (c : JsonCall T) : Except GoError T :=
  match c.marshal with
  | .error err => .error (.wrapped "ffi: serialize request" (.wrapped "ffi: json marshal" (.text err)))
  | .ok data => c.told o data.val

/-- The allocations that are lost at least. -/
def loses (o : Offer) (c : JsonCall T) : ℕ :=
  match c.marshal with
  | .error _ => 0
  | .ok data => o.loses c.name data.val

/-- How many callbacks are entered. -/
def enters (o : Offer) (c : JsonCall T) : ℕ :=
  match c.marshal with
  | .error _ => 0
  | .ok _ => o.enters c.name

/-- What the invocation comes back with has a length that is a C `int`. -/
def Ready (o : Offer) (c : JsonCall T) : Prop :=
  ∀ data, c.marshal = .ok data → Response.Short (o.invoke c.name data.val)

/-! ## The script -/

/-- An answer that a call does not give. -/
def stray : Script GoCall GoAnswer (Except GoError T) := .done (.error (.text ""))

/-- The calls that read the response. -/
def reading (c : JsonCall T) (buf result : BufferRef) : Script GoCall GoAnswer (Except GoError T) :=
  .call (.bytes result) fun a =>
    match a with
    | .bytes data => .call (.free result) fun _ => .call (.free buf) fun _ => .done (c.received data)
    | _ => stray

/-- The calls after the making of the request. -/
def invoking (c : JsonCall T) (buf : BufferRef) : Script GoCall GoAnswer (Except GoError T) :=
  .call (.invokeCallback c.name (some buf)) fun a =>
    match a with
    | .made (.ok result) => c.reading buf result
    | .made (.error err) => .call (.free buf) fun _ => .done (.error err)
    | _ => stray

/-- The calls of `InvokeCallbackJSON`, with the deferred ones where they come. -/
def calls (c : JsonCall T) : Script GoCall GoAnswer (Except GoError T) :=
  .call (.fromJSON c.marshal) fun a =>
    match a with
    | .made (.ok buf) => c.invoking buf
    | .made (.error err) => .done (.error (.wrapped "ffi: serialize request" err))
    | _ => stray

/-! ## Runs -/

end JsonCall

end FfiBridge
