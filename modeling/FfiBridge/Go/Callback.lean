import FfiBridge.Go.Memory

/-! # Results and invocations on the Go side (`errors.go` and `callback.go`) -/
namespace FfiBridge
open Foundation

variable (rt : Runtime)

/-- `CheckResult`. -/
def checkResult (result : FfiResult) : Go (Except GoError BufferRef) :=
  if result.errorCode.toInt ≠ 0 then do
    let msg ← goStringFromFfiString result.errorMessage
    within (ffiResultFree result)
    return .error (.ffiError result.errorCode.toInt msg)
  else do
    let buf ← copyBuffer rt result.payload
    within (ffiResultFree { result with payload := .null })
    return .ok buf

/-- The `FfiBuffer` `InvokeCallback` passes on, which is zeroed for a nil input. -/
def rawInput (input : Option BufferRef) : Go FfiBuffer :=
  match input with
  | none => pure .null
  | some b => Buffer.raw b

/-- `InvokeCallback`. -/
def invokeCallback (name : List UInt8) (input : Option BufferRef) :
    Go (Except GoError BufferRef) := do
  let raw ← rawInput input
  crossing raw
  let result ← within (ffiInvokeCallback rt (some (C.CString name)) raw)
  checkResult rt result

/-- `InvokeCallbackJSON`, with `json.Marshal` of the request, `json.Unmarshal`, and the name
as `%q` prints it. -/
def invokeCallbackJSON {T : Type} (name : List UInt8) (quotedName : String)
    (marshal : Except String (List UInt8)) (unmarshal : List UInt8 → Except String T) :
    Go (Except GoError T) := do
  match ← fromJSON rt marshal with
  | .error err => return .error (.wrapped "ffi: serialize request" err)
  | .ok buf =>
    deferring (Buffer.free buf) do
      match ← invokeCallback rt name (some buf) with
      | .error err => return .error err
      | .ok result =>
        deferring (Buffer.free result) do
          match ← Buffer.bytes result with
          | none => return .error (.text ("ffi: empty response from callback " ++ quotedName))
          | some data =>
            match unmarshal data with
            | .ok resp => return .ok resp
            | .error err => return .error (.wrapped "ffi: deserialize response" (.text err))

/-! ## Runs -/

variable {rt} {p p' : Process} {name msg : List UInt8} {input : Option BufferRef} {raw : FfiBuffer}
  {result : FfiResult}

/-- The buffer passed for `input`, if the pointer is good. -/
def Process.rawInput (p : Process) : Option BufferRef → Option FfiBuffer
  | none => some .null
  | some b => p.buffers[b]?.map Buffer.inner

theorem run_rawInput (hraw : p.rawInput input = some raw) : (rawInput input).run p = .ok raw p := by
  cases input with
  | none =>
    cases hraw
    rfl
  | some b =>
    obtain ⟨buffer, hb, rfl⟩ := Option.map_eq_some_iff.mp hraw
    change (do return (← deref b).inner : Go FfiBuffer).run p = _
    rw [bind_of_ok (run_deref hb)]
    rfl

theorem run_rawInput_nil (hraw : p.rawInput input = none) : (rawInput input).run p =
    .error (.goPanic "invalid memory address or nil pointer dereference") p := by
  cases input with
  | none => cases hraw
  | some b =>
    change (do return (← deref b).inner : Go FfiBuffer).run p = _
    rw [bind_of_error (run_deref_nil (Option.map_eq_none_iff.mp hraw))]

theorem run_invokeCallback_nil (hraw : p.rawInput input = none) :
    (invokeCallback rt name input).run p =
      .error (.goPanic "invalid memory address or nil pointer dereference") p := by
  unfold invokeCallback
  rw [bind_of_error (run_rawInput_nil hraw)]

/-- The process with another library. -/
def Process.withLibrary (p : Process) (l : Library) : Process := { p with library := l }

/-- An invocation from Go, once the library has answered. -/
theorem run_invokeCallback {l' : Library} (hraw : p.rawInput input = some raw)
    (hr : (ffiInvokeCallback rt (some (C.CString name)) raw).run p.library = .ok result l') :
    (invokeCallback rt name input).run p =
      (checkResult rt result).run ((p.crossed raw).withLibrary l') := by
  have hw : (within (ffiInvokeCallback rt (some (C.CString name)) raw) : Go FfiResult).run
      (p.crossed raw) = .ok result ((p.crossed raw).withLibrary l') := within_of_ok hr
  unfold invokeCallback
  rw [bind_of_ok (run_rawInput hraw), bind_of_ok (run_crossing _ _), bind_of_ok hw]

theorem run_invokeCallback_stop {l' : Library} {e : Stop} (hraw : p.rawInput input = some raw)
    (hr : (ffiInvokeCallback rt (some (C.CString name)) raw).run p.library = .error e l') :
    (invokeCallback rt name input).run p = .error e ((p.crossed raw).withLibrary l') := by
  have hw : (within (ffiInvokeCallback rt (some (C.CString name)) raw) : Go FfiResult).run
      (p.crossed raw) = .error e ((p.crossed raw).withLibrary l') := within_of_error hr
  unfold invokeCallback
  rw [bind_of_ok (run_rawInput hraw), bind_of_ok (run_crossing _ _), bind_of_error hw]

/-- The error path frees all the result owns, after the message has become a Go string. -/
theorem run_checkResult_error (hc : result.errorCode ≠ .ok) (hown : result.Owned p.heap)
    (hmsg : (goStringFromFfiString result.errorMessage).run p = .ok msg p) :
    (checkResult rt result).run p = .ok (.error (.ffiError result.errorCode.toInt msg))
      (p.withHeap (p.heap.dropAll result.owns)) := by
  have hfree : (within (ffiResultFree result) : Go Unit).run p =
      .ok () (p.withHeap (p.heap.dropAll result.owns)) := within_of_ok (FfiResult.run_free hown)
  unfold checkResult
  rw [if_pos (FfiErrorCode.toInt_eq_zero.not.mpr hc), bind_of_ok hmsg, bind_of_ok hfree]
  rfl

/-- The success path copies the payload and frees the message. -/
theorem run_checkResult_ok (hc : result.errorCode = .ok) : (checkResult rt result).run p =
    (do let buf ← copyBuffer rt result.payload
        within (ffiResultFree { result with payload := .null })
        return .ok buf : Go (Except GoError BufferRef)).run p := by
  unfold checkResult
  rw [if_neg (not_not.mpr (FfiErrorCode.toInt_eq_zero.mpr hc))]

theorem checkResult_error_inv {q : Process} {code : ℤ}
    (hr : (checkResult rt result).run p = .ok (.error (.ffiError code msg)) q) :
    code = result.errorCode.toInt ∧
      (goStringFromFfiString result.errorMessage).run p = .ok msg p := by
  unfold checkResult at hr
  split_ifs at hr with hc
  · obtain ⟨msg', t, hm, hr⟩ := bind_eq_ok.mp hr
    obtain ⟨_, u, -, hr⟩ := bind_eq_ok.mp hr
    cases hr
    obtain rfl := eq_of_final_ok (goString_state _ _) hm
    exact ⟨rfl, hm⟩
  · obtain ⟨b, t, -, hr⟩ := bind_eq_ok.mp hr
    obtain ⟨_, u, -, hr⟩ := bind_eq_ok.mp hr
    cases hr

end FfiBridge
