import FfiBridge.Rust.Bridge

/-! # The callback registry (`callback.rs`)

The registry is the map behind the mutex, with the poison flag of the mutex. One thread
runs at a time here, and a callback does not reach the registry; `Registry` has the
threads. The guard of the lock is alive while a callback runs, so a panic that leaves
the callback poisons the lock on its way to `catch_panic`. The thread is not unwinding
another panic, and the destructor of a closure that is replaced, removed or refused only
returns.
-/
namespace FfiBridge
open Foundation

/-- `CallbackFn`: client code that may do anything to the heap but rewrite its history. -/
structure CallbackFn where
  run : FfiBuffer → Rust FfiResult
  history : ∀ input, Respects Heap.Later (run input)

/-- The state of the library, with the calls of registered callbacks so far, newest first. -/
structure Library where
  heap : Heap
  callbacks : Finmap (fun _ : String => CallbackFn)
  poisoned : Bool
  calls : List (CallbackFn × FfiBuffer)

instance : Component Library Heap where
  get l := l.heap
  put h l := { l with heap := h }
  get_put _ _ := rfl
  put_get _ := rfl
  put_put _ _ _ := rfl

variable (rt : Runtime)

/-- `CALLBACKS.lock()`, with `onPoison` for the error of a poisoned lock. -/
def lockCallbacks {α : Type} (onPoison : α) (m : Program Library α) : Program Library α :=
  fun l => if l.poisoned then .ok onPoison l else m.run l

/-! ## Rust-native API -/

/-- `register_callback`. -/
def registerCallback (name : String) (f : CallbackFn) : Program Library (Except FfiError Unit) :=
  lockCallbacks (.error .lockPoisoned) do
    modify fun l => { l with callbacks := l.callbacks.insert name f }
    return .ok ()

/-- `unregister_callback`. -/
def unregisterCallback (name : String) : Program Library (Except FfiError Bool) :=
  lockCallbacks (.error .lockPoisoned) do
    let found := (← get).callbacks.lookup name |>.isSome
    modify fun l => { l with callbacks := l.callbacks.erase name }
    return .ok found

/-- `callback_count`. -/
def callbackCount : Program Library ℕ :=
  lockCallbacks 0 do return (← get).callbacks.keys.card

/-! ## Exported API -/

/-- `ffi_register_callback`. -/
def ffiRegisterCallback (name : Option (List UInt8)) (cb : CallbackFn) : Program Library ℤ :=
  match cstrToString name with
  | .error _ => pure (-1)
  | .ok nameStr => lockCallbacks (-2) do
    modify fun l => { l with callbacks := l.callbacks.insert nameStr cb }
    return 0

/-- The library when `cb` has been called with `input` and left the heap `h`. -/
def Library.called (l : Library) (cb : CallbackFn) (input : FfiBuffer) (h : Heap) : Library :=
  { l with heap := h, calls := (cb, input) :: l.calls }

/-- The library when the guard is dropped by a panic. -/
def Library.poison (l : Library) : Library := { l with poisoned := true }

@[simp] theorem Library.called_heap (l : Library) (cb : CallbackFn) (input : FfiBuffer)
    (h : Heap) : (l.called cb input h).heap = h := rfl

@[simp] theorem Library.poison_heap (l : Library) : l.poison.heap = l.heap := rfl

/-- A call of a registered callback while the guard is alive. A panic that drops the guard poisons
the lock, as the thread was not panicking when it took it. -/
def CallbackFn.call (cb : CallbackFn) (input : FfiBuffer) : Program Library FfiResult := fun l =>
  match (cb.run input).run l.heap with
  | .ok r h => .ok r (l.called cb input h)
  | .error (.panic p) h => .error (.panic p) (l.called cb input h).poison
  | .error e h => .error e (l.called cb input h)

theorem CallbackFn.run_call (cb : CallbackFn) (input : FfiBuffer) (l : Library) :
    (cb.call input).run l = match (cb.run input).run l.heap with
      | .ok r h => .ok r (l.called cb input h)
      | .error (.panic p) h => .error (.panic p) (l.called cb input h).poison
      | .error e h => .error e (l.called cb input h) := rfl

/-- The message with which a callback's error comes back. -/
def callbackErrorText (nameStr : String) (code : FfiErrorCode) : String :=
  "callback '" ++ nameStr ++ "' returned error code " ++ code.debug

/-- The closure `ffi_invoke_callback` hands to `catch_panic`. -/
def invokeBody (nameStr : String) (input : FfiBuffer) :
    Program Library (Except FfiError FfiBuffer) :=
  lockCallbacks (.error .lockPoisoned) do
    match (← get).callbacks.lookup nameStr with
    | none => return .error (.notFound nameStr)
    | some cb =>
      let result ← cb.call input
      if result.isOk then return .ok result.payload
      else return .error (.unknown (callbackErrorText nameStr result.errorCode))

/-- `ffi_invoke_callback`. -/
def ffiInvokeCallback (name : Option (List UInt8)) (input : FfiBuffer) : Program Library FfiResult :=
  match cstrToString name with
  | .error e => within (FfiResult.err rt e)
  | .ok nameStr => catchPanic rt (invokeBody nameStr input)

/-- `ffi_unregister_callback`. -/
def ffiUnregisterCallback (name : Option (List UInt8)) : Program Library ℤ :=
  match cstrToString name with
  | .error _ => pure (-1)
  | .ok nameStr => lockCallbacks (-2) do
    let found := (← get).callbacks.lookup nameStr |>.isSome
    modify fun l => { l with callbacks := l.callbacks.erase nameStr }
    return if found then 0 else -1

/-- `ffi_callback_count`. -/
def ffiCallbackCount : Program Library ℕ := callbackCount

/-! ## Some callbacks -/

namespace CallbackFn

/-- `|buf| FfiResult::ok(buf)`. -/
def returning : CallbackFn := ⟨fun buf => pure (.ok buf), fun _ => .pure _⟩

/-- `|buf| { let bytes = buf.as_slice().to_vec(); FfiResult::ok(FfiBuffer::from_vec(bytes)) }`. -/
def copying : CallbackFn where
  run buf := do
    let bytes ← buf.asSlice
    return .ok (← FfiBuffer.fromVec rt (← toVec rt bytes))
  history _ := (readBytes_later _ _).bind fun _ => (Vec.build_later _ _).bind fun _ =>
    (FfiBuffer.fromVec_later _).bind fun _ => .pure _

/-- A callback that answers with `FfiResult::err(error)`. -/
def erring (error : FfiError) : CallbackFn :=
  ⟨fun _ => FfiResult.err rt error, fun _ => FfiResult.err_later error⟩

/-- A callback that panics with a message. -/
def panicking (text : String) : CallbackFn := ⟨fun _ => panic text, fun _ => panic_later text⟩

theorem copying_trade {rt : Runtime} {buf : FfiBuffer} {h : Heap} (hb : buf.Owned h) :
    Trade heapLedger [] ((copying rt).run buf) FfiResult.owns FfiResult.Owned h := by
  refine (FfiBuffer.asSlice_trade hb).bind fun bytes h₁ _ => ?_
  refine (Vec.build_trade bytes bytes.length).bind fun v h₂ ⟨hv, _, _⟩ => ?_
  refine (FfiBuffer.fromVec_trade hv).bind fun b h₃ ⟨⟨hb', _⟩, _, _⟩ => ?_
  exact .pure (.pass b.owns_nodup fun _ => hb'.mem_live) (FfiResult.owned_ok hb')

end CallbackFn

/-- A library just loaded. -/
def Library.empty : Library := ⟨.empty, ∅, false, []⟩

/-- A library with one registered callback. -/
def Library.having (name : String) (cb : CallbackFn) (heap : Heap) : Library :=
  ⟨heap, Finmap.singleton name cb, false, []⟩

/-! ## The ends of an invocation -/

section
variable {rt} {l : Library} {name : Option (List UInt8)} {n : String} {input : FfiBuffer}
  {cb : CallbackFn} {r : FfiResult} {h : Heap}

theorem run_lockCallbacks_poisoned {α : Type} {a : α} {m : Program Library α}
    (hp : l.poisoned = true) : (lockCallbacks a m).run l = .ok a l := if_pos hp

theorem run_lockCallbacks {α : Type} {a : α} {m : Program Library α}
    (hp : l.poisoned = false) : (lockCallbacks a m).run l = m.run l :=
  if_neg (by simp [hp])

theorem run_invoke_invalid {e : FfiError} (hn : cstrToString name = .error e) :
    (ffiInvokeCallback rt name input).run l = (within (FfiResult.err rt e)).run l := by
  unfold ffiInvokeCallback
  rw [hn]

theorem ffiInvokeCallback_of_valid (hn : cstrToString name = .ok n) :
    ffiInvokeCallback rt name input = catchPanic rt (invokeBody n input) := by
  unfold ffiInvokeCallback
  rw [hn]

theorem run_invoke_poisoned (hn : cstrToString name = .ok n) (hp : l.poisoned = true) :
    (ffiInvokeCallback rt name input).run l = (within (FfiResult.err rt .lockPoisoned)).run l := by
  rw [ffiInvokeCallback_of_valid hn]
  exact run_catchPanic_err (run_lockCallbacks_poisoned hp)

theorem run_invokeBody_notFound (hp : l.poisoned = false) (hl : l.callbacks.lookup n = none) :
    (invokeBody n input).run l = .ok (.error (.notFound n)) l := by
  unfold invokeBody
  rw [run_lockCallbacks hp, EStateM.run_bind, EStateM.run_get]
  simp only [hl]
  rfl

theorem run_invoke_notFound (hn : cstrToString name = .ok n) (hp : l.poisoned = false)
    (hl : l.callbacks.lookup n = none) : (ffiInvokeCallback rt name input).run l =
      (within (FfiResult.err rt (.notFound n))).run l := by
  rw [ffiInvokeCallback_of_valid hn, run_catchPanic_err (run_invokeBody_notFound hp hl)]

/-- With the callback found, the body is the call and what becomes of its result. -/
theorem run_invokeBody (hp : l.poisoned = false) (hl : l.callbacks.lookup n = some cb) :
    (invokeBody n input).run l = (do
      let result ← cb.call input
      if result.isOk then return .ok result.payload
      else return .error (.unknown (callbackErrorText n result.errorCode)) :
        Program Library (Except FfiError FfiBuffer)).run l := by
  unfold invokeBody
  rw [run_lockCallbacks hp, EStateM.run_bind, EStateM.run_get]
  simp only [hl]

theorem run_call_ok (hr : (cb.run input).run l.heap = .ok r h) :
    (cb.call input).run l = .ok r (l.called cb input h) := by
  rw [CallbackFn.run_call, hr]

theorem run_invoke_ok (hn : cstrToString name = .ok n) (hp : l.poisoned = false)
    (hl : l.callbacks.lookup n = some cb) (hr : (cb.run input).run l.heap = .ok r h)
    (hok : r.isOk = true) : (ffiInvokeCallback rt name input).run l =
      .ok (.ok r.payload) (l.called cb input h) := by
  rw [ffiInvokeCallback_of_valid hn]
  refine run_catchPanic_ok ?_
  rw [run_invokeBody hp hl, bind_of_ok (run_call_ok hr), if_pos hok]
  rfl

theorem run_invoke_error (hn : cstrToString name = .ok n) (hp : l.poisoned = false)
    (hl : l.callbacks.lookup n = some cb) (hr : (cb.run input).run l.heap = .ok r h)
    (hok : r.isOk = false) : (ffiInvokeCallback rt name input).run l =
      (within (FfiResult.err rt (.unknown (callbackErrorText n r.errorCode)))).run
        (l.called cb input h) := by
  rw [ffiInvokeCallback_of_valid hn]
  refine run_catchPanic_err ?_
  rw [run_invokeBody hp hl, bind_of_ok (run_call_ok hr), if_neg (by simp [hok])]
  rfl

theorem run_invokeBody_panic {p : PanicPayload} (hp : l.poisoned = false)
    (hl : l.callbacks.lookup n = some cb)
    (hr : (cb.run input).run l.heap = .error (.panic p) h) :
    (invokeBody n input).run l = .error (.panic p) (l.called cb input h).poison := by
  have hc : (cb.call input).run l = .error (.panic p) (l.called cb input h).poison := by
    rw [CallbackFn.run_call, hr]
  rw [run_invokeBody hp hl, bind_of_error hc]

theorem run_invoke_unwind {p : PanicPayload} (hu : rt.strategy = .unwind)
    (hn : cstrToString name = .ok n) (hp : l.poisoned = false)
    (hl : l.callbacks.lookup n = some cb)
    (hr : (cb.run input).run l.heap = .error (.panic p) h) :
    (ffiInvokeCallback rt name input).run l =
      (p.droppedAfter (within (FfiResult.err rt (.panic p.text)))).run
        (l.called cb input h).poison := by
  rw [ffiInvokeCallback_of_valid hn]
  exact run_catchPanic_unwind hu (run_invokeBody_panic hp hl hr)

theorem run_invoke_abort {p : PanicPayload} (hu : rt.strategy = .abort)
    (hn : cstrToString name = .ok n) (hp : l.poisoned = false)
    (hl : l.callbacks.lookup n = some cb)
    (hr : (cb.run input).run l.heap = .error (.panic p) h) :
    (ffiInvokeCallback rt name input).run l = .error .abort (l.called cb input h).poison := by
  rw [ffiInvokeCallback_of_valid hn]
  exact run_catchPanic_abort hu (run_invokeBody_panic hp hl hr)

theorem run_invoke_stop {e : Stop} (he : ∀ p, e ≠ .panic p) (hn : cstrToString name = .ok n)
    (hp : l.poisoned = false) (hl : l.callbacks.lookup n = some cb)
    (hr : (cb.run input).run l.heap = .error e h) :
    (ffiInvokeCallback rt name input).run l = .error e (l.called cb input h) := by
  have hc : (cb.call input).run l = .error e (l.called cb input h) := by
    rw [CallbackFn.run_call, hr]
    cases e with
    | panic p => exact absurd rfl (he p)
    | _ => rfl
  rw [ffiInvokeCallback_of_valid hn]
  refine run_catchPanic_stop he ?_
  rw [run_invokeBody hp hl, bind_of_error hc]

/-- The callback an invocation of `name` enters, if any. -/
def Library.callee (l : Library) (name : Option (List UInt8)) : Option CallbackFn :=
  match cstrToString name with
  | .error _ => none
  | .ok n => if l.poisoned then none else l.callbacks.lookup n

theorem Library.callee_eq_some : l.callee name = some cb ↔
    ∃ n, cstrToString name = .ok n ∧ l.poisoned = false ∧ l.callbacks.lookup n = some cb := by
  unfold callee
  cases cstrToString name with
  | error e => simp
  | ok n => cases l.poisoned <;> simp

theorem Library.callee_having (hn : cstrToString name = .ok n) :
    (Library.having n cb h).callee name = some cb :=
  callee_eq_some.mpr ⟨n, hn, rfl, Finmap.lookup_singleton_eq⟩

theorem Library.callee_of_valid (hn : cstrToString name = .ok n) :
    l.callee name = if l.poisoned then none else l.callbacks.lookup n := by
  unfold callee
  rw [hn]

/-- The body of an invocation leaves the library as its call of the callee does, if it makes one. -/
theorem final_invokeBody (hn : cstrToString name = .ok n) :
    final ((invokeBody n input).run l) =
      (l.callee name).elim l fun cb => final ((cb.call input).run l) := by
  rw [Library.callee_of_valid hn]
  cases hp : l.poisoned with
  | true =>
    unfold invokeBody
    rw [run_lockCallbacks_poisoned hp]
    rfl
  | false =>
    rw [if_neg Bool.false_ne_true]
    cases hl : l.callbacks.lookup n with
    | none =>
      rw [run_invokeBody_notFound hp hl]
      rfl
    | some cb =>
      rw [run_invokeBody hp hl]
      refine final_bind_of_state _ (fun r l' => ?_) l
      split <;> rfl

/-- An error result made inside the library, and what it does to the heap. -/
theorem err_of_within {e : FfiError} {out : FfiResult} {l' : Library}
    (ho : (within (FfiResult.err rt e)).run l = .ok out l') :
    Arena.Exchange l.heap.toArena [] l'.heap.toArena out.owns ∧ out.Owned l'.heap ∧
      out.errorCode = e.code ∧ out.payload = .null ∧
      out.errorMessage.len = e.message.utf8ByteSize ∧
      out.errorMessage.asStr.run l'.heap = .ok (asBytes e.message) l'.heap := by
  obtain ⟨h, hr, rfl⟩ := within_eq_ok.mp ho
  exact (FfiResult.err_trade e).ok _ _ hr

variable (rt l name input) in
/-- The four ways an invocation returns: no callback was entered, or the callback returned
a success, returned an error, or panicked. -/
inductive InvocationEnd : FfiResult → Library → Prop
  | notEntered {out : FfiResult} {l' : Library} (e : FfiError) (hc : l.callee name = none)
      (ho : (within (FfiResult.err rt e)).run l = .ok out l') : InvocationEnd out l'
  | success {cb : CallbackFn} {r : FfiResult} {h : Heap} (hc : l.callee name = some cb)
      (hr : (cb.run input).run l.heap = .ok r h) (hok : r.isOk = true) :
      InvocationEnd (.ok r.payload) (l.called cb input h)
  | error {cb : CallbackFn} {r out : FfiResult} {h : Heap} {l' : Library} {n : String}
      (hn : cstrToString name = .ok n) (hc : l.callee name = some cb) (hr : (cb.run input).run l.heap = .ok r h)
      (hok : r.isOk = false)
      (ho : (within (FfiResult.err rt (.unknown (callbackErrorText n r.errorCode)))).run
        (l.called cb input h) = .ok out l') : InvocationEnd out l'
  | panicked {cb : CallbackFn} {p : PanicPayload} {out : FfiResult} {h : Heap} {l' : Library}
      (hc : l.callee name = some cb) (hr : (cb.run input).run l.heap = .error (.panic p) h)
      (ho : (within (FfiResult.err rt (.panic p.text))).run (l.called cb input h).poison =
        .ok out l') : InvocationEnd out l'

theorem invocationEnd_of_ok {out : FfiResult} {l' : Library}
    (hout : (ffiInvokeCallback rt name input).run l = .ok out l') :
    InvocationEnd rt l name input out l' := by
  cases hn : cstrToString name with
  | error e =>
    refine .notEntered e ?_ ((run_invoke_invalid hn).symm.trans hout)
    simp [Library.callee, hn]
  | ok n =>
    cases hp : l.poisoned with
    | true =>
      refine .notEntered .lockPoisoned ?_ ((run_invoke_poisoned hn hp).symm.trans hout)
      simp [Library.callee, hn, hp]
    | false =>
      cases hl : l.callbacks.lookup n with
      | none =>
        refine .notEntered (.notFound n) ?_ ((run_invoke_notFound hn hp hl).symm.trans hout)
        simp [Library.callee, hn, hp, hl]
      | some cb =>
        have hc := Library.callee_eq_some.mpr ⟨n, hn, hp, hl⟩
        cases hr : (cb.run input).run l.heap with
        | ok r h =>
          cases hok : r.isOk with
          | true =>
            cases (run_invoke_ok hn hp hl hr hok).symm.trans hout
            exact .success hc hr hok
          | false => exact .error hn hc hr hok ((run_invoke_error hn hp hl hr hok).symm.trans hout)
        | error e h =>
          by_cases he : ∃ p, e = .panic p
          · obtain ⟨p, rfl⟩ := he
            cases hu : rt.strategy with
            | abort => cases (run_invoke_abort hu hn hp hl hr).symm.trans hout
            | unwind =>
              have ho := (run_invoke_unwind hu hn hp hl hr).symm.trans hout
              cases hd : p.dropPanic with
              | none =>
                rw [p.droppedAfter_of_none hd] at ho
                exact .panicked hc hr ho
              | some next => exact absurd ho (PanicPayload.droppedAfter_ne_ok hd _ _ _ _)
          · cases (run_invoke_stop (fun p hp => he ⟨p, hp⟩) hn hp hl hr).symm.trans hout

end

end FfiBridge
