import FfiBridge.Go.Lengths

/-! # Typed errors across the boundary

A callback answers with `FfiResult::err(e)`. `ffi_invoke_callback` builds a new error from
the code alone, and `CheckResult` copies what it is given, so what arrives in Go is
`Unknown` with a text that names the code.
-/
namespace FfiBridge
open Foundation

variable {rt : Runtime} {p : Process} {name : List UInt8} {input : Option BufferRef}
  {raw : FfiBuffer} {n : String} {cb : CallbackFn} {r : FfiResult} {h : Heap} {e : FfiError}

/-- The error `ffi_invoke_callback` makes of a callback's error code. -/
def wrappedError (n : String) (code : FfiErrorCode) : FfiError :=
  .unknown (callbackErrorText n code)

/-- The one text that arrives for `Unknown` errors of the callback `n`. -/
def unknownText (n : String) : String :=
  "unknown error: " ++ ("callback '" ++ n ++ "' returned error code " ++ "Unknown")

theorem message_wrappedError (n : String) : (wrappedError n .unknown).message = unknownText n :=
  rfl

/-- `e` survives: the invocation returns its code and a message with its text, and Go's
`InvokeCallback` returns an `*FfiError` with that code and that message. -/
def Survives (rt : Runtime) (e : FfiError) (name : List UInt8) (input : Option BufferRef)
    (raw : FfiBuffer) (p : Process) : Prop :=
  ∃ out l' text p',
    (ffiInvokeCallback rt (some (C.CString name)) raw).run p.library = .ok out l' ∧
    out.errorCode = e.code ∧
    out.errorMessage.asStr.run l'.heap = .ok (asBytes text) l'.heap ∧
    e.message.toList <:+: text.toList ∧
    (invokeCallback rt name input).run p =
      .ok (.error (.ffiError e.code.toInt (asBytes text))) p'

/-- What an invocation answers for the error of a callback, and what Go makes of it. -/
theorem invoke_wrapped (hraw : p.rawInput input = some raw)
    (hn : cstrToString (some (C.CString name)) = .ok n) (hp : p.library.poisoned = false)
    (hl : p.library.callbacks.lookup n = some cb)
    (hr : (cb.run raw).run p.library.heap = .ok r h) (hok : r.isOk = false)
    {out : FfiResult} {l' : Library}
    (hout : (ffiInvokeCallback rt (some (C.CString name)) raw).run p.library = .ok out l') :
    out.errorCode = .unknown ∧
    out.errorMessage.asStr.run l'.heap = .ok (asBytes (wrappedError n r.errorCode).message) l'.heap ∧
    ∀ code, (∃ p', (invokeCallback rt name input).run p =
        .ok (.error (.ffiError code (asBytes (wrappedError n r.errorCode).message))) p') ↔
      code = 99 ∧ (wrappedError n r.errorCode).message.utf8ByteSize < 2 ^ 31 := by
  obtain ⟨-, hown, hcode, -, hlen, hmsg⟩ :=
    err_of_within ((run_invoke_error hn hp hl hr hok).symm.trans hout)
  have hcode' : out.errorCode = .unknown := hcode
  have hiff := goString_whole_iff (p := (p.crossed raw).withLibrary l') hmsg hlen.symm
  refine ⟨hcode, hmsg, fun code => ?_⟩
  rw [run_invokeCallback hraw hout]
  constructor
  · rintro ⟨p', hp'⟩
    obtain ⟨hc, hm⟩ := checkResult_error_inv hp'
    exact ⟨hc.trans (by rw [hcode']; rfl), hlen ▸ hiff.mp hm⟩
  · rintro ⟨rfl, hlt⟩
    have hres := @run_checkResult_error rt _ _ _ (by simp [hcode'])
      (show out.Owned ((p.crossed raw).withLibrary l').heap from hown) (hiff.mpr (hlen ▸ hlt))
    rw [hcode'] at hres
    exact ⟨_, hres⟩

/-- The error whose code a callback answered with survives exactly when it is an `Unknown` whose text
occurs in the one text there is for the callback, and this is served and short enough for
Go. No other variant survives. -/
theorem error_survives_iff (hraw : p.rawInput input = some raw)
    (hn : cstrToString (some (C.CString name)) = .ok n) (hp : p.library.poisoned = false)
    (hl : p.library.callbacks.lookup n = some cb)
    (hr : (cb.run raw).run p.library.heap = .ok r h)
    (hcode : r.errorCode = e.code) :
    Survives rt e name input raw p ↔
      ∃ detail, e = .unknown detail ∧
        ("unknown error: " ++ detail).toList <:+: (unknownText n).toList ∧
        rt.Serves h (unknownText n).utf8ByteSize ∧ (unknownText n).utf8ByteSize < 2 ^ 31 := by
  have hok : r.isOk = false := by simp [FfiResult.isOk, hcode, e.code_ne_ok]
  have hrun := @run_invoke_error rt _ _ _ _ _ _ _ hn hp hl hr hok
  constructor
  · rintro ⟨out, l', text, p', hout, hc, htext, hsub, hgo⟩
    have hs := serves_of_err (hrun.symm.trans hout)
    obtain ⟨hc', hmsg, hiff⟩ := invoke_wrapped hraw hn hp hl hr hok hout
    have hunk : r.errorCode = .unknown := hcode.trans (hc.symm.trans hc')
    obtain ⟨detail, rfl⟩ := FfiError.code_eq_unknown.mp (hcode.symm.trans hunk)
    rw [hunk, message_wrappedError] at hmsg hiff
    rw [hunk] at hs
    obtain rfl := asBytes_inj.mp (EStateM.Result.ok.inj (htext.symm.trans hmsg)).1
    refine ⟨detail, rfl, hsub, ?_, ((hiff _).mp ⟨p', hgo⟩).2⟩
    rw [← message_wrappedError]
    exact hs
  · rintro ⟨detail, rfl, hsub, hs, hlt⟩
    rw [hcode] at hrun
    rw [← message_wrappedError] at hs
    obtain ⟨out, l', ho⟩ := err_returns (s := p.library.called cb raw h) hs
    have hout := hrun.trans ho
    obtain ⟨hc', hmsg, hiff⟩ := invoke_wrapped hraw hn hp hl hr hok hout
    rw [hcode] at hmsg hiff
    change EStateM.run _ _ = .ok (asBytes (wrappedError n .unknown).message) _ at hmsg
    rw [message_wrappedError] at hmsg
    obtain ⟨p', hgo⟩ := (hiff 99).mpr ⟨rfl, (congrArg _ (message_wrappedError n)).trans_lt hlt⟩
    exact ⟨out, l', unknownText n, p', hout, hc', hmsg, hsub, hgo⟩

/-- `Unknown("callback")` happens to survive. -/
theorem error_survives_unknown :
    Survives (.granting .unwind) (.unknown "callback") [99] none .null
      (.start (.having "c" (.erring (.granting .unwind) (.unknown "callback")) .empty)) :=
  (error_survives_iff rfl rfl rfl Finmap.lookup_singleton_eq
    (FfiResult.run_err_served ⟨by decide, rfl⟩) rfl).mpr
    ⟨"callback", rfl, by decide, ⟨by decide, rfl⟩, by decide⟩

/-- A `Timeout` does not arrive in Go. -/
theorem timeout_lost : ¬ Survives (.granting .unwind) .timeout [99] none .null
    (.start (.having "c" (.erring (.granting .unwind) .timeout) .empty)) := by
  rintro ⟨out, _, _, _, hout, hc, -⟩
  have hunk := (invoke_wrapped (show Process.rawInput _ none = _ from rfl) rfl rfl
    Finmap.lookup_singleton_eq (FfiResult.run_err_served ⟨by decide, rfl⟩) rfl hout).1
  cases hunk.symm.trans hc

end FfiBridge
