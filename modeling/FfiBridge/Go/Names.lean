import FfiBridge.Machine.Utf8
import FfiBridge.Ownership.ResultPath
import FfiBridge.Registry.Refinement
import Mathlib.Data.List.TakeWhile

/-! # Callback names across the boundary

A name is a Go string of any bytes, which `C.CString` ends with a NUL, and then a Rust string
of what comes before the first NUL. A name with a NUL inside is so taken for another one, and
a Rust name with a NUL inside has no name in the exported API.
-/
namespace FfiBridge
open Foundation

variable {rt : Runtime} {p q : Process} {l l' : Library} {name : List UInt8}
  {input : Option BufferRef} {raw : FfiBuffer} {cb : CallbackFn} {out : FfiResult} {e : FfiError}
  {code : ℤ}

/-! ## What Go code leaves alone -/

/-- No callback was called in between. -/
def Process.SameCalls (p q : Process) : Prop := q.library.calls = p.library.calls

instance : Std.Refl Process.SameCalls := ⟨fun _ => rfl⟩
instance : IsTrans Process Process.SameCalls := ⟨fun _ _ _ h h' => h'.trans h⟩

/-- Rust code on the heap calls no callback of the registry. -/
theorem within_sameCalls {α : Type} (m : Rust α) :
    Respects Process.SameCalls (within m : Go α) := by
  intro p
  rw [final_within]
  rfl

theorem deref_sameCalls (b : BufferRef) : Respects Process.SameCalls (deref b) := by
  intro p
  cases hb : p.buffers[b]? with
  | none =>
    rw [run_deref_nil hb]
    rfl
  | some buffer =>
    rw [run_deref hb]
    rfl

theorem crossing_sameCalls (b : FfiBuffer) : Respects Process.SameCalls (crossing b) := fun _ => rfl

theorem assign_sameCalls (b : BufferRef) (f : Buffer → Buffer) :
    Respects Process.SameCalls (assign b f) := fun _ => rfl

theorem newBuffer_sameCalls (raw : FfiBuffer) : Respects Process.SameCalls (newBuffer raw) :=
  fun _ => rfl

theorem goBytes_sameCalls (ptr : Ptr) (n : ℤ) : Respects Process.SameCalls (C.GoBytes ptr n) := by
  intro p
  rw [goBytes_state]
  rfl

theorem goString_sameCalls (s : FfiString) :
    Respects Process.SameCalls (goStringFromFfiString s) := by
  intro p
  rw [goString_state]
  rfl

theorem fromBytes_sameCalls (data : List UInt8) :
    Respects Process.SameCalls (fromBytes rt data) := by
  have hnew : Respects Process.SameCalls (NewBuffer rt data.length) :=
    (within_sameCalls _).bind fun _ => newBuffer_sameCalls _
  refine hnew.bind fun b => ?_
  refine .ite ?_ (.pure _)
  refine (deref_sameCalls b).bind fun buffer => (crossing_sameCalls _).bind fun _ => ?_
  exact (within_sameCalls _).bind fun _ => (assign_sameCalls _ _).bind fun _ => .pure _

theorem checkResult_sameCalls (out : FfiResult) :
    Respects Process.SameCalls (checkResult rt out) := by
  have hcopy : Respects Process.SameCalls (copyBuffer rt out.payload) :=
    .ite (newBuffer_sameCalls _) <| (crossing_sameCalls _).bind fun _ =>
      (goBytes_sameCalls _ _).bind fun _ => fromBytes_sameCalls _
  refine .ite ?_ ?_
  · exact (goString_sameCalls _).bind fun _ => (within_sameCalls _).bind fun _ => .pure _
  · exact hcopy.bind fun _ => (within_sameCalls _).bind fun _ => .pure _

/-! ## Names -/

/-- What C sees of a Go string. -/
def cName (name : List UInt8) : List UInt8 := name.takeWhile (· ≠ 0)

def isUtf8 (bytes : List UInt8) : Bool := (fromUtf8 bytes).isOk

/-- The callback registered under exactly these bytes. -/
def Library.registeredAs (l : Library) (bytes : List UInt8) : Option CallbackFn :=
  match fromUtf8 bytes with
  | .ok n => l.callbacks.lookup n
  | .error _ => none

/-- What an exported lookup answers that finds nothing. -/
def lookupError (name : Option (List UInt8)) : FfiError :=
  match cstrToString name with
  | .ok n => .notFound n
  | .error e => e

theorem takeWhile_CString (name : List UInt8) : (C.CString name).takeWhile (· ≠ 0) = cName name := by
  unfold C.CString cName
  rw [List.takeWhile_append]
  split_ifs with h
  · rw [(List.takeWhile_prefix _).eq_of_length h]
    simp
  · rfl

theorem cstrToString_CString (name : List UInt8) : cstrToString (some (C.CString name)) =
    match fromUtf8 (cName name) with
    | .ok s => .ok s
    | .error e => .error (.invalidUtf8 e.toString) := by
  rw [← takeWhile_CString]
  rfl

theorem callee_CString (hp : l.poisoned = false) :
    l.callee (some (C.CString name)) = l.registeredAs (cName name) := by
  unfold Library.callee Library.registeredAs
  rw [cstrToString_CString]
  cases fromUtf8 (cName name) with
  | ok n => simp [hp]
  | error e => rfl

theorem code_lookupError (name : List UInt8) : (lookupError (some (C.CString name))).code =
    if isUtf8 (cName name) then .notFound else .invalidUtf8 := by
  unfold lookupError isUtf8
  rw [cstrToString_CString]
  cases fromUtf8 (cName name) with
  | ok n => rfl
  | error e => rfl

/-- The message about a name that is not UTF-8 says where the longest string at the front of what C
sees of it ends, and how much of the rest starts no character. -/
theorem cstrToString_CString_eq_invalidUtf8 {m : String} :
    cstrToString (some (C.CString name)) = .error (.invalidUtf8 m) ↔
      ∃ (e : Utf8Error) (s : String) (b : UInt8) (tail : List UInt8),
        cName name = asBytes s ++ b :: tail ∧ e.validUpTo = s.utf8ByteSize ∧
        leadingChar b tail = .error e.errorLen ∧ m = e.toString := by
  rw [cstrToString_CString]
  constructor
  · intro h
    cases hs : fromUtf8 (cName name) with
    | ok n => simp [hs] at h
    | error e =>
      rw [hs] at h
      cases h
      obtain ⟨s, b, tail, hname, hend, hlead⟩ := validate_eq_some_iff.mp (fromUtf8_eq_error.mp hs)
      exact ⟨e, s, b, tail, hname, hend.trans (Nat.zero_add _), hlead, rfl⟩
  · rintro ⟨e, s, b, tail, hname, hend, hlead, rfl⟩
    have hv := validate_eq_some_iff.mpr ⟨s, b, tail, hname, hend.trans (Nat.zero_add _).symm, hlead⟩
    rw [fromUtf8_eq_error.mpr hv]

/-- A name is its own C string exactly when it holds no NUL. -/
theorem cName_eq_self_iff : cName name = name ↔ 0 ∉ name := by
  unfold cName
  rw [List.takeWhile_eq_self_iff]
  simp only [decide_eq_true_eq]
  exact ⟨fun h hz => h 0 hz rfl, fun h b hb hz => h (hz ▸ hb)⟩

/-- A Rust string is the name of something in the exported API exactly when it holds no NUL. -/
theorem exists_name_iff {n : String} : (∃ name, cstrToString name = .ok n) ↔ 0 ∉ asBytes n := by
  constructor
  · rintro ⟨name, hn⟩ hz
    rcases cstrToString_cases name with ⟨memory, n', rfl, hb, hok⟩ | ⟨e, he, -⟩
    · cases hok.symm.trans hn
      rw [hb] at hz
      simpa using List.mem_takeWhile_imp hz
    · cases he.symm.trans hn
  · intro hz
    refine ⟨some (C.CString (asBytes n)), ?_⟩
    rw [cstrToString_CString, cName_eq_self_iff.mpr hz, fromUtf8_asBytes]

/-! ## Invocations -/

/-- What a Go invocation has called when it ends, however it ends. -/
theorem invokeCallback_calls (hraw : p.rawInput input = some raw) (hp : p.library.poisoned = false) :
    (final ((invokeCallback rt name input).run p)).library.calls =
      (p.library.registeredAs (cName name)).toList.map (·, raw) ++ p.library.calls := by
  have hcalls := @invoke_calls rt p.library (some (C.CString name)) raw
  rw [callee_CString hp] at hcalls
  cases hr : (ffiInvokeCallback rt (some (C.CString name)) raw).run p.library with
  | ok out l' =>
    rw [run_invokeCallback hraw hr]
    rw [hr] at hcalls
    exact (checkResult_sameCalls out _).trans hcalls
  | error e l' =>
    rw [run_invokeCallback_stop hraw hr]
    rw [hr] at hcalls
    exact hcalls

/-- The exported invocation of a name under which nothing is found. -/
theorem run_invoke_unregistered (hp : l.poisoned = false)
    (hc : l.callee (some (C.CString name)) = none) :
    (ffiInvokeCallback rt (some (C.CString name)) raw).run l =
      (within (FfiResult.err rt (lookupError (some (C.CString name))))).run l := by
  unfold lookupError
  cases hn : cstrToString (some (C.CString name)) with
  | error e => exact run_invoke_invalid hn
  | ok n =>
    refine run_invoke_notFound hn hp ?_
    simpa [Library.callee, hn, hp] using hc

/-- What Go makes of an error of the library: its code, unless the length of the message is
negative as a C `int`. -/
theorem checkResult_made (ho : (within (FfiResult.err rt e)).run l = .ok out l') :
    (∃ msg q, (checkResult rt out).run (p.withLibrary l') = .ok (.error (.ffiError code msg)) q) ↔
      code = e.code.toInt ∧ 0 ≤ C.int e.message.utf8ByteSize := by
  obtain ⟨-, hown, hcode, -, hlen, -⟩ := err_of_within ho
  have hiff := @goString_returns_iff (p.withLibrary l') _ hown.message
  rw [hlen] at hiff
  constructor
  · rintro ⟨msg, q, hr⟩
    obtain ⟨hc, hm⟩ := checkResult_error_inv hr
    exact ⟨hcode ▸ hc, hiff.mp ⟨msg, _, hm⟩⟩
  · rintro ⟨rfl, hnn⟩
    obtain ⟨msg, q, hm⟩ := hiff.mpr hnn
    obtain rfl := eq_of_final_ok (goString_state _ _) hm
    rw [← hcode]
    exact ⟨msg, _, run_checkResult_error (hcode ▸ e.code_ne_ok) hown hm⟩

/-- The message of an error arrives in Go: it is allocated, and its length is no negative C `int`. -/
def Reported (rt : Runtime) (h : Heap) (e : FfiError) : Prop :=
  rt.Serves h e.message.utf8ByteSize ∧ 0 ≤ C.int e.message.utf8ByteSize

/-- What Go answers for a name under which nothing is found. -/
theorem invokeCallback_unregistered (hraw : p.rawInput input = some raw)
    (hp : p.library.poisoned = false) (hc : p.library.registeredAs (cName name) = none) :
    (∃ msg q, (invokeCallback rt name input).run p = .ok (.error (.ffiError code msg)) q) ↔
      code = (lookupError (some (C.CString name))).code.toInt ∧
        Reported rt p.heap (lookupError (some (C.CString name))) := by
  have hrun := @run_invoke_unregistered rt p.library name raw hp ((callee_CString hp).trans hc)
  by_cases hs : rt.Serves p.heap (lookupError (some (C.CString name))).message.utf8ByteSize
  · obtain ⟨out, l', ho⟩ := err_returns (s := p.library) hs
    rw [run_invokeCallback hraw (hrun.trans ho), checkResult_made ho]
    exact and_congr_right fun _ => (and_iff_right hs).symm
  · refine iff_of_false ?_ fun h => hs h.2.1
    rintro ⟨msg, q, hr⟩
    obtain ⟨x, h', he, -⟩ := FfiResult.run_err_unserved hs
    have hstop := hrun.trans (within_of_error he)
    cases (run_invokeCallback_stop hraw hstop).symm.trans hr

/-- `InvokeCallback` means by `name` what `register_callback` means by it: the callback registered
under exactly these bytes is called with the input, and when there is none, nothing is called and
the error says so. -/
def MeansTheSame (rt : Runtime) (p : Process) (name : List UInt8) (input : Option BufferRef)
    (raw : FfiBuffer) : Prop :=
  match p.library.registeredAs name with
  | some cb => (final ((invokeCallback rt name input).run p)).library.calls =
      (cb, raw) :: p.library.calls
  | none => ∃ msg q, (invokeCallback rt name input).run p = .ok (.error (.ffiError
      (if isUtf8 name then FfiErrorCode.notFound else .invalidUtf8).toInt msg)) q ∧
      q.library.calls = p.library.calls

theorem meansTheSame_iff (hraw : p.rawInput input = some raw) (hp : p.library.poisoned = false) :
    MeansTheSame rt p name input raw ↔
      p.library.registeredAs (cName name) = p.library.registeredAs name ∧
      (p.library.registeredAs name = none → isUtf8 (cName name) = isUtf8 name ∧
        Reported rt p.heap (lookupError (some (C.CString name)))) := by
  have hcalls := @invokeCallback_calls rt p name input raw hraw hp
  unfold MeansTheSame
  cases hreg : p.library.registeredAs name with
  | some cb =>
    rw [hcalls]
    cases p.library.registeredAs (cName name) with
    | none => simp
    | some cb' => simp
  | none =>
    have hcode : ∀ {b c : Bool}, (if b then FfiErrorCode.notFound else .invalidUtf8).toInt =
        (if c then FfiErrorCode.notFound else .invalidUtf8).toInt ↔ c = b := by decide
    constructor
    · rintro ⟨msg, q, hr, hsame⟩
      have hc : p.library.registeredAs (cName name) = none := by
        rw [hr, final_ok, hsame] at hcalls
        cases hc : p.library.registeredAs (cName name) with
        | none => rfl
        | some cb => simp [hc] at hcalls
      obtain ⟨heq, hrep⟩ := (invokeCallback_unregistered hraw hp hc).mp ⟨msg, q, hr⟩
      rw [code_lookupError, hcode] at heq
      exact ⟨hc, fun _ => ⟨heq, hrep⟩⟩
    · rintro ⟨hc, hall⟩
      obtain ⟨heq, hrep⟩ := hall rfl
      obtain ⟨msg, q, hr⟩ := (invokeCallback_unregistered hraw hp hc).mpr ⟨rfl, hrep⟩
      rw [code_lookupError, heq] at hr
      refine ⟨msg, q, hr, ?_⟩
      rw [hr, final_ok, hc] at hcalls
      exact hcalls

/-! ## Names of the exported API -/

/-- Some name of the exported API removes and invokes what is registered under `n`. -/
def Exported (rt : Runtime) (l : Library) (n : String) (cb : CallbackFn) : Prop :=
  ∃ name, (∃ l', (ffiUnregisterCallback name).run l = .ok 0 l' ∧ l'.callbacks.lookup n = none) ∧
    ∀ input, (final ((ffiInvokeCallback rt name input).run l)).calls = (cb, input) :: l.calls

theorem exported_iff {n : String} (hp : l.poisoned = false) (hl : l.callbacks.lookup n = some cb) :
    Exported rt l n cb ↔ 0 ∉ asBytes n := by
  rw [← exists_name_iff]
  constructor
  · rintro ⟨name, ⟨l', hr, hgone⟩, -⟩
    cases hn : cstrToString name with
    | error e => cases (run_ffiUnregisterCallback_invalid hn).symm.trans hr
    | ok m =>
      obtain ⟨-, rfl⟩ := EStateM.Result.ok.inj ((run_ffiUnregisterCallback hn hp).symm.trans hr)
      by_cases hm : m = n
      · exact ⟨name, hm ▸ hn⟩
      · cases hl.symm.trans ((Finmap.lookup_erase_ne (Ne.symm hm)).symm.trans hgone)
  · rintro ⟨name, hn⟩
    refine ⟨name, ⟨{ l with callbacks := l.callbacks.erase n }, ?_, Finmap.lookup_erase n _⟩,
      fun input => ?_⟩
    · rw [run_ffiUnregisterCallback hn hp, hl]
      rfl
    · rw [invoke_calls, Library.callee_eq_some.mpr ⟨n, hn, hp, hl⟩]
      rfl

/-- For every Go string and every library with an unpoisoned lock: `InvokeCallback` means by the
name what `register_callback` means by it exactly when the same callback, or none, is registered
under what comes before its first NUL, and where there is none, both are UTF-8 or neither is and
the error arrives. What `register_callback` accepts is in reach of the exported API exactly when
its name holds no NUL. -/
theorem names_agree_iff (rt : Runtime) (p : Process) (hp : p.library.poisoned = false) :
    (∀ name input raw, p.rawInput input = some raw →
      (MeansTheSame rt p name input raw ↔
        p.library.registeredAs (cName name) = p.library.registeredAs name ∧
        (p.library.registeredAs name = none → isUtf8 (cName name) = isUtf8 name ∧
          Reported rt p.heap (lookupError (some (C.CString name)))))) ∧
    ∀ n cb, p.library.callbacks.lookup n = some cb →
      (Exported rt p.library n cb ↔ 0 ∉ asBytes n) :=
  ⟨fun _ _ _ hraw => meansTheSame_iff hraw hp, fun _ _ hl => exported_iff hp hl⟩

/-- A name without a NUL under which nothing is registered. -/
theorem names_agree_unknown : MeansTheSame (.granting .unwind)
    (.start (.having "a" .returning .empty)) [98] none .null :=
  ((names_agree_iff (.granting .unwind) (.start (.having "a" .returning .empty)) rfl).1
    [98] none .null rfl).mpr ⟨rfl, fun _ => ⟨rfl, ⟨by decide, rfl⟩, by decide⟩⟩

/-- `InvokeCallback` of `"a\x00b"` runs the callback registered under `"a"`. -/
theorem name_with_nul_runs_another : ¬ MeansTheSame (.granting .unwind)
    (.start (.having "a" .returning .empty)) [97, 0, 98] none .null := by
  rintro ⟨msg, q, hr, -⟩
  cases hr

end FfiBridge
