import FfiBridge.Rust.Callback
import FfiBridge.Rust.Profile

/-! # The panic boundary under each build profile

`catch_panic` is the only wrapper between a closure and the C caller, and what it can do
depends on the profile: `catch_unwind` sees a panic only when the crate is compiled to
unwind. Its error arms also allocate a message, and drop the payload of the panic.
-/
namespace FfiBridge
open Foundation

variable {rt : Runtime} {σ : Type} [Component σ Heap]

/-- Control returns from `m` with a result, and with code `Panic` if the closure `f`
panics. -/
def Contained (m : Program σ FfiResult) (f : Program σ (Except FfiError FfiBuffer)) (s : σ) :
    Prop :=
  ∃ r t, m.run s = .ok r t ∧ ∀ p u, f.run s = .error (.panic p) u → r.errorCode = .panic

/-- The ends of a closure that `catch_panic` can turn into a result: the allocator serves
the message if one is needed, and a panic is unwound and has a payload that drops quietly. -/
def Containable (rt : Runtime) (f : Program σ (Except FfiError FfiBuffer)) (s : σ) : Prop :=
  match f.run s with
  | .ok (.ok _) _ => True
  | .ok (.error e) t => rt.Serves (Component.get t) e.message.utf8ByteSize
  | .error (.panic p) t => rt.strategy = .unwind ∧ p.dropPanic = none ∧
      rt.Serves (Component.get t) (FfiError.panic p.text).message.utf8ByteSize
  | .error _ _ => False

variable {f : Program σ (Except FfiError FfiBuffer)} {s t : σ}

theorem contained_iff_of_err {e : FfiError} (hf : f.run s = .ok (.error e) t) :
    Contained (catchPanic rt f) f s ↔ rt.Serves (Component.get t) e.message.utf8ByteSize := by
  constructor
  · rintro ⟨r, u, hr, -⟩
    exact serves_of_err ((run_catchPanic_err hf).symm.trans hr)
  · intro hs
    exact ⟨_, _, (run_catchPanic_err hf).trans (within_of_ok (FfiResult.run_err_served hs)),
      fun p u hp => by cases hf.symm.trans hp⟩

theorem contained_iff_of_panic {p : PanicPayload} (hf : f.run s = .error (.panic p) t) :
    Contained (catchPanic rt f) f s ↔ rt.strategy = .unwind ∧ p.dropPanic = none ∧
      rt.Serves (Component.get t) (FfiError.panic p.text).message.utf8ByteSize := by
  constructor
  · rintro ⟨r, u, hr, -⟩
    cases hu : rt.strategy with
    | abort => cases (run_catchPanic_abort hu hf).symm.trans hr
    | unwind =>
      have hr' := (run_catchPanic_unwind hu hf).symm.trans hr
      cases hd : p.dropPanic with
      | none => exact ⟨rfl, rfl, serves_of_err (p.droppedAfter_of_none hd _ ▸ hr')⟩
      | some next => exact absurd hr' (PanicPayload.droppedAfter_ne_ok hd _ _ _ _)
  · rintro ⟨hu, hd, hs⟩
    have hr := within_of_ok (FfiResult.run_err_served hs)
    rw [← p.droppedAfter_of_none hd (within _), ← run_catchPanic_unwind hu hf] at hr
    exact ⟨_, _, hr, fun _ _ _ => rfl⟩

/-- `catch_panic` contains its closure exactly when the closure's end is containable. -/
theorem contained_catchPanic_iff (f : Program σ (Except FfiError FfiBuffer)) (s : σ) :
    Contained (catchPanic rt f) f s ↔ Containable rt f s := by
  unfold Containable
  cases hf : f.run s with
  | ok r t =>
    cases r with
    | ok b =>
      have hr := @run_catchPanic_ok rt _ _ _ _ _ _ hf
      exact iff_of_true ⟨_, _, hr, fun p u hp => by cases hf.symm.trans hp⟩ trivial
    | error e => exact contained_iff_of_err hf
  | error x t =>
    by_cases hx : ∃ p, x = .panic p
    · obtain ⟨p, rfl⟩ := hx
      exact contained_iff_of_panic hf
    · have hno : ¬ Contained (catchPanic rt f) f s := by
        rintro ⟨r, u, hr, -⟩
        cases (run_catchPanic_stop (fun p hp => hx ⟨p, hp⟩) hf).symm.trans hr
      cases x with
      | panic p => exact absurd ⟨p, rfl⟩ hx
      | _ => exact iff_of_false hno fun hc => hc

/-- The body of an invocation is contained under the same condition. -/
theorem contained_invoke_iff {name : Option (List UInt8)} {n : String} {input : FfiBuffer}
    {l : Library} (hn : cstrToString name = .ok n) :
    Contained (ffiInvokeCallback rt name input) (invokeBody n input) l ↔
      Containable rt (invokeBody n input) l := by
  rw [ffiInvokeCallback_of_valid hn]
  exact contained_catchPanic_iff _ _

/-- Under every profile and through every wrapper, control returns with a result, whose
code is `Panic` when the closure panics, exactly when the closure's end is containable.
The release profile contains no panic. -/
theorem boundary_holds_iff (rt : Runtime) (profile : Profile) :
    ((rt.under profile).strategy = .unwind ↔ profile ≠ .release) ∧
    (∀ (f : Program σ (Except FfiError FfiBuffer)) (s : σ),
      Contained (catchPanic (rt.under profile) f) f s ↔ Containable (rt.under profile) f s) ∧
    (∀ (call : BridgeCall) (handler : FfiBuffer → Program σ (Except FfiError FfiBuffer)) (s : σ),
      Contained (call.run (rt.under profile) handler) (handler call.input) s ↔
        Containable (rt.under profile) (handler call.input) s) ∧
    (∀ (I O : Type) (call : BridgeCall) (decode : List UInt8 → Program σ (Except String I))
      (handler : I → Program σ (Except FfiError O)) (encode : O → Program σ (Except String Vec))
      (s : σ), Contained (call.runJson (rt.under profile) decode handler encode)
          (call.jsonStages (rt.under profile) decode handler encode) s ↔
        Containable (rt.under profile) (call.jsonStages (rt.under profile) decode handler encode) s) ∧
    (∀ (name : Option (List UInt8)) (n : String) (input : FfiBuffer) (l : Library),
      cstrToString name = .ok n →
      (Contained (ffiInvokeCallback (rt.under profile) name input) (invokeBody n input) l ↔
        Containable (rt.under profile) (invokeBody n input) l)) :=
  ⟨Profile.unwinds_iff, contained_catchPanic_iff,
    fun call handler => contained_catchPanic_iff (handler call.input),
    fun _ _ call decode handler encode =>
      contained_catchPanic_iff (call.jsonStages (rt.under profile) decode handler encode),
    fun _ _ _ _ hn => contained_invoke_iff hn⟩

/-- An invocation of a name that is not registered, under the release profile. -/
theorem boundary_holds_of_unknown_name :
    Contained (ffiInvokeCallback ((Runtime.granting .unwind).under .release) (some [104, 105]) .null)
      (invokeBody "hi" .null) .empty :=
  ((@boundary_holds_iff Heap _ (.granting .unwind) .release).2.2.2.2 _ "hi" .null _ rfl).mpr
    (show Runtime.Serves _ _ _ from ⟨by decide, rfl⟩)

/-- The release build does not return from a closure that panics. -/
theorem release_panic_ends_process :
    ¬ Contained (catchPanic ((Runtime.granting .unwind).under .release) (panic "boom"))
      (panic "boom") Heap.empty := by
  rintro ⟨r, t, hr, -⟩
  cases hr

end FfiBridge
