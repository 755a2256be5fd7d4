import FfiBridge.Panics.Boundary

/-! # The error path of the panic wrapper

The error arms of `catch_panic` run after `catch_unwind` has returned, and what they do can
panic: the message of the error is allocated, and the payload of a caught panic is dropped.
Such a panic has nothing above it but the C caller.
-/
namespace FfiBridge
open Foundation

variable {rt : Runtime} {σ α : Type}

/-- Control comes back with a value. -/
def Returns (m : Program σ α) (s : σ) : Prop := ∃ a t, m.run s = .ok a t

/-- A panic leaves `m`, or a second one has ended the process. -/
def Escapes (m : Program σ α) (s : σ) : Prop :=
  ∃ x t, m.run s = .error x t ∧ (x = .abort ∨ ∃ p, x = .panic p)

/-- A closure that returns or panics. -/
def ReturnsOrPanics (m : Program σ α) (s : σ) : Prop :=
  ∀ x t, m.run s = .error x t → ∃ p, x = .panic p

/-- Where `catch_panic` comes back: nothing is to be reported, or the message is served; and
a payload that is to be dropped drops quietly. -/
def ErrorPathServed [Component σ Heap] (rt : Runtime) (f : Program σ (Except FfiError FfiBuffer))
    (s : σ) : Prop :=
  match f.run s with
  | .ok (.ok _) _ => True
  | .ok (.error e) t => rt.ServesMessage (Component.get t) e
  | .error (.panic p) t => p.dropPanic = none ∧ rt.ServesMessage (Component.get t) (.panic p.text)
  | .error _ _ => False

/-- The same for `ffi_invoke_callback`, by what it finds. -/
def InvocationServed (rt : Runtime) (l : Library) (name : Option (List UInt8)) (input : FfiBuffer) :
    Prop :=
  match cstrToString name with
  | .error e => rt.ServesMessage l.heap e
  | .ok n =>
    if l.poisoned then rt.ServesMessage l.heap .lockPoisoned
    else match l.callbacks.lookup n with
      | none => rt.ServesMessage l.heap (.notFound n)
      | some cb => match (cb.run input).run l.heap with
        | .ok r h =>
          if r.isOk then True else rt.ServesMessage h (.unknown (callbackErrorText n r.errorCode))
        | .error (.panic p) h => p.dropPanic = none ∧ rt.ServesMessage h (.panic p.text)
        | .error _ _ => False

theorem returns_congr {m m' : Program σ α} {s t : σ} (h : m.run s = m'.run t) :
    Returns m s ↔ Returns m' t := by
  unfold Returns
  rw [h]

theorem escapes_congr {m m' : Program σ α} {s t : σ} (h : m.run s = m'.run t) :
    Escapes m s ↔ Escapes m' t := by
  unfold Escapes
  rw [h]

theorem not_returns {m : Program σ α} {x : Stop} {s t : σ} (h : m.run s = .error x t) :
    ¬ Returns m s := by
  rintro ⟨a, u, hr⟩
  cases h.symm.trans hr

/-! ## The arms -/

theorem returns_droppedAfter_iff {p : PanicPayload} {m : Program σ α} {s : σ} :
    Returns (p.droppedAfter m) s ↔ p.dropPanic = none ∧ Returns m s := by
  cases hd : p.dropPanic with
  | none =>
    rw [p.droppedAfter_of_none hd]
    simp
  | some next =>
    refine iff_of_false ?_ (by simp)
    rintro ⟨a, t, hr⟩
    exact PanicPayload.droppedAfter_ne_ok hd m s t a hr

/-- A destructor that panics turns a result into a panic, and a panic into the end. -/
theorem droppedAfter_returns_or_escapes {p : PanicPayload} {m : Program σ α} {s : σ}
    (h : Returns m s ∨ Escapes m s) :
    Returns (p.droppedAfter m) s ∨ Escapes (p.droppedAfter m) s := by
  cases hd : p.dropPanic with
  | none => rwa [p.droppedAfter_of_none hd]
  | some next =>
    refine .inr ?_
    rcases h with ⟨a, t, hr⟩ | ⟨x, t, hr, rfl | ⟨q, rfl⟩⟩
    · exact ⟨.panic next, t, by rw [p.run_droppedAfter hd, hr], .inr ⟨next, rfl⟩⟩
    · exact ⟨.abort, t, by rw [p.run_droppedAfter hd, hr], .inl rfl⟩
    · exact ⟨.abort, t, by rw [p.run_droppedAfter hd, hr], .inl rfl⟩

section
variable [Component σ Heap] {f : Program σ (Except FfiError FfiBuffer)} {s : σ} {e : FfiError}

theorem returns_err_iff : Returns (within (FfiResult.err rt e) : Program σ FfiResult) s ↔
    rt.ServesMessage (Component.get s) e :=
  ⟨fun ⟨_, _, hr⟩ => serves_of_err hr, err_returns⟩

theorem err_returns_or_escapes (rt : Runtime) (e : FfiError) (s : σ) :
    Returns (within (FfiResult.err rt e) : Program σ FfiResult) s ∨
      Escapes (within (FfiResult.err rt e) : Program σ FfiResult) s := by
  by_cases hs : rt.ServesMessage (Component.get s) e
  · exact .inl (err_returns hs)
  · obtain ⟨p, h, hr, -⟩ := FfiResult.run_err_unserved hs
    exact .inr ⟨_, _, within_of_error hr, .inr ⟨p, rfl⟩⟩

theorem returns_catchPanic_iff (hu : rt.strategy = .unwind) :
    Returns (catchPanic rt f) s ↔ ErrorPathServed rt f s := by
  unfold ErrorPathServed
  cases hf : f.run s with
  | ok r t =>
    cases r with
    | ok b => exact iff_of_true ⟨_, _, run_catchPanic_ok hf⟩ trivial
    | error e => exact (returns_congr (run_catchPanic_err hf)).trans returns_err_iff
  | error x t =>
    cases x with
    | panic p =>
      rw [returns_congr (run_catchPanic_unwind hu hf), returns_droppedAfter_iff, returns_err_iff]
    | _ => exact iff_of_false (not_returns (run_catchPanic_stop (fun p h => by cases h) hf)) id

/-- When it does not come back, a panic of the error path leaves `catch_panic`. -/
theorem catchPanic_returns_or_escapes (hu : rt.strategy = .unwind) (hf : ReturnsOrPanics f s) :
    Returns (catchPanic rt f) s ∨ Escapes (catchPanic rt f) s := by
  cases hr : f.run s with
  | ok r t =>
    cases r with
    | ok b => exact .inl ⟨_, _, run_catchPanic_ok hr⟩
    | error e =>
      rw [returns_congr (run_catchPanic_err hr), escapes_congr (run_catchPanic_err hr)]
      exact err_returns_or_escapes rt e t
  | error x t =>
    obtain ⟨p, rfl⟩ := hf x t hr
    have hrun := run_catchPanic_unwind hu hr
    rw [returns_congr hrun, escapes_congr hrun]
    exact droppedAfter_returns_or_escapes (err_returns_or_escapes rt _ t)

end

section
variable {l : Library} {name : Option (List UInt8)} {n : String} {input : FfiBuffer}

theorem returns_invoke_iff (hu : rt.strategy = .unwind) :
    Returns (ffiInvokeCallback rt name input) l ↔ InvocationServed rt l name input := by
  unfold InvocationServed
  cases hn : cstrToString name with
  | error e => exact (returns_congr (run_invoke_invalid hn)).trans returns_err_iff
  | ok n =>
    cases hp : l.poisoned with
    | true => exact (returns_congr (run_invoke_poisoned hn hp)).trans returns_err_iff
    | false =>
      simp only [Bool.false_eq_true, if_false]
      cases hl : l.callbacks.lookup n with
      | none => exact (returns_congr (run_invoke_notFound hn hp hl)).trans returns_err_iff
      | some cb =>
        simp only
        cases hr : (cb.run input).run l.heap with
        | ok r h =>
          simp only
          split_ifs with hok
          · exact iff_of_true ⟨_, _, run_invoke_ok hn hp hl hr hok⟩ trivial
          · exact (returns_congr (run_invoke_error hn hp hl hr (by simpa using hok))).trans
              returns_err_iff
        | error x h =>
          cases x with
          | panic p =>
            rw [returns_congr (run_invoke_unwind hu hn hp hl hr), returns_droppedAfter_iff,
              returns_err_iff]
            rfl
          | _ => exact iff_of_false (not_returns (run_invoke_stop (fun p h => by cases h) hn hp hl hr)) id

/-- The body of an invocation ends as the callback does. -/
theorem invokeBody_returnsOrPanics (hn : cstrToString name = .ok n)
    (hcb : ∀ cb, l.callee name = some cb → ReturnsOrPanics (cb.run input) l.heap) :
    ReturnsOrPanics (invokeBody n input) l := by
  intro x t hr
  cases hp : l.poisoned with
  | true => cases (run_lockCallbacks_poisoned hp).symm.trans hr
  | false =>
    cases hl : l.callbacks.lookup n with
    | none => cases (run_invokeBody_notFound hp hl).symm.trans hr
    | some cb =>
      have hends := hcb cb (Library.callee_eq_some.mpr ⟨n, hn, hp, hl⟩)
      rw [run_invokeBody hp hl] at hr
      rcases bind_eq_error.mp hr with hr | ⟨r, t', -, hr⟩
      · rw [CallbackFn.run_call] at hr
        cases hcall : (cb.run input).run l.heap with
        | ok r h => simp [hcall] at hr
        | error y h =>
          obtain ⟨p, rfl⟩ := hends y h hcall
          simp only [hcall] at hr
          cases hr
          exact ⟨p, rfl⟩
      · split_ifs at hr <;> cases hr

theorem invoke_returns_or_escapes (hu : rt.strategy = .unwind)
    (hcb : ∀ cb, l.callee name = some cb → ReturnsOrPanics (cb.run input) l.heap) :
    Returns (ffiInvokeCallback rt name input) l ∨ Escapes (ffiInvokeCallback rt name input) l := by
  cases hn : cstrToString name with
  | error e =>
    rw [returns_congr (run_invoke_invalid hn), escapes_congr (run_invoke_invalid hn)]
    exact err_returns_or_escapes rt e l
  | ok n =>
    rw [ffiInvokeCallback_of_valid hn]
    exact catchPanic_returns_or_escapes hu (invokeBody_returnsOrPanics hn hcb)

end

/-- Under the unwind strategy, `catch_panic` and `ffi_invoke_callback` come back exactly when the
message of the error they report, if any, is served, and the payload of a caught panic drops
quietly. Whatever closure or callback returned or panicked, where they do not come back, a
panic of their own error path leaves them. -/
theorem error_path_returns_iff (hu : rt.strategy = .unwind) :
    (∀ (σ : Type) [Component σ Heap] (f : Program σ (Except FfiError FfiBuffer)) (s : σ),
      (Returns (catchPanic rt f) s ↔ ErrorPathServed rt f s) ∧
      (ReturnsOrPanics f s → Returns (catchPanic rt f) s ∨ Escapes (catchPanic rt f) s)) ∧
    ∀ (l : Library) name input,
      (Returns (ffiInvokeCallback rt name input) l ↔ InvocationServed rt l name input) ∧
      ((∀ cb, l.callee name = some cb → ReturnsOrPanics (cb.run input) l.heap) →
        Returns (ffiInvokeCallback rt name input) l ∨ Escapes (ffiInvokeCallback rt name input) l) :=
  ⟨fun _ _ _ _ => ⟨returns_catchPanic_iff hu, catchPanic_returns_or_escapes hu⟩,
    fun _ _ _ => ⟨returns_invoke_iff hu, invoke_returns_or_escapes hu⟩⟩

/-- An error whose message is served comes back. -/
theorem error_path_returns_timeout :
    Returns (catchPanic (.granting .unwind) (pure (.error .timeout))) Heap.empty :=
  ((@error_path_returns_iff (.granting .unwind) rfl).1 Heap _ _).1.mpr
    (show Runtime.Serves _ _ _ from ⟨by decide, rfl⟩)

/-- An error whose message is refused leaves `catch_panic` as a panic. -/
theorem refused_message_escapes :
    ¬ Returns (catchPanic (.refusing .unwind) (pure (.error .timeout))) Heap.empty ∧
    Escapes (catchPanic (.refusing .unwind) (pure (.error .timeout))) Heap.empty := by
  have hr : (catchPanic (.refusing .unwind) (pure (.error .timeout))).run Heap.empty =
    .error (.panic (.str "ffi_string_alloc: out of memory")) Heap.empty.refuse := rfl
  exact ⟨not_returns hr, _, _, hr, .inr ⟨_, rfl⟩⟩

end FfiBridge
