import FfiBridge.Foundation.LatestWrite
import FfiBridge.Registry.Operations

/-! # The registry as one map

Seven operations of two APIs work on one map from names to callbacks. What they answer is
read off the history of registrations and removals: the latest one under a name counts,
whichever API it came through. A callback here is the closure with its destructor, which
returns when a registration or a removal drops it.
-/
namespace FfiBridge
open Foundation

variable {rt : Runtime} {l l' : Library} {name : Option (List UInt8)} {n : String}
  {input : FfiBuffer} {cb : CallbackFn} {op : RegistryOp CallbackFn} {answer : RegistryAnswer}
  {es : List (RegistryOp CallbackFn × RegistryAnswer)} {out : FfiResult}
  {ws : List (String × Option CallbackFn)}

/-! ## The map of a history -/

namespace RegistryOp

variable {κ : Type}

/-- What an operation writes into the map: a closure, or nothing over what was there. -/
def writes : RegistryOp κ → Option (String × Option κ)
  | registerCallback name f => some (name, some f)
  | unregisterCallback name => some (name, none)
  | ffiRegisterCallback name cb =>
    match cstrToString name with
    | .ok n => some (n, some cb)
    | .error _ => none
  | ffiUnregisterCallback name =>
    match cstrToString name with
    | .ok n => some (n, none)
    | .error _ => none
  | callbackCount | ffiCallbackCount | ffiInvokeCallback _ _ => none

end RegistryOp

/-- The writes of a history, newest first. -/
def writesOf (es : List (RegistryOp CallbackFn × RegistryAnswer)) :
    List (String × Option CallbackFn) := es.filterMap fun e => e.1.writes

/-- The callback entered by an operation on a map, with its input. -/
def enteredBy (map : String → Option CallbackFn) :
    RegistryOp CallbackFn → List (CallbackFn × FfiBuffer)
  | .ffiInvokeCallback name input =>
    match cstrToString name with
    | .ok n => (map n).toList.map fun cb => (cb, input)
    | .error _ => []
  | _ => []

/-- `out` is the error `e`, with its code and its message and no payload. -/
def FfiResult.Carries (out : FfiResult) (e : FfiError) (h : Heap) : Prop :=
  out.errorCode = e.code ∧ out.payload = .null ∧
    out.errorMessage.asStr.run h = .ok (asBytes e.message) h

/-- What the callback `cb`, found under `n`, makes an invocation answer. -/
def AnswersWith (cb : CallbackFn) (n : String) (input : FfiBuffer) (l l' : Library)
    (out : FfiResult) : Prop :=
  ∃ r h, (cb.run input).run l.heap = .ok r h ∧
    if r.isOk then out = .ok r.payload ∧ l'.heap = h
    else out.Carries (.unknown (callbackErrorText n r.errorCode)) l'.heap

/-- What an operation answers on a map. -/
def AnswersOn (map : String → Option CallbackFn) (l l' : Library) :
    RegistryOp CallbackFn → RegistryAnswer → Prop
  | .registerCallback _ _, .registered r => r = .ok ()
  | .unregisterCallback n, .removed r => r = .ok (map n).isSome
  | .callbackCount, .count k => k = {n | (map n).isSome = true}.ncard
  | .ffiRegisterCallback name _, .status code =>
    match cstrToString name with
    | .ok _ => code = 0
    | .error _ => code = -1
  | .ffiInvokeCallback name input, .result out =>
    match cstrToString name with
    | .ok n =>
      match map n with
      | some cb => AnswersWith cb n input l l' out
      | none => out.Carries (.notFound n) l'.heap
    | .error e => out.Carries e l'.heap
  | .ffiUnregisterCallback name, .status code =>
    match cstrToString name with
    | .ok n => code = if (map n).isSome then 0 else -1
    | .error _ => code = -1
  | .ffiCallbackCount, .count k => k = {n | (map n).isSome = true}.ncard
  | _, _ => False

/-- What an invocation needs to answer: the callback it calls returns, and the message is served
where there is an error to tell of. -/
def AnswerServed (rt : Runtime) (map : String → Option CallbackFn) (name : Option (List UInt8))
    (input : FfiBuffer) (h : Heap) : Prop :=
  match cstrToString name with
  | .error e => rt.ServesMessage h e
  | .ok n =>
    match map n with
    | none => rt.ServesMessage h (.notFound n)
    | some cb => ∃ r h', (cb.run input).run h = .ok r h' ∧
        (r.isOk = false → rt.ServesMessage h' (.unknown (callbackErrorText n r.errorCode)))

/-- The callback an operation enters, if any, does not panic. -/
def EntersNoPanic (l : Library) (op : RegistryOp CallbackFn) : Prop :=
  ∀ name input cb, op = .ffiInvokeCallback name input → l.callee name = some cb →
    ∀ p h, (cb.run input).run l.heap ≠ .error (.panic p) h

/-- An operation of a history without panics. Other code may have used the heap before. -/
def QuietStep (rt : Runtime) (l : Library) (e : RegistryOp CallbackFn × RegistryAnswer)
    (l' : Library) : Prop :=
  ∃ h, RegistryOp.Step rt { l with heap := h } e l' ∧ EntersNoPanic { l with heap := h } e.1

/-! ## One operation -/

/-- What an operation does to the registry and answers, read off the history `ws`. -/
structure OnMap (ws : List (String × Option CallbackFn)) (l l' : Library)
    (op : RegistryOp CallbackFn) (answer : RegistryAnswer) : Prop where
  agrees : Agrees l'.callbacks (op.writes.toList ++ ws)
  unpoisoned : l'.poisoned = false
  calls : l'.calls = enteredBy (latest ws) op ++ l.calls
  answers : AnswersOn (latest ws) l l' op answer

theorem run_registerCallback (hp : l.poisoned = false) :
    (registerCallback n cb).run l = .ok (.ok ()) { l with callbacks := l.callbacks.insert n cb } :=
  run_lockCallbacks hp

theorem run_unregisterCallback (hp : l.poisoned = false) :
    (unregisterCallback n).run l = .ok (.ok (l.callbacks.lookup n).isSome)
      { l with callbacks := l.callbacks.erase n } := run_lockCallbacks hp

theorem run_callbackCount (hp : l.poisoned = false) :
    callbackCount.run l = .ok l.callbacks.keys.card l := run_lockCallbacks hp

theorem run_ffiRegisterCallback (hn : cstrToString name = .ok n) (hp : l.poisoned = false) :
    (ffiRegisterCallback name cb).run l = .ok 0 { l with callbacks := l.callbacks.insert n cb } := by
  unfold ffiRegisterCallback
  simp only [hn]
  exact run_lockCallbacks hp

theorem run_ffiRegisterCallback_invalid {e : FfiError} (hn : cstrToString name = .error e) :
    (ffiRegisterCallback name cb).run l = .ok (-1) l := by
  unfold ffiRegisterCallback
  simp only [hn]
  rfl

theorem run_ffiUnregisterCallback (hn : cstrToString name = .ok n) (hp : l.poisoned = false) :
    (ffiUnregisterCallback name).run l = .ok (if (l.callbacks.lookup n).isSome then 0 else -1)
      { l with callbacks := l.callbacks.erase n } := by
  unfold ffiUnregisterCallback
  simp only [hn]
  exact run_lockCallbacks hp

theorem run_ffiUnregisterCallback_invalid {e : FfiError} (hn : cstrToString name = .error e) :
    (ffiUnregisterCallback name).run l = .ok (-1) l := by
  unfold ffiUnregisterCallback
  simp only [hn]
  rfl

/-- An error made by the library leaves the registry alone. -/
theorem made_of_within {e : FfiError} (ho : (within (FfiResult.err rt e)).run l = .ok out l') :
    out.Carries e l'.heap ∧ l.SameRegistry l' := by
  obtain ⟨-, -, hc, hp, -, hm⟩ := err_of_within ho
  obtain ⟨h, -, rfl⟩ := within_eq_ok.mp ho
  exact ⟨⟨hc, hp, hm⟩, rfl, rfl, rfl⟩

/-- An invocation that returns and whose callback does not panic. -/
theorem invoke_onMap (hm : Agrees l.callbacks ws) (hp : l.poisoned = false)
    (hg : ∀ cb, l.callee name = some cb → ∀ p h, (cb.run input).run l.heap ≠ .error (.panic p) h)
    (ho : (ffiInvokeCallback rt name input).run l = .ok out l') :
    OnMap ws l l' (.ffiInvokeCallback name input) (.result out) := by
  cases hn : cstrToString name with
  | error e =>
    obtain ⟨hcar, hcb, hpo, hca⟩ := made_of_within ((run_invoke_invalid hn).symm.trans ho)
    refine ⟨hcb ▸ hm, hpo.trans hp, ?_, ?_⟩
    · simp only [enteredBy, hn, List.nil_append, hca]
    · simpa only [AnswersOn, hn] using hcar
  | ok n =>
    cases hl : l.callbacks.lookup n with
    | none =>
      have hmap : latest ws n = none := (hm n).symm.trans hl
      obtain ⟨hcar, hcb, hpo, hca⟩ := made_of_within ((run_invoke_notFound hn hp hl).symm.trans ho)
      refine ⟨hcb ▸ hm, hpo.trans hp, ?_, ?_⟩
      · simp only [enteredBy, hn, hmap, Option.toList_none, List.map_nil, List.nil_append, hca]
      · simpa only [AnswersOn, hn, hmap] using hcar
    | some cb =>
      have hmap : latest ws n = some cb := (hm n).symm.trans hl
      have hentered : enteredBy (latest ws) (.ffiInvokeCallback name input) = [(cb, input)] := by
        simp [enteredBy, hn, hmap]
      cases hr : (cb.run input).run l.heap with
      | ok r h =>
        cases hok : r.isOk with
        | true =>
          cases (run_invoke_ok hn hp hl hr hok).symm.trans ho
          refine ⟨hm, hp, by rw [hentered]; rfl, ?_⟩
          simp only [AnswersOn, hn, hmap]
          exact ⟨r, h, hr, by simp [hok]⟩
        | false =>
          obtain ⟨hcar, hcb, hpo, hca⟩ :=
            made_of_within ((run_invoke_error hn hp hl hr hok).symm.trans ho)
          refine ⟨hcb ▸ hm, hpo.trans hp, by rw [hentered, hca]; rfl, ?_⟩
          simp only [AnswersOn, hn, hmap]
          exact ⟨r, h, hr, by simpa [hok] using hcar⟩
      | error e h =>
        have he : ∀ p, e ≠ .panic p := by
          rintro p rfl
          exact hg cb (Library.callee_eq_some.mpr ⟨n, hn, hp, hl⟩) p h hr
        cases (run_invoke_stop he hn hp hl hr).symm.trans ho

/-- An invocation without a panic returns exactly when it is served its answer. -/
theorem invoke_returns_iff (hm : Agrees l.callbacks ws) (hp : l.poisoned = false)
    (hg : ∀ cb, l.callee name = some cb → ∀ p h, (cb.run input).run l.heap ≠ .error (.panic p) h) :
    (∃ out l', (ffiInvokeCallback rt name input).run l = .ok out l') ↔
      AnswerServed rt (latest ws) name input l.heap := by
  have hmade : ∀ {e : FfiError} {t : Library}, (ffiInvokeCallback rt name input).run l =
      (within (FfiResult.err rt e)).run t →
        ((∃ out l', (ffiInvokeCallback rt name input).run l = .ok out l') ↔
          rt.ServesMessage t.heap e) := fun ho =>
    ⟨fun ⟨_, _, hr⟩ => serves_of_err (ho.symm.trans hr), fun hs => ho ▸ err_returns hs⟩
  cases hn : cstrToString name with
  | error e =>
    simp only [AnswerServed, hn]
    exact hmade (run_invoke_invalid hn)
  | ok n =>
    simp only [AnswerServed, hn]
    rw [← hm n]
    cases hl : l.callbacks.lookup n with
    | none => exact hmade (run_invoke_notFound hn hp hl)
    | some cb =>
      cases hr : (cb.run input).run l.heap with
      | ok r h =>
        cases hok : r.isOk with
        | true =>
          exact iff_of_true ⟨_, _, run_invoke_ok hn hp hl hr hok⟩ ⟨r, h, hr, by simp [hok]⟩
        | false =>
          rw [hmade (run_invoke_error hn hp hl hr hok)]
          constructor
          · exact fun hs => ⟨r, h, hr, fun _ => hs⟩
          · rintro ⟨r', h', hr', hs⟩
            cases hr.symm.trans hr'
            exact hs hok
      | error e h =>
        have he : ∀ p, e ≠ .panic p := by
          rintro p rfl
          exact hg cb (Library.callee_eq_some.mpr ⟨n, hn, hp, hl⟩) p h hr
        refine iff_of_false ?_ ?_
        · rintro ⟨out, l', ho⟩
          cases (run_invoke_stop he hn hp hl hr).symm.trans ho
        · rintro ⟨r, h', hr', -⟩
          cases hr.symm.trans hr'

/-- Every operation that returns, and enters no callback that panics. -/
theorem RegistryOp.Step.onMap (hm : Agrees l.callbacks ws) (hp : l.poisoned = false)
    (hs : RegistryOp.Step rt l (op, answer) l') (hg : EntersNoPanic l op) :
    OnMap ws l l' op answer := by
  have hlook : ∀ n, (l.callbacks.lookup n).isSome = (latest ws n).isSome := fun n => by rw [hm n]
  cases op with
  | registerCallback name f =>
    obtain ⟨r, t, hr, ha⟩ := bind_eq_ok.mp hs
    cases (run_registerCallback hp).symm.trans hr
    cases ha
    exact ⟨hm.insert, hp, rfl, rfl⟩
  | unregisterCallback name =>
    obtain ⟨r, t, hr, ha⟩ := bind_eq_ok.mp hs
    cases (run_unregisterCallback hp).symm.trans hr
    cases ha
    exact ⟨hm.erase, hp, rfl, congrArg Except.ok (hlook name)⟩
  | callbackCount =>
    obtain ⟨k, t, hr, ha⟩ := bind_eq_ok.mp hs
    cases (run_callbackCount hp).symm.trans hr
    cases ha
    exact ⟨hm, hp, rfl, hm.card⟩
  | ffiRegisterCallback name cb =>
    obtain ⟨code, t, hr, ha⟩ := bind_eq_ok.mp hs
    cases hn : cstrToString name with
    | error e =>
      cases (run_ffiRegisterCallback_invalid hn).symm.trans hr
      cases ha
      refine ⟨?_, hp, rfl, ?_⟩
      · simp only [RegistryOp.writes, hn]
        exact hm
      · simp only [AnswersOn, hn]
    | ok n =>
      cases (run_ffiRegisterCallback hn hp).symm.trans hr
      cases ha
      refine ⟨?_, hp, rfl, ?_⟩
      · simp only [RegistryOp.writes, hn]
        exact hm.insert
      · simp only [AnswersOn, hn]
  | ffiInvokeCallback name input =>
    obtain ⟨out, t, hr, ha⟩ := bind_eq_ok.mp hs
    cases ha
    exact invoke_onMap hm hp (fun cb hc => hg name input cb rfl hc) hr
  | ffiUnregisterCallback name =>
    obtain ⟨code, t, hr, ha⟩ := bind_eq_ok.mp hs
    cases hn : cstrToString name with
    | error e =>
      cases (run_ffiUnregisterCallback_invalid hn).symm.trans hr
      cases ha
      refine ⟨?_, hp, rfl, ?_⟩
      · simp only [RegistryOp.writes, hn]
        exact hm
      · simp only [AnswersOn, hn]
    | ok n =>
      cases (run_ffiUnregisterCallback hn hp).symm.trans hr
      cases ha
      refine ⟨?_, hp, rfl, ?_⟩
      · simp only [RegistryOp.writes, hn]
        exact hm.erase
      · simp only [AnswersOn, hn, hlook]
  | ffiCallbackCount =>
    obtain ⟨k, t, hr, ha⟩ := bind_eq_ok.mp hs
    cases (run_callbackCount hp).symm.trans hr
    cases ha
    exact ⟨hm, hp, rfl, hm.card⟩

/-! ## Histories -/

/-- Along every history the map is what the latest writes leave, and the lock is not poisoned. -/
theorem history_agrees {h₀ : Heap} (hrun : Execution (QuietStep rt) ⟨h₀, ∅, false, []⟩ es l) :
    Agrees l.callbacks (writesOf es) ∧ l.poisoned = false := by
  induction hrun with
  | refl => exact ⟨.empty, rfl⟩
  | @step es t u e hrun hs ih =>
    obtain ⟨h, hs, hg⟩ := hs
    have hon : OnMap (writesOf es) { t with heap := h } u e.1 e.2 := RegistryOp.Step.onMap ih.1 ih.2 hs hg
    refine ⟨?_, hon.unpoisoned⟩
    have hw : writesOf (e :: es) = e.1.writes.toList ++ writesOf es := by
      unfold writesOf
      rw [List.filterMap_cons]
      cases e.1.writes <;> rfl
    rw [hw]
    exact hon.agrees

/-- `NotFound` is what a name gets under which nothing is registered, and no other. -/
theorem OnMap.notFound_iff (hn : cstrToString name = .ok n)
    (hon : OnMap ws l l' (.ffiInvokeCallback name input) (.result out)) :
    out.errorCode = .notFound ↔ latest ws n = none := by
  have ha := hon.answers
  simp only [AnswersOn, hn] at ha
  cases hmap : latest ws n with
  | none =>
    rw [hmap] at ha
    exact iff_of_true ha.1 rfl
  | some cb =>
    rw [hmap] at ha
    obtain ⟨r, h, -, hr⟩ := ha
    refine iff_of_false (fun hc => ?_) (by simp)
    split_ifs at hr
    · cases hc.symm.trans (congrArg FfiResult.errorCode hr.1)
    · cases hc.symm.trans hr.1

/-- All but an invocation return on an unpoisoned lock. -/
theorem RegistryOp.returns (hp : l.poisoned = false) (op : RegistryOp CallbackFn)
    (hop : ∀ name input, op ≠ .ffiInvokeCallback name input) :
    ∃ answer l', RegistryOp.Step rt l (op, answer) l' := by
  cases op with
  | registerCallback name f => exact ⟨_, _, bind_of_ok (run_registerCallback hp) _⟩
  | unregisterCallback name => exact ⟨_, _, bind_of_ok (run_unregisterCallback hp) _⟩
  | callbackCount => exact ⟨_, _, bind_of_ok (run_callbackCount hp) _⟩
  | ffiRegisterCallback name cb =>
    cases hn : cstrToString name with
    | error e => exact ⟨_, _, bind_of_ok (run_ffiRegisterCallback_invalid hn) _⟩
    | ok n => exact ⟨_, _, bind_of_ok (run_ffiRegisterCallback hn hp) _⟩
  | ffiInvokeCallback name input => exact absurd rfl (hop name input)
  | ffiUnregisterCallback name =>
    cases hn : cstrToString name with
    | error e => exact ⟨_, _, bind_of_ok (run_ffiUnregisterCallback_invalid hn) _⟩
    | ok n => exact ⟨_, _, bind_of_ok (run_ffiUnregisterCallback hn hp) _⟩
  | ffiCallbackCount => exact ⟨_, _, bind_of_ok (run_callbackCount hp) _⟩

/-! ## What is called -/

/-- Making an error calls nothing. -/
theorem err_calls (e : FfiError) :
    Respects (fun l l' : Library => l'.calls = l.calls) (within (FfiResult.err rt e)) := by
  intro l
  rw [final_within]
  rfl

theorem call_calls (cb : CallbackFn) (input : FfiBuffer) (l : Library) :
    (final ((cb.call input).run l)).calls = (cb, input) :: l.calls := by
  rw [CallbackFn.run_call]
  cases (cb.run input).run l.heap with
  | ok r h => rfl
  | error e h => cases e <;> rfl

/-- However an invocation ends, it has called the callback found under the name, once and with
the input, and nothing else. -/
theorem invoke_calls : (final ((ffiInvokeCallback rt name input).run l)).calls =
    (l.callee name).toList.map (·, input) ++ l.calls := by
  cases hn : cstrToString name with
  | error e =>
    rw [run_invoke_invalid hn, err_calls e l]
    simp [Library.callee, hn]
  | ok n =>
    rw [ffiInvokeCallback_of_valid hn, catchPanic_after rt (invokeBody n input) err_calls,
      final_invokeBody hn]
    cases l.callee name with
    | none => rfl
    | some cb => exact call_calls cb input l

/-! ## Names and the two APIs -/

/-- A name is a C string of UTF-8, or fails with the code of what is wrong with it. -/
theorem cstrToString_cases (name : Option (List UInt8)) :
    (∃ memory n, name = some memory ∧ asBytes n = memory.takeWhile (· ≠ 0) ∧
      cstrToString name = .ok n) ∨
    ∃ e, cstrToString name = .error e ∧
      (name = none ∧ e.code = .nullPointer ∨ ∃ memory, name = some memory ∧ e.code = .invalidUtf8 ∧
        ∀ n, asBytes n ≠ memory.takeWhile (· ≠ 0)) := by
  cases name with
  | none => exact .inr ⟨_, rfl, .inl ⟨rfl, rfl⟩⟩
  | some memory =>
    unfold cstrToString
    cases hs : fromUtf8 (memory.takeWhile (· ≠ 0)) with
    | ok n => exact .inl ⟨memory, n, rfl, fromUtf8_eq_ok.mp hs, by simp only [hs]⟩
    | error e =>
      refine .inr ⟨.invalidUtf8 e.toString, by simp only [hs], .inr ⟨memory, rfl, rfl, fun n hn => ?_⟩⟩
      cases hs.symm.trans (fromUtf8_eq_ok.mpr hn)

/-- What the exported operations do with a name that is none. -/
theorem invalid_name_fails {e : FfiError} (hn : cstrToString name = .error e) :
    (ffiRegisterCallback name cb).run l = .ok (-1) l ∧
    (ffiUnregisterCallback name).run l = .ok (-1) l ∧
    ∀ out l', (ffiInvokeCallback rt name input).run l = .ok out l' →
      out.Carries e l'.heap ∧ l.SameRegistry l' :=
  ⟨run_ffiRegisterCallback_invalid hn, run_ffiUnregisterCallback_invalid hn,
    fun _ _ ho => made_of_within ((run_invoke_invalid hn).symm.trans ho)⟩

/-- Both APIs do the same under the same name. -/
theorem native_as_exported (hn : cstrToString name = .ok n) (hp : l.poisoned = false) :
    (∃ l', (registerCallback n cb).run l = .ok (.ok ()) l' ∧
      (ffiRegisterCallback name cb).run l = .ok 0 l') ∧
    (∃ found l', (unregisterCallback n).run l = .ok (.ok found) l' ∧
      (ffiUnregisterCallback name).run l = .ok (if found then 0 else -1) l') ∧
    ∃ k, callbackCount.run l = .ok k l ∧ ffiCallbackCount.run l = .ok k l :=
  ⟨⟨_, run_registerCallback hp, run_ffiRegisterCallback hn hp⟩,
    ⟨_, _, run_unregisterCallback hp, run_ffiUnregisterCallback hn hp⟩,
    ⟨_, run_callbackCount hp, run_callbackCount hp⟩⟩

/-- After every history in which no callback panics, over any use of the heap in between,
operations answer as one map does that holds the latest registrations. An invocation calls
what is registered under the name, once and with the input, and answers `NotFound` exactly
when nothing ever was or it was removed since; it returns with its answer exactly when the
callback it calls returns and the message of an error is served, and all other operations
return. A name that is none changes nothing, and both APIs do the same. -/
theorem registry_refines_map {h₀ : Heap} (hrun : Execution (QuietStep rt) ⟨h₀, ∅, false, []⟩ es l)
    (h : Heap) :
    (∀ op answer l', RegistryOp.Step rt { l with heap := h } (op, answer) l' →
      EntersNoPanic { l with heap := h } op →
        OnMap (writesOf es) { l with heap := h } l' op answer) ∧
    (∀ op, (∀ name input, op ≠ .ffiInvokeCallback name input) →
      ∃ answer l', RegistryOp.Step rt { l with heap := h } (op, answer) l') ∧
    (∀ name input, EntersNoPanic { l with heap := h } (.ffiInvokeCallback name input) →
      ((∃ out l', (ffiInvokeCallback rt name input).run { l with heap := h } = .ok out l') ↔
        AnswerServed rt (latest (writesOf es)) name input h)) ∧
    (∀ name n input, cstrToString name = .ok n →
      (final ((ffiInvokeCallback rt name input).run { l with heap := h })).calls =
        (latest (writesOf es) n).toList.map (·, input) ++ l.calls ∧
      (∀ cb r h', latest (writesOf es) n = some cb → (cb.run input).run h = .ok r h' → r.isOk = true →
        ∃ l', (ffiInvokeCallback rt name input).run { l with heap := h } = .ok (.ok r.payload) l') ∧
      ∀ out l', (ffiInvokeCallback rt name input).run { l with heap := h } = .ok out l' →
        EntersNoPanic { l with heap := h } (.ffiInvokeCallback name input) →
        (out.errorCode = .notFound ↔ (∀ w ∈ writesOf es, w.1 ≠ n) ∨ ∃ newer older,
          writesOf es = newer ++ (n, none) :: older ∧ ∀ w ∈ newer, w.1 ≠ n)) ∧
    (∀ name cb input e, cstrToString name = .error e →
      (name = none ∧ e.code = .nullPointer ∨ ∃ memory, name = some memory ∧ e.code = .invalidUtf8 ∧
        ∀ n, asBytes n ≠ memory.takeWhile (· ≠ 0)) ∧
      (ffiRegisterCallback name cb).run { l with heap := h } = .ok (-1) { l with heap := h } ∧
      (ffiUnregisterCallback name).run { l with heap := h } = .ok (-1) { l with heap := h } ∧
      ∀ out l', (ffiInvokeCallback rt name input).run { l with heap := h } = .ok out l' →
        out.Carries e l'.heap ∧ { l with heap := h }.SameRegistry l') ∧
    ∀ name n cb, cstrToString name = .ok n →
      (∃ l', (registerCallback n cb).run { l with heap := h } = .ok (.ok ()) l' ∧
        (ffiRegisterCallback name cb).run { l with heap := h } = .ok 0 l') ∧
      (∃ found l', (unregisterCallback n).run { l with heap := h } = .ok (.ok found) l' ∧
        (ffiUnregisterCallback name).run { l with heap := h } = .ok (if found then 0 else -1) l') ∧
      ∃ k, callbackCount.run { l with heap := h } = .ok k { l with heap := h } ∧
        ffiCallbackCount.run { l with heap := h } = .ok k { l with heap := h } := by
  obtain ⟨hm, hp⟩ := history_agrees hrun
  have hcallee : ∀ {name n}, cstrToString name = .ok n →
      { l with heap := h }.callee name = latest (writesOf es) n := by
    intro name n hn
    rw [← hm n]
    simp [Library.callee, hn, hp]
  refine ⟨fun op answer l' => RegistryOp.Step.onMap hm hp, RegistryOp.returns (l := { l with heap := h }) hp,
    fun name input hg => ?_, fun name n input hn => ⟨?_, fun cb r h' hl hr hok => ?_, fun out l' ho hg => ?_⟩,
    fun name cb input e hn => ⟨?_, invalid_name_fails hn⟩, fun name n cb hn => native_as_exported hn hp⟩
  · exact invoke_returns_iff (l := { l with heap := h }) hm hp fun cb hc =>
      hg name input cb rfl hc
  · rw [invoke_calls, hcallee hn]
  · exact ⟨_, run_invoke_ok hn hp ((hm n).trans hl) hr hok⟩
  · rw [← latest_eq_none]
    have hs : RegistryOp.Step rt { l with heap := h } (.ffiInvokeCallback name input, .result out) l' :=
      bind_of_ok ho _
    exact OnMap.notFound_iff hn (RegistryOp.Step.onMap (l := { l with heap := h }) hm hp hs hg)
  · rcases cstrToString_cases name with ⟨_, _, -, -, hok⟩ | ⟨e', he, hcases⟩
    · cases hok.symm.trans hn
    · cases he.symm.trans hn
      exact hcases

/-- A callback that was registered through one API and answered, and was removed through the
other: an invocation returns with `NotFound`. -/
theorem registry_refines_map_removed : ∃ l,
    Execution (QuietStep (.granting .unwind)) .empty
      [(.ffiUnregisterCallback (some [97, 0]), .status 0),
        (.ffiInvokeCallback (some [97]) .null, .result (.ok .null)),
        (.registerCallback "a" .returning, .registered (.ok ()))] l ∧
    ∃ out l', (ffiInvokeCallback (.granting .unwind) (some [97]) .null).run { l with heap := .empty } =
      .ok out l' ∧ out.errorCode = .notFound := by
  have hname : cstrToString (some [97]) = .ok "a" := rfl
  have h₁ : Execution (QuietStep (.granting .unwind)) .empty
      [(.registerCallback "a" .returning, .registered (.ok ()))]
      ⟨.empty, Finmap.insert "a" .returning ∅, false, []⟩ :=
    .single ⟨.empty, rfl, fun _ _ _ hc => by cases hc⟩
  have hinvoke : (ffiInvokeCallback (.granting .unwind) (some [97]) .null).run
      ⟨.empty, Finmap.insert "a" .returning ∅, false, []⟩ = .ok (.ok .null)
        ⟨.empty, Finmap.insert "a" .returning ∅, false, [(.returning, .null)]⟩ :=
    run_invoke_ok (l := ⟨.empty, Finmap.insert "a" .returning ∅, false, []⟩) (r := .ok .null)
      (h := .empty) hname rfl (Finmap.lookup_insert ∅) rfl rfl
  have hanswer : RegistryOp.Step (.granting .unwind) ⟨.empty, Finmap.insert "a" .returning ∅, false, []⟩
      (.ffiInvokeCallback (some [97]) .null, .result (.ok .null))
      ⟨.empty, Finmap.insert "a" .returning ∅, false, [(.returning, .null)]⟩ :=
    bind_of_ok hinvoke _
  have h₂ := h₁.step ⟨.empty, hanswer, by
    intro name input cb hop hc p h
    cases hop
    obtain ⟨n, hn, -, hl⟩ := Library.callee_eq_some.mp hc
    cases hname.symm.trans hn
    cases (Finmap.lookup_insert ∅).symm.trans hl
    exact nofun⟩
  have hremove : RegistryOp.Step (.granting .unwind)
      ⟨.empty, Finmap.insert "a" .returning ∅, false, [(.returning, .null)]⟩
      (.ffiUnregisterCallback (some [97, 0]), .status 0)
      ⟨.empty, (Finmap.insert "a" .returning ∅).erase "a", false, [(.returning, .null)]⟩ := rfl
  have h₃ := h₂.step ⟨.empty, hremove, fun _ _ _ hc => by cases hc⟩
  have hquiet : EntersNoPanic
      ⟨.empty, (Finmap.insert "a" .returning ∅).erase "a", false, [(.returning, .null)]⟩
      (.ffiInvokeCallback (some [97]) .null) := by
    intro name input cb hop hc
    cases hop
    obtain ⟨n, hn, -, hl⟩ := Library.callee_eq_some.mp hc
    cases hname.symm.trans hn
    cases hl.symm.trans (Finmap.lookup_erase "a" _)
  obtain ⟨-, -, hreturns, hinvoke, -⟩ := registry_refines_map h₃ .empty
  obtain ⟨out, l', ho⟩ := (hreturns (some [97]) .null hquiet).mpr ⟨by decide, rfl⟩
  exact ⟨_, h₃, out, l', ho, ((hinvoke _ "a" .null hname).2.2 out l' ho hquiet).mpr
    (.inr ⟨[], [("a", some .returning)], rfl, by simp⟩)⟩

end FfiBridge
