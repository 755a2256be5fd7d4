import FfiBridge.Foundation.Execution
import FfiBridge.Rust.Callback

/-! # What C supplies, as raw words

`ffi_register_callback` takes its pointer as an `extern "C" fn`, which a null pointer is not,
and a callback's result comes back as an `FfiResult`, whose error code is one of ten. C has no
such types. Here both are words, and each use of a word as a value of its Rust type is
recorded; the two functions use what they are given and look at none of it first.
-/
namespace FfiBridge.Raw
open Foundation

/-! ## Words and the Rust types -/

/-- A pointer word, null being 0. -/
abbrev Word := UInt64

/-- `extern "C" fn`: a pointer that is not null. -/
structure FnPointer where
  word : Word
  ne_null : word ≠ 0

/-- The function pointer a word is, if it is one. -/
def FnPointer.ofWord? (cb : Word) : Option FnPointer := if hc : cb ≠ 0 then some ⟨cb, hc⟩ else none

/-- A word used as a value of a Rust type: the argument of a registration, a registered
pointer that is called, and the error code of the result that comes back. -/
inductive Use where
  | registered (cb : Word)
  | called (cb : Word)
  | returned (errorCode : Int32)
  deriving DecidableEq, Repr

/-- The word is a value of the type it is used as. -/
def Use.Defined : Use → Prop
  | registered cb => (FnPointer.ofWord? cb).isSome
  | called cb => (FnPointer.ofWord? cb).isSome
  | returned errorCode => (FfiErrorCode.ofBits? errorCode).isSome

instance : DecidablePred Use.Defined := fun u => by
  cases u <;> exact inferInstanceAs (Decidable (_ = true))

theorem ofWord?_isSome {cb : Word} : (FnPointer.ofWord? cb).isSome ↔ cb ≠ 0 := by
  unfold FnPointer.ofWord?
  split_ifs with hc
  · exact iff_of_true rfl hc
  · exact iff_of_false (by simp) hc

theorem ofBits?_isSome {errorCode : Int32} :
    (FfiErrorCode.ofBits? errorCode).isSome ↔ ∃ c : FfiErrorCode, errorCode = c.bits := by
  simp only [Option.isSome_iff_exists, FfiErrorCode.ofBits?_eq_some]

/-! ## The functions -/

/-- `FfiResult` as C fills it in. -/
structure Result where
  errorCode : Int32
  errorMessage : FfiString
  payload : FfiBuffer

/-- C code with the signature `FfiCallback`. -/
structure Code where
  run : FfiBuffer → Rust Result
  history : ∀ input, Respects Heap.Later (run input)

/-- The machine under the Rust code: what runs when a word is called, and what a word is taken
for that is used as an error code. The ten discriminants are taken for their codes; any
other use is undefined, and nothing is known of it. -/
structure Machine where
  entry : Word → Code
  read : Int32 → FfiErrorCode
  read_bits : ∀ c : FfiErrorCode, read c.bits = c

/-- The library, whose closures `move |buf| cb(buf)` are their pointers, with the uses of words
so far, newest first. -/
structure Library where
  heap : Heap
  callbacks : Finmap (fun _ : String => Word)
  poisoned : Bool
  uses : List Use

instance : Component Library Heap where
  get l := l.heap
  put h l := { l with heap := h }
  get_put _ _ := rfl
  put_get _ := rfl
  put_put _ _ _ := rfl

/-- A library just loaded. -/
def Library.loaded (h : Heap) : Library := ⟨h, ∅, false, []⟩

/-- Record that a word is used. -/
def used (u : Use) : Program Library Unit := modify fun l => { l with uses := u :: l.uses }

/-- `CALLBACKS.lock()`, with `onPoison` for the error of a poisoned lock. -/
def lockCallbacks {α : Type} (onPoison : α) (m : Program Library α) : Program Library α :=
  fun l => if l.poisoned then .ok onPoison l else m.run l

theorem run_lockCallbacks_poisoned {α : Type} {a : α} {m : Program Library α} {l : Library}
    (hp : l.poisoned = true) : (lockCallbacks a m).run l = .ok a l := if_pos hp

theorem run_lockCallbacks {α : Type} {a : α} {m : Program Library α} {l : Library}
    (hp : l.poisoned = false) : (lockCallbacks a m).run l = m.run l := if_neg (by simp [hp])

/-- `ffi_register_callback`. -/
def ffiRegisterCallback (name : Option (List UInt8)) (cb : Word) : Program Library ℤ := do
  used (.registered cb)
  match cstrToString name with
  | .error _ => return -1
  | .ok nameStr => lockCallbacks (-2) do
    modify fun l => { l with callbacks := l.callbacks.insert nameStr cb }
    return 0

variable (rt : Runtime) (mc : Machine)

/-- `cb(buf)` while the guard is alive. -/
def call (cb : Word) (input : FfiBuffer) : Program Library FfiResult := fun l =>
  match ((mc.entry cb).run input).run l.heap with
  | .ok r h => .ok ⟨mc.read r.errorCode, r.errorMessage, r.payload⟩
      { l with heap := h, uses := .returned r.errorCode :: .called cb :: l.uses }
  | .error (.panic p) h => .error (.panic p)
      { l with heap := h, poisoned := true, uses := .called cb :: l.uses }
  | .error e h => .error e { l with heap := h, uses := .called cb :: l.uses }

theorem run_call (cb : Word) (input : FfiBuffer) (l : Library) :
    (call mc cb input).run l = match ((mc.entry cb).run input).run l.heap with
      | .ok r h => .ok ⟨mc.read r.errorCode, r.errorMessage, r.payload⟩
          { l with heap := h, uses := .returned r.errorCode :: .called cb :: l.uses }
      | .error (.panic p) h => .error (.panic p)
          { l with heap := h, poisoned := true, uses := .called cb :: l.uses }
      | .error e h => .error e { l with heap := h, uses := .called cb :: l.uses } := rfl

/-- The closure `ffi_invoke_callback` hands to `catch_panic`. -/
def invokeBody (nameStr : String) (input : FfiBuffer) :
    Program Library (Except FfiError FfiBuffer) :=
  lockCallbacks (.error .lockPoisoned) do
    match (← get).callbacks.lookup nameStr with
    | none => return .error (.notFound nameStr)
    | some cb =>
      let result ← call mc cb input
      if result.isOk then return .ok result.payload
      else return .error (.unknown (callbackErrorText nameStr result.errorCode))

/-- `ffi_invoke_callback`. -/
def ffiInvokeCallback (name : Option (List UInt8)) (input : FfiBuffer) : Program Library FfiResult :=
  match cstrToString name with
  | .error e => within (FfiResult.err rt e)
  | .ok nameStr => catchPanic rt (invokeBody mc nameStr input)

/-! ## The same functions on Rust types -/

namespace Machine

/-- What Rust sees of a word it calls. -/
def callbackFn (cb : Word) : CallbackFn where
  run input := do
    let r ← (mc.entry cb).run input
    return ⟨mc.read r.errorCode, r.errorMessage, r.payload⟩
  history input := ((mc.entry cb).history input).bind fun _ => .pure _

end Machine

/-- The registry `t` of closures is what Rust sees of the registry `l` of words. -/
structure Seen (l : Library) (t : FfiBridge.Library) : Prop where
  heap : l.heap = t.heap
  callbacks : ∀ n, t.callbacks.lookup n = (l.callbacks.lookup n).map mc.callbackFn
  poisoned : l.poisoned = t.poisoned

variable {rt mc} {name : Option (List UInt8)} {n : String} {input : FfiBuffer} {cb : Word}

theorem Seen.insert {l : Library} {t : FfiBridge.Library} (h : Seen mc l t) (n : String) (cb : Word) :
    Seen mc { l with callbacks := l.callbacks.insert n cb }
      { t with callbacks := t.callbacks.insert n (mc.callbackFn cb) } where
  heap := h.heap
  callbacks k := by
    by_cases hk : k = n
    · subst hk
      rw [Finmap.lookup_insert, Finmap.lookup_insert]
      rfl
    · rw [Finmap.lookup_insert_of_ne _ hk, Finmap.lookup_insert_of_ne _ hk]
      exact h.callbacks k
  poisoned := h.poisoned

theorem lockCallbacks_alike {α : Type} {a : α} {m : Program Library α}
    {m' : Program FfiBridge.Library α} (hm : RunAlike (Seen mc) m m') :
    RunAlike (Seen mc) (lockCallbacks a m) (FfiBridge.lockCallbacks a m') := by
  intro l t h
  cases hp : l.poisoned with
  | true =>
    rw [run_lockCallbacks_poisoned hp, FfiBridge.run_lockCallbacks_poisoned (h.poisoned.symm.trans hp)]
    exact .ok a h
  | false =>
    rw [run_lockCallbacks hp, FfiBridge.run_lockCallbacks (h.poisoned.symm.trans hp)]
    exact hm l t h

theorem ffiRegisterCallback_alike : RunAlike (Seen mc) (ffiRegisterCallback name cb)
    (FfiBridge.ffiRegisterCallback name (mc.callbackFn cb)) := by
  have hused : ∀ l t, Seen mc l t → Seen mc { l with uses := .registered cb :: l.uses } t :=
    fun l t h => ⟨h.heap, h.callbacks, h.poisoned⟩
  intro l t h
  unfold ffiRegisterCallback FfiBridge.ffiRegisterCallback
  rw [bind_of_ok (show (used (.registered cb)).run l = .ok () _ from rfl)]
  cases cstrToString name with
  | error e => exact .ok _ (hused l t h)
  | ok n =>
    refine lockCallbacks_alike ?_ _ t (hused l t h)
    exact (RunAlike.modify fun l t h => h.insert n cb).bind fun _ => .pure 0

theorem call_alike : RunAlike (Seen mc) (call mc cb input) ((mc.callbackFn cb).call input) := by
  intro l t h
  rw [run_call, CallbackFn.run_call, h.heap]
  cases hr : ((mc.entry cb).run input).run t.heap with
  | ok r g =>
    have hf : ((mc.callbackFn cb).run input).run t.heap = .ok _ g := bind_of_ok hr _
    rw [hf]
    exact .ok _ ⟨rfl, h.callbacks, h.poisoned⟩
  | error e g =>
    have hf : ((mc.callbackFn cb).run input).run t.heap = .error e g := bind_of_error hr _
    rw [hf]
    cases e with
    | panic p => exact .error _ ⟨rfl, h.callbacks, rfl⟩
    | _ => exact .error _ ⟨rfl, h.callbacks, h.poisoned⟩

theorem invokeBody_alike :
    RunAlike (Seen mc) (invokeBody mc n input) (FfiBridge.invokeBody n input) := by
  refine lockCallbacks_alike (.get fun l t h => ?_)
  rw [h.callbacks n]
  cases l.callbacks.lookup n with
  | none => exact .ok _ h
  | some cb => exact (call_alike.bind fun r => .ite (.pure _) (.pure _)) l t h

/-- Errors are made on the heap, which both registries share. -/
theorem err_alike (e : FfiError) : RunAlike (Seen mc)
    (within (FfiResult.err rt e) : Program Library FfiResult)
    (within (FfiResult.err rt e) : Program FfiBridge.Library FfiResult) :=
  .within _ (fun _ _ h => h.heap) fun _ _ h _ => ⟨rfl, h.callbacks, h.poisoned⟩

theorem ffiInvokeCallback_alike : RunAlike (Seen mc) (ffiInvokeCallback rt mc name input)
    (FfiBridge.ffiInvokeCallback rt name input) := by
  unfold ffiInvokeCallback FfiBridge.ffiInvokeCallback
  cases cstrToString name with
  | error e => exact err_alike e
  | ok n => exact catchPanic_alike invokeBody_alike err_alike

/-! ## Histories of calls from C -/

inductive Op where
  | ffiRegisterCallback (name : Option (List UInt8)) (cb : Word)
  | ffiInvokeCallback (name : Option (List UInt8)) (input : FfiBuffer)

variable (rt mc) in
/-- The library when the call has returned, or has stopped. -/
def Op.after (op : Op) (l : Library) : Library :=
  match op with
  | .ffiRegisterCallback name cb => final ((Raw.ffiRegisterCallback name cb).run l)
  | .ffiInvokeCallback name input => final ((Raw.ffiInvokeCallback rt mc name input).run l)

/-- The pointer an invocation of `name` calls, if any. -/
def Library.callee (l : Library) (name : Option (List UInt8)) : Option Word :=
  match cstrToString name with
  | .error _ => none
  | .ok n => if l.poisoned then none else l.callbacks.lookup n

variable (mc) in
/-- The words used when `cb` is called. -/
def callUses (cb : Word) (input : FfiBuffer) (h : Heap) : List Use :=
  match ((mc.entry cb).run input).run h with
  | .ok r _ => [.returned r.errorCode, .called cb]
  | .error _ _ => [.called cb]

variable (mc) in
/-- The words a call from C uses, newest first. -/
def Op.uses (l : Library) : Op → List Use
  | .ffiRegisterCallback _ cb => [.registered cb]
  | .ffiInvokeCallback name input => (l.callee name).elim [] (callUses mc · input l.heap)

variable (mc) in
/-- What C would have to give: a pointer that is not null, and from a callback that returns
one of the ten error codes. -/
def Op.Supplied (l : Library) : Op → Prop
  | .ffiRegisterCallback _ cb => cb ≠ 0
  | .ffiInvokeCallback name input =>
    ∀ cb, l.callee name = some cb → ∀ r h, ((mc.entry cb).run input).run l.heap = .ok r h →
      ∃ c : FfiErrorCode, r.errorCode = c.bits

/-- One call from C, which has made `heap` of the memory in between. -/
structure Call where
  heap : Heap
  op : Op

/-- The library with another heap. -/
def Library.withHeap (l : Library) (h : Heap) : Library := { l with heap := h }

variable (rt mc) in
def Call.Step (l : Library) (c : Call) (l' : Library) : Prop := c.op.after rt mc (l.withHeap c.heap) = l'

variable (mc) in
def Call.Supplied (l : Library) (c : Call) : Prop := c.op.Supplied mc (l.withHeap c.heap)

variable {l l' : Library} {op : Op} {c : Call} {cs : List Call} {h₀ : Heap}

/-- Making an error uses no word and registers nothing. -/
theorem err_quiet (e : FfiError) :
    Respects (fun l l' : Library => l'.uses = l.uses ∧ l'.callbacks = l.callbacks)
      (within (FfiResult.err rt e)) := by
  intro l
  rw [final_within]
  exact ⟨rfl, rfl⟩

instance : Std.Refl fun l l' : Library => l'.uses = l.uses ∧ l'.callbacks = l.callbacks :=
  ⟨fun _ => ⟨rfl, rfl⟩⟩

theorem Library.callee_of_invalid {e : FfiError} (hn : cstrToString name = .error e) :
    l.callee name = none := by
  unfold callee
  rw [hn]

theorem Library.callee_of_valid (hn : cstrToString name = .ok n) :
    l.callee name = if l.poisoned then none else l.callbacks.lookup n := by
  unfold callee
  rw [hn]

theorem Library.registered_of_callee (hc : l.callee name = some cb) :
    ∃ n, l.callbacks.lookup n = some cb := by
  cases hn : cstrToString name with
  | error e => cases (callee_of_invalid hn).symm.trans hc
  | ok n =>
    rw [callee_of_valid hn] at hc
    split_ifs at hc
    exact ⟨n, hc⟩

theorem call_uses (cb : Word) (input : FfiBuffer) (l : Library) :
    (final ((call mc cb input).run l)).uses = callUses mc cb input l.heap ++ l.uses ∧
      (final ((call mc cb input).run l)).callbacks = l.callbacks := by
  rw [run_call]
  unfold callUses
  cases ((mc.entry cb).run input).run l.heap with
  | ok r h => exact ⟨rfl, rfl⟩
  | error e h => cases e <;> exact ⟨rfl, rfl⟩

/-- The body of an invocation leaves the library as its call of the callee does, if it makes one. -/
theorem final_invokeBody (hn : cstrToString name = .ok n) :
    final ((invokeBody mc n input).run l) =
      (l.callee name).elim l fun cb => final ((call mc cb input).run l) := by
  unfold invokeBody
  rw [Library.callee_of_valid hn]
  cases hp : l.poisoned with
  | true =>
    rw [run_lockCallbacks_poisoned hp]
    rfl
  | false =>
    rw [run_lockCallbacks hp, EStateM.run_bind, EStateM.run_get, if_neg Bool.false_ne_true]
    cases hl : l.callbacks.lookup n with
    | none =>
      simp only [hl]
      rfl
    | some cb =>
      simp only [hl]
      refine final_bind_of_state _ (fun r l' => ?_) l
      split <;> rfl

/-- An invocation uses the pointer under the name, if it gets that far, and registers nothing. -/
theorem invoke_uses :
    (final ((ffiInvokeCallback rt mc name input).run l)).uses =
      (Op.ffiInvokeCallback name input).uses mc l ++ l.uses ∧
    (final ((ffiInvokeCallback rt mc name input).run l)).callbacks = l.callbacks := by
  unfold ffiInvokeCallback
  cases hn : cstrToString name with
  | error e =>
    rw [Op.uses, Library.callee_of_invalid hn]
    exact err_quiet e l
  | ok n =>
    obtain ⟨hu, hc⟩ := catchPanic_after rt (s := l) (invokeBody mc n input) err_quiet
    rw [hu, hc, final_invokeBody hn, Op.uses]
    cases l.callee name with
    | none => exact ⟨rfl, rfl⟩
    | some cb => exact call_uses cb input l

/-- A registration uses its argument, whatever becomes of it. -/
theorem register_uses :
    (final ((ffiRegisterCallback name cb).run l)).uses = .registered cb :: l.uses ∧
    ∀ k, (final ((ffiRegisterCallback name cb).run l)).callbacks.lookup k = some cb ∨
      (final ((ffiRegisterCallback name cb).run l)).callbacks.lookup k = l.callbacks.lookup k := by
  obtain ⟨l₁, hl₁⟩ : ∃ l₁, l₁ = { l with uses := .registered cb :: l.uses } := ⟨_, rfl⟩
  have hu : l₁.uses = .registered cb :: l.uses := by rw [hl₁]
  have hc : l₁.callbacks = l.callbacks := by rw [hl₁]
  unfold ffiRegisterCallback
  rw [bind_of_ok (show (used (.registered cb)).run l = .ok () l₁ by rw [hl₁]; rfl), ← hu, ← hc]
  cases cstrToString name with
  | error e => exact ⟨rfl, fun _ => .inr rfl⟩
  | ok n =>
    simp only
    cases hp : l₁.poisoned with
    | true =>
      rw [run_lockCallbacks_poisoned hp]
      exact ⟨rfl, fun _ => .inr rfl⟩
    | false =>
      rw [run_lockCallbacks hp]
      refine ⟨rfl, fun k => ?_⟩
      by_cases hk : k = n
      · subst hk
        exact .inl (Finmap.lookup_insert _)
      · exact .inr (Finmap.lookup_insert_of_ne _ hk)

theorem after_uses : (op.after rt mc l).uses = op.uses mc l ++ l.uses := by
  cases op with
  | ffiRegisterCallback name cb => exact register_uses.1
  | ffiInvokeCallback name input => exact invoke_uses.1

/-! ## Which histories use values only -/

/-- Every registered pointer is a function pointer. -/
def Library.NonNull (l : Library) : Prop := ∀ n cb, l.callbacks.lookup n = some cb → cb ≠ 0

theorem nonNull_after (hs : op.Supplied mc l) (hl : l.NonNull) : (op.after rt mc l).NonNull := by
  intro k cb' hk
  cases op with
  | ffiRegisterCallback name cb =>
    rcases (@register_uses name cb l).2 k with hnew | hold
    · cases hnew.symm.trans hk
      exact hs
    · exact hl k cb' (hold.symm.trans hk)
  | ffiInvokeCallback name input =>
    have hsame : (Op.after rt mc (.ffiInvokeCallback name input) l).callbacks = l.callbacks :=
      invoke_uses.2
    exact hl k cb' (hsame ▸ hk)

theorem callUses_defined_iff {h : Heap} : (∀ u ∈ callUses mc cb input h, u.Defined) ↔
    cb ≠ 0 ∧ ∀ r h', ((mc.entry cb).run input).run h = .ok r h' →
      ∃ c : FfiErrorCode, r.errorCode = c.bits := by
  unfold callUses
  cases hr : ((mc.entry cb).run input).run h with
  | ok r h' => simp [Use.Defined, ofWord?_isSome, ofBits?_isSome, and_comm]
  | error e h' => simp [Use.Defined, ofWord?_isSome]

/-- A call from C uses values only, exactly when C supplies values. -/
theorem uses_defined_iff_supplied (hl : l.NonNull) :
    (∀ u ∈ op.uses mc l, u.Defined) ↔ op.Supplied mc l := by
  cases op with
  | ffiRegisterCallback name cb => simp [Op.uses, Op.Supplied, Use.Defined, ofWord?_isSome]
  | ffiInvokeCallback name input =>
    unfold Op.uses Op.Supplied
    cases hc : l.callee name with
    | none => simp [hc]
    | some cb =>
      obtain ⟨n, hn⟩ := Library.registered_of_callee hc
      simp [hc, callUses_defined_iff, hl n cb hn]

theorem supplied_run (hrun : Execution (Guarded (Call.Step rt mc) (Call.Supplied mc)) (.loaded h₀) cs l) :
    l.NonNull ∧ ∀ u ∈ l.uses, u.Defined := by
  induction hrun with
  | refl =>
    refine ⟨fun n cb hc => ?_, fun _ hu => absurd hu List.not_mem_nil⟩
    cases (Finmap.lookup_empty n).symm.trans hc
  | @step cs l l' c _ hstep ih =>
    obtain ⟨rfl, hs⟩ := hstep
    have hl : (l.withHeap c.heap).NonNull := ih.1
    refine ⟨nonNull_after hs hl, fun u hu => ?_⟩
    rw [after_uses] at hu
    rcases List.mem_append.mp hu with hnew | hold
    · exact (uses_defined_iff_supplied hl).mpr hs u hnew
    · exact ih.2 u hold

/-- Uses are never forgotten, so where all were of values C has supplied values all along. -/
theorem supplied_of_defined (hrun : Execution (Call.Step rt mc) (.loaded h₀) cs l)
    (hd : ∀ u ∈ l.uses, u.Defined) :
    Execution (Guarded (Call.Step rt mc) (Call.Supplied mc)) (.loaded h₀) cs l := by
  induction hrun with
  | refl => exact .refl
  | @step cs l l' c _ hstep ih =>
    obtain rfl := hstep
    rw [after_uses] at hd
    have hguarded := ih fun u hu => hd u (List.mem_append_right _ hu)
    have hl : (l.withHeap c.heap).NonNull := (supplied_run hguarded).1
    refine .step hguarded ⟨rfl, (uses_defined_iff_supplied hl).mp fun u hu => ?_⟩
    exact hd u (List.mem_append_left _ hu)

/-- Every state of words that is reached is seen by Rust as a registry of closures. -/
theorem seen_of_run (hrun : Execution (Call.Step rt mc) (.loaded h₀) cs l) :
    ∃ t, Seen mc l t := by
  induction hrun with
  | refl => exact ⟨⟨h₀, ∅, false, []⟩, rfl, fun _ => rfl, rfl⟩
  | @step cs l l' c _ hstep ih =>
    obtain ⟨t, ht⟩ := ih
    have hc : Seen mc (l.withHeap c.heap) { t with heap := c.heap } := ⟨rfl, ht.callbacks, ht.poisoned⟩
    obtain rfl := hstep
    cases hop : c.op with
    | ffiRegisterCallback name cb => exact ⟨_, (ffiRegisterCallback_alike _ _ hc).final⟩
    | ffiInvokeCallback name input => exact ⟨_, (ffiInvokeCallback_alike _ _ hc).final⟩

theorem Seen.callee {t : FfiBridge.Library} (h : Seen mc l t) (hc : l.callee name = some cb) :
    t.callee name = some (mc.callbackFn cb) := by
  cases hn : cstrToString name with
  | error e => cases (Library.callee_of_invalid hn).symm.trans hc
  | ok n =>
    rw [Library.callee_of_valid hn] at hc
    split_ifs at hc with hp
    refine FfiBridge.Library.callee_eq_some.mpr ⟨n, hn, ?_, ?_⟩
    · rw [← h.poisoned]
      simpa using hp
    · rw [h.callbacks, hc]
      rfl

/-- With one of the ten codes, a callback's result is a success or an error as its code says. -/
theorem invoke_answers {t : FfiBridge.Library} {r : Result} {h : Heap} {out : FfiResult}
    {code : FfiErrorCode} (ht : Seen mc l t) (hc : l.callee name = some cb)
    (hr : ((mc.entry cb).run input).run l.heap = .ok r h) (hcode : r.errorCode = code.bits)
    (hout : (ffiInvokeCallback rt mc name input).run l = .ok out l') :
    if r.errorCode = 0 then out = .ok r.payload else out.errorCode = .unknown := by
  have hend := @ffiInvokeCallback_alike rt mc name input l t ht
  rw [hout] at hend
  obtain ⟨t', ho, -⟩ := hend.of_ok
  have hcallee := ht.callee hc
  have hrun : ((mc.callbackFn cb).run input).run t.heap =
      .ok ⟨mc.read r.errorCode, r.errorMessage, r.payload⟩ h := by
    rw [← ht.heap]
    exact bind_of_ok hr _
  have hread : mc.read r.errorCode = code := by rw [hcode, mc.read_bits]
  cases invocationEnd_of_ok ho with
  | notEntered e hc' => cases hcallee.symm.trans hc'
  | success hc' hr' hok =>
    cases hcallee.symm.trans hc'
    cases hrun.symm.trans hr'
    have hz : code = .ok := hread.symm.trans (of_decide_eq_true hok)
    rw [if_pos (by rw [hcode, hz]; rfl)]
  | error hn hc' hr' hok ho' =>
    cases hcallee.symm.trans hc'
    cases hrun.symm.trans hr'
    have hz : code ≠ .ok := fun hz => of_decide_eq_false hok (hread.trans hz)
    rw [if_neg (by rw [hcode, FfiErrorCode.bits_eq_zero]; exact hz)]
    exact (err_of_within ho').2.2.1
  | panicked hc' hr' =>
    cases hcallee.symm.trans hc'
    cases hrun.symm.trans hr'

/-- A history uses values only, exactly when C supplies values at every step of it: pointers
that are not null, and the ten error codes. A code from such a callback then comes back as the
success or the error it is, whatever the machine makes of other words. -/
theorem uses_defined_iff (hrun : Execution (Call.Step rt mc) (.loaded h₀) cs l) :
    ((∀ u ∈ l.uses, u.Defined) ↔
      Execution (Guarded (Call.Step rt mc) (Call.Supplied mc)) (.loaded h₀) cs l) ∧
    ∀ name input g cb r h out l', (l.withHeap g).callee name = some cb →
      ((mc.entry cb).run input).run g = .ok r h → (∃ c : FfiErrorCode, r.errorCode = c.bits) →
      (ffiInvokeCallback rt mc name input).run (l.withHeap g) = .ok out l' →
      if r.errorCode = 0 then out = .ok r.payload else out.errorCode = .unknown := by
  refine ⟨⟨supplied_of_defined hrun, fun hg => (supplied_run hg).2⟩, ?_⟩
  rintro name input g cb r h out l' hc hr ⟨code, hcode⟩ hout
  obtain ⟨t, ht⟩ := seen_of_run hrun
  have hg : Seen mc (l.withHeap g) { t with heap := g } := ⟨rfl, ht.callbacks, ht.poisoned⟩
  exact invoke_answers hg hc hr hcode hout

/-! ## One registration and one invocation -/

/-- The machine on which every callback answers with the same error code. -/
def Machine.answering (errorCode : Int32) : Machine where
  entry _ := ⟨fun _ => pure ⟨errorCode, .null, .null⟩, fun _ => .pure _⟩
  read b := (FfiErrorCode.ofBits? b).getD .unknown
  read_bits c := by rw [FfiErrorCode.ofBits?_bits]; rfl

/-- `cb` is registered as "c", and "c" is invoked. -/
def onceInvoked (cb : Word) : List Call :=
  [⟨.empty, .ffiInvokeCallback (some [99]) .null⟩, ⟨.empty, .ffiRegisterCallback (some [99]) cb⟩]

theorem onceInvoked_uses (cb : Word) (errorCode : Int32) :
    ∃ l, Execution (Call.Step (.granting .unwind) (.answering errorCode)) (.loaded .empty)
        (onceInvoked cb) l ∧ l.uses = [.returned errorCode, .called cb, .registered cb] := by
  refine ⟨_, .step (.step .refl rfl) rfl, ?_⟩
  rw [after_uses]
  rfl

/-- A callback that answers `FFI_ERR_TIMEOUT`. -/
theorem uses_defined_iff_timeout : ∃ l,
    Execution (Call.Step (.granting .unwind) (.answering 6)) (.loaded .empty) (onceInvoked 1) l ∧
      ∀ u ∈ l.uses, u.Defined := by
  have hregister : Execution (Guarded (Call.Step (.granting .unwind) (.answering 6))
      (Call.Supplied (.answering 6))) (.loaded .empty)
      [⟨.empty, .ffiRegisterCallback (some [99]) 1⟩] _ :=
    .single ⟨rfl, (by decide : (1 : Word) ≠ 0)⟩
  have hinvoke : Execution (Guarded (Call.Step (.granting .unwind) (.answering 6))
      (Call.Supplied (.answering 6))) (.loaded .empty) (onceInvoked 1) _ :=
    .step hregister ⟨rfl, fun cb _ r h hr => by cases hr; exact ⟨.timeout, rfl⟩⟩
  exact ⟨_, hinvoke.of_guarded, (uses_defined_iff hinvoke.of_guarded).1.mpr hinvoke⟩

/-- A null pointer is registered and called, and a code that is none of the ten is read. -/
theorem null_callback_called :
    (∃ l, (ffiRegisterCallback (some [99]) 0).run (.loaded .empty) = .ok 0 l) ∧
    (∃ l, Execution (Call.Step (.granting .unwind) (.answering 0)) (.loaded .empty)
      (onceInvoked 0) l ∧ .called 0 ∈ l.uses ∧ ¬ Use.Defined (.called 0)) ∧
    ∃ l, Execution (Call.Step (.granting .unwind) (.answering 42)) (.loaded .empty)
      (onceInvoked 1) l ∧ .returned 42 ∈ l.uses ∧ ¬ Use.Defined (.returned 42) := by
  obtain ⟨l, hl, hu⟩ := onceInvoked_uses 0 0
  obtain ⟨l', hl', hu'⟩ := onceInvoked_uses 1 42
  refine ⟨⟨_, rfl⟩, ⟨l, hl, ?_, by decide⟩, ⟨l', hl', ?_, by decide⟩⟩
  · simp [hu]
  · simp [hu']

end FfiBridge.Raw
