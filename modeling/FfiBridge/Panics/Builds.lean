import FfiBridge.Foundation.Until
import FfiBridge.Registry.Operations
import FfiBridge.Rust.Profile
import FfiBridge.Service.Store

/-! # The release build next to the others

The profiles compile the same source, and differ in what `catch_unwind` can do. Whatever a
program does with the library, a release build answers as any other build does, from the same heap
with the same buffers, until a callback panics or aborts under it: there it ends.
-/
namespace FfiBridge
open Foundation

variable {rt : Runtime} {profile : Profile} {p q : Process} {l l' : Library} {α : Type}

/-! ## Callbacks and processes of two builds -/

/-- On the same heap `cb` does what `cb'` does, until it aborts. -/
def CallbackFn.Until (cb cb' : CallbackFn) : Prop :=
  ∀ input, RunsUntil .abort (fun _ => True) Eq (cb.run input) (cb'.run input)

/-- The heaps are the same, and so is what is registered and what was called. -/
structure Library.Alike (l l' : Library) : Prop where
  heap : l.heap = l'.heap
  callbacks : ∀ n, Option.Rel CallbackFn.Until (l.callbacks.lookup n) (l'.callbacks.lookup n)
  poisoned : l.poisoned = l'.poisoned
  calls : List.Forall₂ (fun c c' => c.1.Until c'.1 ∧ c.2 = c'.2) l.calls l'.calls

structure Process.Alike (p q : Process) : Prop where
  library : p.library.Alike q.library
  buffers : p.buffers = q.buffers
  crossings : p.crossings = q.crossings
  frees : p.frees = q.frees

/-- The callback that was called last has panicked or aborted, and the heap is as it left it. -/
def Library.EndedInCallback (l : Library) : Prop :=
  ∃ cb input rest h e, l.calls = (cb, input) :: rest ∧ (cb.run input).run h = .error e l.heap ∧
    (e = .abort ∨ ∃ p, e = .panic p)

/-! ## `catch_panic` -/

/-- The release build stops where a panic would be caught. -/
theorem catchPanic_until {σ τ : Type} [Component σ Heap] [Component τ Heap] {R : σ → τ → Prop}
    {Z : σ → Prop} {f : Program σ (Except FfiError FfiBuffer)}
    {f' : Program τ (Except FfiError FfiBuffer)} (hf : RunsUntil .abort Z R f f')
    (hpanic : ∀ s p s', f.run s = .error (.panic p) s' → Z s')
    (herr : ∀ e, RunAlike R (within (FfiResult.err (rt.under .release) e) : Program σ FfiResult)
      (within (FfiResult.err (rt.under profile) e) : Program τ FfiResult)) :
    RunsUntil .abort Z R (catchPanic (rt.under .release) f) (catchPanic (rt.under profile) f') := by
  intro s t h
  have hend := hf s t h
  cases hr : f.run s with
  | ok r s₁ =>
    rw [hr] at hend
    cases hend with
    | alike hend =>
      obtain ⟨t₁, hr', h₁⟩ := hend.of_ok
      cases r with
      | ok b =>
        rw [run_catchPanic_ok hr, run_catchPanic_ok hr']
        exact .alike (.ok _ h₁)
      | error e =>
        rw [run_catchPanic_err hr, run_catchPanic_err hr']
        exact .alike (herr e _ _ h₁)
  | error e s₁ =>
    by_cases he : ∃ p, e = .panic p
    · obtain ⟨p, rfl⟩ := he
      rw [run_catchPanic_abort rfl hr]
      exact .stopped (hpanic s p s₁ hr)
    · have hne : ∀ p, e ≠ .panic p := fun p hp => he ⟨p, hp⟩
      rw [run_catchPanic_stop hne hr]
      rw [hr] at hend
      cases hend with
      | stopped hz => exact .stopped hz
      | alike hend =>
        obtain ⟨t₁, hr', h₁⟩ := hend.of_error
        rw [run_catchPanic_stop hne hr']
        exact .alike (.error e h₁)

/-! ## The registry -/

theorem Library.Alike.insert {cb cb' : CallbackFn} (h : l.Alike l') (n : String)
    (hc : cb.Until cb') : Library.Alike { l with callbacks := l.callbacks.insert n cb }
      { l' with callbacks := l'.callbacks.insert n cb' } where
  heap := h.heap
  callbacks k := by
    by_cases hk : k = n
    · subst hk
      simpa using hc
    · simpa [Finmap.lookup_insert_of_ne _ hk] using h.callbacks k
  poisoned := h.poisoned
  calls := h.calls

theorem Library.Alike.erase (h : l.Alike l') (n : String) :
    Library.Alike { l with callbacks := l.callbacks.erase n }
      { l' with callbacks := l'.callbacks.erase n } where
  heap := h.heap
  callbacks k := by
    by_cases hk : k = n
    · subst hk
      simp
    · simpa [Finmap.lookup_erase_ne hk] using h.callbacks k
  poisoned := h.poisoned
  calls := h.calls

theorem Library.Alike.isSome (h : l.Alike l') (n : String) :
    (l.callbacks.lookup n).isSome = (l'.callbacks.lookup n).isSome := by
  have hrel := h.callbacks n
  generalize l.callbacks.lookup n = x, l'.callbacks.lookup n = y at hrel
  cases hrel <;> rfl

theorem Library.Alike.keys (h : l.Alike l') : l.callbacks.keys = l'.callbacks.keys := by
  ext n
  rw [Finmap.mem_keys, Finmap.mem_keys, ← Finmap.lookup_isSome, ← Finmap.lookup_isSome, h.isSome]

theorem lockCallbacks_until {a : α} {m m' : Program Library α}
    (hm : RunsUntil .abort Library.EndedInCallback Library.Alike m m') :
    RunsUntil .abort Library.EndedInCallback Library.Alike (lockCallbacks a m)
      (lockCallbacks a m') := by
  intro l l' h
  cases hp : l.poisoned with
  | true =>
    rw [run_lockCallbacks_poisoned hp, run_lockCallbacks_poisoned (h.poisoned.symm.trans hp)]
    exact .alike (.ok a h)
  | false =>
    rw [run_lockCallbacks hp, run_lockCallbacks (h.poisoned.symm.trans hp)]
    exact hm l l' h

/-- A call of two builds of a callback. -/
theorem call_until {cb cb' : CallbackFn} (hc : cb.Until cb') (input : FfiBuffer) :
    RunsUntil .abort Library.EndedInCallback Library.Alike (cb.call input) (cb'.call input) := by
  intro l l' h
  have hend := hc input l.heap l'.heap h.heap
  have hcalls : List.Forall₂ (fun c c' => c.1.Until c'.1 ∧ c.2 = c'.2) ((cb, input) :: l.calls)
      ((cb', input) :: l'.calls) := .cons ⟨hc, rfl⟩ h.calls
  rw [CallbackFn.run_call, CallbackFn.run_call]
  cases hr : (cb.run input).run l.heap with
  | ok r g =>
    rw [hr] at hend
    cases hend with
    | alike hend =>
      obtain ⟨_, hr', rfl⟩ := hend.of_ok
      rw [hr']
      exact .alike (.ok r ⟨rfl, h.callbacks, h.poisoned, hcalls⟩)
  | error e g =>
    rw [hr] at hend
    cases hend with
    | stopped => exact .stopped ⟨cb, input, l.calls, l.heap, .abort, rfl, hr, .inl rfl⟩
    | alike hend =>
      obtain ⟨_, hr', rfl⟩ := hend.of_error
      rw [hr']
      cases e with
      | panic p => exact .alike (.error _ ⟨rfl, h.callbacks, rfl, hcalls⟩)
      | _ => exact .alike (.error _ ⟨rfl, h.callbacks, h.poisoned, hcalls⟩)

theorem invokeBody_until (n : String) (input : FfiBuffer) :
    RunsUntil .abort Library.EndedInCallback Library.Alike (invokeBody n input)
      (invokeBody n input) := by
  refine lockCallbacks_until fun l l' h => ?_
  rw [EStateM.run_bind, EStateM.run_bind, EStateM.run_get, EStateM.run_get]
  have hrel := h.callbacks n
  simp only
  generalize l.callbacks.lookup n = x, l'.callbacks.lookup n = y at hrel
  cases hrel with
  | none => exact .alike (.ok _ h)
  | some hc => exact ((call_until hc input).bind fun r => .ite (.pure _) (.pure _)) l l' h

/-- A panic that leaves the body comes from the callback. -/
theorem invokeBody_panics {n : String} {input : FfiBuffer} {p : PanicPayload}
    (hr : (invokeBody n input).run l = .error (.panic p) l') : l'.EndedInCallback := by
  cases hp : l.poisoned with
  | true => cases (run_lockCallbacks_poisoned hp).symm.trans hr
  | false =>
    cases hl : l.callbacks.lookup n with
    | none => cases (run_invokeBody_notFound hp hl).symm.trans hr
    | some cb =>
      rw [run_invokeBody hp hl] at hr
      rcases bind_eq_error.mp hr with hcall | ⟨r, t, -, hr⟩
      · rw [CallbackFn.run_call] at hcall
        cases hcb : (cb.run input).run l.heap with
        | ok r g =>
          rw [hcb] at hcall
          cases hcall
        | error e g =>
          rw [hcb] at hcall
          cases e <;> cases hcall
          exact ⟨cb, input, l.calls, l.heap, _, rfl, hcb, .inr ⟨p, rfl⟩⟩
      · split at hr <;> cases hr

/-- What is done on the heap alone. -/
theorem within_alike (m : Rust α) :
    RunAlike Library.Alike (within m : Program Library α) (within m) :=
  .within m (fun _ _ h => h.heap) fun _ _ h _ => ⟨rfl, h.callbacks, h.poisoned, h.calls⟩

theorem ffiInvokeCallback_until (name : Option (List UInt8)) (input : FfiBuffer) :
    RunsUntil .abort Library.EndedInCallback Library.Alike
      (ffiInvokeCallback (rt.under .release) name input)
      (ffiInvokeCallback (rt.under profile) name input) := by
  unfold ffiInvokeCallback
  cases cstrToString name with
  | error e => exact .of_alike (within_alike (FfiResult.err rt e))
  | ok n =>
    exact catchPanic_until (invokeBody_until n input) (fun _ _ _ => invokeBody_panics)
      fun e => within_alike (FfiResult.err rt e)

/-! ## Sources -/

/-- A callback as its source: the code each profile makes of it. That of the release profile does what
the others do, unless it aborts; no overflow check or debug assertion makes a difference. -/
structure CallbackSource where
  compiled : Profile → CallbackFn
  agrees : ∀ profile, (compiled .release).Until (compiled profile)

def RegistryOp.compile (profile : Profile) : RegistryOp CallbackSource → RegistryOp CallbackFn
  | registerCallback name f => .registerCallback name (f.compiled profile)
  | unregisterCallback name => .unregisterCallback name
  | callbackCount => .callbackCount
  | ffiRegisterCallback name cb => .ffiRegisterCallback name (cb.compiled profile)
  | ffiInvokeCallback name input => .ffiInvokeCallback name input
  | ffiUnregisterCallback name => .ffiUnregisterCallback name
  | ffiCallbackCount => .ffiCallbackCount

/-- Code that is the same in every build. -/
def CallbackSource.plain (cb : CallbackFn) : CallbackSource :=
  ⟨fun _ => cb, fun _ _ => .of_alike (.refl _)⟩

theorem insert_until {a : α} {cb cb' : CallbackFn} (n : String) (hc : cb.Until cb') :
    RunsUntil .abort Library.EndedInCallback Library.Alike
      (do
        modify fun l => { l with callbacks := l.callbacks.insert n cb }
        return a : Program Library α)
      (do
        modify fun l => { l with callbacks := l.callbacks.insert n cb' }
        return a : Program Library α) :=
  .of_alike ((RunAlike.modify fun _ _ h => h.insert n hc).bind fun _ => .pure a)

theorem erase_until (n : String) (f : Bool → α) :
    RunsUntil .abort Library.EndedInCallback Library.Alike
      (do
        let found := (← get).callbacks.lookup n |>.isSome
        modify fun l => { l with callbacks := l.callbacks.erase n }
        return f found : Program Library α)
      (do
        let found := (← get).callbacks.lookup n |>.isSome
        modify fun l => { l with callbacks := l.callbacks.erase n }
        return f found : Program Library α) := by
  intro l l' h
  refine .alike ?_
  change EndAlike _ (.ok (f (l.callbacks.lookup n).isSome) _)
    (.ok (f (l'.callbacks.lookup n).isSome) _)
  rw [h.isSome n]
  exact .ok _ (h.erase n)

theorem callbackCount_until :
    RunsUntil .abort Library.EndedInCallback Library.Alike callbackCount callbackCount := by
  refine lockCallbacks_until fun l l' h => .alike ?_
  change EndAlike _ (.ok l.callbacks.keys.card l) (.ok l'.callbacks.keys.card l')
  rw [h.keys]
  exact .ok _ h

/-- Each operation of the registry, in two builds. -/
theorem RegistryOp.compile_until (op : RegistryOp CallbackSource) :
    RunsUntil .abort Library.EndedInCallback Library.Alike
      ((op.compile .release).run (rt.under .release)) ((op.compile profile).run (rt.under profile)) := by
  cases op with
  | registerCallback name f =>
    exact (lockCallbacks_until (insert_until name (f.agrees profile))).bind fun _ => .pure _
  | unregisterCallback name =>
    exact (lockCallbacks_until (erase_until name Except.ok)).bind fun _ => .pure _
  | callbackCount => exact callbackCount_until.bind fun _ => .pure _
  | ffiRegisterCallback name cb =>
    refine RunsUntil.bind ?_ fun _ => .pure _
    unfold FfiBridge.ffiRegisterCallback
    cases cstrToString name with
    | error e => exact .pure _
    | ok n => exact lockCallbacks_until (insert_until n (cb.agrees profile))
  | ffiInvokeCallback name input =>
    exact (ffiInvokeCallback_until name input).bind fun _ => .pure _
  | ffiUnregisterCallback name =>
    refine RunsUntil.bind ?_ fun _ => .pure _
    unfold FfiBridge.ffiUnregisterCallback
    cases cstrToString name with
    | error e => exact .pure _
    | ok n => exact lockCallbacks_until (erase_until n fun found => if found then 0 else -1)
  | ffiCallbackCount => exact callbackCount_until.bind fun _ => .pure _

/-! ## Go -/

theorem onHeap_alike (m : Rust α) : RunAlike Process.Alike (within m : Go α) (within m) :=
  .within m (fun _ _ h => h.library.heap) fun _ _ h _ =>
    ⟨⟨rfl, h.library.callbacks, h.library.poisoned, h.library.calls⟩, h.buffers, h.crossings, h.frees⟩

theorem deref_alike (b : BufferRef) : RunAlike Process.Alike (deref b) (deref b) := by
  intro p q h
  cases hb : p.buffers[b]? with
  | none =>
    rw [run_deref_nil hb, run_deref_nil (h.buffers ▸ hb)]
    exact .error _ h
  | some buffer =>
    rw [run_deref hb, run_deref (h.buffers ▸ hb)]
    exact .ok _ h

theorem crossing_alike (b : FfiBuffer) : RunAlike Process.Alike (crossing b) (crossing b) := by
  refine .modify fun p q h => ⟨h.library, h.buffers, ?_, h.frees⟩
  have hheap : p.heap = q.heap := h.library.heap
  simp only [Process.stale, hheap, h.crossings]

theorem ffiBufferFree_alike (raw : FfiBuffer) :
    RunAlike Process.Alike (C.ffiBufferFree raw) (C.ffiBufferFree raw) := by
  refine (crossing_alike raw).bind fun _ => RunAlike.bind (.modify fun p q h => ?_) fun _ =>
    onHeap_alike _
  exact ⟨h.library, h.buffers, h.crossings, by rw [h.frees]⟩

theorem assign_alike (b : BufferRef) (f : Buffer → Buffer) :
    RunAlike Process.Alike (assign b f) (assign b f) :=
  .modify fun _ _ h => ⟨h.library, by rw [h.buffers], h.crossings, h.frees⟩

theorem newBuffer_alike (raw : FfiBuffer) :
    RunAlike Process.Alike (newBuffer raw) (newBuffer raw) := by
  intro p q h
  change EndAlike _ (.ok p.buffers.length _) (.ok q.buffers.length _)
  rw [h.buffers]
  exact .ok _ ⟨h.library, by simp, h.crossings, h.frees⟩

theorem goBytes_alike (ptr : Ptr) (n : ℤ) :
    RunAlike Process.Alike (C.GoBytes ptr n) (C.GoBytes ptr n) :=
  .ite (.throw _) (.ite (.pure _) (onHeap_alike _))

theorem goStringN_alike (ptr : Ptr) (n : ℤ) :
    RunAlike Process.Alike (C.GoStringN ptr n) (C.GoStringN ptr n) :=
  .ite (.throw _) (.ite (.pure _) (onHeap_alike _))

theorem fromBytes_alike (data : List UInt8) :
    RunAlike Process.Alike (fromBytes rt data) (fromBytes rt data) := by
  refine ((onHeap_alike _).bind fun raw => newBuffer_alike raw).bind fun buf => .ite ?_ (.pure _)
  exact (deref_alike buf).bind fun b => (crossing_alike _).bind fun _ =>
    (onHeap_alike _).bind fun _ => (assign_alike buf _).bind fun _ => .pure _

theorem fromJSON_alike (marshal : Except String (List UInt8)) :
    RunAlike Process.Alike (fromJSON rt marshal) (fromJSON rt marshal) := by
  cases marshal with
  | ok data => exact (fromBytes_alike data).bind fun _ => .pure _
  | error err => exact .pure _

theorem bytes_alike (b : BufferRef) : RunAlike Process.Alike (Buffer.bytes b) (Buffer.bytes b) :=
  (deref_alike b).bind fun _ => .ite (.pure _) <|
    (crossing_alike _).bind fun _ => (goBytes_alike _ _).bind fun _ => .pure _

theorem toJSON_alike {T : Type} (b : BufferRef) (unmarshal : List UInt8 → Except String T) :
    RunAlike Process.Alike (Buffer.toJSON b unmarshal) (Buffer.toJSON b unmarshal) := by
  refine (bytes_alike b).bind fun data => ?_
  cases data with
  | none => exact .pure _
  | some data =>
    cases hu : unmarshal data with
    | ok v =>
      simp only [hu]
      exact .pure _
    | error err =>
      simp only [hu]
      exact .pure _

theorem len_alike (b : BufferRef) : RunAlike Process.Alike (Buffer.len b) (Buffer.len b) :=
  (deref_alike b).bind fun _ => .ite (.pure _) (.pure _)

theorem free_alike (b : BufferRef) : RunAlike Process.Alike (Buffer.free b) (Buffer.free b) :=
  (deref_alike b).bind fun _ => .ite
    ((ffiBufferFree_alike _).bind fun _ => assign_alike b _) (.pure _)

theorem inspectBuffer_alike (b : Option BufferRef) :
    RunAlike Process.Alike (inspectBuffer b) (inspectBuffer b) := by
  cases b with
  | none => exact .pure _
  | some b => exact (deref_alike b).bind fun _ => .ite (.pure _) (.pure _)

theorem rawInput_alike (b : Option BufferRef) :
    RunAlike Process.Alike (rawInput b) (rawInput b) := by
  cases b with
  | none => exact .pure _
  | some b => exact (deref_alike b).bind fun _ => .pure _

theorem copyBuffer_alike (raw : FfiBuffer) :
    RunAlike Process.Alike (copyBuffer rt raw) (copyBuffer rt raw) :=
  .ite (newBuffer_alike _) <| (crossing_alike raw).bind fun _ => (goBytes_alike _ _).bind fun _ =>
    fromBytes_alike _

theorem checkResult_alike (result : FfiResult) :
    RunAlike Process.Alike (checkResult rt result) (checkResult rt result) := by
  refine .ite ?_ ?_
  · have hmsg : RunAlike Process.Alike (goStringFromFfiString result.errorMessage)
        (goStringFromFfiString result.errorMessage) := .ite (.pure _) (goStringN_alike _ _)
    exact hmsg.bind fun _ => (onHeap_alike _).bind fun _ => .pure _
  · exact (copyBuffer_alike _).bind fun _ => (onHeap_alike _).bind fun _ => .pure _

/-! ## Programs -/

/-- The process has ended in a callback. -/
def Process.EndedInCallback (p : Process) : Prop := p.library.EndedInCallback

/-- Two builds of a Go function run alike until the release build ends in a callback. -/
abbrev GoUntil (m m' : Go α) : Prop :=
  RunsUntil .abort Process.EndedInCallback Process.Alike m m'

theorem within_until {m m' : Program Library α}
    (hm : RunsUntil .abort Library.EndedInCallback Library.Alike m m') :
    GoUntil (within m) (within m') :=
  hm.within (fun _ _ h => h.library) (fun _ _ h _ _ hl => ⟨hl, h.buffers, h.crossings, h.frees⟩)
    fun _ _ hz => hz

/-- A deferred call is not made when the process ends. -/
theorem deferring_until {cleanup : Go Unit} {m m' : Go α}
    (hc : RunAlike Process.Alike cleanup cleanup) (hm : GoUntil m m') :
    GoUntil (deferring cleanup m) (deferring cleanup m') := by
  intro p q h
  have hend := hm p q h
  rw [run_deferring, run_deferring]
  generalize m.run p = x, m'.run q = y at hend
  cases hend with
  | stopped hz => exact .stopped hz
  | alike hend =>
    cases hend with
    | ok a h₁ => exact .alike ((hc.bind fun _ => .pure a) _ _ h₁)
    | error e h₁ =>
      cases e with
      | goPanic text => exact .alike ((hc.bind fun _ => .throw _) _ _ h₁)
      | _ => exact .alike (.error _ h₁)

theorem invokeCallback_until (name : List UInt8) (input : Option BufferRef) :
    GoUntil (invokeCallback (rt.under .release) name input)
      (invokeCallback (rt.under profile) name input) := by
  refine (RunsUntil.of_alike (rawInput_alike input)).bind fun raw => ?_
  refine (RunsUntil.of_alike (crossing_alike raw)).bind fun _ => ?_
  refine (within_until (ffiInvokeCallback_until _ raw)).bind fun result => ?_
  exact .of_alike (@checkResult_alike (rt.under profile) result)

theorem invokeCallbackJSON_until {T : Type} (name : List UInt8) (quotedName : String)
    (marshal : Except String (List UInt8)) (unmarshal : List UInt8 → Except String T) :
    GoUntil (invokeCallbackJSON (rt.under .release) name quotedName marshal unmarshal)
      (invokeCallbackJSON (rt.under profile) name quotedName marshal unmarshal) := by
  refine (RunsUntil.of_alike (@fromJSON_alike (rt.under profile) marshal)).bind fun r => ?_
  cases r with
  | error err => exact .pure _
  | ok buf =>
    refine deferring_until (free_alike buf) ((invokeCallback_until name (some buf)).bind fun r => ?_)
    cases r with
    | error err => exact .pure _
    | ok result =>
      refine deferring_until (free_alike result) (.of_alike ?_)
      refine (bytes_alike result).bind fun data => ?_
      cases data with
      | none => exact .pure _
      | some data =>
        cases hu : unmarshal data with
        | ok resp =>
          simp only [hu]
          exact .pure _
        | error err =>
          simp only [hu]
          exact .pure _

/-- What a program asks of the library: through the registry, from Rust or C, or through Go. -/
inductive BuildOp (T : Type) where
  | registry (op : RegistryOp CallbackSource)
  | buffer (call : GoCall)
  | json (name : List UInt8) (quotedName : String) (marshal : Except String (List UInt8))
    (unmarshal : List UInt8 → Except String T)
  | allocBuffer (capacity : ℤ)
  | freeBuffer (buf : FfiBuffer)
  | goStringFromFfiString (s : FfiString)
  | allocFfiString (s : List UInt8)
  | freeFfiString (s : FfiString)
  | version

inductive BuildAnswer (T : Type) where
  | registry (a : RegistryAnswer)
  | buffer (a : GoAnswer)
  | json (r : Except GoError T)
  | raw (b : FfiBuffer)
  | string (s : FfiString)
  | text (bytes : List UInt8)
  | done

namespace BuildOp

variable {T : Type}

/-- The operation in the build of a profile. -/
def run (rt : Runtime) (profile : Profile) : BuildOp T → Go (BuildAnswer T)
  | registry op => do return .registry (← within ((op.compile profile).run (rt.under profile)))
  | buffer call => do return .buffer (← call.answer (rt.under profile))
  | json name quotedName marshal unmarshal => do
    return .json (← invokeCallbackJSON (rt.under profile) name quotedName marshal unmarshal)
  | allocBuffer capacity => do return .raw (← FfiBridge.allocBuffer (rt.under profile) capacity)
  | freeBuffer buf => do
    FfiBridge.freeBuffer buf
    return .done
  | goStringFromFfiString s => do return .text (← FfiBridge.goStringFromFfiString s)
  | allocFfiString s => do return .string (← FfiBridge.allocFfiString (rt.under profile) s)
  | freeFfiString s => do
    FfiBridge.freeFfiString s
    return .done
  | version => do return .text (← FfiBridge.version (rt.under profile))

end BuildOp

/-- A call on buffers, in two builds. -/
theorem answer_until (call : GoCall) :
    GoUntil (call.answer (rt.under .release)) (call.answer (rt.under profile)) := by
  cases call with
  | newBuffer capacity =>
    have hnew : RunAlike Process.Alike (NewBuffer rt capacity) (NewBuffer rt capacity) :=
      (onHeap_alike _).bind fun raw => newBuffer_alike raw
    exact .of_alike (hnew.bind fun _ => .pure _)
  | fromBytes data => exact .of_alike ((@fromBytes_alike rt data.val).bind fun _ => .pure _)
  | fromJSON marshal =>
    exact .of_alike ((@fromJSON_alike rt (marshal.map Subtype.val)).bind fun _ => .pure _)
  | len b => exact .of_alike ((len_alike b).bind fun _ => .pure _)
  | isEmpty b =>
    have hempty : RunAlike Process.Alike (Buffer.isEmpty b) (Buffer.isEmpty b) :=
      (len_alike b).bind fun _ => .pure _
    exact .of_alike (hempty.bind fun _ => .pure _)
  | bytes b => exact .of_alike ((bytes_alike b).bind fun _ => .pure _)
  | toJSON b unmarshal => exact .of_alike ((toJSON_alike b unmarshal).bind fun _ => .pure _)
  | inspectBuffer b => exact .of_alike ((inspectBuffer_alike b).bind fun _ => .pure _)
  | invokeCallback name input => exact (invokeCallback_until name input).bind fun _ => .pure _
  | free b => exact .of_alike ((free_alike b).bind fun _ => .pure _)

theorem version_until :
    GoUntil (version (rt.under .release)) (version (rt.under profile)) := by
  refine (RunsUntil.of_alike (onHeap_alike (ffiVersion rt))).bind fun raw => ?_
  exact deferring_until (ffiBufferFree_alike raw) (.of_alike (.ite (.pure []) (goStringN_alike _ _)))

theorem BuildOp.run_until {T : Type} (op : BuildOp T) :
    GoUntil (op.run rt .release) (op.run rt profile) := by
  cases op with
  | registry op => exact (within_until op.compile_until).bind fun _ => .pure _
  | buffer call => exact (answer_until call).bind fun _ => .pure _
  | json name quotedName marshal unmarshal =>
    exact (invokeCallbackJSON_until name quotedName marshal unmarshal).bind fun _ => .pure _
  | allocBuffer capacity => exact .of_alike ((onHeap_alike _).bind fun _ => .pure _)
  | freeBuffer buf => exact .of_alike ((ffiBufferFree_alike buf).bind fun _ => .pure _)
  | goStringFromFfiString s =>
    have hread : RunAlike Process.Alike (FfiBridge.goStringFromFfiString s)
        (FfiBridge.goStringFromFfiString s) := .ite (.pure _) (goStringN_alike _ _)
    exact .of_alike (hread.bind fun _ => .pure _)
  | allocFfiString s =>
    have halloc : RunAlike Process.Alike (FfiBridge.allocFfiString rt s)
        (FfiBridge.allocFfiString rt s) := .ite (.pure _) (onHeap_alike _)
    exact .of_alike (halloc.bind fun _ => .pure _)
  | freeFfiString s => exact .of_alike ((onHeap_alike _).bind fun _ => .pure _)
  | version => exact version_until.bind fun _ => .pure _

/-- Whatever a program asks of the library, picking each operation by the answers so far: the
release build returns what any other build returns, or stops as it does, with the same heap, the
same buffers and the same calls of callbacks; or it aborts, in a callback that has panicked or
aborted. -/
theorem release_refines_builds {T : Type} (h : p.Alike q)
    (script : Script (BuildOp T) (BuildAnswer T) α) :
    EndsUntil .abort Process.EndedInCallback Process.Alike
      ((script.run (BuildOp.run rt .release)).run p) ((script.run (BuildOp.run rt profile)).run q) :=
  script.runsUntil BuildOp.run_until p q h

/-- A process that has loaded the library. -/
theorem Process.Alike.start : (Process.start .empty).Alike (.start .empty) where
  library := ⟨rfl, fun n => by simp [Process.start, Library.empty], rfl, .nil⟩
  buffers := rfl
  crossings := rfl
  frees := rfl

/-- Register a callback that panics, and invoke it. -/
def boomScript : Script (BuildOp Unit) (BuildAnswer Unit) (BuildAnswer Unit) :=
  .call (.registry (.registerCallback "b" (.plain (.panicking "boom")))) fun _ =>
    .call (.buffer (.invokeCallback [98] none)) .done

/-- The test build answers, and the release build has ended in the callback. -/
theorem release_refines_builds_boom :
    (∃ a q, (boomScript.run (BuildOp.run (.granting .unwind) .test)).run (.start .empty) = .ok a q) ∧
      ∃ p, (boomScript.run (BuildOp.run (.granting .unwind) .release)).run (.start .empty) =
        .error .abort p ∧ p.EndedInCallback := by
  have hend := @release_refines_builds (.granting .unwind) .test _ _ _ _ Process.Alike.start boomScript
  have htest : (boomScript.run (BuildOp.run (.granting .unwind) .test)).run (.start .empty) =
      .ok _ _ := rfl
  have hrelease : (boomScript.run (BuildOp.run (.granting .unwind) .release)).run (.start .empty) =
      .error .abort _ := rfl
  refine ⟨⟨_, _, htest⟩, _, hrelease, ?_⟩
  rw [htest, hrelease] at hend
  cases hend with
  | stopped hz => exact hz
  | alike hend => cases hend

end FfiBridge
