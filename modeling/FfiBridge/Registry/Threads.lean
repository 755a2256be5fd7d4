import FfiBridge.Foundation.Execution
import FfiBridge.Registry.Operations

/-! # Threads on the registry

Any number of threads run client code, which calls the registry, which calls client code
again: the bodies of callbacks, and the destructors of closures it drops. A thread is a
stack of frames, and one step is one thread doing the next thing its top frame says. The
lock is not re-entrant: it is acquired when no thread holds it. Two kinds of client code are
left out: what a thread runs while it unwinds a panic, and the destructor of a closure that
`register_callback` refuses.
-/
namespace FfiBridge
open Foundation

/-- One insertion into the map: a closure can be inserted again, a registration cannot. -/
structure Registration (κ : Type) where
  id : ℕ
  closure : κ
  deriving DecidableEq

/-- What is behind the mutex, its poison flag, and the number of insertions so far. -/
structure Registry (κ : Type) where
  callbacks : Finmap (fun _ : String => Registration κ)
  poisoned : Bool
  inserted : ℕ

/-- Client code: the code of a thread, the body of a callback, or the destructor of a closure
that left the registry. -/
inductive Role (κ : Type) where
  | program
  | body (r : Registration κ)
  | destructor (r : Registration κ)

/-- How client code ends when it is done. -/
inductive Ending where
  | returns
  | panics
  deriving DecidableEq

/-- `client`: code with the operations it will still call, and its end. `acquire`: at
`CALLBACKS.lock()`. `critical`: the guard is there and nothing else was done. `guarded`: all
is done but dropping the guard, and then `later`. `panicking`: a panic on its way up. -/
inductive Frame (κ : Type) where
  | client (role : Role κ) (script : List (RegistryOp κ)) (ending : Ending)
  | acquire (op : RegistryOp κ)
  | critical (op : RegistryOp κ)
  | guarded (op : RegistryOp κ) (later : Option (Registration κ))
  | panicking

/-- What an operation does with the guard alive once it has used the map. -/
inductive After (κ : Type) where
  | release (later : Option (Registration κ))
  | enter (role : Role κ)

/-- What becomes of a panic that comes up through an operation. -/
inductive PanicFate where
  | caught
  | raised
  | aborts

namespace Registry

variable {κ : Type}

def empty : Registry κ := ⟨∅, false, 0⟩

/-- `guard.insert(..);`: the closure that was replaced is dropped at the semicolon. -/
def insert (g : Registry κ) (name : String) (f : κ) : Registry κ × After κ :=
  ({ g with callbacks := g.callbacks.insert name ⟨g.inserted, f⟩, inserted := g.inserted + 1 },
    match g.callbacks.lookup name with
    | none => .release none
    | some old => .enter (.destructor old))

/-- `guard.remove(..)`, with what becomes of the closure that was removed. -/
def remove (g : Registry κ) (name : String) (dropped : Registration κ → After κ) :
    Registry κ × After κ :=
  ({ g with callbacks := g.callbacks.erase name },
    match g.callbacks.lookup name with
    | none => .release none
    | some old => dropped old)

end Registry

namespace RegistryOp

variable {κ : Type}

/-- Exported operations look at the name before they go to the lock. -/
def locks : RegistryOp κ → Bool
  | registerCallback _ _ | unregisterCallback _ | callbackCount | ffiCallbackCount => true
  | ffiRegisterCallback name _ | ffiInvokeCallback name _ | ffiUnregisterCallback name =>
    (cstrToString name).isOk

/-- The work under the guard. In `unregister_callback` the removed closure is a temporary of
the tail expression, which outlives the guard; elsewhere it is dropped under the guard. -/
def work (g : Registry κ) : RegistryOp κ → Registry κ × After κ
  | registerCallback name f => g.insert name f
  | unregisterCallback name => g.remove name fun old => .release (some old)
  | callbackCount => (g, .release none)
  | ffiRegisterCallback name cb =>
    match cstrToString name with
    | .ok n => g.insert n cb
    | .error _ => (g, .release none)
  | ffiInvokeCallback name _ =>
    match cstrToString name with
    | .ok n => (g, match g.callbacks.lookup n with
      | none => .release none
      | some r => .enter (.body r))
    | .error _ => (g, .release none)
  | ffiUnregisterCallback name =>
    match cstrToString name with
    | .ok n => g.remove n fun old => .enter (.destructor old)
    | .error _ => (g, .release none)
  | ffiCallbackCount => (g, .release none)

/-- `catch_panic` stops a panic in an invocation; the other exported functions cannot be
unwound through. -/
def panicFate : RegistryOp κ → PanicFate
  | registerCallback _ _ | unregisterCallback _ | callbackCount => .raised
  | ffiInvokeCallback _ _ => .caught
  | ffiRegisterCallback _ _ | ffiUnregisterCallback _ | ffiCallbackCount => .aborts

end RegistryOp

/-- The scripts that bodies and destructors of closures can follow. -/
structure ClientCode (κ : Type) where
  body : κ → List (RegistryOp κ) → Ending → Prop
  destructor : κ → List (RegistryOp κ) → Ending → Prop

def ClientCode.follows {κ : Type} (code : ClientCode κ) :
    Role κ → List (RegistryOp κ) → Ending → Prop
  | .program, _, _ => False
  | .body r, script, ending => code.body r.closure script ending
  | .destructor r, script, ending => code.destructor r.closure script ending

/-- The stacks of the threads `T`, top first, and the thread that holds the lock. -/
structure System (T κ : Type) where
  registry : Registry κ
  holder : Option T
  stack : T → List (Frame κ)

/-- What a step of a thread is. `enter` is client code entered with the guard alive. -/
inductive ThreadEvent (κ : Type) where
  | start (op : RegistryOp κ)
  | acquire
  | work
  | enter (role : Role κ) (script : List (RegistryOp κ))
  | release
  | finish
  | panic
  | unwind

namespace System

variable {T κ : Type} [DecidableEq T]

/-- Every thread has its program to run, and the registry is new. -/
def start (programs : T → List (RegistryOp κ)) : System T κ :=
  ⟨.empty, none, fun t => [.client .program (programs t) .returns]⟩

/-- Replace the stack of one thread. -/
def setStack (s : System T κ) (t : T) (frames : List (Frame κ)) : System T κ :=
  { s with stack := Function.update s.stack t frames }

variable (code : ClientCode κ)

/-- One step of one thread. -/
inductive Step : System T κ → T × ThreadEvent κ → System T κ → Prop
  | start {s : System T κ} {t : T} {role : Role κ} {op : RegistryOp κ}
      {script : List (RegistryOp κ)} {ending : Ending} {rest : List (Frame κ)}
      (ht : s.stack t = .client role (op :: script) ending :: rest) :
      Step s (t, .start op) (s.setStack t
        ((if op.locks then [.acquire op] else []) ++ .client role script ending :: rest))
  | acquire {s : System T κ} {t : T} {op : RegistryOp κ} {rest : List (Frame κ)}
      (ht : s.stack t = .acquire op :: rest) (hf : s.holder = none) :
      Step s (t, .acquire) { s.setStack t
        ((if s.registry.poisoned then .guarded op none else .critical op) :: rest) with
          holder := some t }
  | work {s : System T κ} {t : T} {op : RegistryOp κ} {rest : List (Frame κ)} {g : Registry κ}
      {later : Option (Registration κ)} (ht : s.stack t = .critical op :: rest)
      (hw : op.work s.registry = (g, .release later)) :
      Step s (t, .work) { s.setStack t (.guarded op later :: rest) with registry := g }
  | enter {s : System T κ} {t : T} {op : RegistryOp κ} {rest : List (Frame κ)} {g : Registry κ}
      {role : Role κ} {script : List (RegistryOp κ)} {ending : Ending}
      (ht : s.stack t = .critical op :: rest) (hw : op.work s.registry = (g, .enter role))
      (hc : code.follows role script ending) :
      Step s (t, .enter role script) { s.setStack t
        (.client role script ending :: .guarded op none :: rest) with registry := g }
  | release {s : System T κ} {t : T} {op : RegistryOp κ} {rest : List (Frame κ)}
      (ht : s.stack t = .guarded op none :: rest) :
      Step s (t, .release) { s.setStack t rest with holder := none }
  | releaseAndDrop {s : System T κ} {t : T} {op : RegistryOp κ} {rest : List (Frame κ)}
      {old : Registration κ} {script : List (RegistryOp κ)} {ending : Ending}
      (ht : s.stack t = .guarded op (some old) :: rest)
      (hc : code.follows (.destructor old) script ending) :
      Step s (t, .release) { s.setStack t (.client (.destructor old) script ending :: rest) with
        holder := none }
  | finish {s : System T κ} {t : T} {role : Role κ} {rest : List (Frame κ)}
      (ht : s.stack t = .client role [] .returns :: rest) : Step s (t, .finish) (s.setStack t rest)
  | panic {s : System T κ} {t : T} {role : Role κ} {rest : List (Frame κ)}
      (ht : s.stack t = .client role [] .panics :: rest) :
      Step s (t, .panic) (s.setStack t (.panicking :: rest))
  | unwindClient {s : System T κ} {t : T} {role : Role κ} {script : List (RegistryOp κ)}
      {ending : Ending} {rest : List (Frame κ)}
      (ht : s.stack t = .panicking :: .client role script ending :: rest) :
      Step s (t, .unwind) (s.setStack t (.panicking :: rest))
  | unwindCaught {s : System T κ} {t : T} {op : RegistryOp κ} {rest : List (Frame κ)}
      {later : Option (Registration κ)} (ht : s.stack t = .panicking :: .guarded op later :: rest)
      (hp : op.panicFate = .caught) : Step s (t, .unwind) { s.setStack t rest with
        holder := none, registry := { s.registry with poisoned := true } }
  | unwindRaised {s : System T κ} {t : T} {op : RegistryOp κ} {rest : List (Frame κ)}
      {later : Option (Registration κ)} (ht : s.stack t = .panicking :: .guarded op later :: rest)
      (hp : op.panicFate = .raised) : Step s (t, .unwind) { s.setStack t (.panicking :: rest) with
        holder := none, registry := { s.registry with poisoned := true } }
  /-- The process ends, and all its threads. -/
  | unwindAborts {s : System T κ} {t : T} {op : RegistryOp κ} {rest : List (Frame κ)}
      {later : Option (Registration κ)} (ht : s.stack t = .panicking :: .guarded op later :: rest)
      (hp : op.panicFate = .aborts) : Step s (t, .unwind) ⟨s.registry, none, fun _ => []⟩
  | unwound {s : System T κ} {t : T} (ht : s.stack t = [.panicking]) :
      Step s (t, .unwind) (s.setStack t [])

/-- A thread is at `CALLBACKS.lock()` while it holds the lock. -/
def SelfAcquire (s : System T κ) : Prop :=
  ∃ t op rest, s.stack t = .acquire op :: rest ∧ s.holder = some t

end System

end FfiBridge
