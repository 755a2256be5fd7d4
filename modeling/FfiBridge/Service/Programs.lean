import FfiBridge.Foundation.Reference
import FfiBridge.Service.JsonCalls
import FfiBridge.Service.Store

/-! # Programs that use the bridge

The Rust side registers and removes services, whose closures drop quietly; the Go side calls them,
with buffers or with JSON, and makes, reads and frees buffers. Under an allocator that serves every
request, a program that frees no buffer it still passes on, copies no 2 GiB to Go, asks for no
capacity without a layout, and otherwise does what it likes with the answers it gets, is answered as
by the store and the offer.
-/
namespace FfiBridge
open Foundation

variable {rt : Runtime} {p q : Process} {l : Library} {o : Offer} {w : World} {h₀ : Heap} {T : Type}

/-- A callback with the function it computes. -/
structure Offered where
  callback : CallbackFn
  respond : List UInt8 → Response
  computes : callback.Computes respond

/-- What a program does. -/
inductive ServiceOp (T : Type) where
  | register (name : String) (cb : Offered)
  | unregister (name : String)
  | json (c : JsonCall T)
  | buffer (call : GoCall)

inductive ServiceAnswer (T : Type) where
  | registered (r : Except FfiError Unit)
  | removed (r : Except FfiError Bool)
  | json (r : Except GoError T)
  | buffer (a : GoAnswer)

def ServiceOp.run (rt : Runtime) : ServiceOp T → Go (ServiceAnswer T)
  | register name cb => do return .registered (← within (registerCallback name cb.callback))
  | unregister name => do return .removed (← within (unregisterCallback name))
  | json c => do return .json (← c.run rt)
  | buffer call => do return .buffer (← call.answer rt)

theorem Library.Offers.insert (hl : l.Offers o) (n : String) (cb : Offered) :
    Library.Offers { l with callbacks := l.callbacks.insert n cb.callback }
      (Function.update o n (some cb.respond)) := by
  refine ⟨hl.sound, fun k => ?_⟩
  by_cases hk : k = n
  · subst hk
    simpa using cb.computes
  · simpa [Function.update_of_ne hk, Finmap.lookup_insert_of_ne _ hk] using hl.computes k

theorem Library.Offers.erase (hl : l.Offers o) (n : String) :
    Library.Offers { l with callbacks := l.callbacks.erase n } (Function.update o n none) := by
  refine ⟨hl.sound, fun k => ?_⟩
  by_cases hk : k = n
  · subst hk
    simp
  · simpa [Function.update_of_ne hk, Finmap.lookup_erase_ne hk] using hl.computes k

theorem Library.Offers.isSome (hl : l.Offers o) (n : String) :
    (l.callbacks.lookup n).isSome = (o n).isSome := by
  have hrel := hl.computes n
  generalize l.callbacks.lookup n = x, o n = y at hrel
  cases hrel <;> rfl

/-! ## Programs -/

/-- Go on with the buffer that was made. -/
def ServiceAnswer.made {Op Answer : Type} (a : ServiceAnswer T)
    (next : BufferRef → Script Op Answer (List (ServiceAnswer T))) :
    Script Op Answer (List (ServiceAnswer T)) :=
  match a with
  | .buffer (.made (.ok b)) => next b
  | _ => .done [a]

end FfiBridge
