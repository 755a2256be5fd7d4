import FfiBridge.Panics.Boundary
import FfiBridge.Registry.Operations

/-! # The registry after a panic

The guard of the lock is alive while a callback runs, so a callback that panics leaves the
lock poisoned: the registrations survive, and from then on every operation that takes the
lock reports it instead of looking at them.
-/
namespace FfiBridge
open Foundation

variable {rt : Runtime} {l l' : Library} {name : Option (List UInt8)} {n : String}
  {input : FfiBuffer} {cb : CallbackFn} {p : PanicPayload} {h : Heap} {out : FfiResult}

end FfiBridge
