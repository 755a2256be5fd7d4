import FfiBridge.Foundation.Linearization
import FfiBridge.Registry.Table

/-! # What the threads called and what they were answered

A log is kept next to the threads, which do not look at it: the calls of the operations, the
moments at which they take effect, and the answers of those that return. An operation takes
effect where its guard is dropped, and one that does not come to the lock where it is called.
-/
namespace FfiBridge
open Foundation

/-- An operation under way: its number among the calls of its thread, and what it gives back,
once it has found the registry behind the lock. -/
structure OpenCall (κ : Type) where
  number : ℕ
  reply : Option (Reply κ)

/-- The log: how often each thread called, for each frame on its stack the call that the frame
ends, if any, the history, newest first, and whether a panic has ended the process. -/
structure Log (T κ : Type) where
  called : T → ℕ
  calls : T → List (Option (OpenCall κ))
  history : List (Moment (T × ℕ) (RegistryOp κ) (Reply κ × Ending))
  aborted : Bool

variable {T κ : Type}

def Log.blank : Log T κ := ⟨fun _ => 0, fun _ => [none], [], false⟩

/-- The operation a frame belongs to. -/
def Frame.op? : Frame κ → Option (RegistryOp κ)
  | acquire op | critical op | guarded op _ => some op
  | client _ _ _ | panicking => none

section
variable [DecidableEq T]

def Log.set (log : Log T κ) (t : T) (n : ℕ) (cs : List (Option (OpenCall κ)))
    (moments : List (Moment (T × ℕ) (RegistryOp κ) (Reply κ × Ending))) : Log T κ :=
  ⟨Function.update log.called t n, Function.update log.calls t cs, moments ++ log.history,
    log.aborted⟩

/-- What the step `e` from `s` adds to the log. -/
def System.note (s : System T κ) (e : T × ThreadEvent κ) (log : Log T κ) : Log T κ :=
  let n := log.called e.1
  match e.2, s.stack e.1, log.calls e.1 with
  | .start op, _, cs =>
    if op.locks then log.set e.1 (n + 1) (some ⟨n, none⟩ :: cs) [.call (e.1, n) op]
    else log.set e.1 (n + 1) cs [.response (e.1, n) (op.reply s.registry, .returns),
      .effect (e.1, n) op (op.reply s.registry, .returns), .call (e.1, n) op]
  | .acquire, .acquire op :: _, some c :: cs =>
    log.set e.1 n (some ⟨c.number, if s.registry.poisoned then some (op.reply s.registry) else none⟩ :: cs) []
  | .work, .critical op :: _, some c :: cs =>
    log.set e.1 n (some ⟨c.number, some (op.reply s.registry)⟩ :: cs) []
  | .enter _ _, .critical op :: _, some c :: cs =>
    log.set e.1 n (none :: some ⟨c.number, some (op.reply s.registry)⟩ :: cs) []
  | .release, .guarded op none :: _, some ⟨i, some r⟩ :: cs =>
    log.set e.1 n cs [.response (e.1, i) (r, .returns), .effect (e.1, i) op (r, .returns)]
  -- the call is over when the destructor is
  | .release, .guarded op (some _) :: _, some ⟨i, some r⟩ :: cs =>
    log.set e.1 n (some ⟨i, some r⟩ :: cs) [.effect (e.1, i) op (r, .returns)]
  | .finish, _, some ⟨i, some r⟩ :: cs => log.set e.1 n cs [.response (e.1, i) (r, .returns)]
  | .finish, _, none :: cs => log.set e.1 n cs []
  | .panic, _, _ :: cs => log.set e.1 n (none :: cs) []
  | .unwind, _ :: .guarded op _ :: _, _ :: some ⟨i, some r⟩ :: cs =>
    match op.panicFate with
    | .caught => log.set e.1 n cs [.response (e.1, i) (r, .panics), .effect (e.1, i) op (r, .panics)]
    | .raised => log.set e.1 n (none :: cs) [.effect (e.1, i) op (r, .panics)]
    | .aborts => { log with calls := fun _ => [], aborted := true }
  | .unwind, _ :: _ :: _, _ :: _ :: cs => log.set e.1 n (none :: cs) []
  | .unwind, _, _ => log.set e.1 n [] []
  | _, _, _ => log

end

/-! ## Frames and calls -/

/-- The calls of a stack: below `n`, later ones above earlier ones, an operation under way has
not taken effect, and one of which only a destructor is left has. -/
inductive Aligned (h : List (Moment (T × ℕ) (RegistryOp κ) (Reply κ × Ending))) (t : T) :
    ℕ → List (Frame κ) → List (Option (OpenCall κ)) → Prop
  | nil {n : ℕ} : Aligned h t n [] []
  | idle {n : ℕ} {f : Frame κ} {fs : List (Frame κ)} {cs : List (Option (OpenCall κ))}
      (hf : f.op? = none) (hr : Aligned h t n fs cs) : Aligned h t n (f :: fs) (none :: cs)
  | pending {n : ℕ} {f : Frame κ} {op : RegistryOp κ} {c : OpenCall κ} {fs : List (Frame κ)}
      {cs : List (Option (OpenCall κ))} (hf : f.op? = some op) (hn : c.number < n)
      (hcall : .call (t, c.number) op ∈ h) (hnew : ∀ op' a, .effect (t, c.number) op' a ∉ h)
      (hr : Aligned h t c.number fs cs) : Aligned h t n (f :: fs) (some c :: cs)
  | dropping {n i : ℕ} {op : RegistryOp κ} {r : Reply κ} {role : Role κ}
      {script : List (RegistryOp κ)} {ending : Ending} {fs : List (Frame κ)}
      {cs : List (Option (OpenCall κ))} (hn : i < n)
      (heffect : .effect (t, i) op (r, .returns) ∈ h) (hr : Aligned h t i fs cs) :
      Aligned h t n (.client role script ending :: fs) (some ⟨i, some r⟩ :: cs)

namespace Aligned

variable {h h' : List (Moment (T × ℕ) (RegistryOp κ) (Reply κ × Ending))} {t : T} {n m : ℕ}
  {fs : List (Frame κ)} {cs : List (Option (OpenCall κ))}

theorem mono (hi : Aligned h t n fs cs) (hnm : n ≤ m) (hsub : ∀ x ∈ h, x ∈ h')
    (hold : ∀ i < n, ∀ op a, .effect (t, i) op a ∈ h' → .effect (t, i) op a ∈ h) :
    Aligned h' t m fs cs := by
  induction hi generalizing m with
  | nil => exact .nil
  | idle hf _ ih => exact .idle hf (ih hnm hold)
  | pending hf hn hcall hnew _ ih =>
    exact .pending hf (hn.trans_le hnm) (hsub _ hcall) (fun op' a he => hnew op' a (hold _ hn op' a he))
      (ih le_rfl fun i hi => hold i (hi.trans hn))
  | dropping hn heffect _ ih =>
    exact .dropping (hn.trans_le hnm) (hsub _ heffect) (ih le_rfl fun i hi => hold i (hi.trans hn))

/-- Client code goes on with the call that it is the end of. -/
theorem client {role role' : Role κ} {script script' : List (RegistryOp κ)} {ending ending' : Ending}
    (hi : Aligned h t n (.client role script ending :: fs) cs) :
    Aligned h t n (.client role' script' ending' :: fs) cs := by
  cases hi with
  | idle hf hr => exact .idle rfl hr
  | pending hf => cases hf
  | dropping hn he hr => exact .dropping hn he hr

/-- What is under a frame that belongs to no operation. -/
theorem rest {f : Frame κ} (hi : Aligned h t n (f :: fs) cs) (hf : f.op? = none) :
    ∃ c cs', cs = c :: cs' ∧ Aligned h t n fs cs' := by
  cases hi with
  | idle _ hr => exact ⟨_, _, rfl, hr⟩
  | pending hf' => cases hf.symm.trans hf'
  | dropping hn _ hr => exact ⟨_, _, rfl, hr.mono hn.le (fun _ => id) fun _ _ _ _ => id⟩

end Aligned

end FfiBridge
