import FfiBridge.Registry.Threads

/-! # Acquiring the registry lock twice

`ffi_invoke_callback` runs the body of the callback under the guard, and three of the four
operations that drop a closure run its destructor under the guard. Code entered there must
not come to the lock again; with such code no thread ever waits for itself, and without it
some run ends with a thread that does.
-/
namespace FfiBridge
open Foundation

variable {T κ : Type} [DecidableEq T] {code : ClientCode κ} {s s' : System T κ} {t u : T}
  {e : T × ThreadEvent κ} {old frames rest : List (Frame κ)} {g : Registry κ}
  {programs : T → List (RegistryOp κ)} {es : List (T × ThreadEvent κ)}

/-- Client code entered with the guard alive does not come to the lock. -/
def ThreadEvent.LockFree : ThreadEvent κ → Prop
  | .enter _ script => ∀ op ∈ script, op.locks = false
  | _ => True

/-- The stack of a thread that holds the lock, when nothing above the guard comes to the lock. -/
inductive Sheltered : List (Frame κ) → Prop
  | critical {op : RegistryOp κ} {rest : List (Frame κ)} : Sheltered (.critical op :: rest)
  | guarded {op : RegistryOp κ} {later : Option (Registration κ)} {rest : List (Frame κ)} :
      Sheltered (.guarded op later :: rest)
  | client {role : Role κ} {script : List (RegistryOp κ)} {ending : Ending} {op : RegistryOp κ}
      {later : Option (Registration κ)} {rest : List (Frame κ)}
      (hs : ∀ op ∈ script, op.locks = false) :
      Sheltered (.client role script ending :: .guarded op later :: rest)
  | panicking {op : RegistryOp κ} {later : Option (Registration κ)} {rest : List (Frame κ)} :
      Sheltered (.panicking :: .guarded op later :: rest)

namespace System

theorem setStack_self (s : System T κ) (t : T) (frames : List (Frame κ)) :
    (s.setStack t frames).stack t = frames := Function.update_self ..

theorem setStack_of_ne (s : System T κ) (frames : List (Frame κ)) (h : u ≠ t) :
    (s.setStack t frames).stack u = s.stack u := Function.update_of_ne h ..

/-! ## Code that does not come to the lock -/

/-- The holder of the lock, if any, is sheltered. -/
def HolderSheltered (s : System T κ) : Prop := ∀ t, s.holder = some t → Sheltered (s.stack t)

theorem HolderSheltered.setStack (hi : s.HolderSheltered) (ht : s.stack t = old)
    (hf : Sheltered old → Sheltered frames) : (s.setStack t frames).HolderSheltered := by
  intro u hu
  by_cases h : u = t
  · subst h
    rw [setStack_self]
    exact hf (ht ▸ hi u hu)
  · rw [setStack_of_ne s frames h]
    exact hi u hu

theorem HolderSheltered.step (hi : s.HolderSheltered) (hs : Step code s e s')
    (hg : e.2.LockFree) : s'.HolderSheltered := by
  cases hs with
  | start ht =>
    refine hi.setStack ht fun hsh => ?_
    cases hsh with
    | client hfree =>
      obtain ⟨hop, hrest⟩ := List.forall_mem_cons.mp hfree
      rw [hop]
      exact .client hrest
  | @acquire t op rest ht hf =>
    intro u hu
    obtain rfl : t = u := Option.some.inj hu
    change Sheltered ((s.setStack t _).stack t)
    rw [setStack_self]
    cases s.registry.poisoned with
    | true => exact .guarded
    | false => exact .critical
  | work ht hw => exact hi.setStack ht fun _ => .guarded
  | enter ht hw hc => exact hi.setStack ht fun _ => .client hg
  | release ht => exact fun u hu => by cases hu
  | releaseAndDrop ht hc => exact fun u hu => by cases hu
  | finish ht =>
    refine hi.setStack ht fun hsh => ?_
    cases hsh with
    | client _ => exact .guarded
  | panic ht =>
    refine hi.setStack ht fun hsh => ?_
    cases hsh with
    | client _ => exact .panicking
  | unwindClient ht =>
    refine hi.setStack ht fun hsh => ?_
    cases hsh
  | unwindCaught ht hp => exact fun u hu => by cases hu
  | unwindRaised ht hp => exact fun u hu => by cases hu
  | unwindAborts ht hp => exact fun u hu => by cases hu
  | unwound ht =>
    refine hi.setStack ht fun hsh => ?_
    cases hsh

omit [DecidableEq T] in
theorem HolderSheltered.not_selfAcquire (hi : s.HolderSheltered) : ¬ s.SelfAcquire := by
  rintro ⟨t, op, rest, ht, hh⟩
  have hsh := hi t hh
  rw [ht] at hsh
  cases hsh

/-- In a run in which all code entered under the guard stays off the lock, no thread comes
to the lock that it holds. -/
theorem not_selfAcquire_of_lockFree
    (hrun : Execution (Guarded (Step code) fun _ e => e.2.LockFree) (start programs) es s) :
    ¬ s.SelfAcquire := by
  have hstart : (start programs).HolderSheltered := fun t ht => by cases ht
  exact (hrun.invariant (fun _ _ _ hi hs => hi.step hs.1 hs.2) hstart).not_selfAcquire

end System

/-! ## Code that comes to the lock -/

/-- The frames with a live guard. -/
def Frame.holds : Frame κ → Bool
  | .critical _ | .guarded _ _ => true
  | _ => false

namespace System

/-- The holder of the lock, and no other thread, has a live guard, and no more than one. -/
def Exclusive (s : System T κ) : Prop :=
  ∀ t, (s.stack t).countP Frame.holds = if s.holder = some t then 1 else 0

/-- A live guard is the holder's. -/
theorem Exclusive.holder_of_mem {f : Frame κ} (hi : s.Exclusive) (hf : f ∈ s.stack t)
    (hh : f.holds = true) : s.holder = some t := by
  by_contra hne
  have hcount := hi t
  rw [if_neg hne] at hcount
  exact List.countP_eq_zero.mp hcount f hf hh

theorem Exclusive.setStack (hi : s.Exclusive) (ht : s.stack t = old)
    (hf : frames.countP Frame.holds = old.countP Frame.holds) :
    (s.setStack t frames).Exclusive := by
  intro u
  by_cases h : u = t
  · subst h
    rw [setStack_self, hf, ← ht]
    exact hi u
  · rw [setStack_of_ne s frames h]
    exact hi u

/-- Where a live guard goes, no guard is left. -/
theorem Exclusive.drop (hi : s.Exclusive) (ht : s.stack t = old)
    (hf : old.countP Frame.holds = frames.countP Frame.holds + 1) :
    ({ s.setStack t frames with holder := none, registry := g } : System T κ).Exclusive := by
  subst ht
  have hholder : s.holder = some t := by
    by_contra hne
    have hcount := hi t
    rw [if_neg hne] at hcount
    omega
  intro u
  change ((s.setStack t frames).stack u).countP Frame.holds = 0
  by_cases h : u = t
  · subst h
    have hcount := hi u
    rw [if_pos hholder] at hcount
    rw [setStack_self]
    omega
  · rw [setStack_of_ne s frames h, hi u, hholder, if_neg (fun he => h (Option.some.inj he).symm)]

theorem Exclusive.step (hi : s.Exclusive) (hs : Step code s e s') : s'.Exclusive := by
  cases hs with
  | @start t role op script ending rest ht =>
    refine hi.setStack ht ?_
    cases op.locks <;> simp [Frame.holds]
  | @acquire t op rest ht hf =>
    intro u
    have hzero : ∀ v, (s.stack v).countP Frame.holds = 0 := fun v => by simp [hi v, hf]
    change ((s.setStack t _).stack u).countP Frame.holds = if some t = some u then 1 else 0
    by_cases h : u = t
    · subst h
      have hrest : rest.countP Frame.holds = 0 := by simpa [ht, List.countP_cons, Frame.holds] using hzero u
      rw [setStack_self, if_pos rfl]
      cases s.registry.poisoned <;> simp [List.countP_cons, Frame.holds, hrest]
    · rw [setStack_of_ne s _ h, if_neg (fun he => h (Option.some.inj he).symm)]
      exact hzero u
  | work ht hw => exact hi.setStack ht (by simp [List.countP_cons, Frame.holds])
  | enter ht hw hc => exact hi.setStack ht (by simp [List.countP_cons, Frame.holds])
  | release ht => exact hi.drop ht (by simp [List.countP_cons, Frame.holds])
  | releaseAndDrop ht hc => exact hi.drop ht (by simp [List.countP_cons, Frame.holds])
  | finish ht => exact hi.setStack ht (by simp [Frame.holds])
  | panic ht => exact hi.setStack ht (by simp [Frame.holds])
  | unwindClient ht => exact hi.setStack ht (by simp [Frame.holds])
  | unwindCaught ht hp => exact hi.drop ht (by simp [List.countP_cons, Frame.holds])
  | unwindRaised ht hp => exact hi.drop ht (by simp [List.countP_cons, Frame.holds])
  | unwindAborts ht hp => exact fun u => by simp
  | unwound ht => exact hi.setStack ht (by simp [Frame.holds])

theorem exclusive_start : (start programs : System T κ).Exclusive := fun t => by
  simp [start, Frame.holds]

/-- A holder whose code has an operation on the lock before it can get to it. -/
theorem selfAcquire_of_script {role : Role κ} {script : List (RegistryOp κ)} {ending : Ending}
    (ht : s.stack t = .client role script ending :: rest) (hh : s.holder = some t)
    (hl : ∃ op ∈ script, op.locks = true) :
    ∃ fs s', Execution (Step code) s fs s' ∧ s'.SelfAcquire := by
  induction script generalizing s with
  | nil =>
    obtain ⟨op, hop, -⟩ := hl
    cases hop
  | cons op script ih =>
    have hstep : Step code s (t, .start op) _ := .start ht
    cases hop : op.locks with
    | true =>
      rw [hop] at hstep
      exact ⟨_, _, .single hstep, t, op, _, setStack_self .., hh⟩
    | false =>
      rw [hop] at hstep
      obtain ⟨op', hmem, hl'⟩ := hl
      have hmem' : op' ∈ script := by
        rcases List.mem_cons.mp hmem with rfl | hmem
        · cases hop.symm.trans hl'
        · exact hmem
      obtain ⟨fs, s', hrun, hself⟩ := ih (setStack_self ..) hh ⟨op', hmem', hl'⟩
      exact ⟨_, s', (Execution.single hstep).trans hrun, hself⟩

/-- No thread comes to the lock that it holds, in every run that enters no code under the
guard that comes to the lock; and from every step of a run that enters such code, the run
goes on to a thread at the lock that it holds. -/
theorem selfAcquire_only_from_code_under_guard (code : ClientCode κ)
    (programs : T → List (RegistryOp κ)) :
    (∀ es s, Execution (Guarded (Step code) fun _ e => e.2.LockFree) (start programs) es s →
      ¬ s.SelfAcquire) ∧
    ∀ es s e s', Execution (Step code) (start programs) es s → Step code s e s' →
      ¬ e.2.LockFree → ∃ fs s'', Execution (Step code) s' fs s'' ∧ s''.SelfAcquire := by
  refine ⟨fun es s hrun => not_selfAcquire_of_lockFree hrun, fun es s e s' hrun hs hl => ?_⟩
  have hi : s.Exclusive := hrun.invariant (fun _ _ _ hi hs => hi.step hs) exclusive_start
  cases hs with
  | @enter t op rest g role script ending ht hw hc =>
    have hholder : s.holder = some t := hi.holder_of_mem (ht ▸ List.mem_cons_self ..) rfl
    have hop : ∃ op ∈ script, op.locks = true := by
      simpa [ThreadEvent.LockFree] using hl
    exact selfAcquire_of_script (setStack_self ..) hholder hop
  | _ => exact absurd trivial hl

/-- One closure, whose body counts the callbacks and whose destructor does nothing. -/
def counting : ClientCode Unit where
  body _ script ending := script = [.callbackCount] ∧ ending = .returns
  destructor _ script ending := script = [] ∧ ending = .returns

/-- One closure that does nothing. -/
def idling : ClientCode Unit where
  body _ script ending := script = [] ∧ ending = .returns
  destructor _ script ending := script = [] ∧ ending = .returns

/-- A thread that registers the closure and invokes it. -/
def invokesCounting : Unit → List (RegistryOp Unit) := fun _ =>
  [.registerCallback "a" (), .ffiInvokeCallback (some [97]) .null]

/-- A body that does nothing runs under the guard of its invocation, and its thread does not wait
for itself; the step that enters the counting body leads there. -/
theorem selfAcquire_only_from_counting :
    (∃ es s, Execution (Guarded (Step idling) fun _ e => e.2.LockFree) (start invokesCounting) es s ∧
      s.holder = some () ∧ ¬ s.SelfAcquire) ∧
    ∃ es s e s', Execution (Step counting) (start invokesCounting) es s ∧ Step counting s e s' ∧
      ∃ fs s'', Execution (Step counting) s' fs s'' ∧ s''.SelfAcquire := by
  constructor
  · have h₁ : Execution (Guarded (Step idling) fun _ e => e.2.LockFree) (start invokesCounting) _ _ :=
      .single ⟨.start (t := ()) rfl, trivial⟩
    have h₂ := h₁.step ⟨.acquire (t := ()) rfl rfl, trivial⟩
    have h₃ := h₂.step ⟨.work (t := ()) rfl rfl, trivial⟩
    have h₄ := h₃.step ⟨.release (t := ()) rfl, trivial⟩
    have h₅ := h₄.step ⟨.start (t := ()) rfl, trivial⟩
    have h₆ := h₅.step ⟨.acquire (t := ()) rfl rfl, trivial⟩
    have h₇ := h₆.step ⟨.enter (t := ()) rfl rfl ⟨rfl, rfl⟩, by simp [ThreadEvent.LockFree]⟩
    exact ⟨_, _, h₇, rfl, (selfAcquire_only_from_code_under_guard idling _).1 _ _ h₇⟩
  · have h₁ : Execution (Step counting) (start invokesCounting) _ _ := .single (.start (t := ()) rfl)
    have h₂ := h₁.step (.acquire (t := ()) rfl rfl)
    have h₃ := h₂.step (.work (t := ()) rfl rfl)
    have h₄ := h₃.step (.release (t := ()) rfl)
    have h₅ := h₄.step (.start (t := ()) rfl)
    have h₆ := h₅.step (.acquire (t := ()) rfl rfl)
    obtain ⟨es, s, e, s', hrun, hs, hl⟩ : ∃ es s e s', Execution (Step counting) (start invokesCounting) es s ∧
        Step counting s e s' ∧ ¬ e.2.LockFree :=
      ⟨_, _, _, _, h₆, .enter (t := ()) rfl rfl ⟨rfl, rfl⟩, by simp [ThreadEvent.LockFree, RegistryOp.locks]⟩
    exact ⟨es, s, e, s', hrun, hs,
      (selfAcquire_only_from_code_under_guard counting _).2 es s e s' hrun hs hl⟩

/-- The callback waits for the lock its invocation holds. -/
theorem counting_callback_waits :
    ∃ es s, Execution (Step counting) (start invokesCounting) es s ∧ s.SelfAcquire := by
  have h₁ : Execution (Step counting) (start invokesCounting) _ _ := .single (.start (t := ()) rfl)
  have h₂ := h₁.step (.acquire (t := ()) rfl rfl)
  have h₃ := h₂.step (.work (t := ()) rfl rfl)
  have h₄ := h₃.step (.release (t := ()) rfl)
  have h₅ := h₄.step (.start (t := ()) rfl)
  have h₆ := h₅.step (.acquire (t := ()) rfl rfl)
  have h₇ := h₆.step (.enter (t := ()) rfl rfl ⟨rfl, rfl⟩)
  have h₈ := h₇.step (.start (t := ()) rfl)
  exact ⟨_, _, h₈, (), _, _, rfl, rfl⟩

end System

end FfiBridge
