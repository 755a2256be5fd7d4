import FfiBridge.Panics.ErrorPath
import FfiBridge.Registry.Quiescence

/-! # The registry after a panic under its lock

Once a thread has panicked with the guard alive, no thread gets to the map again: until the
guard is dropped the lock is held, and from then on it is poisoned. What an operation makes
of the poisoned lock is its own affair: five of the seven answer what they answer on no other
lock, and the two counts answer zero.
-/
namespace FfiBridge
open Foundation

/-! ## Threads -/

namespace System

variable {T κ : Type} {code : ClientCode κ} {s s' : System T κ} {t u : T}
  {e : T × ThreadEvent κ} {op : RegistryOp κ} {old frames rest : List (Frame κ)}
  {g : Registry κ} {holder : Option T}

/-- A thread has panicked with the guard alive: the panic is on its way up to the guard, or has
dropped it and poisoned the lock, or has ended the process. -/
inductive Down (s : System T κ) : Prop
  | unwinding {t : T} {rest : List (Frame κ)} (hh : s.holder = some t)
      (ht : s.stack t = .panicking :: rest) : Down s
  | poisoned (hp : s.registry.poisoned = true) : Down s
  | aborted (ha : ∀ t, s.stack t = []) : Down s

/-- Nobody is at work on the map behind a poisoned lock. -/
def Latched (s : System T κ) : Prop :=
  s.registry.poisoned = true → ∀ t op, Frame.critical op ∉ s.stack t

/-- Work on the map leaves the flag alone. -/
theorem poisoned_of_work {g' : Registry κ} {after : After κ} (hw : op.work g = (g', after)) :
    g'.poisoned = g.poisoned := by
  have hworks := (op.works g).eq_or_write
  rw [hw] at hworks
  rcases hworks with rfl | ⟨n, v, rfl⟩
  · rfl
  · cases v <;> rfl

theorem latched_start (programs : T → List (RegistryOp κ)) : (start programs).Latched :=
  fun hp => by cases hp

variable [DecidableEq T]

theorem Latched.setStack (hi : s.Latched) (hg : g.poisoned = s.registry.poisoned)
    (ht : s.stack t = old) (hf : s.registry.poisoned = true → ∀ op, Frame.critical op ∈ frames →
      Frame.critical op ∈ old) :
    ({ s.setStack t frames with holder := holder, registry := g } : System T κ).Latched := by
  intro hp u op hop
  have hp' : s.registry.poisoned = true := hg.symm.trans hp
  refine hi hp' u op ?_
  by_cases h : u = t
  · subst h
    rw [ht]
    exact hf hp' op ((setStack_self s u frames).subst hop)
  · exact (setStack_of_ne s frames h).subst hop

/-- Where no guard is alive, nobody is at work on the map. -/
theorem Exclusive.latched (hi : s.Exclusive) (hh : s.holder = none) : s.Latched := by
  intro _ t op hop
  have hcount := hi t
  rw [hh, if_neg (by simp)] at hcount
  exact List.countP_eq_zero.mp hcount _ hop rfl

theorem Latched.step (hi : s.Latched) (hx : s.Exclusive) (hs : Step code s e s') : s'.Latched := by
  have hx' := hx.step hs
  cases hs with
  | @start t role op script ending rest ht =>
    refine hi.setStack rfl ht fun _ => ?_
    cases op.locks <;> simp
  | acquire ht hf =>
    refine hi.setStack rfl ht fun hp => ?_
    simp [hp]
  | work ht hw =>
    exact hi.setStack (poisoned_of_work hw) ht fun _ => by simp +contextual
  | enter ht hw hc =>
    exact hi.setStack (poisoned_of_work hw) ht fun _ => by simp +contextual
  | finish ht => exact hi.setStack rfl ht fun _ => by simp
  | panic ht => exact hi.setStack rfl ht fun _ => by simp
  | unwindClient ht => exact hi.setStack rfl ht fun _ => by simp
  | unwound ht => exact hi.setStack rfl ht fun _ => by simp
  | release ht | releaseAndDrop ht hc | unwindCaught ht hp | unwindRaised ht hp
  | unwindAborts ht hp => exact hx'.latched rfl

/-- No thread gets to the map. -/
theorem Down.not_critical (hd : s.Down) (hx : s.Exclusive) (hl : s.Latched) :
    s.stack u ≠ .critical op :: rest := by
  intro hu
  cases hd with
  | unwinding hh ht =>
    obtain rfl := Option.some.inj (hh.symm.trans (hx.holder_of_mem (hu ▸ List.mem_cons_self ..) rfl))
    cases ht.symm.trans hu
  | poisoned hp => exact hl hp u op (hu ▸ List.mem_cons_self ..)
  | aborted ha => cases (ha u).symm.trans hu

omit [DecidableEq T] in
/-- A thread that comes to the lock has to find it free. -/
theorem Down.poisoned_of_free (hd : s.Down) (hf : s.holder = none) (ht : s.stack t ≠ []) :
    s.registry.poisoned = true := by
  cases hd with
  | unwinding hh _ => cases hf.symm.trans hh
  | poisoned hp => exact hp
  | aborted ha => exact absurd (ha t) ht

theorem Step.poisoned (hs : Step code s e s') (hp : s.registry.poisoned = true) :
    s'.registry.poisoned = true := by
  cases hs with
  | work ht hw => exact (poisoned_of_work hw).trans hp
  | enter ht hw hc => exact (poisoned_of_work hw).trans hp
  | unwindCaught ht hp' => rfl
  | unwindRaised ht hp' => rfl
  | _ => exact hp

theorem Step.stack_ne_nil (hs : Step code s e s') : s.stack e.1 ≠ [] := by
  intro hnil
  cases hs with
  | start ht | acquire ht | work ht | enter ht | release ht | releaseAndDrop ht | finish ht
  | panic ht | unwindClient ht | unwindCaught ht | unwindRaised ht | unwindAborts ht
  | unwound ht => cases hnil.symm.trans ht

/-- A panic on its way up stays there while other threads move. -/
theorem Down.setStack (hh : s.holder = some t) (ht : s.stack t = .panicking :: rest)
    (hne : s.stack u ≠ s.stack t) : (s.setStack u frames).Down := by
  refine .unwinding (t := t) hh ((setStack_of_ne s frames ?_).trans ht)
  rintro rfl
  exact hne rfl

theorem Down.step (hd : s.Down) (hx : s.Exclusive) (hl : s.Latched) (hs : Step code s e s') :
    s'.Down := by
  cases hd with
  | poisoned hp => exact .poisoned (hs.poisoned hp)
  | aborted ha => exact absurd (ha e.1) hs.stack_ne_nil
  | @unwinding t rest hh ht =>
    -- the thread that panics is the only one with a guard
    have hguard : ∀ {u op later rest'}, s.stack u ≠ .guarded op later :: rest' := by
      intro u op later rest' hu
      obtain rfl := Option.some.inj (hh.symm.trans (hx.holder_of_mem (hu ▸ List.mem_cons_self ..) rfl))
      cases ht.symm.trans hu
    cases hs with
    | start ht' => exact .setStack hh ht (by simp [ht, ht'])
    | acquire ht' hf => cases hf.symm.trans hh
    | work ht' hw => exact absurd ht' (Down.not_critical (.unwinding hh ht) hx hl)
    | enter ht' hw hc => exact absurd ht' (Down.not_critical (.unwinding hh ht) hx hl)
    | release ht' => exact absurd ht' hguard
    | releaseAndDrop ht' hc => exact absurd ht' hguard
    | finish ht' => exact .setStack hh ht (by simp [ht, ht'])
    | panic ht' => exact .setStack hh ht (by simp [ht, ht'])
    | @unwindClient u role script ending rest' ht' =>
      by_cases h : t = u
      · subst h
        exact .unwinding hh (setStack_self ..)
      · exact .unwinding hh ((setStack_of_ne s _ h).trans ht)
    | unwindCaught ht' hp => exact .poisoned rfl
    | unwindRaised ht' hp => exact .poisoned rfl
    | unwindAborts ht' hp => exact .aborted fun _ => rfl
    | @unwound u ht' =>
      by_cases h : t = u
      · subst h
        have hcount := hx t
        rw [if_pos hh, ht'] at hcount
        cases hcount
      · exact .unwinding hh ((setStack_of_ne s _ h).trans ht)

/-- A step enters no client code under the guard and leaves the map. -/
theorem Down.quiet (hd : s.Down) (hx : s.Exclusive) (hl : s.Latched) (hs : Step code s e s') :
    s'.registry.callbacks = s.registry.callbacks ∧ ∀ role script, e.2 ≠ .enter role script := by
  refine ⟨?_, fun role script => ?_⟩
  · rcases hs.registry with ⟨hc, -⟩ | ⟨op, rest, ht, -⟩
    · exact hc
    · exact absurd ht (hd.not_critical hx hl)
  · cases hs with
    | enter ht hw hc => exact absurd ht (hd.not_critical hx hl)
    | _ => exact nofun

/-- What is so of a state holds at the end of every run from it. -/
theorem Down.run {fs : List (T × ThreadEvent κ)} (hd : s.Down) (hx : s.Exclusive) (hl : s.Latched)
    (hrun : Execution (Step code) s fs s') :
    (s'.Down ∧ s'.Exclusive ∧ s'.Latched) ∧ s'.registry.callbacks = s.registry.callbacks ∧
      (s.registry.poisoned = true → s'.registry.poisoned = true) ∧
      ∀ u role script, (u, .enter role script) ∉ fs := by
  induction hrun with
  | refl => exact ⟨⟨hd, hx, hl⟩, rfl, id, fun _ _ _ => List.not_mem_nil⟩
  | step hrun hs ih =>
    obtain ⟨⟨hd', hx', hl'⟩, hc, hp, hnot⟩ := ih
    obtain ⟨hc', hne⟩ := hd'.quiet hx' hl' hs
    refine ⟨⟨hd'.step hx' hl' hs, hx'.step hs, hl'.step hx' hs⟩, hc'.trans hc,
      fun h => hs.poisoned (hp h), fun u role script hmem => ?_⟩
    rcases List.mem_cons.mp hmem with rfl | hmem
    · exact hne role script rfl
    · exact hnot u role script hmem

theorem exclusive_latched {programs : T → List (RegistryOp κ)} {es : List (T × ThreadEvent κ)}
    (hrun : Execution (Step code) (start programs) es s) : s.Exclusive ∧ s.Latched := by
  refine hrun.invariant (I := fun s => s.Exclusive ∧ s.Latched)
    (fun _ _ _ hi hs => ⟨hi.1.step hs, hi.2.step hi.1 hs⟩) ⟨exclusive_start, latched_start programs⟩

end System

/-! ## Answers -/

variable {rt : Runtime} {l l' : Library} {op : RegistryOp CallbackFn} {answer answer' : RegistryAnswer}
  {es : List (RegistryOp CallbackFn × RegistryAnswer)}

/-- The two operations without a status. -/
def RegistryOp.counts {κ : Type} : RegistryOp κ → Bool
  | callbackCount | ffiCallbackCount => true
  | registerCallback _ _ | unregisterCallback _ | ffiRegisterCallback _ _ | ffiInvokeCallback _ _
  | ffiUnregisterCallback _ => false

/-- The same value; of results, the same code. -/
def RegistryAnswer.Alike : RegistryAnswer → RegistryAnswer → Prop
  | .result r, .result r' => r.errorCode = r'.errorCode
  | answer, answer' => answer = answer'

/-- No answer of `op` on a lock that is not poisoned is like this one. -/
def Tells (rt : Runtime) (op : RegistryOp CallbackFn) (answer : RegistryAnswer) : Prop :=
  ∀ l l' answer', l.poisoned = false → RegistryOp.Step rt l (op, answer') l' → ¬ answer.Alike answer'

/-- The operation returns, and its answer tells that the lock is poisoned. -/
def Reports (rt : Runtime) (l : Library) (op : RegistryOp CallbackFn) : Prop :=
  ∃ answer l', RegistryOp.Step rt l (op, answer) l' ∧ Tells rt op answer

/-- Not a count, and an invocation is served the message of its error. -/
def RegistryOp.CanReport (rt : Runtime) (h : Heap) (op : RegistryOp CallbackFn) : Prop :=
  op.counts = false ∧ ∀ name input, op = .ffiInvokeCallback name input →
    rt.ServesMessage h .lockPoisoned

/-- An operation that returned. Other code may have used the heap before. -/
def LaterStep (rt : Runtime) (l : Library) (e : RegistryOp CallbackFn × RegistryAnswer)
    (l' : Library) : Prop := ∃ h, RegistryOp.Step rt { l with heap := h } e l'

/-- The answers that name the poisoned lock. -/
def RegistryAnswer.NamesPoison : RegistryAnswer → Prop
  | .registered r => r = .error .lockPoisoned
  | .removed r => r = .error .lockPoisoned
  | .count _ => False
  | .status code => code = -2
  | .result r => r.errorCode = .lockPoisoned

theorem RegistryAnswer.Alike.namesPoison (h : answer.Alike answer') (hp : answer.NamesPoison) :
    answer'.NamesPoison := by
  cases answer with
  | result r =>
    cases answer' with
    | result r' => exact h.symm.trans hp
    | _ => cases h
  | _ =>
    cases h
    exact hp

/-- An invocation that looked into the map has no error of the lock. -/
theorem invoke_code_ne {name : Option (List UInt8)} {input : FfiBuffer} {out : FfiResult}
    (hp : l.poisoned = false) (ho : (ffiInvokeCallback rt name input).run l = .ok out l') :
    out.errorCode ≠ .lockPoisoned := by
  have hmade : ∀ {e : FfiError} {t : Library}, e.code ≠ .lockPoisoned →
      (within (FfiResult.err rt e)).run t = .ok out l' → out.errorCode ≠ .lockPoisoned := by
    intro e t he hm
    rw [(err_of_within hm).2.2.1]
    exact he
  cases hn : cstrToString name with
  | error e =>
    refine hmade ?_ ((run_invoke_invalid hn).symm.trans ho)
    rcases cstrToString_cases name with ⟨_, _, -, -, hok⟩ | ⟨e', he, hcode⟩
    · cases hok.symm.trans hn
    · cases he.symm.trans hn
      rcases hcode with ⟨-, hc⟩ | ⟨-, -, hc, -⟩ <;> rw [hc] <;> decide
  | ok n =>
    cases hl : l.callbacks.lookup n with
    | none => exact hmade (by exact nofun) ((run_invoke_notFound hn hp hl).symm.trans ho)
    | some cb =>
      have hc := Library.callee_eq_some.mpr ⟨n, hn, hp, hl⟩
      cases invocationEnd_of_ok ho with
      | notEntered e hc' _ => cases hc'.symm.trans hc
      | success hc' hr hok => exact nofun
      | error hn' hc' hr hok ho' => exact hmade (by exact nofun) ho'
      | panicked hc' hr ho' => exact hmade (by exact nofun) ho'

theorem RegistryOp.Step.not_namesPoison (hs : RegistryOp.Step rt l (op, answer) l')
    (hp : l.poisoned = false) : ¬ answer.NamesPoison := by
  cases op with
  | registerCallback name f =>
    obtain ⟨r, t, hr, ha⟩ := bind_eq_ok.mp hs
    cases (run_registerCallback hp).symm.trans hr
    cases ha
    exact nofun
  | unregisterCallback name =>
    obtain ⟨r, t, hr, ha⟩ := bind_eq_ok.mp hs
    cases (run_unregisterCallback hp).symm.trans hr
    cases ha
    exact nofun
  | callbackCount =>
    obtain ⟨k, t, hr, ha⟩ := bind_eq_ok.mp hs
    cases ha
    exact id
  | ffiRegisterCallback name cb =>
    obtain ⟨code, t, hr, ha⟩ := bind_eq_ok.mp hs
    cases ha
    cases hn : cstrToString name with
    | error e =>
      cases (run_ffiRegisterCallback_invalid hn).symm.trans hr
      exact nofun
    | ok n =>
      cases (run_ffiRegisterCallback hn hp).symm.trans hr
      exact nofun
  | ffiInvokeCallback name input =>
    obtain ⟨out, t, hr, ha⟩ := bind_eq_ok.mp hs
    cases ha
    exact invoke_code_ne hp hr
  | ffiUnregisterCallback name =>
    obtain ⟨code, t, hr, ha⟩ := bind_eq_ok.mp hs
    cases ha
    cases hn : cstrToString name with
    | error e =>
      cases (run_ffiUnregisterCallback_invalid hn).symm.trans hr
      exact nofun
    | ok n =>
      cases (run_ffiUnregisterCallback hn hp).symm.trans hr
      change (if _ then (0 : ℤ) else -1) ≠ -2
      split_ifs <;> decide
  | ffiCallbackCount =>
    obtain ⟨k, t, hr, ha⟩ := bind_eq_ok.mp hs
    cases ha
    exact id

theorem name_of_isOk {name : Option (List UInt8)} (h : (cstrToString name).isOk = true) :
    ∃ n, cstrToString name = .ok n := by
  cases hn : cstrToString name with
  | ok n => exact ⟨n, rfl⟩
  | error e =>
    rw [hn] at h
    cases h

/-- On a poisoned lock, all but the counts answer with the error of the lock. -/
theorem RegistryOp.Step.namesPoison_iff (hs : RegistryOp.Step rt l (op, answer) l')
    (hp : l.poisoned = true) (hop : op.locks = true) : answer.NamesPoison ↔ op.counts = false := by
  obtain ⟨-, href⟩ := hs.refused hp
  cases op with
  | registerCallback name f =>
    cases answer with
    | registered r => exact iff_of_true href rfl
    | _ => cases href
  | unregisterCallback name =>
    cases answer with
    | removed r => exact iff_of_true href rfl
    | _ => cases href
  | callbackCount =>
    cases answer with
    | count k => exact iff_of_false id fun h => by cases h
    | _ => cases href
  | ffiRegisterCallback name cb =>
    obtain ⟨n, hn⟩ := name_of_isOk hop
    cases answer with
    | status code =>
      refine iff_of_true (Eq.trans href ?_) rfl
      simp only [refusalStatus, hn]
    | _ => cases href
  | ffiInvokeCallback name input =>
    obtain ⟨n, hn⟩ := name_of_isOk hop
    cases answer with
    | result r =>
      refine iff_of_true (Eq.trans href ?_) rfl
      simp only [refusal, hn]
      rfl
    | _ => cases href
  | ffiUnregisterCallback name =>
    obtain ⟨n, hn⟩ := name_of_isOk hop
    cases answer with
    | status code =>
      refine iff_of_true (Eq.trans href ?_) rfl
      simp only [refusalStatus, hn]
    | _ => cases href
  | ffiCallbackCount =>
    cases answer with
    | count k => exact iff_of_false id fun h => by cases h
    | _ => cases href

/-- A count answers zero, as an empty registry does. -/
theorem RegistryOp.Step.zero_of_counts (hs : RegistryOp.Step rt l (op, answer) l')
    (hp : l.poisoned = true) (hop : op.counts = true) :
    answer = .count 0 ∧ RegistryOp.Step rt .empty (op, .count 0) .empty := by
  cases op with
  | callbackCount =>
    cases hs.symm.trans (bind_of_ok (run_lockCallbacks_poisoned hp) _)
    exact ⟨rfl, rfl⟩
  | ffiCallbackCount =>
    cases hs.symm.trans (bind_of_ok (run_lockCallbacks_poisoned hp) _)
    exact ⟨rfl, rfl⟩
  | _ => cases hop

/-- What an operation answers on a poisoned lock tells of it, unless it counts. -/
theorem RegistryOp.Step.tells_iff (hs : RegistryOp.Step rt l (op, answer) l')
    (hp : l.poisoned = true) (hop : op.locks = true) :
    Tells rt op answer ↔ op.counts = false := by
  cases hc : op.counts with
  | false =>
    refine iff_of_true (fun l₀ l₀' answer₀ hp₀ hs₀ halike => ?_) rfl
    exact hs₀.not_namesPoison hp₀ (halike.namesPoison ((hs.namesPoison_iff hp hop).mpr hc))
  | true =>
    obtain ⟨rfl, hempty⟩ := hs.zero_of_counts hp hc
    exact iff_of_false (fun ht => ht _ _ _ rfl hempty rfl) nofun

/-- On a poisoned lock an operation returns, an invocation if its message is served. -/
theorem RegistryOp.exists_step_iff (op : RegistryOp CallbackFn) (hp : l.poisoned = true)
    (hop : op.locks = true) : (∃ answer l', RegistryOp.Step rt l (op, answer) l') ↔
      ∀ name input, op = .ffiInvokeCallback name input → rt.ServesMessage l.heap .lockPoisoned := by
  by_cases hinvoke : ∃ name input, op = .ffiInvokeCallback name input
  · obtain ⟨name, input, rfl⟩ := hinvoke
    obtain ⟨n, hn⟩ := name_of_isOk hop
    have hret : Returns (FfiBridge.ffiInvokeCallback rt name input) l ↔
        rt.ServesMessage l.heap .lockPoisoned :=
      (returns_congr (run_invoke_poisoned hn hp)).trans returns_err_iff
    constructor
    · rintro ⟨answer, l', hs⟩ _ _ -
      obtain ⟨out, t, hr, -⟩ := bind_eq_ok.mp hs
      exact hret.mp ⟨out, t, hr⟩
    · intro hserve
      obtain ⟨out, t, hr⟩ := hret.mpr (hserve name input rfl)
      exact ⟨_, t, bind_of_ok hr _⟩
  · have hret := (@RegistryOp.run_poisoned rt l op hp).resolve_right hinvoke
    obtain ⟨answer, hr, -⟩ := hret
    exact iff_of_true ⟨answer, l, hr⟩ fun name input h => absurd ⟨name, input, h⟩ hinvoke

theorem reports_iff (hp : l.poisoned = true) (hop : op.locks = true) :
    Reports rt l op ↔ op.CanReport rt l.heap := by
  have hex := @RegistryOp.exists_step_iff rt l op hp hop
  constructor
  · rintro ⟨answer, l', hs, htells⟩
    exact ⟨(hs.tells_iff hp hop).mp htells, hex.mp ⟨answer, l', hs⟩⟩
  · rintro ⟨hc, hserve⟩
    obtain ⟨answer, l', hs⟩ := hex.mpr hserve
    exact ⟨answer, l', hs, (hs.tells_iff hp hop).mpr hc⟩

/-- Every run on a poisoned library, over any use of the heap in between. -/
theorem kept_of_poisoned (hrun : Execution (LaterStep rt) l es l') (hp : l.poisoned = true) :
    l.SameRegistry l' ∧ ∀ e ∈ es, e.1.locks = true → (Tells rt e.1 e.2 ↔ e.1.counts = false) := by
  induction hrun with
  | refl => exact ⟨⟨rfl, rfl, rfl⟩, by simp⟩
  | @step es t u e hrun hs ih =>
    obtain ⟨⟨hc, hpt, hcalls⟩, hall⟩ := ih
    obtain ⟨h, hs⟩ := hs
    have ht : ({ t with heap := h } : Library).poisoned = true := hpt.trans hp
    obtain ⟨⟨hc', hpu, hcalls'⟩, -⟩ := RegistryOp.Step.refused hs ht
    refine ⟨⟨hc'.trans hc, hpu.trans hpt, hcalls'.trans hcalls⟩, fun e' he hop => ?_⟩
    rcases List.mem_cons.mp he with rfl | he
    · exact RegistryOp.Step.tells_iff hs ht hop
    · exact hall e' he hop

/-- Once some thread has panicked with the guard alive, in every run of any number of threads
that follows the map stays as it is, no client code is entered under the guard, a poisoned
lock stays poisoned, and who gets the lock finds it poisoned. And over every sequence of
operations on a poisoned lock the registry stays as it is and calls nothing; an operation
under a valid name reports the lock exactly if it is no count and, being an invocation, is
served its message. -/
theorem poisoned_registry_reports_iff (rt : Runtime) :
    (∀ (T κ : Type) [DecidableEq T] (code : ClientCode κ) (programs : T → List (RegistryOp κ)) es s,
      Execution (System.Step code) (System.start programs) es s →
      (∀ t s', System.Step code s (t, .panic) s' → s.holder = some t → s'.Down) ∧
      (s.Down → ∀ fs s', Execution (System.Step code) s fs s' →
        s'.Down ∧ s'.registry.callbacks = s.registry.callbacks ∧
        (s.registry.poisoned = true → s'.registry.poisoned = true) ∧
        (∀ u role script, (u, .enter role script) ∉ fs) ∧
        ∀ u s'', System.Step code s' (u, .acquire) s'' → s'.registry.poisoned = true)) ∧
    ∀ (l l' : Library) es, l.poisoned = true → Execution (LaterStep rt) l es l' →
      l.SameRegistry l' ∧
      (∀ e ∈ es, e.1.locks = true → (Tells rt e.1 e.2 ↔ e.1.counts = false)) ∧
      ∀ h op, op.locks = true → (Reports rt { l' with heap := h } op ↔ op.CanReport rt h) := by
  refine ⟨fun T κ _ code programs es s hrun => ?_, fun l l' es hp hrun => ?_⟩
  · obtain ⟨hx, hl⟩ := System.exclusive_latched hrun
    refine ⟨fun t s' hs hh => ?_, fun hd fs s' hrun' => ?_⟩
    · cases hs with
      | panic ht => exact .unwinding hh (System.setStack_self ..)
    · obtain ⟨⟨hd', -, -⟩, hc, hp, hnot⟩ := hd.run hx hl hrun'
      refine ⟨hd', hc, hp, hnot, fun u s'' hs => ?_⟩
      cases hs with
      | acquire ht hf => exact hd'.poisoned_of_free hf (t := u) (by simp [ht])
  · obtain ⟨hsame, hall⟩ := kept_of_poisoned hrun hp
    exact ⟨hsame, hall, fun h op hop => reports_iff (l := { l' with heap := h })
      (hsame.2.1.trans hp) hop⟩

/-- One closure, whose body panics. -/
def booming : ClientCode Unit where
  body _ script ending := script = [] ∧ ending = .panics
  destructor _ script ending := script = [] ∧ ending = .returns

/-- One thread registers the closure and invokes it, the other removes it. -/
def invokesBooming : Bool → List (RegistryOp Unit)
  | true => [.registerCallback "b" (), .ffiInvokeCallback (some [98]) .null]
  | false => [.unregisterCallback "b"]

/-- A body panics under the guard, and the other thread finds the lock poisoned; and after such a
panic, a count and a refused registration, a removal says so. -/
theorem poisoned_registry_reports_removal :
    (∃ es s t s' fs s'' u s₃, Execution (System.Step booming) (System.start invokesBooming) es s ∧
      System.Step booming s (t, .panic) s' ∧ s'.registry.poisoned = false ∧
      Execution (System.Step booming) s' fs s'' ∧ System.Step booming s'' (u, .acquire) s₃ ∧
      u ≠ t ∧ s''.registry.poisoned = true) ∧
    ∃ out l l', (ffiInvokeCallback (.granting .unwind) (some [98]) .null).run
        (.having "b" (.panicking "boom") .empty) = .ok out l ∧
      Execution (LaterStep (.granting .unwind)) l
        [(.registerCallback "c" .returning, .registered (.error .lockPoisoned)),
          (.callbackCount, .count 0)] l' ∧
      Reports (.granting .unwind) l' (.unregisterCallback "b") := by
  constructor
  · have h₁ : Execution (System.Step booming) (System.start invokesBooming) _ _ :=
      .single (.start (t := true) rfl)
    have h₂ := h₁.step (.acquire (t := true) rfl rfl)
    have h₃ := h₂.step (.work (t := true) rfl rfl)
    have h₄ := h₃.step (.release (t := true) rfl)
    have h₅ := h₄.step (.start (t := true) rfl)
    have h₆ := h₅.step (.acquire (t := true) rfl rfl)
    have h₇ := h₆.step (.enter (t := true) rfl rfl ⟨rfl, rfl⟩)
    obtain ⟨es, s, s', hrun, hs, hholder, hpanicking, hclean, hother⟩ : ∃ es s s',
        Execution (System.Step booming) (System.start invokesBooming) es s ∧
        System.Step booming s (true, .panic) s' ∧ s.holder = some true ∧
        s'.stack true = [.panicking, .guarded (.ffiInvokeCallback (some [98]) .null) none,
          .client .program [] .returns] ∧ s'.registry.poisoned = false ∧
        s'.stack false = [.client .program [.unregisterCallback "b"] .returns] :=
      ⟨_, _, _, h₇, .panic rfl, rfl, rfl, rfl, rfl⟩
    have hdown := ((poisoned_registry_reports_iff (.granting .unwind)).1 _ _ _ _ _ _ hrun).1 _ _ hs hholder
    have h₈ : Execution (System.Step booming) s' _ _ := .single (.unwindCaught hpanicking rfl)
    have h₉ := h₈.step (.start (t := false) hother)
    have hfound := ((poisoned_registry_reports_iff (.granting .unwind)).1 _ _ _ _ _ _
      (hrun.step hs)).2 hdown _ _ h₉
    exact ⟨es, s, true, s', _, _, false, _, hrun, hs, hclean, h₉, .acquire rfl rfl, nofun,
      hfound.2.2.2.2 _ _ (.acquire (t := false) rfl rfl)⟩
  · obtain ⟨out, l, ho, hp⟩ : ∃ out l, (ffiInvokeCallback (.granting .unwind) (some [98]) .null).run
        (.having "b" (.panicking "boom") .empty) = .ok out l ∧ l.poisoned = true := ⟨_, _, rfl, rfl⟩
    have hrun : Execution (LaterStep (.granting .unwind)) l
        [(.registerCallback "c" .returning, .registered (.error .lockPoisoned)),
          (.callbackCount, .count 0)] l :=
      (Execution.single ⟨l.heap, bind_of_ok (run_lockCallbacks_poisoned hp) _⟩).step
        ⟨l.heap, bind_of_ok (run_lockCallbacks_poisoned hp) _⟩
    exact ⟨out, l, l, ho, hrun, (((poisoned_registry_reports_iff (.granting .unwind)).2 l l _ hp hrun).2.2
      l.heap (.unregisterCallback "b") rfl).mpr ⟨rfl, nofun⟩⟩

/-- A count of a poisoned registry is the count of an empty one. -/
theorem poisoned_count_as_empty : ∃ out l l' l'',
    (ffiInvokeCallback (.granting .unwind) (some [98]) .null).run
      (.having "b" (.panicking "boom") .empty) = .ok out l ∧ l.poisoned = true ∧
    l.callbacks.lookup "b" = some (.panicking "boom") ∧
    RegistryOp.Step (.granting .unwind) l (.ffiCallbackCount, .count 0) l' ∧
    RegistryOp.Step (.granting .unwind) .empty (.ffiCallbackCount, .count 0) l'' ∧
    ¬ Reports (.granting .unwind) l .ffiCallbackCount := by
  refine ⟨_, _, _, _, rfl, rfl, Finmap.lookup_singleton_eq, rfl, rfl, ?_⟩
  rintro ⟨answer, l', hs, htells⟩
  cases (bind_of_ok (run_lockCallbacks_poisoned rfl) _).symm.trans hs
  exact htells .empty _ _ rfl rfl rfl

end FfiBridge
