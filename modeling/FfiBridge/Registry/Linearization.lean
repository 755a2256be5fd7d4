import FfiBridge.Registry.Recorder

/-! # The registry is linearizable

Seen from the threads that call it, the registry is the table: whatever the threads do between
each other, their calls are answered as if each had been run on the table at one moment between
its call and its answer. While a guard is alive, the table still is what it was before; it is
what the registry holds when the lock is free.
-/
namespace FfiBridge
open Foundation

variable {T κ : Type} [DecidableEq T] {code : ClientCode κ} {s s' : System T κ} {t u : T}
  {e : T × ThreadEvent κ} {fs frames : List (Frame κ)} {cs : List (Option (OpenCall κ))}
  {g : Registry κ} {a b : Table κ} {log : Log T κ} {n : ℕ} {op : RegistryOp κ}
  {ms : List (Moment (T × ℕ) (RegistryOp κ) (Reply κ × Ending))}

namespace System

/-! ## What the holder of the lock has done -/

/-- Client code over a live guard. -/
inductive Inside (g : Registry κ) (a : Table κ) :
    List (Frame κ) → List (Option (OpenCall κ)) → Prop
  | guarded {op : RegistryOp κ} {i : ℕ} {fs : List (Frame κ)} {cs : List (Option (OpenCall κ))}
      (hg : g.table = a.after op) (hp : a.poisoned = false) (he : a.Enters op) :
      Inside g a (.guarded op none :: fs) (some ⟨i, some (a.reply op)⟩ :: cs)
  | above {f : Frame κ} {c : Option (OpenCall κ)} {fs : List (Frame κ)}
      {cs : List (Option (OpenCall κ))} (hf : f.holds = false) (hi : Inside g a fs cs) :
      Inside g a (f :: fs) (c :: cs)

/-- The stack of the holder of the lock, when `a` is the table without its operation. -/
inductive Held (g : Registry κ) (a : Table κ) :
    List (Frame κ) → List (Option (OpenCall κ)) → Prop
  | critical {op : RegistryOp κ} {fs : List (Frame κ)} {cs : List (Option (OpenCall κ))}
      (hg : g.table = a) (hp : a.poisoned = false) : Held g a (.critical op :: fs) cs
  | guarded {op : RegistryOp κ} {later : Option (Registration κ)} {i : ℕ} {fs : List (Frame κ)}
      {cs : List (Option (OpenCall κ))} (hg : g.table = a.after op) :
      Held g a (.guarded op later :: fs) (some ⟨i, some (a.reply op)⟩ :: cs)
  | above {f : Frame κ} {c : Option (OpenCall κ)} {fs : List (Frame κ)}
      {cs : List (Option (OpenCall κ))} (hf : f.holds = false) (hi : Inside g a fs cs) :
      Held g a (f :: fs) (c :: cs)

omit [DecidableEq T] in
theorem Inside.held (hi : Inside g a fs cs) : Held g a fs cs := by
  cases hi with
  | guarded hg hp he => exact .guarded hg
  | above hf hi => exact .above hf hi

/-! ## The invariant -/

/-- The log tells what the threads did, and the operations that took effect in it lead from
the empty table to `a`. -/
structure Sound (s : System T κ) (log : Log T κ) (a : Table κ) : Prop where
  exclusive : s.Exclusive
  timely : Timely log.history
  fresh : ∀ t k op, .call (t, k) op ∈ log.history → k < log.called t
  aligned : ∀ t, Aligned log.history t (log.called t) (s.stack t) (log.calls t)
  legal : Execution Table.Step .empty ((effects log.history).map Prod.snd) a
  free : s.holder = none → log.aborted = true ∨ s.registry.table = a
  ended : log.aborted = true → ∀ t, s.stack t = []
  held : ∀ t, s.holder = some t → Held s.registry a (s.stack t) (log.calls t)

theorem sound_start (programs : T → List (RegistryOp κ)) :
    (start programs).Sound (.blank : Log T κ) .empty where
  exclusive := exclusive_start
  timely := .nil
  fresh _ _ _ h := by cases h
  aligned _ := .idle rfl .nil
  legal := .refl
  free _ := .inr rfl
  ended h := by cases h
  held _ h := by cases h

/-- A step of the thread `t`. -/
theorem Sound.set {holder : Option T} (hi : s.Sound log a) (ht : s.stack t ≠ [])
    (hx : ({ s.setStack t frames with holder := holder, registry := g } : System T κ).Exclusive)
    (htime : Timely (ms ++ log.history)) (hms : ∀ m ∈ ms, m.id.1 = t)
    (hn : log.called t ≤ n) (hcalls : ∀ k op, .call (t, k) op ∈ ms → k < n)
    (hal : Aligned (ms ++ log.history) t n frames cs)
    (hlegal : Execution Table.Step .empty ((effects (ms ++ log.history)).map Prod.snd) b)
    (hfree : holder = none → g.table = b) (hheld : holder = some t → Held g b frames cs)
    (hother : ∀ u, u ≠ t → holder = some u → s.holder = some u ∧ g = s.registry ∧ b = a) :
    ({ s.setStack t frames with holder := holder, registry := g } : System T κ).Sound
      (log.set t n cs ms) b where
  exclusive := hx
  timely := htime
  fresh u k op hc := by
    change k < Function.update log.called t n u
    by_cases h : u = t
    · subst h
      rw [Function.update_self]
      rcases List.mem_append.mp hc with hnew | hold
      · exact hcalls k op hnew
      · exact (hi.fresh u k op hold).trans_le hn
    · rw [Function.update_of_ne h]
      exact hi.fresh u k op ((List.mem_append.mp hc).resolve_left fun hm => h (hms _ hm))
  aligned u := by
    change Aligned (ms ++ log.history) u (Function.update log.called t n u)
      ((s.setStack t frames).stack u) (Function.update log.calls t cs u)
    by_cases h : u = t
    · subst h
      rwa [Function.update_self, Function.update_self, setStack_self]
    · rw [Function.update_of_ne h, Function.update_of_ne h, setStack_of_ne s frames h]
      refine (hi.aligned u).mono le_rfl (fun _ hm => List.mem_append_right _ hm) ?_
      intro i _ op' x he
      exact (List.mem_append.mp he).resolve_left fun hm => h (hms _ hm)
  legal := hlegal
  free hh := .inr (hfree hh)
  ended h := absurd (hi.ended h t) ht
  held u hu := by
    change Held g b ((s.setStack t frames).stack u) (Function.update log.calls t cs u)
    by_cases h : u = t
    · subst h
      rw [Function.update_self, setStack_self]
      exact hheld hu
    · obtain ⟨hu', rfl, rfl⟩ := hother u h hu
      rw [Function.update_of_ne h, setStack_of_ne s frames h]
      exact hi.held u hu'

/-- A step that leaves the lock and the table. -/
theorem Sound.move (hi : s.Sound log a) (ht : s.stack t ≠ [])
    (hx : (s.setStack t frames).Exclusive) (htime : Timely (ms ++ log.history))
    (hms : ∀ m ∈ ms, m.id.1 = t) (hn : log.called t ≤ n)
    (hcalls : ∀ k op, .call (t, k) op ∈ ms → k < n) (hal : Aligned (ms ++ log.history) t n frames cs)
    (hlegal : Execution Table.Step .empty ((effects (ms ++ log.history)).map Prod.snd) a)
    (hheld : s.holder = some t → Held s.registry a frames cs) :
    (s.setStack t frames).Sound (log.set t n cs ms) a :=
  hi.set ht hx htime hms hn hcalls hal hlegal
    (fun hh => (hi.free hh).resolve_left fun h => ht (hi.ended h t)) hheld fun _ _ hu => ⟨hu, rfl, rfl⟩

/-! ## The steps -/

variable {role : Role κ} {script : List (RegistryOp κ)} {ending : Ending} {rest : List (Frame κ)}
  {later : Option (Registration κ)} {old : Registration κ}

omit [DecidableEq T] in
theorem Held.tail {f : Frame κ} (hi : Held g a (f :: rest) cs) (hf : f.holds = false) :
    ∃ c cs', cs = c :: cs' ∧ Inside g a rest cs' := by
  cases hi with
  | critical => cases hf
  | guarded => cases hf
  | above _ hi => exact ⟨_, _, rfl, hi⟩

/-- The number of the next call of a thread is new. -/
theorem Sound.call_notMem (hi : s.Sound log a) (op' : RegistryOp κ) :
    .call (t, log.called t) op' ∉ log.history := fun hc => (hi.fresh _ _ _ hc).false

/-- A call that comes to the lock. -/
theorem Sound.start_locks (hi : s.Sound log a) (hl : op.locks = true)
    (hx : (s.setStack t (.acquire op :: .client role script ending :: rest)).Exclusive)
    (ht : s.stack t = .client role (op :: script) ending :: rest) :
    (s.setStack t (.acquire op :: .client role script ending :: rest)).Sound
      (s.note (t, .start op) log) a := by
  have hal := hi.aligned t
  rw [ht] at hal
  have hnote : s.note (t, .start op) log = log.set t (log.called t + 1)
      (some ⟨log.called t, none⟩ :: log.calls t) [.call (t, log.called t) op] := if_pos hl
  rw [hnote]
  refine hi.move (by simp [ht]) hx (.call hi.timely hi.call_notMem) (by simp [Moment.id])
    (Nat.le_succ _) (by simp) (.pending rfl (Nat.lt_succ_self _) (List.mem_cons_self ..) ?_ ?_)
    hi.legal fun hh => ?_
  · intro op' x he
    exact hi.call_notMem op' (hi.timely.called_of_effect ((List.mem_cons.mp he).resolve_left nofun))
  · exact hal.client.mono le_rfl (fun _ => List.mem_cons_of_mem _)
      fun _ _ _ _ he => (List.mem_cons.mp he).resolve_left nofun
  · have hheld := hi.held t hh
    rw [ht] at hheld
    obtain ⟨c, cs, hcs, hin⟩ := hheld.tail rfl
    rw [hcs]
    exact .above rfl (.above rfl hin)

/-- A call that does not is over at once. -/
theorem Sound.start_fails (hi : s.Sound log a) (hl : op.locks = false)
    (hx : (s.setStack t (.client role script ending :: rest)).Exclusive)
    (ht : s.stack t = .client role (op :: script) ending :: rest) :
    (s.setStack t (.client role script ending :: rest)).Sound (s.note (t, .start op) log) a := by
  have hal := hi.aligned t
  rw [ht] at hal
  have hnote : s.note (t, .start op) log = log.set t (log.called t + 1) (log.calls t)
      [.response (t, log.called t) (op.reply s.registry, .returns),
        .effect (t, log.called t) op (op.reply s.registry, .returns),
        .call (t, log.called t) op] := if_neg (by simp [hl])
  rw [hnote]
  have hcall : Timely (.call (t, log.called t) op :: log.history) := .call hi.timely hi.call_notMem
  have heffect : Timely (.effect (t, log.called t) op (op.reply s.registry, .returns) ::
      .call (t, log.called t) op :: log.history) :=
    .effect hcall (List.mem_cons_self ..) fun op' x he =>
      hcall.effect_notMem op' x ((List.mem_cons.mp he).resolve_left nofun)
  have hlegal : Table.Step a (op, op.reply s.registry, .returns) a := by
    have hstep := Table.Step.returns (a := a) op
    rwa [(Table.of_not_locks hl (b := a)).1, (Table.of_not_locks hl).2, ← op.reply_eq s.registry] at hstep
  refine hi.move (by simp [ht]) hx (.response heffect (List.mem_cons_self ..)) (by simp [Moment.id])
    (Nat.le_succ _) (by simp) ?_ (hi.legal.step hlegal) fun hh => ?_
  · refine hal.client.mono (Nat.le_succ _) (fun _ => List.mem_append_right _) ?_
    intro i hlt op' x he
    simp only [List.cons_append, List.nil_append, List.mem_cons, reduceCtorEq, false_or] at he
    rcases he with heq | he
    · cases heq
      exact absurd hlt (lt_irrefl _)
    · exact he
  · have hheld := hi.held t hh
    rw [ht] at hheld
    obtain ⟨c, cs, hcs, hin⟩ := hheld.tail rfl
    rw [hcs]
    exact .above rfl hin

theorem Sound.acquire (hi : s.Sound log a) (hh : s.holder = none)
    (hx : ({ s.setStack t ((if s.registry.poisoned then .guarded op none else .critical op) :: rest) with
      holder := some t } : System T κ).Exclusive)
    (ht : s.stack t = .acquire op :: rest) :
    ({ s.setStack t ((if s.registry.poisoned then .guarded op none else .critical op) :: rest) with
      holder := some t } : System T κ).Sound (s.note (t, .acquire) log) a := by
  have hal := hi.aligned t
  rw [ht] at hal
  have hg : s.registry.table = a := (hi.free hh).resolve_left fun h => by simp [hi.ended h t] at ht
  generalize hcs : log.calls t = cs at hal
  cases hal with
  | idle hf => cases hf
  | @pending _ _ op' c _ cs hf hn hcall hnew hr =>
    cases hf
    have hnote : s.note (t, .acquire) log = log.set t (log.called t) (some ⟨c.number,
        if s.registry.poisoned then some (op.reply s.registry) else none⟩ :: cs) [] := by
      simp only [note, ht, hcs]
    rw [hnote]
    refine hi.set (by simp [ht]) hx hi.timely (by simp) le_rfl (by simp) ?_ hi.legal (by simp) (fun _ => ?_)
      fun u hu he => absurd (Option.some.inj he).symm hu
    · exact .pending (by split <;> rfl) hn hcall hnew hr
    · cases hp : s.registry.poisoned with
      | true =>
        have hpa : a.poisoned = true := hg ▸ hp
        rw [op.reply_eq, hg]
        exact .guarded (hg.trans (Table.after_of_poisoned hpa op).symm)
      | false => exact .critical hg (hg ▸ hp)

/-- The call of an operation that holds the guard. -/
theorem Sound.pending (hi : s.Sound log a) {f : Frame κ} (ht : s.stack t = f :: rest)
    (hf : f.op? = some op) : ∃ c cs, log.calls t = some c :: cs ∧ c.number < log.called t ∧
      .call (t, c.number) op ∈ log.history ∧ (∀ op' x, .effect (t, c.number) op' x ∉ log.history) ∧
      Aligned log.history t c.number rest cs := by
  have hal := hi.aligned t
  rw [ht] at hal
  generalize log.calls t = cs at hal
  cases hal with
  | idle hf' => cases hf.symm.trans hf'
  | pending hf' hn hcall hnew hr =>
    cases hf.symm.trans hf'
    exact ⟨_, _, rfl, hn, hcall, hnew, hr⟩
  | dropping => cases hf

theorem Sound.critical (hi : s.Sound log a) (ht : s.stack t = .critical op :: rest) :
    s.holder = some t ∧ s.registry.table = a ∧ s.registry.poisoned = false ∧
      a.poisoned = false := by
  have hh : s.holder = some t := hi.exclusive.holder_of_mem (ht ▸ List.mem_cons_self ..) rfl
  have hheld := hi.held t hh
  rw [ht] at hheld
  generalize log.calls t = cs at hheld
  cases hheld with
  | critical hg hp => exact ⟨hh, hg, (congrArg Table.poisoned hg).trans hp, hp⟩
  | above hf => cases hf

theorem Sound.work (hi : s.Sound log a)
    (hx : ({ s.setStack t (.guarded op later :: rest) with registry := g } : System T κ).Exclusive)
    (ht : s.stack t = .critical op :: rest) (hw : op.work s.registry = (g, .release later)) :
    ({ s.setStack t (.guarded op later :: rest) with registry := g } : System T κ).Sound
      (s.note (t, .work) log) a := by
  obtain ⟨hh, hg, hp, hpa⟩ := hi.critical ht
  obtain ⟨c, cs, hcs, hn, hcall, hnew, hr⟩ := hi.pending ht rfl
  have hnote : s.note (t, .work) log = log.set t (log.called t)
      (some ⟨c.number, some (op.reply s.registry)⟩ :: cs) [] := by simp only [note, ht, hcs]
  rw [hnote]
  refine hi.set (by simp [ht]) hx hi.timely (by simp) le_rfl (by simp) (.pending rfl hn hcall hnew hr) hi.legal
    (fun hnone => ?_) (fun _ => ?_) fun u hu he => ?_
  · cases hnone.symm.trans hh
  · rw [op.reply_eq, hg]
    refine .guarded ?_
    rw [← hg, ← op.table_work hp, hw]
  · exact absurd (Option.some.inj (hh.symm.trans he)).symm hu

theorem Sound.enter (hi : s.Sound log a)
    (hx : ({ s.setStack t (.client role script ending :: .guarded op none :: rest) with
      registry := g } : System T κ).Exclusive)
    (ht : s.stack t = .critical op :: rest) (hw : op.work s.registry = (g, .enter role)) :
    ({ s.setStack t (.client role script ending :: .guarded op none :: rest) with
      registry := g } : System T κ).Sound (s.note (t, .enter role script) log) a := by
  obtain ⟨hh, hg, hp, hpa⟩ := hi.critical ht
  obtain ⟨c, cs, hcs, hn, hcall, hnew, hr⟩ := hi.pending ht rfl
  have hnote : s.note (t, .enter role script) log = log.set t (log.called t)
      (none :: some ⟨c.number, some (op.reply s.registry)⟩ :: cs) [] := by simp only [note, ht, hcs]
  rw [hnote]
  refine hi.set (by simp [ht]) hx hi.timely (by simp) le_rfl (by simp)
    (.idle rfl (.pending rfl hn hcall hnew hr)) hi.legal (fun hnone => ?_) (fun _ => ?_)
    fun u hu he => ?_
  · cases hnone.symm.trans hh
  · rw [op.reply_eq, hg]
    refine .above rfl (.guarded ?_ hpa (hg ▸ op.enters_of_work hw))
    rw [← hg, ← op.table_work hp, hw]
  · exact absurd (Option.some.inj (hh.symm.trans he)).symm hu

/-- What takes effect where the guard `op` of thread `t` is dropped. -/
theorem Sound.effect {i : ℕ} {x : Reply κ × Ending} (hi : s.Sound log a)
    (hcall : .call (t, i) op ∈ log.history) (hnew : ∀ op' x, .effect (t, i) op' x ∉ log.history)
    (hs : Table.Step a (op, x) b) (hr : Aligned log.history t i rest cs) :
    Timely (.effect (t, i) op x :: log.history) ∧
    Execution Table.Step .empty ((effects (.effect (t, i) op x :: log.history)).map Prod.snd) b ∧
    Aligned (.effect (t, i) op x :: log.history) t i rest cs := by
  refine ⟨.effect hi.timely hcall hnew, hi.legal.step hs,
    hr.mono le_rfl (fun _ => List.mem_cons_of_mem _) fun k hk op' y he => ?_⟩
  refine (List.mem_cons.mp he).resolve_left fun heq => ?_
  cases heq
  exact absurd hk (lt_irrefl _)

/-- The guard of a thread with nothing above it. -/
theorem Sound.guarded (hi : s.Sound log a) (ht : s.stack t = .guarded op later :: rest) :
    ∃ i cs, log.calls t = some ⟨i, some (a.reply op)⟩ :: cs ∧ s.registry.table = a.after op ∧
      i < log.called t ∧ .call (t, i) op ∈ log.history ∧
      (∀ op' x, .effect (t, i) op' x ∉ log.history) ∧ Aligned log.history t i rest cs := by
  obtain ⟨c, cs, hcs, hn, hcall, hnew, hr⟩ := hi.pending ht rfl
  have hh : s.holder = some t := hi.exclusive.holder_of_mem (ht ▸ List.mem_cons_self ..) rfl
  have hheld := hi.held t hh
  rw [ht, hcs] at hheld
  cases hheld with
  | guarded hg => exact ⟨_, _, hcs, hg, hn, hcall, hnew, hr⟩
  | above hf => cases hf

theorem Sound.release (hi : s.Sound log a)
    (hx : ({ s.setStack t rest with holder := none } : System T κ).Exclusive)
    (ht : s.stack t = .guarded op none :: rest) :
    ({ s.setStack t rest with holder := none } : System T κ).Sound (s.note (t, .release) log)
      (a.after op) := by
  obtain ⟨i, cs, hcs, hg, hn, hcall, hnew, hr⟩ := hi.guarded ht
  have hnote : s.note (t, .release) log = log.set t (log.called t) cs
      [.response (t, i) (a.reply op, .returns), .effect (t, i) op (a.reply op, .returns)] := by
    simp only [note, ht, hcs]
  rw [hnote]
  obtain ⟨htime, hlegal, hal⟩ := hi.effect hcall hnew (.returns op) hr
  refine hi.set (by simp [ht]) hx (.response htime (List.mem_cons_self ..)) (by simp [Moment.id]) le_rfl (by simp)
    (hal.mono hn.le (fun _ => List.mem_cons_of_mem _) fun _ _ _ _ he =>
      (List.mem_cons.mp he).resolve_left nofun) hlegal (fun _ => hg) (by simp) fun u hu he => ?_
  cases he

theorem Sound.releaseAndDrop (hi : s.Sound log a)
    (hx : ({ s.setStack t (.client role script ending :: rest) with
      holder := none } : System T κ).Exclusive)
    (ht : s.stack t = .guarded op (some old) :: rest) :
    ({ s.setStack t (.client role script ending :: rest) with holder := none } : System T κ).Sound
      (s.note (t, .release) log) (a.after op) := by
  obtain ⟨i, cs, hcs, hg, hn, hcall, hnew, hr⟩ := hi.guarded ht
  have hnote : s.note (t, .release) log = log.set t (log.called t) (some ⟨i, some (a.reply op)⟩ :: cs)
      [.effect (t, i) op (a.reply op, .returns)] := by simp only [note, ht, hcs]
  rw [hnote]
  obtain ⟨htime, hlegal, hal⟩ := hi.effect hcall hnew (.returns op) hr
  refine hi.set (by simp [ht]) hx htime (by simp [Moment.id]) le_rfl (by simp)
    (.dropping hn (List.mem_cons_self ..) hal) hlegal (fun _ => hg) (by simp) fun u hu he => ?_
  cases he

theorem Sound.finish (hi : s.Sound log a) (hx : (s.setStack t rest).Exclusive)
    (ht : s.stack t = .client role [] .returns :: rest) :
    (s.setStack t rest).Sound (s.note (t, .finish) log) a := by
  have hheld : s.holder = some t → ∃ c cs, log.calls t = c :: cs ∧ Inside s.registry a rest cs := by
    intro hh
    have hheld := hi.held t hh
    rw [ht] at hheld
    exact hheld.tail rfl
  have hal := hi.aligned t
  rw [ht] at hal
  generalize hcs : log.calls t = cs at hal hheld
  cases hal with
  | @idle _ _ _ cs _ hr =>
    have hnote : s.note (t, .finish) log = log.set t (log.called t) cs [] := by
      simp only [note, ht, hcs]
    rw [hnote]
    refine hi.move (by simp [ht]) hx hi.timely (by simp) le_rfl (by simp) hr hi.legal fun hh => ?_
    obtain ⟨_, _, heq, hin⟩ := hheld hh
    cases heq
    exact hin.held
  | pending hf => cases hf
  | @dropping _ i op r _ _ _ _ cs hn he hr =>
    have hnote : s.note (t, .finish) log =
        log.set t (log.called t) cs [.response (t, i) (r, .returns)] := by
      simp only [note, ht, hcs]
    rw [hnote]
    refine hi.move (by simp [ht]) hx (.response hi.timely he) (by simp [Moment.id]) le_rfl (by simp)
      (hr.mono hn.le (fun _ => List.mem_cons_of_mem _) fun _ _ _ _ he =>
        (List.mem_cons.mp he).resolve_left nofun) hi.legal fun hh => ?_
    obtain ⟨_, _, heq, hin⟩ := hheld hh
    cases heq
    exact hin.held

theorem Sound.panic (hi : s.Sound log a) (hx : (s.setStack t (.panicking :: rest)).Exclusive)
    (ht : s.stack t = .client role [] .panics :: rest) :
    (s.setStack t (.panicking :: rest)).Sound (s.note (t, .panic) log) a := by
  have hal := hi.aligned t
  rw [ht] at hal
  obtain ⟨c, cs, hcs, hr⟩ := hal.rest rfl
  have hnote : s.note (t, .panic) log = log.set t (log.called t) (none :: cs) [] := by
    simp only [note, ht, hcs]
  rw [hnote]
  refine hi.move (by simp [ht]) hx hi.timely (by simp) le_rfl (by simp) (.idle rfl hr) hi.legal
    fun hh => ?_
  have hheld := hi.held t hh
  rw [ht, hcs] at hheld
  obtain ⟨_, _, heq, hin⟩ := hheld.tail rfl
  cases heq
  exact .above rfl hin

theorem Sound.unwindClient (hi : s.Sound log a) (hx : (s.setStack t (.panicking :: rest)).Exclusive)
    (ht : s.stack t = .panicking :: .client role script ending :: rest) :
    (s.setStack t (.panicking :: rest)).Sound (s.note (t, .unwind) log) a := by
  have hal := hi.aligned t
  rw [ht] at hal
  obtain ⟨c, cs', hcs, hr⟩ := hal.rest rfl
  obtain ⟨c', cs, rfl, hr'⟩ := hr.rest rfl
  have hnote : s.note (t, .unwind) log = log.set t (log.called t) (none :: cs) [] := by
    simp only [note, ht, hcs]
  rw [hnote]
  refine hi.move (by simp [ht]) hx hi.timely (by simp) le_rfl (by simp) (.idle rfl hr') hi.legal
    fun hh => ?_
  have hheld := hi.held t hh
  rw [ht, hcs] at hheld
  obtain ⟨_, _, heq, hin⟩ := hheld.tail rfl
  cases heq
  cases hin with
  | above _ hin => exact .above rfl hin

/-- A panic that has come up to the guard of `op`: client code was entered there. -/
theorem Sound.panicked (hi : s.Sound log a) (ht : s.stack t = .panicking :: .guarded op later :: rest) :
    ∃ c i cs, log.calls t = c :: some ⟨i, some (a.reply op)⟩ :: cs ∧ s.registry.table = a.after op ∧
      Table.Step a (op, a.reply op, .panics) { a.after op with poisoned := true } ∧
      i < log.called t ∧ .call (t, i) op ∈ log.history ∧
      (∀ op' x, .effect (t, i) op' x ∉ log.history) ∧ Aligned log.history t i rest cs := by
  have hal := hi.aligned t
  rw [ht] at hal
  obtain ⟨c, cs, hcs, hr⟩ := hal.rest rfl
  have hh : s.holder = some t := hi.exclusive.holder_of_mem
    (f := .guarded op later) (by rw [ht]; simp) rfl
  have hheld := hi.held t hh
  rw [ht, hcs] at hheld
  obtain ⟨_, _, heq, hin⟩ := hheld.tail rfl
  cases heq
  cases hin with
  | guarded hg hp he =>
    cases hr with
    | pending hf hn hcall hnew hr =>
      cases hf
      exact ⟨_, _, _, hcs, hg, .panics hp he, hn, hcall, hnew, hr⟩
  | above hf => cases hf

theorem Sound.unwindCaught (hi : s.Sound log a)
    (hx : ({ s.setStack t rest with holder := none, registry := { s.registry with poisoned := true } } :
      System T κ).Exclusive)
    (ht : s.stack t = .panicking :: .guarded op later :: rest) (hp : op.panicFate = .caught) :
    ({ s.setStack t rest with holder := none, registry := { s.registry with poisoned := true } } :
      System T κ).Sound (s.note (t, .unwind) log) { a.after op with poisoned := true } := by
  obtain ⟨c, i, cs, hcs, hg, hs, hn, hcall, hnew, hr⟩ := hi.panicked ht
  have hnote : s.note (t, .unwind) log = log.set t (log.called t) cs
      [.response (t, i) (a.reply op, .panics), .effect (t, i) op (a.reply op, .panics)] := by
    simp only [note, ht, hcs, hp]
  rw [hnote]
  obtain ⟨htime, hlegal, hal⟩ := hi.effect hcall hnew hs hr
  refine hi.set (by simp [ht]) hx (.response htime (List.mem_cons_self ..)) (by simp [Moment.id]) le_rfl (by simp)
    (hal.mono hn.le (fun _ => List.mem_cons_of_mem _) fun _ _ _ _ he =>
      (List.mem_cons.mp he).resolve_left nofun) hlegal (fun _ => ?_) (by simp) fun u hu he => ?_
  · rw [← hg]
    rfl
  · cases he

theorem Sound.unwindRaised (hi : s.Sound log a)
    (hx : ({ s.setStack t (.panicking :: rest) with
      holder := none, registry := { s.registry with poisoned := true } } : System T κ).Exclusive)
    (ht : s.stack t = .panicking :: .guarded op later :: rest) (hp : op.panicFate = .raised) :
    ({ s.setStack t (.panicking :: rest) with
      holder := none, registry := { s.registry with poisoned := true } } : System T κ).Sound
      (s.note (t, .unwind) log) { a.after op with poisoned := true } := by
  obtain ⟨c, i, cs, hcs, hg, hs, hn, hcall, hnew, hr⟩ := hi.panicked ht
  have hnote : s.note (t, .unwind) log = log.set t (log.called t) (none :: cs)
      [.effect (t, i) op (a.reply op, .panics)] := by
    simp only [note, ht, hcs, hp]
  rw [hnote]
  obtain ⟨htime, hlegal, hal⟩ := hi.effect hcall hnew hs hr
  refine hi.set (by simp [ht]) hx htime (by simp [Moment.id]) le_rfl (by simp)
    (.idle rfl (hal.mono hn.le (fun _ => id) fun _ _ _ _ => id)) hlegal (fun _ => ?_) (by simp)
    fun u hu he => ?_
  · rw [← hg]
    rfl
  · cases he

theorem Sound.unwindAborts (hi : s.Sound log a)
    (hx : (⟨s.registry, none, fun _ => []⟩ : System T κ).Exclusive)
    (ht : s.stack t = .panicking :: .guarded op later :: rest) (hp : op.panicFate = .aborts) :
    (⟨s.registry, none, fun _ => []⟩ : System T κ).Sound (s.note (t, .unwind) log) a := by
  obtain ⟨c, i, cs, hcs, -, -, -, -, -, -⟩ := hi.panicked ht
  have hnote : s.note (t, .unwind) log =
      { log with calls := fun _ => [], aborted := true } := by
    simp only [note, ht, hcs, hp]
  rw [hnote]
  exact ⟨hx, hi.timely, hi.fresh, fun _ => .nil, hi.legal, fun _ => .inl rfl, fun _ _ => rfl,
    fun _ h => by cases h⟩

theorem Sound.unwound (hi : s.Sound log a) (hx : (s.setStack t []).Exclusive)
    (ht : s.stack t = [.panicking]) : (s.setStack t []).Sound (s.note (t, .unwind) log) a := by
  have hnote : s.note (t, .unwind) log = log.set t (log.called t) [] [] := by simp only [note, ht]
  rw [hnote]
  refine hi.move (by simp [ht]) hx hi.timely (by simp) le_rfl (by simp) .nil hi.legal fun hh => ?_
  have hheld := hi.held t hh
  rw [ht] at hheld
  obtain ⟨_, _, -, hin⟩ := hheld.tail rfl
  cases hin

/-- Every step keeps the log sound. -/
theorem Sound.step (hi : s.Sound log a) (hs : Step code s e s') :
    ∃ b, s'.Sound (s.note e log) b := by
  have hx := hi.exclusive.step hs
  cases hs with
  | @start t role op script ending rest ht =>
    cases hl : op.locks with
    | true =>
      rw [hl] at hx
      exact ⟨a, hi.start_locks hl hx ht⟩
    | false =>
      rw [hl] at hx
      exact ⟨a, hi.start_fails hl hx ht⟩
  | acquire ht hf => exact ⟨a, hi.acquire hf hx ht⟩
  | work ht hw => exact ⟨a, hi.work hx ht hw⟩
  | enter ht hw hc => exact ⟨a, hi.enter hx ht hw⟩
  | release ht => exact ⟨_, hi.release hx ht⟩
  | releaseAndDrop ht hc => exact ⟨_, hi.releaseAndDrop hx ht⟩
  | finish ht => exact ⟨a, hi.finish hx ht⟩
  | panic ht => exact ⟨a, hi.panic hx ht⟩
  | unwindClient ht => exact ⟨a, hi.unwindClient hx ht⟩
  | unwindCaught ht hp => exact ⟨_, hi.unwindCaught hx ht hp⟩
  | unwindRaised ht hp => exact ⟨_, hi.unwindRaised hx ht hp⟩
  | unwindAborts ht hp => exact ⟨a, hi.unwindAborts hx ht hp⟩
  | unwound ht => exact ⟨a, hi.unwound hx ht⟩

/-! ## Every run -/

/-- In every run of any number of threads, with any client code and any panics, the calls are
answered as if the operations that took effect had been run on the table, one after the other:
each once and after its call, none before one that had answered when it was called, and from the
empty table to the one that the registry holds when its lock is free, unless a panic has ended
the process. -/
theorem registry_linearizable {programs : T → List (RegistryOp κ)} {es : List (T × ThreadEvent κ)}
    (hrun : Execution (Step code) (start programs) es s) :
    (∃ log, Execution (Noted (Step code) note) (start programs, .blank) es (s, log)) ∧
    ∀ log, Execution (Noted (Step code) note) (start programs, .blank) es (s, log) →
      ∃ a, Linearizes Table.Step .empty a log.history (effects log.history) ∧
        (s.holder = none → log.aborted = true ∨ s.registry.table = a) := by
  refine ⟨hrun.noted note .blank, fun log hlog => ?_⟩
  have hsound : ∃ a, s.Sound log a := by
    refine hlog.invariant (I := fun x => ∃ a, x.1.Sound x.2 a) ?_ ⟨_, sound_start programs⟩
    rintro ⟨s, log⟩ e ⟨s', log'⟩ ⟨a, hi⟩ ⟨hs, hn⟩
    obtain ⟨b, hb⟩ := hi.step hs
    exact ⟨b, hn ▸ hb⟩
  obtain ⟨a, hi⟩ := hsound
  exact ⟨a, hi.timely.linearizes hi.legal, hi.free⟩

/-- One thread registers the closure while the other counts. -/
def overlapping : Bool → List (RegistryOp Unit)
  | true => [.registerCallback "a" ()]
  | false => [.ffiCallbackCount]

/-- The count is called before the registration takes effect, and comes after it. -/
theorem registry_linearizable_overlapping : ∃ es s log a,
    Execution (Noted (Step counting) note) (start overlapping, .blank) es (s, log) ∧
    Linearizes Table.Step .empty a log.history (effects log.history) ∧
    (effects log.history).map Prod.fst = [(false, 0), (true, 0)] ∧
    s.registry.table = a ∧ (a.map "a").isSome = true := by
  have h₁ : Execution (Noted (Step counting) note) (start overlapping, .blank) _ (_, _) :=
    .single ⟨.start (t := false) rfl, rfl⟩
  have h₂ := h₁.step (u := (_, _)) ⟨.start (t := true) rfl, rfl⟩
  have h₃ := h₂.step (u := (_, _)) ⟨.acquire (t := true) rfl rfl, rfl⟩
  have h₄ := h₃.step (u := (_, _)) ⟨.work (t := true) rfl rfl, rfl⟩
  have h₅ := h₄.step (u := (_, _)) ⟨.release (t := true) rfl, rfl⟩
  have h₆ := h₅.step (u := (_, _)) ⟨.acquire (t := false) rfl rfl, rfl⟩
  have h₇ := h₆.step (u := (_, _)) ⟨.work (t := false) rfl rfl, rfl⟩
  have h₈ := h₇.step (u := (_, _)) ⟨.release (t := false) rfl, rfl⟩
  obtain ⟨a, hlin, hfree⟩ := (registry_linearizable h₈.of_noted).2 _ h₈
  obtain rfl := (hfree rfl).resolve_left nofun
  exact ⟨_, _, _, _, h₈, hlin, rfl, rfl, rfl⟩

end System

end FfiBridge
