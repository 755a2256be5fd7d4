import FfiBridge.Registry.Refinement
import FfiBridge.Registry.SelfDeadlock

/-! # Quiescence after a removal

A body of a callback runs over a live guard, and so does the code that removes or replaces a
registration: where the map changes, no callback is running. A registration is numbered when
it is inserted and never comes back, so what was removed is not entered again; what is left of
it, the drop of its closure, belongs to the call that removed it and is over when that returns.
-/
namespace FfiBridge
open Foundation

variable {T κ : Type} {g : Registry κ} {r old : Registration κ} {n m : String} {v : Option κ}

/-! ## The map -/

namespace Registry

def Registered (g : Registry κ) (r : Registration κ) : Prop := ∃ n, g.callbacks.lookup n = some r

/-- Registrations are numbered below the counter, and each stands under one name. -/
structure Numbered (g : Registry κ) : Prop where
  lt : ∀ n r, g.callbacks.lookup n = some r → r.id < g.inserted
  unique : ∀ n m r, g.callbacks.lookup n = some r → g.callbacks.lookup m = some r → n = m

/-- The map after an insertion or a removal under a name. -/
def write (g : Registry κ) (n : String) : Option κ → Registry κ
  | some f => (g.insert n f).1
  | none => { g with callbacks := g.callbacks.erase n }

theorem inserted_le_write (g : Registry κ) (n : String) (v : Option κ) :
    g.inserted ≤ (g.write n v).inserted := by
  cases v with
  | none => exact le_rfl
  | some f => exact Nat.le_succ _

/-- What stands under a name after a write is new, or stood there before under another name. -/
theorem lookup_write (hl : (g.write n v).callbacks.lookup m = some r) :
    m = n ∧ r.id = g.inserted ∧ r.id < (g.write n v).inserted ∨
      m ≠ n ∧ g.callbacks.lookup m = some r := by
  by_cases h : m = n
  · subst h
    cases v with
    | none => cases (Finmap.lookup_erase m g.callbacks).symm.trans hl
    | some f =>
      cases (Finmap.lookup_insert g.callbacks).symm.trans hl
      exact .inl ⟨rfl, rfl, Nat.lt_succ_self _⟩
  · refine .inr ⟨h, ?_⟩
    cases v with
    | none => exact (Finmap.lookup_erase_ne h).symm.trans hl
    | some f => exact (Finmap.lookup_insert_of_ne _ h).symm.trans hl

/-- A write registers nothing that was there before. -/
theorem registered_of_write (hr : (g.write n v).Registered r) (hlt : r.id < g.inserted) :
    g.Registered r := by
  obtain ⟨m, hm⟩ := hr
  rcases lookup_write hm with ⟨-, hid, -⟩ | ⟨-, hm⟩
  · exact absurd hid hlt.ne
  · exact ⟨m, hm⟩

/-- What stood under the name is registered no more. -/
theorem Numbered.not_registered_write (hg : g.Numbered) (hl : g.callbacks.lookup n = some r) :
    ¬ (g.write n v).Registered r := by
  rintro ⟨m, hm⟩
  rcases lookup_write hm with ⟨-, hid, -⟩ | ⟨hne, hm⟩
  · exact absurd hid (hg.lt n r hl).ne
  · exact hne (hg.unique m n r hm hl)

theorem Numbered.write (hg : g.Numbered) (n : String) (v : Option κ) : (g.write n v).Numbered where
  lt m r hm := by
    rcases lookup_write hm with ⟨-, -, hlt⟩ | ⟨-, hm⟩
    · exact hlt
    · exact (hg.lt m r hm).trans_le (inserted_le_write g n v)
  unique m k r hm hk := by
    rcases lookup_write hm with ⟨hmn, hid, -⟩ | ⟨-, hm'⟩
    · rcases lookup_write hk with ⟨hkn, -, -⟩ | ⟨-, hk'⟩
      · exact hmn.trans hkn.symm
      · exact absurd hid (hg.lt k r hk').ne
    · rcases lookup_write hk with ⟨-, hid, -⟩ | ⟨-, hk'⟩
      · exact absurd hid (hg.lt m r hm').ne
      · exact hg.unique m k r hm' hk'

end Registry

/-- The registration whose body or destructor is run. -/
def Role.subject : Role κ → Option (Registration κ)
  | program => none
  | body r | destructor r => some r

def After.subject : After κ → Option (Registration κ)
  | release later => later
  | enter role => role.subject

/-- What work under the guard does, by what the operation writes: nothing, or an entry over
what stands under the name, which is then dropped. -/
inductive Works (g : Registry κ) : Option (String × Option κ) → Registry κ → After κ → Prop
  | reads : Works g none g (.release none)
  | enters {n : String} {r : Registration κ} (hl : g.callbacks.lookup n = some r) :
      Works g none g (.enter (.body r))
  | adds {n : String} {v : Option κ} (hl : g.callbacks.lookup n = none) :
      Works g (some (n, v)) (g.write n v) (.release none)
  | dropsLater {n : String} {v : Option κ} {old : Registration κ}
      (hl : g.callbacks.lookup n = some old) :
      Works g (some (n, v)) (g.write n v) (.release (some old))
  | drops {n : String} {v : Option κ} {old : Registration κ} (hl : g.callbacks.lookup n = some old) :
      Works g (some (n, v)) (g.write n v) (.enter (.destructor old))

namespace Works

variable {w : Option (String × Option κ)} {g' : Registry κ} {after : After κ}

theorem eq_or_write (h : Works g w g' after) : g' = g ∨ ∃ n v, g' = g.write n v := by
  cases h with
  | reads | enters => exact .inl rfl
  | adds | dropsLater | drops => exact .inr ⟨_, _, rfl⟩

theorem of_some (h : Works g (some (n, v)) g' after) :
    g' = g.write n v ∧ ∀ r, after ≠ .enter (.body r) := by
  cases h <;> exact ⟨rfl, nofun⟩

/-- What is entered or dropped was registered. -/
theorem registered (h : Works g w g' after) (hr : after.subject = some r) : g.Registered r := by
  cases h with
  | reads => cases hr
  | enters hl =>
    cases hr
    exact ⟨_, hl⟩
  | adds => cases hr
  | dropsLater hl | drops hl =>
    cases hr
    exact ⟨_, hl⟩

/-- What is dropped is registered no more. -/
theorem not_registered (h : Works g w g' after) (hg : g.Numbered) (hr : after.subject = some r)
    (hb : after ≠ .enter (.body r)) : ¬ g'.Registered r := by
  cases h with
  | reads => cases hr
  | enters hl =>
    cases hr
    exact absurd rfl hb
  | adds => cases hr
  | dropsLater hl | drops hl =>
    cases hr
    exact hg.not_registered_write hl

end Works

theorem works_insert (g : Registry κ) (n : String) (f : κ) :
    Works g (some (n, some f)) (g.insert n f).1 (g.insert n f).2 := by
  unfold Registry.insert
  cases hl : g.callbacks.lookup n with
  | none => exact .adds hl
  | some old => exact .drops hl

theorem RegistryOp.works (op : RegistryOp κ) (g : Registry κ) :
    Works g op.writes (op.work g).1 (op.work g).2 := by
  cases op with
  | registerCallback name f => exact works_insert g name f
  | unregisterCallback name =>
    simp only [writes, work, Registry.remove]
    cases hl : g.callbacks.lookup name with
    | none => exact .adds hl
    | some old => exact .dropsLater hl
  | callbackCount => exact .reads
  | ffiRegisterCallback name cb =>
    simp only [writes, work]
    cases cstrToString name with
    | error e => exact .reads
    | ok n => exact works_insert g n cb
  | ffiInvokeCallback name input =>
    simp only [writes, work]
    cases cstrToString name with
    | error e => exact .reads
    | ok n =>
      simp only
      cases hl : g.callbacks.lookup n with
      | none => exact .reads
      | some r => exact .enters hl
  | ffiUnregisterCallback name =>
    simp only [writes, work, Registry.remove]
    cases cstrToString name with
    | error e => exact .reads
    | ok n =>
      simp only
      cases hl : g.callbacks.lookup n with
      | none => exact .adds hl
      | some old => exact .drops hl
  | ffiCallbackCount => exact .reads

/-! ## Frames -/

namespace Frame

/-- The registration whose body or destructor a frame runs, or will run. -/
def subject : Frame κ → Option (Registration κ)
  | client role _ _ => role.subject
  | guarded _ later => later
  | _ => none

/-- The frame runs the body of the callback `r`. -/
def Runs (f : Frame κ) (r : Registration κ) : Prop :=
  ∃ script ending, f = client (.body r) script ending

theorem Runs.subject {f : Frame κ} (hf : f.Runs r) : f.subject = some r := by
  obtain ⟨script, ending, rfl⟩ := hf
  rfl

end Frame

namespace System

variable {code : ClientCode κ} {s s' : System T κ} {t u : T} {e : T × ThreadEvent κ}
  {f : Frame κ} {below rest frames : List (Frame κ)} {op : RegistryOp κ} {height : ℕ}

/-- Frame `f` is on the stack of `u`, over `below`. -/
def At (s : System T κ) (u : T) (f : Frame κ) (below : List (Frame κ)) : Prop :=
  (f :: below) <:+ s.stack u

theorem exists_at (hf : f ∈ s.stack u) : ∃ below, s.At u f below := by
  obtain ⟨above, below, h⟩ := List.append_of_mem hf
  exact ⟨below, above, h.symm⟩

theorem at_top (ht : s.stack t = f :: rest) : s.At t f rest := ⟨[], ht.symm⟩

/-- A frame that a step of thread `t` from `s` puts over `below`. -/
inductive Pushed (s : System T κ) (t : T) : Frame κ → List (Frame κ) → Prop
  | silent {f : Frame κ} {below : List (Frame κ)} (hf : f.subject = none) : Pushed s t f below
  | resumed {role : Role κ} {op : RegistryOp κ} {script : List (RegistryOp κ)} {ending : Ending}
      {below : List (Frame κ)} (ht : s.At t (.client role (op :: script) ending) below) :
      Pushed s t (.client role script ending) below
  | worked {op : RegistryOp κ} {later : Option (Registration κ)} {below : List (Frame κ)}
      (ht : s.stack t = .critical op :: below) (hw : (op.work s.registry).2 = .release later) :
      Pushed s t (.guarded op later) below
  | entered {op : RegistryOp κ} {role : Role κ} {script : List (RegistryOp κ)} {ending : Ending}
      {rest : List (Frame κ)} (ht : s.stack t = .critical op :: rest)
      (hw : (op.work s.registry).2 = .enter role) :
      Pushed s t (.client role script ending) (.guarded op none :: rest)
  | dropped {op : RegistryOp κ} {old : Registration κ} {script : List (RegistryOp κ)}
      {ending : Ending} {below : List (Frame κ)} (ht : s.At t (.guarded op (some old)) below) :
      Pushed s t (.client (.destructor old) script ending) below

variable [DecidableEq T]

/-- On a stack that keeps its lower part, a frame is one of the new ones or was there. -/
theorem at_setStack {a : List (Frame κ)} (ht : s.stack t = a ++ rest)
    (hnew : ∀ f below, (f :: below) <:+ frames → Pushed s t f below ∨ (f :: below) <:+ rest)
    (hf : (s.setStack t frames).At u f below) : s.At u f below ∨ u = t ∧ Pushed s t f below := by
  by_cases h : u = t
  · subst h
    rw [At, setStack_self] at hf
    refine (hnew f below hf).symm.imp (fun hr => ?_) fun hp => ⟨rfl, hp⟩
    rw [At, ht]
    exact hr.trans (List.suffix_append a rest)
  · rw [At, setStack_of_ne s frames h] at hf
    exact .inl hf

/-- Every frame after a step was there before or was pushed. -/
theorem Step.pushed (hs : Step code s e s') (hf : s'.At u f below) :
    s.At u f below ∨ u = e.1 ∧ Pushed s e.1 f below := by
  have hkept : ∀ {t : T} {rest : List (Frame κ)} (f : Frame κ) below, (f :: below) <:+ rest →
      Pushed s t f below ∨ (f :: below) <:+ rest := fun _ _ => .inr
  have htop : ∀ {t : T} {top : Frame κ} {rest : List (Frame κ)}, Pushed s t top rest →
      ∀ f below, (f :: below) <:+ (top :: rest) → Pushed s t f below ∨ (f :: below) <:+ rest := by
    intro t top rest hp f below h
    rcases List.suffix_cons_iff.mp h with heq | h
    · cases heq
      exact .inl hp
    · exact .inr h
  cases hs with
  | @start t role op script ending rest ht =>
    refine at_setStack (a := [_]) ht (fun f below h => ?_) hf
    have hres : Pushed s t (.client role script ending) rest :=
      .resumed (at_top ht)
    cases hl : op.locks with
    | false =>
      rw [hl] at h
      exact htop hres f below h
    | true =>
      rw [hl] at h
      rcases List.suffix_cons_iff.mp h with heq | h
      · cases heq
        exact .inl (.silent rfl)
      · exact htop hres f below h
  | @acquire t op rest ht hfree =>
    refine at_setStack (a := [_]) ht (htop (.silent ?_)) hf
    cases s.registry.poisoned <;> rfl
  | work ht hw => exact at_setStack (a := [_]) ht (htop (.worked ht (by rw [hw]))) hf
  | @enter t op rest g role script ending ht hw hc =>
    refine at_setStack (a := [_]) ht (fun f below h => ?_) hf
    rcases List.suffix_cons_iff.mp h with heq | h
    · cases heq
      exact .inl (.entered ht (by rw [hw]))
    · exact htop (.silent rfl) f below h
  | release ht => exact at_setStack (a := [_]) ht hkept hf
  | releaseAndDrop ht hc =>
    exact at_setStack (a := [_]) ht (htop (.dropped (at_top ht))) hf
  | finish ht => exact at_setStack (a := [_]) ht hkept hf
  | panic ht => exact at_setStack (a := [_]) ht (htop (.silent rfl)) hf
  | unwindClient ht => exact at_setStack (a := [_, _]) ht (htop (.silent rfl)) hf
  | unwindCaught ht hp => exact at_setStack (a := [_, _]) ht hkept hf
  | unwindRaised ht hp => exact at_setStack (a := [_, _]) ht (htop (.silent rfl)) hf
  | unwindAborts ht hp => exact absurd (List.suffix_nil.mp hf) (List.cons_ne_nil _ _)
  | unwound ht => exact at_setStack (a := [_]) ht hkept hf

/-- A step leaves the map as it is, or does the work of the operation under the guard. -/
theorem Step.registry (hs : Step code s e s') :
    s'.registry.callbacks = s.registry.callbacks ∧ s'.registry.inserted = s.registry.inserted ∨
      ∃ op rest, s.stack e.1 = .critical op :: rest ∧ s'.registry = (op.work s.registry).1 := by
  cases hs with
  | work ht hw => exact .inr ⟨_, _, ht, (congrArg Prod.fst hw).symm⟩
  | enter ht hw hc => exact .inr ⟨_, _, ht, (congrArg Prod.fst hw).symm⟩
  | _ => exact .inl ⟨rfl, rfl⟩

/-- Work under the guard is a step that does it. -/
theorem Step.critical (hs : Step code s e s') (ht : s.stack e.1 = .critical op :: rest) :
    s'.registry = (op.work s.registry).1 := by
  cases hs with
  | work ht' hw =>
    cases ht.symm.trans ht'
    exact (congrArg Prod.fst hw).symm
  | enter ht' hw hc =>
    cases ht.symm.trans ht'
    exact (congrArg Prod.fst hw).symm
  | start ht' | acquire ht' | release ht' | releaseAndDrop ht' | finish ht' | panic ht'
  | unwindClient ht' | unwindCaught ht' | unwindRaised ht' | unwindAborts ht' | unwound ht' =>
    cases ht.symm.trans ht'

theorem Step.eq_or_write (hs : Step code s e s') :
    s'.registry.callbacks = s.registry.callbacks ∧ s'.registry.inserted = s.registry.inserted ∨
      ∃ n v, s'.registry = s.registry.write n v := by
  rcases hs.registry with h | ⟨op, rest, -, hw⟩
  · exact .inl h
  · rcases (op.works s.registry).eq_or_write with h | ⟨n, v, h⟩
    · exact .inl (by rw [hw, h]; exact ⟨rfl, rfl⟩)
    · exact .inr ⟨n, v, hw.trans h⟩

theorem Step.numbered (hs : Step code s e s') (hg : s.registry.Numbered) :
    s'.registry.Numbered := by
  rcases hs.eq_or_write with ⟨hc, hi⟩ | ⟨n, v, hw⟩
  · exact ⟨by rw [hc, hi]; exact hg.lt, by rw [hc]; exact hg.unique⟩
  · rw [hw]
    exact hg.write n v

theorem Step.inserted_le (hs : Step code s e s') : s.registry.inserted ≤ s'.registry.inserted := by
  rcases hs.eq_or_write with ⟨-, hi⟩ | ⟨n, v, hw⟩
  · exact hi.ge
  · rw [hw]
    exact Registry.inserted_le_write _ _ _

/-- No step registers again what was inserted before. -/
theorem Step.registered (hs : Step code s e s') (hr : s'.registry.Registered r)
    (hlt : r.id < s.registry.inserted) : s.registry.Registered r := by
  rcases hs.eq_or_write with ⟨hc, -⟩ | ⟨n, v, hw⟩
  · rwa [Registry.Registered, hc] at hr
  · exact Registry.registered_of_write (hw ▸ hr) hlt

/-! ## The invariant of all runs -/

/-- What holds of every state reached from a start: bodies run right over a live guard, and
what is dropped, or will be, is not registered. -/
structure Traced (s : System T κ) : Prop where
  exclusive : s.Exclusive
  numbered : s.registry.Numbered
  guarded : ∀ u f below r, s.At u f below → f.Runs r →
    ∃ op later rest, below = .guarded op later :: rest
  subject_lt : ∀ u f below r, s.At u f below → f.subject = some r → r.id < s.registry.inserted
  dropped : ∀ u f below r, s.At u f below → f.subject = some r → s.registry.Registered r → f.Runs r

omit [DecidableEq T] in
theorem subject_start {programs : T → List (RegistryOp κ)} (hf : (start programs).At u f below) :
    f.subject = none := by
  rcases List.suffix_cons_iff.mp hf with heq | h
  · cases heq
    rfl
  · exact absurd (List.suffix_nil.mp h) (List.cons_ne_nil _ _)

theorem traced_start (programs : T → List (RegistryOp κ)) : (start programs).Traced where
  exclusive := exclusive_start
  numbered := ⟨fun _ _ h => (by cases h), fun _ _ _ h => (by cases h)⟩
  guarded u f below r hf hr := by cases (subject_start hf).symm.trans hr.subject
  subject_lt u f below r hf hr := by cases (subject_start hf).symm.trans hr
  dropped u f below r hf hr := by cases (subject_start hf).symm.trans hr

omit [DecidableEq T] in
/-- What a step puts on a stack is about something that was on it or in the map. -/
theorem Pushed.subject (hp : Pushed s t f below) (hr : f.subject = some r) :
    s.registry.Registered r ∨ ∃ f' below', s.At t f' below' ∧ f'.subject = some r := by
  cases hp with
  | silent hf => cases hf.symm.trans hr
  | resumed ht => exact .inr ⟨_, _, ht, hr⟩
  | @worked op later rest ht hw =>
    exact .inl ((op.works s.registry).registered (by rw [hw]; exact hr))
  | @entered op role script ending rest ht hw =>
    exact .inl ((op.works s.registry).registered (by rw [hw]; exact hr))
  | dropped ht => exact .inr ⟨_, _, ht, hr⟩

theorem Traced.pushed_lt (hi : s.Traced) (hp : Pushed s t f below) (hr : f.subject = some r) :
    r.id < s.registry.inserted := by
  rcases hp.subject hr with ⟨n, hn⟩ | ⟨f', below', hf, hr'⟩
  · exact hi.numbered.lt n r hn
  · exact hi.subject_lt _ _ _ _ hf hr'

/-- What a step pushes for a registration that is still there runs its body. -/
theorem Traced.pushed_dropped (hi : s.Traced) (hs : Step code s e s') (hp : Pushed s e.1 f below)
    (hr : f.subject = some r) (hreg : s'.registry.Registered r) : f.Runs r := by
  have hreg' := hs.registered hreg (hi.pushed_lt hp hr)
  cases hp with
  | silent hf => cases hf.symm.trans hr
  | resumed ht =>
    obtain ⟨script, ending, heq⟩ := hi.dropped _ _ _ r ht hr hreg'
    cases heq
    exact ⟨_, _, rfl⟩
  | @worked op later rest ht hw =>
    rw [hs.critical ht] at hreg
    refine absurd hreg ((op.works s.registry).not_registered hi.numbered ?_ ?_)
    · rw [hw]
      exact hr
    · rw [hw]
      exact nofun
  | @entered op role script ending rest ht hw =>
    by_contra hne
    rw [hs.critical ht] at hreg
    refine (op.works s.registry).not_registered hi.numbered ?_ ?_ hreg
    · rw [hw]
      exact hr
    · rw [hw]
      intro heq
      cases heq
      exact hne ⟨_, _, rfl⟩
  | dropped ht =>
    obtain ⟨script, ending, heq⟩ := hi.dropped _ _ _ r ht hr hreg'
    cases heq

theorem Traced.step (hi : s.Traced) (hs : Step code s e s') : s'.Traced where
  exclusive := hi.exclusive.step hs
  numbered := hs.numbered hi.numbered
  guarded u f below r hf hr := by
    rcases hs.pushed hf with hf | ⟨rfl, hp⟩
    · exact hi.guarded u f below r hf hr
    obtain ⟨script, ending, rfl⟩ := hr
    cases hp with
    | silent hf => cases hf
    | resumed ht => exact hi.guarded _ _ _ r ht ⟨_, _, rfl⟩
    | entered ht hw => exact ⟨_, _, _, rfl⟩
  subject_lt u f below r hf hr := by
    refine lt_of_lt_of_le ?_ hs.inserted_le
    rcases hs.pushed hf with hf | ⟨rfl, hp⟩
    · exact hi.subject_lt u f below r hf hr
    · exact hi.pushed_lt hp hr
  dropped u f below r hf hr hreg := by
    rcases hs.pushed hf with hf | ⟨rfl, hp⟩
    · exact hi.dropped u f below r hf hr (hs.registered hreg (hi.subject_lt u f below r hf hr))
    · exact hi.pushed_dropped hs hp hr hreg

/-- While an operation is at work on the map, no thread runs the body of a callback. -/
theorem Traced.not_runs (hi : s.Traced) (ht : s.stack t = .critical op :: rest)
    (hf : s.At u f below) : ¬ f.Runs r := by
  intro hr
  obtain ⟨op', later, rest', rfl⟩ := hi.guarded u f below r hf hr
  have hholder : ∀ {v f below}, s.At v f below → f.holds = true → s.holder = some v :=
    fun hf hh => hi.exclusive.holder_of_mem (hf.subset (List.mem_cons_self ..)) hh
  have hbelow : s.At u (.guarded op' later) rest' := (List.suffix_cons f _).trans hf
  obtain rfl : t = u := Option.some.inj
    ((hholder (at_top ht) rfl).symm.trans (hholder hbelow rfl))
  have hcount := hi.exclusive t
  rw [if_pos (hholder (at_top ht) rfl), ht, List.countP_cons_of_pos rfl] at hcount
  -- the guard below the body would be a second one
  rw [At, ht] at hf
  rcases List.suffix_cons_iff.mp hf with heq | hf
  · obtain ⟨script, ending, rfl⟩ := hr
    cases heq
  · have hmem : Frame.guarded op' later ∈ rest := hf.subset (by simp)
    have hpos : 0 < rest.countP Frame.holds := List.countP_pos_iff.mpr ⟨_, hmem, rfl⟩
    omega

/-! ## After a removal -/

/-- Registration `r` is not in the map and its body runs nowhere. What is left of it is on the
stack of `t`, at least `height` frames up. -/
structure Gone (r : Registration κ) (t : T) (height : ℕ) (s : System T κ) : Prop where
  id_lt : r.id < s.registry.inserted
  unregistered : ¬ s.registry.Registered r
  idle : ∀ u f below, s.At u f below → ¬ f.Runs r
  confined : ∀ u f below, s.At u f below → f.subject = some r → u = t ∧ height ≤ below.length

omit [DecidableEq T] in
/-- A frame pushed for what is gone goes where a frame for it was, and runs no body. -/
theorem Gone.pushed (hg : Gone r t height s) (hp : Pushed s u f below) (hr : f.subject = some r) :
    ¬ f.Runs r ∧ ∃ f', s.At u f' below ∧ f'.subject = some r := by
  cases hp with
  | silent hf => cases hf.symm.trans hr
  | @resumed role op script ending below ht =>
    refine ⟨?_, _, ht, hr⟩
    rintro ⟨_, _, heq⟩
    cases heq
    exact hg.idle _ _ _ ht ⟨_, _, rfl⟩
  | @worked op later rest ht hw =>
    exact absurd ((op.works s.registry).registered (by rw [hw]; exact hr)) hg.unregistered
  | @entered op role script ending rest ht hw =>
    exact absurd ((op.works s.registry).registered (by rw [hw]; exact hr)) hg.unregistered
  | dropped ht =>
    refine ⟨?_, _, ht, hr⟩
    rintro ⟨_, _, heq⟩
    cases heq

theorem Gone.step (hg : Gone r t height s) (hs : Step code s e s') : Gone r t height s' where
  id_lt := hg.id_lt.trans_le hs.inserted_le
  unregistered hr := hg.unregistered (hs.registered hr hg.id_lt)
  idle u f below hf hr := by
    rcases hs.pushed hf with hf | ⟨rfl, hp⟩
    · exact hg.idle u f below hf hr
    · exact (hg.pushed hp hr.subject).1 hr
  confined u f below hf hr := by
    rcases hs.pushed hf with hf | ⟨rfl, hp⟩
    · exact hg.confined u f below hf hr
    · obtain ⟨-, f', hf', hr'⟩ := hg.pushed hp hr
      exact hg.confined _ f' below hf' hr'

/-- What is gone is not entered. -/
theorem Gone.not_entered (hg : Gone r t height s) (hs : Step code s e s')
    (script : List (RegistryOp κ)) : e.2 ≠ .enter (.body r) script := by
  cases hs with
  | @enter _ op _ _ role _ _ ht hw hc =>
    rintro ⟨⟩
    exact hg.unregistered ((op.works s.registry).registered (by rw [hw]; rfl))
  | _ => exact nofun

/-- Where `t` has come back to the height, nothing is left of it. -/
theorem Gone.over (hg : Gone r t height s) (ht : (s.stack t).length ≤ height) (k : ℕ) :
    Gone r t k s where
  id_lt := hg.id_lt
  unregistered := hg.unregistered
  idle := hg.idle
  confined u f below hf hr := by
    obtain ⟨rfl, hle⟩ := hg.confined u f below hf hr
    have hlen : (f :: below).length ≤ (s.stack u).length := List.IsSuffix.length_le hf
    rw [List.length_cons] at hlen
    omega

/-- At the step that removes or replaces a registration, a frame pushed for it drops it. -/
theorem Traced.pushed_removed (hi : s.Traced) (ht : s.stack t = .critical op :: rest)
    (hw : op.writes = some (n, v)) (hreg : s.registry.Registered r) (hp : Pushed s t f below)
    (hr : f.subject = some r) : ¬ f.Runs r ∧ rest.length ≤ below.length := by
  have hat : ∀ {f below}, s.At t f below → f.subject ≠ some r := fun hf hr =>
    hi.not_runs ht hf (hi.dropped _ _ _ r hf hr hreg)
  cases hp with
  | silent hf => cases hf.symm.trans hr
  | resumed ht' => exact (hat ht' hr).elim
  | worked ht' hw' =>
    cases ht.symm.trans ht'
    refine ⟨?_, le_rfl⟩
    rintro ⟨_, _, heq⟩
    cases heq
  | entered ht' hw' =>
    cases ht.symm.trans ht'
    refine ⟨?_, Nat.le_succ _⟩
    rintro ⟨_, _, heq⟩
    cases heq
    have hworks := op.works s.registry
    rw [hw] at hworks
    exact hworks.of_some.2 r hw'
  | dropped ht' => exact (hat ht' hr).elim

/-- The step that removes or replaces a registration. -/
theorem Traced.gone (hi : s.Traced) (hs : Step code s e s')
    (ht : s.stack e.1 = .critical op :: rest) (hw : op.writes = some (n, v))
    (hl : s.registry.callbacks.lookup n = some r) : Gone r e.1 rest.length s' := by
  have hreg : s.registry.Registered r := ⟨n, hl⟩
  have hgone : ¬ s'.registry.Registered r := by
    have hworks := op.works s.registry
    rw [hw] at hworks
    rw [hs.critical ht, hworks.of_some.1]
    exact hi.numbered.not_registered_write hl
  have hpushed : ∀ {u f below}, s'.At u f below → f.subject = some r →
      u = e.1 ∧ ¬ f.Runs r ∧ rest.length ≤ below.length := by
    intro u f below hf hr
    rcases hs.pushed hf with hf | ⟨rfl, hp⟩
    · exact absurd (hi.dropped u f below r hf hr hreg) (hi.not_runs ht hf)
    · exact ⟨rfl, hi.pushed_removed ht hw hreg hp hr⟩
  exact ⟨(hi.numbered.lt n r hl).trans_le hs.inserted_le, hgone,
    fun u f below hf hr => (hpushed hf hr.subject).2.1 hr,
    fun u f below hf hr => ⟨(hpushed hf hr).1, (hpushed hf hr).2.2⟩⟩

theorem Gone.run {es : List (T × ThreadEvent κ)} (hg : Gone r t height s)
    (hrun : Execution (Step code) s es s') :
    Gone r t height s' ∧ ∀ u script, (u, .enter (.body r) script) ∉ es := by
  induction hrun with
  | refl => exact ⟨hg, fun _ _ => List.not_mem_nil⟩
  | step hrun hs ih =>
    refine ⟨ih.1.step hs, fun u script hmem => ?_⟩
    rcases List.mem_cons.mp hmem with rfl | hmem
    · exact ih.1.not_entered hs script rfl
    · exact ih.2 u script hmem

/-- In every run of any number of threads, take the step of a registration or removal under
`n` that finds `r` there, and all that can follow. The registration `r` does not come back, its
body is running nowhere and is never entered; and once the call is over, nothing that runs or
will run has to do with it, the destructor of its closure included. -/
theorem quiescent_after_removal {programs : T → List (RegistryOp κ)}
    {es fs : List (T × ThreadEvent κ)} {event : ThreadEvent κ} {s'' : System T κ}
    (hrun : Execution (Step code) (start programs) es s)
    (ht : s.stack t = .critical op :: rest) (hw : op.writes = some (n, v))
    (hl : s.registry.callbacks.lookup n = some r) (hs : Step code s (t, event) s')
    (hrun' : Execution (Step code) s' fs s'') :
    ¬ s''.registry.Registered r ∧ (∀ u, ∀ f ∈ s''.stack u, ¬ f.Runs r) ∧
    (∀ u script, (u, .enter (.body r) script) ∉ fs) ∧
    ((s''.stack t).length ≤ rest.length → ∀ gs s₃, Execution (Step code) s'' gs s₃ →
      ∀ u, ∀ f ∈ s₃.stack u, f.subject ≠ some r) := by
  have hi : s.Traced := hrun.invariant (fun _ _ _ hi hs => hi.step hs) (traced_start programs)
  obtain ⟨hg, hnot⟩ := (hi.gone hs ht hw hl).run hrun'
  refine ⟨hg.unregistered, fun u f hf => ?_, hnot, fun hover gs s₃ hrun₃ u f hf hr => ?_⟩
  · obtain ⟨below, hat⟩ := exists_at hf
    exact hg.idle u f below hat
  · obtain ⟨below, hat⟩ := exists_at hf
    have hle := (((hg.over hover (below.length + 1)).run hrun₃).1.confined u f below hat hr).2
    omega

/-- A callback that is registered and removed by one thread. -/
def removes : Unit → List (RegistryOp Unit) := fun _ =>
  [.registerCallback "a" (), .unregisterCallback "a"]

/-- Once the removal has returned, its registration is nowhere on the stack. -/
theorem quiescent_after_removal_removes : ∃ es s, Execution (Step counting) (start removes) es s ∧
    ¬ s.registry.Registered ⟨0, ()⟩ ∧ ∀ f ∈ s.stack (), f.subject ≠ some ⟨0, ()⟩ := by
  have h₁ : Execution (Step counting) (start removes) _ _ := .single (.start (t := ()) rfl)
  have h₂ := h₁.step (.acquire (t := ()) rfl rfl)
  have h₃ := h₂.step (.work (t := ()) rfl rfl)
  have h₄ := h₃.step (.release (t := ()) rfl)
  have h₅ := h₄.step (.start (t := ()) rfl)
  have h₆ := h₅.step (.acquire (t := ()) rfl rfl)
  have h₇ := h₆.step (.work (t := ()) rfl rfl)
  have h₈ := h₇.step (.releaseAndDrop (t := ()) rfl ⟨rfl, rfl⟩)
  have h₉ := h₈.step (.finish (t := ()) rfl)
  obtain ⟨hreg, -, -, hover⟩ := quiescent_after_removal h₆ rfl rfl rfl (.work (t := ()) rfl rfl)
    (.step (.step .refl (.releaseAndDrop (t := ()) rfl ⟨rfl, rfl⟩)) (.finish (t := ()) rfl))
  exact ⟨_, _, h₉, hreg, hover le_rfl [] _ .refl ()⟩

end System

end FfiBridge
