import Mathlib.Data.Prod.Lex
import FfiBridge.Registry.Poisoned

/-! # What stops the threads

Threads that cannot go on have all finished, or one of them is at the lock that it holds, and
that is for good. Where client code stays off the lock while it is held, and registers nothing,
the threads cannot go on without end either: every registration is dropped once, and between
two drops the code under way gets less.
-/
namespace FfiBridge
open Foundation

/-- Bodies and destructors have a script to follow. -/
structure ClientCode.Total {κ : Type} (code : ClientCode κ) : Prop where
  body : ∀ f, ∃ script ending, code.body f script ending
  destructor : ∀ f, ∃ script ending, code.destructor f script ending

/-- The frames that code above them comes back to. -/
def Frame.waits {κ : Type} : Frame κ → Bool
  | client _ _ _ | guarded _ none => true
  | acquire _ | critical _ | guarded _ (some _) | panicking => false

variable {T κ : Type} {code : ClientCode κ} {s s' : System T κ} {t u : T}
  {e : T × ThreadEvent κ} {op : RegistryOp κ} {old frames rest : List (Frame κ)}
  {programs : T → List (RegistryOp κ)} {es : List (T × ThreadEvent κ)}

theorem RegistryOp.work_not_program {g g' : Registry κ} : op.work g ≠ (g', .enter .program) := by
  intro hw
  have hworks := op.works g
  rw [hw] at hworks
  generalize op.writes = w at hworks
  cases hworks

theorem ClientCode.Total.follows (hc : code.Total) {role : Role κ} (hr : role ≠ .program) :
    ∃ script ending, code.follows role script ending := by
  cases role with
  | program => exact absurd rfl hr
  | body r => exact hc.body r.closure
  | destructor r => exact hc.destructor r.closure

namespace System

/-! ## Threads that cannot go on -/

/-- Only the top frame of a stack is at work. -/
def Settled (s : System T κ) : Prop := ∀ t, ∀ f ∈ (s.stack t).tail, f.waits = true

theorem settled_start : (start programs).Settled := fun _ _ hf => by cases hf

section
variable [DecidableEq T]

theorem Settled.setStack (hi : s.Settled) (ht : s.stack t = old)
    (hf : (∀ f ∈ old.tail, f.waits = true) → ∀ f ∈ frames.tail, f.waits = true) :
    (s.setStack t frames).Settled := by
  intro u
  by_cases h : u = t
  · subst h
    rw [setStack_self]
    exact hf (ht ▸ hi u)
  · rw [setStack_of_ne s frames h]
    exact hi u

theorem Settled.step (hi : s.Settled) (hs : Step code s e s') : s'.Settled := by
  have htail : ∀ {f : Frame κ} {rest : List (Frame κ)}, (∀ f' ∈ (f :: rest).tail, f'.waits = true) →
      ∀ f' ∈ rest.tail, f'.waits = true := fun h f' hf => h f' (List.mem_of_mem_tail hf)
  cases hs with
  | @start t role op script ending rest ht =>
    refine hi.setStack ht fun h => ?_
    cases op.locks with
    | true => exact List.forall_mem_cons.mpr ⟨rfl, h⟩
    | false => exact h
  | acquire ht hf => exact hi.setStack ht id
  | work ht hw => exact hi.setStack ht id
  | enter ht hw hc => exact hi.setStack ht fun h => List.forall_mem_cons.mpr ⟨rfl, h⟩
  | release ht => exact hi.setStack ht htail
  | releaseAndDrop ht hc => exact hi.setStack ht id
  | finish ht => exact hi.setStack ht htail
  | panic ht => exact hi.setStack ht id
  | unwindClient ht => exact hi.setStack ht htail
  | unwindCaught ht hp => exact hi.setStack ht fun h => htail (htail h)
  | unwindRaised ht hp => exact hi.setStack ht htail
  | unwindAborts ht hp => exact fun _ _ hf => by cases hf
  | unwound ht => exact hi.setStack ht fun _ _ hf => by cases hf

/-- A thread that is not done and not at a lock that is held has a step. -/
theorem Settled.exists_step (hi : s.Settled) (hc : code.Total) (ht : s.stack t ≠ [])
    (hwait : ∀ op rest, s.stack t = .acquire op :: rest → s.holder = none) :
    ∃ e s', Step code s (t, e) s' := by
  have htail := hi t
  cases hst : s.stack t with
  | nil => exact absurd hst ht
  | cons f rest =>
    rw [hst] at htail
    cases f with
    | client role script ending =>
      cases script with
      | cons op script => exact ⟨_, _, .start hst⟩
      | nil =>
        cases ending with
        | returns => exact ⟨_, _, .finish hst⟩
        | panics => exact ⟨_, _, .panic hst⟩
    | acquire op => exact ⟨_, _, .acquire hst (hwait _ _ hst)⟩
    | critical op =>
      generalize hw : op.work s.registry = x
      obtain ⟨g, after⟩ := x
      cases after with
      | release later => exact ⟨_, _, .work hst hw⟩
      | enter role =>
        have hr : role ≠ .program := by
          rintro rfl
          exact RegistryOp.work_not_program hw
        obtain ⟨script, ending, hf⟩ := hc.follows hr
        exact ⟨_, _, .enter hst hw hf⟩
    | guarded op later =>
      cases later with
      | none => exact ⟨_, _, .release hst⟩
      | some old =>
        obtain ⟨script, ending, hf⟩ := hc.destructor old.closure
        exact ⟨_, _, .releaseAndDrop hst hf⟩
    | panicking =>
      cases rest with
      | nil => exact ⟨_, _, .unwound hst⟩
      | cons f rest =>
        have hf := htail f (List.mem_cons_self ..)
        cases f with
        | client role script ending => exact ⟨_, _, .unwindClient hst⟩
        | guarded op later =>
          cases hp : op.panicFate with
          | caught => exact ⟨_, _, .unwindCaught hst hp⟩
          | raised => exact ⟨_, _, .unwindRaised hst hp⟩
          | aborts => exact ⟨_, _, .unwindAborts hst hp⟩
        | acquire op | critical op | panicking => cases hf

/-- A thread is done, or at the lock. -/
def Halted (s : System T κ) (t : T) : Prop := s.stack t = [] ∨ ∃ op rest, s.stack t = .acquire op :: rest

theorem Exclusive.selfAcquire (hi : s.Exclusive) (hall : ∀ t, s.Halted t) (hh : s.holder = some t) :
    s.SelfAcquire := by
  rcases hall t with hnil | ⟨op, rest, ht⟩
  · have hcount := hi t
    rw [hnil, if_pos hh] at hcount
    cases hcount
  · exact ⟨t, op, rest, ht, hh⟩

theorem not_step_iff (hi : s.Settled) (hx : s.Exclusive) (hc : code.Total) :
    (∀ e s', ¬ Step code s e s') ↔ (∀ t, s.stack t = []) ∨ s.SelfAcquire ∧ ∀ t, s.Halted t := by
  constructor
  · intro hno
    have hall : ∀ t, s.stack t = [] ∨ ∃ op rest, s.stack t = .acquire op :: rest ∧ s.holder ≠ none := by
      intro t
      by_contra hne
      rw [not_or] at hne
      obtain ⟨e, s', hs⟩ := hi.exists_step hc hne.1 fun op rest ht => by
        by_contra hh
        exact hne.2 ⟨op, rest, ht, hh⟩
      exact hno _ _ hs
    have hhalted : ∀ t, s.Halted t := fun t =>
      (hall t).imp_right fun ⟨op, rest, ht, _⟩ => ⟨op, rest, ht⟩
    by_cases hdone : ∀ t, s.stack t = []
    · exact .inl hdone
    · obtain ⟨t, ht⟩ := not_forall.mp hdone
      obtain ⟨op, rest, -, hh⟩ := (hall t).resolve_left ht
      obtain ⟨u, hu⟩ := Option.ne_none_iff_exists'.mp hh
      exact .inr ⟨hx.selfAcquire hhalted hu, hhalted⟩
  · rintro (hdone | ⟨⟨t, op, rest, ht, hh⟩, hall⟩) e s' hs
    · exact hs.stack_ne_nil (hdone e.1)
    · obtain ⟨op', rest', hu⟩ := (hall e.1).resolve_left hs.stack_ne_nil
      cases hs with
      | acquire _ hf => cases hf.symm.trans hh
      | start h | work h | enter h | release h | releaseAndDrop h | finish h | panic h
      | unwindClient h | unwindCaught h | unwindRaised h | unwindAborts h | unwound h =>
        cases hu.symm.trans h

/-- Once a thread is at the lock that it holds, the lock and the map stay as they are. -/
theorem selfAcquire_step (hx : s.Exclusive) (hself : s.SelfAcquire) (hs : Step code s e s') :
    s'.SelfAcquire ∧ s'.registry = s.registry ∧ e.2 ≠ .acquire := by
  obtain ⟨t, op, rest, ht, hh⟩ := hself
  have hholder : ∀ {u f rest'}, s.stack u = f :: rest' → f.holds = true → u = t := fun hu hf =>
    Option.some.inj ((hx.holder_of_mem (hu ▸ List.mem_cons_self ..) hf).symm.trans hh)
  have hkept : ∀ {u : T} {f : Frame κ} {rest' frames : List (Frame κ)}, s.stack u = f :: rest' →
      f ≠ .acquire op → (s.setStack u frames).SelfAcquire := by
    intro u f rest' frames hu hf
    refine ⟨t, op, rest, (setStack_of_ne s frames ?_).trans ht, hh⟩
    rintro rfl
    exact hf (List.cons.inj (hu.symm.trans ht)).1
  have hno : ∀ {u f rest'}, s.stack u = f :: rest' → f.holds = true → False := by
    intro u f rest' hu hf
    obtain rfl := hholder hu hf
    cases (List.cons.inj (hu.symm.trans ht)).1
    cases hf
  cases hs with
  | start ht' => exact ⟨hkept ht' (by simp), rfl, nofun⟩
  | acquire ht' hf => cases hf.symm.trans hh
  | work ht' hw => exact (hno ht' rfl).elim
  | enter ht' hw hc => exact (hno ht' rfl).elim
  | release ht' => exact (hno ht' rfl).elim
  | releaseAndDrop ht' hc => exact (hno ht' rfl).elim
  | finish ht' => exact ⟨hkept ht' (by simp), rfl, nofun⟩
  | panic ht' => exact ⟨hkept ht' (by simp), rfl, nofun⟩
  | unwindClient ht' => exact ⟨hkept ht' (by simp), rfl, nofun⟩
  | @unwindCaught u op' rest' later ht' hp | @unwindRaised u op' rest' later ht' hp
  | @unwindAborts u op' rest' later ht' hp =>
    obtain rfl := Option.some.inj ((hx.holder_of_mem (t := u) (f := .guarded op' later)
      (by rw [ht']; simp) rfl).symm.trans hh)
    cases ht.symm.trans ht'
  | unwound ht' => exact ⟨hkept ht' (by simp), rfl, nofun⟩

theorem selfAcquire_run {fs : List (T × ThreadEvent κ)} (hx : s.Exclusive) (hself : s.SelfAcquire)
    (hrun : Execution (Step code) s fs s') :
    (s'.Exclusive ∧ s'.SelfAcquire) ∧ s'.registry = s.registry ∧ ∀ u, (u, .acquire) ∉ fs := by
  induction hrun with
  | refl => exact ⟨⟨hx, hself⟩, rfl, fun _ => List.not_mem_nil⟩
  | step hrun hs ih =>
    obtain ⟨⟨hx', hself'⟩, hreg, hnot⟩ := ih
    obtain ⟨hself'', hreg', hne⟩ := selfAcquire_step hx' hself' hs
    refine ⟨⟨hx'.step hs, hself''⟩, hreg'.trans hreg, fun u hmem => ?_⟩
    rcases List.mem_cons.mp hmem with rfl | hmem
    · exact hne rfl
    · exact hnot u hmem

/-- From what is reached from a start, no thread can go on exactly when all have finished, or
when one is at the lock that it holds and the others are at the lock or have finished. And once
one is at the lock that it holds, however the others go on, none gets the lock again, and the
registry stays as it is. -/
theorem deadlock_iff_selfAcquire (hc : code.Total)
    (hrun : Execution (Step code) (start programs) es s) :
    ((∀ e s', ¬ Step code s e s') ↔ (∀ t, s.stack t = []) ∨ s.SelfAcquire ∧ ∀ t, s.Halted t) ∧
    (s.SelfAcquire → ∀ fs s', Execution (Step code) s fs s' →
      s'.SelfAcquire ∧ s'.registry = s.registry ∧ ∀ u, (u, .acquire) ∉ fs) := by
  have hi : s.Settled ∧ s.Exclusive := hrun.invariant (I := fun s => s.Settled ∧ s.Exclusive)
    (fun _ _ _ hi hs => ⟨hi.1.step hs, hi.2.step hs⟩) ⟨settled_start, exclusive_start⟩
  refine ⟨not_step_iff hi.1 hi.2 hc, fun hself fs s' hfs => ?_⟩
  obtain ⟨⟨-, hself'⟩, hreg, hnot⟩ := selfAcquire_run hi.2 hself hfs
  exact ⟨hself', hreg, hnot⟩

theorem counting_total : counting.Total where
  body _ := ⟨_, _, rfl, rfl⟩
  destructor _ := ⟨_, _, rfl, rfl⟩

/-- The body that counts is where its thread stops. -/
theorem deadlock_iff_selfAcquire_counting : ∃ es s,
    Execution (Step counting) (start invokesCounting) es s ∧ ∀ e s', ¬ Step counting s e s' := by
  have h₁ : Execution (Step counting) (start invokesCounting) _ _ := .single (.start (t := ()) rfl)
  have h₂ := h₁.step (.acquire (t := ()) rfl rfl)
  have h₃ := h₂.step (.work (t := ()) rfl rfl)
  have h₄ := h₃.step (.release (t := ()) rfl)
  have h₅ := h₄.step (.start (t := ()) rfl)
  have h₆ := h₅.step (.acquire (t := ()) rfl rfl)
  have h₇ := h₆.step (.enter (t := ()) rfl rfl ⟨rfl, rfl⟩)
  have h₈ := h₇.step (.start (t := ()) rfl)
  exact ⟨_, _, h₈, (deadlock_iff_selfAcquire counting_total h₈).1.mpr
    (.inr ⟨⟨(), _, _, rfl, rfl⟩, fun _ => .inr ⟨_, _, rfl⟩⟩)⟩

end

/-! ## Threads that finish -/

section
variable [Fintype T]

/-- What the frames of all stacks weigh. -/
def total (w : Frame κ → ℕ) (s : System T κ) : ℕ := ∑ t, ((s.stack t).map w).sum

end

end System

namespace RegistryOp

/-- One for an operation that puts a closure into the map. -/
def adds (op : RegistryOp κ) : ℕ :=
  match op.writes with
  | some (_, some _) => 1
  | _ => 0

end RegistryOp

namespace Frame

/-- The closures that a frame will put into the map or drop. -/
def closures : Frame κ → ℕ
  | client _ script _ => (script.map RegistryOp.adds).sum
  | acquire op | critical op => op.adds
  | guarded _ later => if later.isSome then 1 else 0
  | panicking => 0

/-- How far a frame is from being through with the lock. -/
def lockWork : Frame κ → ℕ
  | client _ script _ => 5 * script.countP RegistryOp.locks
  | acquire _ => 4
  | critical _ => 3
  | guarded _ later => if later.isSome then 2 else 1
  | panicking => 0

/-- How far client code is from its end. -/
def size : Frame κ → ℕ
  | client _ script _ => script.length + 2
  | panicking => 1
  | acquire _ | critical _ | guarded _ _ => 0

end Frame

/-- The closures that leave the map for a destructor. -/
def After.drops {κ : Type} : After κ → ℕ
  | .release later => if later.isSome then 1 else 0
  | .enter (.destructor _) => 1
  | .enter _ => 0

section
variable {g g' : Registry κ} {after : After κ}

theorem keys_insert_card (g : Registry κ) (n : String) (r : Registration κ) :
    (g.callbacks.insert n r).keys.card =
      g.callbacks.keys.card + if (g.callbacks.lookup n).isSome then 0 else 1 := by
  have hkeys : (g.callbacks.insert n r).keys = insert n g.callbacks.keys := by
    ext m
    simp [Finmap.mem_keys]
  rw [hkeys]
  cases hl : (g.callbacks.lookup n).isSome with
  | true =>
    rw [Finset.insert_eq_self.mpr (Finmap.mem_keys.mpr (Finmap.lookup_isSome.mp hl))]
    rfl
  | false =>
    rw [Finset.card_insert_of_notMem fun hm => ?_]
    · rfl
    · rw [Finmap.lookup_isSome.mpr (Finmap.mem_keys.mp hm)] at hl
      cases hl

theorem keys_erase_card (g : Registry κ) (n : String) :
    (g.callbacks.erase n).keys.card + (if (g.callbacks.lookup n).isSome then 1 else 0) =
      g.callbacks.keys.card := by
  have hkeys : (g.callbacks.erase n).keys = g.callbacks.keys.erase n := by
    ext m
    simp [Finmap.mem_keys]
  rw [hkeys]
  cases hl : (g.callbacks.lookup n).isSome with
  | true => exact Finset.card_erase_add_one (Finmap.mem_keys.mpr (Finmap.lookup_isSome.mp hl))
  | false =>
    rw [Finset.erase_eq_self.mpr fun hm => ?_]
    · rfl
    · rw [Finmap.lookup_isSome.mpr (Finmap.mem_keys.mp hm)] at hl
      cases hl

/-- A closure is put into the map once, and leaves it once. -/
theorem RegistryOp.card_work (hw : op.work g = (g', after)) :
    g'.callbacks.keys.card + after.drops ≤ g.callbacks.keys.card + op.adds := by
  have hworks := op.works g
  rw [hw] at hworks
  unfold adds
  generalize op.writes = w at hworks
  cases hworks with
  | reads => exact le_rfl
  | enters hl => exact le_rfl
  | @adds n v hl =>
    cases v with
    | none =>
      have hcard := keys_erase_card g n
      simp only [After.drops, Option.isSome_none, Bool.false_eq_true, if_false]
      omega
    | some f =>
      have hcard := keys_insert_card g n ⟨g.inserted, f⟩
      rw [hl] at hcard
      exact hcard.le
  | @dropsLater n v old hl =>
    cases v with
    | none =>
      have hcard := keys_erase_card g n
      rw [hl] at hcard
      exact hcard.le
    | some f =>
      have hcard := keys_insert_card g n ⟨g.inserted, f⟩
      rw [hl] at hcard
      exact (congrArg (· + 1) hcard).le
  | @drops n v old hl =>
    cases v with
    | none =>
      have hcard := keys_erase_card g n
      rw [hl] at hcard
      exact hcard.le
    | some f =>
      have hcard := keys_insert_card g n ⟨g.inserted, f⟩
      rw [hl] at hcard
      exact (congrArg (· + 1) hcard).le

end

/-- Client code does not register closures. -/
def ClientCode.RegistersNothing (code : ClientCode κ) : Prop :=
  ∀ role script ending, code.follows role script ending → ∀ op ∈ script, op.adds = 0

namespace System

variable [DecidableEq T] [Fintype T] {above above' : List (Frame κ)} {w : Frame κ → ℕ}

/-- What is left to do: closures to be dropped, then work at the lock, then client code. -/
def load (s : System T κ) : ℕ ×ₗ ℕ ×ₗ ℕ :=
  toLex (s.registry.callbacks.keys.card + s.total Frame.closures,
    toLex (s.total Frame.lockWork, s.total Frame.size))

theorem total_update (w : Frame κ → ℕ) (ht : s.stack t = above ++ rest)
    (hs : s'.stack = Function.update s.stack t (above' ++ rest)) :
    s'.total w + (above.map w).sum = s.total w + (above'.map w).sum := by
  have hrest : ∑ u ∈ Finset.univ.erase t, ((s'.stack u).map w).sum =
      ∑ u ∈ Finset.univ.erase t, ((s.stack u).map w).sum := by
    refine Finset.sum_congr rfl fun u hu => ?_
    rw [hs, Function.update_of_ne (Finset.ne_of_mem_erase hu)]
  have hs' : s'.stack t = above' ++ rest := by rw [hs, Function.update_self]
  unfold total
  rw [← Finset.add_sum_erase _ _ (Finset.mem_univ t), hrest,
    ← Finset.add_sum_erase _ (fun u => ((s.stack u).map w).sum) (Finset.mem_univ t), ht, hs']
  simp only [List.map_append, List.sum_append]
  omega

theorem load_lt (above above' : List (Frame κ)) (ht : s.stack t = above ++ rest)
    (hs : s'.stack = Function.update s.stack t (above' ++ rest))
    (h : s'.registry.callbacks.keys.card + (above'.map Frame.closures).sum <
        s.registry.callbacks.keys.card + (above.map Frame.closures).sum ∨
      s'.registry.callbacks.keys.card + (above'.map Frame.closures).sum ≤
        s.registry.callbacks.keys.card + (above.map Frame.closures).sum ∧
      ((above'.map Frame.lockWork).sum < (above.map Frame.lockWork).sum ∨
        (above'.map Frame.lockWork).sum ≤ (above.map Frame.lockWork).sum ∧
        (above'.map Frame.size).sum < (above.map Frame.size).sum)) : s'.load < s.load := by
  have hc := total_update Frame.closures ht hs
  have hl := total_update Frame.lockWork ht hs
  have hz := total_update Frame.size ht hs
  unfold load
  simp only [Prod.Lex.toLex_lt_toLex]
  omega

theorem sum_adds_of_registersNothing (hreg : code.RegistersNothing) {role : Role κ}
    {script : List (RegistryOp κ)} {ending : Ending} (hf : code.follows role script ending) :
    (script.map RegistryOp.adds).sum = 0 := by
  rw [List.sum_eq_zero_iff]
  intro k hk
  obtain ⟨op, hop, rfl⟩ := List.mem_map.mp hk
  exact hreg role script ending hf op hop

theorem lockWork_pos (op : RegistryOp κ) (later : Option (Registration κ)) :
    0 < (Frame.guarded op later).lockWork := by
  cases later <;> simp [Frame.lockWork]

/-- Every step leaves less to do. -/
theorem Step.load_lt (hs : Step code s e s') (hreg : code.RegistersNothing) (hfree : e.2.LockFree) :
    s'.load < s.load := by
  cases hs with
  | @start t role op script ending rest ht =>
    cases hl : op.locks with
    | true =>
      refine System.load_lt [_] [.acquire op, .client role script ending] ht
        rfl (.inr ⟨?_, .inl ?_⟩)
      · simp [setStack, Frame.closures]
      · simp only [List.map_cons, List.map_nil, List.sum_cons, List.sum_nil, Frame.lockWork,
          List.countP_cons, hl, if_true]
        omega
    | false =>
      refine System.load_lt [_] [.client role script ending] ht rfl
        (.inr ⟨?_, .inr ⟨?_, ?_⟩⟩)
      · simp [setStack, Frame.closures]
      · simp [Frame.lockWork, hl]
      · simp [Frame.size]
  | @acquire t op rest ht hf =>
    refine System.load_lt [_] [_] ht rfl (.inr ⟨?_, .inl ?_⟩)
    · cases s.registry.poisoned <;> simp [setStack, Frame.closures]
    · cases s.registry.poisoned <;> simp [Frame.lockWork]
  | @work t op rest g later ht hw =>
    refine System.load_lt [_] [_] ht rfl (.inr ⟨?_, .inl ?_⟩)
    · exact RegistryOp.card_work hw
    · cases later <;> simp [Frame.lockWork]
  | @enter t op rest g role script ending ht hw hc =>
    have hcard := RegistryOp.card_work hw
    have hadds := sum_adds_of_registersNothing hreg hc
    have hlocks : script.countP RegistryOp.locks = 0 :=
      List.countP_eq_zero.mpr fun op hop => by simp [hfree op hop]
    refine System.load_lt [_] [_, _] ht rfl (.inr ⟨?_, .inl ?_⟩)
    · simp only [List.map_cons, List.map_nil, List.sum_cons, List.sum_nil, Frame.closures, hadds,
        Option.isSome_none, Bool.false_eq_true, if_false]
      omega
    · simp [Frame.lockWork, hlocks]
  | release ht =>
    refine System.load_lt [_] [] ht rfl (.inr ⟨?_, .inl ?_⟩)
    · simp [setStack]
    · simp [Frame.lockWork]
  | @releaseAndDrop t op rest old script ending ht hc =>
    have hadds := sum_adds_of_registersNothing hreg hc
    refine System.load_lt [_] [_] ht rfl (.inl ?_)
    simp [setStack, Frame.closures, hadds]
  | finish ht =>
    refine System.load_lt [_] [] ht rfl (.inr ⟨?_, .inr ⟨?_, ?_⟩⟩)
    · simp [setStack]
    · simp
    · simp [Frame.size]
  | panic ht =>
    refine System.load_lt [_] [_] ht rfl (.inr ⟨?_, .inr ⟨?_, ?_⟩⟩)
    · simp [setStack, Frame.closures]
    · simp [Frame.lockWork]
    · simp [Frame.size]
  | unwindClient ht =>
    refine System.load_lt [_, _] [_] ht rfl (.inr ⟨?_, .inr ⟨?_, ?_⟩⟩)
    · simp [setStack, Frame.closures]
    · simp [Frame.lockWork]
    · simp [Frame.size]
  | @unwindCaught t op rest later ht hp =>
    refine System.load_lt [_, _] [] ht rfl (.inr ⟨?_, .inl ?_⟩)
    · simp
    · simpa using .inr (lockWork_pos op later)
  | @unwindRaised t op rest later ht hp =>
    refine System.load_lt [_, _] [_] ht rfl (.inr ⟨?_, .inl ?_⟩)
    · simp [Frame.closures]
    · simpa [Frame.lockWork] using lockWork_pos op later
  | @unwindAborts t op rest later ht hp =>
    have hpos : 0 < s.total Frame.lockWork := by
      refine Finset.sum_pos' (fun _ _ => Nat.zero_le _) ⟨t, Finset.mem_univ t, ?_⟩
      have := lockWork_pos op later
      rw [ht, List.map_cons, List.map_cons, List.sum_cons, List.sum_cons]
      omega
    unfold load
    simp only [Prod.Lex.toLex_lt_toLex, total, List.map_nil, List.sum_nil, Finset.sum_const_zero]
    unfold total at hpos
    omega
  | unwound ht =>
    refine System.load_lt [_] [] ht rfl (.inr ⟨?_, .inr ⟨?_, ?_⟩⟩)
    · simp [setStack]
    · simp
    · simp [Frame.size]

/-- Any number of threads, with client code that always ends, stays off the lock while it is held and
registers nothing: no run goes on without end, and in one that cannot go on every thread has ended,
be it after its program or cut short by a panic or an abort, and the lock is free. -/
theorem runs_complete (hc : code.Total) (hreg : code.RegistersNothing) :
    (∀ (run : ℕ → System T κ) (es : ℕ → T × ThreadEvent κ),
      ¬ ∀ n, Guarded (Step code) (fun _ e => e.2.LockFree) (run n) (es n) (run (n + 1))) ∧
    ∀ es s, Execution (Guarded (Step code) fun _ e => e.2.LockFree) (start programs) es s →
      (∀ e s', ¬ Step code s e s') → (∀ t, s.stack t = []) ∧ s.holder = none := by
  refine ⟨no_infinite_run load fun s e s' hs => hs.1.load_lt hreg hs.2, fun es s hrun hno => ?_⟩
  have hi : s.Settled ∧ s.Exclusive := hrun.of_guarded.invariant
    (I := fun s => s.Settled ∧ s.Exclusive)
    (fun _ _ _ hi hs => ⟨hi.1.step hs, hi.2.step hs⟩) ⟨settled_start, exclusive_start⟩
  have hself : ¬ s.SelfAcquire := not_selfAcquire_of_lockFree hrun
  have hdone := ((not_step_iff hi.1 hi.2 hc).mp hno).resolve_right fun h => hself h.1
  refine ⟨hdone, Option.eq_none_iff_forall_ne_some.mpr fun t ht => ?_⟩
  have hcount := hi.2 t
  rw [hdone t, if_pos ht] at hcount
  cases hcount

/-- A thread that registers a closure and removes it again. -/
theorem runs_complete_removes : ∃ es s,
    Execution (Guarded (Step counting) fun _ e => e.2.LockFree) (start removes) es s ∧
    s.stack () = [] ∧ s.holder = none := by
  have h₁ : Execution (Guarded (Step counting) fun _ e => e.2.LockFree) (start removes) _ _ :=
    .single ⟨.start (t := ()) rfl, trivial⟩
  have h₂ := h₁.step ⟨.acquire (t := ()) rfl rfl, trivial⟩
  have h₃ := h₂.step ⟨.work (t := ()) rfl rfl, trivial⟩
  have h₄ := h₃.step ⟨.release (t := ()) rfl, trivial⟩
  have h₅ := h₄.step ⟨.start (t := ()) rfl, trivial⟩
  have h₆ := h₅.step ⟨.acquire (t := ()) rfl rfl, trivial⟩
  have h₇ := h₆.step ⟨.work (t := ()) rfl rfl, trivial⟩
  have h₈ := h₇.step ⟨.releaseAndDrop (t := ()) rfl ⟨rfl, rfl⟩, trivial⟩
  have h₉ := h₈.step ⟨.finish (t := ()) rfl, trivial⟩
  have h₁₀ := h₉.step ⟨.finish (t := ()) rfl, trivial⟩
  have hreg : counting.RegistersNothing := by
    rintro role script ending hf op hop
    cases role with
    | program => cases hf
    | body r =>
      obtain ⟨rfl, -⟩ := hf
      rw [List.mem_singleton.mp hop]
      rfl
    | destructor r =>
      obtain ⟨rfl, -⟩ := hf
      cases hop
  obtain ⟨hdone, hh⟩ := (runs_complete counting_total hreg).2 _ _ h₁₀
    fun e s' hs => hs.stack_ne_nil rfl
  exact ⟨_, _, h₁₀, hdone (), hh⟩

end System

end FfiBridge
