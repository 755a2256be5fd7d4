import FfiBridge.Registry.Progress

/-! # Where the closures go

A closure that is registered is owned by the map, then by the call that removed or replaced it,
and then it is dropped. A ledger kept next to the threads says which registrations were made and
of which the destructor was started; between the two, every one of them is in one place.
-/
namespace FfiBridge
open Foundation

variable {T κ : Type} {code : ClientCode κ} {s s' : System T κ} {t : T} {e : T × ThreadEvent κ}
  {g : Registry κ} {r : Registration κ} {op : RegistryOp κ} {frames rest : List (Frame κ)}
  {programs : T → List (RegistryOp κ)}

/-! ## The map -/

/-- The registrations in the map. -/
def Registry.closures (g : Registry κ) : Multiset (Registration κ) := values g.callbacks

theorem Registry.mem_closures : r ∈ g.closures ↔ g.Registered r := mem_values

/-- The registration an operation makes under the guard. -/
def RegistryOp.made (g : Registry κ) (op : RegistryOp κ) : Option (Registration κ) :=
  op.writes.bind fun w => w.2.map fun f => ⟨g.inserted, f⟩

/-- Whose destructor is what is entered. -/
def Role.dropped : Role κ → Option (Registration κ)
  | destructor r => some r
  | program | body _ => none

/-- What the work under the guard leaves to be dropped. -/
def After.dropped : After κ → Option (Registration κ)
  | release later => later
  | enter role => role.dropped

/-- A write takes out what stood under the name, and may put something in its place. -/
theorem Registry.closures_write (g : Registry κ) (n : String) (v : Option κ) :
    (g.write n v).closures + ((g.callbacks.lookup n).toList : Multiset (Registration κ)) =
      ((v.map fun f => Registration.mk g.inserted f).toList : Multiset (Registration κ)) +
        g.closures := by
  unfold closures
  rw [values_erase g.callbacks n]
  cases v with
  | none =>
    rw [add_comm]
    simp [write]
  | some f =>
    change values (g.callbacks.insert n ⟨g.inserted, f⟩) + _ = _
    rw [values_insert, Multiset.cons_add, add_comm]
    simp

/-- What the work under the guard makes and what it drops balance. -/
theorem RegistryOp.closures_work (op : RegistryOp κ) (g : Registry κ) :
    (op.work g).1.closures + ((op.work g).2.dropped.toList : Multiset (Registration κ)) =
      ((op.made g).toList : Multiset (Registration κ)) + g.closures := by
  have hw := op.works g
  unfold made
  generalize op.writes = w, op.work g = after at hw
  obtain ⟨g', after⟩ := after
  cases hw with
  | reads | enters => simp [After.dropped, Role.dropped]
  | @adds n v hl =>
    have h := g.closures_write n v
    rw [hl] at h
    exact h
  | @dropsLater n v old hl | @drops n v old hl =>
    have h := g.closures_write n v
    rw [hl] at h
    exact h

theorem RegistryOp.inserted_work (op : RegistryOp κ) (g : Registry κ) :
    (op.work g).1.inserted = g.inserted + (op.made g).toList.length := by
  have hw := op.works g
  unfold made
  generalize op.writes = w, op.work g = after at hw
  obtain ⟨g', after⟩ := after
  cases hw with
  | reads | enters => rfl
  | @adds n v _ | @dropsLater n v _ _ | @drops n v _ _ => cases v <;> rfl

/-! ## The ledger -/

/-- The registrations that were made and those that were dropped, newest first. -/
structure Ledger (κ : Type) where
  made : List (Registration κ)
  dropped : List (Registration κ)

def Ledger.blank : Ledger κ := ⟨[], []⟩

/-- What is dropped when the guard is. -/
def Frame.later : Frame κ → Option (Registration κ)
  | guarded _ later => later
  | client _ _ _ | acquire _ | critical _ | panicking => none

theorem Frame.later_of_waits {f : Frame κ} (hf : f.waits = true) : f.later = none := by
  cases f with
  | guarded op later =>
    cases later with
    | none => rfl
    | some r => cases hf
  | _ => rfl

namespace System

/-- What the step `e` from `s` adds to the ledger. -/
def tally (s : System T κ) (e : T × ThreadEvent κ) (l : Ledger κ) : Ledger κ :=
  match e.2, s.stack e.1 with
  | .work, .critical op :: _ => ⟨(op.made s.registry).toList ++ l.made, l.dropped⟩
  | .enter role _, .critical op :: _ =>
    ⟨(op.made s.registry).toList ++ l.made, role.dropped.toList ++ l.dropped⟩
  | .release, .guarded _ later :: _ => ⟨l.made, later.toList ++ l.dropped⟩
  | _, _ => l

/-- What a thread is about to drop. -/
def ahead (s : System T κ) (t : T) : Option (Registration κ) := (s.stack t).head?.bind Frame.later

/-- What was removed, and not yet dropped by the thread that removed it. -/
def pending (s : System T κ) : Option (Registration κ) := s.holder.bind s.ahead

theorem ahead_of_stack {f : Frame κ} (ht : s.stack t = f :: rest) : s.ahead t = f.later := by
  rw [ahead, ht]
  rfl

section
variable [DecidableEq T]

/-- Every registration is in one place. -/
structure Conserved (s : System T κ) (l : Ledger κ) : Prop where
  exclusive : s.Exclusive
  settled : s.Settled
  whole : (l.made : Multiset (Registration κ)) =
    s.registry.closures + (s.pending.toList : Multiset (Registration κ)) + l.dropped
  numbers : l.made.map Registration.id = (List.range s.registry.inserted).reverse

variable {l : Ledger κ}

theorem conserved_start : (start programs).Conserved (.blank : Ledger κ) where
  exclusive := exclusive_start
  settled := settled_start
  whole := by
    change (0 : Multiset (Registration κ)) = values ∅ + 0 + 0
    simp
  numbers := rfl

theorem ahead_setStack (s : System T κ) (t : T) (frames : List (Frame κ)) :
    (s.setStack t frames).ahead t = frames.head?.bind Frame.later := by
  rw [ahead, setStack_self]

/-- A thread changes its stack without having anything to drop, before or after. -/
theorem pending_setStack {f : Frame κ} (ht : s.stack t = f :: rest) (hb : f.later = none)
    (ha : frames.head?.bind Frame.later = none) : (s.setStack t frames).pending = s.pending := by
  change s.holder.bind (s.setStack t frames).ahead = s.holder.bind s.ahead
  cases hh : s.holder with
  | none => rfl
  | some u =>
    rw [Option.bind_some, Option.bind_some]
    by_cases hu : u = t
    · subst hu
      rw [ahead_setStack, ha, ahead_of_stack ht, hb]
    · rw [ahead, setStack_of_ne s frames hu]
      rfl

/-- What is pending is what the top frame of the holder has left to drop. -/
theorem Exclusive.pending {f g : Frame κ} (hx : s.Exclusive) (ht : s.stack t = f :: rest)
    (hg : g ∈ s.stack t) (hh : g.holds = true) : s.pending = f.later := by
  rw [System.pending, hx.holder_of_mem hg hh, Option.bind_some, ahead_of_stack ht]

/-- The work of an operation, on the ledger. -/
theorem Conserved.balance {g : Registry κ} {after : After κ} (hi : s.Conserved l)
    (ht : s.stack t = .critical op :: rest) (hmem : .critical op ∈ s.stack t)
    (hg : (op.work s.registry).1 = g) (ha : (op.work s.registry).2 = after) :
    (((op.made s.registry).toList ++ l.made : List (Registration κ)) : Multiset (Registration κ)) =
      g.closures + (after.dropped.toList : Multiset (Registration κ)) + l.dropped := by
  have hwork := op.closures_work s.registry
  rw [hg, ha] at hwork
  have hpend := hi.exclusive.pending ht hmem rfl
  rw [hwork, ← Multiset.coe_add, hi.whole, hpend]
  simp [Frame.later, add_assoc]

/-- What is made and what is dropped changes with what is registered and what is pending. -/
theorem Conserved.whole_step (hi : s.Conserved l) (hs : Step code s e s') :
    ((s.tally e l).made : Multiset (Registration κ)) =
      s'.registry.closures + (s'.pending.toList : Multiset (Registration κ)) + (s.tally e l).dropped := by
  have hsame : ∀ {p : Option (Registration κ)}, p = s.pending → (l.made : Multiset (Registration κ)) =
      s.registry.closures + (p.toList : Multiset (Registration κ)) + l.dropped := by
    rintro p rfl
    exact hi.whole
  have hdrop : ∀ {t : T} {f g : Frame κ} {rest : List (Frame κ)}, s.stack t = f :: rest →
      g ∈ s.stack t → g.holds = true → f.later = none → none = s.pending := fun ht hg hh hf =>
    (hf.symm.trans (hi.exclusive.pending ht hg hh).symm)
  cases hs with
  | @start t role op script ending rest ht =>
    refine hsame (pending_setStack ht rfl ?_)
    cases op.locks <;> rfl
  | @acquire t op rest ht hf =>
    refine hsame ?_
    change (s.setStack t _).ahead t = s.pending
    rw [ahead_setStack, System.pending, hf]
    cases s.registry.poisoned <;> rfl
  | @work t op rest g later ht hw =>
    have hmem : Frame.critical op ∈ s.stack t := by rw [ht]; exact List.mem_cons_self ..
    have hpending : (s.setStack t (.guarded op later :: rest)).pending = later := by
      change s.holder.bind (s.setStack t _).ahead = later
      rw [hi.exclusive.holder_of_mem hmem rfl, Option.bind_some, ahead_setStack]
      rfl
    have hbalance := hi.balance ht hmem (congrArg Prod.fst hw) (congrArg Prod.snd hw)
    simp only [tally, ht]
    refine hbalance.trans ?_
    change g.closures + (later.toList : Multiset (Registration κ)) + _ = g.closures +
      ((s.setStack t (.guarded op later :: rest)).pending.toList : Multiset (Registration κ)) + _
    rw [hpending]
  | @enter t op rest g role script ending ht hw hc =>
    have hmem : Frame.critical op ∈ s.stack t := by rw [ht]; exact List.mem_cons_self ..
    have hpending : (s.setStack t (.client role script ending :: .guarded op none :: rest)).pending =
        s.pending := pending_setStack ht rfl rfl
    rw [hi.exclusive.pending ht hmem rfl] at hpending
    have hbalance := hi.balance ht hmem (congrArg Prod.fst hw) (congrArg Prod.snd hw)
    simp only [tally, ht]
    refine hbalance.trans ?_
    change g.closures + _ + _ = g.closures +
      ((s.setStack t (.client role script ending :: .guarded op none :: rest)).pending.toList :
        Multiset (Registration κ)) + _
    rw [hpending, ← Multiset.coe_add]
    simp [Frame.later, After.dropped, add_assoc]
  | @release t op rest ht =>
    simp only [tally, ht]
    exact hsame (hdrop ht (by rw [ht]; exact List.mem_cons_self ..) rfl rfl)
  | @releaseAndDrop t op rest old script ending ht hc =>
    have hpend := hi.exclusive.pending ht (by rw [ht]; exact List.mem_cons_self ..) rfl
    have hwhole := hi.whole
    rw [hpend] at hwhole
    simp only [tally, ht]
    change (l.made : Multiset (Registration κ)) =
      s.registry.closures + 0 + ((old :: l.dropped : List (Registration κ)) : Multiset (Registration κ))
    rw [hwhole, add_zero, ← Multiset.cons_coe, ← Multiset.singleton_add, ← add_assoc]
    rfl
  | @finish t role rest ht =>
    refine hsame (pending_setStack ht rfl ?_)
    cases rest with
    | nil => rfl
    | cons f rest =>
      refine Frame.later_of_waits (hi.settled t f ?_)
      rw [ht]
      exact List.mem_cons_self ..
  | panic ht => exact hsame (pending_setStack ht rfl rfl)
  | unwindClient ht => exact hsame (pending_setStack ht rfl rfl)
  | unwindCaught ht hp =>
    exact hsame (hdrop ht (by rw [ht]; exact List.mem_cons_of_mem _ (List.mem_cons_self ..)) rfl rfl)
  | unwindRaised ht hp =>
    exact hsame (hdrop ht (by rw [ht]; exact List.mem_cons_of_mem _ (List.mem_cons_self ..)) rfl rfl)
  | unwindAborts ht hp =>
    exact hsame (hdrop ht (by rw [ht]; exact List.mem_cons_of_mem _ (List.mem_cons_self ..)) rfl rfl)
  | unwound ht => exact hsame (pending_setStack ht rfl rfl)

/-- A step conserves. -/
theorem Conserved.step (hi : s.Conserved l) (hs : Step code s e s') :
    s'.Conserved (s.tally e l) where
  exclusive := hi.exclusive.step hs
  settled := hi.settled.step hs
  whole := hi.whole_step hs
  numbers := by
    have hwork : ∀ {op : RegistryOp κ} {g : Registry κ}, (op.work s.registry).1 = g →
        ((op.made s.registry).toList ++ l.made).map Registration.id =
          (List.range g.inserted).reverse := by
      rintro op g rfl
      rw [op.inserted_work, List.map_append, hi.numbers]
      cases hm : op.made s.registry with
      | none => rfl
      | some r =>
        have hid : r.id = s.registry.inserted := by
          unfold RegistryOp.made at hm
          obtain ⟨w, -, hw⟩ := Option.bind_eq_some_iff.mp hm
          obtain ⟨f, -, rfl⟩ := Option.map_eq_some_iff.mp hw
          rfl
        simp [List.range_succ, hid]
    cases hs with
    | work ht hw =>
      simp only [tally, ht]
      exact hwork (congrArg Prod.fst hw)
    | enter ht hw hc =>
      simp only [tally, ht]
      exact hwork (congrArg Prod.fst hw)
    | release ht | releaseAndDrop ht hc =>
      simp only [tally, ht]
      exact hi.numbers
    | _ => exact hi.numbers

/-- Over every interleaving of any number of threads, whatever panics and even when the process
aborts: each registration that was made is in the map, or was taken out of it by the call that
has yet to drop it, or was dropped, and it is in one of these places once. So no destructor is
started twice, none while its closure can still be called, and when all threads are done every
closure is dropped but those still in the map. -/
theorem closures_conserved {es : List (T × ThreadEvent κ)}
    (hrun : Execution (Step code) (start programs) es s) :
    (∃ l, Execution (Noted (Step code) tally) (start programs, .blank) es (s, l)) ∧
    ∀ l, Execution (Noted (Step code) tally) (start programs, .blank) es (s, l) →
      (l.made : Multiset (Registration κ)) =
        s.registry.closures + (s.pending.toList : Multiset (Registration κ)) + l.dropped ∧
      l.made.map Registration.id = (List.range s.registry.inserted).reverse ∧
      l.dropped.Nodup ∧ (∀ r ∈ l.dropped, ¬ s.registry.Registered r) ∧
      ((∀ t, s.stack t = []) → ∀ r ∈ l.made, r ∈ l.dropped ↔ ¬ s.registry.Registered r) := by
  refine ⟨hrun.noted tally .blank, fun l hl => ?_⟩
  have hi : s.Conserved l :=
    hl.invariant (I := fun x => x.1.Conserved x.2) (fun x e y hx hs => by
      rw [hs.2]
      exact hx.step hs.1) conserved_start
  have hnodup : (s.registry.closures + (s.pending.toList : Multiset (Registration κ)) +
      (l.dropped : Multiset (Registration κ))).Nodup := by
    rw [← hi.whole, Multiset.coe_nodup]
    refine List.Nodup.of_map Registration.id ?_
    rw [hi.numbers]
    exact List.nodup_reverse.mpr List.nodup_range
  obtain ⟨-, hdropped, hdisjoint⟩ := Multiset.nodup_add.mp hnodup
  have hout : ∀ r ∈ l.dropped, ¬ s.registry.Registered r := fun r hr hreg =>
    Multiset.disjoint_left.mp hdisjoint (Multiset.mem_add.mpr (.inl (Registry.mem_closures.mpr hreg)))
      (Multiset.mem_coe.mpr hr)
  refine ⟨hi.whole, hi.numbers, Multiset.coe_nodup.mp hdropped, hout, fun hdone r hr =>
    ⟨hout r, fun hreg => ?_⟩⟩
  have hpending : s.pending = none := by
    cases hh : s.holder with
    | none => rw [pending, hh, Option.bind_none]
    | some t => rw [pending, hh, Option.bind_some, ahead, hdone t, List.head?_nil, Option.bind_none]
  have hall := Multiset.mem_coe.mpr hr
  rw [hi.whole, hpending] at hall
  simpa [Registry.mem_closures, hreg] using hall

end

/-- A closure that is registered and removed by one thread is dropped, once. -/
theorem closures_conserved_removes : ∃ es s l,
    Execution (Noted (Step counting) tally) (start removes, .blank) es (s, l) ∧
      l.made = [⟨0, ()⟩] ∧ l.dropped = [⟨0, ()⟩] ∧ l.dropped.Nodup := by
  have h₀ : Execution (Noted (Step counting) tally) (start removes, .blank) [] (start removes, .blank) :=
    .refl
  have h₁ := h₀.note (.start (t := ()) rfl)
  have h₂ := h₁.note (.acquire (t := ()) rfl rfl)
  have h₃ := h₂.note (.work (t := ()) rfl rfl)
  have h₄ := h₃.note (.release (t := ()) rfl)
  have h₅ := h₄.note (.start (t := ()) rfl)
  have h₆ := h₅.note (.acquire (t := ()) rfl rfl)
  have h₇ := h₆.note (.work (t := ()) rfl rfl)
  have h₈ := h₇.note (.releaseAndDrop (t := ()) rfl ⟨rfl, rfl⟩)
  exact ⟨_, _, _, h₈, rfl, rfl, ((closures_conserved h₈.of_noted).2 _ h₈).2.2.1⟩

end System

end FfiBridge
