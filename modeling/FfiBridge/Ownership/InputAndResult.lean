import FfiBridge.Ownership.Values
import FfiBridge.Rust.Callback

/-! # The input and the result of an invocation

The caller passes `FfiBuffer` by value and keeps its copy, which it frees afterwards, as
it frees the result. The two overlap when the callback has given its argument back as the
payload, or has freed it already.
-/
namespace FfiBridge
open Foundation

/-- What a callback may do with the buffer it is given: leave it alone or read it, return
it in `FfiResult::ok`, or free it. -/
inductive ArgumentUse where
  | leave
  | giveBack
  | release
  deriving DecidableEq, Repr

/-- What `input` owns is live and unchanged. -/
def Intact (input : FfiBuffer) (h h' : Heap) : Prop :=
  ∀ id ∈ input.owns, h'.live.lookup id = h.live.lookup id

/-- The call `cb input` on the heap `h` uses its argument as `u` says, and the result is
otherwise its own. -/
def Uses (u : ArgumentUse) (cb : CallbackFn) (input : FfiBuffer) (h : Heap) : Prop :=
  match u with
  | .leave =>
    (∀ r h', (cb.run input).run h = .ok r h' →
      Intact input h h' ∧ r.Owned h' ∧ ∀ id ∈ input.owns, id ∉ r.owns) ∧
    ∀ p h', (cb.run input).run h = .error (.panic p) h' → Intact input h h'
  | .giveBack => ∃ h', (cb.run input).run h = .ok (.ok input) h' ∧ Intact input h h'
  | .release =>
    (∀ r h', (cb.run input).run h = .ok r h' → (∀ id ∈ input.owns, id ∈ h'.released) ∧ r.Owned h') ∧
    ∀ p h', (cb.run input).run h = .error (.panic p) h' → ∀ id ∈ input.owns, id ∈ h'.released

variable {rt : Runtime} {l l' : Library} {name : Option (List UInt8)} {input : FfiBuffer}
  {cb : CallbackFn} {out : FfiResult} {h h' : Heap} {u : ArgumentUse}

/-- A callback that trades nothing for its result leaves its argument alone. -/
theorem uses_leave_of_trade (hb : input.Owned h)
    (hm : Trade heapLedger [] (cb.run input) FfiResult.owns FfiResult.Owned h) :
    Uses .leave cb input h := by
  have hkept : ∀ {h' outs}, Arena.Exchange h.toArena [] h'.toArena outs → Intact input h h' :=
    fun hx id hid => hx.kept id (hb.mem_live hid) List.not_mem_nil
  refine ⟨fun r h' hr => ?_, fun p h' hr => hkept ((hm.stop _ _ hr).2 ⟨p, rfl⟩)⟩
  obtain ⟨hx, ho⟩ := hm.ok r h' hr
  exact ⟨hkept hx, ho, fun id hid hr => List.not_mem_nil (hx.apart id hr (hb.mem_live hid))⟩

/-! ## Freeing both -/

/-- The caller frees its input and the result once each, in either order, and nothing is
deallocated twice. -/
def FreesOnce (input : FfiBuffer) (out : FfiResult) (h : Heap) : Prop :=
  ∀ vs : List Value, vs.Perm [.buffer input, .result out] →
    ∀ id h', (freeAll vs).run h ≠ .error (.fault (.doubleFree id)) h'

theorem freesOnce_of_apart (hb : input.Owned h) (ho : out.Owned h)
    (hd : ∀ id ∈ input.owns, id ∉ out.owns) : FreesOnce input out h := by
  intro vs hp id h'
  have hn : ([.buffer input, .result out].flatMap Value.owns).Nodup := by
    simp only [List.flatMap_cons, List.flatMap_nil, List.append_nil, Value.owns]
    exact List.nodup_append.mpr ⟨input.owns_nodup, ho.nodup, fun a ha b hb' e => hd a ha (e ▸ hb')⟩
  rw [run_freeAll (fun v hv => ?_) ((hp.flatMap_right _).nodup_iff.mpr hn)]
  · exact fun hr => by cases hr
  · have hv' := hp.mem_iff.mp hv
    simp only [List.mem_cons, List.not_mem_nil, or_false] at hv'
    rcases hv' with rfl | rfl
    · exact hb
    · exact ho

/-- Freeing a buffer whose allocation was given back before is a double free. -/
theorem run_free_released {id : ℕ} (hb : input.Owned h') (hid : id ∈ input.owns)
    (hr : id ∈ h.released) : input.dealloc.run h = .error (.fault (.doubleFree id)) h := by
  obtain ⟨hd, hc⟩ := Ptr.mem_owns.mp hid
  change (deallocBytes _ input.data input.capacity).run h = _
  rw [hd, run_deallocBytes_released hc hb.2.le_isizeMax hr]

theorem not_freesOnce_of_released {id : ℕ} (hb : input.Owned h') (hid : id ∈ input.owns)
    (hr : id ∈ h.released) : ¬ FreesOnce input out h := fun hf =>
  hf [.buffer input, .result out] (.refl _) id h (bind_of_error (run_free_released hb hid hr) _)

theorem not_freesOnce_of_same {id : ℕ} (hb : input.Owned h) (hid : id ∈ input.owns) :
    ¬ FreesOnce input (.ok input) h := by
  intro hf
  have hr : id ∈ (h.dropAll input.owns).released :=
    Arena.mem_releaseAll_released.mpr (.inr ⟨hid, hb.mem_live hid⟩)
  have hfree : (ffiResultFree (.ok input)).run (h.dropAll input.owns) =
      .error (.fault (.doubleFree id)) (h.dropAll input.owns) := run_free_released hb hid hr
  refine hf [.buffer input, .result (.ok input)] (.refl _) id (h.dropAll input.owns) ?_
  exact (bind_of_ok (FfiBuffer.run_dealloc hb) _).trans (bind_of_error hfree _)

/-! ## After an invocation -/

theorem Intact.live (hi : Intact input h h') (hb : input.Owned h) :
    ∀ id ∈ input.owns, id ∈ h'.live := fun id hid => by
  rw [← Finmap.lookup_isSome, hi id hid, Finmap.lookup_isSome]
  exact hb.mem_live hid

/-- The ends of a call that returns, by the use it makes of its argument. -/
theorem Uses.of_ok {r : FfiResult} (hu : Uses u cb input h) (hb : input.Owned h)
    (hr : (cb.run input).run h = .ok r h') : r.Owned h' ∧
      (u = .leave → Intact input h h' ∧ ∀ id ∈ input.owns, id ∉ r.owns) ∧
      (u ≠ .leave → r = .ok input ∧ Intact input h h' ∨ ∀ id ∈ input.owns, id ∈ h'.released) := by
  cases u with
  | leave =>
    obtain ⟨hi, ho, hd⟩ := hu.1 r h' hr
    exact ⟨ho, fun _ => ⟨hi, hd⟩, fun hne => absurd rfl hne⟩
  | giveBack =>
    obtain ⟨h₁, hr₁, hi⟩ := hu
    cases hr₁.symm.trans hr
    exact ⟨FfiResult.owned_ok (hb.congr hi), fun hne => (by cases hne), fun _ => .inl ⟨rfl, hi⟩⟩
  | release =>
    obtain ⟨hrel, ho⟩ := hu.1 r h' hr
    exact ⟨ho, fun hne => (by cases hne), fun _ => .inr hrel⟩

theorem Uses.of_panic {p : PanicPayload} (hu : Uses u cb input h)
    (hr : (cb.run input).run h = .error (.panic p) h') :
    (u = .leave → Intact input h h') ∧
      (u ≠ .leave → ∀ id ∈ input.owns, id ∈ h'.released) := by
  cases u with
  | leave => exact ⟨fun _ => hu.2 p h' hr, fun hne => absurd rfl hne⟩
  | giveBack =>
    obtain ⟨h₁, hr₁, -⟩ := hu
    cases hr₁.symm.trans hr
  | release => exact ⟨fun hne => (by cases hne), fun _ => hu.2 p h' hr⟩

/-- With the callback entered, all depends on its use of the argument. -/
theorem freesOnce_iff_of_use (hb : input.Owned h) (ho : out.Owned h')
    (hleave : u = .leave → Intact input h h' ∧ ∀ id ∈ input.owns, id ∉ out.owns)
    (hother : u ≠ .leave → ∀ id ∈ input.owns, ¬ FreesOnce input out h') :
    FreesOnce input out h' ↔ input.owns = [] ∨ u = .leave := by
  by_cases hnil : input.owns = []
  · refine iff_of_true (freesOnce_of_apart (hb.congr ?_) ho ?_) (.inl hnil)
    · simp [hnil]
    · simp [hnil]
  by_cases hu : u = .leave
  · obtain ⟨hi, hd⟩ := hleave hu
    exact iff_of_true (freesOnce_of_apart (hb.congr hi) ho hd) (.inr hu)
  · obtain ⟨id, hid⟩ := List.exists_mem_of_ne_nil _ hnil
    exact iff_of_false (hother hu id hid) fun hor => hor.elim hnil hu

/-- An error result made after the callback owns nothing of the input. -/
theorem freesOnce_iff_of_error (hb : input.Owned h) {h₁ : Heap} (ho : out.Owned h')
    (hx : Arena.Exchange h₁.toArena [] h'.toArena out.owns)
    (hleave : u = .leave → Intact input h h₁)
    (hother : u ≠ .leave → ∀ id ∈ input.owns, id ∈ h₁.released) :
    FreesOnce input out h' ↔ input.owns = [] ∨ u = .leave := by
  refine freesOnce_iff_of_use hb ho (fun hu => ?_) fun hu id hid => ?_
  · have hl := (hleave hu).live hb
    refine ⟨fun id hid => ?_, fun id hid ho => List.not_mem_nil (hx.apart id ho (hl id hid))⟩
    rw [hx.kept id (hl id hid) List.not_mem_nil, hleave hu id hid]
  · exact not_freesOnce_of_released hb hid (hx.later.mem_released (hother hu id hid))

/-- The input and the result of an invocation are freed once each exactly when the input
owns nothing, no callback was entered, or the callback left its argument alone. -/
theorem invocation_freesOnce_iff (hb : input.Owned l.heap)
    (hu : ∀ cb, l.callee name = some cb → Uses u cb input l.heap)
    (hout : (ffiInvokeCallback rt name input).run l = .ok out l') :
    FreesOnce input out l'.heap ↔
      input.owns = [] ∨ l.callee name = none ∨ u = .leave := by
  have hentered : ∀ {cb}, l.callee name = some cb →
      (FreesOnce input out l'.heap ↔ input.owns = [] ∨ u = .leave) →
      (FreesOnce input out l'.heap ↔ input.owns = [] ∨ l.callee name = none ∨ u = .leave) :=
    fun hc hiff => by simpa [hc] using hiff
  cases invocationEnd_of_ok hout with
  | notEntered e hc ho =>
    obtain ⟨hx, hown, -⟩ := err_of_within ho
    refine iff_of_true (freesOnce_of_apart (hb.congr fun id hid => ?_) hown fun id hid ho => ?_)
      (.inr (.inl hc))
    · exact hx.kept id (hb.mem_live hid) List.not_mem_nil
    · exact List.not_mem_nil (hx.apart id ho (hb.mem_live hid))
  | @success cb r h hc hr hok =>
    obtain ⟨ho, hleave, hother⟩ := (hu _ hc).of_ok hb hr
    refine hentered hc (freesOnce_iff_of_use hb (FfiResult.owned_ok ho.payload) ?_ ?_)
    · intro he
      exact ⟨(hleave he).1, fun id hid hp => (hleave he).2 id hid (List.mem_append_right _ hp)⟩
    · intro hne id hid
      rcases hother hne with ⟨rfl, hi⟩ | hrel
      · exact not_freesOnce_of_same (hb.congr hi) hid
      · exact not_freesOnce_of_released hb hid (hrel id hid)
  | error hn hc hr hok ho =>
    obtain ⟨hx, hown, -⟩ := err_of_within ho
    obtain ⟨-, hleave, hother⟩ := (hu _ hc).of_ok hb hr
    refine hentered hc (freesOnce_iff_of_error hb hown hx (fun he => (hleave he).1) fun hne => ?_)
    rcases hother hne with ⟨rfl, -⟩ | hrel
    · cases hok
    · exact hrel
  | panicked hc hr ho =>
    obtain ⟨hx, hown, -⟩ := err_of_within ho
    obtain ⟨hleave, hother⟩ := (hu _ hc).of_panic hr
    exact hentered hc (freesOnce_iff_of_error hb hown hx hleave hother)

/-- The copying callback of the tests, on a buffer of four bytes. -/
theorem copying_callback_freesOnce : ∃ out l',
    (ffiInvokeCallback (.granting .unwind) (some [99]) ⟨.block 0, 4, 4⟩).run
      (.having "c" (.copying (.granting .unwind)) .fourBytes) = .ok out l' ∧
    FreesOnce ⟨.block 0, 4, 4⟩ out l'.heap := by
  have hb := FfiBuffer.owned_fourBytes (le_refl 4)
  have hr : ((CallbackFn.copying (.granting .unwind)).run ⟨.block 0, 4, 4⟩).run .fourBytes =
      .ok (.ok ⟨.block 1, 4, 4⟩) _ := rfl
  have hout : (ffiInvokeCallback (.granting .unwind) (some [99]) ⟨.block 0, 4, 4⟩).run
      (.having "c" (.copying (.granting .unwind)) .fourBytes) = .ok _ _ :=
    run_invoke_ok rfl rfl Finmap.lookup_singleton_eq hr rfl
  refine ⟨_, _, hout, (invocation_freesOnce_iff hb (fun cb h => ?_) hout).mpr (.inr (.inr rfl))⟩
  cases (Library.callee_having rfl).symm.trans h
  exact uses_leave_of_trade hb (CallbackFn.copying_trade hb)

/-- `|buf| FfiResult::ok(buf)`: freeing the input and the result frees the buffer twice. -/
theorem returning_callback_double_free : ∃ out l',
    (ffiInvokeCallback (.granting .unwind) (some [105, 100]) ⟨.block 0, 4, 4⟩).run
      (.having "id" .returning .fourBytes) = .ok out l' ∧
    FfiBuffer.Owned ⟨.block 0, 4, 4⟩ .fourBytes ∧ ¬ FreesOnce ⟨.block 0, 4, 4⟩ out l'.heap := by
  have hb := FfiBuffer.owned_fourBytes (le_refl 4)
  refine ⟨_, _, run_invoke_ok rfl rfl Finmap.lookup_singleton_eq rfl rfl, hb, ?_⟩
  exact not_freesOnce_of_same hb (List.mem_singleton_self 0)

end FfiBridge
