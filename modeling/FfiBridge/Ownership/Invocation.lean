import FfiBridge.Ownership.Values
import FfiBridge.Rust.Callback

/-! # What an invocation does with the allocations around it

`ffi_invoke_callback` takes the result of the callback apart: it keeps the payload of a
success and drops everything else, and neither `FfiBuffer` nor `FfiString` has a
destructor. The input is passed by value and the caller keeps its copy.
-/
namespace FfiBridge
open Foundation

variable {rt : Runtime} {l l' : Library} {name : Option (List UInt8)} {input : FfiBuffer}
  {cb : CallbackFn} {r out : FfiResult} {h : Heap}

/-! ## The result of the callback -/

/-- Nothing of `r` is lost: each allocation is released or owned by `out`, and one
`ffi_result_free` of `out` leaves none of them live. -/
def Conserves (r out : FfiResult) (h : Heap) : Prop :=
  (∀ id ∈ r.owns, id ∈ h.released ∨ id ∈ out.owns) ∧
    ∃ h', (ffiResultFree out).run h = .ok () h' ∧ ∀ id ∈ r.owns, id ∉ h'.live

/-- An owned result is conserved exactly by a result that owns all it owns. -/
theorem conserves_iff (hr : ∀ id ∈ r.owns, id ∈ h.live) (ho : out.Owned h) :
    Conserves r out h ↔ ∀ id ∈ r.owns, id ∈ out.owns := by
  constructor
  · rintro ⟨hc, -⟩ id hid
    exact (hc id hid).resolve_left (h.apart id (hr id hid))
  · intro hc
    refine ⟨fun id hid => .inr (hc id hid), _, FfiResult.run_free ho, fun id hid hl => ?_⟩
    rw [Heap.dropAll_toArena, Arena.mem_releaseAll] at hl
    exact hl.2 (hc id hid)

theorem conserves_ok_iff (hr : r.Owned h) :
    Conserves r (.ok r.payload) h ↔ r.errorMessage.owns = [] := by
  rw [conserves_iff (fun _ => hr.mem_live) (FfiResult.owned_ok hr.payload), FfiResult.owns_ok]
  constructor
  · intro hsub
    refine List.eq_nil_iff_forall_not_mem.mpr fun id hm => ?_
    have hp := hsub id (List.mem_append_left _ hm)
    exact (List.nodup_append.mp hr.nodup).2.2 id hm id hp rfl
  · intro hm id hid
    simpa [FfiResult.owns, hm] using hid

/-- A result that only owns what is new conserves no allocation at all. -/
theorem conserves_new_iff {h' : Heap} (hr : r.Owned h) (ho : out.Owned h')
    (hx : Arena.Exchange h.toArena [] h'.toArena out.owns) :
    Conserves r out h' ↔ r.owns = [] := by
  rw [conserves_iff (fun _ hid => hx.spares _ (hr.mem_live hid)) ho]
  constructor
  · intro hsub
    refine List.eq_nil_iff_forall_not_mem.mpr fun id hid => ?_
    exact List.not_mem_nil (hx.apart id (hsub id hid) (hr.mem_live hid))
  · intro hnil id hid
    simp [hnil] at hid

/-- The success path keeps the payload and the error path keeps nothing, so an invocation
conserves the result of its callback exactly when there is nothing else to keep. -/
theorem invocation_conserves_iff (hc : l.callee name = some cb)
    (hr : (cb.run input).run l.heap = .ok r h) (hown : r.Owned h)
    (hout : (ffiInvokeCallback rt name input).run l = .ok out l') :
    Conserves r out l'.heap ↔
      r.errorMessage.owns = [] ∧ (r.isOk = true ∨ r.payload.owns = []) := by
  cases invocationEnd_of_ok hout with
  | notEntered e hc' _ => cases hc'.symm.trans hc
  | success hc' hr' hok =>
    cases hc'.symm.trans hc
    cases hr'.symm.trans hr
    simpa [hok] using conserves_ok_iff hown
  | error hn hc' hr' hok ho =>
    cases hc'.symm.trans hc
    cases hr'.symm.trans hr
    obtain ⟨hx, hout, -⟩ := err_of_within ho
    simpa [hok, FfiResult.owns] using conserves_new_iff hown hout hx
  | panicked hc' hr' _ =>
    cases hc'.symm.trans hc
    cases hr'.symm.trans hr

/-- A success that is the input itself is conserved. -/
theorem invocation_conserves_returned_input :
    Conserves (.ok ⟨.block 0, 4, 4⟩) (.ok ⟨.block 0, 4, 4⟩) .fourBytes := by
  have hout : (ffiInvokeCallback (.granting .unwind) (some [105, 100]) ⟨.block 0, 4, 4⟩).run
      (.having "id" .returning .fourBytes) = .ok _ _ :=
    run_invoke_ok rfl rfl Finmap.lookup_singleton_eq rfl rfl
  exact (invocation_conserves_iff (Library.callee_having rfl) rfl
    (FfiResult.owned_ok (FfiBuffer.owned_fourBytes le_rfl)) hout).mpr ⟨rfl, .inl rfl⟩

/-- The message of a callback that answers `Timeout` stays allocated for ever. -/
theorem timeout_message_leaks : ∃ r out h l',
    ((CallbackFn.erring (.granting .unwind) .timeout).run .null).run Heap.empty = .ok r h ∧
    r.Owned h ∧
    (ffiInvokeCallback (.granting .unwind) (some [116]) .null).run
      (.having "t" (.erring (.granting .unwind) .timeout) Heap.empty) = .ok out l' ∧
    ¬ Conserves r out l'.heap := by
  have hr : (FfiResult.err (.granting .unwind) .timeout).run Heap.empty = .ok _ _ :=
    FfiResult.run_err_served ⟨by decide, rfl⟩
  have hown := ((FfiResult.err_trade .timeout).ok _ _ hr).2.1
  have hrun : (ffiInvokeCallback (.granting .unwind) (some [116]) .null).run
      (.having "t" (.erring (.granting .unwind) .timeout) Heap.empty) = _ :=
    run_invoke_error rfl rfl Finmap.lookup_singleton_eq hr rfl
  have hout := hrun.trans (within_of_ok (FfiResult.run_err_served ⟨by decide, rfl⟩))
  obtain ⟨hx, ho, -⟩ := err_of_within (hrun.symm.trans hout)
  exact ⟨_, _, _, _, hr, hown, hout, (conserves_new_iff hown ho hx).not.mpr (by decide)⟩

end FfiBridge
