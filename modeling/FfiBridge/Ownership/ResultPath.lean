import FfiBridge.Go.Calls

/-! # The result path to Go

`CheckResult` takes over a result. Its error path gives back all the result owns. Its
success path copies the payload, zeroes it and gives back the rest, so the original payload
is never given back: it stays live to the end of every run.
-/
namespace FfiBridge
open Foundation

variable {rt : Runtime} {p p' q : Process} {result : FfiResult} {ret : Except GoError BufferRef}
  {b : BufferRef} {raw : FfiBuffer} {xs ys : List ℕ}

/-! ## One result -/

/-- What the `*Buffer` owns that `CheckResult` returns, if it returns one. -/
def returnedOwns (p : Process) : Except GoError BufferRef → List ℕ
  | .ok b => (p.buffers[b]?.map fun buffer => buffer.inner.owns).getD []
  | .error _ => []

/-- `CheckResult` returns, every allocation the result owned has been given back exactly
once, and what is live now and was not before is owned by the returned buffer. -/
def Accounted (rt : Runtime) (result : FfiResult) (p : Process) : Prop :=
  ∃ ret p', (checkResult rt result).run p = .ok ret p' ∧
    (∀ id ∈ result.owns, id ∉ p'.heap.live ∧ p'.heap.released.count id = 1) ∧
    ∀ id, id ∈ p'.heap.live ∧ id ∉ p.heap.live ↔ id ∈ returnedOwns p' ret

/-- A result given back whole, with nothing new. -/
theorem accounted_of_dropAll (hown : result.Owned p.heap) (hnil : returnedOwns q ret = [])
    (hq : q.heap = p.heap.dropAll result.owns)
    (hr : (checkResult rt result).run p = .ok ret q) : Accounted rt result p := by
  have hx : Arena.Exchange p.heap.toArena result.owns q.heap.toArena [] := by
    rw [hq]
    exact .releaseAll _ _
  refine ⟨ret, q, hr, fun id hid => ⟨fun hl => ?_, ?_⟩, fun id => ?_⟩
  · rcases (hx.live id).mp hl with ⟨-, hn⟩ | ho
    · exact hn hid
    · exact List.not_mem_nil ho
  · exact hx.count_released (hown.mem_live hid) hid List.not_mem_nil
  · rw [hnil]
    refine iff_of_false (fun ⟨hl, hn⟩ => ?_) List.not_mem_nil
    exact hn (((hx.live id).mp hl).resolve_right List.not_mem_nil).1

/-- The message of an error becomes a Go string unless its length wraps to a negative one. -/
theorem goString_returns_iff {s : FfiString} (hs : s.Owned p.heap) :
    (∃ msg q, (goStringFromFfiString s).run p = .ok msg q) ↔ 0 ≤ C.int s.len := by
  unfold goStringFromFfiString
  obtain hz | ⟨id, blk, hd, hl, hlen⟩ := hs.2
  · rw [if_pos (.inr hz), hz]
    exact iff_of_true ⟨_, _, rfl⟩ (by decide)
  · rw [hd]
    by_cases hz : s.len = 0
    · rw [if_pos (.inr hz), hz]
      exact iff_of_true ⟨_, _, rfl⟩ (by decide)
    rw [if_neg (by simp [hz])]
    constructor
    · rintro ⟨msg, q, hr⟩
      exact (C.goStringN_ok (by simp) hr).2.1
    · intro hn
      have hle : (C.int s.len).toNat ≤ blk.init.length := by
        have := C.int_le s.len
        omega
      rw [C.GoStringN_eq_GoBytes hn, C.GoBytes_of_nonneg (by simp) hn]
      exact ⟨_, _, within_of_ok (run_readBytes_block hl hle)⟩

theorem accounted_error_iff (hc : result.errorCode ≠ .ok) (hown : result.Owned p.heap) :
    Accounted rt result p ↔ 0 ≤ C.int result.errorMessage.len := by
  rw [← goString_returns_iff hown.message]
  constructor
  · rintro ⟨ret, q, hr, -⟩
    unfold checkResult at hr
    rw [if_pos (FfiErrorCode.toInt_eq_zero.not.mpr hc)] at hr
    obtain ⟨msg, t, hm, -⟩ := bind_eq_ok.mp hr
    exact ⟨msg, t, hm⟩
  · rintro ⟨msg, q, hm⟩
    obtain rfl := eq_of_final_ok (goString_state _ _) hm
    exact accounted_of_dropAll hown rfl rfl (run_checkResult_error hc hown hm)

/-- A copied payload stays where it is. -/
theorem copyBuffer_ok (hr : (copyBuffer rt raw).run p = .ok b q) :
    ∃ ids, Arena.Exchange p.heap.toArena [] q.heap.toArena ids := by
  unfold copyBuffer at hr
  split_ifs at hr with hz
  · cases hr
    exact ⟨[], .refl _⟩
  · rw [bind_of_ok (run_crossing _ _)] at hr
    obtain ⟨bytes, t, hb, hr⟩ := bind_eq_ok.mp hr
    obtain ⟨rfl, -, hlen⟩ := C.goBytes_ok (not_or.mp hz).1 hb
    have hlt : bytes.length < 2 ^ 64 := by
      have := C.int_lt raw.len
      omega
    obtain ⟨-, ⟨-, rfl⟩ | ⟨hs, -, rfl⟩⟩ := fromBytes_ok hlt hr
    · exact ⟨[], .refl _⟩
    · exact ⟨_, .acquire _ _⟩

/-- An empty payload is copied to an empty buffer. -/
theorem run_checkResult_empty (hc : result.errorCode = .ok) (hown : result.Owned p.heap)
    (hnil : result.payload.owns = []) : (checkResult rt result).run p =
      .ok (.ok p.buffers.length) ((p.withBuffer .null).withHeap (p.heap.dropAll result.owns)) := by
  have hlen : result.payload.len = 0 :=
    Nat.le_zero.mp (hown.payload.1.trans_eq (hown.payload.2.owns_eq_nil.mp hnil))
  have hcopy : (copyBuffer rt result.payload).run p =
      .ok p.buffers.length (p.withBuffer .null) := by
    unfold copyBuffer
    rw [if_pos (.inr hlen), run_newBuffer]
  have howns : FfiResult.owns { result with payload := .null } = result.owns := by
    rw [FfiResult.owns_zeroed, FfiResult.owns, hnil, List.append_nil]
  have hfree : (within (ffiResultFree { result with payload := .null }) : Go Unit).run
      (p.withBuffer .null) = .ok () ((p.withBuffer .null).withHeap (p.heap.dropAll result.owns)) := by
    rw [← howns]
    exact within_of_ok (FfiResult.run_free hown.zeroed)
  rw [run_checkResult_ok hc, bind_of_ok hcopy, bind_of_ok hfree]
  rfl

/-- The success path gives back the message alone. -/
theorem checkResult_ok_live (hc : result.errorCode = .ok) (hown : result.Owned p.heap)
    (hr : (checkResult rt result).run p = .ok ret q) {id : ℕ} (hid : id ∈ result.payload.owns) :
    id ∈ q.heap.live := by
  rw [run_checkResult_ok hc] at hr
  obtain ⟨b, t, hb, hr⟩ := bind_eq_ok.mp hr
  obtain ⟨ids, hx⟩ := copyBuffer_ok hb
  have hown' : result.Owned t.heap :=
    hown.congr fun k hk => hx.kept k (hown.mem_live hk) List.not_mem_nil
  have hfree : (within (ffiResultFree { result with payload := .null }) : Go Unit).run t =
      .ok () (t.withHeap (t.heap.dropAll _)) := within_of_ok (FfiResult.run_free hown'.zeroed)
  rw [bind_of_ok hfree] at hr
  cases hr
  refine Arena.mem_releaseAll.mpr ⟨hown'.payload.mem_live hid, fun hm => ?_⟩
  rw [FfiResult.owns_zeroed] at hm
  exact (List.nodup_append.mp hown.nodup).2.2 id hm id hid rfl

theorem accounted_ok_iff (hc : result.errorCode = .ok) (hown : result.Owned p.heap) :
    Accounted rt result p ↔ result.payload.owns = [] := by
  constructor
  · rintro ⟨ret, q, hr, hall, -⟩
    refine List.eq_nil_iff_forall_not_mem.mpr fun id hid => ?_
    exact (hall id (List.mem_append_right _ hid)).1 (checkResult_ok_live hc hown hr hid)
  · intro hnil
    refine accounted_of_dropAll hown ?_ rfl (run_checkResult_empty hc hown hnil)
    simp [returnedOwns, Process.withBuffer, Process.withHeap]

theorem accounted_iff (hown : result.Owned p.heap) : Accounted rt result p ↔
    result.errorCode ≠ .ok ∧ 0 ≤ C.int result.errorMessage.len ∨
      result.errorCode = .ok ∧ result.payload.owns = [] := by
  by_cases hc : result.errorCode = .ok
  · simp [hc, accounted_ok_iff hc hown]
  · simp [hc, accounted_error_iff hc hown]

/-! ## Runs -/

/-- The callback answers with allocations of its own, and gives back nothing that was
allocated before, however it ends. -/
structure Fresh (cb : CallbackFn) (input : FfiBuffer) (h : Heap) : Prop where
  returned : ∀ r h', (cb.run input).run h = .ok r h' →
    Arena.Exchange h.toArena [] h'.toArena r.owns ∧ r.Owned h'
  stopped : ∀ e h', (cb.run input).run h = .error e h' → ∀ id ∈ h.live, id ∉ h'.released

theorem Fresh.tame {cb : CallbackFn} {input : FfiBuffer} {h : Heap} (hf : Fresh cb input h)
    (hlive : ∀ id ∈ xs, id ∈ h.live) : Tame xs cb input h where
  leaves id hid := by
    cases hr : (cb.run input).run h with
    | ok r h' => exact h'.apart id ((hf.returned r h' hr).1.spares id (hlive id hid))
    | error e h' => exact hf.stopped e h' hr id (hlive id hid)
  payload r h' hr id hid := h'.apart id ((hf.returned r h' hr).2.payload.mem_live hid)

namespace GoCall

/-- The result that reaches `CheckResult` in a call, if any does. -/
def checked (rt : Runtime) (p : Process) : GoCall → List FfiResult
  | invokeCallback name input =>
    match p.rawInput input with
    | none => []
    | some raw =>
      match (ffiInvokeCallback rt (some (C.CString name)) raw).run p.library with
      | .ok out _ => [out]
      | .error _ _ => []
  | _ => []

/-- A step together with all results that have reached `CheckResult`, newest first. -/
def CheckedStep (rt : Runtime) (s : Process × List FfiResult) (call : GoCall)
    (t : Process × List FfiResult) : Prop :=
  call.Step rt s.1 t.1 ∧ t.2 = call.checked rt s.1 ++ s.2

/-- The callback that is entered, if any, is fresh. -/
def EntersFresh (s : Process × List FfiResult) : GoCall → Prop
  | invokeCallback name input => ∀ raw cb, s.1.rawInput input = some raw →
      s.1.library.callee (some (C.CString name)) = some cb → Fresh cb raw s.1.heap
  | _ => True

end GoCall

/-- The allocations behind the payloads of some results. -/
def payloads (results : List FfiResult) : List ℕ := results.flatMap fun r => r.payload.owns

/-- The payload that reached `CheckResult` is held apart from the buffers. -/
theorem invokeCallback_holds_payload {name : List UInt8} {input : Option BufferRef}
    {out : FfiResult} {l' : Library} (hraw : p.rawInput input = some raw)
    (hf : ∀ cb, p.library.callee (some (C.CString name)) = some cb → Fresh cb raw p.heap)
    (hr : (ffiInvokeCallback rt (some (C.CString name)) raw).run p.library = .ok out l')
    (hp : p.Holds xs) :
    (final ((invokeCallback rt name input).run p)).Holds (out.payload.owns ++ xs) := by
  have hmade : ∀ {e l₁}, (within (FfiResult.err rt e)).run l₁ = .ok out l' →
      (final ((invokeCallback rt name input).run p)).Holds (out.payload.owns ++ xs) := by
    intro e l₁ ho
    rw [(err_of_within ho).2.2.2.1]
    exact (invokeCallback_holds hraw (fun cb hc => (hf cb hc).tame hp.live) hp).1
  cases invocationEnd_of_ok hr with
  | notEntered e hc ho => exact hmade ho
  | @success cb r h hc hr' hok =>
    obtain ⟨hx, hown⟩ := (hf cb hc).returned r h hr'
    have hq : ((p.crossed raw).withLibrary (p.library.called cb raw h)).Holds (r.owns ++ xs) :=
      hp.exchange rfl hx
    rw [FfiResult.owns, List.append_assoc] at hq
    rw [run_invokeCallback hraw hr]
    exact (checkResult_ok_holds r.payload hq.forget).1
  | error hn hc hr' hok ho => exact hmade ho
  | panicked hc hr' ho => exact hmade ho

/-- A call holds on to all payloads that reached `CheckResult`, and to those it adds. -/
theorem GoCall.holds_payloads {call : GoCall} {results : List FfiResult}
    (hg : call.EntersFresh (p, results)) (hp : p.Holds (payloads results)) :
    (final ((call.run rt).run p)).Holds (payloads (call.checked rt p ++ results)) := by
  by_cases hc : ∀ name input, call ≠ .invokeCallback name input
  · have hnil : call.checked rt p = [] := by
      cases call with
      | invokeCallback name input => exact absurd rfl (hc name input)
      | _ => rfl
    rw [hnil]
    exact (GoCall.run_keeps hc p hp).1
  · push Not at hc
    obtain ⟨name, input, rfl⟩ := hc
    rw [GoCall.final_run_invokeCallback]
    cases hraw : p.rawInput input with
    | none =>
      have hnil : (invokeCallback name input).checked rt p = [] := by simp only [checked, hraw]
      rw [hnil, run_invokeCallback_nil hraw]
      exact hp
    | some raw =>
      cases hr : (ffiInvokeCallback rt (some (C.CString name)) raw).run p.library with
      | ok out l' =>
        have hone : (invokeCallback name input).checked rt p = [out] := by
          simp only [checked, hraw, hr]
        rw [hone]
        exact invokeCallback_holds_payload hraw (fun cb => hg raw cb hraw) hr hp
      | error e l' =>
        have hnil : (invokeCallback name input).checked rt p = [] := by
          simp only [checked, hraw, hr]
        rw [hnil]
        exact (invokeCallback_holds hraw (fun cb hc => (hg raw cb hraw hc).tame hp.live) hp).1

/-- Along every run on fresh callbacks, whether its buffers are freed or not, a payload that
reached `CheckResult` stays live. -/
theorem checked_payloads_live {l : Library} {calls : List GoCall} {results : List FfiResult}
    (hrun : Execution (Guarded (GoCall.CheckedStep rt) GoCall.EntersFresh) (.start l, []) calls
      (p, results)) : ∀ id ∈ payloads results, id ∈ p.heap.live := by
  have hstep : ∀ s call t, s.1.Holds (payloads s.2) →
      Guarded (GoCall.CheckedStep rt) GoCall.EntersFresh s call t → t.1.Holds (payloads t.2) := by
    rintro s call t hp ⟨⟨hs, ht⟩, hg⟩
    rw [ht, ← hs.final_eq]
    exact GoCall.holds_payloads hg hp
  have hp := hrun.invariant (I := fun s => s.1.Holds (payloads s.2)) hstep (.start l)
  exact fun id hid => hp.live id (List.mem_append_right _ hid)

/-- `CheckResult` accounts for a result exactly when it is an error whose message has a
length that fits, or a success whose payload owns nothing; and in a run no payload that
reached it is live any more exactly when none ever owned an allocation. -/
theorem result_path_accounts_iff (rt : Runtime) :
    (∀ result p, result.Owned p.heap → (Accounted rt result p ↔
      result.errorCode ≠ .ok ∧ 0 ≤ C.int result.errorMessage.len ∨
        result.errorCode = .ok ∧ result.payload.owns = [])) ∧
    ∀ l calls p results, Execution (Guarded (GoCall.CheckedStep rt) GoCall.EntersFresh)
        (.start l, []) calls (p, results) →
      ((∀ r ∈ results, ∀ id ∈ r.payload.owns, id ∉ p.heap.live) ↔
        ∀ r ∈ results, r.payload.owns = []) := by
  refine ⟨fun result p hown => accounted_iff hown, fun l calls p results hrun => ⟨fun h r hr => ?_,
    fun h r hr id hid => ?_⟩⟩
  · refine List.eq_nil_iff_forall_not_mem.mpr fun id hid => h r hr id hid ?_
    exact checked_payloads_live hrun id (List.mem_flatMap.mpr ⟨r, hr, hid⟩)
  · rw [h r hr] at hid
    cases hid

theorem fresh_erring (rt : Runtime) (error : FfiError) (input : FfiBuffer) (h : Heap) :
    Fresh (.erring rt error) input h where
  returned r h' hr :=
    have ⟨hx, hown, _⟩ := (FfiResult.err_trade error).ok r h' hr
    ⟨hx, hown⟩
  stopped e h' hr id hid := by
    have hspares := @FfiResult.err_spares rt [id] error h id (List.mem_singleton_self id) hid
    change (FfiResult.err rt error).run h = .error e h' at hr
    rw [hr, final_error] at hspares
    exact h'.apart id hspares

/-- An error that owns its message is accounted for; and after a run whose only invocation ends
in an error, no payload is live. -/
theorem result_path_accounts_error :
    (∃ out h, (FfiResult.err (.granting .unwind) .timeout).run .empty = .ok out h ∧
      out.owns ≠ [] ∧ Accounted (.granting .unwind) out (.start { Library.empty with heap := h })) ∧
    ∃ p out, Execution (Guarded (GoCall.CheckedStep (.granting .unwind)) GoCall.EntersFresh)
        (.start (.having "t" (.erring (.granting .unwind) .timeout) .empty), [])
        [.free 0, .invokeCallback [116] (some 0), .fromBytes ⟨[1], by decide⟩] (p, [out]) ∧
      out.owns ≠ [] ∧ ∀ id ∈ out.payload.owns, id ∉ p.heap.live := by
  constructor
  · have hr : (FfiResult.err (.granting .unwind) .timeout).run .empty = .ok _ _ :=
      FfiResult.run_err_served ⟨by decide, rfl⟩
    have hown := ((FfiResult.err_trade .timeout).ok _ _ hr).2.1
    exact ⟨_, _, hr, by decide,
      ((result_path_accounts_iff _).1 _ (.start { Library.empty with heap := _ }) hown).mpr
        (.inl (by decide))⟩
  · have h₁ : Execution (Guarded (GoCall.CheckedStep (.granting .unwind)) GoCall.EntersFresh)
        (.start (.having "t" (.erring (.granting .unwind) .timeout) .empty), [])
        [.fromBytes ⟨[1], by decide⟩] (⟨_, [⟨⟨.block 0, 1, 1⟩, false, true⟩], _, _⟩, []) :=
      .single ⟨⟨.returned rfl, rfl⟩, trivial⟩
    have h₂ : Execution _ _ (GoCall.invokeCallback [116] (some 0) :: _)
        (Process.mk _ [⟨⟨.block 0, 1, 1⟩, false, true⟩] _ _, [FfiResult.mk .unknown _ .null]) :=
      h₁.step ⟨⟨.returned rfl, rfl⟩, by
        intro raw cb hraw hc
        cases (Library.callee_having rfl).symm.trans hc
        exact fresh_erring _ _ _ _⟩
    have h₃ : Execution _ _ (GoCall.free 0 :: _)
        (Process.mk _ [⟨⟨.block 0, 1, 1⟩, true, false⟩] _ _, [FfiResult.mk .unknown _ .null]) :=
      h₂.step ⟨⟨.returned rfl, rfl⟩, trivial⟩
    exact ⟨_, _, h₃, by decide, ((result_path_accounts_iff _).2 _ _ _ _ h₃).mpr (by simp) _
      (List.mem_singleton_self _)⟩

/-- One byte goes through the copying callback of the tests, and both buffers are freed: the
payload the callback allocated stays live. -/
theorem copied_payload_leaks : ∃ p results,
    Execution (Guarded (GoCall.CheckedStep (.granting .unwind)) GoCall.EntersFresh)
      (.start (.having "c" (.copying (.granting .unwind)) .empty), [])
      [.free 1, .free 0, .invokeCallback [99] (some 0), .fromBytes ⟨[1], by decide⟩] (p, results) ∧
    (∀ buffer ∈ p.buffers, buffer.freed = true) ∧
    ∃ r ∈ results, ∃ id ∈ r.payload.owns, id ∈ p.heap.live := by
  have hfresh : Fresh (.copying (.granting .unwind)) ⟨.block 0, 1, 1⟩
      (Heap.empty.store ⟨⟨1, by decide⟩, [1], le_rfl⟩) := by
    have hb : FfiBuffer.Owned ⟨.block 0, 1, 1⟩ (Heap.empty.store ⟨⟨1, by decide⟩, [1], le_rfl⟩) :=
      ⟨le_rfl, Ptr.backed_store rfl rfl⟩
    have hrun : ((CallbackFn.copying (.granting .unwind)).run ⟨.block 0, 1, 1⟩).run
        (Heap.empty.store ⟨⟨1, by decide⟩, [1], le_rfl⟩) = .ok (.ok ⟨.block 1, 1, 1⟩) _ := rfl
    exact ⟨(CallbackFn.copying_trade hb).ok, fun e h' hr => by cases hrun.symm.trans hr⟩
  have h₁ : Execution (Guarded (GoCall.CheckedStep (.granting .unwind)) GoCall.EntersFresh)
      (.start (.having "c" (.copying (.granting .unwind)) .empty), [])
      [.fromBytes ⟨[1], by decide⟩] (⟨_, [⟨⟨.block 0, 1, 1⟩, false, true⟩], _, _⟩, []) :=
    .single ⟨⟨.returned rfl, rfl⟩, trivial⟩
  have h₂ : Execution _ _ (GoCall.invokeCallback [99] (some 0) :: _)
      (Process.mk _ [⟨⟨.block 0, 1, 1⟩, false, true⟩, ⟨⟨.block 2, 1, 1⟩, false, true⟩] _ _,
        [FfiResult.ok ⟨.block 1, 1, 1⟩]) :=
    h₁.step ⟨⟨.returned rfl, rfl⟩, by
      intro raw cb hraw hc
      cases hraw
      cases (Library.callee_having rfl).symm.trans hc
      exact hfresh⟩
  have h₃ : Execution _ _ (GoCall.free 0 :: _)
      (Process.mk _ [⟨⟨.block 0, 1, 1⟩, true, false⟩, ⟨⟨.block 2, 1, 1⟩, false, true⟩] _ _,
        [FfiResult.ok ⟨.block 1, 1, 1⟩]) :=
    h₂.step ⟨⟨.returned rfl, rfl⟩, trivial⟩
  have h₄ : Execution _ _ (GoCall.free 1 :: _)
      (Process.mk _ [⟨⟨.block 0, 1, 1⟩, true, false⟩, ⟨⟨.block 2, 1, 1⟩, true, false⟩] _ _,
        [FfiResult.ok ⟨.block 1, 1, 1⟩]) :=
    h₃.step ⟨⟨.returned rfl, rfl⟩, trivial⟩
  refine ⟨_, _, h₄, by simp, .ok ⟨.block 1, 1, 1⟩, List.mem_singleton_self _, 1, by decide, ?_⟩
  exact checked_payloads_live h₄ 1 (by decide)

end FfiBridge
