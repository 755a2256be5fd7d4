import FfiBridge.Go.Finalizers

/-! # The collector beside a program

A program makes its calls in order, and between any two steps the collector may run the
finalizer of a buffer that the rest of the program does not use. A call in progress does not
use its `*Buffer` any more, only the raw buffer it has taken, so nothing but a later use keeps
the allocation.
-/
namespace FfiBridge
open Foundation

variable (rt : Runtime)

/-- Where the program is in its present call: in none, before its C call on the raw buffer it
has taken, or after it. -/
inductive Phase where
  | idle
  | entering (call : GoCall) (raw : FfiBuffer)
  | leaving (call : GoCall) (raw : FfiBuffer) (result : CResult)

/-- The process, the calls that are still to be made, and the place in the present one. -/
structure Collected where
  process : Process
  program : List GoCall
  phase : Phase

/-- What a step is. -/
inductive GoEvent where
  | run (call : GoCall)
  | take (call : GoCall) (raw : FfiBuffer)
  | enter
  | leave
  | finalize (b : BufferRef)

namespace Phase

/-- The raw buffer a C call of the program is using. -/
def raw? : Phase → Option FfiBuffer
  | idle => none
  | entering _ raw | leaving _ raw _ => some raw

/-- The result that is on its way to `CheckResult`. -/
def result? : Phase → Option FfiResult
  | leaving _ _ (.result out) => some out
  | _ => none

/-- What the library made for that result. -/
def owns (phase : Phase) : List ℕ :=
  match phase.result? with
  | some out => out.errorMessage.owns
  | none => []

end Phase

namespace Collected

/-- One step of the program, which also goes on when it recovers from a Go panic, or one run of
a finalizer. -/
inductive Step : Collected → GoEvent → Collected → Prop
  | run {p q : Process} {call : GoCall} {program : List GoCall}
      (hr : (call.begin rt).run p = .ok none q) :
      Step ⟨p, call :: program, .idle⟩ (.run call) ⟨q, program, .idle⟩
  | take {p q : Process} {call : GoCall} {program : List GoCall} {raw : FfiBuffer}
      (hr : (call.begin rt).run p = .ok (some raw) q) :
      Step ⟨p, call :: program, .idle⟩ (.take call raw) ⟨q, program, .entering call raw⟩
  | enter {p q : Process} {call : GoCall} {program : List GoCall} {raw : FfiBuffer}
      {result : CResult} (hr : (call.cCall rt raw).run p = .ok result q) :
      Step ⟨p, program, .entering call raw⟩ .enter ⟨q, program, .leaving call raw result⟩
  | leave {p q : Process} {call : GoCall} {program : List GoCall} {raw : FfiBuffer}
      {result : CResult} (hr : (result.rest rt).run p = .ok () q) :
      Step ⟨p, program, .leaving call raw result⟩ .leave ⟨q, program, .idle⟩
  | recoverRun {p q : Process} {call : GoCall} {program : List GoCall} {text : String}
      (hr : (call.begin rt).run p = .error (.goPanic text) q) :
      Step ⟨p, call :: program, .idle⟩ (.run call) ⟨q, program, .idle⟩
  | recoverEnter {p q : Process} {call : GoCall} {program : List GoCall} {raw : FfiBuffer}
      {text : String} (hr : (call.cCall rt raw).run p = .error (.goPanic text) q) :
      Step ⟨p, program, .entering call raw⟩ .enter ⟨q, program, .idle⟩
  | recoverLeave {p q : Process} {call : GoCall} {program : List GoCall} {raw : FfiBuffer}
      {result : CResult} {text : String} (hr : (result.rest rt).run p = .error (.goPanic text) q) :
      Step ⟨p, program, .leaving call raw result⟩ .leave ⟨q, program, .idle⟩
  | finalize {p q : Process} {program : List GoCall} {phase : Phase} {b : BufferRef}
      {buffer : Buffer} (hb : p.buffers[b]? = some buffer) (hf : buffer.finalizer = true)
      (hu : ∀ call ∈ program, b ∉ call.uses) (hr : (Buffer.finalize b).run p = .ok () q) :
      Step ⟨p, program, phase⟩ (.finalize b) ⟨q, program, phase⟩

/-- The allocation of the raw buffer in use is live. -/
def Safe (s : Collected) : Prop :=
  ∀ raw, s.phase.raw? = some raw → ∀ id ∈ raw.owns, id ∈ s.process.heap.live

/-- Where a call takes the raw buffer of one with an allocation, that one has not been freed
and the program uses it again; the callback that is entered gives back nothing that a buffer
holds. -/
def Careful (s : Collected) : GoEvent → Prop
  | .take call raw => raw.owns ≠ [] → ∀ b buffer, b ∈ call.uses → s.process.buffers[b]? = some buffer →
      buffer.freed = false ∧ ∃ later ∈ s.program.tail, b ∈ later.uses
  | .enter => ∀ name input raw cb, s.phase = .entering (.invokeCallback name input) raw →
      s.process.library.callee (some (C.CString name)) = some cb →
        LeavesHeld s.process.held cb raw s.process.heap
  | _ => True

/-! ## The invariant -/

/-- What the library made for `out` is there, and `out` is one of its two kinds. -/
def Made (out : FfiResult) (h : Heap) : Prop :=
  out.errorCode = .ok ∧ out.errorMessage = .null ∨
    out.errorCode ≠ .ok ∧ out.Owned h ∧ out.payload = .null

/-- The buffers hold their allocations beside what the library made; the raw buffer in use is
that of an unfreed buffer which the program still uses. -/
structure Kept (s : Collected) : Prop where
  holds : s.process.Holds s.phase.owns
  input : ∀ raw, s.phase.raw? = some raw → raw.owns = [] ∨ ∃ b buffer,
    s.process.buffers[b]? = some buffer ∧ buffer.inner = raw ∧ buffer.freed = false ∧
      ∃ later ∈ s.program, b ∈ later.uses
  result : ∀ out, s.phase.result? = some out → Made out s.process.heap

variable {rt} {s s' : Collected} {e : GoEvent} {p q : Process} {call : GoCall} {raw : FfiBuffer}
  {out : FfiResult} {xs : List ℕ}

theorem Kept.safe (hk : s.Kept) : s.Safe := by
  intro raw hraw id hid
  rcases hk.input raw hraw with hnil | ⟨b, buffer, hb, rfl, hf, -⟩
  · rw [hnil] at hid
    cases hid
  · exact hk.holds.live id (List.mem_append_left _ (Process.mem_held hb hf hid))

/-- With no call in progress, all there is to keep is what the buffers hold. -/
theorem kept_idle {program : List GoCall} (hp : p.Holds []) : Kept ⟨p, program, .idle⟩ where
  holds := hp
  input raw h := by cases h
  result out h := by cases h

theorem made_of_err {l l' : Library} {e : FfiError} (ho : (within (FfiResult.err rt e)).run l = .ok out l')
    (hp : (p.withLibrary l).Holds []) :
    (p.withLibrary l').Holds out.errorMessage.owns ∧ Made out l'.heap := by
  obtain ⟨hx, hown, hcode, hpay, -⟩ := err_of_within ho
  have howns : out.owns = out.errorMessage.owns := by simp [FfiResult.owns, hpay]
  have hq : (p.withLibrary l').Holds (out.owns ++ []) := hp.exchange rfl hx
  rw [howns, List.append_nil] at hq
  exact ⟨hq, .inr ⟨hcode ▸ e.code_ne_ok, hown, hpay⟩⟩

/-- The library's answer to the invocation of a callback that leaves the buffers alone. -/
theorem invoke_made {name : List UInt8} {l' : Library} (hp : p.Holds [])
    (ht : ∀ cb, p.library.callee (some (C.CString name)) = some cb →
      LeavesHeld p.held cb raw p.heap)
    (hr : (ffiInvokeCallback rt (some (C.CString name)) raw).run p.library = .ok out l') :
    (p.withLibrary l').Holds out.errorMessage.owns ∧ Made out l'.heap := by
  have hspared : ∀ {cb h}, p.library.callee (some (C.CString name)) = some cb →
      final ((cb.run raw).run p.heap) = h → Heap.Spares (p.held ++ []) p.heap h := by
    rintro cb h hc rfl
    rw [List.append_nil]
    exact (ht cb hc).spares
  cases invocationEnd_of_ok hr with
  | notEntered e hc ho => exact made_of_err ho (hp.spared rfl (.refl _ _))
  | success hc hr' hok =>
    exact ⟨hp.spared rfl (hspared hc (congrArg final hr')), .inl ⟨rfl, rfl⟩⟩
  | error hn hc hr' hok ho =>
    exact made_of_err ho (hp.spared rfl (hspared hc (congrArg final hr')))
  | panicked hc hr' ho =>
    exact made_of_err ho (hp.spared rfl (hspared hc (congrArg final hr')))

/-- The C call of such a callback leaves the buffers as they are, and takes nothing from them. -/
theorem cCall_kept {result : CResult} (hp : p.Holds [])
    (ht : ∀ name input cb, call = .invokeCallback name input →
      p.library.callee (some (C.CString name)) = some cb → LeavesHeld p.held cb raw p.heap)
    (hr : (call.cCall rt raw).run p = .ok result q) :
    q.buffers = p.buffers ∧ q.Holds (Phase.leaving call raw result).owns ∧
      ∀ out, result = .result out → Made out q.heap := by
  cases call with
  | invokeCallback name input =>
    obtain ⟨out, t, hw, hr⟩ := bind_eq_ok.mp hr
    cases hr
    obtain ⟨l', hl, rfl⟩ := within_eq_ok.mp hw
    obtain ⟨hq, hm⟩ := invoke_made hp (ht name input · rfl) hl
    refine ⟨rfl, hq, fun out' ho => ?_⟩
    cases ho
    exact hm
  | _ =>
    obtain ⟨bytes, t, hb, hr⟩ := bind_eq_ok.mp hr
    cases hr
    obtain rfl := eq_of_final_ok (goBytes_state _ _ _) hb
    exact ⟨rfl, hp, nofun⟩

/-- Nor does a C call that does not return. -/
theorem cCall_holds (hp : p.Holds [])
    (ht : ∀ name input cb, call = .invokeCallback name input →
      p.library.callee (some (C.CString name)) = some cb → LeavesHeld p.held cb raw p.heap) :
    (final ((call.cCall rt raw).run p)).Holds [] := by
  cases call with
  | invokeCallback name input =>
    rw [GoCall.cCall_invokeCallback, final_bind_pure, final_within]
    refine hp.spared rfl (invoke_spares fun cb hc => ?_)
    rw [List.append_nil]
    exact (ht name input cb rfl hc).spares
  | _ =>
    change (final ((do return .bytes (← C.GoBytes raw.data (C.int raw.len)) :
      Go CResult).run p)).Holds []
    rw [final_bind_pure, goBytes_state]
    exact hp

/-- The rest of a call frees what the library made for the result, and nothing of the buffers. -/
theorem rest_holds {result : CResult} (hp : p.Holds (Phase.leaving call raw result).owns)
    (hm : ∀ out, result = .result out → Made out p.heap) :
    (final ((result.rest rt).run p)).Holds [] := by
  cases result with
  | bytes data => exact hp
  | result out =>
    change (final ((do let _ ← checkResult rt out; return () : Go Unit).run p)).Holds []
    rw [final_bind_pure]
    rcases hm out rfl with ⟨hc, hmsg⟩ | ⟨hc, hown, hpay⟩
    · obtain ⟨code, msg, payload⟩ := out
      cases hc
      cases hmsg
      exact (checkResult_ok_holds payload hp).1
    · have howns : out.owns ++ [] = out.errorMessage.owns := by simp [FfiResult.owns, hpay]
      exact (checkResult_error_holds hc hown (howns ▸ hp)).1

theorem Made.congr {h h' : Heap} (hm : Made out h)
    (hk : ∀ id ∈ out.errorMessage.owns, h'.live.lookup id = h.live.lookup id) : Made out h' := by
  rcases hm with hm | ⟨hc, hown, hpay⟩
  · exact .inl hm
  · refine .inr ⟨hc, hown.congr fun id hid => hk id ?_, hpay⟩
    simpa [FfiResult.owns, hpay] using hid

/-- Every careful step keeps the invariant. -/
theorem Kept.step (hk : s.Kept) (hs : Step rt s e s') (hg : s.Careful e) : s'.Kept := by
  cases hs with
  | @run p q call program hr =>
    have hq : (final ((call.begin rt).run p)).Holds [] := begin_holds call hk.holds
    rw [hr] at hq
    exact kept_idle hq
  | @recoverRun p q call program text hr =>
    have hq : (final ((call.begin rt).run p)).Holds [] := begin_holds call hk.holds
    rw [hr] at hq
    exact kept_idle hq
  | @take p q call program raw hr =>
    obtain ⟨rfl, hcase⟩ := begin_some hr
    refine ⟨hk.holds.spared rfl (.refl _ _), fun raw' h => ?_, fun out h => by cases h⟩
    cases h
    rcases hcase with hnil | ⟨b, buffer, hmem, hb, hi⟩
    · exact .inl hnil
    · by_cases hnil : raw.owns = []
      · exact .inl hnil
      · obtain ⟨hf, hlater⟩ := hg hnil b buffer hmem hb
        exact .inr ⟨b, buffer, hb, hi, hf, hlater⟩
  | @enter p q call program raw result hr =>
    obtain ⟨hb, hq, hm⟩ := cCall_kept hk.holds
      (fun name input cb hc => hg name input raw cb (by rw [hc])) hr
    refine ⟨hq, fun raw' h => ?_, fun out h => ?_⟩
    · rw [hb]
      exact hk.input raw' h
    · cases result with
      | bytes data => cases h
      | result out' =>
        cases h
        exact hm _ rfl
  | @recoverEnter p q call program raw text hr =>
    have hq : (final ((call.cCall rt raw).run p)).Holds [] := cCall_holds hk.holds
      fun name input cb hc => hg name input raw cb (by rw [hc])
    rw [hr] at hq
    exact kept_idle hq
  | @leave p q call program raw result hr =>
    have hq : (final ((result.rest rt).run p)).Holds [] :=
      rest_holds hk.holds fun out ho => hk.result out (by rw [ho]; rfl)
    rw [hr] at hq
    exact kept_idle hq
  | @recoverLeave p q call program raw result text hr =>
    have hq : (final ((result.rest rt).run p)).Holds [] :=
      rest_holds hk.holds fun out ho => hk.result out (by rw [ho]; rfl)
    rw [hr] at hq
    exact kept_idle hq
  | @finalize p q program phase b buffer hb hf hu hr =>
    obtain ⟨hq, hother, hlook⟩ := finalize_ok hr hk.holds
    refine ⟨hq, fun raw h => ?_, fun out h => ?_⟩
    · refine (hk.input raw h).imp_right ?_
      rintro ⟨b', buffer', hb', hi, hf', later, hmem, huse⟩
      have hne : b' ≠ b := by
        rintro rfl
        exact hu later hmem huse
      exact ⟨b', buffer', (hother b' hne).trans hb', hi, hf', later, hmem, huse⟩
    · refine (hk.result out h).congr fun id hid => hlook id ?_
      change id ∈ phase.owns
      unfold Phase.owns
      rw [h]
      exact hid

/-- A raw buffer in use whose `*Buffer` is not used any more can be given back under the call. -/
theorem finalize_unsafe {b : BufferRef} {buffer : Buffer} (hraw : s.phase.raw? = some buffer.inner)
    (hb : s.process.buffers[b]? = some buffer) (harmed : buffer.finalizer = true)
    (hf : buffer.freed = false) (hown : buffer.inner.Owned s.process.heap)
    (hne : buffer.inner.owns ≠ []) (hu : ∀ later ∈ s.program, b ∉ later.uses) :
    ∃ s', Step rt s (.finalize b) s' ∧ ¬ s'.Safe := by
  obtain ⟨p, program, phase⟩ := s
  have hb' : (p.unarm b).buffers[b]? = some { buffer with finalizer := false } := by
    have hb : p.buffers[b]? = some buffer := hb
    simp [Process.unarm, hb]
  have hr : (Buffer.free b).run (p.unarm b) = .ok () ((p.unarm b).giveBack b buffer.inner) :=
    @run_free_of_ok _ _ { buffer with finalizer := false } hb' hf (FfiBuffer.run_dealloc hown)
  refine ⟨_, .finalize hb harmed hu hr, fun hsafe => ?_⟩
  obtain ⟨id, hid⟩ := List.exists_mem_of_ne_nil _ hne
  exact (Arena.mem_releaseAll.mp (hsafe buffer.inner hraw id hid)).2 hid

/-- In every run whose steps are careful, the allocation of a raw buffer is live from where it
is taken to where its C call has returned. And from every state in which a C call uses the raw
buffer of a `*Buffer` that still has its finalizer and is not used again, the finalizer can
give the allocation back. -/
theorem live_in_careful_runs (rt : Runtime) :
    (∀ l program es s, Execution (Guarded (Step rt) Careful) ⟨.start l, program, .idle⟩ es s →
      s.Safe) ∧
    ∀ (s : Collected) (b : BufferRef) (buffer : Buffer), s.phase.raw? = some buffer.inner →
      s.process.buffers[b]? = some buffer → buffer.finalizer = true → buffer.freed = false →
      buffer.inner.Owned s.process.heap → buffer.inner.owns ≠ [] →
      (∀ later ∈ s.program, b ∉ later.uses) → ∃ s', Step rt s (.finalize b) s' ∧ ¬ s'.Safe := by
  refine ⟨fun l program es s hrun => ?_, fun s b buffer => finalize_unsafe⟩
  have hk : Kept s := hrun.invariant (fun _ _ _ hk hs => hk.step hs.1 hs.2) (kept_idle (.start l))
  exact hk.safe

/-- A buffer of one byte that is read and then freed. -/
def readsAndFrees : List GoCall := [.fromBytes ⟨[2], by decide⟩, .bytes 0, .free 0]

/-- A buffer of one byte that is read and not used again. -/
def reads : List GoCall := [.fromBytes ⟨[2], by decide⟩, .bytes 0]

/-- A buffer that is freed afterwards is live while it is read. -/
theorem live_in_careful_runs_freed : ∃ es s,
    Execution (Step (.granting .unwind)) ⟨.start .empty, readsAndFrees, .idle⟩ es s ∧
      s.phase.raw? = some ⟨.block 0, 1, 1⟩ ∧ s.Safe := by
  have h₁ : Execution (Guarded (Step (.granting .unwind)) Careful)
      ⟨.start .empty, readsAndFrees, .idle⟩ _ _ := .single ⟨.run rfl, trivial⟩
  have h₂ := h₁.step (u := ⟨_, [.free 0], .entering (.bytes 0) ⟨.block 0, 1, 1⟩⟩)
    ⟨.take rfl, by
      rintro - b buffer hb hbuf
      obtain rfl := List.mem_singleton.mp hb
      cases hbuf
      exact ⟨rfl, .free 0, List.mem_singleton_self _, List.mem_singleton_self _⟩⟩
  exact ⟨_, _, h₂.of_guarded, rfl, (live_in_careful_runs _).1 _ _ _ _ h₂⟩

/-- The collector frees a buffer that `Bytes` is reading. -/
theorem buffer_freed_while_read : ∃ es s,
    Execution (Step (.granting .unwind)) ⟨.start .empty, reads, .idle⟩ es s ∧ ¬ s.Safe := by
  have h₁ : Execution (Step (.granting .unwind)) ⟨.start .empty, reads, .idle⟩ _ _ :=
    .single (.run rfl)
  have h₂ := h₁.step (u := ⟨_, [], .entering (.bytes 0) ⟨.block 0, 1, 1⟩⟩) (.take rfl)
  have h₃ := h₂.step (.finalize (b := 0) rfl rfl (by simp) rfl)
  refine ⟨_, _, h₃, fun hsafe => ?_⟩
  exact Arena.notMem_live_of_released (List.mem_of_getElem? (i := 0) rfl)
    (hsafe ⟨.block 0, 1, 1⟩ rfl 0 (by decide))

end Collected

end FfiBridge
