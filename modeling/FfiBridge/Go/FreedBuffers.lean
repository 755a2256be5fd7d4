import FfiBridge.Go.Calls

/-! # Freed buffers on the Go side

Every accessor looks at the `freed` flag but `raw`, through which `InvokeCallback` hands a
freed buffer to Rust. Without that, and with callbacks that give back nothing the buffers hold,
no call of any run crosses with a buffer that was freed.
-/
namespace FfiBridge
open Foundation

variable {rt : Runtime} {l : Library} {p q : Process} {b : BufferRef} {buffer : Buffer}
  {call : GoCall} {calls : List GoCall}

/-- All but `InvokeCallback` take the buffer for an empty one. -/
structure TakenForEmpty (b : BufferRef) (p : Process) : Prop where
  len : (Buffer.len b).run p = .ok 0 p
  isEmpty : (Buffer.isEmpty b).run p = .ok true p
  bytes : (Buffer.bytes b).run p = .ok none p
  toJSON : ∀ unmarshal : List UInt8 → Except String Unit, (Buffer.toJSON b unmarshal).run p =
    .ok (.error (.text "ffi: buffer is empty or freed")) p
  inspect : (inspectBuffer (some b)).run p = .ok ⟨0, 0⟩ p
  free : (Buffer.free b).run p = .ok () p

theorem takenForEmpty (hb : p.buffers[b]? = some buffer) (hf : buffer.freed = true) :
    TakenForEmpty b p := by
  have hlen : (Buffer.len b).run p = .ok 0 p := by rw [run_len hb, if_pos hf]
  have hbytes := run_bytes_empty hb (.inl hf)
  refine ⟨hlen, ?_, hbytes, fun unmarshal => ?_, ?_, ?_⟩
  · unfold Buffer.isEmpty
    rw [bind_of_ok hlen]
    rfl
  · unfold Buffer.toJSON
    rw [bind_of_ok hbytes]
    rfl
  · unfold inspectBuffer
    simp only
    rw [bind_of_ok (run_deref hb), if_pos hf]
    rfl
  · unfold Buffer.free
    rw [bind_of_ok (run_deref hb), hf]
    rfl

/-- `InvokeCallback` is given no buffer that was freed with its allocation, and the callback
it enters, if any, is tame towards the buffers. -/
def GoCall.Proper (p : Process) : GoCall → Prop
  | .invokeCallback name input =>
    (∀ b buffer, input = some b → p.buffers[b]? = some buffer → buffer.freed = true →
      buffer.inner.owns = []) ∧
    ∀ raw cb, p.rawInput input = some raw → p.library.callee (some (C.CString name)) = some cb →
      Tame p.held cb raw p.heap
  | _ => True

theorem GoCall.Proper.not_stale {name : List UInt8} {input : Option BufferRef} {raw : FfiBuffer}
    (hg : GoCall.Proper p (.invokeCallback name input)) (hp : p.Holds [])
    (hraw : p.rawInput input = some raw) : p.stale raw = false := by
  cases input with
  | none =>
    cases hraw
    rfl
  | some b =>
    obtain ⟨buffer, hb, rfl⟩ := Option.map_eq_some_iff.mp hraw
    cases hf : buffer.freed with
    | false => exact hp.not_stale hb hf
    | true => simp [Process.stale, hg.1 b buffer rfl hb hf]

/-- A proper call keeps what the buffers hold, and crosses no stale one. -/
theorem GoCall.Proper.keeps (hg : call.Proper p) : p.Keeps [] (final ((call.run rt).run p)) := by
  intro hp
  by_cases hc : ∀ name input, call ≠ .invokeCallback name input
  · exact GoCall.run_keeps hc p hp
  · push Not at hc
    obtain ⟨name, input, rfl⟩ := hc
    rw [GoCall.final_run_invokeCallback]
    cases hraw : p.rawInput input with
    | some raw =>
      have h := @invokeCallback_holds rt _ _ _ _ _ hraw (fun cb hc => by
        rw [List.append_nil]
        exact hg.2 raw cb hraw hc) hp
      exact ⟨h.1, h.2 (hg.not_stale hp hraw)⟩
    | none =>
      rw [run_invokeCallback_nil hraw]
      exact ⟨hp, .of_eq rfl⟩

/-- No crossing of the process was stale. -/
def Process.Clean (p : Process) : Prop := ∀ c ∈ p.crossings, c.stale = false

theorem GoCall.Proper.clean (hg : call.Proper p) (hp : p.Holds []) (hc : p.Clean) :
    (final ((call.run rt).run p)).Clean := fun c hmem =>
  ((hg.keeps hp).2 c hmem).elim (hc c) id

/-- In every run of proper calls, whatever the library and the callbacks in it, the next
proper call crosses no stale buffer, and a freed buffer is taken for an empty one. -/
theorem proper_runs_clean
    (hrun : Execution (Guarded (GoCall.Step rt) GoCall.Proper) (.start l) calls p) :
    (∀ call : GoCall, call.Proper p → (final ((call.run rt).run p)).Clean) ∧
    ∀ b buffer, p.buffers[b]? = some buffer → buffer.freed = true → TakenForEmpty b p := by
  have hstep : ∀ s call t, s.Holds [] ∧ s.Clean →
      Guarded (GoCall.Step rt) GoCall.Proper s call t → t.Holds [] ∧ t.Clean := by
    rintro s call t ⟨hp, hc⟩ ⟨hs, hg⟩
    rw [← hs.final_eq]
    exact ⟨(hg.keeps hp).1, hg.clean hp hc⟩
  have hstart : (Process.start l).Clean := fun c hc => absurd hc List.not_mem_nil
  obtain ⟨hp, hc⟩ := hrun.invariant hstep ⟨.start l, hstart⟩
  exact ⟨fun call hg => hg.clean hp hc, fun b buffer => takenForEmpty⟩

/-- The process that has made a buffer of one byte and freed it. -/
def Process.afterFree (rt : Runtime) : Process :=
  final (((GoCall.free 0).run rt).run
    (final (((GoCall.fromBytes ⟨[1], by decide⟩).run rt).run (.start .empty))))

theorem execution_afterFree {G : Process → GoCall → Prop} (hfree : ∀ p b, G p (.free b))
    (hbytes : ∀ p data, G p (.fromBytes data)) :
    Execution (Guarded (GoCall.Step (.granting .unwind)) G) (.start .empty)
      [.free 0, .fromBytes ⟨[1], by decide⟩] (.afterFree (.granting .unwind)) :=
  .step (.step .refl ⟨.returned rfl, hbytes _ _⟩) ⟨.returned rfl, hfree _ _⟩

/-- Bytes that are freed are gone, and an invocation on bytes that are not freed is clean. -/
theorem proper_runs_clean_afterFree : TakenForEmpty 0 (.afterFree (.granting .unwind)) ∧
    ∃ p, Execution (Guarded (GoCall.Step (.granting .unwind)) GoCall.Proper)
        (.start (.having "id" .returning .empty)) [.fromBytes ⟨[1], by decide⟩] p ∧
      (final (((GoCall.invokeCallback [105, 100] (some 0)).run (.granting .unwind)).run p)).Clean := by
  refine ⟨(proper_runs_clean (execution_afterFree (fun _ _ => trivial) fun _ _ => trivial)).2 0 _ rfl
    rfl, ?_⟩
  have hrun : Execution (Guarded (GoCall.Step (.granting .unwind)) GoCall.Proper)
      (.start (.having "id" .returning .empty)) [.fromBytes ⟨[1], by decide⟩]
      (Process.mk _ [⟨⟨.block 0, 1, 1⟩, false, true⟩] _ _) := .single ⟨.returned rfl, trivial⟩
  refine ⟨_, hrun, (proper_runs_clean hrun).1 _ ⟨?_, ?_⟩⟩
  · rintro b buffer hinput hb hf
    cases hinput
    cases hb
    cases hf
  · rintro raw cb hraw hc
    cases hraw
    cases (Library.callee_having rfl).symm.trans hc
    refine ⟨fun id _ hmem => absurd hmem List.not_mem_nil, fun r h' hr id _ hmem => ?_⟩
    cases hr
    exact absurd hmem List.not_mem_nil

/-- A freed buffer goes to Rust. -/
theorem freed_buffer_crosses :
    Execution (GoCall.Step (.granting .unwind)) (.start .empty)
      [.free 0, .fromBytes ⟨[1], by decide⟩] (.afterFree (.granting .unwind)) ∧
    ¬ (final (((GoCall.invokeCallback [99] (some 0)).run (.granting .unwind)).run
      (.afterFree (.granting .unwind)))).Clean := by
  refine ⟨(@execution_afterFree (fun _ _ => True) (fun _ _ => trivial) fun _ _ =>
    trivial).of_guarded, fun hc => ?_⟩
  have hstale := hc ⟨⟨.block 0, 1, 1⟩, true⟩ (List.mem_of_getElem? (i := 0) rfl)
  cases hstale

end FfiBridge
