import FfiBridge.Foundation.Execution
import FfiBridge.Go.Ownership

/-! # Runs of Go calls

A program calls the Go API in any order. It goes on when a call returns, and also when it
recovers from a Go panic.
-/
namespace FfiBridge
open Foundation

variable (rt : Runtime)

/-- A slice, whose length is an `int`. -/
abbrev Slice := { data : List UInt8 // data.length < 2 ^ 63 }

/-- A call on `*Buffer`s, with what `json.Marshal` or `json.Unmarshal` does. The finalizer
of a buffer is a call of `Free`. -/
inductive GoCall where
  | newBuffer (capacity : ℤ)
  | fromBytes (data : Slice)
  | fromJSON (marshal : Except String Slice)
  | len (b : BufferRef)
  | isEmpty (b : BufferRef)
  | bytes (b : BufferRef)
  | toJSON (b : BufferRef) (unmarshal : List UInt8 → Except String Unit)
  | inspectBuffer (b : Option BufferRef)
  | invokeCallback (name : List UInt8) (input : Option BufferRef)
  | free (b : BufferRef)

namespace GoCall

/-- The call, without what it returns. -/
def run : GoCall → Go Unit
  | newBuffer capacity => do let _ ← NewBuffer rt capacity; return ()
  | fromBytes data => do let _ ← FfiBridge.fromBytes rt data.val; return ()
  | fromJSON marshal => do let _ ← FfiBridge.fromJSON rt (marshal.map Subtype.val); return ()
  | len b => do let _ ← Buffer.len b; return ()
  | isEmpty b => do let _ ← Buffer.isEmpty b; return ()
  | bytes b => do let _ ← Buffer.bytes b; return ()
  | toJSON b unmarshal => do let _ ← Buffer.toJSON b unmarshal; return ()
  | inspectBuffer b => do let _ ← FfiBridge.inspectBuffer b; return ()
  | invokeCallback name input => do let _ ← FfiBridge.invokeCallback rt name input; return ()
  | free b => Buffer.free b

/-- The calls after which a program goes on. -/
inductive Step : Process → GoCall → Process → Prop
  | returned {p q : Process} {call : GoCall} (hr : (call.run rt).run p = .ok () q) :
      Step p call q
  | recovered {p q : Process} {call : GoCall} {text : String}
      (hr : (call.run rt).run p = .error (.goPanic text) q) : Step p call q

end GoCall

/-- The callback gives back none of the allocations `held`. -/
def LeavesHeld (held : List ℕ) (cb : CallbackFn) (input : FfiBuffer) (h : Heap) : Prop :=
  ∀ id ∈ held, id ∉ (final ((cb.run input).run h)).released

theorem LeavesHeld.spares {held : List ℕ} {cb : CallbackFn} {input : FfiBuffer} {h : Heap}
    (ht : LeavesHeld held cb input h) : Heap.Spares held h (final ((cb.run input).run h)) :=
  .of_later (cb.history input h) ht

/-- The callback gives back none of the allocations `held`, and returns no payload that was
given back. -/
structure Tame (held : List ℕ) (cb : CallbackFn) (input : FfiBuffer) (h : Heap) : Prop where
  leaves : LeavesHeld held cb input h
  payload : ∀ r h', (cb.run input).run h = .ok r h' → ∀ id ∈ r.payload.owns, id ∉ h'.released

/-! ## Invocations of tame callbacks -/

variable {rt} {l l' : Library} {name : Option (List UInt8)} {input : FfiBuffer} {p q : Process}
  {out : FfiResult} {e : FfiError} {held xs : List ℕ}

theorem call_heap (cb : CallbackFn) (input : FfiBuffer) (l : Library) :
    (final ((cb.call input).run l)).heap = final ((cb.run input).run l.heap) := by
  rw [CallbackFn.run_call]
  cases (cb.run input).run l.heap with
  | ok r h => rfl
  | error e h => cases e <;> rfl

/-- A relation on heaps that the callback and the making of an error follow, an invocation
follows. -/
theorem invoke_follows {R : Heap → Heap → Prop} [Std.Refl R] [IsTrans Heap R]
    (hcb : ∀ cb, l.callee name = some cb → R l.heap (final ((cb.run input).run l.heap)))
    (herr : ∀ e, Respects R (FfiResult.err rt e)) :
    R l.heap (final ((ffiInvokeCallback rt name input).run l)).heap := by
  have hmade : ∀ e, Respects (fun l l' : Library => R l.heap l'.heap)
      (within (FfiResult.err rt e) : Program Library FfiResult) := fun e =>
    (herr e).within fun _ _ h => h
  cases hn : cstrToString name with
  | error e =>
    rw [run_invoke_invalid hn]
    exact hmade e l
  | ok n =>
    rw [ffiInvokeCallback_of_valid hn]
    refine IsTrans.trans (r := R) _ _ _ ?_
      (catchPanic_after rt (R := fun l l' : Library => R l.heap l'.heap) (invokeBody n input) hmade)
    rw [final_invokeBody hn]
    cases hc : l.callee name with
    | none => exact Std.Refl.refl l.heap
    | some cb =>
      rw [Option.elim_some, call_heap]
      exact hcb cb hc

/-- An invocation spares what its callback spares. -/
theorem invoke_spares (ht : ∀ cb, l.callee name = some cb →
    Heap.Spares held l.heap (final ((cb.run input).run l.heap))) :
    Heap.Spares held l.heap (final ((ffiInvokeCallback rt name input).run l)).heap :=
  invoke_follows ht (FfiResult.err_spares held)

theorem invoke_later : l.heap.Later (final ((ffiInvokeCallback rt name input).run l)).heap :=
  invoke_follows (fun cb _ => cb.history input l.heap) FfiResult.err_later

/-- An error result made by the library is given back by `CheckResult`. -/
theorem checkResult_made_holds (ho : (within (FfiResult.err rt e)).run l = .ok out l')
    (hp : (p.withLibrary l).Holds xs) :
    (final ((checkResult rt out).run (p.withLibrary l'))).Holds xs ∧
      Process.CrossesLive p (final ((checkResult rt out).run (p.withLibrary l'))) := by
  obtain ⟨hx, hown, hcode, -⟩ := err_of_within ho
  have hq : (p.withLibrary l').Holds (out.owns ++ xs) := hp.exchange rfl hx
  exact checkResult_error_holds (hcode ▸ e.code_ne_ok) hown hq

/-- An invocation of a tame callback takes nothing from the buffers, and crosses no stale
buffer but its input. -/
theorem invokeCallback_holds {name : List UInt8} {input : Option BufferRef} {raw : FfiBuffer}
    (hraw : p.rawInput input = some raw)
    (ht : ∀ cb, p.library.callee (some (C.CString name)) = some cb →
      Tame (p.held ++ xs) cb raw p.heap)
    (hp : p.Holds xs) :
    (final ((invokeCallback rt name input).run p)).Holds xs ∧ (p.stale raw = false →
      Process.CrossesLive p (final ((invokeCallback rt name input).run p))) := by
  have hspared : ∀ l' : Library, Heap.Spares (p.held ++ xs) p.heap l'.heap →
      ((p.crossed raw).withLibrary l').Holds xs := fun l' hs => hp.spared rfl hs
  cases hr : (ffiInvokeCallback rt (some (C.CString name)) raw).run p.library with
  | error e l' =>
    rw [run_invokeCallback_stop hraw hr]
    have hs := @invoke_spares rt _ _ _ _ fun cb hc => (ht cb hc).leaves.spares
    rw [hr] at hs
    exact ⟨hspared l' hs, .crossed⟩
  | ok out l' =>
    rw [run_invokeCallback hraw hr]
    have hcalled : ∀ {cb h}, p.library.callee (some (C.CString name)) = some cb →
        final ((cb.run raw).run p.heap) = h → Heap.Spares (p.held ++ xs) p.heap h := by
      rintro cb h hc rfl
      exact (ht cb hc).leaves.spares
    have hmade : ∀ {e} {l₁ : Library}, Heap.Spares (p.held ++ xs) p.heap l₁.heap →
        (within (FfiResult.err rt e)).run l₁ = .ok out l' →
        (final ((checkResult rt out).run ((p.crossed raw).withLibrary l'))).Holds xs ∧
          (p.stale raw = false → Process.CrossesLive p
            (final ((checkResult rt out).run ((p.crossed raw).withLibrary l')))) :=
      fun hs ho => (checkResult_made_holds ho (hspared _ hs)).imp_right fun hc hst =>
        (Process.CrossesLive.crossed hst).trans hc
    cases invocationEnd_of_ok hr with
    | notEntered e hc ho => exact hmade (.refl _ _) ho
    | success hc hr' hok =>
      have hs := hcalled hc (congrArg final hr')
      refine (checkResult_ok_holds _ (hspared (p.library.called _ raw _) hs)).imp_right
        fun hcl hst => (Process.CrossesLive.crossed hst).trans (hcl ?_)
      simp only [Process.stale, List.any_eq_false, decide_eq_true_eq]
      exact (ht _ hc).payload _ _ hr'
    | error hn hc hr' hok ho =>
      refine hmade ?_ ho
      exact hcalled hc (congrArg final hr')
    | panicked hc hr' ho =>
      refine hmade ?_ ho
      exact hcalled hc (congrArg final hr')

namespace GoCall

/-- A call without a callback takes nothing from the buffers and crosses no stale one. -/
theorem run_keeps {call : GoCall} (hc : ∀ name input, call ≠ .invokeCallback name input) :
    Respects (Process.Keeps xs) (call.run rt) := by
  have hslice : ∀ data : Slice, data.val.length < 2 ^ 64 := fun data =>
    data.property.trans (by norm_num)
  cases call with
  | newBuffer capacity => exact (NewBuffer_keeps capacity).bind fun _ => .pure _
  | fromBytes data => exact (fromBytes_keeps (hslice data)).bind fun _ => .pure _
  | fromJSON marshal =>
    refine (fromJSON_keeps fun data hd => ?_).bind fun _ => .pure _
    cases marshal with
    | ok data' =>
      cases hd
      exact hslice data'
    | error err => cases hd
  | len b => exact (len_respects b).bind fun _ => .pure _
  | isEmpty b => exact (isEmpty_respects b).bind fun _ => .pure _
  | bytes b => exact (bytes_keeps b).bind fun _ => .pure _
  | toJSON b unmarshal => exact (toJSON_respects (bytes_keeps b) unmarshal).bind fun _ => .pure _
  | inspectBuffer b => exact (inspectBuffer_respects b).bind fun _ => .pure _
  | invokeCallback name input => exact absurd rfl (hc name input)
  | free b => exact free_keeps b

theorem final_run_invokeCallback (name : List UInt8) (input : Option BufferRef) (p : Process) :
    final (((invokeCallback name input).run rt).run p) =
      final ((FfiBridge.invokeCallback rt name input).run p) := final_bind_pure _ _ p

theorem Step.final_eq {call : GoCall} (hs : Step rt p call q) :
    final ((call.run rt).run p) = q := by
  cases hs with
  | returned hr => rw [hr, final_ok]
  | recovered hr => rw [hr, final_error]

end GoCall

end FfiBridge
