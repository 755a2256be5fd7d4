import FfiBridge.Go.Calls

/-! # Calls cut at the C boundary, and finalizers

`Bytes`, `ToJSON` and `InvokeCallback` copy the `FfiBuffer` out of the `*Buffer`, which they do
not use again, and then call C. Each call is cut there: what comes before the raw pointer is
taken, the C call, and the rest. A finalizer is `Free`, run by the collector once.
-/
namespace FfiBridge
open Foundation

variable (rt : Runtime)

/-- The collector runs the finalizer of a buffer, which is taken off before. -/
def Buffer.finalize (b : BufferRef) : Go Unit := do
  assign b fun b => { b with finalizer := false }
  Buffer.free b

/-- `Bytes` up to its C call: the raw buffer that it reads, if any. -/
def Buffer.takeRaw (b : BufferRef) : Go (Option FfiBuffer) := do
  let buffer ← deref b
  if buffer.freed ∨ buffer.inner.data = .null ∨ buffer.inner.len = 0 then return none
  else do
    crossing buffer.inner
    return some buffer.inner

/-- What comes back from a C call. -/
inductive CResult where
  | bytes (data : List UInt8)
  | result (out : FfiResult)

/-- After the C call, the bytes are there, or `CheckResult` takes over. -/
def CResult.rest : CResult → Go Unit
  | bytes _ => pure ()
  | result out => do let _ ← checkResult rt out; return ()

namespace GoCall

/-- The call up to its C call on a raw buffer; the whole call when it makes none. -/
def begin : GoCall → Go (Option FfiBuffer)
  | bytes b | toJSON b _ => Buffer.takeRaw b
  | invokeCallback _ input => do
    let raw ← rawInput input
    crossing raw
    return some raw
  | call => do call.run rt; return none

/-- The C call: `ffi_invoke_callback`, or `C.GoBytes`. -/
def cCall : GoCall → FfiBuffer → Go CResult
  | invokeCallback name _, raw =>
    return .result (← within (ffiInvokeCallback rt (some (C.CString name)) raw))
  | _, raw => return .bytes (← C.GoBytes raw.data (C.int raw.len))

/-- The buffers a call uses. -/
def uses : GoCall → List BufferRef
  | len b | isEmpty b | bytes b | toJSON b _ | free b => [b]
  | inspectBuffer b => b.toList
  | invokeCallback _ input => input.toList
  | newBuffer _ | fromBytes _ | fromJSON _ => []

end GoCall

/-! ## Runs -/

variable {rt} {p q : Process} {b : BufferRef} {buffer : Buffer} {raw : FfiBuffer} {call : GoCall}
  {xs : List ℕ}

theorem run_takeRaw_empty (hb : p.buffers[b]? = some buffer)
    (he : buffer.freed = true ∨ buffer.inner.data = .null ∨ buffer.inner.len = 0) :
    (Buffer.takeRaw b).run p = .ok none p := by
  unfold Buffer.takeRaw
  rw [bind_of_ok (run_deref hb), if_pos he]
  rfl

theorem run_takeRaw (hb : p.buffers[b]? = some buffer)
    (he : ¬ (buffer.freed = true ∨ buffer.inner.data = .null ∨ buffer.inner.len = 0)) :
    (Buffer.takeRaw b).run p = .ok (some buffer.inner) (p.crossed buffer.inner) := by
  unfold Buffer.takeRaw
  rw [bind_of_ok (run_deref hb), if_neg he, bind_of_ok (run_crossing _ _)]
  rfl

theorem run_takeRaw_nil (hb : p.buffers[b]? = none) : (Buffer.takeRaw b).run p =
    .error (.goPanic "invalid memory address or nil pointer dereference") p := by
  unfold Buffer.takeRaw
  rw [bind_of_error (run_deref_nil hb)]

/-- `Bytes` is its two parts. -/
theorem run_bytes_eq (b : BufferRef) (p : Process) : (Buffer.bytes b).run p = (do
    match ← Buffer.takeRaw b with
    | none => return none
    | some raw => return some (← C.GoBytes raw.data (C.int raw.len)) :
      Go (Option (List UInt8))).run p := by
  cases hb : p.buffers[b]? with
  | none =>
    unfold Buffer.bytes
    rw [bind_of_error (run_deref_nil hb), bind_of_error (run_takeRaw_nil hb)]
  | some buffer =>
    by_cases he : buffer.freed = true ∨ buffer.inner.data = .null ∨ buffer.inner.len = 0
    · rw [run_bytes_empty hb he, bind_of_ok (run_takeRaw_empty hb he)]
      rfl
    · rw [bind_of_ok (run_takeRaw hb he)]
      simp only [not_or, Bool.not_eq_true] at he
      rw [run_bytes hb he.1 he.2.1 he.2.2]

@[simp] theorem GoCall.cCall_bytes (b : BufferRef) (raw : FfiBuffer) : (bytes b).cCall rt raw =
    do return .bytes (← C.GoBytes raw.data (C.int raw.len)) := rfl

@[simp] theorem GoCall.cCall_invokeCallback (name : List UInt8) (input : Option BufferRef)
    (raw : FfiBuffer) : (invokeCallback name input).cCall rt raw =
      do return .result (← within (ffiInvokeCallback rt (some (C.CString name)) raw)) := rfl

/-- What `Bytes` does when what it returns is not looked at. -/
theorem run_bytes_discard (b : BufferRef) (p : Process) :
    (do let _ ← Buffer.bytes b; return () : Go Unit).run p = (do
      match ← Buffer.takeRaw b with
      | none => return ()
      | some raw => (← (GoCall.bytes b).cCall rt raw).rest rt : Go Unit).run p := by
  rw [EStateM.run_bind, run_bytes_eq, ← EStateM.run_bind, bind_assoc]
  refine congrArg (fun f => (Buffer.takeRaw b >>= f).run p) (funext fun o => ?_)
  cases o with
  | none => exact pure_bind _ _
  | some raw =>
    simp only [GoCall.cCall_bytes, bind_assoc, pure_bind]
    rfl

/-- A call is what comes before its C call, the C call, and the rest. -/
theorem GoCall.run_eq (call : GoCall) (p : Process) : (call.run rt).run p = (do
    match ← call.begin rt with
    | none => return ()
    | some raw => (← call.cCall rt raw).rest rt : Go Unit).run p := by
  cases call with
  | bytes b => exact run_bytes_discard b p
  | toJSON b unmarshal =>
    refine Eq.trans ?_ (run_bytes_discard b p)
    simp only [GoCall.run, Buffer.toJSON, bind_assoc]
    refine congrArg (fun f => (Buffer.bytes b >>= f).run p) (funext fun o => ?_)
    cases o with
    | none => exact pure_bind _ _
    | some data =>
      simp only
      cases unmarshal data <;> exact pure_bind _ _
  | invokeCallback name input =>
    simp only [GoCall.run, GoCall.begin, GoCall.cCall_invokeCallback, FfiBridge.invokeCallback,
      bind_assoc, pure_bind]
    rfl
  | newBuffer | fromBytes | fromJSON | len | isEmpty | inspectBuffer | free =>
    simp only [GoCall.begin, bind_assoc, pure_bind, bind_pure_unit]

/-! ## What the cuts do -/

theorem takeRaw_ok {o : Option FfiBuffer} (hr : (Buffer.takeRaw b).run p = .ok o q) :
    o = none ∧ q = p ∨ ∃ buffer, p.buffers[b]? = some buffer ∧ buffer.freed = false ∧
      o = some buffer.inner ∧ q = p.crossed buffer.inner := by
  cases hb : p.buffers[b]? with
  | none => cases (run_takeRaw_nil hb).symm.trans hr
  | some buffer =>
    by_cases he : buffer.freed = true ∨ buffer.inner.data = .null ∨ buffer.inner.len = 0
    · cases (run_takeRaw_empty hb he).symm.trans hr
      exact .inl ⟨rfl, rfl⟩
    · cases (run_takeRaw hb he).symm.trans hr
      exact .inr ⟨buffer, rfl, by simpa using (not_or.mp he).1, rfl, rfl⟩

theorem takeRaw_holds (b : BufferRef) (hp : p.Holds xs) :
    (final ((Buffer.takeRaw b).run p)).Holds xs := by
  cases hb : p.buffers[b]? with
  | none =>
    rw [run_takeRaw_nil hb]
    exact hp
  | some buffer =>
    by_cases he : buffer.freed = true ∨ buffer.inner.data = .null ∨ buffer.inner.len = 0
    · rw [run_takeRaw_empty hb he]
      exact hp
    · rw [run_takeRaw hb he]
      exact hp.spared rfl (.refl _ _)

/-- What comes before the C call takes nothing from the buffers. -/
theorem begin_holds (call : GoCall) (hp : p.Holds xs) :
    (final ((call.begin rt).run p)).Holds xs := by
  cases call with
  | bytes b => exact takeRaw_holds b hp
  | toJSON b unmarshal => exact takeRaw_holds b hp
  | invokeCallback name input =>
    change (final ((do let raw ← rawInput input; crossing raw; return some raw :
      Go (Option FfiBuffer)).run p)).Holds xs
    cases hraw : p.rawInput input with
    | none =>
      rw [bind_of_error (run_rawInput_nil hraw)]
      exact hp
    | some raw =>
      rw [bind_of_ok (run_rawInput hraw)]
      exact hp.spared rfl (.refl _ _)
  | newBuffer | fromBytes | fromJSON | len | isEmpty | inspectBuffer | free =>
    simp only [GoCall.begin]
    rw [final_bind_pure]
    exact (GoCall.run_keeps (fun _ _ h => by cases h) p hp).1

/-- A call takes the raw buffer of one that it uses, and records it; the zeroed one owns nothing. -/
theorem begin_some (hr : (call.begin rt).run p = .ok (some raw) q) : q = p.crossed raw ∧
    (raw.owns = [] ∨ ∃ b buffer, b ∈ call.uses ∧ p.buffers[b]? = some buffer ∧ buffer.inner = raw) := by
  have htake : ∀ {b}, (Buffer.takeRaw b).run p = .ok (some raw) q → q = p.crossed raw ∧
      ∃ buffer, p.buffers[b]? = some buffer ∧ buffer.inner = raw := by
    intro b hr
    rcases takeRaw_ok hr with ⟨h, -⟩ | ⟨buffer, hb, -, h, hq⟩
    · cases h
    · cases h
      exact ⟨hq, buffer, hb, rfl⟩
  cases call with
  | bytes b =>
    obtain ⟨hq, buffer, hb, hi⟩ := htake hr
    exact ⟨hq, .inr ⟨b, buffer, List.mem_singleton_self b, hb, hi⟩⟩
  | toJSON b unmarshal =>
    obtain ⟨hq, buffer, hb, hi⟩ := htake hr
    exact ⟨hq, .inr ⟨b, buffer, List.mem_singleton_self b, hb, hi⟩⟩
  | invokeCallback name input =>
    cases hraw : p.rawInput input with
    | none => cases (bind_of_error (run_rawInput_nil hraw) _).symm.trans hr
    | some raw' =>
      cases (bind_of_ok (run_rawInput hraw) _).symm.trans hr
      refine ⟨rfl, ?_⟩
      cases input with
      | none =>
        cases hraw
        exact .inl rfl
      | some b =>
        obtain ⟨buffer, hb, hi⟩ := Option.map_eq_some_iff.mp hraw
        exact .inr ⟨b, buffer, List.mem_singleton_self b, hb, hi⟩
  | newBuffer | fromBytes | fromJSON | len | isEmpty | inspectBuffer | free =>
    obtain ⟨_, _, _, hr⟩ := bind_eq_ok.mp hr
    cases hr

namespace Process

theorem mem_held {id : ℕ} (hb : p.buffers[b]? = some buffer) (hf : buffer.freed = false)
    (hid : id ∈ buffer.inner.owns) : id ∈ p.held :=
  List.mem_flatMap.mpr ⟨buffer, List.mem_of_getElem? hb, by simpa [Buffer.held, hf] using hid⟩

/-- What an unfreed buffer owns is not among what others hold. -/
theorem Holds.apart {id : ℕ} (hp : p.Holds xs) (hb : p.buffers[b]? = some buffer)
    (hf : buffer.freed = false) (hid : id ∈ xs) : id ∉ buffer.inner.owns := fun hown =>
  (List.nodup_append.mp hp.nodup).2.2 id (mem_held hb hf hown) id hid rfl

/-- The process whose buffer `b` has no finalizer any more. -/
def unarm (p : Process) (b : BufferRef) : Process :=
  { p with buffers := p.buffers.modify b fun b => { b with finalizer := false } }

/-- An assignment to what `g` does not look at. -/
theorem flatMap_modify {α β : Type} {f : α → α} {g : α → List β} (hg : ∀ a, g (f a) = g a)
    (l : List α) (i : ℕ) : (l.modify i f).flatMap g = l.flatMap g := by
  rw [List.flatMap_def, List.flatMap_def]
  congr 1
  refine List.ext_getElem? fun k => ?_
  rw [List.getElem?_map, List.getElem?_map, List.getElem?_modify]
  split_ifs
  · cases l[k]? <;> simp [hg]
  · cases l[k]? <;> rfl

theorem held_unarm (p : Process) (b : BufferRef) : (p.unarm b).held = p.held :=
  @flatMap_modify Buffer ℕ (fun b => { b with finalizer := false }) Buffer.held (fun _ => rfl) p.buffers b

theorem Holds.unarm (hp : p.Holds xs) : (p.unarm b).Holds xs :=
  hp.perm rfl (by rw [held_unarm])

theorem buffers_unarm_of_ne {b' : BufferRef} (h : b' ≠ b) :
    (p.unarm b).buffers[b']? = p.buffers[b']? := by
  simp [unarm, Ne.symm h]

theorem buffers_giveBack_of_ne {b' : BufferRef} (raw : FfiBuffer) (h : b' ≠ b) :
    (p.giveBack b raw).buffers[b']? = p.buffers[b']? := by
  simp [giveBack, Ne.symm h]

end Process

/-- What a finalizer that runs does: it gives back nothing but the allocation of its own
buffer, and leaves the other buffers as they are. -/
theorem finalize_ok (hr : (Buffer.finalize b).run p = .ok () q) (hp : p.Holds xs) :
    q.Holds xs ∧ (∀ b', b' ≠ b → q.buffers[b']? = p.buffers[b']?) ∧
      ∀ id ∈ xs, q.heap.live.lookup id = p.heap.live.lookup id := by
  have hfree : (Buffer.free b).run (p.unarm b) = .ok () q := hr
  have hp' : (p.unarm b).Holds xs := hp.unarm
  cases hb : (p.unarm b).buffers[b]? with
  | none =>
    unfold Buffer.free at hfree
    cases (bind_of_error (run_deref_nil hb) _).symm.trans hfree
  | some buffer =>
    cases hf : buffer.freed with
    | true =>
      cases (run_free_freed hb hf).symm.trans hfree
      exact ⟨hp', fun b' h => Process.buffers_unarm_of_ne h, fun _ _ => rfl⟩
    | false =>
      rcases run_free_cases hb hf with hr' | ⟨e, hr'⟩
      · cases hr'.symm.trans hfree
        refine ⟨hp'.giveBack hb hf, fun b' h => ?_, fun id hid => ?_⟩
        · rw [Process.buffers_giveBack_of_ne _ h, Process.buffers_unarm_of_ne h]
        · exact Arena.lookup_releaseAll (hp'.apart hb hf hid)
      · cases hr'.symm.trans hfree

end FfiBridge
