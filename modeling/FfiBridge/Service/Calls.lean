import FfiBridge.Service.Store

/-! # Calls on the store

Each call of the Go API is cut at its C call. The first piece takes the raw buffer of the input out
of its `*Buffer`, the second is the C call, and the last makes the answer of what came back. A
process that shows a world goes through the pieces of a call that the world is ready for, and comes
out with the answer of the world.
-/
namespace FfiBridge
open Foundation

variable {rt : Runtime} {p q : Process} {raw : FfiBuffer} {b : BufferRef} {buffer : Buffer}
  {h₀ : Heap} {c : Content} {x : Option Content} {w : World} {call : GoCall} {result : CResult}

/-! ## Pieces -/

namespace GoCall

/-- The call up to its C call: its answer when it makes none, or the raw buffer. -/
def start (rt : Runtime) : GoCall → Go (GoAnswer ⊕ FfiBuffer)
  | bytes b => do
    match ← Buffer.takeRaw b with
    | none => return .inl (.bytes none)
    | some raw => return .inr raw
  | toJSON b _ => do
    match ← Buffer.takeRaw b with
    | none => return .inl (.decoded (.error (.text "ffi: buffer is empty or freed")))
    | some raw => return .inr raw
  | invokeCallback _ input => do
    let raw ← rawInput input
    crossing raw
    return .inr raw
  | call => do return .inl (← call.answer rt)

/-- What the call makes of what its C call has returned. -/
def finish (rt : Runtime) : GoCall → CResult → Go GoAnswer
  | toJSON _ unmarshal, .bytes data =>
    match unmarshal data with
    | .ok v => return .decoded (.ok v)
    | .error err => return .decoded (.error (.text err))
  | _, .bytes data => return .bytes (some data)
  | _, .result out => do return .made (← checkResult rt out)

/-- The buffer of which a call reads the bytes. -/
def read? : GoCall → Option BufferRef
  | bytes b | toJSON b _ => some b
  | _ => none

end GoCall

/-! ## Where a call is -/

/-- The call has taken the raw buffer of its input. -/
inductive World.Takes (w : World) (p : Process) : GoCall → FfiBuffer → Prop
  | read {call : GoCall} {b : BufferRef} {raw : FfiBuffer} {data : List UInt8}
      (hc : call.read? = some b) (hraw : p.rawInput (some b) = some raw)
      (hd : w.bytes b = some data) : Takes w p call raw
  | input {name : List UInt8} {input : Option BufferRef} {raw : FfiBuffer}
      (hraw : p.rawInput input = some raw) : Takes w p (.invokeCallback name input) raw

/-- The C call has returned what the answer is made of. -/
inductive World.Awaits (w : World) (h₀ : Heap) (p : Process) : GoCall → CResult → Prop
  | read {call : GoCall} {b : BufferRef} {data : List UInt8} (hw : w.Shown h₀ p)
      (hc : call.read? = some b) (hd : w.bytes b = some data) : Awaits w h₀ p call (.bytes data)
  | input {name : List UInt8} {input : Option BufferRef} {out : FfiResult} {lost : List ℕ}
      (hw : w.Beside h₀ p (out.owns ++ lost)) (hown : out.Owned p.heap)
      (ht : out.Tells p.heap (w.offer.invoke name (w.input input)))
      (hlost : w.lost + w.offer.loses name (w.input input) ≤ (out.payload.owns ++ lost).length)
      (hentered : (out.payload.owns ++ lost).length ≤ w.entered + w.offer.enters name) :
      Awaits w h₀ p (.invokeCallback name input) (.result out)

/-- The first piece has answered, or taken a raw buffer. -/
inductive World.Started (w : World) (h₀ : Heap) (call : GoCall) :
    GoAnswer ⊕ FfiBuffer → Process → Prop
  | answered {q : Process} (hw : (w.after call).Shown h₀ q) : Started w h₀ call (.inl (w.reply call)) q
  | taken {raw : FfiBuffer} {q : Process} (hw : w.Shown h₀ q) (ht : w.Takes q call raw) :
      Started w h₀ call (.inr raw) q

namespace World.Shown

theorem content_eq (hx : w.contents[b]? = some x) : w.content b = x := by
  rw [World.content, hx]
  rfl

/-! ## The first piece -/

theorem run_len (hw : w.Shown h₀ p) (hb : b < w.contents.length) :
    (Buffer.len b).run p = .ok (w.length b : ℤ) p := by
  obtain ⟨buffer, x, hp, hx, hs⟩ := hw.find hb
  rw [FfiBridge.run_len hp, World.length, content_eq hx]
  cases x with
  | none =>
    have hf : buffer.freed = true := hs
    rw [if_pos hf]
    rfl
  | some c =>
    have hle : c.bytes.length < 2 ^ 63 := by
      have := hs.2.length_le
      unfold isizeMax at this
      omega
    rw [if_neg (by simp [hs.1]), hs.2.len, goInt_of_lt hle]
    rfl

theorem run_inspectBuffer (hw : w.Shown h₀ p) {b : Option BufferRef}
    (hb : ∀ b', b = some b' → b' < w.contents.length) :
    (inspectBuffer b).run p = .ok (b.elim ⟨0, 0⟩ w.fields) p := by
  cases b with
  | none => rfl
  | some b =>
    obtain ⟨buffer, x, hp, hx, hs⟩ := hw.find (hb b rfl)
    rw [Option.elim_some, World.fields, content_eq hx]
    cases x with
    | none => exact (takenForEmpty hp hs).inspect
    | some c =>
      unfold inspectBuffer
      simp only
      rw [bind_of_ok (run_deref hp), if_neg (by simp [hs.1]), hs.2.len, hs.2.capacity]
      rfl

theorem run_free (hw : w.Shown h₀ p) (hb : b < w.contents.length) :
    ∃ q, (Buffer.free b).run p = .ok () q ∧ (w.after (.free b)).Shown h₀ q := by
  obtain ⟨buffer, x, hp, hx, hs⟩ := hw.find hb
  cases x with
  | none =>
    obtain ⟨hlt, hget⟩ := List.getElem?_eq_some_iff.mp hx
    have hset : w.contents.set b none = w.contents := by rw [← hget, List.set_getElem_self]
    refine ⟨p, run_free_freed hp hs, ?_⟩
    change Shown { w with contents := w.contents.set b none } h₀ p
    rwa [hset]
  | some c =>
    exact ⟨_, run_free_of_ok hp hs.1.1 (FfiBuffer.run_dealloc hs.2.represented.owned),
      hw.giveBack hp hs.1.1⟩

/-- `Bytes` takes the raw buffer when there is something to be read. -/
theorem run_takeRaw (hw : w.Shown h₀ p) (hb : b < w.contents.length) :
    w.bytes b = none ∧ (Buffer.takeRaw b).run p = .ok none p ∨
      ∃ buffer data, p.buffers[b]? = some buffer ∧ w.bytes b = some data ∧
        (Buffer.takeRaw b).run p = .ok (some buffer.inner) (p.crossed buffer.inner) := by
  obtain ⟨buffer, x, hp, hx, hs⟩ := hw.find hb
  rw [World.bytes, content_eq hx]
  cases x with
  | none => exact .inl ⟨rfl, run_takeRaw_empty hp (.inl hs)⟩
  | some c =>
    rw [Option.bind_some]
    by_cases hne : c.bytes = []
    · have hz : buffer.inner.len = 0 := by rw [hs.2.len, hne, List.length_nil]
      rw [hne]
      exact .inl ⟨rfl, run_takeRaw_empty hp (.inr (.inr hz))⟩
    · obtain ⟨hd, hz⟩ := hs.2.ne_null hne
      rw [nilIfEmpty_of_ne hne]
      exact .inr ⟨buffer, c.bytes, hp, rfl, FfiBridge.run_takeRaw hp (by simp [hs.1.1, hd, hz])⟩

/-- A call that makes no C call on the raw buffer of its input answers at once. -/
theorem answers {m : Go GoAnswer}
    (hm : Yields m p fun a q => a = w.reply call ∧ (w.after call).Shown h₀ q) :
    Yields (do return .inl (← m) : Go (GoAnswer ⊕ FfiBuffer)) p (w.Started h₀ call) := by
  refine hm.bind fun a q h => ?_
  obtain ⟨rfl, hq⟩ := h
  exact .pure (.answered hq)

theorem made {m : Go BufferRef} (hw : w.Shown h₀ p)
    (hm : Yields m p fun b q => b = p.buffers.length ∧ ∃ raw, p.Gains q raw c) :
    Yields (do return .made (.ok (← m)) : Go GoAnswer) p fun a q =>
      a = .made (.ok w.contents.length) ∧ (w.grow [some c] 0 0).Shown h₀ q := by
  refine hm.bind fun b q hgain => ?_
  obtain ⟨hb, raw, hgain⟩ := hgain
  exact .pure ⟨by rw [hb, hw.size], hw.gains hgain⟩

theorem rawInput_eq (hw : w.Shown h₀ p) {b : Option BufferRef}
    (hb : ∀ b', b = some b' → (w.content b').isSome) : ∃ raw, p.rawInput b = some raw := by
  cases b with
  | none => exact ⟨.null, rfl⟩
  | some b =>
    obtain ⟨c, hc⟩ := Option.isSome_iff_exists.mp (hb b rfl)
    obtain ⟨buffer, -, hp, -⟩ := hw.find
      (List.getElem?_eq_some_iff.mp (Option.join_eq_some_iff.mp hc)).1
    exact ⟨buffer.inner, by simp [Process.rawInput, hp]⟩

/-- Every call that the world is ready for starts. -/
theorem starts (hg : rt.Generous) (hw : w.Shown h₀ p) (call : GoCall) (hr : w.Ready call) :
    Yields (call.start rt) p (w.Started h₀ call) := by
  have hslice : ∀ data : Slice, data.val.length ≤ isizeMax := fun data =>
    Nat.le_of_lt_succ data.property
  cases call with
  | newBuffer capacity => exact answers (hw.made (NewBuffer_gains hg hr p))
  | fromBytes data => exact answers (hw.made (fromBytes_gains hg (hslice data) p))
  | fromJSON marshal =>
    cases marshal with
    | ok data =>
      have hm := hw.made (fromBytes_gains hg (hslice data) p)
      exact answers (by simpa [GoCall.answer, FfiBridge.fromJSON, Except.map, reply, after] using hm)
    | error err => exact answers (.pure ⟨rfl, hw⟩)
  | len b => exact answers (.of_ok (bind_of_ok (hw.run_len hr) _) ⟨rfl, hw⟩)
  | isEmpty b =>
    have hempty : (Buffer.isEmpty b).run p = .ok (decide ((w.length b : ℤ) = 0)) p :=
      bind_of_ok (hw.run_len hr) _
    exact answers (.of_ok (bind_of_ok hempty _) ⟨by simp [reply], hw⟩)
  | inspectBuffer b => exact answers (.of_ok (bind_of_ok (hw.run_inspectBuffer hr) _) ⟨rfl, hw⟩)
  | free b =>
    obtain ⟨q, hrun, hq⟩ := hw.run_free hr
    exact answers (.of_ok (bind_of_ok hrun _) ⟨rfl, hq⟩)
  | bytes b =>
    rcases hw.run_takeRaw hr.1 with ⟨hnone, hrun⟩ | ⟨buffer, data, hp, hd, hrun⟩
    · refine .of_ok (bind_of_ok hrun _) ?_
      have ha := @Started.answered w h₀ (.bytes b) _ hw
      rwa [reply, hnone] at ha
    · exact .of_ok (bind_of_ok hrun _) (.taken (hw.same rfl hw.offers rfl)
        (.read rfl (by simpa [Process.rawInput] using ⟨buffer, hp, rfl⟩) hd))
  | toJSON b unmarshal =>
    rcases hw.run_takeRaw hr.1 with ⟨hnone, hrun⟩ | ⟨buffer, data, hp, hd, hrun⟩
    · refine .of_ok (bind_of_ok hrun _) ?_
      have ha := @Started.answered w h₀ (.toJSON b unmarshal) _ hw
      rwa [reply, hnone] at ha
    · exact .of_ok (bind_of_ok hrun _) (.taken (hw.same rfl hw.offers rfl)
        (.read rfl (by simpa [Process.rawInput] using ⟨buffer, hp, rfl⟩) hd))
  | invokeCallback name input =>
    obtain ⟨raw, hraw⟩ := hw.rawInput_eq hr.2
    exact .of_ok ((bind_of_ok (run_rawInput hraw) _).trans (bind_of_ok (run_crossing _ _) _))
      (.taken (hw.same rfl hw.offers rfl) (.input hraw))

/-! ## The C call -/

/-- What is read through a raw buffer that was taken. -/
theorem reads (hw : w.Shown h₀ p) (hraw : p.rawInput (some b) = some raw)
    (hc : w.content b = some c) : raw.Contains c p.heap := by
  have hx : w.contents[b]? = some (some c) := Option.join_eq_some_iff.mp hc
  obtain ⟨buffer, x, hp, hx', hs⟩ := hw.find (List.getElem?_eq_some_iff.mp hx).1
  cases hx.symm.trans hx'
  obtain ⟨buffer', hp', rfl⟩ := Option.map_eq_some_iff.mp hraw
  cases hp.symm.trans hp'
  exact hs.2

theorem reads_input (hw : w.Shown h₀ p) {b : Option BufferRef} (hraw : p.rawInput b = some raw)
    (hb : ∀ b', b = some b' → (w.content b').isSome) :
    raw.asSlice.run p.heap = .ok (w.input b) p.heap := by
  cases b with
  | none =>
    cases hraw
    rfl
  | some b =>
    obtain ⟨c, hc⟩ := Option.isSome_iff_exists.mp (hb b rfl)
    rw [World.input, Option.bind_some, hc]
    exact (hw.reads hraw hc).reads

/-- The C call of a call that has started returns. -/
theorem enters (hg : rt.Generous) (hw : w.Shown h₀ p) (hr : w.Ready call)
    (ht : w.Takes p call raw) : Yields (call.cCall rt raw) p fun result q =>
      w.Awaits h₀ q call result := by
  cases ht with
  | @read call b raw data hc hraw hd =>
    obtain ⟨c, hcon, hdata⟩ := Option.bind_eq_some_iff.mp hd
    obtain ⟨rfl, hne⟩ := nilIfEmpty_eq_some hdata
    have hcontains := hw.reads hraw hcon
    have hlt : w.length b < 2 ^ 31 := by
      cases call <;> cases hc
      · exact hr.2
      · exact hr.2
    rw [World.length, hcon] at hlt
    have hread : (C.GoBytes raw.data (C.int raw.len)).run p = .ok c.bytes p :=
      (goBytes_whole_iff (hcontains.ne_null hne).1 hcontains.reads hcontains.len.symm).mpr
        (hcontains.len.trans_lt hlt)
    cases call <;> cases hc
    · exact .of_ok (bind_of_ok hread _) (.read hw rfl hd)
    · exact .of_ok (bind_of_ok hread _) (.read hw rfl hd)
  | @input name input raw hraw =>
    obtain ⟨out, l', hrun, lost, hi⟩ :=
      ffiInvokeCallback_invoked hg hw.offers hr.1 (hw.reads_input hraw hr.2)
    have hcall : (within (ffiInvokeCallback rt (some (C.CString name)) raw) : Go FfiResult).run p =
      .ok out (p.withLibrary l') := within_of_ok hrun
    refine .of_ok (bind_of_ok hcall _) ?_
    obtain ⟨ids, hw, hlost, hentered⟩ := hw
    have hmore : w.Beside h₀ (p.withLibrary l') ((out.owns ++ lost) ++ ids) :=
      hw.more hi.offers rfl hi.exchange
    rw [List.append_assoc] at hmore
    refine .input hmore hi.owned hi.tells ?_ ?_
    · rw [← List.append_assoc, List.length_append, Nat.add_comm]
      exact Nat.add_le_add hi.loses hlost
    · rw [← List.append_assoc, List.length_append, Nat.add_comm w.entered]
      exact Nat.add_le_add hi.enters hentered

end World.Shown

/-! ## The last piece -/

/-- The answer is the one of the world. -/
theorem World.Awaits.leaves (hg : rt.Generous) (ha : w.Awaits h₀ p call result) (hr : w.Ready call) :
    Yields (call.finish rt result) p fun a q => a = w.reply call ∧ (w.after call).Shown h₀ q := by
  cases ha with
  | @read call b data hw hc hd =>
    cases call with
    | bytes b' =>
      cases hc
      exact .pure ⟨congrArg GoAnswer.bytes hd.symm, hw⟩
    | toJSON b' unmarshal =>
      cases hc
      have hreply : w.reply (.toJSON b unmarshal) = .decoded (World.decode unmarshal (some data)) := by
        rw [reply, hd]
      rw [hreply]
      unfold GoCall.finish World.decode
      simp only
      cases unmarshal data with
      | ok v => exact .pure ⟨rfl, hw⟩
      | error err => exact .pure ⟨rfl, hw⟩
    | _ => cases hc
  | @input name input out lost hw hown ht hlost hentered =>
    have hshort : Response.Short (w.offer.invoke name (w.input input)) := hr.1
    have hafter : w.after (.invokeCallback name input) =
      w.grow (received (w.offer.invoke name (w.input input)))
        (w.offer.loses name (w.input input)) (w.offer.enters name) := rfl
    rw [hafter, reply]
    cases ho : w.offer.invoke name (w.input input) with
    | error e =>
      rw [ho] at ht hshort
      have hcheck := @run_checkResult_tells rt _ _ _ hown ht hshort
      have hpay : out.payload.owns = [] := by rw [ht.1.2.1, FfiBuffer.owns_null]
      rw [hpay, List.nil_append] at hlost hentered
      refine .of_ok (bind_of_ok hcheck _) ⟨rfl, ?_⟩
      have hq := hw.release.shown hlost hentered
      simpa [World.grow, received] using hq
    | ok bytes =>
      rw [ho] at ht hshort
      have howns : out.owns = out.payload.owns := by rw [ht.1]; rfl
      have hshown := hw.shown (howns ▸ hlost) (howns ▸ hentered)
      refine (checkResult_gains hg hshort ht).bind fun ret q h => ?_
      obtain ⟨rfl, raw, hgain⟩ := h
      refine .pure ⟨by rw [hw.size]; rfl, ?_⟩
      have hq := hshown.gains hgain
      simpa [World.grow, received] using hq

end FfiBridge
