import FfiBridge.Go.FreeOnce
import FfiBridge.Ownership.ClientRuns

/-! # One representation for all buffers

Rust sets the length with the content, Go raises it after the copy, and empty buffers take
different shapes. Over any run that uses the constructors of both sides, every buffer that is
not freed has its bytes in an allocation of its own, so that no reader goes wrong.
-/
namespace FfiBridge
open Foundation

variable {rt : Runtime} {p q r : Process} {b : BufferRef} {buffer : Buffer} {raw : FfiBuffer}
  {new : List FfiBuffer} {h h' h₀ : Heap}

/-! ## The buffers of Go -/

/-- The raw buffer, unless it was freed. -/
def Buffer.raws (b : Buffer) : List FfiBuffer := if b.freed then [] else [b.inner]

namespace Process

/-- The raw buffers that were not freed. -/
def unfreed (p : Process) : List FfiBuffer := p.buffers.flatMap Buffer.raws

/-- From `p` to `q` the buffers `new` are made, each on an allocation of its own, and all else
is kept. -/
structure Obtains (new : List FfiBuffer) (p q : Process) : Prop where
  unfreed : q.unfreed = p.unfreed ++ new
  exchange : Arena.Exchange p.heap.toArena [] q.heap.toArena (new.flatMap FfiBuffer.owns)
  represented : ∀ raw ∈ new, raw.Represented q.heap

theorem mem_unfreed (hb : p.buffers[b]? = some buffer) (hf : buffer.freed = false) :
    buffer.inner ∈ p.unfreed :=
  List.mem_flatMap.mpr ⟨buffer, List.mem_of_getElem? hb, by simp [Buffer.raws, hf]⟩

theorem unfreed_unarm (p : Process) (b : BufferRef) : (p.unarm b).unfreed = p.unfreed :=
  @flatMap_modify Buffer FfiBuffer (fun b => { b with finalizer := false }) Buffer.raws
    (fun _ => rfl) p.buffers b

/-- What is freed leaves the rest. -/
theorem unfreed_giveBack (hb : p.buffers[b]? = some buffer) (hf : buffer.freed = false) :
    p.unfreed.Perm (buffer.inner :: (p.giveBack b raw).unfreed) := by
  obtain ⟨hlt, hget⟩ := List.getElem?_eq_some_iff.mp hb
  obtain ⟨pre, c, post, hpre, rfl, hmod⟩ :=
    List.exists_of_modify (fun b : Buffer => { b with freed := true, finalizer := false }) hlt
  obtain rfl : c = buffer := by simpa [hpre] using hget
  have hq : (p.giveBack pre.length raw).buffers = _ := hmod
  rw [unfreed, unfreed, hq, hpre]
  simp only [List.flatMap_append, List.flatMap_cons, Buffer.raws, hf, if_true, Bool.false_eq_true,
    if_false, List.nil_append, List.singleton_append]
  exact List.perm_middle

theorem Untouched.obtains (hu : p.Untouched q) : Obtains [] p q where
  unfreed := by rw [unfreed, unfreed, hu.buffers, List.append_nil]
  exchange := by
    rw [hu.heap]
    exact .refl _
  represented _ hraw := absurd hraw List.not_mem_nil

theorem Acquired.obtains (ha : Acquired raw p q) : Obtains [raw] p q where
  unfreed := by simp [unfreed, ha.buffers, Buffer.raws]
  exchange := by simpa using ha.exchange
  represented _ hraw := List.mem_singleton.mp hraw ▸ ha.represented

theorem Obtains.after (ho : Obtains new q r) (hu : p.Untouched q) : Obtains new p r where
  unfreed := by rw [ho.unfreed, Process.unfreed, Process.unfreed, hu.buffers]
  exchange := hu.heap ▸ ho.exchange
  represented := ho.represented

end Process

theorem Acquires.obtains {m : Go BufferRef} (hm : Acquires m p) (he : Exits m p q) :
    ∃ new, Process.Obtains new p q := by
  rcases hm with ⟨raw, q', hr', ha⟩ | ⟨x, h, hr', -⟩
  · rcases he with ⟨b, hr⟩ | ⟨text, hr⟩ <;> cases hr'.symm.trans hr
    exact ⟨[raw], ha.obtains⟩
  · rcases he with ⟨b, hr⟩ | ⟨text, hr⟩ <;> cases hr'.symm.trans hr

theorem copyBuffer_obtains (he : Exits (copyBuffer rt raw) p q) :
    ∃ new, Process.Obtains new p q := by
  unfold copyBuffer at he
  split_ifs at he with hz
  · exact (acquires_null p).obtains he
  · rcases he.bind with ⟨text, hr⟩ | ⟨_, t, hr, he⟩
    · cases hr
    cases hr
    have hu : p.Untouched (p.crossed raw) := ⟨rfl, rfl, rfl⟩
    rcases he.bind with ⟨text, hr⟩ | ⟨bytes, t, hr, he⟩
    · obtain rfl := eq_of_final_error (goBytes_state _ _ _) hr
      exact ⟨[], hu.obtains⟩
    · obtain ⟨rfl, -, hlen⟩ := C.goBytes_ok (not_or.mp hz).1 hr
      have hint := C.int_lt raw.len
      obtain ⟨new, ho⟩ := (fromBytes_acquires (by omega) _).obtains he
      exact ⟨new, ho.after hu⟩

theorem Exits.untouched {α : Type} {m : Go α} (he : Exits m p q)
    (hm : Respects Process.Untouched m) : p.Untouched q := by
  rcases he with ⟨a, hr⟩ | ⟨text, hr⟩
  · simpa [hr] using hm p
  · exact hm.error hr

/-- Every call but `Free` and `InvokeCallback` makes represented buffers, or none. -/
theorem GoCall.Step.obtains {call : GoCall} (hs : call.Step rt p q) (hfree : ∀ b, call ≠ .free b)
    (hinvoke : ∀ name input, call ≠ .invokeCallback name input) :
    ∃ new, Process.Obtains new p q := by
  have he := GoCall.step_iff_exits.mp hs
  have hread : ∀ {α : Type} {m : Go α}, Respects Process.Untouched m →
      Exits (do let _ ← m; return () : Go Unit) p q → ∃ new, Process.Obtains new p q :=
    fun hm he => ⟨[], ((exits_discard.mp he).untouched hm).obtains⟩
  have hslice : ∀ data : Slice, data.val.length < 2 ^ 64 := fun data =>
    data.property.trans (by norm_num)
  cases call with
  | newBuffer capacity => exact (NewBuffer_acquires capacity p).obtains (exits_discard.mp he)
  | fromBytes data => exact (fromBytes_acquires (hslice data) p).obtains (exits_discard.mp he)
  | fromJSON marshal =>
    cases marshal with
    | ok data =>
      have he' : Exits (do let _ ← FfiBridge.fromBytes rt data.val; return () : Go Unit) p q := by
        simpa [GoCall.run, FfiBridge.fromJSON, Except.map] using he
      exact (fromBytes_acquires (hslice data) p).obtains (exits_discard.mp he')
    | error err =>
      rcases he with ⟨_, hr⟩ | ⟨_, hr⟩ <;> cases hr
      exact ⟨[], Process.Untouched.obtains (Std.Refl.refl p)⟩
  | len b => exact hread (len_respects b) he
  | isEmpty b => exact hread (isEmpty_respects b) he
  | bytes b => exact hread (bytes_untouched b) he
  | toJSON b unmarshal => exact hread (toJSON_respects (bytes_untouched b) unmarshal) he
  | inspectBuffer b => exact hread (inspectBuffer_respects b) he
  | invokeCallback name input => exact absurd rfl (hinvoke name input)
  | free b => exact absurd rfl (hfree b)

/-! ## Sessions -/

/-- A Go process together with the values that are held beside its buffers. -/
structure Session where
  process : Process
  values : List Value

namespace Session

/-- The buffers that were obtained and not yet freed. -/
def raws (s : Session) : List FfiBuffer := s.process.unfreed ++ s.values.flatMap Value.raws

/-- A buffer to read or to copy: the null buffer, or one that was obtained. -/
def Has (s : Session) (raw : FfiBuffer) : Prop := raw = .null ∨ raw ∈ s.raws

inductive Event where
  | null
  | construct (c : Construct)
  | wrap (b : FfiBuffer)
  | takePayload (r : FfiResult)
  | free (v : Value)
  | call (call : GoCall)
  | copy (raw : FfiBuffer)
  | finalize (b : BufferRef)

/-- One step: `FfiBuffer::null`; a constructor of Rust; `FfiResult::ok` of a held buffer; taking
a payload out of a result, which is then zeroed; the matching free of a held value; a Go call
that invokes no callback; a copy that `CheckResult` makes of any payload; a finalizer. -/
inductive Step (rt : Runtime) : Session → Event → Session → Prop
  | null {p : Process} {vs : List Value} : Step rt ⟨p, vs⟩ .null ⟨p, .buffer .null :: vs⟩
  | made {p : Process} {h : Heap} {vs : List Value} {c : Construct} {v : Value}
      (hc : ∀ input, c = .echo input → Has ⟨p, vs⟩ input)
      (hr : (c.run rt).run p.heap = .ok (some v) h) :
      Step rt ⟨p, vs⟩ (.construct c) ⟨p.withHeap h, v :: vs⟩
  | failed {p : Process} {h : Heap} {vs : List Value} {c : Construct}
      (hc : ∀ input, c = .echo input → Has ⟨p, vs⟩ input)
      (hr : (c.run rt).run p.heap = .ok none h) :
      Step rt ⟨p, vs⟩ (.construct c) ⟨p.withHeap h, vs⟩
  | wrap {p : Process} {vs : List Value} {b : FfiBuffer} (hv : .buffer b ∈ vs) :
      Step rt ⟨p, vs⟩ (.wrap b) ⟨p, .result (.ok b) :: vs.erase (.buffer b)⟩
  | takePayload {p : Process} {vs : List Value} {r : FfiResult} (hv : .result r ∈ vs) :
      Step rt ⟨p, vs⟩ (.takePayload r)
        ⟨p, .result { r with payload := .null } :: .buffer r.payload :: vs.erase (.result r)⟩
  | free {p : Process} {h : Heap} {vs : List Value} {v : Value} (hv : v ∈ vs)
      (hr : v.free.run p.heap = .ok () h) : Step rt ⟨p, vs⟩ (.free v) ⟨p.withHeap h, vs.erase v⟩
  | call {p q : Process} {vs : List Value} {call : GoCall} (hs : call.Step rt p q)
      (hc : ∀ name input, call ≠ .invokeCallback name input) :
      Step rt ⟨p, vs⟩ (.call call) ⟨q, vs⟩
  | copy {p q : Process} {vs : List Value} {raw : FfiBuffer}
      (hs : Exits (copyBuffer rt raw) p q) : Step rt ⟨p, vs⟩ (.copy raw) ⟨q, vs⟩
  | finalize {p q : Process} {vs : List Value} {b : BufferRef} {buffer : Buffer}
      (hb : p.buffers[b]? = some buffer) (hf : buffer.finalizer = true)
      (hr : (Buffer.finalize b).run p = .ok () q) : Step rt ⟨p, vs⟩ (.finalize b) ⟨q, vs⟩

/-- All that is held, on both sides. -/
def all (s : Session) : List Value := s.process.unfreed.map .buffer ++ s.values

/-- What is held owns what was acquired since `h₀` and not yet released, each its own, and all of
it is represented. -/
structure InOrder (h₀ : Heap) (s : Session) : Prop where
  exchange : Arena.Exchange h₀.toArena [] s.process.heap.toArena (s.all.flatMap Value.owns)
  represented : ∀ v ∈ s.all, v.Represented s.process.heap

variable {s s' : Session} {e : Event} {es : List Event} {vs rest : List Value}

theorem inOrder_start (l : Library) : InOrder l.heap ⟨.start l, []⟩ :=
  ⟨.refl _, by simp [all, Process.start, Process.unfreed]⟩

theorem raws_all (s : Session) : s.all.flatMap Value.raws = s.raws := by
  rw [all, raws, List.flatMap_append, List.flatMap_map]
  simp [Value.raws]

/-- The one way a session stays in order: some of what is held is traded for something else that
is represented, and the rest is a frame. -/
theorem InOrder.trade (us ws : List Value) (hs : InOrder h₀ s) (hp : s.all.Perm (us ++ rest))
    (hp' : s'.all.Perm (ws ++ rest))
    (hx : Arena.Exchange s.process.heap.toArena (us.flatMap Value.owns)
      s'.process.heap.toArena (ws.flatMap Value.owns))
    (hw : ∀ v ∈ ws, v.Represented s'.process.heap) : InOrder h₀ s' := by
  obtain ⟨hx', hkept⟩ := hs.exchange.trade hp hx
  refine ⟨hx'.perm (hp'.flatMap_right _).symm, fun v hv => ?_⟩
  rcases List.mem_append.mp (hp'.mem_iff.mp hv) with hv | hv
  · exact hw v hv
  · exact (hs.represented v (hp.mem_iff.mpr (List.mem_append_right _ hv))).congr (hkept v hv)

/-- On the side of Rust, the buffers of Go belong to the frame. -/
theorem InOrder.tradeValues (us ws : List Value) (hs : InOrder h₀ ⟨p, vs⟩)
    (hp : vs.Perm (us ++ rest))
    (hx : Arena.Exchange p.heap.toArena (us.flatMap Value.owns) h.toArena (ws.flatMap Value.owns))
    (hw : ∀ v ∈ ws, v.Represented h) : InOrder h₀ ⟨p.withHeap h, ws ++ rest⟩ :=
  @InOrder.trade h₀ ⟨p, vs⟩ ⟨p.withHeap h, ws ++ rest⟩ (p.unfreed.map .buffer ++ rest) us ws hs
    ((hp.append_left _).trans (List.perm_append_comm_assoc _ _ _))
    (List.perm_append_comm_assoc _ _ _) hx hw

/-- Go makes buffers, on allocations that nobody holds. -/
theorem InOrder.obtains (hs : InOrder h₀ ⟨p, vs⟩) (ho : Process.Obtains new p q) :
    InOrder h₀ ⟨q, vs⟩ := by
  refine @InOrder.trade h₀ ⟨p, vs⟩ ⟨q, vs⟩ (all ⟨p, vs⟩) [] (new.map .buffer) hs (.refl _) ?_ ?_ ?_
  · rw [all, all, ho.unfreed, List.map_append, List.append_assoc]
    exact List.perm_append_comm_assoc _ _ _
  · rw [List.flatMap_map]
    exact ho.exchange
  · intro v hv
    obtain ⟨raw, hraw, rfl⟩ := List.mem_map.mp hv
    exact Value.represented_buffer.mpr (ho.represented raw hraw)

/-- Go frees a buffer, and gives back what it owns. -/
theorem InOrder.giveBack (hs : InOrder h₀ ⟨p, vs⟩) (hb : p.buffers[b]? = some buffer)
    (hf : buffer.freed = false) : InOrder h₀ ⟨p.giveBack b buffer.inner, vs⟩ := by
  refine @InOrder.trade h₀ ⟨p, vs⟩ ⟨_, vs⟩ (all ⟨p.giveBack b buffer.inner, vs⟩)
    [.buffer buffer.inner] [] hs ?_ (.refl _) ?_ (by simp)
  · have hp : p.unfreed.Perm (buffer.inner :: (p.giveBack b buffer.inner).unfreed) :=
      Process.unfreed_giveBack hb hf
    exact (hp.map Value.buffer).append_right vs
  · have hx : Arena.Exchange p.heap.toArena buffer.inner.owns
        (p.giveBack b buffer.inner).heap.toArena [] := .releaseAll _ _
    simpa [Value.owns] using hx

theorem InOrder.free (hs : InOrder h₀ ⟨p, vs⟩) (he : Exits (Buffer.free b) p q) :
    InOrder h₀ ⟨q, vs⟩ := by
  rcases free_exits he with ⟨rfl, -⟩ | ⟨buffer, hb, hf, rfl⟩
  · exact hs
  · exact hs.giveBack hb hf

theorem InOrder.has (hs : InOrder h₀ s) (hraw : s.Has raw) :
    raw.Represented s.process.heap := by
  rcases hraw with rfl | hraw
  · exact FfiBuffer.represented_null _
  · rw [← raws_all] at hraw
    obtain ⟨v, hv, hraw⟩ := List.mem_flatMap.mp hraw
    exact (hs.represented v hv).raw hraw

/-- Every step keeps the session in order. -/
theorem InOrder.step (hs : InOrder h₀ s) (hstep : Step rt s e s') : InOrder h₀ s' := by
  cases hstep with
  | @null p vs =>
    exact hs.tradeValues (h := p.heap) [] [.buffer .null] (.refl vs) (.refl _)
      (by simpa using Value.represented_buffer.mpr (FfiBuffer.represented_null p.heap))
  | @made p h vs c v hc hr =>
    obtain ⟨hx, hrep⟩ :=
      (Construct.run_trade fun input he => (hs.has (hc input he)).owned).ok _ _ hr
    exact hs.tradeValues [] [v] (.refl vs) (by simpa [Construct.owns] using hx)
      (by simpa using hrep v rfl)
  | @failed p h vs c hc hr =>
    obtain ⟨hx, -⟩ :=
      (Construct.run_trade fun input he => (hs.has (hc input he)).owned).ok _ _ hr
    exact hs.tradeValues [] [] (.refl vs) hx (by simp)
  | @wrap p vs b hv =>
    have hb : b.Represented p.heap := hs.has (.inr (List.mem_append_right _
      (List.mem_flatMap.mpr ⟨_, hv, List.mem_singleton_self b⟩)))
    refine hs.tradeValues (h := p.heap) [.buffer b] [.result (.ok b)] (List.perm_cons_erase hv) ?_ ?_
    · simpa [Value.owns] using .pass b.owns_nodup fun _ => hb.owned.mem_live
    · simpa using Value.represented_result (FfiResult.owned_ok hb.owned) hb.readable
  | @takePayload p vs r hv =>
    have hrep := hs.represented (.result r) (List.mem_append_right _ hv)
    have hr : r.Owned p.heap := hrep.owned
    refine hs.tradeValues (h := p.heap) [.result r]
      [.result { r with payload := .null }, .buffer r.payload] (List.perm_cons_erase hv) ?_ ?_
    · simpa [Value.owns, FfiResult.owns] using .pass hr.nodup fun _ => hr.mem_live
    · intro v hv
      simp only [List.mem_cons, List.not_mem_nil, or_false] at hv
      rcases hv with rfl | rfl
      · exact Value.represented_result hr.zeroed (.inl rfl)
      · exact Value.represented_buffer.mpr (hrep.raw (List.mem_singleton_self _))
  | @free p h vs v hv hr =>
    have hrep := hs.represented v (List.mem_append_right _ hv)
    cases (Value.run_free hrep.owned).symm.trans hr
    refine hs.tradeValues [v] [] (List.perm_cons_erase hv) ?_ (by simp)
    simpa using .releaseAll _ _
  | @call p q vs call hcall hc =>
    by_cases hfree : ∃ b, call = .free b
    · obtain ⟨b, rfl⟩ := hfree
      exact hs.free (b := b) (GoCall.step_iff_exits.mp hcall)
    · obtain ⟨new, ho⟩ := hcall.obtains (fun b h => hfree ⟨b, h⟩) hc
      exact hs.obtains ho
  | copy he =>
    obtain ⟨new, ho⟩ := copyBuffer_obtains he
    exact hs.obtains ho
  | @finalize p q vs b buffer hb hf hr =>
    have hs' : InOrder h₀ ⟨p.unarm b, vs⟩ := by
      refine @InOrder.trade h₀ ⟨p, vs⟩ ⟨_, vs⟩ (all ⟨p, vs⟩) [] [] hs (.refl _) ?_ (.refl _) (by simp)
      rw [all, Process.unfreed_unarm]
      exact .refl _
    exact hs'.free (b := b) (.inl ⟨(), hr⟩)

theorem InOrder.run (hs : InOrder h₀ s) (hrun : Execution (Step rt) s es s') : InOrder h₀ s' :=
  hrun.invariant (fun _ _ _ hs hstep => hs.step hstep) hs

/-- No allocation has two owners among the buffers. -/
theorem InOrder.nodup (hs : InOrder h₀ s) : (s.raws.flatMap FfiBuffer.owns).Nodup := by
  rw [← raws_all, List.flatMap_assoc]
  exact hs.exchange.nodup.sublist (.flatMap_right _ fun v _ => v.owns_raws_sublist)

end Session

/-! ## Readers -/

/-- From `s`, the program does nothing undefined. -/
def Faultless {σ α : Type} (m : Program σ α) (s : σ) : Prop := ∀ f t, m.run s ≠ .error (.fault f) t

section
variable {α β : Type}

theorem faultless_of_ok {m : Go α} {a : α} (hr : m.run p = .ok a q) : Faultless m p :=
  fun _ _ hf => by cases hr.symm.trans hf

theorem faultless_of_error {m : Go α} {e : Stop} (hr : m.run p = .error e q)
    (he : ∀ f, e ≠ .fault f) : Faultless m p := fun f _ hf => by
  cases hr.symm.trans hf
  exact he f rfl

theorem Faultless.bind {m : Go α} {g : α → Go β} (hm : Faultless m p)
    (hg : ∀ a q, m.run p = .ok a q → Faultless (g a) q) : Faultless (m >>= g) p := fun f t hf => by
  rcases bind_eq_error.mp hf with hf | ⟨a, q, hr, hf⟩
  · exact hm f t hf
  · exact hg a q hr f t hf

/-- A C `int` is no more than the length it comes from, so that the bytes it asks for are there. -/
theorem goBytes_faultless (hd : raw.data ≠ .null) (hr : raw.Readable p.heap) :
    Faultless (C.GoBytes raw.data (C.int raw.len)) p := by
  by_cases hn : 0 ≤ C.int raw.len
  · have hle : (C.int raw.len).toNat ≤ raw.len := by
      have := C.int_le raw.len
      omega
    obtain ⟨bytes, -, hread⟩ := run_readBytes (hr.mono hle)
    rw [C.GoBytes_of_nonneg hd hn]
    exact faultless_of_ok (within_of_ok hread)
  · exact faultless_of_error (C.run_GoBytes_neg (not_le.mp hn)) fun f h => by cases h

theorem Acquires.faultless {m : Go BufferRef} (hm : Acquires m p) : Faultless m p := by
  rcases hm with ⟨raw, q, hr, -⟩ | ⟨x, h, hr, -⟩
  · exact faultless_of_ok hr
  · exact faultless_of_error hr fun f h => by cases h

theorem copyBuffer_faultless (hr : raw.Readable p.heap) : Faultless (copyBuffer rt raw) p := by
  unfold copyBuffer
  split_ifs with hz
  · exact faultless_of_ok (run_newBuffer _)
  · refine (faultless_of_ok (run_crossing raw p)).bind fun _ q hq => ?_
    cases hq
    have hd := (not_or.mp hz).1
    refine (goBytes_faultless (p := p.crossed raw) hd hr).bind fun bytes q hq => ?_
    obtain ⟨-, -, hlen⟩ := C.goBytes_ok hd hq
    have hint := C.int_lt raw.len
    exact (fromBytes_acquires (by omega) _).faultless

theorem bytes_faultless (hr : ∀ raw ∈ p.unfreed, raw.Readable p.heap) (b : BufferRef) :
    Faultless (Buffer.bytes b) p := by
  cases hb : p.buffers[b]? with
  | none =>
    have hnil : (Buffer.bytes b).run p = .error (.goPanic _) p := bind_of_error (run_deref_nil hb) _
    exact faultless_of_error hnil fun f h => by cases h
  | some buffer =>
    by_cases he : buffer.freed = true ∨ buffer.inner.data = .null ∨ buffer.inner.len = 0
    · exact faultless_of_ok (run_bytes_empty hb he)
    · simp only [not_or, Bool.not_eq_true] at he
      have hread : Faultless (do return some (← C.GoBytes buffer.inner.data (C.int buffer.inner.len)) :
          Go (Option (List UInt8))) (p.crossed buffer.inner) :=
        (goBytes_faultless (p := p.crossed buffer.inner) he.2.1
          (hr _ (Process.mem_unfreed hb he.1))).bind fun _ _ _ => faultless_of_ok rfl
      intro f t hf
      exact hread f t ((run_bytes hb he.1 he.2.1 he.2.2).symm.trans hf)

end

/-- Over every run of the constructors, copies and frees of both sides: each buffer obtained and
not yet freed is represented, and no allocation has two of them as owners. So `as_slice` reads as
many bytes as the length says, and neither `copyBuffer` nor `Bytes` nor the `memcpy` in `FromBytes`
does anything undefined. -/
theorem buffers_represented {l : Library} {es : List Session.Event} {s : Session}
    (hrun : Execution (Session.Step rt) ⟨.start l, []⟩ es s) :
    (∀ raw ∈ s.raws, raw.Represented s.process.heap) ∧ (s.raws.flatMap FfiBuffer.owns).Nodup ∧
    (∀ raw, s.Has raw → (∃ bytes, bytes.length = raw.len ∧
      raw.asSlice.run s.process.heap = .ok bytes s.process.heap) ∧
        Faultless (copyBuffer rt raw) s.process) ∧
    (∀ b, Faultless (Buffer.bytes b) s.process) ∧
    ∀ data : Slice, Faultless (fromBytes rt data.val) s.process := by
  have hs := (Session.inOrder_start l).run hrun
  refine ⟨fun raw hraw => hs.has (.inr hraw), hs.nodup, fun raw hraw => ?_, fun b => ?_,
    fun data => (fromBytes_acquires (data.property.trans (by norm_num)) _).faultless⟩
  · have hrep := hs.has hraw
    exact ⟨run_readBytes hrep.readable, copyBuffer_faultless hrep.readable⟩
  · exact bytes_faultless (fun raw hraw => (hs.has (.inr (List.mem_append_left _ hraw))).readable) b

/-- Go copies the echo of a buffer that it frees afterwards. -/
theorem buffers_represented_echo : ∃ s : Session,
    Execution (Session.Step (.granting .unwind)) ⟨.start .empty, []⟩
      [.call (.free 0), .copy ⟨.block 1, 1, 1⟩, .construct (.echo ⟨.block 0, 1, 1⟩),
        .call (.fromBytes ⟨[7], by decide⟩)] s ∧
    s.raws = [⟨.block 2, 1, 1⟩, ⟨.block 1, 1, 1⟩] ∧
    ∀ raw ∈ s.raws, raw.Represented s.process.heap := by
  have h₁ : Execution (Session.Step (.granting .unwind)) ⟨.start .empty, []⟩
      [.call (.fromBytes ⟨[7], by decide⟩)] _ := .single (.call (.returned rfl) fun _ _ h => by cases h)
  have h₂ : Execution (Session.Step (.granting .unwind)) ⟨.start .empty, []⟩
      (.construct (.echo ⟨.block 0, 1, 1⟩) :: _) _ :=
    h₁.step (.made (fun input h => by cases h; exact .inr (List.mem_cons_self ..)) rfl)
  have h₃ : Execution (Session.Step (.granting .unwind)) ⟨.start .empty, []⟩
      (.copy ⟨.block 1, 1, 1⟩ :: _) _ :=
    h₂.step (.copy (.inl ⟨_, rfl⟩))
  have h₄ : Execution (Session.Step (.granting .unwind)) ⟨.start .empty, []⟩
      (.call (.free 0) :: _) _ := h₃.step (.call (.returned rfl) fun _ _ h => by cases h)
  exact ⟨_, h₄, rfl, (buffers_represented h₄).1⟩

end FfiBridge
