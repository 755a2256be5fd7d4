import FfiBridge.Go.Callback

/-! # What the buffers of a Go process hold

A `*Buffer` that was not freed holds the allocation of its `FfiBuffer`, and no other buffer
holds the same. Calls that take no callback keep this, and find what they read or hand over
allocated.
-/
namespace FfiBridge
open Foundation

variable {rt : Runtime} {p q : Process} {b : BufferRef} {buffer : Buffer} {raw : FfiBuffer}
  {xs ys : List ℕ} {h : Heap}

/-- The allocation behind a buffer, unless it was freed. -/
def Buffer.held (b : Buffer) : List ℕ := if b.freed then [] else b.inner.owns

namespace Process

def held (p : Process) : List ℕ := p.buffers.flatMap Buffer.held

/-- The buffers hold live allocations, each its own, and none of them is among `others`,
which are live and distinct as well. -/
structure Holds (p : Process) (others : List ℕ) : Prop where
  nodup : (p.held ++ others).Nodup
  live : ∀ id ∈ p.held ++ others, id ∈ p.heap.live

namespace Holds

theorem start (l : Library) : (Process.start l).Holds [] := ⟨List.nodup_nil, by simp [Process.start, held]⟩

theorem perm (hp : p.Holds xs) (hh : q.heap = p.heap) (hq : (p.held ++ xs).Perm (q.held ++ ys)) :
    q.Holds ys where
  nodup := hq.nodup_iff.mp hp.nodup
  live id hid := by
    rw [hh]
    exact hp.live id (hq.mem_iff.mpr hid)

/-- What is acquired is held apart from the rest. -/
theorem exchange (hp : p.Holds xs) (hb : q.buffers = p.buffers)
    (hx : Arena.Exchange p.heap.toArena [] q.heap.toArena ys) : q.Holds (ys ++ xs) := by
  have hq : (ys ++ (p.held ++ xs)).Perm (q.held ++ (ys ++ xs)) := by
    rw [held, held, hb]
    exact List.perm_append_comm_assoc _ _ _
  refine ⟨hq.nodup_iff.mp (List.nodup_append.mpr ⟨hx.nodup, hp.nodup, ?_⟩), fun id hid => ?_⟩
  · rintro id hy _ hid rfl
    exact List.not_mem_nil (hx.apart id hy (hp.live id hid))
  · rcases List.mem_append.mp (hq.mem_iff.mpr hid) with hy | hid
    · exact hx.mem_live hy
    · exact hx.spares id (hp.live id hid)

/-- Where what is held is spared, all is held as before. -/
theorem spared (hp : p.Holds xs) (hb : q.buffers = p.buffers)
    (hs : Arena.Spares (p.held ++ xs) p.heap.toArena q.heap.toArena) : q.Holds xs := by
  have hq : q.held = p.held := by rw [held, held, hb]
  exact ⟨hq ▸ hp.nodup, fun id hid => hs id (hq ▸ hid) (hp.live id (hq ▸ hid))⟩

/-- What is given back is no longer held. -/
theorem drop (hp : p.Holds (xs ++ ys)) (hb : q.buffers = p.buffers)
    (hh : q.heap = p.heap.dropAll xs) : q.Holds ys := by
  have hq : (p.held ++ (xs ++ ys)).Perm (xs ++ (q.held ++ ys)) := by
    rw [held, held, hb]
    exact List.perm_append_comm_assoc _ _ _
  obtain ⟨-, hn, hd⟩ := List.nodup_append.mp (hq.nodup_iff.mp hp.nodup)
  refine ⟨hn, fun id hid => ?_⟩
  rw [hh, Heap.dropAll_toArena, Arena.mem_releaseAll]
  exact ⟨hp.live id (hq.mem_iff.mpr (List.mem_append_right _ hid)), fun hx => hd id hx id hid rfl⟩

theorem forget (hp : p.Holds (xs ++ ys)) : p.Holds ys := by
  have hq : (p.held ++ (xs ++ ys)).Perm (xs ++ (p.held ++ ys)) := List.perm_append_comm_assoc _ _ _
  exact ⟨(List.nodup_append.mp (hq.nodup_iff.mp hp.nodup)).2.1, fun id hid =>
    hp.live id (hq.mem_iff.mpr (List.mem_append_right _ hid))⟩

/-- A new buffer takes over what is held apart for it. -/
theorem withBuffer (hp : p.Holds (raw.owns ++ xs)) : (p.withBuffer raw).Holds xs := by
  refine hp.perm rfl ?_
  simp [held, Process.withBuffer, Buffer.held]

/-- Marked as freed, a buffer leaves its allocation to whoever marks it. -/
theorem mark (hp : p.Holds xs) {f : Buffer → Buffer} (hb : p.buffers[b]? = some buffer)
    (hf : buffer.freed = false) (hm : (f buffer).freed = true)
    (hq : q.buffers = p.buffers.modify b f) (hh : q.heap = p.heap) :
    q.Holds (buffer.inner.owns ++ xs) := by
  obtain ⟨hlt, hget⟩ := List.getElem?_eq_some_iff.mp hb
  obtain ⟨pre, c, post, hpre, rfl, hmod⟩ := List.exists_of_modify f hlt
  obtain rfl : c = buffer := by simpa [hpre] using hget
  refine hp.perm hh ?_
  rw [held, held, hq, hmod, hpre]
  simp only [List.flatMap_append, List.flatMap_cons, Buffer.held, hf, hm, if_true,
    Bool.false_eq_true, if_false, List.nil_append, List.append_assoc]
  refine List.Perm.append_left _ ?_
  exact List.perm_append_comm_assoc _ _ _

/-- A buffer that was not freed is not stale. -/
theorem not_stale (hp : p.Holds xs) (hb : p.buffers[b]? = some buffer)
    (hf : buffer.freed = false) : p.stale buffer.inner = false := by
  simp only [stale, List.any_eq_false, decide_eq_true_eq]
  intro id hid
  refine p.heap.apart id (hp.live id (List.mem_append_left _ ?_))
  exact List.mem_flatMap.mpr ⟨buffer, List.mem_of_getElem? hb, by simpa [Buffer.held, hf] using hid⟩

end Holds

/-- Every crossing made on the way from `p` to `q` found its buffer allocated. -/
def CrossesLive (p q : Process) : Prop :=
  ∀ c ∈ q.crossings, c ∈ p.crossings ∨ c.stale = false

namespace CrossesLive

theorem of_eq (hc : q.crossings = p.crossings) : CrossesLive p q := fun _ hq => .inl (hc ▸ hq)

theorem crossed (hs : p.stale raw = false) : CrossesLive p (p.crossed raw) :=
  fun _ hc => (List.mem_cons.mp hc).elim (fun he => .inr (he ▸ hs)) .inl

theorem trans {p q r : Process} (h : CrossesLive p q) (h' : CrossesLive q r) : CrossesLive p r :=
  fun c hc => (h' c hc).elim (h c) .inr

end CrossesLive

/-- From `p` to `q` the buffers and `others` keep what they hold, and no crossing is stale. -/
def Keeps (others : List ℕ) (p q : Process) : Prop :=
  p.Holds others → q.Holds others ∧ CrossesLive p q

instance : Std.Refl (Keeps xs) := ⟨fun _ hp => ⟨hp, .of_eq rfl⟩⟩
instance : IsTrans Process (Keeps xs) := ⟨fun _ _ _ h h' hp =>
  ⟨(h' (h hp).1).1, (h hp).2.trans (h' (h hp).1).2⟩⟩

end Process

/-! ## Calls without a callback -/

theorem newBuffer_holds (hp : p.Holds (raw.owns ++ xs)) :
    (final ((newBuffer raw).run p)).Holds xs ∧
      Process.CrossesLive p (final ((newBuffer raw).run p)) :=
  ⟨hp.withBuffer, .of_eq rfl⟩

theorem NewBuffer_keeps (capacity : ℤ) : Respects (Process.Keeps xs) (NewBuffer rt capacity) := by
  intro p hp
  unfold NewBuffer
  cases hr : (FfiBuffer.new rt (C.size_t capacity)).run p.heap with
  | ok raw h =>
    have hx := ((FfiBuffer.new_trade _).ok raw h hr).1
    have hw : (within (ffiBufferAlloc rt (C.size_t capacity)) : Go FfiBuffer).run p =
      .ok raw (p.withHeap h) := within_of_ok hr
    rw [bind_of_ok hw]
    exact newBuffer_holds (@Process.Holds.exchange p (p.withHeap h) _ _ hp rfl hx)
  | error e h =>
    obtain ⟨_, -, ha⟩ := FfiBuffer.new_error hr
    have hw : (within (ffiBufferAlloc rt (C.size_t capacity)) : Go FfiBuffer).run p =
      .error e (p.withHeap h) := within_of_error hr
    rw [bind_of_error hw]
    exact ⟨hp.spared rfl (Heap.spares_of_eq ha), .of_eq rfl⟩

/-- `FromBytes` of a slice that can exist. -/
theorem fromBytes_keeps {data : List UInt8} (hlt : data.length < 2 ^ 64) :
    Respects (Process.Keeps xs) (fromBytes rt data) := by
  intro p hp
  by_cases hne : data = []
  · subst hne
    rw [run_fromBytes_nil]
    exact newBuffer_holds hp
  by_cases hs : rt.Serves p.heap data.length
  · have hz : data.length ≠ 0 := List.length_eq_zero_iff.not.mpr hne
    rw [run_fromBytes hne hs]
    refine ⟨?_, fun c hc => (List.mem_cons.mp hc).elim (fun he => .inr (he ▸ rfl)) .inl⟩
    have hq : (p.withHeap (p.heap.store ⟨⟨data.length, hs.le⟩, data, le_rfl⟩)).Holds _ :=
      hp.exchange rfl (Ptr.exchange_store hz)
    exact (@Process.Holds.withBuffer _ ⟨.block p.heap.next, data.length, data.length⟩ _ hq).perm
      rfl (.refl _)
  · obtain ⟨e, h, hr, ha⟩ := run_fromBytes_unserved hne hlt hs
    rw [hr]
    exact ⟨hp.spared rfl (Heap.spares_of_eq ha), .of_eq rfl⟩

theorem goBytes_state (ptr : Ptr) (n : ℤ) (p : Process) : final ((C.GoBytes ptr n).run p) = p := by
  unfold C.GoBytes
  split_ifs
  · rfl
  · rfl
  · rw [final_within, fromRawParts_state, Component.put_get]

section
variable {R : Process → Process → Prop} [Std.Refl R]

theorem deref_respects (b : BufferRef) : Respects R (deref b) := by
  refine .of_state fun p => ?_
  cases hb : p.buffers[b]? with
  | none => rw [run_deref_nil hb, final_error]
  | some buffer => rw [run_deref hb, final_ok]

variable [IsTrans Process R]

theorem len_respects (b : BufferRef) : Respects R (Buffer.len b) :=
  (deref_respects b).bind fun _ => .ite (.pure _) (.pure _)

theorem isEmpty_respects (b : BufferRef) : Respects R (Buffer.isEmpty b) :=
  (len_respects b).bind fun _ => .pure _

theorem inspectBuffer_respects (b : Option BufferRef) : Respects R (inspectBuffer b) := by
  cases b with
  | none => exact .pure _
  | some b => exact (deref_respects b).bind fun _ => .ite (.pure _) (.pure _)

/-- `ToJSON` does to the process what `Bytes` does. -/
theorem toJSON_respects {T : Type} {b : BufferRef} (hb : Respects R (Buffer.bytes b))
    (unmarshal : List UInt8 → Except String T) : Respects R (Buffer.toJSON b unmarshal) := by
  refine hb.bind fun data => ?_
  cases data with
  | none => exact .pure _
  | some data =>
    cases hu : unmarshal data with
    | ok v =>
      simp only [hu]
      exact .pure _
    | error err =>
      simp only [hu]
      exact .pure _

end

theorem bytes_keeps (b : BufferRef) : Respects (Process.Keeps xs) (Buffer.bytes b) := by
  intro p hp
  cases hb : p.buffers[b]? with
  | none =>
    unfold Buffer.bytes
    rw [bind_of_error (run_deref_nil hb)]
    exact ⟨hp, .of_eq rfl⟩
  | some buffer =>
    by_cases he : buffer.freed = true ∨ buffer.inner.data = .null ∨ buffer.inner.len = 0
    · rw [run_bytes_empty hb he]
      exact ⟨hp, .of_eq rfl⟩
    · simp only [not_or, Bool.not_eq_true] at he
      rw [run_bytes hb he.1 he.2.1 he.2.2, final_bind_pure, goBytes_state]
      exact ⟨hp.spared rfl (.refl _ _), .crossed (hp.not_stale hb he.1)⟩

theorem fromJSON_keeps {marshal : Except String (List UInt8)}
    (hlt : ∀ data, marshal = .ok data → data.length < 2 ^ 64) :
    Respects (Process.Keeps xs) (fromJSON rt marshal) := by
  cases marshal with
  | ok data => exact (fromBytes_keeps (hlt data rfl)).bind fun _ => .pure _
  | error err => exact .pure _

/-- The process when the buffer `b`, which holds `raw`, has been freed. -/
def Process.giveBack (p : Process) (b : BufferRef) (raw : FfiBuffer) : Process :=
  { (p.freeing raw).withHeap (p.heap.dropAll raw.owns) with
    buffers := p.buffers.modify b fun b => { b with freed := true, finalizer := false } }

theorem run_free_freed (hb : p.buffers[b]? = some buffer) (hf : buffer.freed = true) :
    (Buffer.free b).run p = .ok () p := by
  unfold Buffer.free
  rw [bind_of_ok (run_deref hb), hf]
  rfl

/-- Freeing hands the buffer over and marks it. -/
theorem run_free_unfreed (hb : p.buffers[b]? = some buffer) (hf : buffer.freed = false) :
    (Buffer.free b).run p = (do
      C.ffiBufferFree buffer.inner
      assign b fun b => { b with freed := true, finalizer := false } : Go Unit).run p := by
  unfold Buffer.free
  rw [bind_of_ok (run_deref hb), hf]
  rfl

theorem run_free_of_ok (hb : p.buffers[b]? = some buffer) (hf : buffer.freed = false)
    (hr : (ffiBufferFree buffer.inner).run p.heap = .ok () (p.heap.dropAll buffer.inner.owns)) :
    (Buffer.free b).run p = .ok () (p.giveBack b buffer.inner) := by
  have hw : (C.ffiBufferFree buffer.inner).run p =
      .ok () ((p.freeing buffer.inner).withHeap (p.heap.dropAll buffer.inner.owns)) :=
    (C.run_ffiBufferFree _ _).trans (within_of_ok hr)
  rw [run_free_unfreed hb hf, bind_of_ok hw]
  rfl

/-- Freeing gives back what the buffer holds, or stops with nothing given back. -/
theorem run_free_cases (hb : p.buffers[b]? = some buffer) (hf : buffer.freed = false) :
    (Buffer.free b).run p = .ok () (p.giveBack b buffer.inner) ∨
      ∃ e, (Buffer.free b).run p = .error e (p.freeing buffer.inner) := by
  rcases run_deallocBytes_cases "capacity overflow" buffer.inner.data buffer.inner.capacity
    p.heap with hr | ⟨e, hr⟩
  · exact .inl (run_free_of_ok hb hf hr)
  · have hw : (C.ffiBufferFree buffer.inner).run p =
        .error e ((p.freeing buffer.inner).withHeap p.heap) :=
      (C.run_ffiBufferFree _ _).trans (within_of_error hr)
    rw [run_free_unfreed hb hf, bind_of_error hw]
    exact .inr ⟨e, rfl⟩

theorem Process.Holds.giveBack (hp : p.Holds xs) (hb : p.buffers[b]? = some buffer)
    (hf : buffer.freed = false) : (p.giveBack b buffer.inner).Holds xs := by
  have hmark : Process.Holds { p with
      buffers := p.buffers.modify b fun b => { b with freed := true, finalizer := false } }
      (buffer.inner.owns ++ xs) := hp.mark hb hf rfl rfl rfl
  exact hmark.drop rfl rfl

theorem free_keeps (b : BufferRef) : Respects (Process.Keeps xs) (Buffer.free b) := by
  intro p hp
  cases hb : p.buffers[b]? with
  | none =>
    unfold Buffer.free
    rw [bind_of_error (run_deref_nil hb)]
    exact ⟨hp, .of_eq rfl⟩
  | some buffer =>
    cases hf : buffer.freed with
    | true =>
      rw [run_free_freed hb hf]
      exact ⟨hp, .of_eq rfl⟩
    | false =>
      have hc := Process.CrossesLive.crossed (hp.not_stale hb hf)
      rcases run_free_cases hb hf with hr | ⟨e, hr⟩
      · rw [hr]
        exact ⟨hp.giveBack hb hf, hc⟩
      · rw [hr]
        exact ⟨hp.spared rfl (.refl _ _), hc⟩

/-! ## Results -/

/-- The payload of a result is copied and nothing is given back. -/
theorem copyBuffer_holds (raw : FfiBuffer) (hp : p.Holds xs) :
    (final ((copyBuffer rt raw).run p)).Holds xs ∧
      (p.stale raw = false → Process.CrossesLive p (final ((copyBuffer rt raw).run p))) := by
  unfold copyBuffer
  split_ifs with hz
  · exact (newBuffer_holds hp).imp_right fun hc _ => hc
  · have hq : (p.crossed raw).Holds xs := hp.spared rfl (.refl _ _)
    rw [bind_of_ok (run_crossing _ _)]
    cases hr : (C.GoBytes raw.data (C.int raw.len)).run (p.crossed raw) with
    | error e q =>
      obtain rfl := eq_of_final_error (goBytes_state _ _ _) hr
      rw [bind_of_error hr]
      exact ⟨hq, .crossed⟩
    | ok bytes q =>
      obtain ⟨rfl, -, hlen⟩ := C.goBytes_ok (not_or.mp hz).1 hr
      have hlt : bytes.length < 2 ^ 64 := by
        have := C.int_lt raw.len
        omega
      rw [bind_of_ok hr]
      obtain ⟨hq', hc⟩ := fromBytes_keeps hlt _ hq
      exact ⟨hq', fun hs => (Process.CrossesLive.crossed hs).trans hc⟩

theorem checkResult_ok_holds (raw : FfiBuffer) (hp : p.Holds xs) :
    (final ((checkResult rt (.ok raw)).run p)).Holds xs ∧
      (p.stale raw = false → Process.CrossesLive p (final ((checkResult rt (.ok raw)).run p))) := by
  have hr : final ((checkResult rt (.ok raw)).run p) = final ((copyBuffer rt raw).run p) := by
    rw [run_checkResult_ok rfl]
    exact final_bind_pure (copyBuffer rt raw) Except.ok p
  rw [hr]
  exact copyBuffer_holds raw hp

/-- An error result is given back, unless its message stops the program. -/
theorem checkResult_error_holds {out : FfiResult} (hc : out.errorCode ≠ .ok)
    (ho : out.Owned p.heap) (hp : p.Holds (out.owns ++ xs)) :
    (final ((checkResult rt out).run p)).Holds xs ∧
      Process.CrossesLive p (final ((checkResult rt out).run p)) := by
  cases hr : (goStringFromFfiString out.errorMessage).run p with
  | ok msg q =>
    obtain rfl := eq_of_final_ok (goString_state _ _) hr
    rw [run_checkResult_error hc ho hr]
    exact ⟨hp.drop rfl rfl, .of_eq rfl⟩
  | error e q =>
    obtain rfl := eq_of_final_error (goString_state _ _) hr
    unfold checkResult
    rw [if_pos (FfiErrorCode.toInt_eq_zero.not.mpr hc), bind_of_error hr]
    exact ⟨hp.forget, .of_eq rfl⟩

end FfiBridge
