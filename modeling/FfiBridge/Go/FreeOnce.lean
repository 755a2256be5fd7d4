import FfiBridge.Go.Finalizers
import FfiBridge.Go.FreedBuffers

/-! # Every buffer is freed once

Of the calls on buffers `Free` alone calls `ffi_buffer_free`, and a finalizer runs it as well;
the flag of the `*Buffer` is set with the call. Over any run the calls that the process records
are counted for each buffer. All other calls leave the buffers there are alone, and add at most
one, with an allocation of its own.
-/
namespace FfiBridge
open Foundation

variable {rt : Runtime} {p q r : Process} {b : BufferRef} {buffer : Buffer} {raw : FfiBuffer}
  {new : List Buffer} {made : Option BufferRef} {n : ℤ} {α β : Type}

/-! ## What calls add -/

namespace Process

/-- From `p` to `q` the buffers `new` are added, which are not freed and whose allocations are
new as well, and `ffi_buffer_free` is not called. -/
structure GrowsBy (new : List Buffer) (p q : Process) : Prop where
  buffers : q.buffers = p.buffers ++ new
  frees : q.frees = p.frees
  unfreed : ∀ x ∈ new, x.freed = false
  later : p.heap.Later q.heap
  nodup : (new.flatMap fun x => x.inner.owns).Nodup
  fresh : ∀ id ∈ new.flatMap fun x => x.inner.owns, p.heap.next ≤ id ∧ id < q.heap.next

/-- The call that has gone from `p` to `q` has made the buffer `made`, or none. -/
inductive Adds (p q : Process) : Option BufferRef → Prop
  | nothing (h : GrowsBy [] p q) : Adds p q none
  | one {x : Buffer} (h : GrowsBy [x] p q) : Adds p q (some p.buffers.length)

/-- From `p` to `q` a buffer is made around `raw`, on an allocation of its own. -/
structure Acquired (raw : FfiBuffer) (p q : Process) : Prop where
  buffers : q.buffers = p.buffers ++ [⟨raw, false, true⟩]
  frees : q.frees = p.frees
  exchange : Arena.Exchange p.heap.toArena [] q.heap.toArena raw.owns
  represented : raw.Represented q.heap

/-- The buffers and the heap are as they were, and `ffi_buffer_free` is not called. -/
structure Untouched (p q : Process) : Prop where
  buffers : q.buffers = p.buffers
  frees : q.frees = p.frees
  heap : q.heap = p.heap

instance : Std.Refl Untouched := ⟨fun _ => ⟨rfl, rfl, rfl⟩⟩
instance : IsTrans Process Untouched := ⟨fun _ _ _ h h' =>
  ⟨h'.buffers.trans h.buffers, h'.frees.trans h.frees, h'.heap.trans h.heap⟩⟩

theorem growsBy_nil (hb : q.buffers = p.buffers) (hf : q.frees = p.frees)
    (hh : p.heap.Later q.heap) : GrowsBy [] p q where
  buffers := by rw [hb, List.append_nil]
  frees := hf
  unfreed _ hx := absurd hx List.not_mem_nil
  later := hh
  nodup := List.nodup_nil
  fresh _ hid := absurd hid List.not_mem_nil

theorem Adds.same (hb : q.buffers = p.buffers) (hf : q.frees = p.frees)
    (hh : p.heap.Later q.heap) : Adds p q none :=
  .nothing (growsBy_nil hb hf hh)

theorem Acquired.adds (h : Acquired raw p q) : Adds p q (some p.buffers.length) := by
  have hx := h.exchange
  refine .one ⟨h.buffers, h.frees, by simp, hx.later, by simpa using hx.nodup, fun id hid => ?_⟩
  have hown : id ∈ raw.owns := by simpa using hid
  exact ⟨hx.fresh hown, Arena.lt_next_of_live (hx.mem_live hown)⟩

theorem GrowsBy.trans {more : List Buffer} (h : GrowsBy new p q) (h' : GrowsBy more q r) :
    GrowsBy (new ++ more) p r where
  buffers := by rw [h'.buffers, h.buffers, List.append_assoc]
  frees := h'.frees.trans h.frees
  unfreed x hx := (List.mem_append.mp hx).elim (h.unfreed x) (h'.unfreed x)
  later := Arena.Later.trans h.later h'.later
  nodup := by
    rw [List.flatMap_append]
    refine List.nodup_append.mpr ⟨h.nodup, h'.nodup, ?_⟩
    rintro id hid _ hid' rfl
    exact absurd (h.fresh id hid).2 (not_lt.mpr (h'.fresh id hid').1)
  fresh id hid := by
    rw [List.flatMap_append, List.mem_append] at hid
    rcases hid with hid | hid
    · exact ⟨(h.fresh id hid).1, (h.fresh id hid).2.trans_le h'.later.next⟩
    · exact ⟨h.later.next.trans (h'.fresh id hid).1, (h'.fresh id hid).2⟩

/-- What adds nothing goes before. -/
theorem Adds.andThen (h : Adds p q none) (h' : Adds q r made) : Adds p r made := by
  cases h with
  | nothing h =>
    cases h' with
    | nothing h' => exact .nothing (h.trans h')
    | one h' =>
      have hlen : q.buffers.length = p.buffers.length := by simp [h.buffers]
      rw [hlen]
      exact .one (h.trans h')

theorem Adds.frees (h : Adds p q made) : q.frees = p.frees := by
  cases h with
  | nothing h => exact h.frees
  | one h => exact h.frees

theorem Adds.grows (h : Adds p q made) : ∃ new, GrowsBy new p q := by
  cases h with
  | nothing h => exact ⟨_, h⟩
  | one h => exact ⟨_, h⟩

theorem GrowsBy.kept (h : GrowsBy new p q) (hb : p.buffers[b]? = some buffer) :
    q.buffers[b]? = some buffer := by
  rw [h.buffers, List.getElem?_append_left (List.getElem?_eq_some_iff.mp hb).1, hb]

theorem GrowsBy.old_of_freed (h : GrowsBy new p q) (hb : q.buffers[b]? = some buffer)
    (hf : buffer.freed = true) : p.buffers[b]? = some buffer := by
  rw [h.buffers] at hb
  by_cases hlt : b < p.buffers.length
  · rwa [List.getElem?_append_left hlt] at hb
  · rw [List.getElem?_append_right (not_lt.mp hlt)] at hb
    cases (h.unfreed buffer (List.mem_of_getElem? hb)).symm.trans hf

theorem buffers_giveBack_self (hb : p.buffers[b]? = some buffer) :
    (p.giveBack b raw).buffers[b]? = some { buffer with freed := true, finalizer := false } := by
  simp [giveBack, hb]

theorem notMem_live_giveBack {id : ℕ} (h : id ∈ raw.owns ∨ id ∉ p.heap.live) :
    id ∉ (p.giveBack b raw).heap.live := fun hl =>
  have ⟨hlive, hown⟩ := Arena.mem_releaseAll.mp hl
  h.elim hown fun hn => hn hlive

theorem next_giveBack (p : Process) (b : BufferRef) (raw : FfiBuffer) :
    (p.giveBack b raw).heap.next = p.heap.next := by
  change (p.heap.dropAll raw.owns).toArena.next = _
  rw [Heap.dropAll_toArena, Arena.releaseAll_next]

theorem owned_giveBack (p : Process) (b : BufferRef) (raw : FfiBuffer) :
    ((p.giveBack b raw).buffers.flatMap fun x => x.inner.owns) =
      p.buffers.flatMap fun x => x.inner.owns :=
  @flatMap_modify Buffer ℕ (fun b => { b with freed := true, finalizer := false })
    (fun x => x.inner.owns) (fun _ => rfl) p.buffers b

end Process

/-- Every run of `m` adds the buffer that `result` finds in what it returns, or none; a run that
does not return adds none. -/
structure Makes (result : α → Option BufferRef) (m : Go α) : Prop where
  ok : ∀ {p a q}, m.run p = .ok a q → p.Adds q (result a)
  error : ∀ {p e q}, m.run p = .error e q → p.Adds q none

namespace Makes

variable {m : Go α} {result : α → Option BufferRef}

/-- Nothing is added where the buffers stay as they are. -/
theorem nothing (hb : ∀ p : Process, (final (m.run p)).buffers = p.buffers)
    (hf : ∀ p : Process, (final (m.run p)).frees = p.frees)
    (hh : ∀ p : Process, p.heap.Later (final (m.run p)).heap) : Makes (fun _ => none) m where
  ok {p a q} hr := .same (by simpa [hr] using hb p) (by simpa [hr] using hf p)
    (by simpa [hr] using hh p)
  error {p e q} hr := .same (by simpa [hr] using hb p) (by simpa [hr] using hf p)
    (by simpa [hr] using hh p)

theorem untouched (hm : Respects Process.Untouched m) : Makes (fun _ => none) m :=
  nothing (fun p => (hm p).buffers) (fun p => (hm p).frees) fun p =>
    Heap.later_of_eq (congrArg Heap.toArena (hm p).heap)

theorem pure {a : α} (ha : result a = none) : Makes result (Pure.pure a : Go α) where
  ok {p a' q} hr := by
    cases hr
    rw [ha]
    exact .same rfl rfl (Std.Refl.refl p.heap)
  error hr := by cases hr

theorem map {f : α → β} {result' : β → Option BufferRef} (hm : Makes result m)
    (hf : ∀ a, result' (f a) = result a) : Makes result' (do return f (← m)) where
  ok {p b q} hr := by
    obtain ⟨a, t, hr, hb⟩ := bind_eq_ok.mp hr
    cases hb
    rw [hf]
    exact hm.ok hr
  error {p e q} hr := by
    rcases bind_eq_error.mp hr with hr | ⟨a, t, -, hr⟩
    · exact hm.error hr
    · cases hr

theorem bind {f : α → Go β} {result : β → Option BufferRef} (hm : Makes (fun _ => none) m)
    (hf : ∀ {p a q}, m.run p = .ok a q → Makes result (f a)) : Makes result (m >>= f) where
  ok {p b q} hr := by
    obtain ⟨a, t, hr, hb⟩ := bind_eq_ok.mp hr
    exact (hm.ok hr).andThen ((hf hr).ok hb)
  error {p e q} hr := by
    rcases bind_eq_error.mp hr with hr | ⟨a, t, hr, hb⟩
    · exact hm.error hr
    · exact (hm.ok hr).andThen ((hf hr).error hb)

end Makes

theorem within_makes {m : Rust α} (hm : Respects Heap.Later m) :
    Makes (fun _ => none) (within m : Go α) := by
  refine .nothing (fun p => ?_) (fun p => ?_) fun p => ?_
  · rw [final_within]
    rfl
  · rw [final_within]
    rfl
  · rw [final_within]
    exact hm p.heap

/-- The call makes a buffer and returns it, or a panic of Rust stops it before. -/
def Acquires (m : Go BufferRef) (p : Process) : Prop :=
  (∃ raw q, m.run p = .ok p.buffers.length q ∧ p.Acquired raw q) ∨
    ∃ x h, m.run p = .error (.panic x) (p.withHeap h) ∧ h.toArena = p.heap.toArena

theorem acquires_null (p : Process) : Acquires (newBuffer .null) p :=
  .inl ⟨.null, p.withBuffer .null, rfl, rfl, rfl, .refl _, FfiBuffer.represented_null _⟩

theorem NewBuffer_acquires (capacity : ℤ) (p : Process) : Acquires (NewBuffer rt capacity) p := by
  cases hr : (FfiBuffer.new rt (C.size_t capacity)).run p.heap with
  | ok raw h =>
    obtain ⟨hx, hrep, -⟩ := (FfiBuffer.new_trade _).ok raw h hr
    have halloc : (within (ffiBufferAlloc rt (C.size_t capacity)) : Go FfiBuffer).run p =
      .ok raw (p.withHeap h) := within_of_ok hr
    exact .inl ⟨raw, (p.withHeap h).withBuffer raw, bind_of_ok halloc _, rfl, rfl, hx, hrep⟩
  | error e h =>
    have halloc : (within (ffiBufferAlloc rt (C.size_t capacity)) : Go FfiBuffer).run p =
      .error e (p.withHeap h) := within_of_error hr
    obtain ⟨x, rfl, ha⟩ := FfiBuffer.new_error hr
    exact .inr ⟨x, h, bind_of_error halloc _, ha⟩

/-- The length that Go sets is that of the bytes it has copied. -/
theorem fromBytes_acquires {data : List UInt8} (hlt : data.length < 2 ^ 64) (p : Process) :
    Acquires (fromBytes rt data) p := by
  by_cases hne : data = []
  · subst hne
    exact acquires_null p
  by_cases hs : rt.Serves p.heap data.length
  · exact .inl ⟨_, _, run_fromBytes hne hs, rfl, rfl,
      Ptr.exchange_store (List.length_eq_zero_iff.not.mpr hne),
      ⟨le_rfl, Ptr.backed_store rfl rfl⟩, Ptr.readable_store le_rfl⟩
  · exact .inr (run_fromBytes_unserved hne hlt hs)

theorem Makes.acquires {m : Go BufferRef} (hm : ∀ p, Acquires m p) : Makes some m where
  ok {p b q} hr := by
    rcases hm p with ⟨raw, q', hr', ha⟩ | ⟨x, h, hr', -⟩
    · cases hr'.symm.trans hr
      exact ha.adds
    · cases hr'.symm.trans hr
  error {p e q} hr := by
    rcases hm p with ⟨raw, q', hr', -⟩ | ⟨x, h, hr', ha⟩
    · cases hr'.symm.trans hr
    · cases hr'.symm.trans hr
      exact .same rfl rfl (Heap.later_of_eq ha)

theorem fromBytes_makes {data : List UInt8} (hlt : data.length < 2 ^ 64) :
    Makes some (fromBytes rt data) := .acquires (fromBytes_acquires hlt)

theorem fromJSON_makes (marshal : Except String Slice) :
    Makes Except.toOption (fromJSON rt (marshal.map Subtype.val)) := by
  cases marshal with
  | ok data => exact (fromBytes_makes (data.property.trans (by norm_num))).map fun _ => rfl
  | error err => exact .pure rfl

theorem crossing_untouched (raw : FfiBuffer) : Respects Process.Untouched (crossing raw) :=
  fun _ => ⟨rfl, rfl, rfl⟩

theorem goBytes_untouched (ptr : Ptr) (n : ℤ) : Respects Process.Untouched (C.GoBytes ptr n) :=
  .of_state (goBytes_state ptr n)

theorem bytes_untouched (b : BufferRef) : Respects Process.Untouched (Buffer.bytes b) :=
  (deref_respects b).bind fun _ => .ite (.pure _) <|
    (crossing_untouched _).bind fun _ => (goBytes_untouched _ _).bind fun _ => .pure _

theorem copyBuffer_makes (raw : FfiBuffer) : Makes some (copyBuffer rt raw) := by
  unfold copyBuffer
  split_ifs with hz
  · exact .acquires acquires_null
  · refine (Makes.untouched (crossing_untouched raw)).bind fun _ =>
      (Makes.untouched (goBytes_untouched _ _)).bind fun {_ bytes _} hr => ?_
    obtain ⟨-, -, hlen⟩ := C.goBytes_ok (not_or.mp hz).1 hr
    have := C.int_lt raw.len
    exact fromBytes_makes (by omega)

/-- A success is copied and an error copies nothing. -/
theorem checkResult_makes {out : FfiResult} (ho : out.errorCode ≠ .ok ∨ out = .ok out.payload) :
    Makes Except.toOption (checkResult rt out) := by
  rcases ho with hc | ho
  · unfold checkResult
    rw [if_pos (FfiErrorCode.toInt_eq_zero.not.mpr hc)]
    refine (Makes.untouched (.of_state (goString_state _))).bind fun _ => ?_
    refine (within_makes ((deallocBytes_later _ _ _).bind fun _ => deallocBytes_later _ _ _)).bind
      fun _ => .pure rfl
  · have hcopy : checkResult rt (.ok out.payload) = do return .ok (← copyBuffer rt out.payload) :=
      funext fun p => run_checkResult_ok rfl
    rw [ho, hcopy]
    exact (copyBuffer_makes _).map fun _ => rfl

theorem rawInput_untouched (input : Option BufferRef) :
    Respects Process.Untouched (rawInput input) := by
  refine .of_state fun p => ?_
  cases hraw : p.rawInput input with
  | none => rw [run_rawInput_nil hraw, final_error]
  | some raw => rw [run_rawInput hraw, final_ok]

/-- Whatever the callback does, an invocation adds no buffer but its result. -/
theorem invokeCallback_makes (name : List UInt8) (input : Option BufferRef) :
    Makes Except.toOption (invokeCallback rt name input) := by
  refine (Makes.untouched (rawInput_untouched input)).bind fun {_ raw _} _ =>
    (Makes.untouched (crossing_untouched raw)).bind fun _ => ?_
  refine Makes.bind (.nothing (fun p => ?_) (fun p => ?_) fun p => ?_) fun {p out q} hr => ?_
  · rw [final_within]
    rfl
  · rw [final_within]
    rfl
  · rw [final_within]
    exact invoke_later
  · obtain ⟨l', hl, rfl⟩ := within_eq_ok.mp hr
    have hmade : ∀ {e l}, (within (FfiResult.err rt e)).run l = .ok out l' →
        Makes Except.toOption (checkResult rt out) := fun ho =>
      checkResult_makes (.inl ((err_of_within ho).2.2.1 ▸ FfiError.code_ne_ok _))
    cases invocationEnd_of_ok hl with
    | notEntered e hc ho => exact hmade ho
    | success hc hr hok => exact checkResult_makes (.inr rfl)
    | error hn hc hr hok ho => exact hmade ho
    | panicked hc hr ho => exact hmade ho

/-! ## Calls that come back -/

/-- `m` comes back at `q`: it returns, or a Go panic leaves it. -/
def Exits (m : Go α) (p q : Process) : Prop :=
  (∃ a, m.run p = .ok a q) ∨ ∃ text, m.run p = .error (.goPanic text) q

theorem Makes.exits {m : Go α} {result : α → Option BufferRef} (hm : Makes result m)
    (he : Exits m p q) : ∃ made, p.Adds q made := by
  rcases he with ⟨a, hr⟩ | ⟨text, hr⟩
  · exact ⟨_, hm.ok hr⟩
  · exact ⟨_, hm.error hr⟩

/-- Coming back from two programs is coming back from the first, or from both. -/
theorem Exits.bind {m : Go α} {f : α → Go β} (he : Exits (m >>= f) p q) :
    (∃ text, m.run p = .error (.goPanic text) q) ∨ ∃ a t, m.run p = .ok a t ∧ Exits (f a) t q := by
  rcases he with ⟨b, hr⟩ | ⟨text, hr⟩
  · obtain ⟨a, t, hm, hf⟩ := bind_eq_ok.mp hr
    exact .inr ⟨a, t, hm, .inl ⟨b, hf⟩⟩
  · rcases bind_eq_error.mp hr with hm | ⟨a, t, hm, hf⟩
    · exact .inl ⟨text, hm⟩
    · exact .inr ⟨a, t, hm, .inr ⟨text, hf⟩⟩

theorem exits_discard {m : Go α} : Exits (do let _ ← m; return () : Go Unit) p q ↔ Exits m p q := by
  constructor
  · intro he
    rcases he.bind with h | ⟨a, t, hm, ⟨_, hr⟩ | ⟨_, hr⟩⟩
    · exact .inr h
    · cases hr
      exact .inl ⟨a, hm⟩
    · cases hr
  · rintro (⟨a, hr⟩ | ⟨text, hr⟩)
    · exact .inl ⟨(), bind_of_ok hr _⟩
    · exact .inr ⟨text, bind_of_error hr _⟩

namespace GoCall

theorem step_iff_exits {call : GoCall} : Step rt p call q ↔ Exits (call.run rt) p q := by
  constructor
  · rintro (hr | hr)
    · exact .inl ⟨(), hr⟩
    · exact .inr ⟨_, hr⟩
  · rintro (⟨_, hr⟩ | ⟨text, hr⟩)
    · exact .returned hr
    · exact .recovered hr

/-- Every call but `Free` adds at most one buffer and changes none. -/
theorem Step.adds {call : GoCall} (hs : Step rt p call q) (hc : ∀ b, call ≠ .free b) :
    ∃ made, p.Adds q made := by
  have he := step_iff_exits.mp hs
  cases call with
  | newBuffer capacity =>
    exact (Makes.acquires (NewBuffer_acquires capacity)).exits (exits_discard.mp he)
  | fromBytes data =>
    exact (fromBytes_makes (data.property.trans (by norm_num))).exits (exits_discard.mp he)
  | fromJSON marshal => exact (fromJSON_makes marshal).exits (exits_discard.mp he)
  | len b => exact (Makes.untouched (len_respects b)).exits (exits_discard.mp he)
  | isEmpty b => exact (Makes.untouched (isEmpty_respects b)).exits (exits_discard.mp he)
  | bytes b => exact (Makes.untouched (bytes_untouched b)).exits (exits_discard.mp he)
  | toJSON b unmarshal =>
    exact (Makes.untouched (toJSON_respects (bytes_untouched b) unmarshal)).exits (exits_discard.mp he)
  | inspectBuffer b => exact (Makes.untouched (inspectBuffer_respects b)).exits (exits_discard.mp he)
  | invokeCallback name input =>
    exact (invokeCallback_makes name input).exits (exits_discard.mp he)
  | free b => exact absurd rfl (hc b)

end GoCall

theorem free_ne_goPanic {text : String} (hb : p.buffers[b]? = some buffer)
    (hf : buffer.freed = false) : (Buffer.free b).run p ≠ .error (.goPanic text) q := by
  intro hr
  rw [run_free_unfreed hb hf] at hr
  rcases bind_eq_error.mp hr with hr | ⟨_, _, -, hr⟩
  · obtain ⟨h, hr, -⟩ := within_eq_error.mp hr
    exact deallocBytes_ne_goPanic _ _ _ _ _ _ hr
  · cases hr

/-- `Free` comes back with nothing done, or with the buffer freed. -/
theorem free_exits (he : Exits (Buffer.free b) p q) :
    (q = p ∧ ∀ buffer, p.buffers[b]? = some buffer → buffer.freed = true) ∨
    ∃ buffer, p.buffers[b]? = some buffer ∧ buffer.freed = false ∧ q = p.giveBack b buffer.inner := by
  cases hb : p.buffers[b]? with
  | none =>
    have hnil : (Buffer.free b).run p = .error _ p := bind_of_error (run_deref_nil hb) _
    refine .inl ⟨?_, nofun⟩
    rcases he with ⟨_, hr⟩ | ⟨text, hr⟩ <;> cases hnil.symm.trans hr
    rfl
  | some buffer =>
    cases hf : buffer.freed with
    | true =>
      refine .inl ⟨?_, fun buffer' h => Option.some.inj h ▸ hf⟩
      rcases he with ⟨_, hr⟩ | ⟨text, hr⟩ <;> cases (run_free_freed hb hf).symm.trans hr
      rfl
    | false =>
      refine .inr ⟨buffer, rfl, hf, ?_⟩
      rcases run_free_cases hb hf with hr' | ⟨e, hr'⟩
      · rcases he with ⟨_, hr⟩ | ⟨text, hr⟩ <;> cases hr'.symm.trans hr
        rfl
      · rcases he with ⟨_, hr⟩ | ⟨text, hr⟩
        · cases hr'.symm.trans hr
        · exact absurd hr (free_ne_goPanic hb hf)

theorem giveBack_unarm (p : Process) (b : BufferRef) (raw : FfiBuffer) :
    (p.unarm b).giveBack b raw = p.giveBack b raw := by
  unfold Process.giveBack Process.unarm
  simp only [List.modify_modify_eq]
  rfl

/-! ## Runs with the calls of `ffi_buffer_free` counted -/

/-- A call, a copy that `CheckResult` makes, or a finalizer. -/
inductive BufferEvent where
  | call (call : GoCall)
  | copy (raw : FfiBuffer)
  | finalize (b : BufferRef)

/-- The buffer that is to be freed. -/
def BufferEvent.target : BufferEvent → Option BufferRef
  | call (.free b) | finalize b => some b
  | _ => none

/-- A call of `ffi_buffer_free`: the buffer that was to be freed, and what the call was given. -/
structure FreeCall where
  buffer : Option BufferRef
  raw : FfiBuffer

/-- The process, and all its calls of `ffi_buffer_free`, newest first. -/
structure Counted where
  process : Process
  frees : List FreeCall

/-- The calls of `ffi_buffer_free` that the process has recorded on the way from `p` to `q`. -/
def Process.freesSince (p q : Process) : List FfiBuffer :=
  q.frees.take (q.frees.length - p.frees.length)

/-- The calls that a step from `p` to `q` has made. -/
def BufferEvent.frees (e : BufferEvent) (p q : Process) : List FreeCall :=
  (p.freesSince q).map fun raw => ⟨e.target, raw⟩

theorem BufferEvent.frees_of_eq (e : BufferEvent) (h : q.frees = p.frees) : e.frees p q = [] := by
  simp [frees, Process.freesSince, h]

theorem BufferEvent.frees_giveBack (e : BufferEvent) :
    e.frees p (p.giveBack b raw) = [⟨e.target, raw⟩] := by
  have hq : (p.giveBack b raw).frees = raw :: p.frees := rfl
  simp [frees, Process.freesSince, hq]

namespace Counted

/-- What `ffi_buffer_free` was given in the calls for `b`. -/
def calls (s : Counted) (b : BufferRef) : List FfiBuffer :=
  (s.frees.filter fun c => c.buffer = some b).map FreeCall.raw

/-- A step of the program, or a finalizer that a buffer still has. -/
inductive Step (rt : Runtime) : Counted → BufferEvent → Counted → Prop
  | call {p q : Process} {frees : List FreeCall} {call : GoCall} (hs : call.Step rt p q) :
      Step rt ⟨p, frees⟩ (.call call) ⟨q, (BufferEvent.call call).frees p q ++ frees⟩
  | copy {p q : Process} {frees : List FreeCall} {raw : FfiBuffer}
      (hs : Exits (copyBuffer rt raw) p q) :
      Step rt ⟨p, frees⟩ (.copy raw) ⟨q, (BufferEvent.copy raw).frees p q ++ frees⟩
  | finalize {p q : Process} {frees : List FreeCall} {b : BufferRef} {buffer : Buffer}
      (hb : p.buffers[b]? = some buffer) (hf : buffer.finalizer = true)
      (hr : (Buffer.finalize b).run p = .ok () q) :
      Step rt ⟨p, frees⟩ (.finalize b) ⟨q, (BufferEvent.finalize b).frees p q ++ frees⟩

/-- The calls are those the process has recorded: one for each buffer that is marked as freed, on
its own struct, and none for another. What is freed is not live and has no finalizer any more, and
no two buffers have an allocation in common. -/
structure Tallied (s : Counted) : Prop where
  recorded : s.frees.map FreeCall.raw = s.process.frees
  target : ∀ c ∈ s.frees, ∃ b : BufferRef, c.buffer = some b ∧ b < s.process.buffers.length
  calls : ∀ (b : BufferRef) (buffer : Buffer), s.process.buffers[b]? = some buffer →
    s.calls b = if buffer.freed then [buffer.inner] else []
  gone : ∀ (b : BufferRef) (buffer : Buffer), s.process.buffers[b]? = some buffer →
    buffer.freed = true → ∀ id ∈ buffer.inner.owns, id ∉ s.process.heap.live
  disarmed : ∀ (b : BufferRef) (buffer : Buffer), s.process.buffers[b]? = some buffer →
    buffer.freed = true → buffer.finalizer = false
  apart : (s.process.buffers.flatMap fun x => x.inner.owns).Nodup
  issued : ∀ id ∈ s.process.buffers.flatMap fun x => x.inner.owns, id < s.process.heap.next

variable {s s' : Counted} {e : BufferEvent}

theorem tallied_start (l : Library) : Tallied ⟨.start l, []⟩ where
  recorded := rfl
  target c hc := absurd hc List.not_mem_nil
  calls b buffer hb := by simp [Process.start] at hb
  gone b buffer hb := by simp [Process.start] at hb
  disarmed b buffer hb := by simp [Process.start] at hb
  apart := List.nodup_nil
  issued id hid := by simp [Process.start] at hid

/-- A step adds to the buffers, or finds the buffer it is to free freed before, or frees it. -/
theorem Step.cases (hs : Step rt s e s') (ht : s.Tallied) :
    (e.target = none ∧ s'.frees = s.frees ∧ ∃ made, s.process.Adds s'.process made) ∨
    (∃ b, e.target = some b ∧ s' = s ∧ ∀ buffer, s.process.buffers[b]? = some buffer →
      buffer.freed = true) ∨
    ∃ b buffer, e.target = some b ∧ s.process.buffers[b]? = some buffer ∧ buffer.freed = false ∧
      s' = ⟨s.process.giveBack b buffer.inner, ⟨some b, buffer.inner⟩ :: s.frees⟩ := by
  cases hs with
  | @call p q frees call hcall =>
    by_cases hfree : ∃ b, call = .free b
    · obtain ⟨b, rfl⟩ := hfree
      have he : Exits (Buffer.free b) p q := GoCall.step_iff_exits.mp hcall
      rcases free_exits he with ⟨rfl, hall⟩ | ⟨buffer, hb, hf, rfl⟩
      · refine .inr (.inl ⟨b, rfl, ?_, hall⟩)
        rw [BufferEvent.frees_of_eq _ rfl]
        rfl
      · refine .inr (.inr ⟨b, buffer, rfl, hb, hf, ?_⟩)
        rw [BufferEvent.frees_giveBack]
        rfl
    · have hnone : BufferEvent.target (.call call) = none := by
        cases call with
        | free b => exact absurd ⟨b, rfl⟩ hfree
        | _ => rfl
      obtain ⟨made, hadds⟩ := hcall.adds fun b h => hfree ⟨b, h⟩
      refine .inl ⟨hnone, ?_, made, hadds⟩
      rw [BufferEvent.frees_of_eq _ hadds.frees]
      rfl
  | @copy p q frees raw he =>
    obtain ⟨made, hadds⟩ := (copyBuffer_makes raw).exits he
    refine .inl ⟨rfl, ?_, made, hadds⟩
    rw [BufferEvent.frees_of_eq _ hadds.frees]
    rfl
  | @finalize p q frees b buffer hb harmed hr =>
    have hf : buffer.freed = false := by
      cases hf : buffer.freed with
      | false => rfl
      | true => cases (ht.disarmed b buffer hb hf).symm.trans harmed
    have hb' : (p.unarm b).buffers[b]? = some { buffer with finalizer := false } := by
      simp [Process.unarm, hb]
    rcases free_exits (p := p.unarm b) (.inl ⟨(), hr⟩) with ⟨-, hall⟩ | ⟨buffer', hb'', -, rfl⟩
    · cases (hall _ hb').symm.trans hf
    · cases hb'.symm.trans hb''
      refine .inr (.inr ⟨b, buffer, rfl, hb, hf, ?_⟩)
      rw [giveBack_unarm, BufferEvent.frees_giveBack]
      rfl

/-- A step that frees nothing leaves the calls as they are. -/
theorem calls_of_eq (h : s'.frees = s.frees) (b : BufferRef) : s'.calls b = s.calls b := by
  rw [calls, h, calls]

theorem calls_cons_self (p : Process) (b : BufferRef) (raw : FfiBuffer) (frees : List FreeCall) :
    calls ⟨p, ⟨some b, raw⟩ :: frees⟩ b = raw :: calls ⟨p, frees⟩ b := by
  simp [calls]

theorem calls_cons_of_ne {b' : BufferRef} (h : b' ≠ b) (p q : Process) (frees : List FreeCall) :
    calls ⟨p, ⟨some b, raw⟩ :: frees⟩ b' = calls ⟨q, frees⟩ b' := by
  simp [calls, h.symm]

theorem Tallied.grow (ht : s.Tallied) (hfrees : s'.frees = s.frees)
    (hg : Process.GrowsBy new s.process s'.process) : s'.Tallied where
  recorded := by rw [hfrees, ht.recorded, hg.frees]
  target c hc := by
    obtain ⟨b, hb, hlt⟩ := ht.target c (hfrees ▸ hc)
    refine ⟨b, hb, hlt.trans_le ?_⟩
    rw [hg.buffers, List.length_append]
    exact Nat.le_add_right _ _
  calls b buffer hb := by
    rw [calls_of_eq hfrees]
    by_cases hlt : b < s.process.buffers.length
    · rw [hg.buffers, List.getElem?_append_left hlt] at hb
      exact ht.calls b buffer hb
    · rw [hg.buffers, List.getElem?_append_right (not_lt.mp hlt)] at hb
      rw [hg.unfreed buffer (List.mem_of_getElem? hb), if_neg Bool.false_ne_true, Counted.calls,
        List.map_eq_nil_iff, List.filter_eq_nil_iff]
      intro c hc hcb
      obtain ⟨b', hb', hlt'⟩ := ht.target c hc
      cases hb'.symm.trans (of_decide_eq_true hcb)
      exact hlt hlt'
  gone b buffer hb hf id hid hl := by
    have hb₀ := hg.old_of_freed hb hf
    have hlt := ht.issued id (List.mem_flatMap.mpr ⟨buffer, List.mem_of_getElem? hb₀, hid⟩)
    have hreleased := ((s.process.heap.named id).mp hlt).resolve_left (ht.gone b buffer hb₀ hf id hid)
    exact Arena.notMem_live_of_released (Arena.Later.mem_released hg.later hreleased) hl
  disarmed b buffer hb hf := ht.disarmed b buffer (hg.old_of_freed hb hf) hf
  apart := by
    rw [hg.buffers, List.flatMap_append]
    refine List.nodup_append.mpr ⟨ht.apart, hg.nodup, ?_⟩
    rintro id hid _ hid' rfl
    exact absurd (ht.issued id hid) (not_lt.mpr (hg.fresh id hid').1)
  issued id hid := by
    rw [hg.buffers, List.flatMap_append, List.mem_append] at hid
    rcases hid with hid | hid
    · exact (ht.issued id hid).trans_le hg.later.next
    · exact (hg.fresh id hid).2

theorem Tallied.giveBack (ht : s.Tallied) (hb : s.process.buffers[b]? = some buffer)
    (hf : buffer.freed = false) :
    Tallied ⟨s.process.giveBack b buffer.inner, ⟨some b, buffer.inner⟩ :: s.frees⟩ where
  recorded := congrArg (buffer.inner :: ·) ht.recorded
  target c hc := by
    have hlen : (s.process.giveBack b buffer.inner).buffers.length = s.process.buffers.length :=
      List.length_modify ..
    rcases List.mem_cons.mp hc with rfl | hc
    · exact ⟨b, rfl, hlen ▸ (List.getElem?_eq_some_iff.mp hb).1⟩
    · exact hlen ▸ ht.target c hc
  calls b' buffer' hb' := by
    by_cases h : b' = b
    · subst h
      cases (Process.buffers_giveBack_self hb).symm.trans hb'
      rw [calls_cons_self]
      exact congrArg (buffer.inner :: ·) ((ht.calls b' buffer hb).trans (by rw [hf]; rfl))
    · rw [calls_cons_of_ne h _ s.process]
      exact ht.calls b' buffer' ((Process.buffers_giveBack_of_ne _ h).symm.trans hb')
  gone b' buffer' hb' hf' id hid := by
    by_cases h : b' = b
    · subst h
      cases (Process.buffers_giveBack_self hb).symm.trans hb'
      exact Process.notMem_live_giveBack (.inl hid)
    · have hb₀ := (Process.buffers_giveBack_of_ne _ h).symm.trans hb'
      exact Process.notMem_live_giveBack (.inr (ht.gone b' buffer' hb₀ hf' id hid))
  disarmed b' buffer' hb' hf' := by
    by_cases h : b' = b
    · subst h
      cases (Process.buffers_giveBack_self hb).symm.trans hb'
      rfl
    · exact ht.disarmed b' buffer' ((Process.buffers_giveBack_of_ne _ h).symm.trans hb') hf'
  apart := by
    rw [Process.owned_giveBack]
    exact ht.apart
  issued id hid := by
    rw [Process.owned_giveBack] at hid
    exact (ht.issued id hid).trans_eq (Process.next_giveBack ..).symm

theorem Tallied.step (ht : s.Tallied) (hs : Step rt s e s') : s'.Tallied := by
  rcases hs.cases ht with ⟨-, hfrees, made, hadds⟩ | ⟨b, -, rfl, -⟩ | ⟨b, buffer, -, hb, hf, rfl⟩
  · obtain ⟨new, hg⟩ := hadds.grows
    exact ht.grow hfrees hg
  · exact ht
  · exact ht.giveBack hb hf

theorem Tallied.run {es : List BufferEvent} (ht : s.Tallied) (hrun : Execution (Step rt) s es s') :
    s'.Tallied := hrun.invariant (fun _ _ _ ht hs => ht.step hs) ht

/-- What `b` and another buffer own is apart. -/
theorem Tallied.disjoint {b' : BufferRef} {buffer' : Buffer} (ht : s.Tallied)
    (hb : s.process.buffers[b]? = some buffer) (hb' : s.process.buffers[b']? = some buffer')
    (hne : b' ≠ b) {id : ℕ} (hid : id ∈ buffer.inner.owns) : id ∉ buffer'.inner.owns := by
  obtain ⟨hlt, rfl⟩ := List.getElem?_eq_some_iff.mp hb
  obtain ⟨hlt', rfl⟩ := List.getElem?_eq_some_iff.mp hb'
  have hpair := List.pairwise_iff_getElem.mp (List.nodup_flatMap.mp ht.apart).2
  intro hid'
  rcases lt_or_gt_of_ne hne with h | h
  · exact hpair b' b hlt' hlt h hid' hid
  · exact hpair b b' hlt hlt' h hid hid'

/-- A step leaves the buffers alone that it is not to free, with their allocations if it is to
free another. -/
theorem Step.spares (hs : Step rt s e s') (ht : s.Tallied) (hb : s.process.buffers[b]? = some buffer)
    (he : e.target ≠ some b) : s'.process.buffers[b]? = some buffer ∧ (e.target ≠ none →
      ∀ id ∈ buffer.inner.owns, s'.process.heap.live.lookup id = s.process.heap.live.lookup id) := by
  rcases hs.cases ht with ⟨hnone, -, made, hadds⟩ | ⟨b', -, rfl, -⟩ | ⟨b', buffer', hb', hget, -, rfl⟩
  · obtain ⟨new, hg⟩ := hadds.grows
    exact ⟨hg.kept hb, fun hsome => absurd hnone hsome⟩
  · exact ⟨hb, fun _ _ _ => rfl⟩
  · have hne : b' ≠ b := by
      rintro rfl
      exact he hb'
    exact ⟨(Process.buffers_giveBack_of_ne _ hne.symm).trans hb, fun _ id hid =>
      Arena.lookup_releaseAll (ht.disjoint hb hget hne hid)⟩

/-- The buffer `b` is freed, and its struct is `raw`. -/
def Freed (b : BufferRef) (raw : FfiBuffer) (s : Counted) : Prop :=
  ∃ buffer : Buffer, s.process.buffers[b]? = some buffer ∧ buffer.inner = raw ∧ buffer.freed = true

/-- What was freed stays freed. -/
theorem Freed.step (h : Freed b raw s) (hs : Step rt s e s') (ht : s.Tallied) : Freed b raw s' := by
  obtain ⟨buffer, hb, hraw, hf⟩ := h
  by_cases he : e.target = some b
  · rcases hs.cases ht with ⟨hnone, -⟩ | ⟨b', -, rfl, -⟩ | ⟨b', buffer', hb', hget, hf', -⟩
    · cases hnone.symm.trans he
    · exact ⟨buffer, hb, hraw, hf⟩
    · cases hb'.symm.trans he
      cases hget.symm.trans hb
      cases hf'.symm.trans hf
  · exact ⟨buffer, (hs.spares ht hb he).1, hraw, hf⟩

theorem Freed.run {es : List BufferEvent} (h : Freed b raw s) (ht : s.Tallied)
    (hrun : Execution (Step rt) s es s') : Freed b raw s' := by
  induction hrun with
  | refl => exact h
  | step hrun hs ih => exact ih.step hs (ht.run hrun)

/-- What a step was to free is freed by it. -/
theorem Step.freed (hs : Step rt s e s') (ht : s.Tallied) (he : e.target = some b)
    (hb : s.process.buffers[b]? = some buffer) : Freed b buffer.inner s' := by
  rcases hs.cases ht with ⟨hnone, -⟩ | ⟨b', hb', rfl, hall⟩ | ⟨b', buffer', hb', hget, -, rfl⟩
  · cases he.symm.trans hnone
  · cases he.symm.trans hb'
    exact ⟨buffer, hb, rfl, hall _ hb⟩
  · cases he.symm.trans hb'
    cases hget.symm.trans hb
    exact ⟨_, Process.buffers_giveBack_self hb, rfl, rfl⟩

/-- A freed buffer was given to `ffi_buffer_free` once, is taken for an empty one, and its
allocation is not live. -/
theorem Freed.settled (h : Freed b raw s) (ht : s.Tallied) : s.calls b = [raw] ∧
    TakenForEmpty b s.process ∧ ∀ id ∈ raw.owns, id ∉ s.process.heap.live := by
  obtain ⟨buffer, hb, rfl, hf⟩ := h
  refine ⟨?_, takenForEmpty hb hf, ht.gone b buffer hb hf⟩
  rw [ht.calls b buffer hb, hf]
  rfl

end Counted

/-! ## `InvokeCallbackJSON` -/

/-- A program with a deferred call comes back when both have. -/
theorem Exits.deferring {cleanup : Go Unit} {m : Go α} (he : Exits (deferring cleanup m) p q) :
    ∃ t, Exits m p t ∧ Exits cleanup t q := by
  have hclean : ∀ {f : Unit → Go α} {t}, (∀ u, final ((f ()).run u) = u) →
      Exits (cleanup >>= f) t q → Exits cleanup t q := by
    intro f t hf he
    rcases he.bind with h | ⟨_, u, hc, ⟨a, hr⟩ | ⟨text, hr⟩⟩
    · exact .inr h
    · obtain rfl := eq_of_final_ok (hf u) hr
      exact .inl ⟨(), hc⟩
    · obtain rfl := eq_of_final_error (hf u) hr
      exact .inl ⟨(), hc⟩
  unfold Exits at he
  rw [run_deferring] at he
  cases hm : m.run p with
  | ok a t =>
    rw [hm] at he
    exact ⟨t, .inl ⟨a, hm⟩, hclean (fun _ => rfl) he⟩
  | error e t =>
    rw [hm] at he
    cases e with
    | goPanic text => exact ⟨t, .inr ⟨text, hm⟩, hclean (fun _ => rfl) he⟩
    | _ => rcases he with ⟨a, h⟩ | ⟨text, h⟩ <;> cases h

/-- From `p` to `q` leads a run that has added some buffers, left the others as they were, and
called `ffi_buffer_free` once for each that it has added. -/
structure FreesItsOwn (rt : Runtime) (p q : Process) : Prop where
  frees : ∃ new calls, q.buffers = p.buffers ++ new ∧ q.frees = calls ++ p.frees ∧
    calls.Perm (new.map Buffer.inner) ∧
    ∀ x ∈ new, x.freed = true ∧ ∀ id ∈ x.inner.owns, id ∉ q.heap.live
  run : ∀ frees, ∃ es frees', Execution (Counted.Step rt) ⟨p, frees⟩ es ⟨q, frees'⟩

/-- A call that has added nothing. -/
theorem freesItsOwn_of_call {call : GoCall} (hs : call.Step rt p q) (ha : p.Adds q none) :
    FreesItsOwn rt p q where
  frees := by
    cases ha with
    | nothing hg => exact ⟨[], [], hg.buffers, hg.frees, .refl _, fun x hx => absurd hx List.not_mem_nil⟩
  run frees := ⟨_, _, .single (.call hs)⟩

/-- Marking one buffer among others. -/
theorem modify_append_cons {l l' : List Buffer} {x : Buffer} (f : Buffer → Buffer) :
    (l ++ x :: l').modify l.length f = l ++ f x :: l' := by
  simp [List.modify_eq_set_getElem?]

/-- A call that makes a buffer, what frees its own, and the deferred `Free` of the buffer. -/
theorem FreesItsOwn.around {call : GoCall} {t : Process} (hbody : FreesItsOwn rt q t)
    (hs : call.Step rt p q) (ha : p.Adds q (some b)) (hfree : Exits (Buffer.free b) t r) :
    FreesItsOwn rt p r := by
  cases ha with
  | @one x hg =>
    obtain ⟨new, calls, hbuffers, hfrees, hperm, hnew⟩ := hbody.frees
    have ht : t.buffers = p.buffers ++ x :: new := by rw [hbuffers, hg.buffers, List.append_assoc]; rfl
    have hx : t.buffers[p.buffers.length]? = some x := by simp [ht]
    have hunfreed : x.freed = false := hg.unfreed x (List.mem_singleton_self x)
    rcases free_exits hfree with ⟨-, hall⟩ | ⟨buffer, hb, -, rfl⟩
    · cases (hall x hx).symm.trans hunfreed
    cases hx.symm.trans hb
    refine ⟨⟨{ x with freed := true, finalizer := false } :: new, x.inner :: calls, ?_, ?_,
      hperm.cons _, ?_⟩, fun frees => ?_⟩
    · exact (congrArg (fun l => List.modify l p.buffers.length _) ht).trans (modify_append_cons _)
    · have hr : (t.giveBack p.buffers.length x.inner).frees = x.inner :: t.frees := rfl
      rw [hr, hfrees, hg.frees]
      rfl
    · rintro y hy
      rcases List.mem_cons.mp hy with rfl | hy
      · exact ⟨rfl, fun id hid => Process.notMem_live_giveBack (.inl hid)⟩
      · exact ⟨(hnew y hy).1, fun id hid => Process.notMem_live_giveBack (.inr ((hnew y hy).2 id hid))⟩
    · have hfirst := @Counted.Step.call rt _ _ frees _ hs
      obtain ⟨es, frees', hrun⟩ := hbody.run _
      have hlast := @Counted.Step.call rt _ _ frees' (.free p.buffers.length)
        (GoCall.step_iff_exits.mpr hfree)
      exact ⟨_, _, ((Execution.single hfirst).trans hrun).step hlast⟩

theorem Makes.exits_none {m : Go α} (hm : Makes (fun _ => none) m) (he : Exits m p q) :
    p.Adds q none := by
  rcases he with ⟨a, hr⟩ | ⟨text, hr⟩
  · exact hm.ok hr
  · exact hm.error hr

/-- A program that only returns what it has adds nothing to its first part. -/
theorem Exits.of_pure {m : Go α} {f : α → Go β} (he : Exits (m >>= f) p q)
    (hf : ∀ a t, ∃ b, (f a).run t = .ok b t) : Exits m p q := by
  rcases he.bind with h | ⟨a, t, hm, ht⟩
  · exact .inr h
  · obtain ⟨b, hb⟩ := hf a t
    rcases ht with ⟨_, hr⟩ | ⟨_, hr⟩
    · cases hb.symm.trans hr
      exact .inl ⟨a, hm⟩
    · cases hb.symm.trans hr

section
variable {T : Type} {name : List UInt8} {quotedName : String} {marshal : Except String Slice}
  {unmarshal : List UInt8 → Except String T}

/-- However `InvokeCallbackJSON` comes back, it has freed each buffer it has made, once. -/
theorem invokeCallbackJSON_freesItsOwn (he : Exits (invokeCallbackJSON rt name quotedName
    (marshal.map Subtype.val) unmarshal) p q) : FreesItsOwn rt p q := by
  have hstep : ∀ {call : GoCall} {α : Type} {m : Go α} {p q},
      call.run rt = (do let _ ← m; return ()) → Exits m p q → call.Step rt p q := by
    intro call α m p q hrun hm
    rw [GoCall.step_iff_exits, hrun]
    exact exits_discard.mpr hm
  rcases he.bind with ⟨text, hr⟩ | ⟨made, t, hr, he⟩
  · exact @freesItsOwn_of_call rt _ _ (.fromJSON marshal) (hstep rfl (.inr ⟨text, hr⟩))
      ((fromJSON_makes marshal).error hr)
  have hjson : GoCall.Step rt p (.fromJSON marshal) t := hstep rfl (.inl ⟨made, hr⟩)
  have hadds := (fromJSON_makes marshal).ok hr
  cases made with
  | error err =>
    rcases he with ⟨_, h⟩ | ⟨_, h⟩ <;> cases h
    exact freesItsOwn_of_call hjson hadds
  | ok buf =>
    obtain ⟨t', hbody, hfree⟩ := Exits.deferring he
    refine FreesItsOwn.around ?_ hjson hadds hfree
    rcases hbody.bind with ⟨text, hr⟩ | ⟨answer, u, hr, he⟩
    · exact @freesItsOwn_of_call rt _ _ (.invokeCallback name (some buf)) (hstep rfl (.inr ⟨text, hr⟩))
        ((invokeCallback_makes _ _).error hr)
    have hinvoke : GoCall.Step rt t (.invokeCallback name (some buf)) u := hstep rfl (.inl ⟨answer, hr⟩)
    have hadds' := (invokeCallback_makes name (some buf)).ok hr
    cases answer with
    | error err =>
      rcases he with ⟨_, h⟩ | ⟨_, h⟩ <;> cases h
      exact freesItsOwn_of_call hinvoke hadds'
    | ok result =>
      obtain ⟨u', hbytes, hfree'⟩ := Exits.deferring he
      refine FreesItsOwn.around ?_ hinvoke hadds' hfree'
      have hread : Exits (Buffer.bytes result) u u' := hbytes.of_pure fun data v => by
        cases data with
        | none => exact ⟨_, rfl⟩
        | some data =>
          simp only
          cases unmarshal data <;> exact ⟨_, rfl⟩
      exact @freesItsOwn_of_call rt _ _ (.bytes result) (hstep rfl hread)
        ((Makes.untouched (bytes_untouched result)).exits_none hread)

end

/-- Over every run of calls, copies and finalizers, whatever the callbacks do: every call of
`ffi_buffer_free` that the process has recorded was made to free a buffer, and for a buffer there
is one, on its own struct, if it is marked as freed, and none before. What a step was to free is
freed from then on, with one call, taken for an empty buffer and not live; the other buffers and
their allocations it leaves alone. However `InvokeCallbackJSON` comes back, it has called
`ffi_buffer_free` once for each buffer it has made, and for no other; and it is such a run. -/
theorem freed_once (rt : Runtime) :
    (∀ l es s, Execution (Counted.Step rt) ⟨.start l, []⟩ es s →
      s.frees.map FreeCall.raw = s.process.frees ∧
      (∀ c ∈ s.frees, ∃ b : BufferRef, c.buffer = some b ∧ b < s.process.buffers.length) ∧
      (∀ (b : BufferRef) (buffer : Buffer), s.process.buffers[b]? = some buffer →
        s.calls b = if buffer.freed then [buffer.inner] else []) ∧
      ∀ e s', Counted.Step rt s e s' →
        ∀ (b : BufferRef) (buffer : Buffer), s.process.buffers[b]? = some buffer →
          (e.target = some b → ∀ fs s'', Execution (Counted.Step rt) s' fs s'' →
            s''.calls b = [buffer.inner] ∧ TakenForEmpty b s''.process ∧
              ∀ id ∈ buffer.inner.owns, id ∉ s''.process.heap.live) ∧
          (e.target ≠ some b → s'.process.buffers[b]? = some buffer ∧ (e.target ≠ none →
            ∀ id ∈ buffer.inner.owns,
              s'.process.heap.live.lookup id = s.process.heap.live.lookup id))) ∧
    ∀ (T : Type) name quotedName (marshal : Except String Slice)
      (unmarshal : List UInt8 → Except String T) p q,
      Exits (invokeCallbackJSON rt name quotedName (marshal.map Subtype.val) unmarshal) p q →
      (∃ new calls, q.buffers = p.buffers ++ new ∧ q.frees = calls ++ p.frees ∧
        calls.Perm (new.map Buffer.inner) ∧
        ∀ x ∈ new, x.freed = true ∧ ∀ id ∈ x.inner.owns, id ∉ q.heap.live) ∧
      ∀ frees, ∃ es frees', Execution (Counted.Step rt) ⟨p, frees⟩ es ⟨q, frees'⟩ := by
  refine ⟨fun l es s hrun => ?_, fun T name quotedName marshal unmarshal p q he => ?_⟩
  · have ht : s.Tallied := (Counted.tallied_start l).run hrun
    refine ⟨ht.recorded, ht.target, ht.calls, fun e s' hs b buffer hb =>
      ⟨fun he fs s'' hrun' => ?_, hs.spares ht hb⟩⟩
    exact ((hs.freed ht he hb).run (ht.step hs) hrun').settled ((ht.step hs).run hrun')
  · have hown := invokeCallbackJSON_freesItsOwn he
    exact ⟨hown.frees, hown.run⟩

/-- A buffer that is freed twice is given to `ffi_buffer_free` once; and so is each of the two
buffers that `InvokeCallbackJSON` makes for a request and a response. -/
theorem freed_once_twice :
    (∃ s : Counted, Execution (Counted.Step (.granting .unwind)) ⟨.start .empty, []⟩
        [.call (.free 0), .call (.free 0), .call (.fromBytes ⟨[1], by decide⟩)] s ∧
      s.calls 0 = [⟨.block 0, 1, 1⟩] ∧ TakenForEmpty 0 s.process ∧ 0 ∉ s.process.heap.live) ∧
    ∃ q, Exits (invokeCallbackJSON (.granting .unwind) [99] "\"c\"" (.ok [1])
        (Except.ok : List UInt8 → Except String (List UInt8)))
        (.start (.having "c" (.copying (.granting .unwind)) .empty)) q ∧
      q.frees.Perm [⟨.block 0, 1, 1⟩, ⟨.block 2, 1, 1⟩] ∧ ∀ x ∈ q.buffers, x.freed = true := by
  constructor
  · have h₁ : Execution (Counted.Step (.granting .unwind)) ⟨.start .empty, []⟩
        [.call (.fromBytes ⟨[1], by decide⟩)]
        ⟨final (((GoCall.fromBytes ⟨[1], by decide⟩).run (.granting .unwind)).run (.start .empty)), []⟩ :=
      .single (.call (.returned rfl))
    have hfree : Counted.Step (.granting .unwind)
        ⟨final (((GoCall.fromBytes ⟨[1], by decide⟩).run (.granting .unwind)).run (.start .empty)), []⟩
        (.call (.free 0)) ⟨.afterFree (.granting .unwind), [⟨some 0, ⟨.block 0, 1, 1⟩⟩]⟩ :=
      .call (.returned rfl)
    have hagain : Counted.Step (.granting .unwind)
        ⟨.afterFree (.granting .unwind), [⟨some 0, ⟨.block 0, 1, 1⟩⟩]⟩ (.call (.free 0))
        ⟨.afterFree (.granting .unwind), [⟨some 0, ⟨.block 0, 1, 1⟩⟩]⟩ := .call (.returned rfl)
    obtain ⟨hcalls, htaken, hgone⟩ := (((freed_once _).1 _ _ _ h₁).2.2.2 _ _ hfree 0
      ⟨⟨.block 0, 1, 1⟩, false, true⟩ rfl).1 rfl _ _ (.single hagain)
    exact ⟨_, (h₁.step hfree).step hagain, hcalls, htaken, hgone 0 (by decide)⟩
  · obtain ⟨q, he, hbuffers⟩ : ∃ q, Exits (invokeCallbackJSON (.granting .unwind) [99] "\"c\"" (.ok [1])
        (Except.ok : List UInt8 → Except String (List UInt8)))
        (.start (.having "c" (.copying (.granting .unwind)) .empty)) q ∧
        q.buffers = [⟨⟨.block 0, 1, 1⟩, true, false⟩, ⟨⟨.block 2, 1, 1⟩, true, false⟩] :=
      ⟨_, .inl ⟨_, rfl⟩, rfl⟩
    obtain ⟨⟨new, calls, hnew, hcalls, hperm, hall⟩, -⟩ := (freed_once (.granting .unwind)).2 _ _ _
      (.ok ⟨[1], by decide⟩) _ _ _ he
    obtain rfl : _ = new := hbuffers.symm.trans hnew
    refine ⟨q, he, ?_, fun x hx => (hall x (hbuffers ▸ hx)).1⟩
    rw [hcalls]
    exact (List.append_nil calls).symm ▸ hperm

end FfiBridge
