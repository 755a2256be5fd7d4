import FfiBridge.Go.Runtime

/-! # Buffers on the Go side (`bridge.go` and `types.go`) -/
namespace FfiBridge
open Foundation

variable (rt : Runtime)

/-- What Go code returns in its `error` result. -/
inductive GoError where
  | ffiError (code : ℤ) (message : List UInt8)
  | text (s : String)
  | wrapped (context : String) (err : GoError)
  deriving DecidableEq, Repr

/-- `newBuffer`. -/
def newBuffer (raw : FfiBuffer) : Go BufferRef :=
  modifyGet fun p => (p.buffers.length, { p with buffers := p.buffers ++ [⟨raw, false, true⟩] })

/-- `NewBuffer`. -/
def NewBuffer (capacity : ℤ) : Go BufferRef := do
  newBuffer (← within (ffiBufferAlloc rt (C.size_t capacity)))

/-- `FromBytes`. -/
def fromBytes (data : List UInt8) : Go BufferRef := do
  let buf ← NewBuffer rt data.length
  if 0 < data.length then do
    let inner := (← deref buf).inner
    crossing inner
    C.memcpy inner.data data (C.size_t data.length)
    assign buf fun b => { b with inner := { b.inner with len := C.size_t data.length } }
  return buf

/-- `FromJSON`, for a value whose `json.Marshal` is given. -/
def fromJSON (marshal : Except String (List UInt8)) : Go (Except GoError BufferRef) := do
  match marshal with
  | .ok data => return .ok (← fromBytes rt data)
  | .error err => return .error (.wrapped "ffi: json marshal" (.text err))

/-- `(*Buffer).Bytes`, with `none` for nil. -/
def Buffer.bytes (b : BufferRef) : Go (Option (List UInt8)) := do
  let buffer ← deref b
  if buffer.freed ∨ buffer.inner.data = .null ∨ buffer.inner.len = 0 then return none
  else do
    crossing buffer.inner
    return some (← C.GoBytes buffer.inner.data (C.int buffer.inner.len))

/-- `(*Buffer).ToJSON`, with `json.Unmarshal` as `unmarshal`. -/
def Buffer.toJSON {T : Type} (b : BufferRef) (unmarshal : List UInt8 → Except String T) :
    Go (Except GoError T) := do
  match ← Buffer.bytes b with
  | none => return .error (.text "ffi: buffer is empty or freed")
  | some data =>
    match unmarshal data with
    | .ok v => return .ok v
    | .error err => return .error (.text err)

/-- `(*Buffer).Len`. -/
def Buffer.len (b : BufferRef) : Go ℤ := do
  let buffer ← deref b
  if buffer.freed then return 0 else return goInt buffer.inner.len

/-- `(*Buffer).IsEmpty`. -/
def Buffer.isEmpty (b : BufferRef) : Go Bool := do return (← Buffer.len b) = 0

/-- `(*Buffer).Free`. -/
def Buffer.free (b : BufferRef) : Go Unit := do
  let buffer ← deref b
  if !buffer.freed then do
    C.ffiBufferFree buffer.inner
    assign b fun b => { b with freed := true, finalizer := false }

/-- `(*Buffer).raw`. -/
def Buffer.raw (b : BufferRef) : Go FfiBuffer := do return (← deref b).inner

/-- `BufferRaw`. -/
structure BufferRaw where
  len : ℕ
  capacity : ℕ
  deriving DecidableEq, Repr

/-- `InspectBuffer`. -/
def inspectBuffer (b : Option BufferRef) : Go BufferRaw := do
  match b with
  | none => return ⟨0, 0⟩
  | some b =>
    let buffer ← deref b
    if buffer.freed then return ⟨0, 0⟩ else return ⟨buffer.inner.len, buffer.inner.capacity⟩

/-! ## Runs -/

variable {rt} {p : Process} {b : BufferRef} {buffer : Buffer} {data : List UInt8}

theorem run_deref (hb : p.buffers[b]? = some buffer) : (deref b).run p = .ok buffer p := by
  unfold deref
  rw [EStateM.run_bind, EStateM.run_get]
  simp only [hb]
  rfl

theorem run_deref_nil (hb : p.buffers[b]? = none) :
    (deref b).run p = .error (.goPanic "invalid memory address or nil pointer dereference") p := by
  unfold deref
  rw [EStateM.run_bind, EStateM.run_get]
  simp only [hb]
  rfl

/-- The process with one more `*Buffer`. -/
def Process.withBuffer (p : Process) (raw : FfiBuffer) : Process :=
  { p with buffers := p.buffers ++ [⟨raw, false, true⟩] }

/-- The process when the request for the bytes of a new buffer is served. -/
def Process.withBytes (p : Process) (data : List UInt8) (hs : data.length ≤ isizeMax) : Process :=
  { (p.withHeap (p.heap.store ⟨⟨data.length, hs⟩, data, le_rfl⟩)).withBuffer
      ⟨.block p.heap.next, data.length, data.length⟩ with
    crossings := ⟨⟨.block p.heap.next, 0, data.length⟩, false⟩ :: p.crossings }

theorem run_newBuffer (raw : FfiBuffer) :
    (newBuffer raw).run p = .ok p.buffers.length (p.withBuffer raw) := rfl

theorem run_NewBuffer {n : ℕ} (hn : n ≠ 0) (hs : rt.Serves p.heap n) :
    (NewBuffer rt n).run p = .ok p.buffers.length
      ((p.withHeap (p.heap.store (.fresh ⟨n, hs.le⟩))).withBuffer ⟨.block p.heap.next, 0, n⟩) := by
  have hlt : n < 2 ^ 64 := hs.le.trans_lt (by decide)
  have halloc : (within (ffiBufferAlloc rt n) : Go FfiBuffer).run p =
      .ok ⟨.block p.heap.next, 0, n⟩ (p.withHeap (p.heap.store (.fresh ⟨n, hs.le⟩))) :=
    within_of_ok (FfiBuffer.run_new_served hn hs)
  unfold NewBuffer
  rw [C.size_t_natCast hlt, bind_of_ok halloc]
  rfl

theorem run_fromBytes_nil : (fromBytes rt []).run p =
    .ok p.buffers.length (p.withBuffer .null) := rfl

private theorem modify_last {α : Type} (l : List α) (x : α) (f : α → α) :
    (l ++ [x]).modify l.length f = l ++ [f x] := by
  simp [List.modify_eq_set_getElem?]

theorem run_fromBytes (hne : data ≠ []) (hs : rt.Serves p.heap data.length) :
    (fromBytes rt data).run p = .ok p.buffers.length (p.withBytes data hs.le) := by
  have hz : data.length ≠ 0 := List.length_eq_zero_iff.not.mpr hne
  have hsize : C.size_t data.length = data.length := C.size_t_natCast (hs.le.trans_lt (by decide))
  have hb : ((p.withHeap (p.heap.store (.fresh ⟨data.length, hs.le⟩))).withBuffer
      ⟨.block p.heap.next, 0, data.length⟩).buffers[p.buffers.length]? =
        some ⟨⟨.block p.heap.next, 0, data.length⟩, false, true⟩ := by
    simp [Process.withBuffer, Process.withHeap]
  have hstale : ((p.withHeap (p.heap.store (.fresh ⟨data.length, hs.le⟩))).withBuffer
      ⟨.block p.heap.next, 0, data.length⟩).stale ⟨.block p.heap.next, 0, data.length⟩ = false := by
    simp [Process.stale, FfiBuffer.owns, Ptr.owns_block _ hz, Process.withBuffer, Process.withHeap,
      Process.heap, p.library.heap.next_notMem_released]
  unfold fromBytes
  rw [bind_of_ok (run_NewBuffer hz hs), if_pos (Nat.pos_of_ne_zero hz), bind_of_ok (run_deref hb),
    bind_of_ok (run_crossing _ _), hsize, bind_of_ok (run_memcpy rfl le_rfl)]
  change EStateM.Result.ok _ (Process.mk _ (List.modify (p.buffers ++ [_]) p.buffers.length _)
    (⟨_, Process.stale _ _⟩ :: p.crossings) p.frees) = _
  rw [modify_last, hstale]
  rfl

/-- A request that is not served panics, with nothing changed but the request. -/
theorem run_fromBytes_unserved (hne : data ≠ []) (hlt : data.length < 2 ^ 64)
    (hs : ¬ rt.Serves p.heap data.length) :
    ∃ q h', (fromBytes rt data).run p = .error (.panic q) (p.withHeap h') ∧
      h'.toArena = p.heap.toArena := by
  have hz : data.length ≠ 0 := List.length_eq_zero_iff.not.mpr hne
  obtain ⟨q, h', hr, ha⟩ := FfiBuffer.run_new_unserved hz hs
  have halloc : (within (ffiBufferAlloc rt data.length) : Go FfiBuffer).run p =
      .error (.panic q) (p.withHeap h') := within_of_error hr
  have hnew : (NewBuffer rt data.length).run p = .error (.panic q) (p.withHeap h') := by
    unfold NewBuffer
    rw [C.size_t_natCast hlt, bind_of_error halloc]
  unfold fromBytes
  exact ⟨q, h', bind_of_error hnew _, ha⟩

/-- The two ways `FromBytes` returns. -/
theorem fromBytes_ok {p' : Process} (hlt : data.length < 2 ^ 64)
    (hr : (fromBytes rt data).run p = .ok b p') : b = p.buffers.length ∧
      (data = [] ∧ p' = p.withBuffer .null ∨
        ∃ hs : rt.Serves p.heap data.length, data ≠ [] ∧ p' = p.withBytes data hs.le) := by
  by_cases hne : data = []
  · subst hne
    cases run_fromBytes_nil.symm.trans hr
    exact ⟨rfl, .inl ⟨rfl, rfl⟩⟩
  by_cases hs : rt.Serves p.heap data.length
  · cases (run_fromBytes hne hs).symm.trans hr
    exact ⟨rfl, .inr ⟨hs, hne, rfl⟩⟩
  · obtain ⟨q, h', hr', -⟩ := run_fromBytes_unserved hne hlt hs
    cases hr'.symm.trans hr

/-- `Bytes` of a buffer with content reads as many bytes as survive the conversion. -/
theorem run_bytes (hb : p.buffers[b]? = some buffer) (hf : buffer.freed = false)
    (hd : buffer.inner.data ≠ .null) (hl : buffer.inner.len ≠ 0) :
    (Buffer.bytes b).run p =
      (do return some (← C.GoBytes buffer.inner.data (C.int buffer.inner.len)) :
        Go (Option (List UInt8))).run (p.crossed buffer.inner) := by
  unfold Buffer.bytes
  rw [bind_of_ok (run_deref hb), if_neg (by simp [hf, hd, hl]), bind_of_ok (run_crossing _ _)]

theorem run_bytes_empty (hb : p.buffers[b]? = some buffer)
    (he : buffer.freed = true ∨ buffer.inner.data = .null ∨ buffer.inner.len = 0) :
    (Buffer.bytes b).run p = .ok none p := by
  unfold Buffer.bytes
  rw [bind_of_ok (run_deref hb), if_pos he]
  rfl

theorem run_len (hb : p.buffers[b]? = some buffer) :
    (Buffer.len b).run p = .ok (if buffer.freed then 0 else goInt buffer.inner.len) p := by
  unfold Buffer.len
  rw [bind_of_ok (run_deref hb)]
  split_ifs <;> rfl

end FfiBridge
