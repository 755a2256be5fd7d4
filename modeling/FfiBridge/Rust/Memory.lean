import FfiBridge.Machine.Memory
import FfiBridge.Rust.ErrorCode

/-! # Buffers and strings (`memory.rs`)

Both types are plain structs without a destructor, so nothing but their `dealloc` gives
memory back. Buffers, strings and vectors share what they do with their pointer.
-/
namespace FfiBridge
open Foundation

variable (rt : Runtime)

/-! ## What all three types do with their pointer -/

/-- Ask for `n` bytes: the layout must exist, and a null pointer stops the run. -/
def allocBytes (overflow : PanicPayload) (oom : Stop) (n : ℕ) : Rust Ptr := do
  let layout ← expect overflow (Layout.array n)
  let p ← alloc rt layout
  if p = .null then throw oom else return p

/-- Give back `size` bytes at `p`, if there are any. -/
def deallocBytes (text : String) (p : Ptr) (size : ℕ) : Rust Unit :=
  if p = .null ∨ size = 0 then pure ()
  else do
    let layout ← expect (.layoutError text) (Layout.array size)
    dealloc p layout

/-- Read `len` bytes at `p`, if there are any. -/
def readBytes (p : Ptr) (len : ℕ) : Rust (List UInt8) :=
  if p = .null ∨ len = 0 then pure [] else fromRawParts p len

@[simp] theorem readBytes_zero (p : Ptr) : readBytes p 0 = pure [] := if_pos (.inr rfl)

namespace Ptr

/-- The allocation `deallocBytes` gives back, if any. -/
def owns (p : Ptr) (size : ℕ) : List ℕ :=
  match p with
  | .block id => if size = 0 then [] else [id]
  | _ => []

/-- No bytes at all, or a live allocation of exactly `size` bytes. -/
def Backed (p : Ptr) (size : ℕ) (h : Heap) : Prop :=
  size = 0 ∨ ∃ id blk, p = .block id ∧ h.live.lookup id = some blk ∧ blk.layout.size = size

/-- The first `len` bytes at `p` are there to be read. -/
def Readable (p : Ptr) (len : ℕ) (h : Heap) : Prop :=
  len = 0 ∨ ∃ id blk, p = .block id ∧ h.live.lookup id = some blk ∧ len ≤ blk.init.length

@[simp] theorem owns_zero (p : Ptr) : p.owns 0 = [] := by cases p <;> rfl

@[simp] theorem owns_null (size : ℕ) : Ptr.null.owns size = [] := rfl

theorem mem_owns {p : Ptr} {size id : ℕ} : id ∈ p.owns size ↔ p = .block id ∧ size ≠ 0 := by
  cases p with
  | null => simp [owns]
  | dangling => simp [owns]
  | block k => by_cases hs : size = 0 <;> simp [owns, hs, eq_comm]

theorem owns_block {size : ℕ} (id : ℕ) (hs : size ≠ 0) : (Ptr.block id).owns size = [id] :=
  if_neg hs

theorem owns_nodup (p : Ptr) (size : ℕ) : (p.owns size).Nodup := by
  unfold owns
  split
  · split_ifs <;> simp
  · simp

theorem Backed.mem_live {p : Ptr} {size : ℕ} {h : Heap} (hp : p.Backed size h) {id : ℕ}
    (hid : id ∈ p.owns size) : id ∈ h.live := by
  obtain ⟨rfl, hc⟩ := mem_owns.mp hid
  rcases hp with hz | ⟨k, blk, hk, hl, -⟩
  · exact absurd hz hc
  · cases hk
    exact Finmap.mem_of_lookup_eq_some hl

theorem Backed.le_isizeMax {p : Ptr} {size : ℕ} {h : Heap} (hp : p.Backed size h) :
    size ≤ isizeMax := by
  rcases hp with rfl | ⟨_, blk, -, -, rfl⟩
  · exact Nat.zero_le _
  · exact blk.layout.le

theorem Backed.owns_eq_nil {p : Ptr} {size : ℕ} {h : Heap} (hp : p.Backed size h) :
    p.owns size = [] ↔ size = 0 := by
  rcases hp with rfl | ⟨k, blk, rfl, -, -⟩
  · simp
  · by_cases hs : size = 0 <;> simp [owns, hs]

/-- A heap with the same entries at what `p` owns backs `p` as well. -/
theorem Backed.congr {p : Ptr} {size : ℕ} {h h' : Heap} (hp : p.Backed size h)
    (hk : ∀ id ∈ p.owns size, h'.live.lookup id = h.live.lookup id) : p.Backed size h' := by
  rcases hp with hz | ⟨id, blk, rfl, hl, hs⟩
  · exact .inl hz
  · by_cases hz : size = 0
    · exact .inl hz
    · exact .inr ⟨id, blk, rfl, (hk id (by simp [owns_block id hz])).trans hl, hs⟩

theorem Readable.congr {p : Ptr} {len : ℕ} {h h' : Heap} (hp : p.Readable len h)
    (hk : ∀ id ∈ p.owns len, h'.live.lookup id = h.live.lookup id) : p.Readable len h' := by
  rcases hp with hz | ⟨id, blk, rfl, hl, hi⟩
  · exact .inl hz
  · by_cases hz : len = 0
    · exact .inl hz
    · exact .inr ⟨id, blk, rfl, (hk id (by simp [owns_block id hz])).trans hl, hi⟩

theorem Readable.mono {p : Ptr} {len n : ℕ} {h : Heap} (hp : p.Readable len h) (hn : n ≤ len) :
    p.Readable n h := by
  rcases hp with rfl | ⟨id, blk, rfl, hl, hi⟩
  · exact .inl (Nat.le_zero.mp hn)
  · exact .inr ⟨id, blk, rfl, hl, hn.trans hi⟩

end Ptr

section
variable {rt} {h : Heap}

/-- A served request is a fresh allocation. -/
theorem run_allocBytes_served {overflow : PanicPayload} {oom : Stop} {n : ℕ} (hs : rt.Serves h n) :
    (allocBytes rt overflow oom n).run h = .ok (.block h.next) (h.store (.fresh ⟨n, hs.le⟩)) := by
  unfold allocBytes
  rw [layout_array_of_le hs.le, bind_of_ok (run_expect_some _ _ _),
    bind_of_ok (run_alloc_granted hs.granted)]
  rfl

theorem run_allocBytes_refused {overflow : PanicPayload} {oom : Stop} {n : ℕ} (hle : n ≤ isizeMax)
    (hg : rt.grants h.requests n ≠ true) :
    (allocBytes rt overflow oom n).run h = .error oom h.refuse := by
  unfold allocBytes
  rw [layout_array_of_le hle, bind_of_ok (run_expect_some _ _ _), bind_of_ok (run_alloc_refused hg)]
  rfl

theorem run_allocBytes_overflow {overflow : PanicPayload} {oom : Stop} {n : ℕ} (hle : ¬ n ≤ isizeMax) :
    (allocBytes rt overflow oom n).run h = .error (.panic overflow) h := by
  unfold allocBytes
  rw [layout_array_of_lt hle, bind_of_error (run_expect_none _ _)]

/-- A request that is not served stops the run, and the heap is what it was. -/
theorem run_allocBytes_unserved {overflow : PanicPayload} {oom : Stop} {n : ℕ} (hs : ¬ rt.Serves h n) :
    ∃ e h', (allocBytes rt overflow oom n).run h = .error e h' ∧ h'.toArena = h.toArena ∧
      (e = .panic overflow ∨ e = oom) := by
  by_cases hle : n ≤ isizeMax
  · exact ⟨_, _, run_allocBytes_refused hle fun hg => hs ⟨hle, hg⟩, rfl, .inr rfl⟩
  · exact ⟨_, _, run_allocBytes_overflow hle, rfl, .inl rfl⟩

theorem allocBytes_later (overflow : PanicPayload) (oom : Stop) (n : ℕ) :
    Respects Heap.Later (allocBytes rt overflow oom n) :=
  (expect_later _ _).bind fun _ => (alloc_later _).bind fun _ => .ite (.throw _) (.pure _)

/-- Asking for as many bytes as are then copied in. -/
theorem run_allocBytes_copy {overflow : PanicPayload} {oom : Stop} {src : List UInt8} {n : ℕ} {α : Type}
    (hn : src.length ≤ n) (hs : rt.Serves h n) (f : Ptr → Rust α) :
    (do let p ← allocBytes rt overflow oom n; copyNonoverlapping src p; f p : Rust α).run h =
      (f (.block h.next)).run (h.store ⟨⟨n, hs.le⟩, src, hn⟩) := by
  have hc : (copyNonoverlapping src (.block h.next)).run (h.store (.fresh ⟨n, hs.le⟩)) =
      .ok () (h.store ⟨⟨n, hs.le⟩, src, hn⟩) := run_copy_store hn
  rw [bind_of_ok (run_allocBytes_served hs), bind_of_ok hc]

end

/-- Giving back what is backed releases exactly what is owned. -/
theorem run_deallocBytes {text : String} {p : Ptr} {size : ℕ} {h : Heap}
    (hp : p.Backed size h) : (deallocBytes text p size).run h = .ok () (h.dropAll (p.owns size)) := by
  rcases hp with rfl | ⟨id, blk, rfl, hl, rfl⟩
  · simp [deallocBytes]
  · by_cases hc : blk.layout.size = 0
    · simp [deallocBytes, hc]
    · rw [Ptr.owns_block id hc, Heap.dropAll_singleton h (Finmap.mem_of_lookup_eq_some hl)]
      simp only [deallocBytes, hc, reduceCtorEq, or_false, if_false]
      rw [layout_array_size rfl, bind_of_ok (run_expect_some _ _ _), run_dealloc_live hl]

/-- Giving back what was given back before is a double free. -/
theorem run_deallocBytes_released {text : String} {id size : ℕ} {h : Heap} (hs : size ≠ 0)
    (hle : size ≤ isizeMax) (hr : id ∈ h.released) :
    (deallocBytes text (.block id) size).run h = .error (.fault (.doubleFree id)) h := by
  simp only [deallocBytes, hs, reduceCtorEq, or_false, if_false]
  rw [layout_array_of_le hle, bind_of_ok (run_expect_some _ _ _), run_dealloc_released hr]

/-- Giving back returns what is owned, or stops with nothing changed. -/
theorem run_deallocBytes_cases (text : String) (p : Ptr) (size : ℕ) (h : Heap) :
    (deallocBytes text p size).run h = .ok () (h.dropAll (p.owns size)) ∨
      ∃ e, (deallocBytes text p size).run h = .error e h := by
  unfold deallocBytes
  split_ifs with hz
  · rcases hz with rfl | rfl
    · exact .inl rfl
    · exact .inl (by rw [Ptr.owns_zero]; rfl)
  · obtain ⟨hn, hsize⟩ := not_or.mp hz
    cases Layout.array size with
    | none => exact .inr ⟨_, rfl⟩
    | some layout =>
      rw [bind_of_ok (run_expect_some _ _ _)]
      cases p with
      | null => exact absurd rfl hn
      | dangling => exact .inr ⟨_, rfl⟩
      | block id =>
        rw [Ptr.owns_block id hsize]
        change (if _ : id ∈ h.live then _ else _) = _ ∨ ∃ e, (if _ : id ∈ h.live then _ else _) = _
        split_ifs with hl
        · exact .inl (by rw [Heap.dropAll_singleton h hl])
        · exact .inr ⟨_, rfl⟩
        · exact .inr ⟨_, rfl⟩

theorem deallocBytes_later (text : String) (p : Ptr) (size : ℕ) :
    Respects Heap.Later (deallocBytes text p size) :=
  .ite (.pure _) <| (expect_later _ _).bind fun _ => dealloc_later _ _

theorem deallocBytes_ne_goPanic (text : String) (p : Ptr) (size : ℕ) (msg : String) (h h' : Heap) :
    (deallocBytes text p size).run h ≠ .error (.goPanic msg) h' := by
  unfold deallocBytes
  split_ifs
  · exact fun hr => by cases hr
  · intro hr
    rcases bind_eq_error.mp hr with hr | ⟨layout, t, -, hr⟩
    · cases hl : Layout.array size with
      | none =>
        rw [hl] at hr
        cases hr
      | some layout =>
        rw [hl] at hr
        cases hr
    · cases p with
      | null => cases hr
      | dangling => cases hr
      | block id =>
        change (if _ : id ∈ t.live then _ else _) = _ at hr
        split_ifs at hr <;> cases hr

theorem run_readBytes_block {id len : ℕ} {blk : Block} {h : Heap}
    (hl : h.live.lookup id = some blk) (hle : len ≤ blk.init.length) :
    (readBytes (.block id) len).run h = .ok (blk.init.take len) h := by
  by_cases hz : len = 0
  · simp [hz]
  · simp only [readBytes, hz, reduceCtorEq, or_false, if_false]
    exact run_fromRawParts hl hle

/-- Reading what is readable returns that many bytes and changes nothing. -/
theorem run_readBytes {p : Ptr} {len : ℕ} {h : Heap} (hp : p.Readable len h) :
    ∃ bytes, bytes.length = len ∧ (readBytes p len).run h = .ok bytes h := by
  rcases hp with rfl | ⟨id, blk, rfl, hl, hle⟩
  · exact ⟨[], rfl, by simp⟩
  · exact ⟨blk.init.take len, by simp [hle], run_readBytes_block hl hle⟩

/-- Where the allocation read from is kept, the same bytes are read. -/
theorem Ptr.Readable.run_congr {p : Ptr} {len : ℕ} {h h' : Heap} {bytes : List UInt8}
    (hp : p.Readable len h) (hk : ∀ id ∈ p.owns len, h'.live.lookup id = h.live.lookup id)
    (hr : (readBytes p len).run h = .ok bytes h) : (readBytes p len).run h' = .ok bytes h' := by
  rcases hp with rfl | ⟨id, blk, rfl, hl, hi⟩
  · rw [readBytes_zero] at hr ⊢
    cases hr
    rfl
  · rw [run_readBytes_block hl hi] at hr
    cases hr
    by_cases hz : len = 0
    · simp [hz]
    · exact run_readBytes_block ((hk id (by simp [owns_block id hz])).trans hl) hi

/-- Inside a live allocation, only bytes nobody wrote can go wrong. -/
theorem run_readBytes_backed {p : Ptr} {size len : ℕ} {h : Heap} (hp : p.Backed size h)
    (hle : len ≤ size) : (∃ bytes, bytes.length = len ∧ (readBytes p len).run h = .ok bytes h) ∨
      ∃ id, (readBytes p len).run h = .error (.fault (.uninitialised id)) h := by
  rcases hp with rfl | ⟨id, blk, rfl, hl, rfl⟩
  · exact .inl (run_readBytes (.inl (Nat.le_zero.mp hle)))
  · by_cases hi : len ≤ blk.init.length
    · exact .inl (run_readBytes (.inr ⟨id, blk, rfl, hl, hi⟩))
    · refine .inr ⟨id, ?_⟩
      have hz : len ≠ 0 := by omega
      simp only [readBytes, hz, reduceCtorEq, or_false, if_false]
      exact run_fromRawParts_uninitialised hl hle (Nat.not_le.mp hi)

theorem readBytes_later (p : Ptr) (len : ℕ) : Respects Heap.Later (readBytes p len) :=
  .ite (.pure _) (fromRawParts_later _ _)

theorem readBytes_ok {p : Ptr} {len : ℕ} {h h' : Heap} {bytes : List UInt8} (hp : p ≠ .null)
    (hr : (readBytes p len).run h = .ok bytes h') : h' = h ∧ bytes.length = len := by
  unfold readBytes at hr
  split_ifs at hr with hz
  · cases hr
    exact ⟨rfl, (hz.resolve_left hp).symm⟩
  · exact fromRawParts_ok hr

theorem readBytes_ne_panic (p : Ptr) (len : ℕ) (q : PanicPayload) (h h' : Heap) :
    (readBytes p len).run h ≠ .error (.panic q) h' := by
  unfold readBytes
  split_ifs
  · exact fun hr => by cases hr
  · exact fromRawParts_ne_panic p len q h h'

/-! ## `Vec<u8>` -/

structure Vec where
  ptr : Ptr
  len : ℕ
  capacity : ℕ
  deriving DecidableEq, Repr

/-- A `Vec` holding `bytes` that was given room for `capacity` bytes.
`handle_alloc_error` ends the process. -/
def Vec.build (bytes : List UInt8) (capacity : ℕ) : Rust Vec :=
  if max bytes.length capacity = 0 then pure ⟨.dangling, 0, 0⟩
  else do
    let ptr ← allocBytes rt (.str "capacity overflow") .abort (max bytes.length capacity)
    copyNonoverlapping bytes ptr
    return ⟨ptr, bytes.length, max bytes.length capacity⟩

/-- `slice::to_vec`: room for exactly the bytes. -/
def toVec (bytes : List UInt8) : Rust Vec := Vec.build rt bytes bytes.length

/-- `Vec::shrink_to_fit`: an allocation that shrinks moves, one that shrinks to nothing
is given back. -/
def Vec.shrinkToFit (vec : Vec) : Rust Vec :=
  let capacity := rt.shrunk vec.len vec.capacity
  if capacity = vec.capacity then pure vec
  else do
    let old ← expect (.str "capacity overflow") (Layout.array vec.capacity)
    if capacity = 0 then do
      dealloc vec.ptr old
      return ⟨.dangling, vec.len, 0⟩
    else do
      let new ← expect (.str "capacity overflow") (Layout.array capacity)
      let ptr ← realloc rt vec.ptr old new
      if ptr = .null then throw .abort else return ⟨ptr, vec.len, capacity⟩

/-! ## `FfiBuffer` -/

structure FfiBuffer where
  data : Ptr
  len : ℕ
  capacity : ℕ
  deriving DecidableEq, Repr

namespace FfiBuffer

def null : FfiBuffer := ⟨.null, 0, 0⟩

/-- `FfiBuffer::new`. -/
def new (capacity : ℕ) : Rust FfiBuffer :=
  if capacity = 0 then pure null
  else do
    let data ← allocBytes rt (.layoutError "capacity overflow")
      (.panic (.string s!"ffi_buffer_alloc: out of memory (capacity={capacity})")) capacity
    return ⟨data, 0, capacity⟩

/-- `FfiBuffer::from_vec`. -/
def fromVec (vec : Vec) : Rust FfiBuffer := do
  let vec ← vec.shrinkToFit rt
  return ⟨vec.ptr, vec.len, vec.capacity⟩

/-- `FfiBuffer::from_json`, with `serde_json::to_vec` of the value as `json`. -/
def fromJson {σ : Type} [Component σ Heap] (json : Program σ (Except String Vec)) :
    Program σ (Except FfiError FfiBuffer) := do
  match ← json with
  | .ok vec => return .ok (← within (fromVec rt vec))
  | .error e => return .error (.serialization e)

/-- `FfiBuffer::as_slice`, read through. -/
def asSlice (self : FfiBuffer) : Rust (List UInt8) := readBytes self.data self.len

/-- `FfiBuffer::to_json`, with `serde_json::from_slice` as `decode`. -/
def toJson {σ T : Type} [Component σ Heap] (self : FfiBuffer)
    (decode : List UInt8 → Program σ (Except String T)) : Program σ (Except FfiError T) := do
  match ← decode (← within self.asSlice) with
  | .ok value => return .ok value
  | .error e => return .error (.serialization e)

/-- `FfiBuffer::dealloc`. -/
def dealloc (self : FfiBuffer) : Rust Unit :=
  deallocBytes "capacity overflow" self.data self.capacity

end FfiBuffer

/-- `ffi_buffer_alloc`. -/
def ffiBufferAlloc (capacity : ℕ) : Rust FfiBuffer := FfiBuffer.new rt capacity

/-- `ffi_buffer_free`. -/
def ffiBufferFree (buf : FfiBuffer) : Rust Unit := buf.dealloc

/-! ## `FfiString` -/

structure FfiString where
  data : Ptr
  len : ℕ
  deriving DecidableEq, Repr

namespace FfiString

def null : FfiString := ⟨.null, 0⟩

/-- `FfiString::new`. -/
def new (s : String) : Rust FfiString :=
  let bytes := asBytes s
  if bytes = [] then pure null
  else do
    let data ← allocBytes rt (.layoutError "string too large")
      (.panic (.str "ffi_string_alloc: out of memory")) bytes.length
    copyNonoverlapping bytes data
    return ⟨data, bytes.length⟩

/-- The bytes under `FfiString::as_str`, whose UTF-8 validity is not checked. -/
def asStr (self : FfiString) : Rust (List UInt8) := readBytes self.data self.len

/-- `FfiString::dealloc`. -/
def dealloc (self : FfiString) : Rust Unit :=
  deallocBytes "string too large" self.data self.len

end FfiString

/-- `ffi_string_alloc(str, len)`, for a null pointer or one with the given bytes behind it. -/
def ffiStringAlloc (str : Option (List UInt8)) (len : ℕ) : Rust FfiString :=
  match str with
  | none => pure .null
  | some memory =>
    if len = 0 then pure .null
    else match fromUtf8 (memory.take len) with
      | .ok s => FfiString.new rt s
      | .error _ => pure .null

/-- `ffi_string_free`. -/
def ffiStringFree (str : FfiString) : Rust Unit := str.dealloc

end FfiBridge
