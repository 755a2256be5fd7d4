import FfiBridge.Rust.Callback

/-! # The Go process and its C calls

The process is the library it links and the `*Buffer` values it has made, a pointer being
an index. Reads and hand-overs of an `FfiBuffer` are recorded with what they found: a
crossing is stale when the allocation of the buffer was released before. So are the calls of
`ffi_buffer_free`.
-/
namespace FfiBridge
open Foundation

/-- `Buffer`, with the finalizer the garbage collector has for it. -/
structure Buffer where
  inner : FfiBuffer
  freed : Bool
  finalizer : Bool
  deriving DecidableEq, Repr

/-- `*Buffer`. -/
abbrev BufferRef := ℕ

/-- One `FfiBuffer` read by Go or handed to a C function. -/
structure Crossing where
  buffer : FfiBuffer
  stale : Bool
  deriving DecidableEq, Repr

/-- The process; `frees` is what `ffi_buffer_free` was called with, newest first. -/
structure Process where
  library : Library
  buffers : List Buffer
  crossings : List Crossing
  frees : List FfiBuffer

instance : Component Process Library where
  get p := p.library
  put l p := { p with library := l }
  get_put _ _ := rfl
  put_get _ := rfl
  put_put _ _ _ := rfl

instance : Component Process Heap where
  get p := p.library.heap
  put h p := { p with library := { p.library with heap := h } }
  get_put _ _ := rfl
  put_get _ := rfl
  put_put _ _ _ := rfl

/-- Go code, which calls into the library. -/
abbrev Go (α : Type) := Program Process α

namespace Process

/-- A process that has made no buffer yet. -/
def start (l : Library) : Process := ⟨l, [], [], []⟩

def heap (p : Process) : Heap := p.library.heap

/-- The process with another heap. -/
def withHeap (p : Process) (h : Heap) : Process :=
  { p with library := { p.library with heap := h } }

/-- Some allocation of `b` was released. -/
def stale (p : Process) (b : FfiBuffer) : Bool := b.owns.any (· ∈ p.heap.released)

end Process

/-- Record that `b` is read or handed over. -/
def crossing (b : FfiBuffer) : Go Unit :=
  modify fun p => { p with crossings := ⟨b, p.stale b⟩ :: p.crossings }

/-- The `*Buffer` behind a pointer. -/
def deref (b : BufferRef) : Go Buffer := do
  match (← get).buffers[b]? with
  | some buffer => return buffer
  | none => throw (.goPanic "invalid memory address or nil pointer dereference")

/-- Assign to the fields of a `*Buffer`. -/
def assign (b : BufferRef) (f : Buffer → Buffer) : Go Unit :=
  modify fun p => { p with buffers := p.buffers.modify b f }

/-- `C.GoBytes(p, n)`, for a C `int`. -/
def C.GoBytes (p : Ptr) (n : ℤ) : Go (List UInt8) :=
  if n < 0 then throw (.goPanic "gobytes: length out of range")
  else if n = 0 then return []
  else within (fromRawParts p n.toNat)

/-- `C.GoStringN(p, n)`, for a C `int`; a string of negative length cannot be allocated. -/
def C.GoStringN (p : Ptr) (n : ℤ) : Go (List UInt8) :=
  if n < 0 then throw (.goFatal "out of memory")
  else if n = 0 then return []
  else within (fromRawParts p n.toNat)

/-- `C.CString(s)`: the bytes and a NUL. -/
def C.CString (s : List UInt8) : List UInt8 := s ++ [0]

/-- `C.memcpy(dst, &src[0], n)`. -/
def C.memcpy (dst : Ptr) (src : List UInt8) (n : ℕ) : Go Unit :=
  within (copyNonoverlapping (src.take n) dst)

/-- `C.ffi_buffer_free(b)`. -/
def C.ffiBufferFree (b : FfiBuffer) : Go Unit := do
  crossing b
  modify fun p => { p with frees := b :: p.frees }
  within (FfiBridge.ffiBufferFree b)

/-- Go code with a deferred call, which also runs when a Go panic goes by. -/
def deferring {α : Type} (cleanup : Go Unit) (m : Go α) : Go α := fun p =>
  match m.run p with
  | .ok a q => (do cleanup; return a : Go α).run q
  | .error (.goPanic text) q => (do cleanup; throw (.goPanic text) : Go α).run q
  | .error e q => .error e q

theorem run_deferring {α : Type} (cleanup : Go Unit) (m : Go α) (p : Process) :
    (deferring cleanup m).run p = match m.run p with
      | .ok a q => (do cleanup; return a : Go α).run q
      | .error (.goPanic text) q => (do cleanup; throw (.goPanic text) : Go α).run q
      | .error e q => .error e q := rfl

/-! ## Runs -/

variable {p : Process} {ptr : Ptr} {n : ℤ}

/-- A non-negative length is read as it is. -/
theorem C.GoBytes_of_nonneg (hp : ptr ≠ .null) (hn : 0 ≤ n) :
    C.GoBytes ptr n = within (readBytes ptr n.toNat) := by
  unfold GoBytes readBytes
  rw [if_neg (not_lt.mpr hn)]
  by_cases hz : n = 0
  · simp [hz, within_pure]
  · have hz' : n.toNat ≠ 0 := by omega
    simp [hz, hz', hp]

/-- The two readers differ in how they refuse a negative length only. -/
theorem C.GoStringN_eq_GoBytes (hn : 0 ≤ n) : C.GoStringN ptr n = C.GoBytes ptr n := by
  unfold GoStringN GoBytes
  rw [if_neg (not_lt.mpr hn), if_neg (not_lt.mpr hn)]

theorem C.run_GoBytes_neg (hn : n < 0) : (C.GoBytes ptr n).run p =
    .error (.goPanic "gobytes: length out of range") p := by
  unfold GoBytes
  rw [if_pos hn]
  rfl

theorem C.run_GoStringN_neg (hn : n < 0) : (C.GoStringN ptr n).run p =
    .error (.goFatal "out of memory") p := by
  unfold GoStringN
  rw [if_pos hn]
  rfl

/-- A read that returns found a non-negative length, and leaves the process as it is. -/
theorem C.goBytes_ok {bytes : List UInt8} {q : Process} (hp : ptr ≠ .null)
    (hr : (C.GoBytes ptr n).run p = .ok bytes q) : q = p ∧ 0 ≤ n ∧ bytes.length = n.toNat := by
  by_cases hn : 0 ≤ n
  · rw [C.GoBytes_of_nonneg hp hn] at hr
    obtain ⟨h, hb, rfl⟩ := within_eq_ok.mp hr
    obtain ⟨rfl, hlen⟩ := readBytes_ok hp hb
    exact ⟨rfl, hn, hlen⟩
  · cases (C.run_GoBytes_neg (not_le.mp hn)).symm.trans hr

theorem C.goStringN_ok {bytes : List UInt8} {q : Process} (hp : ptr ≠ .null)
    (hr : (C.GoStringN ptr n).run p = .ok bytes q) : q = p ∧ 0 ≤ n ∧ bytes.length = n.toNat := by
  by_cases hn : 0 ≤ n
  · exact goBytes_ok hp (@GoStringN_eq_GoBytes ptr n hn ▸ hr)
  · cases (C.run_GoStringN_neg (not_le.mp hn)).symm.trans hr

/-- The process after a crossing. -/
def Process.crossed (p : Process) (b : FfiBuffer) : Process :=
  { p with crossings := ⟨b, p.stale b⟩ :: p.crossings }

theorem run_crossing (b : FfiBuffer) (p : Process) : (crossing b).run p = .ok () (p.crossed b) := rfl

/-- The process in which `ffi_buffer_free` is entered. -/
def Process.freeing (p : Process) (b : FfiBuffer) : Process :=
  { p.crossed b with frees := b :: p.frees }

theorem C.run_ffiBufferFree (b : FfiBuffer) (p : Process) : (C.ffiBufferFree b).run p =
    (within (FfiBridge.ffiBufferFree b) : Go Unit).run (p.freeing b) := rfl

/-- Copying into the block just allocated. -/
theorem run_memcpy {p : Process} {h : Heap} {layout : Layout} {data : List UInt8}
    (hp : p.heap = h.store (.fresh layout)) (hs : data.length ≤ layout.size) :
    (C.memcpy (.block h.next) data data.length).run p =
      .ok () (p.withHeap (h.store ⟨layout, data, hs⟩)) := by
  have hc : (copyNonoverlapping data (.block h.next)).run (Component.get p) = .ok () _ :=
    (congrArg _ hp).trans (run_copy_store hs)
  unfold C.memcpy
  rw [List.take_length]
  exact within_of_ok hc

end FfiBridge
