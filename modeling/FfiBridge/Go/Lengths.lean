import FfiBridge.Go.Callback

/-! # Lengths on the Go side

A length is a Go `int`, a `size_t` and, to read the bytes back, a C `int` of 32 bits. The
three readers of Rust memory agree with what is there exactly below `2 ^ 31` bytes: above,
the length comes out negative, or positive and too short.
-/
namespace FfiBridge
open Foundation

variable {rt : Runtime} {p p' : Process} {b : BufferRef} {data bytes : List UInt8}

/-- `FromBytes(data).Bytes()` is `data` again, and `Len()` is its length. -/
def RoundTrips (data : List UInt8) (b : BufferRef) (p : Process) : Prop :=
  (∃ r p', (Buffer.bytes b).run p = .ok r p' ∧ r.getD [] = data) ∧
    (Buffer.len b).run p = .ok (data.length : ℤ) p

theorem withBytes_buffer (hs : data.length ≤ isizeMax) :
    (p.withBytes data hs).buffers[p.buffers.length]? =
      some ⟨⟨.block p.heap.next, data.length, data.length⟩, false, true⟩ := by
  simp [Process.withBytes, Process.withBuffer, Process.withHeap]

/-- A reader that stops on a negative C `int` and reads a non-negative one returns the
whole content exactly when the length is a C `int`. -/
theorem reads_whole_iff {m : Go (List UInt8)} {ptr : Ptr} {len : ℕ} (hp : ptr ≠ .null)
    (hneg : C.int len < 0 → ∃ e, m.run p = .error e p)
    (hread : 0 ≤ C.int len → m = within (readBytes ptr (C.int len).toNat))
    (hbytes : (readBytes ptr len).run p.heap = .ok bytes p.heap) (hlen : bytes.length = len) :
    m.run p = .ok bytes p ↔ len < 2 ^ 31 := by
  constructor
  · intro hr
    by_contra hge
    by_cases hn : 0 ≤ C.int len
    · rw [hread hn] at hr
      obtain ⟨h', hr', -⟩ := within_eq_ok.mp hr
      have hlt := C.int_of_le (not_lt.mp hge)
      have hcut := (readBytes_ok hp hr').2
      omega
    · obtain ⟨e, he⟩ := hneg (not_le.mp hn)
      cases he.symm.trans hr
  · intro hlt
    have hint := C.int_of_lt hlt
    rw [hread (by omega), hint, Int.toNat_natCast]
    exact within_of_ok hbytes

theorem goBytes_whole_iff {ptr : Ptr} {len : ℕ} (hp : ptr ≠ .null)
    (hbytes : (readBytes ptr len).run p.heap = .ok bytes p.heap) (hlen : bytes.length = len) :
    (C.GoBytes ptr (C.int len)).run p = .ok bytes p ↔ len < 2 ^ 31 :=
  reads_whole_iff hp (fun hn => ⟨_, C.run_GoBytes_neg hn⟩) (C.GoBytes_of_nonneg hp) hbytes hlen

theorem goStringN_whole_iff {ptr : Ptr} {len : ℕ} (hp : ptr ≠ .null)
    (hbytes : (readBytes ptr len).run p.heap = .ok bytes p.heap) (hlen : bytes.length = len) :
    (C.GoStringN ptr (C.int len)).run p = .ok bytes p ↔ len < 2 ^ 31 :=
  reads_whole_iff hp (fun hn => ⟨_, C.run_GoStringN_neg hn⟩)
    (fun hn => (C.GoStringN_eq_GoBytes hn).trans (C.GoBytes_of_nonneg hp hn)) hbytes hlen

theorem roundTrips_iff (hlt : data.length < 2 ^ 63) (hr : (fromBytes rt data).run p = .ok b p') :
    RoundTrips data b p' ↔ data.length < 2 ^ 31 := by
  obtain ⟨rfl, ⟨rfl, rfl⟩ | ⟨hs, hne, rfl⟩⟩ := fromBytes_ok (by omega) hr
  · have hb : (p.withBuffer .null).buffers[p.buffers.length]? = some ⟨.null, false, true⟩ := by
      simp [Process.withBuffer]
    have hlen : (Buffer.len p.buffers.length).run (p.withBuffer .null) =
        .ok (([] : List UInt8).length : ℤ) (p.withBuffer .null) := by
      rw [run_len hb]
      simp [FfiBuffer.null, goInt_of_lt]
    exact iff_of_true ⟨⟨none, _, run_bytes_empty hb (.inr (.inl rfl)), rfl⟩, hlen⟩ (by simp)
  have hb := withBytes_buffer (p := p) hs.le
  have hz : data.length ≠ 0 := List.length_eq_zero_iff.not.mpr hne
  have hlen : (Buffer.len p.buffers.length).run (p.withBytes data hs.le) =
      .ok (data.length : ℤ) (p.withBytes data hs.le) := by
    rw [run_len hb, goInt_of_lt hlt]
    rfl
  have hbytes := run_bytes hb rfl (by simp) hz
  have hwhole : (C.GoBytes (.block p.heap.next) (C.int data.length)).run _ = .ok data _ ↔ _ :=
    goBytes_whole_iff (p := (p.withBytes data hs.le).crossed ⟨.block p.heap.next, data.length, data.length⟩)
      (by simp) (Ptr.run_readBytes_store rfl) rfl
  constructor
  · rintro ⟨⟨r, q, hr, hd⟩, -⟩
    obtain ⟨bs, t, hg, hr⟩ := bind_eq_ok.mp (hbytes.symm.trans hr)
    cases hr
    obtain rfl : bs = data := hd
    obtain ⟨rfl, -⟩ := C.goBytes_ok (by simp) hg
    exact hwhole.mp hg
  · intro hlt
    exact ⟨⟨some data, _, hbytes.trans (bind_of_ok (hwhole.mpr hlt) _), rfl⟩, hlen⟩

theorem ne_null_of_read {ptr : Ptr} {len : ℕ} {h : Heap}
    (hbytes : (readBytes ptr len).run h = .ok bytes h) (hlen : bytes.length = len)
    (hz : len ≠ 0) : ptr ≠ .null := by
  rintro rfl
  cases hbytes
  exact hz hlen.symm

/-- `copyBuffer(raw)` is a buffer of exactly the bytes of `raw`. -/
def Copies (rt : Runtime) (raw : FfiBuffer) (bytes : List UInt8) (p : Process) : Prop :=
  ∃ b p' buffer, (copyBuffer rt raw).run p = .ok b p' ∧ p'.buffers[b]? = some buffer ∧
    buffer.inner.len = raw.len ∧ buffer.inner.asSlice.run p'.heap = .ok bytes p'.heap

theorem copies_iff {raw : FfiBuffer} (hbytes : raw.asSlice.run p.heap = .ok bytes p.heap)
    (hlen : bytes.length = raw.len) (hs : raw.len ≠ 0 → rt.Serves p.heap raw.len) :
    Copies rt raw bytes p ↔ raw.len < 2 ^ 31 := by
  by_cases hz : raw.len = 0
  · obtain rfl := List.length_eq_zero_iff.mp (hlen.trans hz)
    refine iff_of_true ⟨p.buffers.length, p.withBuffer .null, ⟨.null, false, true⟩, ?_, ?_, hz.symm,
      rfl⟩ (by omega)
    · unfold copyBuffer
      rw [if_pos (.inr hz)]
      rfl
    · simp [Process.withBuffer]
  have hd := ne_null_of_read hbytes hlen hz
  have hwhole := goBytes_whole_iff (p := p.crossed raw) hd hbytes hlen
  have hrun : (copyBuffer rt raw).run p = (do
      let goBytes ← C.GoBytes raw.data (C.int raw.len)
      fromBytes rt goBytes : Go BufferRef).run (p.crossed raw) := by
    unfold copyBuffer
    rw [if_neg (by simp [hd, hz]), bind_of_ok (run_crossing _ _)]
  constructor
  · rintro ⟨b, q, buffer, hr, hb, hl, hc⟩
    obtain ⟨goBytes, t, hg, hf⟩ := bind_eq_ok.mp (hrun.symm.trans hr)
    obtain ⟨rfl, hn, hgl⟩ := C.goBytes_ok hd hg
    have hint := C.int_lt raw.len
    by_contra hge
    have hcut := C.int_of_le (not_lt.mp hge)
    obtain ⟨rfl, ⟨rfl, rfl⟩ | ⟨hs', -, rfl⟩⟩ := fromBytes_ok (by omega) hf
    · have hb' : some (Buffer.mk .null false true) = some buffer := by
        simpa [Process.withBuffer] using hb
      cases hb'
      exact hz hl.symm
    · cases (withBytes_buffer hs'.le).symm.trans hb
      simp only at hl
      omega
  · intro hlt
    have hne : bytes ≠ [] := fun h => hz (by rw [← hlen, h]; rfl)
    have hserve : rt.Serves (p.crossed raw).heap bytes.length := hlen ▸ hs hz
    refine ⟨_, _, _, hrun.trans ((bind_of_ok (hwhole.mpr hlt) _).trans (run_fromBytes hne hserve)),
      withBytes_buffer hserve.le, hlen, ?_⟩
    exact Ptr.run_readBytes_store rfl

/-- `GoStringFromFfiString` returns exactly the bytes of its argument below `2 ^ 31`. -/
theorem goString_whole_iff {s : FfiString} (hbytes : s.asStr.run p.heap = .ok bytes p.heap)
    (hlen : bytes.length = s.len) :
    (goStringFromFfiString s).run p = .ok bytes p ↔ s.len < 2 ^ 31 := by
  unfold goStringFromFfiString
  by_cases hz : s.len = 0
  · obtain rfl := List.length_eq_zero_iff.mp (hlen.trans hz)
    rw [if_pos (.inr hz)]
    exact iff_of_true rfl (by omega)
  · have hd := ne_null_of_read hbytes hlen hz
    rw [if_neg (by simp [hd, hz])]
    exact goStringN_whole_iff hd hbytes hlen

/-- For a Go slice, a raw buffer and an `FfiString` of any length that can be allocated:
the bytes come back whole exactly when there are fewer than `2 ^ 31` of them. -/
theorem bytes_whole_iff (rt : Runtime) (p : Process) :
    (∀ data b p', data.length < 2 ^ 63 → (fromBytes rt data).run p = .ok b p' →
      (RoundTrips data b p' ↔ data.length < 2 ^ 31)) ∧
    (∀ (raw : FfiBuffer) bytes, raw.asSlice.run p.heap = .ok bytes p.heap →
      bytes.length = raw.len → (raw.len ≠ 0 → rt.Serves p.heap raw.len) →
      (Copies rt raw bytes p ↔ raw.len < 2 ^ 31)) ∧
    (∀ (s : FfiString) bytes, s.asStr.run p.heap = .ok bytes p.heap → bytes.length = s.len →
      ((goStringFromFfiString s).run p = .ok bytes p ↔ s.len < 2 ^ 31)) :=
  ⟨fun _ _ _ => roundTrips_iff, fun _ _ => copies_iff, fun _ _ => goString_whole_iff⟩

theorem bytes_whole_of_four :
    Copies (.granting .unwind) ⟨.block 0, 4, 4⟩ [1, 2, 3, 4]
      (.start (.having "c" .returning .fourBytes)) :=
  ((bytes_whole_iff (.granting .unwind) (.start (.having "c" .returning .fourBytes))).2.1
    ⟨.block 0, 4, 4⟩ [1, 2, 3, 4] rfl rfl fun _ => ⟨by decide, rfl⟩).mpr (by decide)

theorem long_bytes_lost (hge : 2 ^ 31 ≤ data.length) (hle : data.length ≤ isizeMax) : ∃ b p',
    (fromBytes (.granting .unwind) data).run (.start .empty) = .ok b p' ∧
      ¬ RoundTrips data b p' := by
  have hne : data ≠ [] := by
    rintro rfl
    simp at hge
  have hr := @run_fromBytes (.granting .unwind) (.start .empty) data hne ⟨hle, rfl⟩
  exact ⟨_, _, hr, (roundTrips_iff (hle.trans_lt (by decide)) hr).not.mpr (not_lt.mpr hge)⟩

/-- Two gibibytes of zeros do not come back. -/
theorem two_gibibytes_lost : ∃ b p',
    (fromBytes (.granting .unwind) (List.replicate (2 ^ 31) 0)).run (.start .empty) = .ok b p' ∧
      ¬ RoundTrips (List.replicate (2 ^ 31) 0) b p' :=
  long_bytes_lost List.length_replicate.ge (List.length_replicate.trans_le (by decide))

end FfiBridge
