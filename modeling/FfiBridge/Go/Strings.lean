import FfiBridge.Go.Memory

/-! # Strings across the boundary

`as_str` does not check its bytes and `dealloc` derives a layout from `len`, so both rest on
the encoders. There are three of them, and the messages of errors; all come down to one:
valid UTF-8 is stored in an allocation of exactly its length, the empty string and anything
else is null.
-/
namespace FfiBridge
open Foundation

variable {rt : Runtime} {str : FfiString} {s : String} {h h' : Heap} {b : List UInt8}

namespace FfiString

/-- `str` holds the text `s`: null exactly when empty, and otherwise the owner of an
allocation of exactly its bytes. -/
structure Holds (str : FfiString) (s : String) (h : Heap) : Prop where
  len : str.len = s.utf8ByteSize
  null_iff : str.data = .null ↔ str.len = 0
  block : str.len ≠ 0 → ∃ id blk, str.data = .block id ∧ h.live.lookup id = some blk ∧
    blk.layout.size = str.len ∧ blk.init = asBytes s

theorem holds_null (h : Heap) : null.Holds "" h := ⟨rfl, by simp [null], fun hn => absurd rfl hn⟩

theorem holds_store (hne : s ≠ "") (hle : s.utf8ByteSize ≤ isizeMax) :
    Holds ⟨.block h.next, s.utf8ByteSize⟩ s (h.store ⟨⟨s.utf8ByteSize, hle⟩, asBytes s, le_rfl⟩) where
  len := rfl
  null_iff := by simpa using hne
  block _ := ⟨h.next, _, rfl, Arena.lookup_acquire_next _ _, rfl, rfl⟩

/-- What `as_str` does not check: the bytes are those of a string. -/
theorem Holds.run_asStr (hs : str.Holds s h) : str.asStr.run h = .ok (asBytes s) h := by
  by_cases hz : str.len = 0
  · have he : s = "" := String.utf8ByteSize_eq_zero_iff.mp (hs.len.symm.trans hz)
    simp only [asStr, hz, readBytes_zero, he]
    rfl
  · obtain ⟨id, blk, hd, hl, -, hi⟩ := hs.block hz
    have hlen : blk.init.length = str.len := by rw [hi, length_asBytes, hs.len]
    unfold asStr
    rw [hd, run_readBytes_block hl hlen.ge, List.take_of_length_le hlen.le, hi]

/-- What `dealloc` does not check: the allocation has the size it derives from `len`. -/
theorem Holds.run_dealloc (hs : str.Holds s h) :
    str.dealloc.run h = .ok () (h.dropAll str.owns) := by
  refine run_deallocBytes ?_
  by_cases hz : str.len = 0
  · exact .inl hz
  · obtain ⟨id, blk, hd, hl, hsize, -⟩ := hs.block hz
    exact .inr ⟨id, blk, hd, hl, hsize⟩

theorem Holds.eq_null_iff (hs : str.Holds s h) : str = null ↔ s = "" := by
  rw [← String.utf8ByteSize_eq_zero_iff, ← hs.len]
  constructor
  · rintro rfl
    rfl
  · intro hz
    have hd := hs.null_iff.mpr hz
    cases str
    cases hd
    cases hz
    rfl

end FfiString

/-! ## What an encoder does -/

variable {σ : Type} [Component σ Heap]

variable (rt) in
/-- In the state `st`, the encoder `m` makes the string of `s`: it returns when its request is
served, and what it returns holds `s` and is its own. -/
structure Encodes (m : Program σ FfiString) (s : String) (st : σ) : Prop where
  returns : (s ≠ "" → rt.Serves (Component.get st) s.utf8ByteSize) → ∃ str st', m.run st = .ok str st'
  holds : ∀ str st', m.run st = .ok str st' → str.Holds s (Component.get st') ∧
    Arena.Exchange (Component.get st : Heap).toArena [] (Component.get st' : Heap).toArena str.owns

variable (rt) in
/-- An encoder of bytes makes their string, or the null string when they are not UTF-8. -/
def EncodesBytes (m : Program σ FfiString) (b : List UInt8) (st : σ) : Prop :=
  match fromUtf8 b with
  | .ok s => Encodes rt m s st
  | .error _ => m.run st = .ok .null st

theorem encodesBytes_of_valid {m : Program σ FfiString} {st : σ} (hs : fromUtf8 b = .ok s)
    (hm : Encodes rt m s st) : EncodesBytes rt m b st := by
  unfold EncodesBytes
  rwa [hs]

theorem encodesBytes_of_invalid {m : Program σ FfiString} {st : σ} {e : Utf8Error}
    (he : fromUtf8 b = .error e) (hm : m.run st = .ok .null st) : EncodesBytes rt m b st := by
  unfold EncodesBytes
  rwa [he]

/-- For bytes there are, the null string is the sign of failure. -/
theorem EncodesBytes.eq_null_iff {m : Program σ FfiString} {st st' : σ}
    (hm : EncodesBytes rt m b st) (hb : b ≠ []) (hr : m.run st = .ok str st') :
    str = .null ↔ ¬ ∃ s, fromUtf8 b = .ok s := by
  unfold EncodesBytes at hm
  cases hs : fromUtf8 b with
  | ok s =>
    rw [hs] at hm
    have hne : s ≠ "" := fun he => hb (by rw [← fromUtf8_eq_ok.mp hs, he]; rfl)
    rw [(hm.holds str st' hr).1.eq_null_iff]
    simp [hne]
  | error e =>
    rw [hs] at hm
    cases hm.symm.trans hr
    simp

/-- A program of the component encodes in the larger state. -/
theorem Encodes.within {m : Rust FfiString} {st : σ} (hm : Encodes rt m s (Component.get st : Heap)) :
    Encodes rt (within m : Program σ FfiString) s st where
  returns hs := by
    obtain ⟨str, h', hr⟩ := hm.returns hs
    exact ⟨str, _, within_of_ok hr⟩
  holds str st' hr := by
    obtain ⟨h', hr', rfl⟩ := within_eq_ok.mp hr
    rw [Component.get_put]
    exact hm.holds str h' hr'

/-! ## The encoders of Rust -/

theorem new_encodes (s : String) (h : Heap) : Encodes rt (FfiString.new rt s) s h := by
  by_cases hne : s = ""
  · subst hne
    refine ⟨fun _ => ⟨_, _, rfl⟩, fun str h' hr => ?_⟩
    cases hr
    exact ⟨FfiString.holds_null h, .refl _⟩
  refine ⟨fun hs => ⟨_, _, FfiString.run_new_served hne (hs hne)⟩, fun str h' hr => ?_⟩
  by_cases hs : rt.Serves h s.utf8ByteSize
  · cases (FfiString.run_new_served hne hs).symm.trans hr
    exact ⟨FfiString.holds_store hne hs.le,
      Ptr.exchange_store (String.utf8ByteSize_eq_zero_iff.not.mpr hne)⟩
  · obtain ⟨p, h₁, he, -⟩ := FfiString.run_new_unserved hne hs
    cases he.symm.trans hr

/-- The message of an error result is made by the same encoder. -/
theorem err_encodes (e : FfiError) (h : Heap) :
    Encodes rt (do return (← FfiResult.err rt e).errorMessage) e.message h := by
  have hm : (do return (← FfiResult.err rt e).errorMessage : Rust FfiString) =
      FfiString.new rt e.message := by
    unfold FfiResult.err
    rw [bind_assoc]
    exact bind_pure _
  rw [hm]
  exact new_encodes e.message h

/-- The pointer is valid for the bytes, whatever comes after them. -/
def ValidFor (ptr : Option (List UInt8)) (b : List UInt8) : Prop :=
  match ptr with
  | none => b = []
  | some memory => b <+: memory

theorem ffiStringAlloc_empty (ptr : Option (List UInt8)) : ffiStringAlloc rt ptr 0 = pure .null := by
  cases ptr <;> rfl

/-- `ffi_string_alloc` looks at no byte but those counted. -/
theorem ffiStringAlloc_of_valid {ptr : Option (List UInt8)} (hv : ValidFor ptr b)
    (hs : fromUtf8 b = .ok s) : ffiStringAlloc rt ptr b.length = FfiString.new rt s := by
  by_cases hz : b = []
  · subst hz
    obtain rfl : s = "" := asBytes_eq_nil.mp (fromUtf8_eq_ok.mp hs)
    exact ffiStringAlloc_empty ptr
  cases ptr with
  | none => exact absurd hv hz
  | some memory =>
    obtain ⟨rest, rfl⟩ : b <+: memory := hv
    unfold ffiStringAlloc
    simp only [List.length_eq_zero_iff, hz, if_false, List.take_left, hs]

theorem ffiStringAlloc_of_invalid {ptr : Option (List UInt8)} {e : Utf8Error} (hv : ValidFor ptr b)
    (he : fromUtf8 b = .error e) : ffiStringAlloc rt ptr b.length = pure .null := by
  by_cases hz : b = []
  · subst hz
    exact ffiStringAlloc_empty ptr
  cases ptr with
  | none => exact absurd hv hz
  | some memory =>
    obtain ⟨rest, rfl⟩ : b <+: memory := hv
    unfold ffiStringAlloc
    simp only [List.length_eq_zero_iff, hz, if_false, List.take_left, he]

theorem ffiStringAlloc_encodes {ptr : Option (List UInt8)} (hv : ValidFor ptr b) (h : Heap) :
    EncodesBytes rt (ffiStringAlloc rt ptr b.length) b h := by
  cases hs : fromUtf8 b with
  | ok s =>
    rw [ffiStringAlloc_of_valid hv hs]
    exact encodesBytes_of_valid hs (new_encodes s h)
  | error e =>
    rw [ffiStringAlloc_of_invalid hv hs]
    exact encodesBytes_of_invalid hs rfl

/-! ## The encoder of Go -/

/-- The counted length crosses, not the one up to the NUL. -/
theorem allocFfiString_eq (hlen : b.length < 2 ^ 63) :
    allocFfiString rt b = within (ffiStringAlloc rt (some (C.CString b)) b.length) := by
  unfold allocFfiString
  split_ifs with hz
  · subst hz
    rw [List.length_nil, ffiStringAlloc_empty, within_pure]
  · rw [C.size_t_natCast (by omega)]

theorem allocFfiString_encodes (hlen : b.length < 2 ^ 63) (p : Process) :
    EncodesBytes rt (allocFfiString rt b) b p := by
  have hv : ValidFor (some (C.CString b)) b := List.prefix_append b [0]
  rw [allocFfiString_eq hlen]
  cases hs : fromUtf8 b with
  | ok s =>
    rw [ffiStringAlloc_of_valid hv hs]
    exact encodesBytes_of_valid hs (new_encodes s p.heap).within
  | error e =>
    rw [ffiStringAlloc_of_invalid hv hs, within_pure]
    exact encodesBytes_of_invalid hs rfl

/-! ## All of them -/

/-- Every string that crosses holds exactly its text, which is what reading and freeing it
rely on; bytes that are no text cross as the null string. -/
theorem strings_cross_exactly (rt : Runtime) (h : Heap) (p : Process) :
    (∀ s, Encodes rt (FfiString.new rt s) s h) ∧
    (∀ e, Encodes rt (do return (← FfiResult.err rt e).errorMessage) (FfiError.message e) h) ∧
    (∀ ptr b, ValidFor ptr b → EncodesBytes rt (ffiStringAlloc rt ptr b.length) b h) ∧
    (∀ b, b.length < 2 ^ 63 → EncodesBytes rt (allocFfiString rt b) b p ∧
      ∀ str q, b ≠ [] → (allocFfiString rt b).run p = .ok str q →
        (str = .null ↔ ¬ ∃ s, fromUtf8 b = .ok s)) ∧
    ∀ str s h', FfiString.Holds str s h' → str.asStr.run h' = .ok (asBytes s) h' ∧
      str.dealloc.run h' = .ok () (h'.dropAll str.owns) := by
  refine ⟨fun s => new_encodes s h, fun e => err_encodes e h,
    fun ptr b hv => ffiStringAlloc_encodes hv h, fun b hlen => ?_,
    fun str s h' hs => ⟨hs.run_asStr, hs.run_dealloc⟩⟩
  have hm := @allocFfiString_encodes rt b hlen p
  exact ⟨hm, fun str q hb hr => hm.eq_null_iff hb hr⟩

/-- A Go string with a NUL inside, and one that is not UTF-8. -/
theorem strings_cross_exactly_nul :
    Encodes (.granting .unwind) (allocFfiString (.granting .unwind) [104, 0, 105]) "h\x00i"
      (.start .empty) ∧
    (allocFfiString (.granting .unwind) [104, 255]).run (.start .empty) =
      .ok .null (.start .empty) := by
  have hcross := (strings_cross_exactly (.granting .unwind) .empty (.start .empty)).2.2.2.1
  have hnul := (hcross [104, 0, 105] (by decide)).1
  have hinvalid := (hcross [104, 255] (by decide)).1
  exact ⟨hnul, hinvalid⟩

end FfiBridge
