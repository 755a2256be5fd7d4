import FfiBridge.Ownership.Values

/-! # `ffi_echo` as an independent copy

The payload holds the bytes of the input in an allocation of its own. Input and result
share nothing, so each of them survives the free of the other.
-/
namespace FfiBridge
open Foundation

/-! ## Two values freed one after the other -/

/-- On `h`, `v` and then `w` are freed. In between `w` is as valid as before and reads the
same; at the end all they owned is given back, once, and every other allocation is kept. -/
structure FreedInTurn (v w : Value) (h h₁ h₂ : Heap) : Prop where
  first : v.free.run h = .ok () h₁
  represented : w.Represented h₁
  reads : ∀ b ∈ w.raws, ∀ bytes, b.asSlice.run h = .ok bytes h → b.asSlice.run h₁ = .ok bytes h₁
  second : w.free.run h₁ = .ok () h₂
  exchange : Arena.Exchange h.toArena (v.owns ++ w.owns) h₂.toArena []
  once : ∀ id ∈ v.owns ++ w.owns, h₂.released.count id = 1

/-- Values that share no allocation are freed in turn. -/
theorem freedInTurn_of_apart {v w : Value} {h : Heap} (hv : v.Owned h) (hw : w.Represented h)
    (hd : ∀ id ∈ v.owns, id ∉ w.owns) :
    FreedInTurn v w h (h.dropAll v.owns) (h.dropAll (v.owns ++ w.owns)) := by
  have hk : ∀ id ∈ w.owns, (h.dropAll v.owns).live.lookup id = h.live.lookup id :=
    fun id hid => Arena.lookup_releaseAll fun hv => hd id hv hid
  have hx : Arena.Exchange h.toArena (v.owns ++ w.owns) (h.dropAll (v.owns ++ w.owns)).toArena [] :=
    .releaseAll _ _
  have hw₁ := hw.congr hk
  refine ⟨Value.run_free hv, hw₁, fun b hb bytes hr => ?_, ?_, hx, fun id hid => ?_⟩
  · refine (hw.raw hb).run_congr (fun id hid => hk id ?_) hr
    exact (Value.owns_raws_sublist w).subset (List.mem_flatMap.mpr ⟨b, hb, hid⟩)
  · rw [Heap.dropAll_append]
    exact Value.run_free hw₁.owned
  · have hl : id ∈ h.live := (List.mem_append.mp hid).elim hv.mem_live hw.owned.mem_live
    exact hx.count_released hl hid List.not_mem_nil

/-! ## The copy -/

/-- From `h` to `h'`, `copy` was made: the bytes of `b` in an allocation of its own, if any,
with everything else as it was. -/
structure CopyMade (b copy : FfiBuffer) (h h' : Heap) : Prop where
  represented : copy.Represented h'
  bytes : ∃ bytes, bytes.length = b.len ∧ b.asSlice.run h = .ok bytes h ∧
    b.asSlice.run h' = .ok bytes h' ∧ copy.asSlice.run h' = .ok bytes h'
  fresh : ∀ id ∈ copy.owns, id ∉ h.live ∧ id ∉ h.released
  apart : ∀ id ∈ copy.owns, id ∉ b.owns
  live : ∀ id, id ∈ h'.live ↔ id ∈ h.live ∨ id ∈ copy.owns
  unchanged : ∀ id ∈ h.live, h'.live.lookup id = h.live.lookup id

variable {rt : Runtime} {input copy : FfiBuffer} {h h' : Heap}

/-- A buffer with the bytes of `input` that was handed out for nothing is a copy. -/
theorem copyMade_of_exchange {bytes : List UInt8} (hb : input.Represented h)
    (hlen : bytes.length = input.len) (hr : input.asSlice.run h = .ok bytes h)
    (hx : Arena.Exchange h.toArena [] h'.toArena copy.owns) (hc : copy.Represented h')
    (hcr : copy.asSlice.run h' = .ok bytes h') : CopyMade input copy h h' := by
  have hfresh : ∀ id ∈ copy.owns, id ∉ h.live := fun id hid hl =>
    List.not_mem_nil (hx.apart id hid hl)
  have hkept : ∀ id ∈ h.live, h'.live.lookup id = h.live.lookup id := fun id hl =>
    hx.kept id hl List.not_mem_nil
  refine ⟨hc, ⟨bytes, hlen, hr, ?_, hcr⟩, fun id hid => ⟨hfresh id hid, fun hrel => ?_⟩,
    fun id hid hi => hfresh id hid (hb.owned.mem_live hi), fun id => ?_, hkept⟩
  · exact hb.run_congr (fun id hid => hkept id (hb.owned.mem_live hid)) hr
  · exact absurd (hx.fresh hid) (Nat.not_le.mpr (Arena.lt_next_of_released hrel))
  · simpa using hx.live id

/-- Echoing makes one request, for exactly the bytes of the input. -/
theorem echoHandler_copies (hb : input.Represented h)
    (hs : input.len ≠ 0 → rt.Serves h input.len) :
    ∃ copy h', (echoHandler rt input).run h = .ok (.ok copy) h' ∧ CopyMade input copy h h' := by
  obtain ⟨bytes, hlen, hr⟩ : ∃ bytes, bytes.length = input.len ∧
    input.asSlice.run h = .ok bytes h := run_readBytes hb.readable
  have hserves : bytes ≠ [] → rt.Serves h bytes.length := fun hne =>
    hlen ▸ hs (hlen ▸ List.length_eq_zero_iff.not.mpr hne)
  obtain ⟨copy, h', hc⟩ := FfiBuffer.fromVec_toVec_returns hserves
  obtain ⟨hx, hcopy, -, hcr⟩ := (FfiBuffer.fromVec_toVec_trade bytes).ok copy h' hc
  obtain ⟨v, h₁, hv, hf⟩ := bind_eq_ok.mp hc
  refine ⟨copy, h', ?_, copyMade_of_exchange hb hlen hr hx hcopy hcr⟩
  exact (bind_of_ok hr _).trans ((bind_of_ok hv _).trans (bind_of_ok hf _))

/-- The copy and what was copied are freed in either order. -/
theorem CopyMade.freedInTurn (hm : CopyMade input copy h h') (hb : input.Represented h) :
    (∃ h₁ h₂, FreedInTurn (.buffer input) (.result (.ok copy)) h' h₁ h₂) ∧
      ∃ h₁ h₂, FreedInTurn (.result (.ok copy)) (.buffer input) h' h₁ h₂ := by
  have hi : (Value.buffer input).Represented h' :=
    Value.represented_buffer.mpr (hb.congr fun id hid => hm.unchanged id (hb.owned.mem_live hid))
  have ho : (Value.result (.ok copy)).Represented h' :=
    Value.represented_result (FfiResult.owned_ok hm.represented.owned) hm.represented.readable
  exact ⟨⟨_, _, freedInTurn_of_apart hi.owned ho fun id hid hc => hm.apart id hc hid⟩,
    ⟨_, _, freedInTurn_of_apart ho.owned hi hm.apart⟩⟩

/-- With its one request granted, `ffi_echo` returns an independent copy of its input. -/
theorem ffiEcho_copies (hb : input.Represented h)
    (hg : input.len ≠ 0 → rt.grants h.requests input.len = true) :
    ∃ payload h', (ffiEcho rt input).run h = .ok (.ok payload) h' ∧
      CopyMade input payload h h' ∧
      (∃ h₁ h₂, FreedInTurn (.buffer input) (.result (.ok payload)) h' h₁ h₂) ∧
      ∃ h₁ h₂, FreedInTurn (.result (.ok payload)) (.buffer input) h' h₁ h₂ := by
  have hle : input.len ≤ isizeMax := hb.owned.1.trans hb.owned.2.le_isizeMax
  obtain ⟨payload, h', hr, hm⟩ := echoHandler_copies hb fun hz => ⟨hle, hg hz⟩
  exact ⟨payload, h', run_catchPanic_ok hr, hm, hm.freedInTurn hb⟩

/-- Three bytes of a buffer of four. -/
theorem ffiEcho_copies_three : ∃ payload h',
    (ffiEcho (.granting .unwind) ⟨.block 0, 3, 4⟩).run .fourBytes = .ok (.ok payload) h' ∧
      CopyMade ⟨.block 0, 3, 4⟩ payload .fourBytes h' ∧
      (∃ h₁ h₂, FreedInTurn (.buffer ⟨.block 0, 3, 4⟩) (.result (.ok payload)) h' h₁ h₂) ∧
      ∃ h₁ h₂, FreedInTurn (.result (.ok payload)) (.buffer ⟨.block 0, 3, 4⟩) h' h₁ h₂ :=
  ffiEcho_copies ⟨FfiBuffer.owned_fourBytes (by decide),
    .inr ⟨0, _, rfl, Arena.lookup_acquire_next _ _, by decide⟩⟩ fun _ => rfl

end FfiBridge
