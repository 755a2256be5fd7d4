import FfiBridge.Machine.Text

/-! # Validation accepts the encodings of strings

`run_utf8_validation` is a loop over bytes; a `String` is a list of characters and their
encodings. The two agree: validation finds nothing exactly in the bytes of a string, and the
error it reports starts where the longest string at the front of the input ends.
-/
namespace FfiBridge

variable {b : UInt8} {i want seen : ℕ} {tail rest bytes : List UInt8} {e : Utf8Error}

/-! ## Ranges of bytes -/

theorem utf8CharWidth_cases (b : UInt8) :
    utf8CharWidth b = 0 ∧ (0x80 ≤ b.toNat ∧ b.toNat < 0xC2 ∨ 0xF5 ≤ b.toNat) ∨
    utf8CharWidth b = 1 ∧ b.toNat < 0x80 ∨
    utf8CharWidth b = 2 ∧ 0xC2 ≤ b.toNat ∧ b.toNat < 0xE0 ∨
    utf8CharWidth b = 3 ∧ 0xE0 ≤ b.toNat ∧ b.toNat < 0xF0 ∨
    utf8CharWidth b = 4 ∧ 0xF0 ≤ b.toNat ∧ b.toNat < 0xF5 := by
  simp only [utf8CharWidth, UInt8.lt_iff_toNat_lt, UInt8.reduceToNat]
  split_ifs <;> omega

theorem isContinuation_iff : isContinuation b = true ↔ 0x80 ≤ b.toNat ∧ b.toNat ≤ 0xBF := by
  simp [isContinuation, UInt8.le_iff_toNat_le]

theorem admitsSecond_iff {c : UInt8} : admitsSecond b c = true ↔
    0x80 ≤ c.toNat ∧ c.toNat ≤ 0xBF ∧ (b.toNat = 0xE0 → 0xA0 ≤ c.toNat) ∧
      (b.toNat = 0xED → c.toNat ≤ 0x9F) ∧ (b.toNat = 0xF0 → 0x90 ≤ c.toNat) ∧
      (b.toNat = 0xF4 → c.toNat ≤ 0x8F) := by
  simp only [admitsSecond, ← UInt8.toNat_inj]
  split_ifs <;> simp_all [UInt8.le_iff_toNat_le, isContinuation] <;> omega

/-! ## One character -/

theorem continuations_append (ht : ∀ c ∈ tail, isContinuation c = true) :
    continuations tail.length seen (tail ++ rest) = .ok (seen + tail.length) := by
  induction tail generalizing seen with
  | nil => cases rest <;> rfl
  | cons c tail ih =>
    have hc : isContinuation c = true := ht c List.mem_cons_self
    rw [List.length_cons, List.cons_append, continuations, if_pos hc,
      ih fun d hd => ht d (List.mem_cons_of_mem c hd)]
    congr 1
    omega

theorem continuations_eq_ok {w : ℕ} (h : continuations want seen rest = .ok w) :
    ∃ tail rest', rest = tail ++ rest' ∧ tail.length = want ∧ w = seen + want ∧
      ∀ c ∈ tail, isContinuation c = true := by
  induction want generalizing seen rest with
  | zero =>
    have hw : seen = w := by
      cases rest <;> exact Except.ok.inj h
    exact ⟨[], rest, rfl, rfl, hw.symm, by simp⟩
  | succ want ih =>
    cases rest with
    | nil => cases h
    | cons c rest =>
      rw [continuations] at h
      split_ifs at h with hc
      obtain ⟨tail, rest', rfl, hlen, hw, ht⟩ := ih h
      refine ⟨c :: tail, rest', rfl, by simp [hlen], by omega, ?_⟩
      simpa [hc] using ht

/-- `b` and `tail` are the bytes of one character. -/
structure CharBytes (b : UInt8) (tail : List UInt8) : Prop where
  width : utf8CharWidth b = tail.length + 1
  second : ∀ c ∈ tail.head?, admitsSecond b c = true
  more : ∀ d ∈ tail.tail, isContinuation d = true

theorem CharBytes.leadingChar_append (hb : CharBytes b tail) :
    leadingChar b (tail ++ rest) = .ok (tail.length + 1) := by
  have hw := hb.width
  unfold leadingChar
  cases tail with
  | nil =>
    rw [hw]
    rfl
  | cons c tail =>
    have hc : admitsSecond b c = true := hb.second c rfl
    have hmore : continuations tail.length 2 (tail ++ rest) = .ok (2 + tail.length) :=
      continuations_append hb.more
    rw [hw]
    simp only [List.length_cons, List.cons_append, if_pos hc]
    rw [hmore]
    congr 1
    omega

theorem leadingChar_eq_ok {w : ℕ} (h : leadingChar b rest = .ok w) :
    ∃ tail rest', rest = tail ++ rest' ∧ CharBytes b tail := by
  unfold leadingChar at h
  split at h
  · cases h
  · rename_i hw
    exact ⟨[], _, rfl, hw, by simp, by simp⟩
  · cases h
  · rename_i w' c rest hw
    split_ifs at h with hc
    obtain ⟨tail, rest', rfl, hlen, -, ht⟩ := continuations_eq_ok h
    refine ⟨c :: tail, rest', rfl, ?_, ?_, ht⟩
    · rw [hw, List.length_cons, hlen]
    · simpa using hc

theorem CharBytes.of_encode {c : Char} (hc : String.utf8EncodeChar c = b :: tail) :
    CharBytes b tail := by
  have hv : c.val.toNat < 0xD800 ∨ 0xDFFF < c.val.toNat ∧ c.val.toNat < 0x110000 := c.valid
  have hb := utf8CharWidth_cases b
  unfold String.utf8EncodeChar at hc
  simp only at hc
  generalize c.val.toNat = v at hc hv
  split_ifs at hc <;> cases hc <;> simp only [UInt8.toNat_ofNat'] at hb
  · exact ⟨by simp only [List.length_nil]; omega, by simp, by simp⟩
  · refine ⟨by simp only [List.length_cons, List.length_nil]; omega, ?_, by simp⟩
    simp [admitsSecond_iff]
    omega
  · refine ⟨by simp only [List.length_cons, List.length_nil]; omega, ?_, ?_⟩
    · simp [admitsSecond_iff]
      omega
    · simp [isContinuation_iff]
      omega
  · refine ⟨by simp only [List.length_cons, List.length_nil]; omega, ?_, ?_⟩
    · simp [admitsSecond_iff]
      omega
    · simp [isContinuation_iff]
      omega

/-- A byte below 128 is a character of its own. -/
theorem val_of_mem_encode {c : Char} (hb : b.toNat < 0x80) (h : b ∈ String.utf8EncodeChar c) :
    c.val.toNat = b.toNat := by
  have hv : c.val.toNat < 0x110000 := by
    have := c.valid
    change c.val.toNat < 0xD800 ∨ 0xDFFF < c.val.toNat ∧ c.val.toNat < 0x110000 at this
    omega
  unfold String.utf8EncodeChar at h
  simp only at h
  generalize c.val.toNat = v at h hv
  split_ifs at h <;> simp only [List.mem_cons, List.not_mem_nil, or_false] at h <;>
    rcases h with rfl | rfl | rfl | rfl <;> simp only [UInt8.toNat_ofNat'] at hb ⊢ <;> omega

theorem exists_val_eq {v : ℕ} (hv : v.isValidChar) : ∃ c : Char, c.val.toNat = v :=
  ⟨Char.ofNatAux v hv, rfl⟩

theorem ofNat_eq_of_toNat {n : ℕ} (h : n = b.toNat) : UInt8.ofNat n = b := by
  rw [h, UInt8.ofNat_toNat]

/-- The character is put together from the bits its bytes carry: six in each after the first. -/
theorem CharBytes.exists_encode (hb : CharBytes b tail) :
    ∃ c : Char, String.utf8EncodeChar c = b :: tail := by
  have hw := hb.width
  have hcases := utf8CharWidth_cases b
  match tail with
  | [] =>
    simp only [List.length_nil] at hw
    have hlead : b.toNat < 0x80 := by omega
    clear hcases
    obtain ⟨ch, hv⟩ := exists_val_eq (v := b.toNat) (.inl (by omega))
    refine ⟨ch, ?_⟩
    unfold String.utf8EncodeChar
    simp only [hv]
    rw [if_pos (by omega), UInt8.ofNat_toNat]
  | [c] =>
    simp only [List.length_cons, List.length_nil] at hw
    have hlead : 0xC2 ≤ b.toNat ∧ b.toNat < 0xE0 := by omega
    clear hcases
    have hc := admitsSecond_iff.mp (hb.second c rfl)
    obtain ⟨ch, hv⟩ := exists_val_eq
      (v := (b.toNat - 0xC0) * 0x40 + (c.toNat - 0x80)) (.inl (by omega))
    refine ⟨ch, ?_⟩
    unfold String.utf8EncodeChar
    simp only [hv]
    rw [if_neg (by omega), if_pos (by omega), ofNat_eq_of_toNat (b := b) (by omega),
      ofNat_eq_of_toNat (b := c) (by omega)]
  | [c, d] =>
    simp only [List.length_cons, List.length_nil] at hw
    have hlead : 0xE0 ≤ b.toNat ∧ b.toNat < 0xF0 := by omega
    clear hcases
    have hc := admitsSecond_iff.mp (hb.second c rfl)
    have hd := isContinuation_iff.mp (hb.more d (by simp))
    obtain ⟨ch, hv⟩ := exists_val_eq
      (v := (b.toNat - 0xE0) * 0x1000 + (c.toNat - 0x80) * 0x40 + (d.toNat - 0x80)) (by
        unfold Nat.isValidChar
        omega)
    refine ⟨ch, ?_⟩
    unfold String.utf8EncodeChar
    simp only [hv]
    rw [if_neg (by omega), if_neg (by omega), if_pos (by omega),
      ofNat_eq_of_toNat (b := b) (by omega), ofNat_eq_of_toNat (b := c) (by omega),
      ofNat_eq_of_toNat (b := d) (by omega)]
  | [c, d, f] =>
    simp only [List.length_cons, List.length_nil] at hw
    have hlead : 0xF0 ≤ b.toNat ∧ b.toNat < 0xF5 := by omega
    clear hcases
    have hc := admitsSecond_iff.mp (hb.second c rfl)
    have hd := isContinuation_iff.mp (hb.more d (by simp))
    have hf := isContinuation_iff.mp (hb.more f (by simp))
    obtain ⟨ch, hv⟩ := exists_val_eq
      (v := (b.toNat - 0xF0) * 0x40000 + (c.toNat - 0x80) * 0x1000 + (d.toNat - 0x80) * 0x40 +
        (f.toNat - 0x80)) (by
        unfold Nat.isValidChar
        omega)
    refine ⟨ch, ?_⟩
    unfold String.utf8EncodeChar
    simp only [hv]
    rw [if_neg (by omega), if_neg (by omega), if_neg (by omega),
      ofNat_eq_of_toNat (b := b) (by omega), ofNat_eq_of_toNat (b := c) (by omega),
      ofNat_eq_of_toNat (b := d) (by omega), ofNat_eq_of_toNat (b := f) (by omega)]
  | _ :: _ :: _ :: _ :: _ =>
    simp only [List.length_cons] at hw
    omega

/-! ## The whole input -/

theorem asBytes_ofList (m : List Char) :
    asBytes (String.ofList m) = m.flatMap String.utf8EncodeChar := by
  unfold asBytes
  rw [String.toByteArray_ofList, List.utf8Encode, List.toList_data_toByteArray]

theorem exists_char_of_mem {s : String} (hb : b.toNat < 0x80) (h : b ∈ asBytes s) :
    ∃ c ∈ s.toList, c.val.toNat = b.toNat := by
  rw [← String.ofList_toList (s := s), asBytes_ofList] at h
  obtain ⟨c, hc, hm⟩ := List.mem_flatMap.mp h
  exact ⟨c, hc, val_of_mem_encode hb hm⟩

theorem validate_skip : validate i tail.length (tail ++ rest) = validate (i + tail.length) 0 rest := by
  induction tail generalizing i with
  | nil => rfl
  | cons c tail ih =>
    rw [List.length_cons, List.cons_append, validate, ih]
    congr 1
    omega

theorem CharBytes.validate_append (hb : CharBytes b tail) :
    validate i 0 (b :: tail ++ rest) = validate (i + (b :: tail).length) 0 rest := by
  rw [List.cons_append, validate, hb.leadingChar_append]
  simp only [Nat.add_sub_cancel]
  rw [validate_skip, List.length_cons]
  congr 1
  omega

theorem validate_encode (c : Char) : validate i 0 (String.utf8EncodeChar c ++ rest) =
    validate (i + (String.utf8EncodeChar c).length) 0 rest := by
  cases hc : String.utf8EncodeChar c with
  | nil => rfl
  | cons b tail => exact (CharBytes.of_encode hc).validate_append

/-- Validation passes over the bytes of a string. -/
theorem validate_asBytes_append (s : String) :
    validate i 0 (asBytes s ++ rest) = validate (i + s.utf8ByteSize) 0 rest := by
  rw [← length_asBytes, ← String.ofList_toList (s := s), asBytes_ofList]
  induction s.toList generalizing i with
  | nil => rfl
  | cons c m ih =>
    rw [List.flatMap_cons, List.append_assoc, validate_encode, ih, List.length_append, add_assoc]

/-- Every input starts with a string after which it ends or is wrong. -/
theorem exists_validPrefix (bytes : List UInt8) : ∃ s rest, bytes = asBytes s ++ rest ∧
    (rest = [] ∨ ∃ b tail e, rest = b :: tail ∧ leadingChar b tail = .error e) := by
  induction hn : bytes.length using Nat.strong_induction_on generalizing bytes with
  | _ n ih =>
    cases bytes with
    | nil => exact ⟨"", [], rfl, .inl rfl⟩
    | cons b bytes =>
      cases hc : leadingChar b bytes with
      | error e => exact ⟨"", b :: bytes, rfl, .inr ⟨b, bytes, e, rfl, hc⟩⟩
      | ok w =>
        obtain ⟨tail, rest, rfl, hb⟩ := leadingChar_eq_ok hc
        obtain ⟨c, henc⟩ := hb.exists_encode
        have hlt : rest.length < n := by
          simp only [List.length_cons, List.length_append] at hn
          omega
        obtain ⟨s, rest', rfl, hr⟩ := ih rest.length hlt rest rfl
        refine ⟨String.ofList (c :: s.toList), rest', ?_, hr⟩
        rw [asBytes_ofList, List.flatMap_cons, henc, ← asBytes_ofList, String.ofList_toList]
        simp

theorem validate_eq_none_iff : validate i 0 bytes = none ↔ ∃ s, asBytes s = bytes := by
  constructor
  · intro h
    obtain ⟨s, rest, rfl, rfl | ⟨b, tail, e, rfl, he⟩⟩ := exists_validPrefix bytes
    · exact ⟨s, (List.append_nil _).symm⟩
    · rw [validate_asBytes_append, validate, he] at h
      cases h
  · rintro ⟨s, rfl⟩
    rw [← List.append_nil (asBytes s), validate_asBytes_append, validate]

/-- What an error means: a string ends at the index, and what is there starts no character. -/
theorem validate_eq_some_iff : validate i 0 bytes = some e ↔ ∃ s b tail,
    bytes = asBytes s ++ b :: tail ∧ e.validUpTo = i + s.utf8ByteSize ∧
      leadingChar b tail = .error e.errorLen := by
  constructor
  · intro h
    obtain ⟨s, rest, rfl, rfl | ⟨b, tail, e', rfl, he⟩⟩ := exists_validPrefix bytes
    · rw [validate_asBytes_append, validate] at h
      cases h
    · rw [validate_asBytes_append, validate, he] at h
      cases h
      exact ⟨s, b, tail, rfl, rfl, he⟩
  · rintro ⟨s, b, tail, rfl, hi, he⟩
    rw [validate_asBytes_append, validate, he, ← hi]

/-- The decoder fails with what validation reports: its default is never used. -/
theorem fromUtf8_eq_error : fromUtf8 bytes = .error e ↔ validate 0 0 bytes = some e := by
  cases hs : fromUtf8 bytes with
  | ok s =>
    rw [validate_eq_none_iff.mpr ⟨s, fromUtf8_eq_ok.mp hs⟩]
    simp
  | error e' =>
    cases hv : validate 0 0 bytes with
    | none =>
      obtain ⟨s, rfl⟩ := validate_eq_none_iff.mp hv
      cases (fromUtf8_asBytes s).symm.trans hs
    | some e₀ =>
      unfold fromUtf8 at hs
      split at hs
      · cases hs
      · cases hs
        simp [hv]

end FfiBridge
