import Mathlib.Tactic

/-! # Rust strings, byte sequences and machine integers

A `String` carries the proof that its bytes are valid UTF-8, so it is what Rust calls
a `str`. Validation agrees with `str::from_utf8`, whose error text counts the valid
prefix. The integer conversions are those of cgo with a 64-bit `size_t` and a 32-bit
`int`.
-/
namespace FfiBridge

/-- `str::as_bytes`. -/
def asBytes (s : String) : List UInt8 := s.toByteArray.data.toList

@[simp] theorem length_asBytes (s : String) : (asBytes s).length = s.utf8ByteSize := rfl

theorem asBytes_inj {s t : String} : asBytes s = asBytes t ↔ s = t := by
  constructor
  · intro h
    apply String.toByteArray_inj.mp
    exact ByteArray.ext (Array.toList_inj.mp h)
  · rintro rfl
    rfl

@[simp] theorem asBytes_eq_nil {s : String} : asBytes s = [] ↔ s = "" := by
  rw [← List.length_eq_zero_iff, length_asBytes, String.utf8ByteSize_eq_zero_iff]

/-! ## Validation -/

/-- `core::str::Utf8Error`: the length of the valid prefix, and of the invalid sequence
after it unless the input ends inside a character. -/
structure Utf8Error where
  validUpTo : ℕ
  errorLen : Option ℕ
  deriving DecidableEq, Repr

/-- `impl Display for Utf8Error`. -/
def Utf8Error.toString (e : Utf8Error) : String :=
  match e.errorLen with
  | some n => s!"invalid utf-8 sequence of {n} bytes from index {e.validUpTo}"
  | none => s!"incomplete utf-8 byte sequence from index {e.validUpTo}"

/-- `core::str::utf8_char_width`. -/
def utf8CharWidth (b : UInt8) : ℕ :=
  if b < 0x80 then 1
  else if b < 0xC2 then 0
  else if b < 0xE0 then 2
  else if b < 0xF0 then 3
  else if b < 0xF5 then 4
  else 0

def isContinuation (b : UInt8) : Bool := 0x80 ≤ b && b ≤ 0xBF

/-- The second bytes `run_utf8_validation` admits after the first byte of a character. -/
def admitsSecond (b c : UInt8) : Bool :=
  if b = 0xE0 then 0xA0 ≤ c && c ≤ 0xBF
  else if b = 0xED then 0x80 ≤ c && c ≤ 0x9F
  else if b = 0xF0 then 0x90 ≤ c && c ≤ 0xBF
  else if b = 0xF4 then 0x80 ≤ c && c ≤ 0x8F
  else isContinuation c

/-- `want` further continuation bytes, the `seen` bytes before them being fine. -/
def continuations : (want seen : ℕ) → List UInt8 → Except (Option ℕ) ℕ
  | 0, seen, _ => .ok seen
  | _ + 1, _, [] => .error none
  | want + 1, seen, c :: rest =>
    if isContinuation c then continuations want (seen + 1) rest else .error (some seen)

/-- The width of the character that starts with `b`, or what is wrong with it. -/
def leadingChar (b : UInt8) (rest : List UInt8) : Except (Option ℕ) ℕ :=
  match utf8CharWidth b, rest with
  | 0, _ => .error (some 1)
  | 1, _ => .ok 1
  | _ + 2, [] => .error none
  | w + 2, c :: rest => if admitsSecond b c then continuations w 2 rest else .error (some 1)

/-- `run_utf8_validation`, from index `i` with `skip` bytes of the current character left. -/
def validate : (i skip : ℕ) → List UInt8 → Option Utf8Error
  | _, _, [] => none
  | i, skip + 1, _ :: rest => validate (i + 1) skip rest
  | i, 0, b :: rest =>
    match leadingChar b rest with
    | .ok w => validate (i + 1) (w - 1) rest
    | .error e => some ⟨i, e⟩

/-- `str::from_utf8`. -/
def fromUtf8 (bytes : List UInt8) : Except Utf8Error String :=
  match String.fromUTF8? ⟨bytes.toArray⟩ with
  | some s => .ok s
  | none => .error ((validate 0 0 bytes).getD ⟨0, none⟩)

theorem fromUtf8_eq_ok {bytes : List UInt8} {s : String} :
    fromUtf8 bytes = .ok s ↔ asBytes s = bytes := by
  unfold fromUtf8 String.fromUTF8?
  split_ifs with hv
  · simp only [Except.ok.injEq]
    constructor
    · rintro rfl
      rfl
    · rintro rfl
      exact String.toByteArray_inj.mp rfl
  · rw [iff_comm, iff_false_right (by simp)]
    rintro rfl
    exact hv s.isValidUTF8

@[simp] theorem fromUtf8_asBytes (s : String) : fromUtf8 (asBytes s) = .ok s :=
  fromUtf8_eq_ok.mpr rfl

/-! ## Integer conversions -/

/-- `C.size_t(n)` of a Go `int`. -/
def C.size_t (n : ℤ) : ℕ := (n % 2 ^ 64).toNat

/-- `C.int(n)` of a `size_t`: the low 32 bits in two's complement. -/
def C.int (n : ℕ) : ℤ := Int.bmod n (2 ^ 32)

/-- `int(n)` of a `size_t`. -/
def goInt (n : ℕ) : ℤ := Int.bmod n (2 ^ 64)

theorem C.size_t_natCast {n : ℕ} (hn : n < 2 ^ 64) : C.size_t n = n := by
  unfold C.size_t
  omega

theorem C.int_of_lt {n : ℕ} (hn : n < 2 ^ 31) : C.int n = n := by
  unfold C.int
  rw [Int.bmod_def]
  omega

theorem C.int_lt (n : ℕ) : C.int n < 2 ^ 31 := by
  unfold C.int
  rw [Int.bmod_def]
  omega

theorem C.int_le (n : ℕ) : C.int n ≤ n := by
  unfold C.int
  rw [Int.bmod_def]
  omega

/-- From `2 ^ 31` on, a length comes out negative or too short. -/
theorem C.int_of_le {n : ℕ} (hn : 2 ^ 31 ≤ n) : C.int n < n :=
  (C.int_lt n).trans_le (by exact_mod_cast hn)

theorem goInt_of_lt {n : ℕ} (hn : n < 2 ^ 63) : goInt n = n := by
  unfold goInt
  rw [Int.bmod_def]
  omega

end FfiBridge
