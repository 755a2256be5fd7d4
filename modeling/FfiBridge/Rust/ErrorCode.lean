import FfiBridge.Machine.Text

/-! # The error taxonomy of `errors.rs`

The numeric codes of the C header, the rich Rust error, and the two maps from the
latter: its code and its text.
-/
namespace FfiBridge

/-- `FfiErrorCode`, `repr(i32)`. -/
inductive FfiErrorCode where
  | ok
  | nullPointer
  | bufferTooSmall
  | invalidUtf8
  | serialization
  | panic
  | timeout
  | notFound
  | lockPoisoned
  | unknown
  deriving DecidableEq, Repr

namespace FfiErrorCode

/-- The discriminant, which is also the value in `ffi.h` and the Go `ErrorCode`. -/
def toInt : FfiErrorCode → ℤ
  | .ok => 0
  | .nullPointer => 1
  | .bufferTooSmall => 2
  | .invalidUtf8 => 3
  | .serialization => 4
  | .panic => 5
  | .timeout => 6
  | .notFound => 7
  | .lockPoisoned => 8
  | .unknown => 99

/-- `derive(Debug)`: the variant's name. -/
def debug : FfiErrorCode → String
  | .ok => "Ok"
  | .nullPointer => "NullPointer"
  | .bufferTooSmall => "BufferTooSmall"
  | .invalidUtf8 => "InvalidUtf8"
  | .serialization => "Serialization"
  | .panic => "Panic"
  | .timeout => "Timeout"
  | .notFound => "NotFound"
  | .lockPoisoned => "LockPoisoned"
  | .unknown => "Unknown"

theorem toInt_injective : Function.Injective toInt := by
  intro a b h
  cases a <;> cases b <;> first | rfl | exact absurd h (by decide)

theorem toInt_eq_zero {c : FfiErrorCode} : c.toInt = 0 ↔ c = .ok :=
  ⟨fun h => toInt_injective (h.trans rfl), fun h => h ▸ rfl⟩

/-- The discriminant as it crosses the boundary. -/
def bits (c : FfiErrorCode) : Int32 := Int32.ofInt c.toInt

/-- The code with the discriminant `bits`, if there is one. -/
def ofBits? (bits : Int32) : Option FfiErrorCode :=
  match bits.toInt with
  | 0 => some .ok
  | 1 => some .nullPointer
  | 2 => some .bufferTooSmall
  | 3 => some .invalidUtf8
  | 4 => some .serialization
  | 5 => some .panic
  | 6 => some .timeout
  | 7 => some .notFound
  | 8 => some .lockPoisoned
  | 99 => some .unknown
  | _ => none

theorem ofBits?_bits (c : FfiErrorCode) : ofBits? c.bits = some c := by cases c <;> rfl

theorem bits_eq_zero {c : FfiErrorCode} : c.bits = 0 ↔ c = .ok := by cases c <;> decide

theorem ofBits?_eq_some {bits : Int32} {c : FfiErrorCode} :
    ofBits? bits = some c ↔ bits = c.bits := by
  constructor
  · intro h
    apply Int32.toInt_inj.mp
    unfold ofBits? at h
    split at h
    case h_11 => cases h
    all_goals
      cases h
      rename_i hb
      exact hb
  · rintro rfl
    exact ofBits?_bits c

end FfiErrorCode

/-- `FfiError`. -/
inductive FfiError where
  | nullPointer
  | bufferTooSmall (needed available : ℕ)
  | invalidUtf8 (ctx : String)
  | serialization (detail : String)
  | panic (msg : String)
  | timeout
  | notFound (name : String)
  | lockPoisoned
  | unknown (detail : String)
  deriving DecidableEq, Repr

namespace FfiError

/-- `FfiError::code`. -/
def code : FfiError → FfiErrorCode
  | .nullPointer => .nullPointer
  | .bufferTooSmall .. => .bufferTooSmall
  | .invalidUtf8 _ => .invalidUtf8
  | .serialization _ => .serialization
  | .panic _ => .panic
  | .timeout => .timeout
  | .notFound _ => .notFound
  | .lockPoisoned => .lockPoisoned
  | .unknown _ => .unknown

/-- `FfiError::message`. -/
def message : FfiError → String
  | .nullPointer => "null pointer received"
  | .bufferTooSmall needed available =>
    s!"buffer too small: need {needed} bytes, have {available}"
  | .invalidUtf8 ctx => s!"invalid UTF-8 in {ctx}"
  | .serialization detail => s!"serialization error: {detail}"
  | .panic msg => s!"panic caught at FFI boundary: {msg}"
  | .timeout => "operation timed out"
  | .notFound name => s!"not found: {name}"
  | .lockPoisoned => "mutex lock is poisoned"
  | .unknown detail => s!"unknown error: {detail}"

theorem code_ne_ok (e : FfiError) : e.code ≠ .ok := by
  cases e <;> simp [code]

theorem code_eq_unknown {e : FfiError} : e.code = .unknown ↔ ∃ detail, e = .unknown detail := by
  cases e <;> simp [code]

private theorem append_ne_empty {a : String} (ha : a ≠ "") (b : String) : a ++ b ≠ "" := by
  rw [Ne, ← String.utf8ByteSize_eq_zero_iff] at *
  rw [String.utf8ByteSize_append]
  omega

theorem message_ne_empty (e : FfiError) : e.message ≠ "" := by
  cases e with
  | nullPointer => decide
  | timeout => decide
  | lockPoisoned => decide
  | bufferTooSmall needed available =>
    repeat' apply append_ne_empty
    decide
  | _ detail =>
    repeat' apply append_ne_empty
    decide

end FfiError

end FfiBridge
