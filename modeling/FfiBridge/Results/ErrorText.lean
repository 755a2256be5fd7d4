import Mathlib
import FfiBridge.Foundation.PrefixCode
import FfiBridge.Go.TypedErrors
import FfiBridge.Machine.Utf8

/-! # The texts of errors

An error is printed three times: `message` is the text that crosses, `(*FfiError).Error`
puts the code's name in front of it, and `ffi_error_code_str` is the name in C. No two
errors share a text.
-/
namespace FfiBridge
open Foundation

/-! ## Names of codes -/

/-- `ErrorCode.String`. -/
def ErrorCode.string (c : ℤ) : String :=
  match c with
  | 0 => "ok"
  | 1 => "null_pointer"
  | 2 => "buffer_too_small"
  | 3 => "invalid_utf8"
  | 4 => "serialization"
  | 5 => "panic"
  | 6 => "timeout"
  | 7 => "not_found"
  | 8 => "lock_poisoned"
  | c => s!"error_{c}"

/-- `ffi_error_code_str` of `error_codes.h`, for any value a C enum can hold. -/
def ffiErrorCodeStr (code : Int32) : String :=
  match code.toInt with
  | 0 => "ok"
  | 1 => "null pointer"
  | 2 => "buffer too small"
  | 3 => "invalid utf-8"
  | 4 => "serialization error"
  | 5 => "panic at ffi boundary"
  | 6 => "timeout"
  | 7 => "not found"
  | 8 => "lock poisoned"
  | 99 => "unknown error"
  | _ => "unrecognized error code"

open FfiErrorCode in
theorem ffiErrorCodeStr_eq (code : Int32) : ffiErrorCodeStr code =
    (ofBits? code).elim "unrecognized error code" fun c => ffiErrorCodeStr c.bits := by
  cases h : ofBits? code with
  | some c => rw [ofBits?_eq_some.mp h, Option.elim_some]
  | none =>
    unfold ofBits? at h
    split at h <;> cases h
    unfold ffiErrorCodeStr
    split <;> first | rfl | exact absurd ‹_› ‹¬ _›

/-- The C text tells the codes apart, and says when there is none. -/
theorem ffiErrorCodeStr_eq_iff (a b : Int32) : ffiErrorCodeStr a = ffiErrorCodeStr b ↔
    FfiErrorCode.ofBits? a = FfiErrorCode.ofBits? b := by
  rw [ffiErrorCodeStr_eq a, ffiErrorCodeStr_eq b]
  cases FfiErrorCode.ofBits? a with
  | none =>
    cases FfiErrorCode.ofBits? b with
    | none => simp
    | some d => cases d <;> decide
  | some c =>
    cases FfiErrorCode.ofBits? b with
    | none => cases c <;> decide
    | some d => cases c <;> cases d <;> decide

namespace ErrorCode

variable {c d : ℤ}

theorem string_unnamed (h : c < 0 ∨ 8 < c) : string c = "error_" ++ toString c := by
  unfold string
  split <;> first | omega | rfl

theorem string_named_injective : ∀ a b : Fin 9, string a.val = string b.val → a = b := by decide

theorem string_named_ne (a : Fin 9) : (string a.val).toList.head? ≠ some 'e' := by
  revert a
  decide

theorem head_string_unnamed (h : c < 0 ∨ 8 < c) : (string c).toList.head? = some 'e' := by
  rw [string_unnamed h, String.toList_append]
  rfl

theorem eq_val_of_named (h : ¬ (c < 0 ∨ 8 < c)) : ∃ a : Fin 9, c = a.val := by
  refine ⟨⟨c.toNat, by omega⟩, ?_⟩
  simp only
  omega

/-- Different codes have different names, those without a constant included. -/
theorem string_injective : Function.Injective string := by
  intro c d h
  by_cases hc : c < 0 ∨ 8 < c <;> by_cases hd : d < 0 ∨ 8 < d
  · rw [string_unnamed hc, string_unnamed hd, String.append_right_inj] at h
    exact Int.repr_injective h
  · obtain ⟨b, rfl⟩ := eq_val_of_named hd
    exact absurd (h ▸ head_string_unnamed hc) (string_named_ne b)
  · obtain ⟨a, rfl⟩ := eq_val_of_named hc
    exact absurd (h ▸ head_string_unnamed hd) (string_named_ne a)
  · obtain ⟨a, rfl⟩ := eq_val_of_named hc
    obtain ⟨b, rfl⟩ := eq_val_of_named hd
    rw [string_named_injective a b h]

end ErrorCode

/-! ## Digits -/

theorem isDigit_of_mem_toString {n : ℕ} {x : Char} (h : x ∈ (toString n).toList) :
    x.isDigit = true := by
  change x ∈ n.repr.toList at h
  rw [Nat.toList_repr] at h
  exact Nat.isDigit_of_mem_toDigits (by norm_num) le_rfl h

theorem mem_toString_int {c : ℤ} {x : Char} (h : x ∈ (toString c).toList) :
    x = '-' ∨ x.isDigit = true := by
  cases c with
  | ofNat n => exact .inr (isDigit_of_mem_toString h)
  | negSucc n =>
    change x ∈ ("-" ++ n.succ.repr).toList at h
    rw [String.toList_append, List.mem_append] at h
    rcases h with h | h
    · exact .inl (by simpa using h)
    · exact .inr (isDigit_of_mem_toString h)

theorem ErrorCode.bracket_notMem_string (c : ℤ) : ']' ∉ (ErrorCode.string c).toList := by
  by_cases hc : c < 0 ∨ 8 < c
  · rw [string_unnamed hc, String.toList_append, List.mem_append]
    rintro (h | h)
    · revert h
      decide
    · rcases mem_toString_int h with h | h
      · exact absurd h (by decide)
      · exact absurd h (by decide)
  · obtain ⟨a, rfl⟩ := eq_val_of_named hc
    revert a
    decide

/-! ## Messages -/

namespace FfiError

/-- What the message starts with, whatever the error is about. -/
def opening : FfiError → String
  | .nullPointer => "null pointer received"
  | .bufferTooSmall .. => "buffer too small: need "
  | .invalidUtf8 _ => "invalid UTF-8 in "
  | .serialization _ => "serialization error: "
  | .panic _ => "panic caught at FFI boundary: "
  | .timeout => "operation timed out"
  | .notFound _ => "not found: "
  | .lockPoisoned => "mutex lock is poisoned"
  | .unknown _ => "unknown error: "

/-- What the message says after its opening. -/
def detail : FfiError → String
  | .bufferTooSmall needed available => toString needed ++ (" bytes, have " ++ toString available)
  | .invalidUtf8 text | .serialization text | .panic text | .notFound text | .unknown text => text
  | _ => ""

theorem message_eq (e : FfiError) : e.message = e.opening ++ e.detail := by
  cases e with
  | nullPointer => exact String.append_empty.symm
  | timeout => exact String.append_empty.symm
  | lockPoisoned => exact String.append_empty.symm
  | bufferTooSmall needed available =>
    change "buffer too small: need " ++ toString needed ++ " bytes, have " ++ toString available =
      "buffer too small: need " ++ (toString needed ++ (" bytes, have " ++ toString available))
    rw [String.append_assoc, String.append_assoc]
  | _ text => rfl

/-- The openings of the nine kinds. -/
def openings : List (FfiErrorCode × String) :=
  [FfiError.nullPointer, .bufferTooSmall 0 0, .invalidUtf8 "", .serialization "", .panic "",
    .timeout, .notFound "", .lockPoisoned, .unknown ""].map fun e => (e.code, e.opening)

theorem opening_mem (e : FfiError) : (e.code, e.opening) ∈ openings := by
  cases e <;> simp [openings, code, opening]

theorem openings_apart : ∀ o ∈ openings, ∀ o' ∈ openings,
    o.2.toList <+: o'.2.toList → o = o' := by decide

theorem prefixCode_opening : PrefixCode (Set.range fun e : FfiError => e.opening.toList) := by
  rintro _ ⟨e, rfl⟩ _ ⟨e', rfl⟩ hne hp
  have h := openings_apart _ (opening_mem e) _ (opening_mem e') hp
  exact hne (congrArg String.toList (congrArg Prod.snd h))

theorem code_eq_of_opening {e e' : FfiError} (h : e.opening = e'.opening) : e.code = e'.code := by
  have h' := openings_apart _ (opening_mem e) _ (opening_mem e') (h ▸ List.prefix_refl _)
  exact congrArg Prod.fst h'

theorem space_notMem_digits (n : ℕ) : ' ' ∉ (toString n).toList :=
  fun h => absurd (isDigit_of_mem_toString h) (by decide)

theorem sizes_injective {n n' k k' : ℕ} (h : toString n ++ (" bytes, have " ++ toString k) =
    toString n' ++ (" bytes, have " ++ toString k')) : n = n' ∧ k = k' := by
  have ht := congrArg String.toList h
  simp only [String.toList_append] at ht
  obtain ⟨hn, hk⟩ := (closed_append_inj (space_notMem_digits n) (space_notMem_digits n')).mp ht
  have hk' := List.append_cancel_left hk
  exact ⟨Nat.repr_injective (String.toList_injective hn),
    Nat.repr_injective (String.toList_injective hk')⟩

/-- Two errors never have the same message. -/
theorem message_injective : Function.Injective message := by
  intro e e' h
  rw [message_eq, message_eq] at h
  have ht := congrArg String.toList h
  rw [String.toList_append, String.toList_append] at ht
  obtain ⟨ho, hd⟩ := (prefixCode_opening.append_inj ⟨e, rfl⟩ ⟨e', rfl⟩).mp ht
  have hc := code_eq_of_opening (String.toList_injective ho)
  have hd' := String.toList_injective hd
  cases e <;> cases e' <;> cases hc
  case bufferTooSmall.bufferTooSmall =>
    obtain ⟨rfl, rfl⟩ := sizes_injective hd'
    rfl
  all_goals first | rfl | exact congrArg _ hd'

end FfiError

/-! ## Go's text -/

/-- The text of `Error()`; for an `*FfiError` it is `(*FfiError).Error`. -/
def GoError.error : GoError → List UInt8
  | .ffiError code message =>
    asBytes "ffi error [" ++ asBytes (ErrorCode.string code) ++ asBytes "]: " ++ message
  | .text s => asBytes s
  | .wrapped context err => asBytes context ++ asBytes ": " ++ err.error

theorem ErrorCode.bracket_notMem_bytes (c : ℤ) : 93 ∉ asBytes (ErrorCode.string c) := by
  intro h
  obtain ⟨x, hx, hv⟩ := exists_char_of_mem (by decide) h
  have hbracket : x = ']' := Char.ext (UInt32.toNat_inj.mp hv)
  exact bracket_notMem_string c (hbracket ▸ hx)

/-- The text gives back the code and the message, whatever bytes the message has. -/
theorem GoError.error_ffiError_inj {c c' : ℤ} {m m' : List UInt8} :
    (GoError.ffiError c m).error = (GoError.ffiError c' m').error ↔ c = c' ∧ m = m' := by
  have hclose : ∀ (c : ℤ) m, (GoError.ffiError c m).error =
      asBytes "ffi error [" ++ (asBytes (ErrorCode.string c) ++ 93 :: (58 :: 32 :: m)) := by
    intro c m
    simp only [error, List.append_assoc]
    rfl
  rw [hclose, hclose, List.append_cancel_left_eq, closed_append_inj
    (ErrorCode.bracket_notMem_bytes c) (ErrorCode.bracket_notMem_bytes c'), asBytes_inj,
    ErrorCode.string_injective.eq_iff]
  simp

/-! ## Why an invocation fails -/

/-- The error the end of the callback `n` comes to, if any. -/
def callbackFailure (n : String) : EStateM.Result Stop Heap FfiResult → Option FfiError
  | .ok r _ => if r.isOk then none else some (.unknown (callbackErrorText n r.errorCode))
  | .error (.panic p) _ => some (.panic p.text)
  | .error _ _ => none

/-- The error of an invocation of `name`, if it does not succeed. -/
def Library.failure (l : Library) (name : Option (List UInt8)) (input : FfiBuffer) :
    Option FfiError :=
  match cstrToString name with
  | .error e => some e
  | .ok n =>
    if l.poisoned then some .lockPoisoned
    else match l.callbacks.lookup n with
      | none => some (.notFound n)
      | some cb => callbackFailure n ((cb.run input).run l.heap)

variable {rt : Runtime} {l l' : Library} {name : List UInt8} {input : FfiBuffer}
  {out : FfiResult} {n : String}

/-- An invocation that returns is a success, or the error `failure` says. -/
theorem invoke_failure {name : Option (List UInt8)}
    (hout : (ffiInvokeCallback rt name input).run l = .ok out l') :
    l.failure name input = none ∧ out.errorCode = .ok ∨
      ∃ e l₁, l.failure name input = some e ∧
        (within (FfiResult.err rt e) : Program Library FfiResult).run l₁ = .ok out l' := by
  unfold Library.failure
  cases hn : cstrToString name with
  | error e => exact .inr ⟨e, l, rfl, (run_invoke_invalid hn).symm.trans hout⟩
  | ok n =>
    cases hp : l.poisoned with
    | true => exact .inr ⟨_, l, rfl, (run_invoke_poisoned hn hp).symm.trans hout⟩
    | false =>
      simp only [Bool.false_eq_true, if_false]
      cases hl : l.callbacks.lookup n with
      | none => exact .inr ⟨_, l, rfl, (run_invoke_notFound hn hp hl).symm.trans hout⟩
      | some cb =>
        simp only
        cases hr : (cb.run input).run l.heap with
        | ok r h =>
          have hfail : callbackFailure n (.ok r h) =
              if r.isOk then none else some (.unknown (callbackErrorText n r.errorCode)) := rfl
          rw [hfail]
          cases hok : r.isOk with
          | true =>
            cases (run_invoke_ok hn hp hl hr hok).symm.trans hout
            exact .inl ⟨rfl, rfl⟩
          | false =>
            exact .inr ⟨_, _, rfl, (run_invoke_error hn hp hl hr hok).symm.trans hout⟩
        | error e h =>
          cases e with
          | panic p =>
            cases hu : rt.strategy with
            | abort => cases (run_invoke_abort hu hn hp hl hr).symm.trans hout
            | unwind =>
              have ho := (run_invoke_unwind hu hn hp hl hr).symm.trans hout
              cases hd : p.dropPanic with
              | none =>
                rw [p.droppedAfter_of_none hd] at ho
                exact .inr ⟨_, _, rfl, ho⟩
              | some next => exact absurd ho (PanicPayload.droppedAfter_ne_ok hd _ _ _ _)
          | _ => cases (run_invoke_stop (by rintro p ⟨⟩) hn hp hl hr).symm.trans hout

/-- What Go is told is the error, when its message has a length that C can say. -/
theorem invokeCallback_failure {p p' : Process} {b : Option BufferRef} {raw : FfiBuffer}
    {g : GoError} (hraw : p.rawInput b = some raw)
    (hr : (invokeCallback rt name b).run p = .ok (.error g) p') :
    ∃ e, p.library.failure (some (C.CString name)) raw = some e ∧
      (e.message.utf8ByteSize < 2 ^ 31 → g = .ffiError e.code.toInt (asBytes e.message)) := by
  cases hout : (ffiInvokeCallback rt (some (C.CString name)) raw).run p.library with
  | error e l' => cases (run_invokeCallback_stop hraw hout).symm.trans hr
  | ok out l' =>
    have hcheck := (run_invokeCallback hraw hout).symm.trans hr
    rcases invoke_failure hout with ⟨-, hok⟩ | ⟨e, l₁, hf, he⟩
    · rw [run_checkResult_ok hok] at hcheck
      obtain ⟨_, _, -, hcheck⟩ := bind_eq_ok.mp hcheck
      obtain ⟨_, _, -, hcheck⟩ := bind_eq_ok.mp hcheck
      cases hcheck
    · refine ⟨e, hf, fun hlt => ?_⟩
      obtain ⟨-, hown, hcode, -, hlen, hmsg⟩ := err_of_within he
      have hwhole := (goString_whole_iff (p := (p.crossed raw).withLibrary l') hmsg
        hlen.symm).mpr (hlen ▸ hlt)
      have hne : out.errorCode ≠ .ok := hcode ▸ e.code_ne_ok
      have hres := @run_checkResult_error rt _ _ _ hne
        (show out.Owned ((p.crossed raw).withLibrary l').heap from hown) hwhole
      cases hres.symm.trans hcheck
      rw [hcode]

/-- Two invocations that Go sees fail print the same text exactly when they failed for the
same reason: no two errors of Rust have one message, no two codes one name, and the text of Go is
read in one way only. -/
theorem invocation_errors_apart :
    (∀ {rt rt' : Runtime} {name name' : List UInt8} {p p' q q' : Process} {b b' : Option BufferRef}
      {raw raw' : FfiBuffer} {g g' : GoError}, p.rawInput b = some raw → q.rawInput b' = some raw' →
      (invokeCallback rt name b).run p = .ok (.error g) p' →
      (invokeCallback rt' name' b').run q = .ok (.error g') q' →
      (∀ e ∈ p.library.failure (some (C.CString name)) raw, e.message.utf8ByteSize < 2 ^ 31) →
      (∀ e ∈ q.library.failure (some (C.CString name')) raw', e.message.utf8ByteSize < 2 ^ 31) →
      (g.error = g'.error ↔ p.library.failure (some (C.CString name)) raw =
        q.library.failure (some (C.CString name')) raw')) ∧
    Function.Injective FfiError.message ∧ Function.Injective ErrorCode.string ∧
    ∀ {c c' : ℤ} {m m' : List UInt8},
      (GoError.ffiError c m).error = (GoError.ffiError c' m').error ↔ c = c' ∧ m = m' := by
  refine ⟨?_, FfiError.message_injective, ErrorCode.string_injective, GoError.error_ffiError_inj⟩
  intro rt rt' name name' p p' q q' b b' raw raw' g g' hraw hraw' hp hq hshort hshort'
  obtain ⟨e, hf, hg⟩ := invokeCallback_failure hraw hp
  obtain ⟨e', hf', hg'⟩ := invokeCallback_failure hraw' hq
  rw [hg (hshort e hf), hg' (hshort' e' hf'), hf, hf', GoError.error_ffiError_inj, asBytes_inj,
    FfiError.message_injective.eq_iff, Option.some_inj]
  constructor
  · exact And.right
  · rintro rfl
    exact ⟨rfl, rfl⟩

theorem invocation_errors_apart_names : ∃ g g' p' q',
    (invokeCallback (.granting .unwind) [97] none).run (.start .empty) = .ok (.error g) p' ∧
    (invokeCallback (.granting .abort) [98] none).run (.start .empty) = .ok (.error g') q' ∧
    g.error ≠ g'.error := by
  refine ⟨.ffiError 7 (asBytes "not found: a"), .ffiError 7 (asBytes "not found: b"), _, _, rfl, rfl,
    ?_⟩
  have hiff := @invocation_errors_apart.1 (.granting .unwind) (.granting .abort) [97] [98]
    (.start .empty) _ (.start .empty) _ none none .null .null _ _ rfl rfl rfl rfl
    (by rintro e ⟨⟩; decide) (by rintro e ⟨⟩; decide)
  exact hiff.not.mpr fun h => absurd (Option.some.inj h) (by decide)

end FfiBridge
