import FfiBridge.Results.Contract

/-! # Services behind `run_json`

A service answers its input through `BridgeCall::run_json`. Its stages may use the heap as they
like and hold on to nothing when they are done, so each comes down to a function, and the service
to the composition of the three. Where every request is served, panics unwind and their payloads drop
quietly, the callback is that function on the bytes of its input: it returns, and what it returns is
its own and says what the function has.
-/
namespace FfiBridge
open Foundation

variable {rt : Runtime} {I O α : Type} {h h' : Heap} {input : FfiBuffer} {bytes : List UInt8}

/-- The allocator serves every request that has a layout. -/
def Runtime.Generous (rt : Runtime) : Prop := ∀ i n, rt.grants i n = true

theorem Runtime.granting_generous (strategy : PanicStrategy) : (granting strategy).Generous :=
  fun _ _ => rfl

theorem Runtime.Generous.serves (hg : rt.Generous) {n : ℕ} (hn : n ≤ isizeMax) : rt.Serves h n :=
  ⟨hn, hg _ _⟩

/-! ## What a callback computes -/

/-- What a caller is told: the bytes of a payload, or an error. -/
abbrev Response := Except FfiError (List UInt8)

/-- `r` tells the caller `x`. -/
def FfiResult.Tells (r : FfiResult) (h : Heap) : Response → Prop
  | .ok out => r = .ok r.payload ∧ r.payload.asSlice.run h = .ok out h
  | .error e => r.Carries e h ∧ r.errorMessage.len = e.message.utf8ByteSize

/-- From `h`, the program returns a result that tells `x`, and keeps nothing but that result. -/
def Responds (m : Rust FfiResult) (h : Heap) (x : Response) : Prop :=
  Yields m h fun r h' =>
    Arena.Exchange h.toArena [] h'.toArena r.owns ∧ r.Owned h' ∧ r.Tells h' x

/-- The callback is a function of the bytes of its input, wherever these are. -/
def CallbackFn.Computes (cb : CallbackFn) (f : List UInt8 → Response) : Prop :=
  ∀ h input bytes, input.asSlice.run h = .ok bytes h → Responds (cb.run input) h (f bytes)

theorem FfiResult.Tells.isOk {r : FfiResult} {x : Response} (ht : r.Tells h x) :
    r.isOk = x.isOk := by
  cases x with
  | ok out =>
    rw [ht.1]
    rfl
  | error e => simp [FfiResult.isOk, ht.1.1, e.code_ne_ok, Except.isOk, Except.toBool]

/-- An error made after nothing was kept. -/
theorem responds_err {m : Rust FfiResult} {e : FfiError} (hg : rt.Generous)
    (he : e.message.utf8ByteSize ≤ isizeMax) (hx : Arena.Exchange h.toArena [] h'.toArena [])
    (hm : m.run h = (FfiResult.err rt e).run h') : Responds m h (.error e) := by
  have hr := FfiResult.run_err_served (hg.serves he : rt.Serves h' _)
  obtain ⟨hx', hown, hcode, hpay, hlen, hmsg⟩ := (FfiResult.err_trade e).ok _ _ hr
  exact ⟨_, _, hm.trans hr, hx.seq hx', hown, ⟨hcode, hpay, hmsg⟩, hlen⟩

/-- A vector that was made becomes a buffer of the same bytes. -/
theorem run_fromVec_made {v : Vec} (hg : rt.Generous) (hv : v.Owned h)
    (hread : (readBytes v.ptr v.len).run h = .ok bytes h) : ∃ raw h',
      (FfiBuffer.fromVec rt v).run h = .ok raw h' ∧
      Arena.Exchange h.toArena v.owns h'.toArena raw.owns ∧ raw.Owned h' ∧
      raw.asSlice.run h' = .ok bytes h' := by
  rcases @Vec.run_shrinkToFit rt h v hv with hs | ⟨v', h₁, hs, hx, hv', -, hread'⟩
  · exact absurd hs (Vec.shrinkToFit_ne_abort hv (hg _ _))
  · exact ⟨⟨v'.ptr, v'.len, v'.capacity⟩, h₁, bind_of_ok hs _, hx, ⟨hv'.le, hv'.backed⟩,
      hread' bytes hread⟩

/-- How a stage ends. -/
inductive Outcome (α : Type) where
  | returns (a : α)
  | panics (p : PanicPayload)

def Outcome.result : Outcome α → Heap → EStateM.Result Stop Heap α
  | returns a, h => .ok a h
  | panics p, h => .error (.panic p) h

/-- From every heap `m` ends like this, and keeps nothing. -/
def Evaluates (m : Rust α) (o : Outcome α) : Prop :=
  ∀ h, ∃ h', m.run h = o.result h' ∧ Arena.Exchange h.toArena [] h'.toArena []

/-- From every heap `m` makes a vector of these bytes, or fails and keeps nothing. -/
def Serializes (m : Rust (Except String Vec)) : Except String (List UInt8) → Prop
  | .ok bytes => ∀ h, ∃ v h', m.run h = .ok (.ok v) h' ∧
      Arena.Exchange h.toArena [] h'.toArena v.owns ∧ v.Owned h' ∧
      (readBytes v.ptr v.len).run h' = .ok bytes h'
  | .error e => Evaluates m (.returns (.error e))

theorem Evaluates.later {m : Rust α} {o : Outcome α} (hm : Evaluates m o) :
    Respects Heap.Later m := by
  intro h
  obtain ⟨h', hr, hx⟩ := hm h
  rw [hr]
  cases o with
  | returns a => exact hx.later
  | panics p => exact hx.later

theorem Serializes.later {m : Rust (Except String Vec)} {x : Except String (List UInt8)}
    (hm : Serializes m x) : Respects Heap.Later m := by
  cases x with
  | ok bytes =>
    intro h
    obtain ⟨v, h', hr, hx, -⟩ := hm h
    rw [hr]
    exact hx.later
  | error e => exact Evaluates.later hm

theorem evaluates_pure (a : α) : Evaluates (pure a) (.returns a) := fun h => ⟨h, rfl, .refl _⟩

/-- The stages of `run_json` with what they compute, and payloads that drop quietly. -/
structure Stages (I O : Type) where
  decode : List UInt8 → Rust (Except String I)
  handler : I → Rust (Except FfiError O)
  encode : O → Rust (Except String Vec)
  decoded : List UInt8 → Except String I
  handled : I → Outcome (Except FfiError O)
  encoded : O → Except String (List UInt8)
  decodes : ∀ bytes, Evaluates (decode bytes) (.returns (decoded bytes))
  handles : ∀ value, Evaluates (handler value) (handled value)
  encodes : ∀ output, Serializes (encode output) (encoded output)
  quiet : ∀ value p, handled value = .panics p → p.dropPanic = none

namespace Stages

/-- What the stages come to: the first one that does not succeed decides. -/
def respond (s : Stages I O) (bytes : List UInt8) : Response :=
  match s.decoded bytes with
  | .error e => .error (.serialization e)
  | .ok value =>
    match s.handled value with
    | .panics p => .error (.panic p.text)
    | .returns (.error e) => .error e
    | .returns (.ok output) =>
      match s.encoded output with
      | .error e => .error (.serialization e)
      | .ok out => .ok out

/-- The closure that is registered: `|input| BridgeCall::new(input).run_json(handler)`. -/
def run (rt : Runtime) (s : Stages I O) (input : FfiBuffer) : Rust FfiResult :=
  (BridgeCall.mk input).runJson rt s.decode s.handler s.encode

variable {s : Stages I O}

theorem jsonStages_later (s : Stages I O) (input : FfiBuffer) :
    Respects Heap.Later ((BridgeCall.mk input).jsonStages rt s.decode s.handler s.encode) := by
  have hread : Respects Heap.Later (within input.asSlice : Rust (List UInt8)) := by
    rw [within_self]
    exact readBytes_later _ _
  have hdecode : Respects Heap.Later (input.toJson s.decode) := by
    refine hread.bind fun bytes => (s.decodes bytes).later.bind fun r => ?_
    cases r <;> exact .pure _
  refine hdecode.bind fun r => ?_
  cases r with
  | error e => exact .pure _
  | ok value =>
    refine (s.handles value).later.bind fun r => ?_
    cases r with
    | error e => exact .pure _
    | ok output =>
      refine (s.encodes output).later.bind fun r => ?_
      cases r with
      | error e => exact .pure _
      | ok vec =>
        simp only [within_self]
        exact (FfiBuffer.fromVec_later _).bind fun _ => .pure _

theorem run_later (s : Stages I O) (input : FfiBuffer) : Respects Heap.Later (s.run rt input) := by
  intro h
  have herr : ∀ e, Respects Heap.Later (within (FfiResult.err rt e) : Rust FfiResult) := by
    intro e
    rw [within_self]
    exact FfiResult.err_later e
  exact IsTrans.trans (r := Heap.Later) _ _ _ (jsonStages_later s input h)
    (catchPanic_after rt _ herr)

/-- A closure that fails after nothing was kept. -/
theorem responds_of_fails {e : FfiError} (hg : rt.Generous) (he : e.message.utf8ByteSize ≤ isizeMax)
    (hx : Arena.Exchange h.toArena [] h'.toArena [])
    (hr : ((BridgeCall.mk input).jsonStages rt s.decode s.handler s.encode).run h =
      .ok (.error e) h') : Responds (s.run rt input) h (.error e) := by
  refine responds_err hg he hx ((run_catchPanic_err hr).trans ?_)
  rw [within_self]

theorem responds_of_panics {p : PanicPayload} (hu : rt.strategy = .unwind) (hg : rt.Generous)
    (hd : p.dropPanic = none) (he : (FfiError.panic p.text).message.utf8ByteSize ≤ isizeMax)
    (hx : Arena.Exchange h.toArena [] h'.toArena [])
    (hr : ((BridgeCall.mk input).jsonStages rt s.decode s.handler s.encode).run h =
      .error (.panic p) h') : Responds (s.run rt input) h (.error (.panic p.text)) := by
  refine responds_err hg he hx ((run_catchPanic_unwind hu hr).trans ?_)
  rw [p.droppedAfter_of_none hd, within_self]

/-- A vector that was made becomes the payload. -/
theorem responds_of_encodes {v : Vec} {out : List UInt8} (hg : rt.Generous)
    (hx : Arena.Exchange h.toArena [] h'.toArena v.owns) (hv : v.Owned h')
    (hread : (readBytes v.ptr v.len).run h' = .ok out h')
    (hr : ((BridgeCall.mk input).jsonStages rt s.decode s.handler s.encode).run h =
      (do return .ok (← within (FfiBuffer.fromVec rt v)) : Rust (Except FfiError FfiBuffer)).run h') :
    Responds (s.run rt input) h (.ok out) := by
  obtain ⟨raw, h₁, hraw, hx', hown, hread'⟩ := run_fromVec_made hg hv hread
  have hb : (within (FfiBuffer.fromVec rt v) : Rust FfiBuffer).run h' = .ok raw h₁ := by
    rwa [within_self]
  exact .of_ok (run_catchPanic_ok (hr.trans (bind_of_ok hb _)))
    ⟨hx.seq hx', FfiResult.owned_ok hown, rfl, hread'⟩

end Stages

/-! ## Services -/

/-- Stages whose error messages are of a size that there is. -/
structure Service (I O : Type) extends Stages I O where
  fits : ∀ bytes e, toStages.respond bytes = .error e → e.message.utf8ByteSize ≤ isizeMax

namespace Service

def callback (rt : Runtime) (s : Service I O) : CallbackFn := ⟨s.run rt, s.run_later⟩

/-- Registered as a callback, a service is the composition of its stages on every input, in every
heap: it returns what the first stage that does not succeed demands, with panics as errors, and
keeps nothing but what it returns. -/
theorem computes (hu : rt.strategy = .unwind) (hg : rt.Generous) (s : Service I O) :
    (s.callback rt).Computes s.respond := by
  intro h input bytes hin
  have hfits := s.fits bytes
  have hread : (within input.asSlice : Rust (List UInt8)).run h = .ok bytes h := by
    rwa [within_self]
  have hrun := @run_jsonStages rt Heap I O h _ s.decode s.handler s.encode ⟨input⟩ bytes hread
  obtain ⟨h₁, hd, hx₁⟩ := s.decodes bytes h
  change Responds (s.run rt input) h (s.respond bytes)
  unfold Stages.respond at hfits ⊢
  cases hdec : s.decoded bytes with
  | error e =>
    rw [hdec] at hd hfits
    exact Stages.responds_of_fails hg (hfits _ rfl) hx₁ (hrun.trans (bind_of_ok hd _))
  | ok value =>
    rw [hdec] at hd hfits
    simp only at hfits ⊢
    replace hrun := hrun.trans (bind_of_ok hd _)
    obtain ⟨h₂, hh, hx₂⟩ := s.handles value h₁
    cases hand : s.handled value with
    | panics p =>
      rw [hand] at hh hfits
      exact Stages.responds_of_panics hu hg (s.quiet value p hand) (hfits _ rfl) (hx₁.seq hx₂)
        (hrun.trans (bind_of_error hh _))
    | returns r =>
      rw [hand] at hh hfits
      replace hrun := hrun.trans (bind_of_ok hh _)
      cases r with
      | error e => exact Stages.responds_of_fails hg (hfits _ rfl) (hx₁.seq hx₂) hrun
      | ok output =>
        simp only at hfits ⊢
        have henc := s.encodes output
        cases hout : s.encoded output with
        | error e =>
          rw [hout] at henc hfits
          obtain ⟨h₃, he, hx₃⟩ := henc h₂
          exact Stages.responds_of_fails hg (hfits _ rfl) ((hx₁.seq hx₂).seq hx₃)
            (hrun.trans (bind_of_ok he _))
        | ok out =>
          rw [hout] at henc
          obtain ⟨v, h₃, he, hx₃, hv, hvread⟩ := henc h₂
          exact Stages.responds_of_encodes hg ((hx₁.seq hx₂).seq hx₃) hv hvread
            (hrun.trans (bind_of_ok he _))

/-- The value of one decimal digit. -/
def digit : List UInt8 → Except String UInt8
  | [b] => if 48 ≤ b ∧ b ≤ 57 then .ok (b - 48) else .error "expected a digit"
  | _ => .error "expected a digit"

theorem digit_eq_error {e : String} (he : digit bytes = .error e) : e = "expected a digit" := by
  unfold digit at he
  split at he
  · split_ifs at he
    cases he
    rfl
  · cases he
    rfl

/-- Double a digit, and panic where there would be two. -/
def doublingStages : Stages UInt8 UInt8 where
  decode bytes := pure (digit bytes)
  handler d := if d ≤ 4 then pure (.ok (2 * d)) else panic "too large"
  encode d := do return .ok (← toVec (.granting .unwind) [48 + d])
  decoded := digit
  handled d := if d ≤ 4 then .returns (.ok (2 * d)) else .panics (.str "too large")
  encoded d := .ok [48 + d]
  decodes _ := evaluates_pure _
  handles d := by
    split_ifs
    · exact evaluates_pure _
    · exact fun h => ⟨h, rfl, .refl _⟩
  encodes d h := by
    have hb := @Vec.run_build_served (.granting .unwind) h [48 + d] 1 (by simp)
      ((Runtime.granting_generous _).serves (by simp [isizeMax]))
    obtain ⟨hx, hv, -, hread⟩ := (Vec.build_trade [48 + d] 1).ok _ _ hb
    exact ⟨_, _, bind_of_ok hb _, hx, hv, hread⟩
  quiet d p hp := by
    split_ifs at hp
    cases hp
    rfl

def doubling : Service UInt8 UInt8 where
  toStages := doublingStages
  fits bytes e he := by
    unfold Stages.respond at he
    cases hd : doublingStages.decoded bytes with
    | error e =>
      obtain rfl := digit_eq_error hd
      rw [hd] at he
      cases he
      decide
    | ok d =>
      rw [hd] at he
      by_cases h : d ≤ 4
      · simp [doublingStages, h] at he
      · simp only [doublingStages, h, if_false] at he
        cases he
        decide

/-- Twice four is eight, and five is too much. -/
theorem computes_doubling : (doubling.callback (.granting .unwind)).Computes doubling.respond ∧
    doubling.respond [52] = .ok [56] ∧ doubling.respond [53] = .error (.panic "too large") :=
  ⟨computes rfl (Runtime.granting_generous _) doubling, rfl, rfl⟩

end Service

end FfiBridge
