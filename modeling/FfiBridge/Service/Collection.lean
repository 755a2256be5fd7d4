import FfiBridge.Foundation.Execution
import FfiBridge.Service.Programs

/-! # Programs that leave buffers to the collector

A program need not free its buffers: the collector runs the finalizer of one that the rest of the
program does not use, between two calls or in the middle of one, where the call has taken the raw
buffer and does not use the `*Buffer` any more. A program that uses each buffer again after the call
that it passes it to, as with a deferred `Free`, cannot tell: with the collector beside it, it comes
to the same end.
-/
namespace FfiBridge
open Foundation

variable {rt : Runtime} {p q : Process} {w w' : World} {h₀ : Heap} {α : Type} {b : BufferRef}
  {buffer : Buffer} {D : Set BufferRef} {call : GoCall} {raw : FfiBuffer} {result : CResult}
  {ids : List ℕ}

/-! ## What a program still uses -/

/-- The buffer whose raw buffer a call passes to C. -/
def GoCall.passes : GoCall → Option BufferRef
  | bytes b | toJSON b _ => some b
  | invokeCallback _ input => input
  | _ => none

/-- The buffer an answer hands out. -/
def GoAnswer.buffer? : GoAnswer → Option BufferRef
  | made (.ok b) => some b
  | _ => none

/-- The program does not use `b`, unless it gets it from an answer. -/
def Avoids (b : BufferRef) : Script GoCall GoAnswer α → Prop
  | .done _ => True
  | .call call next => b ∉ call.uses ∧ ∀ a, a.buffer? ≠ some b → Avoids b (next a)

/-- What comes after a call does not use `b`. -/
def Unused (b : BufferRef) (next : GoAnswer → Script GoCall GoAnswer α) : Prop :=
  ∀ a, a.buffer? ≠ some b → Avoids b (next a)

/-- Each buffer that is passed to C is used again afterwards. -/
def World.Keeps : World → Script GoCall GoAnswer α → Prop
  | _, .done _ => True
  | w, .call call next =>
    (∀ b ∈ call.passes, ¬ Unused b next) ∧ (w.after call).Keeps (next (w.reply call))

/-! ## Programs with the collector -/

/-- Where a program is: between two calls, before the C call on the raw buffer it has taken, or
after it. -/
inductive ScriptPhase (α : Type) where
  | idle (rest : Script GoCall GoAnswer α)
  | entering (call : GoCall) (raw : FfiBuffer) (next : GoAnswer → Script GoCall GoAnswer α)
  | leaving (call : GoCall) (result : CResult) (next : GoAnswer → Script GoCall GoAnswer α)

namespace ScriptPhase

/-- What is left of the program, with the call that it is in. -/
def rest : ScriptPhase α → Script GoCall GoAnswer α
  | idle rest => rest
  | entering call _ next | leaving call _ next => .call call next

/-- The program does not use `b` any more. -/
def Unused (b : BufferRef) : ScriptPhase α → Prop
  | idle rest => Avoids b rest
  | entering _ _ next | leaving _ _ next => FfiBridge.Unused b next

end ScriptPhase

/-- The process, and where the program is. -/
structure Running (α : Type) where
  process : Process
  phase : ScriptPhase α

variable (rt) in
/-- The program goes on by a piece of a call, or the collector runs the finalizer of a buffer. -/
inductive Running.Step : Running α → Option BufferRef → Running α → Prop
  | answer {p q : Process} {call : GoCall} {next : GoAnswer → Script GoCall GoAnswer α}
      {a : GoAnswer} (hr : (call.start rt).run p = .ok (.inl a) q) :
      Step ⟨p, .idle (.call call next)⟩ none ⟨q, .idle (next a)⟩
  | take {p q : Process} {call : GoCall} {next : GoAnswer → Script GoCall GoAnswer α}
      {raw : FfiBuffer} (hr : (call.start rt).run p = .ok (.inr raw) q) :
      Step ⟨p, .idle (.call call next)⟩ none ⟨q, .entering call raw next⟩
  | enter {p q : Process} {call : GoCall} {next : GoAnswer → Script GoCall GoAnswer α}
      {raw : FfiBuffer} {result : CResult} (hr : (call.cCall rt raw).run p = .ok result q) :
      Step ⟨p, .entering call raw next⟩ none ⟨q, .leaving call result next⟩
  | leave {p q : Process} {call : GoCall} {next : GoAnswer → Script GoCall GoAnswer α}
      {result : CResult} {a : GoAnswer} (hr : (call.finish rt result).run p = .ok a q) :
      Step ⟨p, .leaving call result next⟩ none ⟨q, .idle (next a)⟩
  | collect {p q : Process} {phase : ScriptPhase α} {b : BufferRef} {buffer : Buffer}
      (hb : p.buffers[b]? = some buffer) (hf : buffer.finalizer = true) (hu : phase.Unused b)
      (hr : (Buffer.finalize b).run p = .ok () q) : Step ⟨p, phase⟩ (some b) ⟨q, phase⟩

/-! ## Worlds that agree but for some buffers -/

namespace World

/-- `w'` is `w` but for what is in the buffers `D`. -/
structure Agrees (D : Set BufferRef) (w w' : World) : Prop where
  offer : w'.offer = w.offer
  lost : w'.lost = w.lost
  entered : w'.entered = w.entered
  size : w'.contents.length = w.contents.length
  contents : ∀ b ∉ D, w'.contents[b]? = w.contents[b]?

namespace Agrees

theorem refl (w : World) : w.Agrees ∅ w := ⟨rfl, rfl, rfl, rfl, fun _ _ => rfl⟩

theorem content (hw : w.Agrees D w') (hb : b ∉ D) : w'.content b = w.content b := by
  rw [World.content, World.content, hw.contents b hb]

theorem input (hw : w.Agrees D w') {b : Option BufferRef} (hb : ∀ b' ∈ b, b' ∉ D) :
    w'.input b = w.input b := by
  cases b with
  | none => rfl
  | some b => rw [World.input, World.input, Option.bind_some, Option.bind_some, hw.content (hb b rfl)]

theorem input_invoked (hw : w.Agrees D w') {name : List UInt8} {b : Option BufferRef}
    (hu : ∀ b' ∈ (GoCall.invokeCallback name b).uses, b' ∉ D) : w'.input b = w.input b :=
  hw.input fun b' hb' => hu b' (by simpa [GoCall.uses] using hb')

theorem length_eq (hw : w.Agrees D w') (hb : b ∉ D) : w'.length b = w.length b := by
  rw [World.length, World.length, hw.content hb]

theorem bytes (hw : w.Agrees D w') (hb : b ∉ D) : w'.bytes b = w.bytes b := by
  rw [World.bytes, World.bytes, hw.content hb]

theorem fields (hw : w.Agrees D w') (hb : b ∉ D) : w'.fields b = w.fields b := by
  rw [World.fields, World.fields, hw.content hb]

theorem grow (hw : w.Agrees D w') (cs : List (Option Content)) (lost entered : ℕ) :
    (w.grow cs lost entered).Agrees D (w'.grow cs lost entered) where
  offer := hw.offer
  lost := by rw [World.grow, World.grow, hw.lost]
  entered := by rw [World.grow, World.grow, hw.entered]
  size := by simp [World.grow, hw.size]
  contents b hb := by
    simp only [World.grow]
    by_cases hlt : b < w.contents.length
    · rw [List.getElem?_append_left hlt, List.getElem?_append_left (hw.size ▸ hlt), hw.contents b hb]
    · rw [List.getElem?_append_right (not_lt.mp hlt),
        List.getElem?_append_right (hw.size ▸ not_lt.mp hlt), hw.size]

/-- A buffer is freed in both. -/
theorem free (hw : w.Agrees D w') (b : BufferRef) :
    (w.after (.free b)).Agrees D (w'.after (.free b)) where
  offer := hw.offer
  lost := hw.lost
  entered := hw.entered
  size := by simp [World.after, hw.size]
  contents b' hb := by simp [World.after, List.getElem?_set, hw.size, hw.contents b' hb]

/-- A buffer is freed in one of the two. -/
theorem drop (hw : w.Agrees D w') (b : BufferRef) :
    w.Agrees (insert b D) (w'.after (.free b)) where
  offer := hw.offer
  lost := hw.lost
  entered := hw.entered
  size := by simp [World.after, hw.size]
  contents b' hb := by
    rw [Set.mem_insert_iff, not_or] at hb
    simp only [World.after]
    rw [List.getElem?_set_ne (Ne.symm hb.1), hw.contents b' hb.2]

/-- A call that uses none of the buffers finds the store ready where it was, -/
theorem ready (hw : w.Agrees D w') (hu : ∀ b ∈ call.uses, b ∉ D) (hr : w.Ready call) :
    w'.Ready call := by
  cases call with
  | newBuffer | fromBytes | fromJSON => exact hr
  | len b | isEmpty b | free b =>
    have hlt : b < w.contents.length := hr
    exact hlt.trans_eq hw.size.symm
  | bytes b | toJSON b unmarshal =>
    exact ⟨hw.size ▸ hr.1, (hw.length_eq (hu b (by simp [GoCall.uses]))).trans_lt hr.2⟩
  | inspectBuffer b => exact fun b' hb' => hw.size ▸ hr b' hb'
  | invokeCallback name b =>
    constructor
    · rw [hw.offer, hw.input_invoked hu]
      exact hr.1
    · intro b' hb'
      rw [hw.content (hu b' (by simp [GoCall.uses, hb']))]
      exact hr.2 b' hb'

/-- is answered as it was, -/
theorem reply (hw : w.Agrees D w') (hu : ∀ b ∈ call.uses, b ∉ D) : w'.reply call = w.reply call := by
  cases call with
  | newBuffer | fromBytes => simp only [World.reply, hw.size]
  | fromJSON marshal => cases marshal <;> simp only [World.reply, hw.size]
  | len b | isEmpty b => simp only [World.reply, hw.length_eq (hu b (by simp [GoCall.uses]))]
  | bytes b | toJSON b unmarshal => simp only [World.reply, hw.bytes (hu b (by simp [GoCall.uses]))]
  | inspectBuffer b =>
    cases b with
    | none => rfl
    | some b => simp only [World.reply, Option.elim_some, hw.fields (hu b (by simp [GoCall.uses]))]
  | invokeCallback name b =>
    simp only [World.reply, World.respond, hw.offer, hw.input_invoked hu, hw.size]
  | free b => rfl

/-- and leaves worlds that agree again. -/
theorem after (hw : w.Agrees D w') (hu : ∀ b ∈ call.uses, b ∉ D) :
    (w.after call).Agrees D (w'.after call) := by
  cases call with
  | newBuffer | fromBytes => exact hw.grow _ _ _
  | fromJSON marshal =>
    cases marshal with
    | ok data => exact hw.grow _ _ _
    | error err => exact hw
  | len | isEmpty | bytes | toJSON | inspectBuffer => exact hw
  | invokeCallback name b =>
    simp only [World.after, hw.offer, hw.input_invoked hu]
    exact hw.grow _ _ _
  | free b => exact hw.free b

end Agrees

end World

/-- What an answer of the store hands out is new. -/
theorem length_of_buffer? (ha : (w.reply call).buffer? = some b) : b = w.contents.length := by
  cases call with
  | newBuffer | fromBytes =>
    cases ha
    rfl
  | fromJSON marshal =>
    cases marshal <;> cases ha
    rfl
  | invokeCallback name input =>
    cases hr : w.offer.invoke name (w.input input) with
    | ok out =>
      simp only [World.reply, World.respond, hr] at ha
      cases ha
      rfl
    | error e =>
      simp only [World.reply, World.respond, hr] at ha
      cases ha
  | len | isEmpty | bytes | toJSON | inspectBuffer | free => cases ha

/-- No call takes a buffer out of the store. -/
theorem length_after_le (w : World) (call : GoCall) :
    w.contents.length ≤ (w.after call).contents.length := by
  cases call with
  | fromJSON marshal => cases marshal <;> simp [World.after, World.grow]
  | _ => simp [World.after, World.grow]

/-! ## Finalizers -/

/-- From `p` to `q` the finalizer of `b` has run: another buffer is as it was, and this one has no
finalizer any more. -/
structure Process.Finalizes (p : Process) (b : BufferRef) (q : Process) : Prop where
  run : (Buffer.finalize b).run p = .ok () q
  others : ∀ b', b' ≠ b → q.buffers[b']? = p.buffers[b']?
  disarmed : ∀ buffer, q.buffers[b]? = some buffer → buffer.finalizer = false

theorem Process.Finalizes.rawInput {b' : Option BufferRef} (hf : p.Finalizes b q)
    (hb : ∀ b'' ∈ b', b'' ≠ b) : q.rawInput b' = p.rawInput b' := by
  cases b' with
  | none => rfl
  | some b' => rw [Process.rawInput, Process.rawInput, hf.others b' (hb b' rfl)]

namespace World

/-- The finalizer is `Free`, and takes nothing from what is there besides. -/
theorem Beside.finalize (hw : w.Beside h₀ p ids) (hb : b < w.contents.length) :
    ∃ q, p.Finalizes b q ∧ (w.after (.free b)).Beside h₀ q ids ∧
      ∀ id ∈ ids, q.heap.live.lookup id = p.heap.live.lookup id := by
  obtain ⟨buffer, x, hp, hx, hs⟩ := hw.find hb
  have hp' : (p.unarm b).buffers[b]? = some { buffer with finalizer := false } := by
    simp [Process.unarm, hp]
  cases x with
  | none =>
    have hf : buffer.freed = true := hs
    refine ⟨p.unarm b, ⟨run_free_freed hp' hf, fun b' => Process.buffers_unarm_of_ne, fun _ h => ?_⟩,
      ?_, fun _ _ => rfl⟩
    · cases hp'.symm.trans h
      rfl
    · obtain ⟨hlt, hget⟩ := List.getElem?_eq_some_iff.mp hx
      change Beside { w with contents := w.contents.set b none } h₀ (p.unarm b) ids
      rw [← hget, List.set_getElem_self]
      refine ⟨hw.offers, by simp [Process.unarm, hw.size], fun b' buffer' x' hbuf hx' => ?_, ?_⟩
      · by_cases hne : b' = b
        · subst hne
          cases hp'.symm.trans hbuf
          cases hx.symm.trans hx'
          exact hf
        · rw [Process.buffers_unarm_of_ne hne] at hbuf
          exact hw.shows b' buffer' x' hbuf hx'
      · rw [Process.held_unarm]
        exact hw.exchange
  | some c =>
    have hfree : (Buffer.free b).run (p.unarm b) = .ok () ((p.unarm b).giveBack b buffer.inner) :=
      @run_free_of_ok _ _ { buffer with finalizer := false } hp' hs.1.1
        (FfiBuffer.run_dealloc hs.2.represented.owned)
    rw [giveBack_unarm] at hfree
    refine ⟨_, ⟨hfree, fun b' => Process.buffers_giveBack_of_ne _, fun _ h => ?_⟩,
      hw.giveBack hp hs.1.1, fun id hid => Arena.lookup_releaseAll fun hown => ?_⟩
    · cases (Process.buffers_giveBack_self hp).symm.trans h
      rfl
    · have hheld : id ∈ p.held := List.mem_flatMap.mpr
        ⟨buffer, List.mem_of_getElem? hp, by simpa [Buffer.held, hs.1.1] using hown⟩
      exact (List.nodup_append.mp hw.exchange.nodup).2.2 id hheld id hid rfl

theorem Shown.finalize (hw : w.Shown h₀ p) (hb : b < w.contents.length) :
    ∃ q, p.Finalizes b q ∧ (w.after (.free b)).Shown h₀ q := by
  obtain ⟨ids, hw, hids⟩ := hw
  obtain ⟨q, hf, hq, -⟩ := hw.finalize hb
  exact ⟨q, hf, ids, hq, hids⟩

theorem drops (w : World) (b : BufferRef) : w.Agrees {b} (w.after (.free b)) := by
  simpa using (Agrees.refl w).drop b

/-- A call that has taken another raw buffer still has it. -/
theorem Takes.finalize (ht : w.Takes p call raw) (hf : p.Finalizes b q) (hb : ∀ b' ∈ call.passes, b' ≠ b) :
    (w.after (.free b)).Takes q call raw := by
  cases ht with
  | @read call b' raw data hc hraw hd =>
    have hne : b' ≠ b := by
      cases call <;> cases hc
      · exact hb b' rfl
      · exact hb b' rfl
    refine .read hc ?_ (((w.drops b).bytes hne).trans hd)
    rwa [hf.rawInput fun b'' hb'' => by cases hb''; exact hne]
  | @input name input raw hraw => exact .input ((hf.rawInput hb).trans hraw)

/-- A call whose C call has returned still has what came back. -/
theorem Awaits.finalize (ha : w.Awaits h₀ p call result) (hlt : b < w.contents.length)
    (hb : ∀ b' ∈ call.passes, b' ≠ b) :
    ∃ q, p.Finalizes b q ∧ (w.after (.free b)).Awaits h₀ q call result := by
  cases ha with
  | @read call b' data hw hc hd =>
    have hne : b' ≠ b := by
      cases call <;> cases hc
      · exact hb b' rfl
      · exact hb b' rfl
    obtain ⟨q, hf, hq⟩ := hw.finalize hlt
    exact ⟨q, hf, .read hq hc (((w.drops b).bytes hne).trans hd)⟩
  | @input name input out lost hw hown ht hlost hentered =>
    obtain ⟨q, hf, hq, hkeep⟩ := hw.finalize hlt
    have hkept : ∀ id ∈ out.owns, q.heap.live.lookup id = p.heap.live.lookup id :=
      fun id hid => hkeep id (List.mem_append_left _ hid)
    have hin : (w.after (.free b)).input input = w.input input := (w.drops b).input hb
    exact ⟨q, hf, .input hq (hown.congr hkept) (hin ▸ ht.congr hown hkept) (hin ▸ hlost) hentered⟩

end World

/-! ## Runs with the collector -/

/-- What holds of the process where the program is. -/
def ScriptPhase.Stands (w : World) (h₀ : Heap) (p : Process) : ScriptPhase α → Prop
  | idle _ => w.Shown h₀ p
  | entering call raw _ => w.Shown h₀ p ∧ w.Takes p call raw
  | leaving call result _ => w.Awaits h₀ p call result

namespace Running

/-- The process shows `w'`, which is the world `w` of the program alone but for buffers that the
program does not use any more. -/
structure Beside (w w' : World) (D : Set BufferRef) (h₀ : Heap) (s : Running α) : Prop where
  agrees : w.Agrees D w'
  unused : ∀ b ∈ D, b < w.contents.length ∧ s.phase.Unused b
  stands : s.phase.Stands w' h₀ s.process
  admits : store.Admits w s.phase.rest
  keeps : w.Keeps s.phase.rest

variable {s s' : Running α} {e : Option BufferRef} {a : GoAnswer}
  {next : GoAnswer → Script GoCall GoAnswer α} {program : Script GoCall GoAnswer α}

theorem uses_of_takes (ht : w.Takes p call raw) : call.uses = call.passes.toList := by
  cases ht with
  | read hc => cases call <;> cases hc <;> rfl
  | input => rfl

theorem uses_of_awaits (ha : w.Awaits h₀ p call result) : call.uses = call.passes.toList := by
  cases ha with
  | read _ hc => cases call <;> cases hc <;> rfl
  | input => rfl

/-- What a call in progress has passed to C is not among the buffers given up. -/
theorem apart (hk : w.Keeps (.call call next)) (hD : ∀ b ∈ D, b < w.contents.length ∧ Unused b next)
    (huses : call.uses = call.passes.toList) : ∀ b ∈ call.uses, b ∉ D := by
  intro b hb hmem
  rw [huses, Option.mem_toList] at hb
  exact hk.1 b hb (hD b hmem).2

/-- The program has made a call. -/
theorem besides (hag : w.Agrees D w') (hD : ∀ b ∈ D, b < w.contents.length ∧ Unused b next)
    (hu : ∀ b ∈ call.uses, b ∉ D) (ha : store.Admits w (.call call next))
    (hk : w.Keeps (.call call next)) (hq : (w'.after call).Shown h₀ q) :
    Beside (w.after call) (w'.after call) D h₀ ⟨q, .idle (next (w.reply call))⟩ := by
  refine ⟨hag.after hu, fun b hb => ?_, hq, ha.2, hk.2⟩
  obtain ⟨hlt, hunused⟩ := hD b hb
  refine ⟨hlt.trans_le (length_after_le w call), hunused _ fun hnew => ?_⟩
  exact absurd (length_of_buffer? hnew) hlt.ne

/-- Where a program is that comes to the same end as `program` alone. -/
def OnCourse (w : World) (program : Script GoCall GoAnswer α) (h₀ : Heap) (s : Running α) : Prop :=
  ∃ w₁ w₂ D, s.Beside w₁ w₂ D h₀ ∧ store.outcome w₁ s.phase.rest = store.outcome w program

/-- The finalizer of a buffer that is not used any more runs. -/
theorem OnCourse.collects {phase : ScriptPhase α} (hs : (⟨p, phase⟩ : Running α).OnCourse w program h₀)
    (hb : b < p.buffers.length) (hu : phase.Unused b) :
    ∃ q, p.Finalizes b q ∧ (⟨q, phase⟩ : Running α).OnCourse w program h₀ := by
  obtain ⟨w₁, w₂, D, hs, hout⟩ := hs
  have hD : ∀ hlt : b < w₂.contents.length, ∀ b' ∈ insert b D,
      b' < w₁.contents.length ∧ phase.Unused b' := by
    intro hlt b' hb'
    rcases Set.mem_insert_iff.mp hb' with rfl | hb'
    · exact ⟨hs.agrees.size ▸ hlt, hu⟩
    · exact hs.unused b' hb'
  suffices h : b < w₂.contents.length ∧ ∃ q, p.Finalizes b q ∧ phase.Stands (w₂.after (.free b)) h₀ q by
    obtain ⟨hlt, q, hf, hq⟩ := h
    exact ⟨q, hf, w₁, _, _, ⟨hs.agrees.drop b, hD hlt, hq, hs.admits, hs.keeps⟩, hout⟩
  cases phase with
  | idle rest =>
    have hw : w₂.Shown h₀ p := hs.stands
    exact ⟨hw.size ▸ hb, hw.finalize (hw.size ▸ hb)⟩
  | entering call raw next =>
    obtain ⟨hw, ht⟩ : w₂.Shown h₀ p ∧ w₂.Takes p call raw := hs.stands
    obtain ⟨q, hf, hq⟩ := hw.finalize (hw.size ▸ hb)
    refine ⟨hw.size ▸ hb, q, hf, hq, ht.finalize hf fun b' hb' => ?_⟩
    rintro rfl
    exact hs.keeps.1 b' hb' hu
  | leaving call result next =>
    have ha : w₂.Awaits h₀ p call result := hs.stands
    have hlt : b < w₂.contents.length := by
      cases ha with
      | read hw => exact hw.size ▸ hb
      | input hw => exact hw.size ▸ hb
    refine ⟨hlt, ha.finalize hlt fun b' hb' => ?_⟩
    rintro rfl
    exact hs.keeps.1 b' hb' hu

theorem OnCourse.step (hg : rt.Generous) (hs : s.OnCourse w program h₀) (he : Step rt s e s') :
    s'.OnCourse w program h₀ := by
  cases he with
  | @collect p q phase b buffer hb hf hu hr =>
    obtain ⟨q', hfin, hq⟩ := hs.collects (List.getElem?_eq_some_iff.mp hb).1 hu
    cases hfin.run.symm.trans hr
    exact hq
  | @answer p q call next a hr =>
    obtain ⟨w₁, w₂, D, hs, hout⟩ := hs
    have hw : w₂.Shown h₀ p := hs.stands
    have hu : ∀ b ∈ call.uses, b ∉ D := fun b hb hd => (hs.unused b hd).2.1 hb
    obtain ⟨x, t, hr', hx⟩ := hw.starts hg call (hs.agrees.ready hu hs.admits.1)
    cases hr'.symm.trans hr
    cases hx with
    | answered hq =>
      rw [hs.agrees.reply hu]
      exact ⟨_, _, D, besides hs.agrees (fun b hb => ⟨(hs.unused b hb).1, (hs.unused b hb).2.2⟩) hu
        hs.admits hs.keeps hq, hout⟩
  | @take p q call next raw hr =>
    obtain ⟨w₁, w₂, D, hs, hout⟩ := hs
    have hw : w₂.Shown h₀ p := hs.stands
    have hu : ∀ b ∈ call.uses, b ∉ D := fun b hb hd => (hs.unused b hd).2.1 hb
    obtain ⟨x, t, hr', hx⟩ := hw.starts hg call (hs.agrees.ready hu hs.admits.1)
    cases hr'.symm.trans hr
    cases hx with
    | taken hq ht =>
      exact ⟨w₁, w₂, D, ⟨hs.agrees, fun b hb => ⟨(hs.unused b hb).1, (hs.unused b hb).2.2⟩, ⟨hq, ht⟩,
        hs.admits, hs.keeps⟩, hout⟩
  | @enter p q call next raw result hr =>
    obtain ⟨w₁, w₂, D, hs, hout⟩ := hs
    obtain ⟨hw, ht⟩ : w₂.Shown h₀ p ∧ w₂.Takes p call raw := hs.stands
    have hu := apart hs.keeps hs.unused (uses_of_takes ht)
    obtain ⟨result', t, hr', ha⟩ := hw.enters hg (hs.agrees.ready hu hs.admits.1) ht
    cases hr'.symm.trans hr
    exact ⟨w₁, w₂, D, ⟨hs.agrees, hs.unused, ha, hs.admits, hs.keeps⟩, hout⟩
  | @leave p q call next result a hr =>
    obtain ⟨w₁, w₂, D, hs, hout⟩ := hs
    have ha : w₂.Awaits h₀ p call result := hs.stands
    have hu := apart hs.keeps hs.unused (uses_of_awaits ha)
    obtain ⟨a', t, hr', rfl, hq⟩ := ha.leaves hg (hs.agrees.ready hu hs.admits.1)
    cases hr'.symm.trans hr
    rw [hs.agrees.reply hu]
    exact ⟨_, _, D, besides hs.agrees hs.unused hu hs.admits hs.keeps hq, hout⟩

/-- The program can go on until it is done. -/
theorem OnCourse.exists_step (hg : rt.Generous) (hs : s.OnCourse w program h₀) :
    (∃ a, s.phase = .idle (.done a)) ∨ ∃ s', Step rt s none s' := by
  obtain ⟨w₁, w₂, D, hs, -⟩ := hs
  obtain ⟨p, phase⟩ := s
  cases phase with
  | idle rest =>
    cases rest with
    | done a => exact .inl ⟨a, rfl⟩
    | call call next =>
      have hw : w₂.Shown h₀ p := hs.stands
      have hu : ∀ b ∈ call.uses, b ∉ D := fun b hb hd => (hs.unused b hd).2.1 hb
      obtain ⟨x, q, hr, -⟩ := hw.starts hg call (hs.agrees.ready hu hs.admits.1)
      cases x with
      | inl a => exact .inr ⟨_, .answer hr⟩
      | inr raw => exact .inr ⟨_, .take hr⟩
  | entering call raw next =>
    obtain ⟨hw, ht⟩ : w₂.Shown h₀ p ∧ w₂.Takes p call raw := hs.stands
    have hu := apart hs.keeps hs.unused (uses_of_takes ht)
    obtain ⟨result, q, hr, -⟩ := hw.enters hg (hs.agrees.ready hu hs.admits.1) ht
    exact .inr ⟨_, .enter hr⟩
  | leaving call result next =>
    have ha : w₂.Awaits h₀ p call result := hs.stands
    have hu := apart hs.keeps hs.unused (uses_of_awaits ha)
    obtain ⟨a, q, hr, -⟩ := ha.leaves hg (hs.agrees.ready hu hs.admits.1)
    exact .inr ⟨_, .leave hr⟩

end Running

/-! ## The end -/

/-- When the program is done, the collector can free all that it has left. -/
theorem World.Shown.collects {a : α} (hw : w.Shown h₀ p) (k : ℕ) (hk : k ≤ w.contents.length) :
    ∃ es q w', Execution (Running.Step rt) ⟨p, .idle (.done a)⟩ es ⟨q, .idle (.done a)⟩ ∧
      World.Shown w' h₀ q ∧ w'.contents.length = w.contents.length ∧
      (w'.lost = w.lost ∧ w'.entered = w.entered) ∧ ∀ b < k, w'.contents[b]? = some none := by
  induction k with
  | zero => exact ⟨[], p, w, .refl, hw, rfl, ⟨rfl, rfl⟩, by simp⟩
  | succ k ih =>
    obtain ⟨es, q, w', hrun, hw', hlen, hlost, hnone⟩ := ih (by omega)
    have hlt : k < w'.contents.length := by omega
    obtain ⟨buffer, x, hq, hx, hs⟩ := hw'.find hlt
    cases x with
    | none =>
      refine ⟨es, q, w', hrun, hw', hlen, hlost, fun b hb => ?_⟩
      rcases Nat.lt_succ_iff_lt_or_eq.mp hb with hb | rfl
      · exact hnone b hb
      · exact hx
    | some c =>
      obtain ⟨q', hf, hshown⟩ := hw'.finalize hlt
      refine ⟨_, q', _, hrun.step (.collect hq hs.1.2 trivial hf.run), hshown,
        by simp [World.after, hlen], hlost, fun b hb => ?_⟩
      simp only [World.after]
      rw [List.getElem?_set]
      split_ifs with hbk
      · rfl
      · exact hnone b (by omega)

end FfiBridge
