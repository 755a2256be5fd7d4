import FfiBridge.Foundation.Simulation
import FfiBridge.Rust.Ownership

/-! # Results and the panic wrapper (`errors.rs`)

`catch_panic` is one match on what `catch_unwind` returns; its error arm allocates a
message, and drops the panic payload when the result is already built.
-/
namespace FfiBridge
open Foundation

structure FfiResult where
  errorCode : FfiErrorCode
  errorMessage : FfiString
  payload : FfiBuffer
  deriving DecidableEq, Repr

variable (rt : Runtime)

namespace FfiResult

/-- `FfiResult::ok`. -/
def ok (payload : FfiBuffer) : FfiResult := ⟨.ok, .null, payload⟩

/-- `FfiResult::err`. -/
def err (error : FfiError) : Rust FfiResult := do
  let msg ← FfiString.new rt error.message
  return ⟨error.code, msg, .null⟩

/-- `FfiResult::is_ok`. -/
def isOk (self : FfiResult) : Bool := self.errorCode = .ok

end FfiResult

/-- `ffi_result_free`. -/
def ffiResultFree (result : FfiResult) : Rust Unit := do
  result.errorMessage.dealloc
  result.payload.dealloc

/-! ## `catch_panic` -/

/-- The text `catch_panic` finds in a panic payload. -/
def PanicPayload.text : PanicPayload → String
  | .str text => text
  | .string text => text
  | _ => "unknown panic payload"

variable {σ α : Type}

/-- The panic the destructor of a payload raises, if any. -/
def PanicPayload.dropPanic : PanicPayload → Option PanicPayload
  | .otherPanickingOnDrop next => some next
  | _ => none

/-- Run `m` and drop the payload on the way out. A destructor that panics while a panic
is on its way up ends the process. -/
def PanicPayload.droppedAfter (p : PanicPayload) (m : Program σ α) : Program σ α :=
  match p.dropPanic with
  | none => m
  | some next => fun s =>
    match m.run s with
    | .ok _ t => .error (.panic next) t
    | .error (.panic _) t => .error .abort t
    | .error e t => .error e t

theorem PanicPayload.droppedAfter_of_none {p : PanicPayload} (hd : p.dropPanic = none)
    (m : Program σ α) : p.droppedAfter m = m := by
  unfold droppedAfter
  rw [hd]

/-- A destructor that panics when `m` is done. -/
theorem PanicPayload.run_droppedAfter {p next : PanicPayload} (hd : p.dropPanic = some next)
    (m : Program σ α) (s : σ) : (p.droppedAfter m).run s = match m.run s with
      | .ok _ t => .error (.panic next) t
      | .error (.panic _) t => .error .abort t
      | .error e t => .error e t := by
  unfold droppedAfter
  rw [hd]
  rfl

/-- A destructor that panics lets nothing return. -/
theorem PanicPayload.droppedAfter_ne_ok {p next : PanicPayload} (hd : p.dropPanic = some next)
    (m : Program σ α) (s t : σ) (a : α) : (p.droppedAfter m).run s ≠ .ok a t := by
  rw [run_droppedAfter hd]
  split <;> exact fun h => by cases h

/-- `catch_unwind`, to which a panic only comes back when the crate is compiled to unwind. -/
def catchUnwind (f : Program σ α) : Program σ (Except PanicPayload α) := fun s =>
  match f.run s with
  | .ok a t => .ok (.ok a) t
  | .error (.panic p) t =>
    match rt.strategy with
    | .unwind => .ok (.error p) t
    | .abort => .error .abort t
  | .error e t => .error e t

theorem run_catchUnwind (f : Program σ α) (s : σ) :
    (catchUnwind rt f).run s = match f.run s with
      | .ok a t => .ok (.ok a) t
      | .error (.panic p) t =>
        match rt.strategy with
        | .unwind => .ok (.error p) t
        | .abort => .error .abort t
      | .error e t => .error e t := rfl

/-- `catch_panic`. -/
def catchPanic [Component σ Heap] (f : Program σ (Except FfiError FfiBuffer)) :
    Program σ FfiResult := do
  match ← catchUnwind rt f with
  | .ok (.ok buf) => return .ok buf
  | .ok (.error e) => within (FfiResult.err rt e)
  | .error panicPayload =>
    panicPayload.droppedAfter (within (FfiResult.err rt (.panic panicPayload.text)))

/-! ## Ownership of results -/

namespace FfiResult

/-- The allocations `ffi_result_free` gives back. -/
def owns (r : FfiResult) : List ℕ := r.errorMessage.owns ++ r.payload.owns

/-- The message and the payload are owned, and share no allocation. -/
structure Owned (r : FfiResult) (h : Heap) : Prop where
  message : r.errorMessage.Owned h
  payload : r.payload.Owned h
  nodup : r.owns.Nodup

variable {rt} {r : FfiResult} {h h' : Heap}

@[simp] theorem owns_ok (b : FfiBuffer) : (ok b).owns = b.owns := rfl

theorem owned_ok {b : FfiBuffer} (hb : b.Owned h) : (ok b).Owned h :=
  ⟨FfiString.owned_null h, hb, b.owns_nodup⟩

theorem Owned.mem_live (hr : r.Owned h) {id : ℕ} (hid : id ∈ r.owns) : id ∈ h.live :=
  (List.mem_append.mp hid).elim hr.message.mem_live hr.payload.mem_live

theorem Owned.congr (hr : r.Owned h)
    (hk : ∀ id ∈ r.owns, h'.live.lookup id = h.live.lookup id) : r.Owned h' where
  message := hr.message.congr fun id hid => hk id (List.mem_append_left _ hid)
  payload := hr.payload.congr fun id hid => hk id (List.mem_append_right _ hid)
  nodup := hr.nodup

@[simp] theorem owns_zeroed (r : FfiResult) :
    owns { r with payload := .null } = r.errorMessage.owns := by simp [owns]

theorem Owned.zeroed (hr : r.Owned h) : Owned { r with payload := .null } h where
  message := hr.message
  payload := FfiBuffer.owned_null h
  nodup := by
    rw [owns_zeroed]
    exact (List.nodup_append.mp hr.nodup).1

/-- Freeing an owned result gives back exactly what it owns. -/
theorem run_free (hr : r.Owned h) :
    (ffiResultFree r).run h = .ok () (h.dropAll r.owns) := by
  have hp : r.payload.Owned (h.dropAll r.errorMessage.owns) := by
    refine hr.payload.congr fun id hid => Arena.lookup_releaseAll fun hm => ?_
    exact (List.nodup_append.mp hr.nodup).2.2 id hm id hid rfl
  unfold ffiResultFree
  rw [bind_of_ok (FfiString.run_dealloc hr.message), FfiBuffer.run_dealloc hp, owns,
    Heap.dropAll_append]

theorem err_trade (e : FfiError) : Trade heapLedger [] (err rt e) owns (fun r h' => r.Owned h' ∧
    r.errorCode = e.code ∧ r.payload = .null ∧ r.errorMessage.len = e.message.utf8ByteSize ∧
      r.errorMessage.asStr.run h' = .ok (asBytes e.message) h') h := by
  refine (FfiString.new_trade e.message).bind fun msg h' ⟨hm, hb⟩ => ?_
  have howns : owns ⟨e.code, msg, .null⟩ = msg.owns := by simp [owns]
  have hnodup : msg.owns.Nodup := Ptr.owns_nodup _ _
  refine .pure ?_ ⟨⟨hm, FfiBuffer.owned_null _, howns ▸ hnodup⟩, rfl, rfl, hb⟩
  rw [howns]
  exact .pass hnodup fun _ => hm.mem_live

theorem err_later (e : FfiError) : Respects Heap.Later (err rt e) :=
  (FfiString.new_later _).bind fun _ => .pure _

/-- An error result is built exactly when the allocation of its message is served. -/
theorem run_err_served {e : FfiError} (hs : rt.Serves h e.message.utf8ByteSize) :
    (err rt e).run h = .ok ⟨e.code, ⟨.block h.next, e.message.utf8ByteSize⟩, .null⟩
      (h.store ⟨⟨e.message.utf8ByteSize, hs.le⟩, asBytes e.message, le_rfl⟩) := by
  unfold err
  rw [bind_of_ok (FfiString.run_new_served e.message_ne_empty hs)]
  rfl

theorem run_err_unserved {e : FfiError} (hs : ¬ rt.Serves h e.message.utf8ByteSize) :
    ∃ p h', (err rt e).run h = .error (.panic p) h' ∧ h'.toArena = h.toArena := by
  obtain ⟨p, h', hr, ha⟩ := FfiString.run_new_unserved e.message_ne_empty hs
  unfold err
  exact ⟨p, h', bind_of_error hr _, ha⟩

theorem err_spares (ids : List ℕ) (e : FfiError) : Respects (Heap.Spares ids) (err rt e) := by
  intro h
  by_cases hs : rt.Serves h e.message.utf8ByteSize
  · rw [run_err_served hs]
    exact Arena.Spares.acquire _ _ _
  · obtain ⟨p, h', hr, ha⟩ := run_err_unserved hs
    rw [hr]
    exact Heap.spares_of_eq ha

end FfiResult

/-- The allocation of the error's message is served. -/
def Runtime.ServesMessage (rt : Runtime) (h : Heap) (e : FfiError) : Prop :=
  rt.Serves h e.message.utf8ByteSize

instance (rt : Runtime) (h : Heap) (e : FfiError) : Decidable (rt.ServesMessage h e) :=
  inferInstanceAs (Decidable (rt.Serves h e.message.utf8ByteSize))

theorem err_returns {rt : Runtime} {σ : Type} [Component σ Heap] {e : FfiError} {s : σ}
    (hs : rt.Serves (Component.get s) e.message.utf8ByteSize) :
    ∃ r t, (within (FfiResult.err rt e) : Program σ FfiResult).run s = .ok r t :=
  ⟨_, _, within_of_ok (FfiResult.run_err_served hs)⟩

/-- An error result is only built when its message is served. -/
theorem serves_of_err {rt : Runtime} {σ : Type} [Component σ Heap] {e : FfiError} {s t : σ}
    {r : FfiResult} (hr : (within (FfiResult.err rt e) : Program σ FfiResult).run s = .ok r t) :
    rt.Serves (Component.get s) e.message.utf8ByteSize := by
  by_contra hs
  obtain ⟨p, h, he, -⟩ := FfiResult.run_err_unserved hs
  cases (within_of_error he).symm.trans hr

/-! ## What `catch_panic` does with each end of its closure -/

section
variable {rt} [Component σ Heap] {f : Program σ (Except FfiError FfiBuffer)} {s t : σ}

theorem run_catchPanic_ok {b : FfiBuffer} (hf : f.run s = .ok (.ok b) t) :
    (catchPanic rt f).run s = .ok (.ok b) t := by
  have hc : (catchUnwind rt f).run s = .ok (.ok (.ok b)) t := by
    rw [run_catchUnwind, hf]
  unfold catchPanic
  rw [bind_of_ok hc]
  rfl

theorem run_catchPanic_err {e : FfiError} (hf : f.run s = .ok (.error e) t) :
    (catchPanic rt f).run s = (within (FfiResult.err rt e) : Program σ FfiResult).run t := by
  have hc : (catchUnwind rt f).run s = .ok (.ok (.error e)) t := by
    rw [run_catchUnwind, hf]
  unfold catchPanic
  rw [bind_of_ok hc]

theorem run_catchPanic_unwind {p : PanicPayload} (hu : rt.strategy = .unwind)
    (hf : f.run s = .error (.panic p) t) :
    (catchPanic rt f).run s =
      (p.droppedAfter (within (FfiResult.err rt (.panic p.text))) : Program σ FfiResult).run t := by
  have hc : (catchUnwind rt f).run s = .ok (.error p) t := by
    rw [run_catchUnwind, hf, hu]
  unfold catchPanic
  rw [bind_of_ok hc]

theorem run_catchPanic_abort {p : PanicPayload} (hu : rt.strategy = .abort)
    (hf : f.run s = .error (.panic p) t) : (catchPanic rt f).run s = .error .abort t := by
  have hc : (catchUnwind rt f).run s = .error .abort t := by
    rw [run_catchUnwind, hf, hu]
  unfold catchPanic
  rw [bind_of_error hc]

theorem run_catchPanic_stop {e : Stop} (he : ∀ p, e ≠ .panic p) (hf : f.run s = .error e t) :
    (catchPanic rt f).run s = .error e t := by
  have hc : (catchUnwind rt f).run s = .error e t := by
    rw [run_catchUnwind, hf]
    cases e with
    | panic p => exact absurd rfl (he p)
    | _ => rfl
  unfold catchPanic
  rw [bind_of_error hc]

/-- What the closure owns when it succeeds is what the result owns; an error or a panic
whose payload drops quietly leaves nothing but the message. -/
theorem catchPanic_trade {ins : List ℕ} {f : Rust (Except FfiError FfiBuffer)} {h : Heap}
    (hf : Trade heapLedger ins f (exceptOwns FfiBuffer.owns) (ExceptOwned FfiBuffer.Represented) h)
    (hq : ∀ p h', f.run h = .error (.panic p) h' → p.dropPanic = none) :
    Trade heapLedger ins (catchPanic rt f) FfiResult.owns
      (fun r h' => r.Owned h' ∧ r.payload.Readable h') h := by
  have herr : ∀ e h', Arena.Exchange h.toArena ins h'.toArena [] →
      (catchPanic rt f).run h = (FfiResult.err rt e).run h' →
      Trade heapLedger ins (catchPanic rt f) FfiResult.owns
        (fun r h' => r.Owned h' ∧ r.payload.Readable h') h := by
    intro e h' hx hrun
    have he := @FfiResult.err_trade rt h' e
    refine ⟨fun r t hr => ?_, fun x t hr => ?_⟩
    · obtain ⟨hx', hr, -, hp, -⟩ := he.ok r t (hrun.symm.trans hr)
      exact ⟨hx.seq hx', hr, .inl (by rw [hp]; rfl)⟩
    · obtain ⟨hs, hx'⟩ := he.stop x t (hrun.symm.trans hr)
      exact ⟨hs, fun hres => hx.seq (hx' hres)⟩
  cases hr : f.run h with
  | ok r t =>
    obtain ⟨hx, hp⟩ := hf.ok r t hr
    cases r with
    | ok b =>
      have hb := hp b rfl
      exact .of_ok (run_catchPanic_ok hr) hx ⟨FfiResult.owned_ok hb.owned, hb.readable⟩
    | error e =>
      refine herr e t hx ?_
      rw [run_catchPanic_err hr, within_self]
  | error x t =>
    obtain ⟨hs, hx⟩ := hf.stop x t hr
    by_cases hx' : ∃ p, x = .panic p
    · obtain ⟨p, rfl⟩ := hx'
      cases hu : rt.strategy with
      | unwind =>
        refine herr (.panic p.text) t (hx ⟨p, rfl⟩) ?_
        rw [run_catchPanic_unwind hu hr, p.droppedAfter_of_none (hq p t hr), within_self]
      | abort =>
        exact .of_error (run_catchPanic_abort hu hr) Stop.sound_abort fun ⟨p, hp⟩ => by cases hp
    · exact .of_error (run_catchPanic_stop (fun p hp => hx' ⟨p, hp⟩) hr) hs hx

end

/-! ## What `catch_panic` keeps -/

theorem PanicPayload.droppedAfter_respects {R : σ → σ → Prop} (p : PanicPayload)
    {m : Program σ α} (hm : Respects R m) : Respects R (p.droppedAfter m) := by
  intro s
  have h := hm s
  unfold droppedAfter
  cases p.dropPanic with
  | none => exact h
  | some next =>
    change R s (final (match m.run s with
      | .ok _ t => .error (.panic next) t
      | .error (.panic _) t => .error .abort t
      | .error e t => .error e t))
    cases hr : m.run s with
    | ok a t => simpa [hr] using h
    | error e t =>
      rw [hr] at h
      cases e <;> exact h

/-- What `catch_panic` does after its closure is to make an error, if that. -/
theorem catchPanic_after [Component σ Heap] {R : σ → σ → Prop} [Std.Refl R] {s : σ}
    (f : Program σ (Except FfiError FfiBuffer))
    (herr : ∀ e, Respects R (within (FfiResult.err rt e) : Program σ FfiResult)) :
    R (final (f.run s)) (final ((catchPanic rt f).run s)) := by
  cases hr : f.run s with
  | ok r t =>
    cases r with
    | ok b =>
      rw [run_catchPanic_ok hr]
      exact Std.Refl.refl t
    | error e =>
      rw [run_catchPanic_err hr]
      exact herr e t
  | error e t =>
    by_cases he : ∃ p, e = .panic p
    · obtain ⟨p, rfl⟩ := he
      cases hu : rt.strategy with
      | unwind =>
        rw [run_catchPanic_unwind hu hr]
        exact p.droppedAfter_respects (herr _) t
      | abort =>
        rw [run_catchPanic_abort hu hr]
        exact Std.Refl.refl t
    · rw [run_catchPanic_stop (fun p hp => he ⟨p, hp⟩) hr]
      exact Std.Refl.refl t

/-! ## `catch_panic` on two states -/

section
variable {rt} {τ : Type} {R : σ → τ → Prop}

theorem catchUnwind_alike {f : Program σ α} {f' : Program τ α} (hf : RunAlike R f f') :
    RunAlike R (catchUnwind rt f) (catchUnwind rt f') := by
  intro s t h
  have hend := hf s t h
  rw [run_catchUnwind, run_catchUnwind]
  cases hr : f.run s with
  | ok a s₁ =>
    rw [hr] at hend
    obtain ⟨t₁, hr', h₁⟩ := hend.of_ok
    rw [hr']
    exact .ok _ h₁
  | error e s₁ =>
    rw [hr] at hend
    obtain ⟨t₁, hr', h₁⟩ := hend.of_error
    rw [hr']
    cases e with
    | panic p =>
      cases rt.strategy with
      | unwind => exact .ok _ h₁
      | abort => exact .error _ h₁
    | _ => exact .error _ h₁

theorem PanicPayload.droppedAfter_alike (p : PanicPayload) {m : Program σ α} {m' : Program τ α}
    (hm : RunAlike R m m') : RunAlike R (p.droppedAfter m) (p.droppedAfter m') := by
  cases hd : p.dropPanic with
  | none =>
    rw [p.droppedAfter_of_none hd, p.droppedAfter_of_none hd]
    exact hm
  | some next =>
    intro s t h
    have hend := hm s t h
    rw [p.run_droppedAfter hd, p.run_droppedAfter hd]
    cases hr : m.run s with
    | ok a s₁ =>
      rw [hr] at hend
      obtain ⟨t₁, hr', h₁⟩ := hend.of_ok
      rw [hr']
      exact .error _ h₁
    | error e s₁ =>
      rw [hr] at hend
      obtain ⟨t₁, hr', h₁⟩ := hend.of_error
      rw [hr']
      cases e <;> exact .error _ h₁

/-- Closures that run alike run alike under `catch_panic`, when errors are made alike. -/
theorem catchPanic_alike [Component σ Heap] [Component τ Heap]
    {f : Program σ (Except FfiError FfiBuffer)} {f' : Program τ (Except FfiError FfiBuffer)}
    (hf : RunAlike R f f')
    (herr : ∀ e, RunAlike R (within (FfiResult.err rt e) : Program σ FfiResult)
      (within (FfiResult.err rt e) : Program τ FfiResult)) :
    RunAlike R (catchPanic rt f) (catchPanic rt f') := by
  refine (catchUnwind_alike hf).bind fun r => ?_
  cases r with
  | ok r =>
    cases r with
    | ok b => exact .pure _
    | error e => exact herr e
  | error p => exact p.droppedAfter_alike (herr _)

end

end FfiBridge
