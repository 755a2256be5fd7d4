import FfiBridge.Go.Lengths
import FfiBridge.Go.Names
import FfiBridge.Service.Handlers

/-! # Invocations of services

An offer is the function that is registered under each name. Where the callbacks compute the
functions on offer, `InvokeCallback` applies them: the bytes of its input go in, and what comes
back is a buffer of the bytes that came out, or an error. One allocation is lost each time a
callback is entered: the payload it answered with, or the message of its error. Only an empty payload
may be without one.
-/
namespace FfiBridge
open Foundation

variable {rt : Runtime} {p q : Process} {l : Library} {h h' : Heap} {raw input : FfiBuffer}
  {name data bytes out : List UInt8} {r : FfiResult} {e : FfiError} {b : BufferRef}

/-! ## What buffers contain -/

/-- What is read from a buffer and is not empty has a pointer, and the length of the buffer. -/
theorem length_of_reads (hne : bytes ≠ []) (hr : raw.asSlice.run h = .ok bytes h) :
    raw.data ≠ .null ∧ bytes.length = raw.len := by
  have hd : raw.data ≠ .null := by
    intro hd
    unfold FfiBuffer.asSlice readBytes at hr
    rw [if_pos (.inl hd)] at hr
    cases hr
    exact hne rfl
  exact ⟨hd, (readBytes_ok hd hr).2⟩

/-- Nothing is read where there is no pointer, or no length. -/
theorem empty_of_reads (hr : raw.asSlice.run h = .ok [] h) : raw.data = .null ∨ raw.len = 0 := by
  by_cases hd : raw.data = .null
  · exact .inl hd
  · exact .inr (readBytes_ok hd hr).2.symm

/-- What is owned and can be read is represented. -/
theorem FfiBuffer.Owned.represented (ho : raw.Owned h) (hr : raw.asSlice.run h = .ok bytes h) :
    raw.Represented h := by
  refine ⟨ho, ?_⟩
  rcases ho.2 with hz | ⟨id, blk, hp, hl, hs⟩
  · exact .inl (Nat.le_zero.mp (hz ▸ ho.1))
  · refine .inr ⟨id, blk, hp, hl, ?_⟩
    by_contra hlt
    have hz : raw.len ≠ 0 := by omega
    unfold FfiBuffer.asSlice readBytes at hr
    rw [hp, if_neg (by simp [hz])] at hr
    cases (run_fromRawParts_uninitialised hl (hs ▸ ho.1) (not_le.mp hlt)).symm.trans hr

/-- What is told stays told as long as the allocations of the result do. -/
theorem FfiResult.Tells.congr {x : Response} (ht : r.Tells h x) (hown : r.Owned h)
    (hk : ∀ id ∈ r.owns, h'.live.lookup id = h.live.lookup id) : r.Tells h' x := by
  cases x with
  | ok out =>
    refine ⟨ht.1, ?_⟩
    exact (hown.payload.represented ht.2).run_congr
      (fun id hid => hk id (List.mem_append_right _ hid)) ht.2
  | error e =>
    refine ⟨⟨ht.1.1, ht.1.2.1, ?_⟩, ht.2⟩
    exact hown.message.2.run_congr (fun id hid => hk id (List.mem_append_left _ hid)) ht.1.2.2

/-- What is in a buffer, and how much room it has. -/
structure Content where
  bytes : List UInt8
  capacity : ℕ

/-- A buffer that is full. -/
def Content.full (bytes : List UInt8) : Content := ⟨bytes, bytes.length⟩

/-- The buffer is represented, and this is what it is read as. -/
structure FfiBuffer.Contains (raw : FfiBuffer) (c : Content) (h : Heap) : Prop where
  represented : raw.Represented h
  reads : raw.asSlice.run h = .ok c.bytes h
  len : raw.len = c.bytes.length
  capacity : raw.capacity = c.capacity

namespace FfiBuffer

theorem contains_null (h : Heap) : null.Contains (.full []) h := ⟨represented_null h, rfl, rfl, rfl⟩

theorem Contains.congr {c : Content} (hc : raw.Contains c h)
    (hk : ∀ id ∈ raw.owns, h'.live.lookup id = h.live.lookup id) : raw.Contains c h' :=
  ⟨hc.represented.congr hk, hc.represented.run_congr hk hc.reads, hc.len, hc.capacity⟩

theorem Contains.length_le {c : Content} (hc : raw.Contains c h) : c.bytes.length ≤ isizeMax := by
  have hle := hc.represented.owned.1
  have hmax := hc.represented.owned.2.le_isizeMax
  rw [← hc.len]
  omega

/-- A buffer with bytes in it has a pointer, and a length that is not zero. -/
theorem Contains.ne_null {c : Content} (hc : raw.Contains c h) (hne : c.bytes ≠ []) :
    raw.data ≠ .null ∧ raw.len ≠ 0 :=
  ⟨(length_of_reads hne hc.reads).1,
    fun hz => hne (List.length_eq_zero_iff.mp (hc.len.symm.trans hz))⟩

/-- A block just stored, with the bytes that are in it. -/
theorem contains_store {data : List UInt8} (hs : data.length ≤ isizeMax) :
    Contains ⟨.block h.next, data.length, data.length⟩ (.full data)
      (h.store ⟨⟨data.length, hs⟩, data, le_rfl⟩) :=
  ⟨⟨⟨le_rfl, Ptr.backed_store rfl rfl⟩, Ptr.readable_store le_rfl⟩, Ptr.run_readBytes_store rfl, rfl, rfl⟩

end FfiBuffer

/-! ## Buffers that come and go -/

/-- From `p` to `q` a buffer is made that contains `c`, and the registry is as it was. -/
structure Process.Gains (p q : Process) (raw : FfiBuffer) (c : Content) : Prop where
  buffers : q.buffers = p.buffers ++ [⟨raw, false, true⟩]
  exchange : Arena.Exchange p.heap.toArena [] q.heap.toArena raw.owns
  registry : p.library.SameRegistry q.library
  contains : raw.Contains c q.heap

theorem NewBuffer_gains (hg : rt.Generous) {capacity : ℤ} (hs : C.size_t capacity ≤ isizeMax)
    (p : Process) : Yields (NewBuffer rt capacity) p fun b q =>
      b = p.buffers.length ∧ ∃ raw, p.Gains q raw ⟨[], C.size_t capacity⟩ := by
  obtain ⟨raw, h, hr⟩ : ∃ raw h, (FfiBuffer.new rt (C.size_t capacity)).run p.heap = .ok raw h := by
    by_cases hz : C.size_t capacity = 0
    · rw [hz]
      exact ⟨_, _, rfl⟩
    · exact ⟨_, _, FfiBuffer.run_new_served hz (hg.serves hs)⟩
  obtain ⟨hx, hrep, hlen, hcap⟩ := (FfiBuffer.new_trade _).ok raw h hr
  have halloc : (within (ffiBufferAlloc rt (C.size_t capacity)) : Go FfiBuffer).run p =
    .ok raw (p.withHeap h) := within_of_ok hr
  have hread : raw.asSlice.run h = .ok [] h := by
    rw [FfiBuffer.asSlice, hlen, readBytes_zero]
    rfl
  exact .of_ok (bind_of_ok halloc _) ⟨rfl, raw, rfl, hx, ⟨rfl, rfl, rfl⟩, hrep, hread, hlen, hcap⟩

theorem fromBytes_gains (hg : rt.Generous) (hs : data.length ≤ isizeMax) (p : Process) :
    Yields (fromBytes rt data) p fun b q =>
      b = p.buffers.length ∧ ∃ raw, p.Gains q raw (.full data) := by
  by_cases hne : data = []
  · subst hne
    exact .of_ok run_fromBytes_nil
      ⟨rfl, .null, rfl, .refl _, ⟨rfl, rfl, rfl⟩, FfiBuffer.contains_null _⟩
  · exact .of_ok (run_fromBytes hne (hg.serves hs)) ⟨rfl, _, rfl,
      Ptr.exchange_store (List.length_eq_zero_iff.not.mpr hne), ⟨rfl, rfl, rfl⟩,
      FfiBuffer.contains_store hs⟩

theorem run_copyBuffer_empty (he : raw.data = .null ∨ raw.len = 0) :
    (copyBuffer rt raw).run p = (newBuffer .null).run p := by
  unfold copyBuffer
  rw [if_pos he]

/-- A copy made by Go holds the same bytes, when there are few enough for a C `int`. -/
theorem copyBuffer_gains (hg : rt.Generous) (hlt : bytes.length < 2 ^ 31)
    (hr : raw.asSlice.run p.heap = .ok bytes p.heap) :
    Yields (copyBuffer rt raw) p fun b q =>
      b = p.buffers.length ∧ ∃ raw', p.Gains q raw' (.full bytes) := by
  by_cases hne : bytes = []
  · subst hne
    exact .of_ok (run_copyBuffer_empty (empty_of_reads hr))
      ⟨rfl, .null, rfl, .refl _, ⟨rfl, rfl, rfl⟩, FfiBuffer.contains_null _⟩
  · obtain ⟨hd, hlen⟩ := length_of_reads hne hr
    have hz : raw.len ≠ 0 := fun hz => hne (List.length_eq_zero_iff.mp (hlen.trans hz))
    have hread : (C.GoBytes raw.data (C.int raw.len)).run (p.crossed raw) =
        .ok bytes (p.crossed raw) :=
      (goBytes_whole_iff (p := p.crossed raw) hd hr hlen).mpr (by omega)
    have hrun : (copyBuffer rt raw).run p = (fromBytes rt bytes).run (p.crossed raw) := by
      unfold copyBuffer
      rw [if_neg (by simp [hd, hz]), bind_of_ok (run_crossing _ _), bind_of_ok hread]
    have hle : bytes.length ≤ isizeMax := by
      unfold isizeMax
      omega
    exact (fromBytes_gains hg hle (p.crossed raw)).of_eq hrun |>.mono fun b q ⟨hb, raw', hgain⟩ =>
      ⟨hb, raw', hgain.buffers, hgain.exchange, hgain.registry, hgain.contains⟩

/-! ## Results in Go -/

theorem run_checkResult_tells (hown : r.Owned p.heap) (ht : r.Tells p.heap (.error e))
    (hlt : e.message.utf8ByteSize < 2 ^ 31) : (checkResult rt r).run p =
      .ok (.error (.ffiError e.code.toInt (asBytes e.message))) (p.withHeap (p.heap.dropAll r.owns)) := by
  obtain ⟨⟨hcode, -, hmsg⟩, hlen⟩ := ht
  have hread := (goString_whole_iff hmsg hlen.symm).mpr (hlen ▸ hlt)
  have hrun := @run_checkResult_error rt _ _ _ (hcode ▸ e.code_ne_ok) hown hread
  rwa [hcode] at hrun

/-- The payload becomes a buffer of Go. -/
theorem checkResult_gains (hg : rt.Generous) (hlt : bytes.length < 2 ^ 31)
    (ht : r.Tells p.heap (.ok bytes)) : Yields (checkResult rt r) p fun ret q =>
      ret = .ok p.buffers.length ∧ ∃ raw, p.Gains q raw (.full bytes) := by
  obtain ⟨hr, hread⟩ := ht
  have hok : r.errorCode = .ok := by
    rw [hr]
    rfl
  have hzero : { r with payload := .null } = FfiResult.ok .null := by
    rw [hr]
    rfl
  refine .of_eq (run_checkResult_ok hok) ?_
  refine (copyBuffer_gains hg hlt hread).bind fun b q ⟨hb, raw, hgain⟩ => ?_
  have hfree : (within (ffiResultFree { r with payload := .null }) : Go Unit).run q = .ok () q := by
    rw [hzero]
    exact within_of_ok (FfiResult.run_free (FfiResult.owned_ok (FfiBuffer.owned_null q.heap)))
  exact .of_ok (bind_of_ok hfree _) ⟨hb ▸ rfl, raw, hgain⟩

/-! ## What is on offer -/

/-- A payload, or a message, whose length is a C `int`. -/
def Response.Short : Response → Prop
  | .ok out => out.length < 2 ^ 31
  | .error e => e.message.utf8ByteSize < 2 ^ 31

instance : DecidablePred Response.Short
  | .ok out => inferInstanceAs (Decidable (out.length < 2 ^ 31))
  | .error e => inferInstanceAs (Decidable (e.message.utf8ByteSize < 2 ^ 31))

theorem Response.Short.served {x : Response} (hs : x.Short) (hx : x = .error e) :
    e.message.utf8ByteSize ≤ isizeMax := by
  subst hx
  have hlt : e.message.utf8ByteSize < 2 ^ 31 := hs
  unfold isizeMax
  omega

/-- The functions on offer, by name. -/
abbrev Offer := String → Option (List UInt8 → Response)

/-- What is registered computes what is on offer. -/
structure Library.Offers (l : Library) (o : Offer) : Prop where
  sound : l.poisoned = false
  computes : ∀ n, Option.Rel (fun cb f => cb.Computes f) (l.callbacks.lookup n) (o n)

namespace Offer

/-- The function under a name as Go passes it. -/
def find (o : Offer) (name : List UInt8) : Option (List UInt8 → Response) :=
  match cstrToString (some (C.CString name)) with
  | .ok n => o n
  | .error _ => none

/-- What an invocation tells its caller. -/
def invoke (o : Offer) (name bytes : List UInt8) : Response :=
  match cstrToString (some (C.CString name)) with
  | .error e => .error e
  | .ok n =>
    match o n with
    | none => .error (.notFound n)
    | some f =>
      match f bytes with
      | .ok out => .ok out
      | .error e => .error (.unknown (callbackErrorText n e.code))

/-- How many callbacks are entered when a name is invoked. -/
def enters (o : Offer) (name : List UInt8) : ℕ := if (o.find name).isSome then 1 else 0

/-- The allocations that are lost at least: none where the payload is empty. -/
def loses (o : Offer) (name bytes : List UInt8) : ℕ :=
  match o.invoke name bytes with
  | .ok [] => 0
  | _ => o.enters name

theorem enters_of_find {o : Offer} {f : List UInt8 → Response} (hf : o.find name = some f) :
    o.enters name = 1 := by simp [enters, hf]

end Offer

/-! ## Invocations -/

variable {l' : Library} {o : Offer}

theorem Library.Offers.congr (hl : l.Offers o) (hc : l'.callbacks = l.callbacks)
    (hp : l'.poisoned = l.poisoned) : l'.Offers o :=
  ⟨hp.trans hl.sound, fun n => hc ▸ hl.computes n⟩

theorem length_owns_le (ptr : Ptr) (size : ℕ) : (ptr.owns size).length ≤ 1 := by
  cases ptr with
  | block id =>
    unfold Ptr.owns
    split_ifs <;> simp
  | null | dangling => exact Nat.zero_le _

theorem length_owns {ptr : Ptr} {size : ℕ} (hp : ptr.Backed size h) (hz : size ≠ 0) :
    (ptr.owns size).length = 1 := by
  rcases hp with hz' | ⟨id, blk, rfl, -, -⟩
  · exact absurd hz' hz
  · rw [Ptr.owns_block id hz]
    rfl

theorem length_owns_error (hown : r.Owned h) (ht : r.Tells h (.error e)) : r.owns.length = 1 := by
  obtain ⟨⟨-, hpay, -⟩, hlen⟩ := ht
  have hz : r.errorMessage.len ≠ 0 := by
    rw [hlen, Ne, String.utf8ByteSize_eq_zero_iff]
    exact e.message_ne_empty
  unfold FfiResult.owns
  rw [hpay, FfiBuffer.owns_null, List.append_nil]
  exact length_owns hown.message.1 hz

theorem length_owns_payload (hown : r.Owned h) (hne : out ≠ []) (ht : r.Tells h (.ok out)) :
    r.payload.owns.length = 1 := by
  obtain ⟨-, hlen⟩ := length_of_reads hne ht.2
  have hpos := List.length_pos_of_ne_nil hne
  have hle := hown.payload.1
  exact length_owns hown.payload.2 (by omega)

/-- An error the library makes. -/
theorem err_tells (hg : rt.Generous) (he : e.message.utf8ByteSize ≤ isizeMax) (l : Library) :
    Yields (within (FfiResult.err rt e) : Program Library FfiResult) l fun r l' =>
      l.SameRegistry l' ∧ Arena.Exchange l.heap.toArena [] l'.heap.toArena r.owns ∧
        r.Owned l'.heap ∧ r.Tells l'.heap (.error e) := by
  obtain ⟨r, l', hr⟩ := err_returns (s := l) (hg.serves he)
  obtain ⟨hcar, hsame⟩ := made_of_within hr
  obtain ⟨hx, hown, -, -, hlen, -⟩ := err_of_within hr
  exact .of_ok hr ⟨hsame, hx, hown, hcar, hlen⟩

/-- What an invocation does: it tells what is on offer, and `lost` is out of reach. -/
structure Invoked (o : Offer) (name bytes : List UInt8) (l : Library) (r : FfiResult)
    (l' : Library) (lost : List ℕ) : Prop where
  offers : l'.Offers o
  owned : r.Owned l'.heap
  tells : r.Tells l'.heap (o.invoke name bytes)
  exchange : Arena.Exchange l.heap.toArena [] l'.heap.toArena (r.owns ++ lost)
  loses : o.loses name bytes ≤ (r.payload.owns ++ lost).length
  enters : (r.payload.owns ++ lost).length ≤ o.enters name

/-- An invocation that enters nothing. -/
theorem invoked_of_err (hl : l.Offers o) (ho : o.invoke name bytes = .error e)
    (hf : o.find name = none) (hs : l.SameRegistry l')
    (hx : Arena.Exchange l.heap.toArena [] l'.heap.toArena r.owns) (hown : r.Owned l'.heap)
    (ht : r.Tells l'.heap (.error e)) : Invoked o name bytes l r l' [] where
  offers := hl.congr hs.1 hs.2.1
  owned := hown
  tells := ho ▸ ht
  exchange := by rwa [List.append_nil]
  loses := by simp [Offer.loses, Offer.enters, ho, hf]
  enters := by simp [ht.1.2.1]

/-- The payload of the callback is the payload of the result. -/
theorem invoked_of_ok {f : List UInt8 → Response} {cb : CallbackFn} (hl : l.Offers o) (hf : o.find name = some f)
    (ho : o.invoke name bytes = .ok out) (hx : Arena.Exchange l.heap.toArena [] h.toArena r.owns)
    (hown : r.Owned h) (ht : r.Tells h (.ok out)) :
    Invoked o name bytes l (FfiResult.ok r.payload) (l.called cb input h) [] where
  offers := hl.congr rfl rfl
  owned := FfiResult.owned_ok hown.payload
  tells := by
    rw [ho]
    exact ⟨rfl, ht.2⟩
  exchange := by
    rw [ht.1] at hx
    simpa using hx
  loses := by
    rw [Offer.loses, ho, List.append_nil]
    cases out with
    | nil => exact Nat.zero_le _
    | cons b out =>
      have hone : r.payload.owns.length = 1 := length_owns_payload hown (List.cons_ne_nil b out) ht
      exact ((Offer.enters_of_find hf).trans hone.symm).le
  enters := by
    rw [List.append_nil]
    exact (length_owns_le _ _).trans_eq (Offer.enters_of_find hf).symm

/-- The result of the callback is dropped, and an error is made instead. -/
theorem invoked_of_error {f : List UInt8 → Response} {cb : CallbackFn} {e' : FfiError}
    {r' : FfiResult} (hl : l.Offers o) (hf : o.find name = some f) (ho : o.invoke name bytes = .error e')
    (hx : Arena.Exchange l.heap.toArena [] h.toArena r.owns) (hown : r.Owned h)
    (ht : r.Tells h (.error e)) (hs : (l.called cb input h).SameRegistry l')
    (hx' : Arena.Exchange h.toArena [] l'.heap.toArena r'.owns) (hown' : r'.Owned l'.heap)
    (ht' : r'.Tells l'.heap (.error e')) : Invoked o name bytes l r' l' r.owns where
  offers := hl.congr hs.1 hs.2.1
  owned := hown'
  tells := ho ▸ ht'
  exchange := hx.also hx'
  loses := by simp [Offer.loses, ho, Offer.enters_of_find hf, ht'.1.2.1, length_owns_error hown ht]
  enters := by simp [Offer.enters_of_find hf, ht'.1.2.1, length_owns_error hown ht]

theorem ffiInvokeCallback_invoked (hg : rt.Generous) (hl : l.Offers o)
    (hshort : Response.Short (o.invoke name bytes))
    (hin : input.asSlice.run l.heap = .ok bytes l.heap) :
    Yields (ffiInvokeCallback rt (some (C.CString name)) input) l fun r l' =>
      ∃ lost, Invoked o name bytes l r l' lost := by
  cases hn : cstrToString (some (C.CString name)) with
  | error e =>
    have ho : o.invoke name bytes = .error e := by simp [Offer.invoke, hn]
    refine ((err_tells hg (hshort.served ho) l).mono fun r l' ⟨hs, hx, hown, ht⟩ => ?_).of_eq
      (run_invoke_invalid hn)
    exact ⟨[], invoked_of_err hl ho (by simp [Offer.find, hn]) hs hx hown ht⟩
  | ok n =>
    have hrel := hl.computes n
    cases hcb : l.callbacks.lookup n with
    | none =>
      rw [hcb] at hrel
      have hf : o n = none := by
        generalize o n = f at hrel
        cases hrel
        rfl
      have ho : o.invoke name bytes = .error (.notFound n) := by simp [Offer.invoke, hn, hf]
      refine ((err_tells hg (hshort.served ho) l).mono fun r l' ⟨hs, hx, hown, ht⟩ => ?_).of_eq
        (run_invoke_notFound hn hl.sound hcb)
      exact ⟨[], invoked_of_err hl ho (by simp [Offer.find, hn, hf]) hs hx hown ht⟩
    | some cb =>
      rw [hcb] at hrel
      obtain ⟨f, hf, hc⟩ : ∃ f, o n = some f ∧ cb.Computes f := by
        generalize o n = f at hrel
        cases hrel with
        | some hc => exact ⟨_, rfl, hc⟩
      have hfind : o.find name = some f := by simp [Offer.find, hn, hf]
      obtain ⟨r, h, hr, hx, hown, ht⟩ := hc l.heap input bytes hin
      cases hresp : f bytes with
      | ok out =>
        rw [hresp] at ht
        have ho : o.invoke name bytes = .ok out := by simp [Offer.invoke, hn, hf, hresp]
        exact .of_ok (run_invoke_ok hn hl.sound hcb hr ht.isOk)
          ⟨[], invoked_of_ok hl hfind ho hx hown ht⟩
      | error e =>
        rw [hresp] at ht
        have ho : o.invoke name bytes = .error (.unknown (callbackErrorText n e.code)) := by
          simp [Offer.invoke, hn, hf, hresp]
        have hrun := @run_invoke_error rt _ _ _ _ _ _ _ hn hl.sound hcb hr ht.isOk
        rw [ht.1.1] at hrun
        refine ((err_tells hg (hshort.served ho) _).mono fun r' l' ⟨hs, hx', hown', ht'⟩ => ?_).of_eq
          hrun
        exact ⟨r.owns, invoked_of_error hl hfind ho hx hown ht hs hx' hown' ht'⟩

end FfiBridge
