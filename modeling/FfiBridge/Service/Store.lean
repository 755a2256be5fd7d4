import FfiBridge.Foundation.Reference
import FfiBridge.Ownership.Representation
import FfiBridge.Service.Invocations

/-! # The store of buffers

To a program in Go, the buffers are a store of contents: it adds to the store, reads in it and
frees what is in it, and a pointer means the same content until then. Pointers, allocations and the
copies that are made on the way do not show. The calls of the Go API are answered as on that
store, and as on the functions on offer where a callback is invoked.
-/
namespace FfiBridge
open Foundation

variable {rt : Runtime} {p q : Process} {raw : FfiBuffer} {b : BufferRef} {buffer : Buffer}
  {h h' h₀ : Heap} {c : Content} {x : Option Content}

/-! ## Answers of Go calls -/

/-- What a call on `*Buffer`s returns. -/
inductive GoAnswer where
  | made (r : Except GoError BufferRef)
  | length (n : ℤ)
  | isEmpty (e : Bool)
  | bytes (data : Option (List UInt8))
  | decoded (r : Except GoError Unit)
  | fields (r : BufferRaw)
  | done

/-- The call, with what it returns. -/
def GoCall.answer (rt : Runtime) : GoCall → Go GoAnswer
  | newBuffer capacity => do return .made (.ok (← NewBuffer rt capacity))
  | fromBytes data => do return .made (.ok (← FfiBridge.fromBytes rt data.val))
  | fromJSON marshal => do return .made (← FfiBridge.fromJSON rt (marshal.map Subtype.val))
  | len b => do return .length (← Buffer.len b)
  | isEmpty b => do return .isEmpty (← Buffer.isEmpty b)
  | bytes b => do return .bytes (← Buffer.bytes b)
  | toJSON b unmarshal => do return .decoded (← Buffer.toJSON b unmarshal)
  | inspectBuffer b => do return .fields (← FfiBridge.inspectBuffer b)
  | invokeCallback name input => do return .made (← FfiBridge.invokeCallback rt name input)
  | free b => do
    Buffer.free b
    return .done

/-! ## The store -/

/-- A Go slice that is nil where it would be empty. -/
def nilIfEmpty (data : List UInt8) : Option (List UInt8) := if data = [] then none else some data

theorem nilIfEmpty_of_ne {data : List UInt8} (hne : data ≠ []) : nilIfEmpty data = some data :=
  if_neg hne

theorem nilIfEmpty_eq_some {data out : List UInt8} (ho : nilIfEmpty data = some out) :
    data = out ∧ data ≠ [] := by
  unfold nilIfEmpty at ho
  split_ifs at ho with hne
  exact ⟨Option.some.inj ho, hne⟩

/-- What a program in Go can tell of the process: the functions on offer, and what is in the buffers,
with `none` for a freed one. Beside that, how many allocations are lost at least, and how many
callbacks were entered. -/
structure World where
  offer : Offer
  contents : List (Option Content)
  lost : ℕ
  entered : ℕ

namespace World

variable {w : World}

/-- What is in a buffer, unless it was freed. -/
def content (w : World) (b : BufferRef) : Option Content := w.contents[b]?.join

def length (w : World) (b : BufferRef) : ℕ := (w.content b).elim 0 fun c => c.bytes.length

/-- What is to be read in a buffer, if there is anything. -/
def bytes (w : World) (b : BufferRef) : Option (List UInt8) :=
  (w.content b).bind fun c => nilIfEmpty c.bytes

def fields (w : World) (b : BufferRef) : BufferRaw :=
  (w.content b).elim ⟨0, 0⟩ fun c => ⟨c.bytes.length, c.capacity⟩

/-- The bytes an invocation is given. -/
def input (w : World) (b : Option BufferRef) : List UInt8 := (b.bind w.content).elim [] Content.bytes

/-- The world with more buffers, more allocations lost and more callbacks entered. -/
def grow (w : World) (xs : List (Option Content)) (lost entered : ℕ) : World :=
  ⟨w.offer, w.contents ++ xs, w.lost + lost, w.entered + entered⟩

/-- What a call presupposes: a pointer that some call has returned; a capacity that has a layout; a
content whose length is a C `int` where it is copied to Go, be it of a buffer or what an invocation
comes back with; and for an invocation an input that is not freed. -/
def Ready (w : World) : GoCall → Prop
  | .newBuffer capacity => C.size_t capacity ≤ isizeMax
  | .fromBytes _ => True
  | .fromJSON _ => True
  | .len b => b < w.contents.length
  | .isEmpty b => b < w.contents.length
  | .bytes b => b < w.contents.length ∧ w.length b < 2 ^ 31
  | .toJSON b _ => b < w.contents.length ∧ w.length b < 2 ^ 31
  | .inspectBuffer b => ∀ b', b = some b' → b' < w.contents.length
  | .invokeCallback name b =>
    Response.Short (w.offer.invoke name (w.input b)) ∧ ∀ b', b = some b' → (w.content b').isSome
  | .free b => b < w.contents.length

/-- What becomes of bytes that were read, or were not there. -/
def decode (unmarshal : List UInt8 → Except String Unit) : Option (List UInt8) → Except GoError Unit
  | none => .error (.text "ffi: buffer is empty or freed")
  | some data =>
    match unmarshal data with
    | .ok v => .ok v
    | .error err => .error (.text err)

/-- The new buffer for a response, or its error. -/
def respond (w : World) : Response → Except GoError BufferRef
  | .ok _ => .ok w.contents.length
  | .error e => .error (.ffiError e.code.toInt (asBytes e.message))

def reply (w : World) : GoCall → GoAnswer
  | .newBuffer _ => .made (.ok w.contents.length)
  | .fromBytes _ => .made (.ok w.contents.length)
  | .fromJSON (.ok _) => .made (.ok w.contents.length)
  | .fromJSON (.error err) => .made (.error (.wrapped "ffi: json marshal" (.text err)))
  | .len b => .length (w.length b)
  | .isEmpty b => .isEmpty (w.length b = 0)
  | .bytes b => .bytes (w.bytes b)
  | .toJSON b unmarshal => .decoded (decode unmarshal (w.bytes b))
  | .inspectBuffer b => .fields (b.elim ⟨0, 0⟩ w.fields)
  | .invokeCallback name b => .made (w.respond (w.offer.invoke name (w.input b)))
  | .free _ => .done

/-- What is new in the store after a response. -/
def received : Response → List (Option Content)
  | .ok out => [some (.full out)]
  | .error _ => []

def after (w : World) : GoCall → World
  | .newBuffer capacity => w.grow [some ⟨[], C.size_t capacity⟩] 0 0
  | .fromBytes data => w.grow [some (.full data.val)] 0 0
  | .fromJSON (.ok data) => w.grow [some (.full data.val)] 0 0
  | .invokeCallback name b =>
    w.grow (received (w.offer.invoke name (w.input b))) (w.offer.loses name (w.input b))
      (w.offer.enters name)
  | .free b => { w with contents := w.contents.set b none }
  | _ => w

end World

/-- The store, as a program may think of it. -/
def store : Reference World GoCall GoAnswer := ⟨World.Ready, World.reply, World.after⟩

/-! ## What a process shows -/

/-- What is in a buffer of Go: nothing once it was freed. -/
def Buffer.Shows (buffer : Buffer) (h : Heap) : Option Content → Prop
  | none => buffer.freed = true
  | some c => (buffer.freed = false ∧ buffer.finalizer = true) ∧ buffer.inner.Contains c h

theorem Buffer.Shows.congr (hs : buffer.Shows h x)
    (hk : ∀ id ∈ buffer.held, h'.live.lookup id = h.live.lookup id) : buffer.Shows h' x := by
  cases x with
  | none => exact hs
  | some c => exact ⟨hs.1, hs.2.congr fun id hid => hk id (by simpa [Buffer.held, hs.1.1] using hid)⟩

/-- The process shows the world `w`: its buffers hold what is in the store and were all allocated
after `h₀`, beside `ids`, and all that was there in `h₀` is as it was. -/
structure World.Beside (w : World) (h₀ : Heap) (p : Process) (ids : List ℕ) : Prop where
  offers : p.library.Offers w.offer
  size : p.buffers.length = w.contents.length
  shows : ∀ (b : BufferRef) (buffer : Buffer) x, p.buffers[b]? = some buffer → w.contents[b]? = some x →
    buffer.Shows p.heap x
  exchange : Arena.Exchange h₀.toArena [] p.heap.toArena (p.held ++ ids)

/-- The process shows the world `w`, beside what is lost. -/
def World.Shown (w : World) (h₀ : Heap) (p : Process) : Prop :=
  ∃ ids, w.Beside h₀ p ids ∧ w.lost ≤ ids.length ∧ ids.length ≤ w.entered

theorem Process.held_eq (p : Process) : p.held = p.unfreed.flatMap FfiBuffer.owns := by
  unfold held unfreed
  rw [List.flatMap_assoc]
  refine List.flatMap_congr fun buffer _ => ?_
  unfold Buffer.held Buffer.raws
  split_ifs <;> simp

namespace World.Beside

variable {w : World} {ids xs : List ℕ} {m n : ℕ}

theorem shown (hw : w.Beside h₀ p ids) (hm : m ≤ ids.length) (hn : ids.length ≤ n) :
    Shown { w with lost := m, entered := n } h₀ p :=
  ⟨ids, ⟨hw.offers, hw.size, hw.shows, hw.exchange⟩, hm, hn⟩

theorem find (hw : w.Beside h₀ p ids) (hb : b < w.contents.length) :
    ∃ buffer x, p.buffers[b]? = some buffer ∧ w.contents[b]? = some x ∧ buffer.Shows p.heap x := by
  have hp : p.buffers[b]? = some _ := List.getElem?_eq_getElem (hw.size ▸ hb)
  have hx : w.contents[b]? = some _ := List.getElem?_eq_getElem hb
  exact ⟨_, _, hp, hx, hw.shows b _ _ hp hx⟩

/-- Where the buffers and the heap are as they were, so is what is shown. -/
theorem same {o : Offer} (hw : w.Beside h₀ p ids) (hb : q.buffers = p.buffers)
    (hl : q.library.Offers o) (hh : q.heap = p.heap) : Beside { w with offer := o } h₀ q ids := by
  refine ⟨hl, hb ▸ hw.size, ?_, ?_⟩
  · rw [hb, hh]
    exact hw.shows
  · rw [hh, Process.held, hb]
    exact hw.exchange

/-- What a buffer holds is live. -/
theorem mem_live (hw : w.Beside h₀ p ids) (hb : p.buffers[b]? = some buffer) {id : ℕ}
    (hid : id ∈ buffer.held) : id ∈ p.heap.live :=
  hw.exchange.mem_live (List.mem_append_left _
    (List.mem_flatMap.mpr ⟨buffer, List.mem_of_getElem? hb, hid⟩))

/-- Buffers are added, on allocations of their own. -/
theorem grow {new : List Buffer} {cs : List (Option Content)} (hw : w.Beside h₀ p ids)
    (hl : q.library.Offers w.offer) (hb : q.buffers = p.buffers ++ new)
    (hlen : new.length = cs.length)
    (hs : ∀ (i : ℕ) (buffer : Buffer) x, new[i]? = some buffer → cs[i]? = some x → buffer.Shows q.heap x)
    (hx : Arena.Exchange p.heap.toArena [] q.heap.toArena (new.flatMap Buffer.held)) :
    (w.grow cs m n).Beside h₀ q ids where
  offers := hl
  size := by
    rw [hb, World.grow, List.length_append, List.length_append, hw.size, hlen]
  shows b buffer x hbuf hcon := by
    rw [hb] at hbuf
    by_cases hlt : b < p.buffers.length
    · rw [List.getElem?_append_left hlt] at hbuf
      rw [World.grow, List.getElem?_append_left (hw.size ▸ hlt)] at hcon
      exact (hw.shows b buffer x hbuf hcon).congr fun id hid =>
        hx.kept id (hw.mem_live hbuf hid) List.not_mem_nil
    · rw [List.getElem?_append_right (not_lt.mp hlt)] at hbuf
      rw [World.grow, List.getElem?_append_right (hw.size ▸ not_lt.mp hlt), ← hw.size] at hcon
      exact hs _ buffer x hbuf hcon
  exchange := by
    have hall : Arena.Exchange h₀.toArena [] q.heap.toArena
      (new.flatMap Buffer.held ++ (p.held ++ ids)) := hw.exchange.also hx
    have hheld : q.held = p.held ++ new.flatMap Buffer.held := by
      rw [Process.held, hb, List.flatMap_append]
      rfl
    rw [hheld, List.append_assoc]
    exact hall.perm (List.perm_append_comm_assoc _ _ _)

/-- More is allocated besides. -/
theorem more (hw : w.Beside h₀ p ids) (hl : q.library.Offers w.offer) (hb : q.buffers = p.buffers)
    (hx : Arena.Exchange p.heap.toArena [] q.heap.toArena xs) : w.Beside h₀ q (xs ++ ids) where
  offers := hl
  size := hb ▸ hw.size
  shows b buffer x hbuf hcon := by
    rw [hb] at hbuf
    exact (hw.shows b buffer x hbuf hcon).congr fun id hid =>
      hx.kept id (hw.mem_live hbuf hid) List.not_mem_nil
  exchange := by
    rw [Process.held, hb]
    exact (hw.exchange.also hx).perm (List.perm_append_comm_assoc _ _ _)

/-- A buffer is freed, and gives back what it held. -/
theorem giveBack (hw : w.Beside h₀ p ids) (hb : p.buffers[b]? = some buffer)
    (hf : buffer.freed = false) :
    Beside { w with contents := w.contents.set b none } h₀ (p.giveBack b buffer.inner) ids := by
  have hheld : (p.held ++ ids).Perm (buffer.inner.owns ++ ((p.giveBack b buffer.inner).held ++ ids)) := by
    rw [p.held_eq, Process.held_eq, ← List.append_assoc]
    have hperm : p.unfreed.Perm (buffer.inner :: (p.giveBack b buffer.inner).unfreed) :=
      Process.unfreed_giveBack hb hf
    exact (hperm.flatMap_right _).append_right ids
  have hfree : Arena.Exchange p.heap.toArena buffer.inner.owns
    (p.giveBack b buffer.inner).heap.toArena [] := .releaseAll _ _
  refine ⟨hw.offers.congr rfl rfl, ?_, fun b' buffer' x hbuf hcon => ?_,
    (hw.exchange.perm hheld).trans hfree⟩
  · change (List.modify _ _ _).length = (List.set _ _ _).length
    rw [List.length_modify, List.length_set, hw.size]
  · by_cases hne : b' = b
    · subst hne
      cases (Process.buffers_giveBack_self hb).symm.trans hbuf
      rw [List.getElem?_set_self (hw.size ▸ (List.getElem?_eq_some_iff.mp hb).1)] at hcon
      cases hcon
      rfl
    · rw [Process.buffers_giveBack_of_ne _ hne] at hbuf
      rw [List.getElem?_set_ne (Ne.symm hne)] at hcon
      refine (hw.shows b' buffer' x hbuf hcon).congr fun id hid => ?_
      have hq : id ∈ (p.giveBack b buffer.inner).held := List.mem_flatMap.mpr
        ⟨buffer', List.mem_of_getElem? ((Process.buffers_giveBack_of_ne _ hne).trans hbuf), hid⟩
      have hnodup := (hw.exchange.perm hheld).nodup
      refine Arena.lookup_releaseAll fun hown => ?_
      exact (List.nodup_append.mp hnodup).2.2 id hown id (List.mem_append_left _ hq) rfl

/-- Something beside the buffers is given back. -/
theorem release (hw : w.Beside h₀ p (xs ++ ids)) :
    w.Beside h₀ (p.withHeap (p.heap.dropAll xs)) ids := by
  have hx : Arena.Exchange h₀.toArena [] p.heap.toArena (xs ++ (p.held ++ ids)) :=
    hw.exchange.perm (List.perm_append_comm_assoc _ _ _)
  have hfree : Arena.Exchange p.heap.toArena xs (p.heap.dropAll xs).toArena [] := .releaseAll _ _
  refine ⟨hw.offers.congr rfl rfl, hw.size, fun b buffer x hbuf hcon => ?_, hx.trans hfree⟩
  refine (hw.shows b buffer x hbuf hcon).congr fun id hid => Arena.lookup_releaseAll fun hmem => ?_
  have hheld : id ∈ p.held := List.mem_flatMap.mpr ⟨buffer, List.mem_of_getElem? hbuf, hid⟩
  exact (List.nodup_append.mp hx.nodup).2.2 id hmem id (List.mem_append_left _ hheld) rfl

end World.Beside

namespace World.Shown

variable {w : World}

theorem start {l : Library} {o : Offer} (hl : l.Offers o) : Shown ⟨o, [], 0, 0⟩ l.heap (.start l) := by
  refine ⟨[], ⟨hl, rfl, fun b buffer x hb => ?_, .refl _⟩, le_rfl, le_rfl⟩
  simp [Process.start] at hb

theorem offers (hw : w.Shown h₀ p) : p.library.Offers w.offer := by
  obtain ⟨ids, hw, -⟩ := hw
  exact hw.offers

theorem size (hw : w.Shown h₀ p) : p.buffers.length = w.contents.length := by
  obtain ⟨ids, hw, -⟩ := hw
  exact hw.size

theorem find (hw : w.Shown h₀ p) (hb : b < w.contents.length) :
    ∃ buffer x, p.buffers[b]? = some buffer ∧ w.contents[b]? = some x ∧ buffer.Shows p.heap x := by
  obtain ⟨ids, hw, -⟩ := hw
  exact hw.find hb

theorem same {o : Offer} (hw : w.Shown h₀ p) (hb : q.buffers = p.buffers) (hl : q.library.Offers o)
    (hh : q.heap = p.heap) : Shown { w with offer := o } h₀ q := by
  obtain ⟨ids, hw, hlen⟩ := hw
  exact ⟨ids, hw.same hb hl hh, hlen⟩

theorem grow {new : List Buffer} {cs : List (Option Content)} (hw : w.Shown h₀ p)
    (hl : q.library.Offers w.offer) (hb : q.buffers = p.buffers ++ new)
    (hlen : new.length = cs.length)
    (hs : ∀ (i : ℕ) (buffer : Buffer) x, new[i]? = some buffer → cs[i]? = some x → buffer.Shows q.heap x)
    (hx : Arena.Exchange p.heap.toArena [] q.heap.toArena (new.flatMap Buffer.held)) :
    (w.grow cs 0 0).Shown h₀ q := by
  obtain ⟨ids, hw, hids⟩ := hw
  exact ⟨ids, hw.grow hl hb hlen hs hx, hids⟩

/-- One buffer is made. -/
theorem gains (hw : w.Shown h₀ p) (hg : p.Gains q raw c) : (w.grow [some c] 0 0).Shown h₀ q := by
  refine grow hw (hw.offers.congr hg.registry.1 hg.registry.2.1) hg.buffers rfl ?_
    (by simpa [Buffer.held] using hg.exchange)
  intro i buffer x hbuf hcon
  cases i with
  | zero =>
    cases hbuf
    cases hcon
    exact ⟨⟨rfl, rfl⟩, hg.contains⟩
  | succ i => cases hbuf

theorem giveBack (hw : w.Shown h₀ p) (hb : p.buffers[b]? = some buffer) (hf : buffer.freed = false) :
    Shown { w with contents := w.contents.set b none } h₀ (p.giveBack b buffer.inner) := by
  obtain ⟨ids, hw, hlen⟩ := hw
  exact ⟨ids, hw.giveBack hb hf, hlen⟩

end World.Shown

end FfiBridge
