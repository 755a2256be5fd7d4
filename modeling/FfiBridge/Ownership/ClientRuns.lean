import FfiBridge.Foundation.Execution
import FfiBridge.Ownership.Values

/-! # The allocation ledger of a client

A client obtains values from the constructors of the Rust side, writes into the buffers
it holds, wraps and unwraps payloads, and gives each value once to its matching free.
The invariant is one exchange from the first heap: nothing was handed in, and what is
held back is exactly what the held values own.
-/
namespace FfiBridge
open Foundation

variable (rt : Runtime)

/-- The ways to obtain a value: `FfiBuffer::new` and `ffi_buffer_alloc`, `from_vec`,
`from_json`, `FfiString::new`, `ffi_string_alloc`, `FfiResult::err`, `ffi_echo` and
`ffi_version`. -/
inductive Construct where
  | bufferAlloc (capacity : ℕ)
  | fromVec (vec : Source Vec.owns Vec.Owned)
  | fromJson (json : Source (@exceptOwns String Vec Vec.owns) (ExceptOwned Vec.Owned))
  | string (s : String)
  | stringAlloc (str : Option (List UInt8)) (len : ℕ)
  | err (error : FfiError)
  | echo (input : FfiBuffer)
  | version

namespace Construct

/-- Only `from_json` can return without a value. -/
def run : Construct → Rust (Option Value)
  | bufferAlloc capacity => return some (.buffer (← ffiBufferAlloc rt capacity))
  | fromVec vec => return some (.buffer (← FfiBuffer.fromVec rt (← vec.run)))
  | fromJson json => do
    match ← FfiBuffer.fromJson rt json.run with
    | .ok b => return some (.buffer b)
    | .error _ => return none
  | string s => return some (.string (← FfiString.new rt s))
  | stringAlloc str len => return some (.string (← ffiStringAlloc rt str len))
  | err error => return some (.result (← FfiResult.err rt error))
  | echo input => return some (.result (← ffiEcho rt input))
  | version => return some (.buffer (← ffiVersion rt))

/-- `ffi_echo` is given a buffer the client holds, or none. -/
def Ready (c : Construct) (values : List Value) : Prop :=
  ∀ input, c = .echo input → input = .null ∨ .buffer input ∈ values

end Construct

/-! ## Client runs -/

/-- The heap and the values a client holds. -/
structure Client where
  heap : Heap
  values : List Value

inductive Client.Event where
  | construct (c : Construct)
  | wrap (b : FfiBuffer)
  | write (b : FfiBuffer) (len : ℕ)
  | takePayload (r : FfiResult)
  | free (v : Value)

/-- What a client may write through a buffer it holds. -/
inductive Written (b : FfiBuffer) (h : Heap) : Heap → Prop
  | nothing : Written b h h
  | bytes {id : ℕ} {blk : Block} (init : List UInt8) (fits : init.length ≤ blk.layout.size)
      (hp : b.data = .block id) (hc : b.capacity ≠ 0) (hl : h.live.lookup id = some blk) :
      Written b h (h.overwrite id ⟨blk.layout, init, fits⟩ (Finmap.mem_of_lookup_eq_some hl))

namespace Client

/-- One step: a constructor that returns a value, returns none or panics; `FfiResult::ok`
of a held buffer; a write that may change `len` up to `capacity`; taking a payload out of
a result, which is then zeroed; and the matching free of a held value. -/
inductive Step : Client → Event → Client → Prop
  | made {h h' : Heap} {vs : List Value} {c : Construct} {v : Value} (hc : c.Ready vs)
      (hr : (c.run rt).run h = .ok (some v) h') : Step ⟨h, vs⟩ (.construct c) ⟨h', v :: vs⟩
  | failed {h h' : Heap} {vs : List Value} {c : Construct} (hc : c.Ready vs)
      (hr : (c.run rt).run h = .ok none h') : Step ⟨h, vs⟩ (.construct c) ⟨h', vs⟩
  | panicked {h h' : Heap} {vs : List Value} {c : Construct} {p : PanicPayload} (hc : c.Ready vs)
      (hr : (c.run rt).run h = .error (.panic p) h') : Step ⟨h, vs⟩ (.construct c) ⟨h', vs⟩
  | wrap {h : Heap} {vs : List Value} {b : FfiBuffer} (hv : .buffer b ∈ vs) :
      Step ⟨h, vs⟩ (.wrap b) ⟨h, .result (.ok b) :: vs.erase (.buffer b)⟩
  | write {h h' : Heap} {vs : List Value} {b : FfiBuffer} {len : ℕ} (hv : .buffer b ∈ vs)
      (hw : Written b h h') (hlen : len ≤ b.capacity) :
      Step ⟨h, vs⟩ (.write b len) ⟨h', .buffer { b with len } :: vs.erase (.buffer b)⟩
  | takePayload {h : Heap} {vs : List Value} {r : FfiResult} (hv : .result r ∈ vs) :
      Step ⟨h, vs⟩ (.takePayload r)
        ⟨h, .result { r with payload := .null } :: .buffer r.payload :: vs.erase (.result r)⟩
  | free {h : Heap} {vs : List Value} {v : Value} (hv : v ∈ vs) :
      Step ⟨h, vs⟩ (.free v) ⟨final (v.free.run h), vs.erase v⟩

/-- The accounts since `h₀` are in order: the held values own what was acquired and not
yet released, each its own. -/
structure InOrder (h₀ : Heap) (c : Client) : Prop where
  exchange : Arena.Exchange h₀.toArena [] c.heap.toArena (c.values.flatMap Value.owns)
  owned : ∀ v ∈ c.values, v.Owned c.heap

variable {rt} {h₀ h h' : Heap} {c c' : Client} {e : Event}

theorem inOrder_nil (h₀ : Heap) : InOrder h₀ ⟨h₀, []⟩ := ⟨.refl _, by simp⟩

/-- The one way the accounts stay in order: some held values are traded for others, and
the rest is a frame. -/
theorem InOrder.trade {vs rest : List Value} (us ws : List Value) (hc : InOrder h₀ ⟨h, vs⟩)
    (hp : vs.Perm (us ++ rest))
    (hx : Arena.Exchange h.toArena (us.flatMap Value.owns) h'.toArena (ws.flatMap Value.owns))
    (hw : ∀ v ∈ ws, v.Owned h') : InOrder h₀ ⟨h', ws ++ rest⟩ := by
  obtain ⟨hx', hkept⟩ := hc.exchange.trade hp hx
  refine ⟨hx', fun v hv => ?_⟩
  rcases List.mem_append.mp hv with hv | hv
  · exact hw v hv
  · exact (hc.owned v (hp.mem_iff.mpr (List.mem_append_right _ hv))).congr (hkept v hv)

end Client

namespace Construct

variable {rt} {h : Heap}

/-- What an optional value owns. -/
def owns (o : Option Value) : List ℕ := o.toList.flatMap Value.owns

theorem trade_some {α : Type} {m : Rust α} {outs : α → List ℕ} {post : α → Heap → Prop}
    (wrap : α → Value) (hm : Trade heapLedger [] m outs post h)
    (howns : ∀ a, (wrap a).owns = outs a) (hpost : ∀ a h', post a h' → (wrap a).Represented h') :
    Trade heapLedger [] (do return some (wrap (← m)) : Rust (Option Value)) owns
      (fun o h' => ∀ v ∈ o, v.Represented h') h := by
  refine hm.bind fun a h' ha => ?_
  have hv := hpost a h' ha
  refine .pure ?_ fun v hv' => by cases hv'; exact hv
  simp only [owns, Option.toList_some, List.flatMap_singleton, ← howns]
  exact .pass hv.owned.nodup fun _ => hv.owned.mem_live

/-- Every constructor of a client in order is an exchange, whatever it returns, and its
only possible fault is the echo of bytes nobody wrote. -/
theorem run_trade {c : Construct} (hc : ∀ input, c = .echo input → input.Owned h) :
    Trade heapLedger [] (c.run rt) owns (fun o h' => ∀ v ∈ o, v.Represented h') h := by
  have hbuffer : ∀ {b : FfiBuffer} {h'}, b.Represented h' → (Value.buffer b).Represented h' :=
    Value.represented_buffer.mpr
  have hstring : ∀ {s : FfiString} {h'}, s.Owned h' → (Value.string s).Represented h' :=
    fun hs => ⟨hs, fun _ hb => absurd hb List.not_mem_nil⟩
  cases c with
  | bufferAlloc capacity =>
    exact trade_some .buffer (FfiBuffer.new_trade capacity) (fun _ => rfl) fun _ _ hb => hbuffer hb.1
  | fromVec vec =>
    have hm : Trade heapLedger [] (do FfiBuffer.fromVec rt (← vec.run)) FfiBuffer.owns
        FfiBuffer.Represented h :=
      (vec.trade h).bind fun v h' hv => (FfiBuffer.fromVec_trade hv).mono fun _ _ hb => hb.1
    simpa [run] using trade_some .buffer hm (fun _ => rfl) fun _ _ hb => hbuffer hb
  | fromJson json =>
    refine (FfiBuffer.fromJson_trade json).bind fun r h' hr => ?_
    cases r with
    | ok b =>
      refine .pure ?_ fun v hv => by cases hv; exact hbuffer (hr b rfl)
      simpa [owns] using .pass b.owns_nodup fun _ => (hr b rfl).owned.mem_live
    | error e => exact .pure (.refl _) (by simp)
  | string s =>
    exact trade_some .string (FfiString.new_trade s) (fun _ => rfl) fun _ _ hs => hstring hs.1
  | stringAlloc str len =>
    exact trade_some .string (ffiStringAlloc_trade str len) (fun _ => rfl) fun _ _ hs => hstring hs
  | err error =>
    refine trade_some .result (FfiResult.err_trade error) (fun _ => rfl) fun r _ hr => ?_
    exact Value.represented_result hr.1 (.inl (by rw [hr.2.2.1]; rfl))
  | echo input =>
    exact trade_some .result (ffiEcho_trade (hc input rfl)) (fun _ => rfl) fun _ _ hr =>
      Value.represented_result hr.1 hr.2
  | version => exact trade_some .buffer ffiVersion_trade (fun _ => rfl) fun _ _ hb => hbuffer hb.1

end Construct

namespace Written

variable {b : FfiBuffer} {h h' : Heap}

theorem exchange (hb : b.Owned h) (hw : Written b h h') :
    Arena.Exchange h.toArena b.owns h'.toArena b.owns := by
  cases hw with
  | nothing => exact .pass b.owns_nodup fun _ => hb.mem_live
  | bytes init fits hp hc hl =>
    rw [FfiBuffer.owns, hp, Ptr.owns_block _ hc]
    exact .update _ _ _ (Finmap.mem_of_lookup_eq_some hl)

theorem owned {len : ℕ} (hb : b.Owned h) (hw : Written b h h')
    (hlen : len ≤ b.capacity) : { b with len }.Owned h' := by
  refine ⟨hlen, ?_⟩
  cases hw with
  | nothing => exact hb.2
  | @bytes id blk init fits hp hc hl =>
    obtain hz | ⟨_, _, hk, hl', hs⟩ := hb.2
    · exact absurd hz hc
    · cases hk.symm.trans hp
      cases hl.symm.trans hl'
      exact .inr ⟨_, _, hp, Arena.lookup_update_self _ _ _ (Finmap.mem_of_lookup_eq_some hl), hs⟩

end Written

namespace Client

variable {rt} {h₀ h h' : Heap} {c c' : Client} {e : Event} {es : List Event}

theorem InOrder.echo_owned {vs : List Value} {k : Construct} (hc : InOrder h₀ ⟨h, vs⟩)
    (hk : k.Ready vs) : ∀ input, k = .echo input → input.Owned h := fun input he => by
  rcases hk input he with rfl | hv
  · exact FfiBuffer.owned_null h
  · exact hc.owned _ hv

/-- Every step keeps the accounts in order. -/
theorem InOrder.step (hc : InOrder h₀ c) (hs : Step rt c e c') : InOrder h₀ c' := by
  cases hs with
  | made hk hr =>
    obtain ⟨hx, ho⟩ := (Construct.run_trade (hc.echo_owned hk)).ok _ _ hr
    exact hc.trade [] [_] (.refl _) (by simpa [Construct.owns] using hx)
      (by simpa using (ho _ rfl).owned)
  | failed hk hr =>
    obtain ⟨hx, -⟩ := (Construct.run_trade (hc.echo_owned hk)).ok _ _ hr
    exact hc.trade [] [] (.refl _) hx (by simp)
  | panicked hk hr =>
    have hx := ((Construct.run_trade (hc.echo_owned hk)).stop _ _ hr).2 ⟨_, rfl⟩
    exact hc.trade [] [] (.refl _) hx (by simp)
  | @wrap h vs b hv =>
    have hb := hc.owned _ hv
    refine hc.trade [.buffer b] [.result (.ok b)] (List.perm_cons_erase hv) ?_ ?_
    · simpa [Value.owns] using .pass b.owns_nodup fun _ => hb.mem_live
    · simpa [Value.Owned] using FfiResult.owned_ok hb
  | @write h h' vs b len hv hw hlen =>
    have hb := hc.owned _ hv
    refine hc.trade [.buffer b] [.buffer { b with len }]
      (List.perm_cons_erase hv) ?_ ?_
    · have hx := hw.exchange hb
      simpa [Value.owns] using show Arena.Exchange _ _ _ { b with len }.owns from hx
    · simpa [Value.Owned] using hw.owned hb hlen
  | @takePayload h vs r hv =>
    have hr : r.Owned h := hc.owned _ hv
    refine hc.trade [.result r] [.result { r with payload := .null }, .buffer r.payload]
      (List.perm_cons_erase hv) ?_ ?_
    · simpa [Value.owns, FfiResult.owns] using .pass hr.nodup fun _ => hr.mem_live
    · intro v hv
      simp only [List.mem_cons, List.not_mem_nil, or_false] at hv
      rcases hv with rfl | rfl
      · exact hr.zeroed
      · exact hr.payload
  | @free h vs v hv =>
    have hvo := hc.owned v hv
    rw [Value.run_free hvo]
    refine hc.trade [v] [] (List.perm_cons_erase hv) ?_ (by simp)
    simpa using .releaseAll _ _

theorem InOrder.run (hc : InOrder h₀ c) (hrun : Execution (Step rt) c es c') : InOrder h₀ c' :=
  hrun.invariant (fun _ _ _ hi hs => hi.step hs) hc

/-- Along every client run each held value can be freed: its free returns, gives back live
allocations with the size they were asked for, and nothing for an empty value. No
constructor mistakes an allocation either. Once no value is held, the live allocations are
the initial ones and every new one was released exactly once. -/
theorem runs_balance (hrun : Execution (Step rt) ⟨h₀, []⟩ es c) :
    (∀ v ∈ c.values, v.free.run c.heap = .ok () (c.heap.dropAll v.owns) ∧
      (∀ id ∈ v.owns, id ∈ c.heap.live) ∧
      (v.IsEmpty → v.free.run c.heap = .ok () c.heap)) ∧
    (∀ k : Construct, k.Ready c.values → ∀ f h', (k.run rt).run c.heap = .error (.fault f) h' →
      ∃ id, f = .uninitialised id) ∧
    (c.values = [] → c.heap.live = h₀.live ∧
      ∀ id, h₀.next ≤ id → id < c.heap.next → c.heap.released.count id = 1) := by
  have hc := (inOrder_nil h₀).run hrun
  refine ⟨fun v hv => ?_, fun k hk f h' hr => ?_, fun hnil => ?_⟩
  · have hvo := hc.owned v hv
    refine ⟨Value.run_free hvo, fun _ => hvo.mem_live, fun he => ?_⟩
    rw [Value.run_free hvo, Value.owns_of_isEmpty he, Heap.dropAll_nil]
  · exact ((Construct.run_trade (hc.echo_owned hk)).stop _ _ hr).1 f rfl
  · have hx : Arena.Exchange h₀.toArena [] c.heap.toArena [] := by
      simpa [hnil] using hc.exchange
    refine ⟨hx.live_eq, fun id hge hlt => Arena.count_released hlt ?_⟩
    rw [hx.live_eq]
    exact fun hl => absurd (Arena.lt_next_of_live hl) (Nat.not_lt.mpr hge)

/-- A buffer that is allocated, wrapped, taken out again and freed, and its empty result. -/
theorem runs_balance_wrapped_buffer : ∃ c : Client,
    Execution (Step (.granting .abort)) ⟨Heap.empty, []⟩
      [.free (.buffer ⟨.block 0, 0, 4⟩), .free (.result (.ok .null)),
        .takePayload (.ok ⟨.block 0, 0, 4⟩), .wrap ⟨.block 0, 0, 4⟩,
        .construct (.bufferAlloc 4)] c ∧
    c.values = [] ∧ c.heap.next = 1 ∧ c.heap.live = Heap.empty.live := by
  have h₁ : Execution (Step (.granting .abort)) ⟨Heap.empty, []⟩ [.construct (.bufferAlloc 4)] _ :=
    .single (.made (c := .bufferAlloc 4) (fun _ hc => by cases hc) rfl)
  have h₂ := h₁.step (.wrap (b := ⟨.block 0, 0, 4⟩) (List.mem_singleton_self _))
  have h₃ := h₂.step (.takePayload (r := .ok ⟨.block 0, 0, 4⟩) (List.mem_cons_self ..))
  have h₄ := h₃.step (.free (v := .result (.ok .null)) (List.mem_cons_self ..))
  have h₅ := h₄.step (.free (v := .buffer ⟨.block 0, 0, 4⟩) (List.mem_singleton_self _))
  exact ⟨_, h₅, rfl, rfl, ((runs_balance h₅).2.2 rfl).1⟩

end Client

end FfiBridge
