import FfiBridge.Ownership.ClientRuns

/-! # What the values of a client say

A value says what was put into it when it was made, and goes on saying it until the client gives it
up: whatever else is made, written, wrapped, taken out or freed, and whatever constructor fails or
panics. So a JSON value comes out of a `BridgeValue` as it went in.
-/
namespace FfiBridge
open Foundation

variable {rt : Runtime} {h h' h₀ : Heap} {v : Value} {vs : List Value}

/-- What is read of a value. -/
inductive Reading where
  | bytes (data : List UInt8)
  | text (data : List UInt8)
  | result (code : FfiErrorCode) (message payload : List UInt8)
  deriving DecidableEq, Repr

/-- Read all there is to be read. -/
def Value.read : Value → Rust Reading
  | buffer b => do return .bytes (← b.asSlice)
  | string s => do return .text (← s.asStr)
  | result r => do return .result r.errorCode (← r.errorMessage.asStr) (← r.payload.asSlice)

variable {x : Reading} {data : List UInt8}

/-! ## Reading -/

theorem readBytes_state (p : Ptr) (len : ℕ) (h : Heap) : final ((readBytes p len).run h) = h := by
  unfold readBytes
  split_ifs
  · rfl
  · exact fromRawParts_state p len h

/-- A value says `x`. -/
def Value.Says (v : Value) (h : Heap) (x : Reading) : Prop := v.read.run h = .ok x h

namespace Value

theorem says_buffer {b : FfiBuffer} (hr : b.asSlice.run h = .ok data h) :
    (buffer b).Says h (.bytes data) := bind_of_ok hr _

theorem says_string {s : FfiString} (hr : s.asStr.run h = .ok data h) :
    (string s).Says h (.text data) := bind_of_ok hr _

theorem says_result {r : FfiResult} {message payload : List UInt8}
    (hm : r.errorMessage.asStr.run h = .ok message h) (hp : r.payload.asSlice.run h = .ok payload h) :
    (result r).Says h (.result r.errorCode message payload) :=
  (bind_of_ok hm _).trans (bind_of_ok hp _)

/-- What a value says is in its allocations. -/
theorem Says.congr (hx : v.Says h x) (hv : v.Represented h)
    (hk : ∀ id ∈ v.owns, h'.live.lookup id = h.live.lookup id) : v.Says h' x := by
  cases v with
  | buffer b =>
    obtain ⟨data, t, hr, hpure⟩ := bind_eq_ok.mp hx
    cases hpure
    exact says_buffer ((represented_buffer.mp hv).run_congr hk hr)
  | string s =>
    obtain ⟨data, t, hr, hpure⟩ := bind_eq_ok.mp hx
    cases hpure
    have hs : s.Owned h := hv.owned
    exact says_string (hs.2.run_congr hk hr)
  | result r =>
    obtain ⟨message, t, hm, hx⟩ := bind_eq_ok.mp hx
    obtain ⟨payload, u, hp, hpure⟩ := bind_eq_ok.mp hx
    cases hpure
    have hr : r.Owned h := hv.owned
    obtain rfl : t = h := eq_of_final_ok (readBytes_state _ _ _) hm
    refine says_result (hr.message.2.run_congr (fun id hid => hk id (List.mem_append_left _ hid)) hm) ?_
    exact (hv.raw (List.mem_singleton_self r.payload)).run_congr
      (fun id hid => hk id (List.mem_append_right _ hid)) hp

end Value

/-! ## What is put into a value -/

/-- What a constructor puts into the value it makes on `h`. -/
def Construct.Puts (h : Heap) : Construct → Reading → Prop
  | bufferAlloc _, x => x = .bytes []
  | fromVec vec, x => ∃ v h₁ data, vec.run.run h = .ok v h₁ ∧
      (readBytes v.ptr v.len).run h₁ = .ok data h₁ ∧ x = .bytes data
  | fromJson json, x => ∃ v h₁ data, json.run.run h = .ok (.ok v) h₁ ∧
      (readBytes v.ptr v.len).run h₁ = .ok data h₁ ∧ x = .bytes data
  | string s, x => x = .text (asBytes s)
  | stringAlloc none _, x => x = .text []
  | stringAlloc (some memory) len, x =>
    x = .text (if (fromUtf8 (memory.take len)).isOk then memory.take len else [])
  | err e, x => x = .result e.code (asBytes e.message) []
  | echo input, x => ∃ data, input.asSlice.run h = .ok data h ∧ x = .result .ok [] data
  | version, x => x = .bytes (asBytes cargoPkgVersion)

theorem FfiBuffer.reads_fromVec {vec : Vec} {b : FfiBuffer} (hv : vec.Owned h)
    (hr : (FfiBuffer.fromVec rt vec).run h = .ok b h') :
    ∃ data, (readBytes vec.ptr vec.len).run h = .ok data h ∧ b.asSlice.run h' = .ok data h' := by
  obtain ⟨data, -, hread⟩ := run_readBytes hv.readable
  obtain ⟨-, -, -, hb⟩ := (FfiBuffer.fromVec_trade hv).ok b h' hr
  exact ⟨data, hread, hb data hread⟩

theorem FfiString.reads_new {s : String} {str : FfiString}
    (hr : (FfiString.new rt s).run h = .ok str h') : str.asStr.run h' = .ok (asBytes s) h' :=
  ((FfiString.new_trade s).ok str h' hr).2.2.2

/-- An echo that returns has the bytes of its input. -/
theorem ffiEcho_reads {input : FfiBuffer} {r : FfiResult} (hi : input.Owned h)
    (hr : (ffiEcho rt input).run h = .ok r h') : ∃ data copy, input.asSlice.run h = .ok data h ∧
      r = .ok copy ∧ copy.asSlice.run h' = .ok data h' := by
  cases hrun : (echoHandler rt input).run h with
  | ok made t =>
    obtain ⟨data, t₁, hread, hmade⟩ := bind_eq_ok.mp hrun
    obtain rfl : t₁ = h := eq_of_final_ok (readBytes_state _ _ _) hread
    obtain ⟨vec, t₂, hvec, hmade⟩ := bind_eq_ok.mp hmade
    obtain ⟨copy, t₃, hcopy, hmade⟩ := bind_eq_ok.mp hmade
    cases hmade
    cases (run_catchPanic_ok hrun).symm.trans hr
    obtain ⟨-, -, -, hout⟩ := (FfiBuffer.fromVec_toVec_trade data).ok copy _
      ((bind_of_ok hvec _).trans hcopy)
    exact ⟨data, copy, hread, rfl, hout⟩
  | error e t =>
    have hstop : ∀ p, e ≠ .panic p := by
      rintro p rfl
      exact echoHandler_ne_panic hi p t hrun
    cases (run_catchPanic_stop hstop hrun).symm.trans hr

/-- The value says what was put into it. -/
theorem Construct.says {k : Construct} (hk : ∀ input, k = .echo input → input.Owned h)
    (hr : (k.run rt).run h = .ok (some v) h') : ∃ x, k.Puts h x ∧ v.Says h' x := by
  cases k with
  | bufferAlloc capacity =>
    obtain ⟨b, t, hb, hpure⟩ := bind_eq_ok.mp hr
    cases hpure
    obtain ⟨-, -, hlen, -⟩ := (FfiBuffer.new_trade capacity).ok b h' hb
    refine ⟨_, rfl, Value.says_buffer ?_⟩
    rw [FfiBuffer.asSlice, hlen, readBytes_zero]
    rfl
  | fromVec vec =>
    obtain ⟨u, h₁, hu, hr⟩ := bind_eq_ok.mp hr
    obtain ⟨b, t, hb, hpure⟩ := bind_eq_ok.mp hr
    cases hpure
    obtain ⟨data, hread, hout⟩ := FfiBuffer.reads_fromVec ((vec.trade h).ok u h₁ hu).2 hb
    exact ⟨_, ⟨u, h₁, data, hu, hread, rfl⟩, Value.says_buffer hout⟩
  | fromJson json =>
    obtain ⟨made, t, hmade, hpure⟩ := bind_eq_ok.mp hr
    obtain ⟨u, h₁, hu, hmade⟩ := bind_eq_ok.mp hmade
    cases u with
    | error e =>
      cases hmade
      cases hpure
    | ok u =>
      simp only [within_self] at hmade
      obtain ⟨b, t', hb, hmade⟩ := bind_eq_ok.mp hmade
      cases hmade
      cases hpure
      have hown : u.Owned h₁ := ((json.trade h).ok _ h₁ hu).2 u rfl
      obtain ⟨data, hread, hout⟩ := FfiBuffer.reads_fromVec hown hb
      exact ⟨_, ⟨u, h₁, data, hu, hread, rfl⟩, Value.says_buffer hout⟩
  | string s =>
    obtain ⟨str, t, hs, hpure⟩ := bind_eq_ok.mp hr
    cases hpure
    exact ⟨_, rfl, Value.says_string (FfiString.reads_new hs)⟩
  | stringAlloc ptr len =>
    obtain ⟨str, t, hs, hpure⟩ := bind_eq_ok.mp hr
    cases hpure
    cases ptr with
    | none =>
      cases hs
      exact ⟨_, rfl, rfl⟩
    | some memory =>
      refine ⟨_, rfl, Value.says_string ?_⟩
      unfold ffiStringAlloc at hs
      simp only at hs
      split_ifs at hs with hz
      · cases hs
        simp [hz]
        rfl
      · cases hu : fromUtf8 (memory.take len) with
        | ok s =>
          rw [hu] at hs
          have hread := FfiString.reads_new hs
          rw [fromUtf8_eq_ok.mp hu] at hread
          exact hread
        | error e =>
          rw [hu] at hs
          cases hs
          rfl
  | err e =>
    obtain ⟨r, t, he, hpure⟩ := bind_eq_ok.mp hr
    cases hpure
    obtain ⟨-, -, hcode, hpay, -, hmsg⟩ := (FfiResult.err_trade e).ok r h' he
    refine ⟨_, rfl, ?_⟩
    rw [← hcode]
    exact Value.says_result hmsg (by rw [hpay]; rfl)
  | echo input =>
    obtain ⟨r, t, he, hpure⟩ := bind_eq_ok.mp hr
    cases hpure
    obtain ⟨data, copy, hread, rfl, hcopy⟩ := ffiEcho_reads (hk input rfl) he
    exact ⟨_, ⟨data, hread, rfl⟩, Value.says_result rfl hcopy⟩
  | version =>
    obtain ⟨b, t, hb, hpure⟩ := bind_eq_ok.mp hr
    cases hpure
    obtain ⟨-, -, -, hread⟩ := ffiVersion_trade.ok b h' hb
    exact ⟨_, rfl, Value.says_buffer hread⟩

/-! ## Runs of a client -/

namespace Client

variable {c c' : Client} {e : Event}

/-- The value a step gives up. -/
def Event.target : Event → Option Value
  | construct _ => none
  | wrap b | write b _ => some (.buffer b)
  | takePayload r => some (.result r)
  | free v => some v

/-- A step leaves every value it does not give up, with its allocations as they are. -/
theorem InOrder.keeps (hc : InOrder h₀ c) (hs : Step rt c e c') (hv : v ∈ c.values)
    (he : e.target ≠ some v) : v ∈ c'.values ∧
      ∀ id ∈ v.owns, c'.heap.live.lookup id = c.heap.live.lookup id := by
  have hnew : ∀ {h h' : Heap} {vs : List Value} {o : Option Value}, InOrder h₀ ⟨h, vs⟩ → v ∈ vs →
      Arena.Exchange h.toArena [] h'.toArena (Construct.owns o) →
      ∀ id ∈ v.owns, h'.live.lookup id = h.live.lookup id := fun hc hv hx id hid =>
    hx.kept id ((hc.owned v hv).mem_live hid) List.not_mem_nil
  cases hs with
  | made hk hr =>
    obtain ⟨hx, -⟩ := (Construct.run_trade (hc.echo_owned hk)).ok _ _ hr
    exact ⟨List.mem_cons_of_mem _ hv, hnew hc hv hx⟩
  | failed hk hr =>
    obtain ⟨hx, -⟩ := (Construct.run_trade (hc.echo_owned hk)).ok _ _ hr
    exact ⟨hv, hnew hc hv hx⟩
  | panicked hk hr =>
    have hx := ((Construct.run_trade (hc.echo_owned hk)).stop _ _ hr).2 ⟨_, rfl⟩
    exact ⟨hv, @hnew _ _ _ none hc hv hx⟩
  | wrap hb =>
    have hne : v ∈ List.erase _ _ := (List.mem_erase_of_ne fun h => he (congrArg some h.symm)).mpr hv
    exact ⟨List.mem_cons_of_mem _ hne, fun _ _ => rfl⟩
  | @write h h' vs b len hb hw hlen =>
    have hne : v ∈ vs.erase (.buffer b) :=
      (List.mem_erase_of_ne fun h => he (congrArg some h.symm)).mpr hv
    have hx : Arena.Exchange h.toArena ([Value.buffer b].flatMap Value.owns) h'.toArena
        ([Value.buffer b].flatMap Value.owns) := by
      simpa [Value.owns] using hw.exchange (hc.owned _ hb)
    exact ⟨List.mem_cons_of_mem _ hne, (hc.exchange.trade (List.perm_cons_erase hb) hx).2 v hne⟩
  | @takePayload h vs r hr =>
    have hne : v ∈ vs.erase (.result r) :=
      (List.mem_erase_of_ne fun h => he (congrArg some h.symm)).mpr hv
    exact ⟨List.mem_cons_of_mem _ (List.mem_cons_of_mem _ hne), fun _ _ => rfl⟩
  | @free h vs u hu =>
    have hne : v ∈ vs.erase u := (List.mem_erase_of_ne fun h => he (congrArg some h.symm)).mpr hv
    have hx : Arena.Exchange h.toArena ([u].flatMap Value.owns) (h.dropAll u.owns).toArena
        (([] : List Value).flatMap Value.owns) := by
      simpa using .releaseAll _ _
    rw [Value.run_free (hc.owned u hu)]
    exact ⟨hne, (hc.exchange.trade (List.perm_cons_erase hu) hx).2 v hne⟩

/-- A value says, for as long as the client does not give it up, what was put into it when it was
made, whatever the client did before and whatever it does with other values. -/
theorem says_what_was_put_in {es : List Event} {k : Construct}
    (hrun : Execution (Step rt) ⟨h₀, []⟩ es ⟨h, vs⟩) (hk : k.Ready vs)
    (hmade : (k.run rt).run h = .ok (some v) h') :
    ∃ x, k.Puts h x ∧ ∀ fs c, Execution (Guarded (Step rt) fun _ e => e.target ≠ some v)
      ⟨h', v :: vs⟩ fs c → v ∈ c.values ∧ v.Says c.heap x := by
  have hc := (inOrder_nil h₀).run hrun
  obtain ⟨x, hput, hsays⟩ := Construct.says (hc.echo_owned hk) hmade
  have hrep : v.Represented h' :=
    ((Construct.run_trade (hc.echo_owned hk)).ok _ _ hmade).2 v rfl
  refine ⟨x, hput, fun fs c hlater => ?_⟩
  have hinv : InOrder h₀ c ∧ v ∈ c.values ∧ v.Represented c.heap ∧ v.Says c.heap x := by
    refine hlater.invariant (I := fun c => InOrder h₀ c ∧ v ∈ c.values ∧ v.Represented c.heap ∧
      v.Says c.heap x) ?_ ⟨hc.step (.made hk hmade), List.mem_cons_self .., hrep, hsays⟩
    intro c e c' hi hs
    obtain ⟨hc, hv, hr, hx⟩ := hi
    obtain ⟨hv', hkeep⟩ := hc.keeps hs.1 hv hs.2
    exact ⟨hc.step hs.1, hv', hr.congr hkeep, hx.congr hr hkeep⟩
  exact ⟨hinv.2.1, hinv.2.2.2⟩

/-- A string is made, and then a buffer, which is freed. -/
theorem says_what_was_put_in_hi : ∃ c : Client, c.heap.released = [1] ∧
    (Value.string ⟨.block 0, 2⟩).Says c.heap (.text [104, 105]) := by
  obtain ⟨x, hx, hlater⟩ := @says_what_was_put_in (.granting .abort) .empty _ .empty _ _ _
    (.string "hi") .refl (fun _ hc => by cases hc) rfl
  have hsays := (hlater _ _ (.step (.single ⟨.made (c := .bufferAlloc 4) (fun _ hc => by cases hc) rfl,
    fun hc => by cases hc⟩) ⟨.free (List.mem_cons_self ..), fun hc => by cases hc⟩)).2
  rw [show x = .text [104, 105] from hx] at hsays
  exact ⟨_, rfl, hsays⟩

end Client

/-! ## `BridgeValue` -/

/-- A value whose JSON is read back as it was written comes out of a `BridgeValue`, at any time
until the buffer is given up. -/
theorem BridgeValue.round_trip {T : Type} {value : T} {bv : BridgeValue}
    {json : Source (@exceptOwns String Vec Vec.owns) (ExceptOwned Vec.Owned)}
    {parse : List UInt8 → Rust (Except String T)}
    (hserde : ∀ h v h₁ data, json.run.run h = .ok (.ok v) h₁ →
      (readBytes v.ptr v.len).run h₁ = .ok data h₁ →
        ∀ t, ∃ t', (parse data).run t = .ok (.ok value) t')
    {es : List Client.Event} (hrun : Execution (Client.Step rt) ⟨h₀, []⟩ es ⟨h, vs⟩)
    (hnew : (BridgeValue.new rt json.run).run h = .ok (.ok bv) h') :
    ∀ fs c, Execution (Guarded (Client.Step rt) fun _ e => e.target ≠ some (.buffer bv.intoBuffer))
      ⟨h', .buffer bv.intoBuffer :: vs⟩ fs c →
        .buffer bv.intoBuffer ∈ c.values ∧ ∃ t, (bv.decode parse).run c.heap = .ok (.ok value) t := by
  have hmade : ((Construct.fromJson json).run rt).run h = .ok (some (.buffer bv.intoBuffer)) h' := by
    obtain ⟨made, t, hjson, hr⟩ := bind_eq_ok.mp hnew
    cases made with
    | error e => cases hr
    | ok inner =>
      cases hr
      exact bind_of_ok hjson _
  intro fs c hlater
  obtain ⟨x, ⟨v, h₁, data, hjson, hread, rfl⟩, hkeep⟩ :=
    Client.says_what_was_put_in hrun (fun _ hk => by cases hk) hmade
  obtain ⟨hmem, hsays⟩ := hkeep fs c hlater
  obtain ⟨data', t, hslice, hpure⟩ := bind_eq_ok.mp hsays
  cases hpure
  obtain ⟨t', hparse⟩ := hserde h v h₁ data hjson hread c.heap
  refine ⟨hmem, t', ?_⟩
  have hread : (within bv.inner.asSlice : Rust (List UInt8)).run c.heap = .ok data c.heap := by
    rw [within_self]
    exact hslice
  exact (bind_of_ok hread _).trans (bind_of_ok hparse _)

/-- The JSON of five. -/
def fiveJson : Source (@exceptOwns String Vec Vec.owns) (ExceptOwned Vec.Owned) where
  run := do return .ok (← toVec (.granting .abort) [53])
  trade h := by
    refine (Vec.build_trade [53] 1).bind fun v h' hv => ?_
    refine .pure (.pass (Ptr.owns_nodup _ _) fun _ => hv.1.backed.mem_live) fun a ha => ?_
    cases ha
    exact hv.1

/-- Read it back. -/
def parseFive (data : List UInt8) : Rust (Except String UInt8) :=
  pure (if data = [53] then .ok 5 else .error "expected five")

theorem BridgeValue.round_trip_five : ∃ (bv : BridgeValue) (c : Client) (t : Heap),
    c.heap.released = [1] ∧ (bv.decode parseFive).run c.heap = .ok (.ok 5) t := by
  have hserde : ∀ h v h₁ data, fiveJson.run.run h = .ok (.ok v) h₁ →
      (readBytes v.ptr v.len).run h₁ = .ok data h₁ →
        ∀ t, ∃ t', (parseFive data).run t = .ok (.ok 5) t' := by
    intro h v h₁ data hr hread t
    obtain ⟨v', t', hvec, hpure⟩ := bind_eq_ok.mp hr
    cases hpure
    obtain ⟨-, -, -, hfive⟩ := (Vec.build_trade [53] 1).ok v h₁ hvec
    cases hfive.symm.trans hread
    exact ⟨t, rfl⟩
  obtain ⟨-, t, hdecode⟩ := @BridgeValue.round_trip (.granting .abort) .empty _ .empty [] _ _ _ _ _ hserde
    _ .refl rfl _ _ (.step (.single ⟨.made (c := .bufferAlloc 4) (fun _ hc => by cases hc) rfl,
      fun hc => by cases hc⟩) ⟨.free (List.mem_cons_self ..), fun hc => by cases hc⟩)
  exact ⟨_, _, t, rfl, hdecode⟩

end FfiBridge
