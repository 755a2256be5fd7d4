import FfiBridge.Foundation.Arena
import FfiBridge.Foundation.Component

/-! # The allocator and the ways a run stops

Allocations are the blocks of an arena: a pointer names its allocation for ever, as
provenance does, so a stale pointer stays stale when the allocator reuses an address.
A runtime fixes what the code does not: which requests the allocator grants, how far
`shrink_to_fit` shrinks, and the panic strategy the crate is compiled with.
-/
namespace FfiBridge
open Foundation

/-- Null, the aligned dangling pointer of an empty `Vec`, or the start of an allocation. -/
inductive Ptr where
  | null
  | dangling
  | block (id : ℕ)
  deriving DecidableEq, Repr

def isizeMax : ℕ := 2 ^ 63 - 1

/-- The layout of a byte array, which may not exceed `isize::MAX`. -/
structure Layout where
  size : ℕ
  le : size ≤ isizeMax
  deriving DecidableEq

/-- `Layout::array::<u8>(n)`. -/
def Layout.array (n : ℕ) : Option Layout := if hn : n ≤ isizeMax then some ⟨n, hn⟩ else none

/-- An allocation made with `layout`, whose first `init.length` bytes are initialised. -/
structure Block where
  layout : Layout
  init : List UInt8
  fits : init.length ≤ layout.size
  deriving DecidableEq

/-- A block as `alloc` returns it. -/
def Block.fresh (layout : Layout) : Block := ⟨layout, [], Nat.zero_le _⟩

/-- The live allocations with their history, the number of requests made so far, and all
that client code keeps elsewhere, coded as a number. -/
structure Heap extends Arena Block where
  requests : ℕ
  world : ℕ

/-- What a panic carries: a `&'static str`, a `String`, or a value of another type,
whose destructor may panic in turn. -/
inductive PanicPayload where
  | str (text : String)
  | string (text : String)
  | other
  | otherPanickingOnDrop (next : PanicPayload)
  deriving DecidableEq, Repr

/-- Undefined behaviour on an allocation. -/
inductive Fault where
  | doubleFree (id : ℕ)
  | wrongLayout (id : ℕ)
  | useAfterFree (id : ℕ)
  | outOfBounds (id : ℕ)
  | uninitialised (id : ℕ)
  | invalidPointer (p : Ptr)
  deriving DecidableEq, Repr

/-- Why a run does not return: a Rust panic on its way up, the end of the process,
undefined behaviour, or a panic or a fatal error of the Go runtime. -/
inductive Stop where
  | panic (payload : PanicPayload)
  | abort
  | fault (f : Fault)
  | goPanic (text : String)
  | goFatal (text : String)
  deriving DecidableEq, Repr

/-- The `panic` setting of a profile. -/
inductive PanicStrategy where
  | unwind
  | abort
  deriving DecidableEq, Repr

/-- `grants i n`: request number `i`, for `n` bytes, is served. `shrunk len cap` is the
capacity `shrink_to_fit` leaves. -/
structure Runtime where
  strategy : PanicStrategy
  grants : ℕ → ℕ → Bool
  shrunk : ℕ → ℕ → ℕ
  le_shrunk : ∀ len cap, len ≤ cap → len ≤ shrunk len cap
  shrunk_le : ∀ len cap, len ≤ cap → shrunk len cap ≤ cap

/-- The runtime that serves every request and shrinks to the length. -/
def Runtime.granting (strategy : PanicStrategy) : Runtime where
  strategy := strategy
  grants _ _ := true
  shrunk len _ := len
  le_shrunk _ _ _ := le_rfl
  shrunk_le _ _ h := h

/-- The runtime whose allocator refuses every request. -/
def Runtime.refusing (strategy : PanicStrategy) : Runtime :=
  { Runtime.granting strategy with grants := fun _ _ => false }

abbrev Program (σ α : Type) := EStateM Stop σ α

/-- Programs of the Rust side that only use the heap. -/
abbrev Rust (α : Type) := Program Heap α

/-- The next request is served: it has a layout and the allocator grants it. -/
structure Runtime.Serves (rt : Runtime) (h : Heap) (n : ℕ) : Prop where
  le : n ≤ isizeMax
  granted : rt.grants h.requests n = true

instance (rt : Runtime) (h : Heap) (n : ℕ) : Decidable (rt.Serves h n) :=
  decidable_of_iff (n ≤ isizeMax ∧ rt.grants h.requests n = true)
    ⟨fun hs => ⟨hs.1, hs.2⟩, fun hs => ⟨hs.le, hs.granted⟩⟩

/-- `panic!` with a literal message. -/
def panic {σ α : Type} (text : String) : Program σ α := throw (.panic (.str text))

/-- The payload of `Result::expect(text)` on a `LayoutError`. -/
def PanicPayload.layoutError (text : String) : PanicPayload := .string s!"{text}: LayoutError"

/-- The value, or a panic if there is none. -/
def expect {σ α : Type} (payload : PanicPayload) : Option α → Program σ α
  | some a => pure a
  | none => throw (.panic payload)

variable (rt : Runtime)

namespace Heap

def empty : Heap := ⟨.empty, 0, 0⟩

/-- The heap after a granted request whose block holds `b`. -/
def store (h : Heap) (b : Block) : Heap := ⟨h.acquire b, h.requests + 1, h.world⟩

/-- The heap after a refused request. -/
def refuse (h : Heap) : Heap := ⟨h.toArena, h.requests + 1, h.world⟩

/-- The heap after a live allocation is given back. -/
def drop (h : Heap) (id : ℕ) (hl : id ∈ h.live) : Heap := ⟨h.release id hl, h.requests, h.world⟩

/-- The heap after a live block is overwritten. -/
def overwrite (h : Heap) (id : ℕ) (b : Block) (hl : id ∈ h.live) : Heap :=
  ⟨h.update id b hl, h.requests, h.world⟩

/-- The heap after the live allocations of a list are given back. -/
def dropAll (h : Heap) (ids : List ℕ) : Heap := ⟨h.releaseAll ids, h.requests, h.world⟩

@[simp] theorem store_toArena (h : Heap) (b : Block) : (h.store b).toArena = h.acquire b := rfl
@[simp] theorem refuse_toArena (h : Heap) : h.refuse.toArena = h.toArena := rfl
@[simp] theorem drop_toArena (h : Heap) (id : ℕ) (hl) : (h.drop id hl).toArena = h.release id hl := rfl
@[simp] theorem overwrite_toArena (h : Heap) (id : ℕ) (b : Block) (hl) :
    (h.overwrite id b hl).toArena = h.update id b hl := rfl
@[simp] theorem dropAll_toArena (h : Heap) (ids : List ℕ) :
    (h.dropAll ids).toArena = h.releaseAll ids := rfl

@[simp] theorem dropAll_nil (h : Heap) : h.dropAll [] = h := rfl

theorem dropAll_singleton (h : Heap) {id : ℕ} (hl : id ∈ h.live) :
    h.dropAll [id] = h.drop id hl := by
  rw [dropAll, Arena.releaseAll_singleton _ hl]
  rfl

theorem dropAll_append (h : Heap) (ids ids' : List ℕ) :
    h.dropAll (ids ++ ids') = (h.dropAll ids).dropAll ids' := by
  simp [dropAll, Arena.releaseAll_append]

/-- Writing into the block of the request just granted. -/
theorem overwrite_store (h : Heap) (b c : Block) (hl) :
    (h.store b).overwrite h.next c hl = h.store c := by
  simp [overwrite, store, Arena.update_acquire]

end Heap

/-- `std::alloc::alloc`: a fresh uninitialised block, or null. -/
def alloc (layout : Layout) : Rust Ptr := fun h =>
  if rt.grants h.requests layout.size then
    .ok (.block h.next) (h.store (.fresh layout))
  else .ok .null h.refuse

/-- What is wrong with using `p` when it is not the start of a live allocation. -/
def staleFault (h : Heap) (released : ℕ → Fault) (p : Ptr) : Fault :=
  match p with
  | .block id => if id ∈ h.released then released id else .invalidPointer p
  | p => .invalidPointer p

/-- The live allocation `p` points to. -/
def Heap.block? (h : Heap) : Ptr → Option (ℕ × Block)
  | .block id => (h.live.lookup id).map (id, ·)
  | _ => none

/-- `std::alloc::dealloc`: defined only on the start of a live allocation and with the
layout it was allocated with. -/
def dealloc (p : Ptr) (layout : Layout) : Rust Unit := fun h =>
  match p with
  | .block id =>
    if hl : id ∈ h.live then
      if (h.live.lookup id).map Block.layout = some layout then .ok () (h.drop id hl)
      else .error (.fault (.wrongLayout id)) h
    else .error (.fault (staleFault h .doubleFree p)) h
  | p => .error (.fault (.invalidPointer p)) h

/-- `std::alloc::realloc` to a smaller layout: the block moves to a fresh allocation and
keeps its first bytes. Null, with nothing changed, when the request is refused. -/
def realloc (p : Ptr) (layout new : Layout) : Rust Ptr := fun h =>
  if rt.grants h.requests new.size then
    match h.block? p, (dealloc p layout).run h with
    | some (_, b), .ok _ h' =>
      .ok (.block h'.next) (h'.store ⟨new, b.init.take new.size, List.length_take_le _ _⟩)
    | _, .error e h' => .error e h'
    | none, .ok _ h' => .error (.fault (.invalidPointer p)) h'
  else .ok .null h.refuse

/-- `slice::from_raw_parts` read through: the first `n` bytes at `p`, for positive `n`. -/
def fromRawParts (p : Ptr) (n : ℕ) : Rust (List UInt8) := fun h =>
  match h.block? p with
  | some (id, b) =>
    if b.layout.size < n then .error (.fault (.outOfBounds id)) h
    else if b.init.length < n then .error (.fault (.uninitialised id)) h
    else .ok (b.init.take n) h
  | none => .error (.fault (staleFault h .useAfterFree p)) h

/-- `ptr::copy_nonoverlapping` and `memcpy` of outside bytes to the start of a block. -/
def copyNonoverlapping (src : List UInt8) (p : Ptr) : Rust Unit := fun h =>
  match p with
  | .block id =>
    match hb : h.live.lookup id with
    | some b =>
      if hs : src.length ≤ b.layout.size then
        .ok () (h.overwrite id ⟨b.layout, src ++ b.init.drop src.length, by
          have := b.fits
          simp only [List.length_append, List.length_drop]
          omega⟩ (Finmap.mem_of_lookup_eq_some hb))
      else .error (.fault (.outOfBounds id)) h
    | none => .error (.fault (staleFault h .useAfterFree p)) h
  | p => .error (.fault (.invalidPointer p)) h

/-- A heap with one allocation, number 0, which holds the bytes 1 to 4. -/
def Heap.fourBytes : Heap := Heap.empty.store ⟨⟨4, by decide⟩, [1, 2, 3, 4], by decide⟩

/-! ## Single runs -/

variable {rt} {h : Heap}

theorem layout_array_of_le {n : ℕ} (hn : n ≤ isizeMax) : Layout.array n = some ⟨n, hn⟩ :=
  dif_pos hn

theorem layout_array_of_lt {n : ℕ} (hn : ¬ n ≤ isizeMax) : Layout.array n = none := dif_neg hn

/-- The layout a block was allocated with is found again from its size. -/
theorem layout_array_size {l : Layout} {n : ℕ} (hs : l.size = n) : Layout.array n = some l := by
  subst hs
  exact dif_pos l.le

@[simp] theorem run_expect_some {σ α : Type} (payload : PanicPayload) (a : α) (s : σ) :
    (expect payload (some a) : Program σ α).run s = .ok a s := rfl

@[simp] theorem run_expect_none {σ α : Type} (payload : PanicPayload) (s : σ) :
    (expect payload none : Program σ α).run s = .error (.panic payload) s := rfl

theorem run_alloc_granted {layout : Layout} (hg : rt.grants h.requests layout.size = true) :
    (alloc rt layout).run h = .ok (.block h.next) (h.store (.fresh layout)) :=
  if_pos hg

theorem run_alloc_refused {layout : Layout} (hg : rt.grants h.requests layout.size ≠ true) :
    (alloc rt layout).run h = .ok .null h.refuse :=
  if_neg hg

theorem run_dealloc_live {id : ℕ} {b : Block} (hb : h.live.lookup id = some b) :
    (dealloc (.block id) b.layout).run h =
      .ok () (h.drop id (Finmap.mem_of_lookup_eq_some hb)) := by
  have hl : id ∈ h.live := Finmap.mem_of_lookup_eq_some hb
  change (if _ : id ∈ h.live then _ else _) = _
  rw [dif_pos hl, hb]
  simp

theorem run_dealloc_released {id : ℕ} {layout : Layout} (hr : id ∈ h.released) :
    (dealloc (.block id) layout).run h = .error (.fault (.doubleFree id)) h := by
  change (if _ : id ∈ h.live then _ else _) = _
  rw [dif_neg (Arena.notMem_live_of_released hr), staleFault, if_pos hr]

theorem run_realloc_granted {id : ℕ} {b : Block} {new : Layout}
    (hb : h.live.lookup id = some b) (hg : rt.grants h.requests new.size = true) :
    (realloc rt (.block id) b.layout new).run h =
      .ok (.block h.next) ((h.drop id (Finmap.mem_of_lookup_eq_some hb)).store
        ⟨new, b.init.take new.size, List.length_take_le _ _⟩) := by
  change (if rt.grants h.requests new.size = true then _ else _) = _
  rw [if_pos hg, Heap.block?, hb, run_dealloc_live hb]
  rfl

theorem run_realloc_refused {p : Ptr} {layout new : Layout}
    (hg : rt.grants h.requests new.size ≠ true) :
    (realloc rt p layout new).run h = .ok .null h.refuse :=
  if_neg hg

theorem run_fromRawParts {id n : ℕ} {b : Block} (hb : h.live.lookup id = some b)
    (hn : n ≤ b.init.length) :
    (fromRawParts (.block id) n).run h = .ok (b.init.take n) h := by
  have hs : ¬ b.layout.size < n := Nat.not_lt.mpr (hn.trans b.fits)
  change (match h.block? (.block id) with | some (id, b) => _ | none => _) = _
  rw [Heap.block?, hb]
  simp [hs, Nat.not_lt.mpr hn]

/-- Bytes of the allocation that nobody wrote. -/
theorem run_fromRawParts_uninitialised {id n : ℕ} {b : Block} (hb : h.live.lookup id = some b)
    (hs : n ≤ b.layout.size) (hn : b.init.length < n) :
    (fromRawParts (.block id) n).run h = .error (.fault (.uninitialised id)) h := by
  change (match h.block? (.block id) with | some (id, b) => _ | none => _) = _
  rw [Heap.block?, hb]
  simp only [Option.map_some]
  rw [if_neg (Nat.not_lt.mpr hs), if_pos hn]

/-- Copying into the empty block of the request just granted. -/
theorem run_copy_store {src : List UInt8} {layout : Layout} (hs : src.length ≤ layout.size) :
    (copyNonoverlapping src (.block h.next)).run (h.store (.fresh layout)) =
      .ok () (h.store ⟨layout, src, hs⟩) := by
  have hb : (h.store (.fresh layout)).live.lookup h.next = some (.fresh layout) := by simp
  change (match hb : (h.store (.fresh layout)).live.lookup h.next with
    | some b => _ | none => _) = _
  split
  · rename_i b hb'
    obtain rfl : Block.fresh layout = b := Option.some.inj (hb.symm.trans hb')
    rw [dif_pos (by simpa [Block.fresh] using hs), Heap.overwrite_store]
    simp [Block.fresh]
  · rename_i hb'
    rw [hb] at hb'
    cases hb'

/-! ## What every run keeps -/

/-- The history of the heap only grows. -/
def Heap.Later (h h' : Heap) : Prop := Arena.Later h.toArena h'.toArena

instance : Std.Refl Heap.Later := ⟨fun h => Arena.Later.refl h.toArena⟩
instance : IsTrans Heap Heap.Later := ⟨fun _ _ _ => Arena.Later.trans⟩

/-- The live allocations among `ids` stay live. -/
def Heap.Spares (ids : List ℕ) (h h' : Heap) : Prop := Arena.Spares ids h.toArena h'.toArena

section
variable {ids : List ℕ}

instance : Std.Refl (Heap.Spares ids) := ⟨fun h => Arena.Spares.refl ids h.toArena⟩
instance : IsTrans Heap (Heap.Spares ids) := ⟨fun _ _ _ => Arena.Spares.trans⟩

theorem Heap.spares_of_eq {h h' : Heap} (ha : h'.toArena = h.toArena) : Heap.Spares ids h h' :=
  fun _ _ hid => ha ▸ hid

end

theorem Heap.later_of_eq {h h' : Heap} (ha : h'.toArena = h.toArena) : h.Later h' := by
  unfold Later
  rw [ha]
  exact .refl _

theorem alloc_later (layout : Layout) : Respects Heap.Later (alloc rt layout) := by
  intro h
  by_cases hg : rt.grants h.requests layout.size = true
  · rw [run_alloc_granted hg]
    exact Arena.Later.acquire _ _
  · rw [run_alloc_refused hg]
    exact Arena.Later.refl _

theorem dealloc_later (p : Ptr) (layout : Layout) : Respects Heap.Later (dealloc p layout) := by
  intro h
  cases p with
  | null => exact Arena.Later.refl _
  | dangling => exact Arena.Later.refl _
  | block id =>
    change Heap.Later h (final (if _ : id ∈ h.live then _ else _))
    split_ifs
    · exact Arena.Later.release _ _ ‹_›
    all_goals exact Arena.Later.refl _

theorem realloc_later (p : Ptr) (layout new : Layout) :
    Respects Heap.Later (realloc rt p layout new) := by
  intro h
  have hd := dealloc_later p layout h
  change Heap.Later h (final (if rt.grants h.requests new.size = true then _ else _))
  split_ifs
  · split
    · rename_i heq
      rw [heq] at hd
      exact Arena.Later.trans hd (Arena.Later.acquire _ _)
    · rename_i heq
      rwa [heq] at hd
    · rename_i heq
      rwa [heq] at hd
  · exact Arena.Later.refl _

theorem fromRawParts_state (p : Ptr) (n : ℕ) (h : Heap) :
    final ((fromRawParts p n).run h) = h := by
  change final (match h.block? p with | some (id, b) => _ | none => _) = h
  split
  · split_ifs <;> rfl
  · rfl

/-- What was read has the length asked for. -/
theorem fromRawParts_ok {p : Ptr} {n : ℕ} {h h' : Heap} {bytes : List UInt8}
    (hr : (fromRawParts p n).run h = .ok bytes h') : h' = h ∧ bytes.length = n := by
  refine ⟨eq_of_final_ok (fromRawParts_state p n h) hr, ?_⟩
  change (match h.block? p with | some (id, b) => _ | none => _) = _ at hr
  split at hr
  · split_ifs at hr with h₁ h₂
    cases hr
    simp [Nat.not_lt.mp h₂]
  · cases hr

theorem fromRawParts_ne_panic (p : Ptr) (n : ℕ) (q : PanicPayload) (h h' : Heap) :
    (fromRawParts p n).run h ≠ .error (.panic q) h' := by
  change (match h.block? p with | some (id, b) => _ | none => _) ≠ _
  split
  · split_ifs <;> exact fun hr => by cases hr
  · exact fun hr => by cases hr

theorem fromRawParts_later (p : Ptr) (n : ℕ) : Respects Heap.Later (fromRawParts p n) := by
  intro h
  rw [fromRawParts_state]
  exact Arena.Later.refl _

theorem copyNonoverlapping_later (src : List UInt8) (p : Ptr) :
    Respects Heap.Later (copyNonoverlapping src p) := by
  intro h
  cases p with
  | null => exact Arena.Later.refl _
  | dangling => exact Arena.Later.refl _
  | block id =>
    change Heap.Later h (final (match hb : h.live.lookup id with | some b => _ | none => _))
    split
    · split_ifs
      · exact Arena.Later.update _ _ _ (Finmap.mem_of_lookup_eq_some ‹_›)
      · exact Arena.Later.refl _
    · exact Arena.Later.refl _

theorem panic_later {α : Type} (text : String) :
    Respects Heap.Later (panic text : Rust α) := Respects.throw _

theorem expect_later {α : Type} (payload : PanicPayload) (o : Option α) :
    Respects Heap.Later (expect payload o : Rust α) := by
  cases o with
  | none => exact Respects.throw _
  | some a => exact Respects.pure a

end FfiBridge
