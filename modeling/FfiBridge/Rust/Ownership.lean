import FfiBridge.Foundation.Trade
import FfiBridge.Rust.Memory

/-! # What a buffer, a string and a vector own

A value owns at most one allocation; `owns` reads off which one `dealloc` would give
back, and the ownership predicates say that this allocation is live with the size
`dealloc` re-derives. Every constructor is then an exchange: what it returns owns a new
allocation or none, and freeing it gives back exactly that.
-/
namespace FfiBridge
open Foundation

/-! ## Ownership -/

namespace FfiBuffer

/-- The allocation `dealloc` gives back, if any. -/
def owns (b : FfiBuffer) : List ℕ := b.data.owns b.capacity

/-- The length fits the capacity, which is that of a live allocation unless it is zero. -/
def Owned (b : FfiBuffer) (h : Heap) : Prop :=
  b.len ≤ b.capacity ∧ b.data.Backed b.capacity h

/-- The first `len` bytes are there to be read. -/
def Readable (b : FfiBuffer) (h : Heap) : Prop := b.data.Readable b.len h

/-- What every buffer satisfies until it is freed. -/
structure Represented (b : FfiBuffer) (h : Heap) : Prop where
  owned : b.Owned h
  readable : b.Readable h

@[simp] theorem owns_null : null.owns = [] := rfl

theorem owned_null (h : Heap) : null.Owned h := ⟨le_rfl, .inl rfl⟩

theorem represented_null (h : Heap) : null.Represented h := ⟨owned_null h, .inl rfl⟩

theorem Owned.mem_live {b : FfiBuffer} {h : Heap} (hb : b.Owned h) {id : ℕ}
    (hid : id ∈ b.owns) : id ∈ h.live := hb.2.mem_live hid

theorem Owned.congr {b : FfiBuffer} {h h' : Heap} (hb : b.Owned h)
    (hk : ∀ id ∈ b.owns, h'.live.lookup id = h.live.lookup id) : b.Owned h' :=
  ⟨hb.1, hb.2.congr hk⟩

theorem Represented.congr {b : FfiBuffer} {h h' : Heap} (hb : b.Represented h)
    (hk : ∀ id ∈ b.owns, h'.live.lookup id = h.live.lookup id) : b.Represented h' := by
  refine ⟨hb.owned.congr hk, hb.readable.congr fun id hid => hk id ?_⟩
  obtain ⟨hp, hl⟩ := Ptr.mem_owns.mp hid
  have hle := hb.owned.1
  exact Ptr.mem_owns.mpr ⟨hp, by omega⟩

/-- The bytes of a buffer stay as long as its allocation does. -/
theorem Represented.run_congr {b : FfiBuffer} {h h' : Heap} {bytes : List UInt8}
    (hb : b.Represented h) (hk : ∀ id ∈ b.owns, h'.live.lookup id = h.live.lookup id)
    (hr : b.asSlice.run h = .ok bytes h) : b.asSlice.run h' = .ok bytes h' := by
  refine Ptr.Readable.run_congr hb.readable (fun id hid => hk id ?_) hr
  obtain ⟨hp, hl⟩ := Ptr.mem_owns.mp hid
  have hle := hb.owned.1
  exact Ptr.mem_owns.mpr ⟨hp, by omega⟩

theorem owns_nodup (b : FfiBuffer) : b.owns.Nodup := Ptr.owns_nodup _ _

/-- Freeing an owned buffer gives back exactly what it owns. -/
theorem run_dealloc {b : FfiBuffer} {h : Heap} (hb : b.Owned h) :
    b.dealloc.run h = .ok () (h.dropAll b.owns) := run_deallocBytes hb.2

theorem owned_fourBytes {len : ℕ} (hl : len ≤ 4) : Owned ⟨.block 0, len, 4⟩ Heap.fourBytes :=
  ⟨hl, .inr ⟨0, _, rfl, Arena.lookup_acquire_next _ _, rfl⟩⟩

end FfiBuffer

namespace FfiString

/-- The allocation `dealloc` gives back, if any. -/
def owns (s : FfiString) : List ℕ := s.data.owns s.len

/-- The string is empty, or points to a live allocation of exactly its bytes. -/
def Owned (s : FfiString) (h : Heap) : Prop := s.data.Backed s.len h ∧ s.data.Readable s.len h

@[simp] theorem owns_null : null.owns = [] := rfl

theorem owned_null (h : Heap) : null.Owned h := ⟨.inl rfl, .inl rfl⟩

theorem Owned.mem_live {s : FfiString} {h : Heap} (hs : s.Owned h) {id : ℕ}
    (hid : id ∈ s.owns) : id ∈ h.live := hs.1.mem_live hid

theorem Owned.congr {s : FfiString} {h h' : Heap} (hs : s.Owned h)
    (hk : ∀ id ∈ s.owns, h'.live.lookup id = h.live.lookup id) : s.Owned h' :=
  ⟨hs.1.congr hk, hs.2.congr hk⟩

/-- Freeing an owned string gives back exactly what it owns. -/
theorem run_dealloc {s : FfiString} {h : Heap} (hs : s.Owned h) :
    s.dealloc.run h = .ok () (h.dropAll s.owns) := run_deallocBytes hs.1

end FfiString

namespace Vec

/-- The allocation behind the vector, if any. -/
def owns (v : Vec) : List ℕ := v.ptr.owns v.capacity

/-- What safe code guarantees of a `Vec`. -/
structure Owned (v : Vec) (h : Heap) : Prop where
  le : v.len ≤ v.capacity
  backed : v.ptr.Backed v.capacity h
  readable : v.ptr.Readable v.len h

end Vec

/-! ## Constructors -/

/-- No fault but the reading of bytes nobody wrote. -/
def Stop.Sound (e : Stop) : Prop := ∀ f, e = .fault f → ∃ id, f = .uninitialised id

/-- The ledger of the heap: a panic is what a caller can survive. -/
abbrev heapLedger : Ledger Stop Heap Block where
  arena := Heap.toArena
  resumes e := ∃ p, e = .panic p
  sound := Stop.Sound

theorem Stop.sound_panic (p : PanicPayload) : (Stop.panic p).Sound := fun _ h => by cases h

theorem Stop.sound_abort : Stop.abort.Sound := fun _ h => by cases h

variable {rt} {h h' : Heap}

/-- A stop that leaves the allocations as they were. -/
theorem trade_of_refused {α : Type} {m : Rust α} {outs : α → List ℕ} {post : α → Heap → Prop}
    {e : Stop} (hr : m.run h = .error e h') (ha : h'.toArena = h.toArena) (hs : e.Sound) :
    Trade heapLedger [] m outs post h :=
  .of_error hr hs fun _ => by
    change Arena.Exchange h.toArena [] h'.toArena []
    exact ha ▸ .refl _

namespace Ptr

theorem backed_store {b : Block} {p : Ptr} {size : ℕ} (hp : p = block h.next)
    (hs : b.layout.size = size) : p.Backed size (h.store b) :=
  .inr ⟨h.next, b, hp, Arena.lookup_acquire_next _ _, hs⟩

theorem readable_store {b : Block} {len : ℕ} (hl : len ≤ b.init.length) :
    (block h.next).Readable len (h.store b) :=
  .inr ⟨h.next, b, rfl, Arena.lookup_acquire_next _ _, hl⟩

theorem exchange_store {b : Block} {size : ℕ} (hs : size ≠ 0) :
    Arena.Exchange h.toArena [] (h.store b).toArena ((block h.next).owns size) := by
  rw [owns_block _ hs]
  exact .acquire _ _

theorem run_readBytes_store {b : Block} {len : ℕ} (hl : b.init.length = len) :
    (readBytes (.block h.next) len).run (h.store b) = .ok b.init (h.store b) := by
  rw [run_readBytes_block (Arena.lookup_acquire_next _ _) hl.ge, List.take_of_length_le hl.le]

/-- Where the block of readable bytes is cut to a size they fit, they read the same. -/
theorem Readable.cut {id len n : ℕ} {blk : Block} (h' : Heap) (blk' : Block) (hp : (block id).Readable len h)
    (hl : h.live.lookup id = some blk) (hle : len ≤ n) (hi : blk'.init = blk.init.take n) :
    (block h'.next).Readable len (h'.store blk') ∧
      ∀ bytes, (readBytes (block id) len).run h = .ok bytes h →
        (readBytes (block h'.next) len).run (h'.store blk') = .ok bytes (h'.store blk') := by
  rcases hp with rfl | ⟨_, _, hk, hl', hlen⟩
  · refine ⟨.inl rfl, fun bytes hb => ?_⟩
    rw [readBytes_zero] at hb ⊢
    cases hb
    rfl
  · cases hk
    cases hl.symm.trans hl'
    have hcut : len ≤ blk'.init.length := by simp [hi, hle, hlen]
    refine ⟨readable_store hcut, fun bytes hb => ?_⟩
    rw [run_readBytes_block hl hlen] at hb
    cases hb
    rw [run_readBytes_block (Arena.lookup_acquire_next _ _) hcut, hi, List.take_take,
      min_eq_left hle]

end Ptr

namespace FfiString

/-- A served request stores the bytes in a fresh allocation of exactly their number. -/
theorem run_new_served {s : String} (hne : s ≠ "") (hs : rt.Serves h s.utf8ByteSize) :
    (new rt s).run h = .ok ⟨.block h.next, s.utf8ByteSize⟩
      (h.store ⟨⟨s.utf8ByteSize, hs.le⟩, asBytes s, le_rfl⟩) := by
  unfold new
  rw [if_neg (by simpa using hne), run_allocBytes_copy (le_refl (asBytes s).length) hs]
  rfl

/-- A request that is not served panics. -/
theorem run_new_unserved {s : String} (hne : s ≠ "") (hs : ¬ rt.Serves h s.utf8ByteSize) :
    ∃ p h', (new rt s).run h = .error (.panic p) h' ∧ h'.toArena = h.toArena := by
  unfold new
  rw [if_neg (by simpa using hne)]
  obtain ⟨e, h', hr, ha, he⟩ := run_allocBytes_unserved (n := (asBytes s).length) hs
  rw [bind_of_error hr]
  rcases he with rfl | rfl
  · exact ⟨_, h', rfl, ha⟩
  · exact ⟨_, h', rfl, ha⟩

theorem new_trade (s : String) : Trade heapLedger [] (new rt s) owns
    (fun str h' => str.Owned h' ∧ str.len = s.utf8ByteSize ∧
      str.asStr.run h' = .ok (asBytes s) h') h := by
  by_cases hne : s = ""
  · subst hne
    exact .of_ok rfl (.refl _) ⟨owned_null _, rfl, rfl⟩
  by_cases hs : rt.Serves h s.utf8ByteSize
  · have hz : s.utf8ByteSize ≠ 0 := String.utf8ByteSize_eq_zero_iff.not.mpr hne
    exact .of_ok (run_new_served hne hs) (Ptr.exchange_store hz)
      ⟨⟨Ptr.backed_store rfl rfl, Ptr.readable_store le_rfl⟩, rfl, Ptr.run_readBytes_store rfl⟩
  · obtain ⟨p, h₁, hr, ha⟩ := run_new_unserved hne hs
    exact trade_of_refused hr ha (Stop.sound_panic p)

theorem new_later (s : String) : Respects Heap.Later (new rt s) :=
  .ite (.pure _) <| (allocBytes_later _ _ _).bind fun _ =>
    (copyNonoverlapping_later _ _).bind fun _ => .pure _

end FfiString

namespace FfiBuffer

theorem run_new_served {n : ℕ} (hn : n ≠ 0) (hs : rt.Serves h n) :
    (new rt n).run h = .ok ⟨.block h.next, 0, n⟩ (h.store (.fresh ⟨n, hs.le⟩)) := by
  unfold new
  rw [if_neg hn, bind_of_ok (run_allocBytes_served hs)]
  rfl

theorem run_new_unserved {n : ℕ} (hn : n ≠ 0) (hs : ¬ rt.Serves h n) :
    ∃ p h', (new rt n).run h = .error (.panic p) h' ∧ h'.toArena = h.toArena := by
  unfold new
  rw [if_neg hn]
  obtain ⟨e, h', hr, ha, he⟩ := run_allocBytes_unserved hs
  rw [bind_of_error hr]
  rcases he with rfl | rfl
  · exact ⟨_, h', rfl, ha⟩
  · exact ⟨_, h', rfl, ha⟩

theorem new_trade (n : ℕ) : Trade heapLedger [] (new rt n) owns
    (fun b h' => b.Represented h' ∧ b.len = 0 ∧ b.capacity = n) h := by
  by_cases hn : n = 0
  · subst hn
    exact .of_ok rfl (.refl _) ⟨represented_null _, rfl, rfl⟩
  by_cases hs : rt.Serves h n
  · exact .of_ok (run_new_served hn hs) (Ptr.exchange_store hn)
      ⟨⟨⟨Nat.zero_le _, Ptr.backed_store rfl rfl⟩, .inl rfl⟩, rfl, rfl⟩
  · obtain ⟨p, h₁, hr, ha⟩ := run_new_unserved hn hs
    exact trade_of_refused hr ha (Stop.sound_panic p)

/-- Only a panic stops `new`, with the allocations as they were. -/
theorem new_error {n : ℕ} {e : Stop} (hr : (new rt n).run h = .error e h') :
    ∃ p, e = .panic p ∧ h'.toArena = h.toArena := by
  by_cases hn : n = 0
  · subst hn
    cases hr
  by_cases hs : rt.Serves h n
  · cases (run_new_served hn hs).symm.trans hr
  · obtain ⟨p, h₁, hr', ha⟩ := run_new_unserved hn hs
    cases hr'.symm.trans hr
    exact ⟨p, rfl, ha⟩

end FfiBuffer

namespace Vec

theorem run_build_zero {bytes : List UInt8} {capacity : ℕ}
    (hz : max bytes.length capacity = 0) :
    (build rt bytes capacity).run h = .ok ⟨.dangling, 0, 0⟩ h := by
  unfold build
  rw [if_pos hz]
  rfl

theorem run_build_served {bytes : List UInt8} {capacity : ℕ}
    (hz : max bytes.length capacity ≠ 0) (hs : rt.Serves h (max bytes.length capacity)) :
    (build rt bytes capacity).run h = .ok ⟨.block h.next, bytes.length, max bytes.length capacity⟩
      (h.store ⟨⟨_, hs.le⟩, bytes, le_max_left _ _⟩) := by
  unfold build
  rw [if_neg hz, run_allocBytes_copy (le_max_left _ _) hs]
  rfl

theorem run_build_unserved {bytes : List UInt8} {capacity : ℕ} {e : Stop}
    (hz : max bytes.length capacity ≠ 0)
    (hr : (allocBytes rt (.str "capacity overflow") .abort (max bytes.length capacity)).run h =
      .error e h') : (build rt bytes capacity).run h = .error e h' := by
  unfold build
  rw [if_neg hz, bind_of_error hr]

theorem build_trade (bytes : List UInt8) (capacity : ℕ) :
    Trade heapLedger [] (build rt bytes capacity) owns (fun v h' => v.Owned h' ∧
      v.len = bytes.length ∧ (readBytes v.ptr v.len).run h' = .ok bytes h') h := by
  by_cases hz : max bytes.length capacity = 0
  · have hb := @run_build_zero rt h _ _ hz
    obtain rfl := List.length_eq_zero_iff.mp (Nat.max_eq_zero_iff.mp hz).1
    exact .of_ok hb (.refl _) ⟨⟨le_rfl, .inl rfl, .inl rfl⟩, rfl, rfl⟩
  by_cases hs : rt.Serves h (max bytes.length capacity)
  · exact .of_ok (run_build_served hz hs) (Ptr.exchange_store hz) ⟨⟨le_max_left _ _,
      Ptr.backed_store rfl rfl, Ptr.readable_store le_rfl⟩, rfl, Ptr.run_readBytes_store rfl⟩
  · obtain ⟨e, h₁, hr, ha, he⟩ := run_allocBytes_unserved hs
    refine trade_of_refused (run_build_unserved hz hr) ha ?_
    rcases he with rfl | rfl
    · exact Stop.sound_panic _
    · exact Stop.sound_abort

/-- Only a capacity beyond `isize::MAX` panics; an allocation failure ends the process. -/
theorem build_ne_panic {bytes : List UInt8} {capacity : ℕ}
    (hle : max bytes.length capacity ≤ isizeMax) (p : PanicPayload) :
    (build rt bytes capacity).run h ≠ .error (.panic p) h' := by
  intro hr
  by_cases hz : max bytes.length capacity = 0
  · cases (run_build_zero hz).symm.trans hr
  by_cases hg : rt.grants h.requests (max bytes.length capacity) = true
  · cases (run_build_served hz ⟨hle, hg⟩).symm.trans hr
  · cases (run_build_unserved hz (run_allocBytes_refused hle hg)).symm.trans hr

theorem build_later (bytes : List UInt8) (capacity : ℕ) :
    Respects Heap.Later (build rt bytes capacity) :=
  .ite (.pure _) <| (allocBytes_later _ _ _).bind fun _ =>
    (copyNonoverlapping_later _ _).bind fun _ => .pure _

theorem run_shrinkToFit_same {v : Vec} (heq : rt.shrunk v.len v.capacity = v.capacity) :
    (v.shrinkToFit rt).run h = .ok v h := by
  unfold shrinkToFit
  simp only [if_pos heq]
  rfl

theorem run_shrinkToFit_empty {v : Vec} {id : ℕ} {blk : Block}
    (heq : rt.shrunk v.len v.capacity ≠ v.capacity) (hz : rt.shrunk v.len v.capacity = 0)
    (hp : v.ptr = .block id) (hl : h.live.lookup id = some blk)
    (hs : blk.layout.size = v.capacity) :
    (v.shrinkToFit rt).run h =
      .ok ⟨.dangling, v.len, 0⟩ (h.drop id (Finmap.mem_of_lookup_eq_some hl)) := by
  unfold shrinkToFit
  simp only [if_neg heq, if_pos hz, hp]
  rw [layout_array_size hs, bind_of_ok (run_expect_some _ _ _), bind_of_ok (run_dealloc_live hl)]
  rfl

theorem run_shrinkToFit_moved {v : Vec} {id : ℕ} {blk : Block}
    (heq : rt.shrunk v.len v.capacity ≠ v.capacity) (hz : rt.shrunk v.len v.capacity ≠ 0)
    (hp : v.ptr = .block id) (hl : h.live.lookup id = some blk)
    (hs : blk.layout.size = v.capacity) (hle : rt.shrunk v.len v.capacity ≤ isizeMax)
    (hg : rt.grants h.requests (rt.shrunk v.len v.capacity) = true) :
    (v.shrinkToFit rt).run h = .ok ⟨.block h.next, v.len, rt.shrunk v.len v.capacity⟩
      ((h.drop id (Finmap.mem_of_lookup_eq_some hl)).store
        ⟨⟨_, hle⟩, blk.init.take (rt.shrunk v.len v.capacity), List.length_take_le _ _⟩) := by
  unfold shrinkToFit
  simp only [if_neg heq, if_neg hz, hp]
  rw [layout_array_size hs, bind_of_ok (run_expect_some _ _ _), layout_array_of_le hle,
    bind_of_ok (run_expect_some _ _ _), bind_of_ok (run_realloc_granted hl hg)]
  rfl

theorem run_shrinkToFit_refused {v : Vec} {layout : Layout}
    (heq : rt.shrunk v.len v.capacity ≠ v.capacity) (hz : rt.shrunk v.len v.capacity ≠ 0)
    (hs : layout.size = v.capacity) (hle : rt.shrunk v.len v.capacity ≤ isizeMax)
    (hg : rt.grants h.requests (rt.shrunk v.len v.capacity) ≠ true) :
    (v.shrinkToFit rt).run h = .error .abort h.refuse := by
  unfold shrinkToFit
  simp only [if_neg heq, if_neg hz]
  rw [layout_array_size hs, bind_of_ok (run_expect_some _ _ _), layout_array_of_le hle,
    bind_of_ok (run_expect_some _ _ _), bind_of_ok (run_realloc_refused hg)]
  rfl

/-- `shrink_to_fit` of an owned vector ends the process, or trades its allocation for
one that is no larger and reads the same. -/
theorem run_shrinkToFit {v : Vec} (hv : v.Owned h) :
    (v.shrinkToFit rt).run h = .error .abort h.refuse ∨
    ∃ v' h', (v.shrinkToFit rt).run h = .ok v' h' ∧
      Arena.Exchange h.toArena v.owns h'.toArena v'.owns ∧ v'.Owned h' ∧ v'.len = v.len ∧
      ∀ bytes, (readBytes v.ptr v.len).run h = .ok bytes h →
        (readBytes v'.ptr v'.len).run h' = .ok bytes h' := by
  have hle := rt.le_shrunk _ _ hv.le
  have hsh := rt.shrunk_le _ _ hv.le
  by_cases heq : rt.shrunk v.len v.capacity = v.capacity
  · exact .inr ⟨v, h, run_shrinkToFit_same heq,
      .pass (Ptr.owns_nodup _ _) fun _ => hv.backed.mem_live, hv, rfl, fun _ hb => hb⟩
  obtain hc | ⟨id, blk, hp, hl, hs⟩ := hv.backed
  · exact absurd (by omega) heq
  have hown : v.owns = [id] := by rw [owns, hp, Ptr.owns_block id (by omega)]
  have hfree : Arena.Exchange h.toArena v.owns
      (h.drop id (Finmap.mem_of_lookup_eq_some hl)).toArena [] := by
    rw [hown, Heap.drop_toArena, ← Arena.releaseAll_singleton]
    exact .releaseAll _ _
  by_cases hz : rt.shrunk v.len v.capacity = 0
  · have hlen : v.len = 0 := by omega
    refine .inr ⟨_, _, run_shrinkToFit_empty heq hz hp hl hs, hfree,
      ⟨hlen.le, .inl rfl, .inl hlen⟩, rfl, fun bytes hb => ?_⟩
    simp only [hlen, readBytes_zero] at hb ⊢
    cases hb
    rfl
  have hmax : rt.shrunk v.len v.capacity ≤ isizeMax := by
    have := blk.layout.le
    omega
  by_cases hg : rt.grants h.requests (rt.shrunk v.len v.capacity) = true
  · have hread := Ptr.Readable.cut (h.drop id (Finmap.mem_of_lookup_eq_some hl))
      ⟨⟨_, hmax⟩, _, List.length_take_le _ _⟩ (hp ▸ hv.readable) hl hle rfl
    refine .inr ⟨_, _, run_shrinkToFit_moved heq hz hp hl hs hmax hg,
      hfree.seq (Ptr.exchange_store hz), ⟨hle, Ptr.backed_store rfl rfl, hread.1⟩, rfl, ?_⟩
    rw [hp]
    exact hread.2
  · exact .inl (run_shrinkToFit_refused heq hz hs hmax hg)

theorem shrinkToFit_trade {v : Vec} (hv : v.Owned h) :
    Trade heapLedger v.owns (v.shrinkToFit rt) owns (fun v' h' => v'.Owned h' ∧
      v'.len = v.len ∧ ∀ bytes, (readBytes v.ptr v.len).run h = .ok bytes h →
        (readBytes v'.ptr v'.len).run h' = .ok bytes h') h := by
  rcases run_shrinkToFit hv with hr | ⟨v', h', hr, hx, hv', hlen, hread⟩
  · exact .of_error hr Stop.sound_abort fun ⟨p, hp⟩ => by cases hp
  · exact .of_ok hr hx ⟨hv', hlen, hread⟩

theorem shrinkToFit_ne_panic {v : Vec} (hv : v.Owned h) (p : PanicPayload) :
    (v.shrinkToFit rt).run h ≠ .error (.panic p) h' := by
  intro hp
  rcases run_shrinkToFit hv with hr | ⟨_, _, hr, -⟩
  · cases hr.symm.trans hp
  · cases hr.symm.trans hp

/-- An allocator that serves the request of the move does not end the process. -/
theorem shrinkToFit_ne_abort {v : Vec} (hv : v.Owned h)
    (hg : rt.grants h.requests (rt.shrunk v.len v.capacity) = true) :
    (v.shrinkToFit rt).run h ≠ .error .abort h' := by
  intro hr
  have hle := rt.le_shrunk _ _ hv.le
  have hsh := rt.shrunk_le _ _ hv.le
  by_cases heq : rt.shrunk v.len v.capacity = v.capacity
  · cases (run_shrinkToFit_same heq).symm.trans hr
  obtain hc | ⟨id, blk, hp, hl, hs⟩ := hv.backed
  · exact heq (by omega)
  have hmax := blk.layout.le
  by_cases hz : rt.shrunk v.len v.capacity = 0
  · cases (run_shrinkToFit_empty heq hz hp hl hs).symm.trans hr
  · cases (run_shrinkToFit_moved heq hz hp hl hs (by omega) hg).symm.trans hr

theorem shrinkToFit_later (v : Vec) : Respects Heap.Later (v.shrinkToFit rt) :=
  .ite (.pure _) <| (expect_later _ _).bind fun _ =>
    .ite ((dealloc_later _ _).bind fun _ => .pure _) <|
    (expect_later _ _).bind fun _ => (realloc_later _ _ _).bind fun _ => .ite (.throw _) (.pure _)

end Vec

namespace FfiBuffer

/-- `from_vec` takes the vector over and loses nothing of it. -/
theorem fromVec_trade {v : Vec} (hv : v.Owned h) :
    Trade heapLedger v.owns (fromVec rt v) owns (fun b h' => b.Represented h' ∧ b.len = v.len ∧
      ∀ bytes, (readBytes v.ptr v.len).run h = .ok bytes h → b.asSlice.run h' = .ok bytes h') h := by
  refine (Vec.shrinkToFit_trade hv).bind fun v' h' ⟨hv', hlen, hread⟩ => ?_
  exact .pure (.pass (Ptr.owns_nodup _ _) fun _ => hv'.backed.mem_live)
    ⟨⟨⟨hv'.le, hv'.backed⟩, hv'.readable⟩, hlen, hread⟩

theorem fromVec_later (v : Vec) : Respects Heap.Later (fromVec rt v) :=
  (Vec.shrinkToFit_later v).bind fun _ => .pure _

/-- Copying bytes into a buffer of their own, as `from_vec` of `to_vec` does. -/
theorem fromVec_toVec_trade (bytes : List UInt8) :
    Trade heapLedger [] (do fromVec rt (← toVec rt bytes)) owns (fun b h' => b.Represented h' ∧
      b.len = bytes.length ∧ b.asSlice.run h' = .ok bytes h') h := by
  refine (Vec.build_trade bytes bytes.length).bind fun v h₁ ⟨hv, hlen, hread⟩ => ?_
  exact (fromVec_trade hv).mono fun b h₂ ⟨hb, hl, hr⟩ => ⟨hb, hl.trans hlen, hr bytes hread⟩

/-- The one request of a copy is for exactly its bytes, so nothing is left to shrink. -/
theorem fromVec_toVec_returns {bytes : List UInt8} (hs : bytes ≠ [] → rt.Serves h bytes.length) :
    ∃ b h', (do fromVec rt (← toVec rt bytes) : Rust FfiBuffer).run h = .ok b h' := by
  have hvec : ∃ v h', (toVec rt bytes).run h = .ok v h' ∧ v.capacity = v.len := by
    by_cases hz : max bytes.length bytes.length = 0
    · exact ⟨_, _, Vec.run_build_zero hz, rfl⟩
    · have hne : bytes ≠ [] := fun hn => hz (by simp [hn])
      have hmax := max_self bytes.length
      exact ⟨_, _, Vec.run_build_served hz (hmax.symm ▸ hs hne), hmax⟩
  obtain ⟨v, h₁, hv, hcap⟩ := hvec
  have hshrunk : rt.shrunk v.len v.capacity = v.capacity :=
    le_antisymm (rt.shrunk_le _ _ hcap.ge) (hcap.le.trans (rt.le_shrunk _ _ hcap.ge))
  refine ⟨⟨v.ptr, v.len, v.capacity⟩, h₁, (bind_of_ok hv _).trans ?_⟩
  exact bind_of_ok (Vec.run_shrinkToFit_same hshrunk) _

end FfiBuffer

/-- What a fallible program owns when it succeeds. -/
def exceptOwns {ε α : Type} (owns : α → List ℕ) : Except ε α → List ℕ
  | .ok a => owns a
  | .error _ => []

/-- A value that succeeded is owned. -/
def ExceptOwned {ε α : Type} (Owned : α → Heap → Prop) (r : Except ε α) (h : Heap) : Prop :=
  ∀ a, r = .ok a → Owned a h

/-- Safe code that hands out a value together with what it owns. -/
structure Source {α : Type} (owns : α → List ℕ) (Owned : α → Heap → Prop) where
  run : Rust α
  trade : ∀ h, Trade heapLedger [] run owns Owned h

theorem FfiBuffer.fromJson_trade
    (json : Source (@exceptOwns String Vec Vec.owns) (ExceptOwned Vec.Owned)) :
    Trade heapLedger [] (fromJson rt json.run) (exceptOwns owns) (ExceptOwned Represented) h := by
  refine (json.trade h).bind fun r h' hr => ?_
  cases r with
  | ok v =>
    simp only [within_self]
    refine (fromVec_trade (hr v rfl)).bind fun b h'' ⟨hb, _, _⟩ => ?_
    refine .pure (.pass (owns_nodup b) fun _ => hb.owned.mem_live) fun b' hb' => ?_
    cases hb'
    exact hb
  | error e => exact .pure (.refl _) fun _ hb => by cases hb

theorem ffiStringAlloc_trade (str : Option (List UInt8)) (len : ℕ) :
    Trade heapLedger [] (ffiStringAlloc rt str len) FfiString.owns FfiString.Owned h := by
  have hnull : Trade heapLedger [] (pure .null : Rust FfiString) FfiString.owns FfiString.Owned h :=
    .pure (.refl _) (FfiString.owned_null _)
  unfold ffiStringAlloc
  split
  · exact hnull
  · split_ifs
    · exact hnull
    · split
      · exact (FfiString.new_trade _).mono fun _ _ hs => hs.1
      · exact hnull

end FfiBridge
