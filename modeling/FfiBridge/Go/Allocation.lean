import FfiBridge.Go.Memory
import FfiBridge.Panics.ErrorPath

/-! # Allocation over its whole argument range

`ffi_buffer_alloc` is not wrapped in `catch_panic`, and all its failures are panics: a capacity
that has no layout, and a request that the allocator refuses. A negative Go `int` becomes a
capacity of the first kind.
-/
namespace FfiBridge
open Foundation

variable {rt : Runtime} {h : Heap} {p : Process} {capacity : ℕ} {n : ℤ}

/-- `ffi_buffer_alloc` returns: the zeroed buffer, or an empty one of exactly the capacity,
backed by a live allocation of that size. -/
def Allocates (rt : Runtime) (capacity : ℕ) (h : Heap) : Prop :=
  ∃ b h', (ffiBufferAlloc rt capacity).run h = .ok b h' ∧ (b = .null ∨
    b.len = 0 ∧ b.capacity = capacity ∧ ∃ id blk, b.data = .block id ∧
      h'.live.lookup id = some blk ∧ blk.layout.size = capacity)

theorem returns_alloc_iff :
    Returns (ffiBufferAlloc rt capacity) h ↔ capacity = 0 ∨ rt.Serves h capacity := by
  by_cases hz : capacity = 0
  · subst hz
    exact iff_of_true ⟨_, _, rfl⟩ (.inl rfl)
  by_cases hs : rt.Serves h capacity
  · exact iff_of_true ⟨_, _, FfiBuffer.run_new_served hz hs⟩ (.inr hs)
  · obtain ⟨q, h', hr, -⟩ := FfiBuffer.run_new_unserved hz hs
    exact iff_of_false (not_returns hr) (not_or.mpr ⟨hz, hs⟩)

/-- What is returned has the shape that is promised. -/
theorem allocates_iff_returns : Allocates rt capacity h ↔ Returns (ffiBufferAlloc rt capacity) h := by
  constructor
  · rintro ⟨b, h', hr, -⟩
    exact ⟨b, h', hr⟩
  · rintro ⟨b, h', hr⟩
    obtain ⟨-, ⟨⟨-, hb⟩, -⟩, hlen, hcap⟩ := (FfiBuffer.new_trade capacity).ok b h' hr
    refine ⟨b, h', hr, ?_⟩
    rcases hb with hz | ⟨id, blk, hd, hl, hs⟩
    · obtain rfl : capacity = 0 := hcap.symm.trans hz
      cases hr
      exact .inl rfl
    · exact .inr ⟨hlen, hcap, id, blk, hd, hl, hs.trans hcap⟩

theorem returns_allocBuffer_iff : Returns (allocBuffer rt n) p ↔
    Returns (ffiBufferAlloc rt (C.size_t n)) p.heap := by
  constructor
  · rintro ⟨b, q, hr⟩
    obtain ⟨h', hr', -⟩ := within_eq_ok.mp hr
    exact ⟨b, h', hr'⟩
  · rintro ⟨b, h', hr⟩
    exact ⟨b, _, within_of_ok hr⟩

theorem returns_NewBuffer_iff : Returns (NewBuffer rt n) p ↔ Returns (allocBuffer rt n) p := by
  constructor
  · rintro ⟨b, q, hr⟩
    obtain ⟨raw, t, hraw, -⟩ := bind_eq_ok.mp hr
    exact ⟨raw, t, hraw⟩
  · rintro ⟨raw, t, hr⟩
    exact ⟨_, _, bind_of_ok hr _⟩

/-- A negative `int` wraps to a size that no layout has. -/
theorem not_serves_negative (hn : n < 0) (hmin : -2 ^ 63 ≤ n) : ¬ rt.Serves h (C.size_t n) := by
  intro hs
  have hle := hs.le
  unfold C.size_t isizeMax at hle
  omega

theorem size_t_negative_ne_zero (hn : n < 0) (hmin : -2 ^ 63 ≤ n) : C.size_t n ≠ 0 := by
  unfold C.size_t
  omega

/-- For every capacity, `ffi_buffer_alloc` returns what `ffi.h` promises exactly when the
capacity is zero or the request is served: it fits the address space and the allocator grants
it. `AllocBuffer` and `NewBuffer` of an `int` return under the same condition on its `size_t`,
and so of no negative one. -/
theorem allocation_returns_iff (rt : Runtime) :
    (∀ capacity h, Allocates rt capacity h ↔ capacity = 0 ∨ rt.Serves h capacity) ∧
    (∀ n p, (Returns (NewBuffer rt n) p ↔ C.size_t n = 0 ∨ rt.Serves p.heap (C.size_t n)) ∧
      (Returns (allocBuffer rt n) p ↔ C.size_t n = 0 ∨ rt.Serves p.heap (C.size_t n))) ∧
    ∀ n p, n < 0 → -2 ^ 63 ≤ n → ¬ Returns (NewBuffer rt n) p ∧ ¬ Returns (allocBuffer rt n) p := by
  have halloc : ∀ n p, Returns (allocBuffer rt n) p ↔
      C.size_t n = 0 ∨ rt.Serves p.heap (C.size_t n) := fun n p =>
    returns_allocBuffer_iff.trans returns_alloc_iff
  refine ⟨fun capacity h => allocates_iff_returns.trans returns_alloc_iff,
    fun n p => ⟨returns_NewBuffer_iff.trans (halloc n p), halloc n p⟩, fun n p hn hmin => ?_⟩
  have hno : ¬ Returns (allocBuffer rt n) p := by
    rw [halloc]
    exact not_or.mpr ⟨size_t_negative_ne_zero hn hmin, not_serves_negative hn hmin⟩
  exact ⟨returns_NewBuffer_iff.not.mpr hno, hno⟩

/-- Four bytes are allocated, and no capacity of `-1` is. -/
theorem allocation_returns_four : Allocates (.granting .unwind) 4 .empty ∧
    ¬ Returns (NewBuffer (.granting .unwind) (-1)) (.start .empty) :=
  ⟨((allocation_returns_iff _).1 4 _).mpr (.inr ⟨by decide, rfl⟩),
    ((allocation_returns_iff _).2.2 (-1) _ (by decide) (by decide)).1⟩

/-- A capacity beyond `isize::MAX`, a refused request, and `NewBuffer(-1)` panic. -/
theorem allocation_panics : ¬ Allocates (.granting .unwind) (2 ^ 63) .empty ∧
    ¬ Allocates (.refusing .unwind) 1 .empty ∧
    ¬ Returns (NewBuffer (.granting .unwind) (-1)) (.start .empty) := by
  have hlarge : (ffiBufferAlloc (.granting .unwind) (2 ^ 63)).run Heap.empty =
    .error (.panic (.layoutError "capacity overflow")) .empty := rfl
  have hrefused : (ffiBufferAlloc (.refusing .unwind) 1).run Heap.empty =
    .error (.panic (.string "ffi_buffer_alloc: out of memory (capacity=1)")) Heap.empty.refuse := rfl
  refine ⟨?_, ?_, not_returns (x := .panic (.layoutError "capacity overflow"))
    (t := .start .empty) rfl⟩
  · rintro ⟨b, h', hr, -⟩
    cases hlarge.symm.trans hr
  · rintro ⟨b, h', hr, -⟩
    cases hrefused.symm.trans hr

end FfiBridge
