import FfiBridge.Rust.Bridge

/-! # Values and their matching frees

A client holds buffers, strings and results. Each is freed by its own function; a list
of values that share no allocation is freed in any order.
-/
namespace FfiBridge
open Foundation

/-- A value a client holds and must free. -/
inductive Value where
  | buffer (b : FfiBuffer)
  | string (s : FfiString)
  | result (r : FfiResult)
  deriving DecidableEq, Repr

namespace Value

def owns : Value → List ℕ
  | buffer b => b.owns
  | string s => s.owns
  | result r => r.owns

def Owned : Value → Heap → Prop
  | buffer b => b.Owned
  | string s => s.Owned
  | result r => r.Owned

/-- The buffers in a value. -/
def raws : Value → List FfiBuffer
  | buffer b => [b]
  | string _ => []
  | result r => [r.payload]

/-- An owned value, whose buffers hold the bytes they say. -/
structure Represented (v : Value) (h : Heap) : Prop where
  owned : v.Owned h
  readable : ∀ b ∈ v.raws, b.Readable h

/-- No bytes were ever asked for. -/
def IsEmpty : Value → Prop
  | buffer b => b.capacity = 0
  | string s => s.len = 0
  | result r => r.errorMessage.len = 0 ∧ r.payload.capacity = 0

/-- The free that matches the value. -/
def free : Value → Rust Unit
  | buffer b => ffiBufferFree b
  | string s => ffiStringFree s
  | result r => ffiResultFree r

theorem Owned.congr {v : Value} {h h' : Heap} (hv : v.Owned h)
    (hk : ∀ id ∈ v.owns, h'.live.lookup id = h.live.lookup id) : v.Owned h' := by
  cases v with
  | buffer b => exact FfiBuffer.Owned.congr hv hk
  | string s => exact FfiString.Owned.congr hv hk
  | result r => exact FfiResult.Owned.congr hv hk

theorem owns_raws_sublist (v : Value) : (v.raws.flatMap FfiBuffer.owns).Sublist v.owns := by
  cases v with
  | buffer b => simp [raws, owns]
  | string s => simp [raws]
  | result r => simp [raws, owns, FfiResult.owns]

theorem Represented.raw {v : Value} {h : Heap} {b : FfiBuffer} (hv : v.Represented h)
    (hb : b ∈ v.raws) : b.Represented h := by
  refine ⟨?_, hv.readable b hb⟩
  cases v with
  | buffer b' =>
    obtain rfl := List.mem_singleton.mp hb
    exact hv.owned
  | string s => exact absurd hb List.not_mem_nil
  | result r =>
    obtain rfl := List.mem_singleton.mp hb
    exact FfiResult.Owned.payload hv.owned

theorem Represented.congr {v : Value} {h h' : Heap} (hv : v.Represented h)
    (hk : ∀ id ∈ v.owns, h'.live.lookup id = h.live.lookup id) : v.Represented h' := by
  refine ⟨hv.owned.congr hk, fun b hb => ?_⟩
  refine ((hv.raw hb).congr fun id hid => hk id ?_).readable
  exact (owns_raws_sublist v).subset (List.mem_flatMap.mpr ⟨b, hb, hid⟩)

theorem represented_buffer {b : FfiBuffer} {h : Heap} :
    (buffer b).Represented h ↔ b.Represented h :=
  ⟨fun hv => hv.raw (List.mem_singleton_self b), fun hb =>
    ⟨hb.owned, fun _ hm => List.mem_singleton.mp hm ▸ hb.readable⟩⟩

theorem represented_result {r : FfiResult} {h : Heap} (hr : r.Owned h)
    (hp : r.payload.Readable h) : (result r).Represented h :=
  ⟨hr, fun _ hm => List.mem_singleton.mp hm ▸ hp⟩

theorem Owned.mem_live {v : Value} {h : Heap} (hv : v.Owned h) {id : ℕ} (hid : id ∈ v.owns) :
    id ∈ h.live := by
  cases v with
  | buffer b => exact FfiBuffer.Owned.mem_live hv hid
  | string s => exact FfiString.Owned.mem_live hv hid
  | result r => exact FfiResult.Owned.mem_live hv hid

theorem Owned.nodup {v : Value} {h : Heap} (hv : v.Owned h) : v.owns.Nodup := by
  cases v with
  | buffer b => exact b.owns_nodup
  | string s => exact Ptr.owns_nodup _ _
  | result r => exact FfiResult.Owned.nodup hv

/-- The matching free of an owned value returns, and gives back exactly what it owns. -/
theorem run_free {v : Value} {h : Heap} (hv : v.Owned h) :
    v.free.run h = .ok () (h.dropAll v.owns) := by
  cases v with
  | buffer b => exact FfiBuffer.run_dealloc hv
  | string s => exact FfiString.run_dealloc hv
  | result r => exact FfiResult.run_free hv

theorem owns_of_isEmpty {v : Value} (hv : v.IsEmpty) : v.owns = [] := by
  cases v with
  | buffer b => simp [owns, FfiBuffer.owns, show b.capacity = 0 from hv]
  | string s => simp [owns, FfiString.owns, show s.len = 0 from hv]
  | result r =>
    obtain ⟨hm, hp⟩ := hv
    simp [owns, FfiResult.owns, FfiString.owns, FfiBuffer.owns, hm, hp]

end Value

/-- Free the values of a list one after the other. -/
def freeAll : List Value → Rust Unit
  | [] => pure ()
  | v :: vs => do
    v.free
    freeAll vs

/-- Owned values that share nothing are all freed, and what they own is given back. -/
theorem run_freeAll {vs : List Value} {h : Heap} (hv : ∀ v ∈ vs, v.Owned h)
    (hn : (vs.flatMap Value.owns).Nodup) :
    (freeAll vs).run h = .ok () (h.dropAll (vs.flatMap Value.owns)) := by
  induction vs generalizing h with
  | nil => rfl
  | cons v vs ih =>
    rw [List.flatMap_cons] at hn ⊢
    obtain ⟨-, hvs, hd⟩ := List.nodup_append.mp hn
    unfold freeAll
    rw [bind_of_ok (Value.run_free (hv v List.mem_cons_self)), ih (fun w hw => ?_) hvs,
      Heap.dropAll_append]
    refine (hv w (List.mem_cons_of_mem v hw)).congr fun id hid => ?_
    exact Arena.lookup_releaseAll fun hm => hd id hm id (List.mem_flatMap.mpr ⟨w, hw, hid⟩) rfl

end FfiBridge
