import Mathlib.Data.Finmap
import Mathlib.Tactic

/-! # Arenas of names that are handed out once

An arena hands out the names `0, 1, 2, …` in order, each with a value. A name that
was handed out is live until it is released, and released at most once: the record
holds this as a field, so a released name can neither be live again nor be released
again. Two preorders compare an arena with a later one.
-/
namespace FfiBridge.Foundation

/-- Every name below `next` is either live or in the list of released names (newest
first), never in both and never twice in the list. -/
structure Arena (β : Type) where
  live : Finmap (fun _ : ℕ => β)
  released : List ℕ
  next : ℕ
  nodup : released.Nodup
  named : ∀ id, id < next ↔ id ∈ live ∨ id ∈ released
  apart : ∀ id, id ∈ live → id ∉ released

namespace Arena

variable {β : Type}

def empty : Arena β where
  live := ∅
  released := []
  next := 0
  nodup := List.nodup_nil
  named id := by simp [Finmap.notMem_empty]
  apart id h := absurd h Finmap.notMem_empty

theorem lt_next_of_live {a : Arena β} {id : ℕ} (h : id ∈ a.live) : id < a.next :=
  (a.named id).mpr (.inl h)

theorem lt_next_of_released {a : Arena β} {id : ℕ} (h : id ∈ a.released) : id < a.next :=
  (a.named id).mpr (.inr h)

theorem next_notMem_live (a : Arena β) : a.next ∉ a.live :=
  fun h => (lt_next_of_live h).false

theorem next_notMem_released (a : Arena β) : a.next ∉ a.released :=
  fun h => (lt_next_of_released h).false

theorem notMem_live_of_released {a : Arena β} {id : ℕ} (h : id ∈ a.released) : id ∉ a.live :=
  fun hl => a.apart id hl h

/-- A name handed out and no longer live was released exactly once. -/
theorem count_released {a : Arena β} {id : ℕ} (hn : id < a.next) (hl : id ∉ a.live) :
    a.released.count id = 1 :=
  List.count_eq_one_of_mem a.nodup (((a.named id).mp hn).resolve_left hl)

/-! ## Operations -/

/-- Hand out the next name. -/
def acquire (a : Arena β) (b : β) : Arena β where
  live := a.live.insert a.next b
  released := a.released
  next := a.next + 1
  nodup := a.nodup
  named id := by
    have h := a.named id
    simp only [Finmap.mem_insert]
    constructor
    · intro hid
      rcases Nat.lt_succ_iff_lt_or_eq.mp hid with hlt | rfl
      · exact (h.mp hlt).imp .inr (fun x => x)
      · exact .inl (.inl rfl)
    · rintro ((rfl | hl) | hr)
      · exact Nat.lt_succ_self _
      · exact (h.mpr (.inl hl)).trans (Nat.lt_succ_self _)
      · exact (h.mpr (.inr hr)).trans (Nat.lt_succ_self _)
  apart id hid := by
    rcases Finmap.mem_insert.mp hid with rfl | hl
    · exact a.next_notMem_released
    · exact a.apart id hl

/-- Release a live name. -/
def release (a : Arena β) (id : ℕ) (h : id ∈ a.live) : Arena β where
  live := a.live.erase id
  released := id :: a.released
  next := a.next
  nodup := List.nodup_cons.mpr ⟨a.apart id h, a.nodup⟩
  named k := by
    rw [a.named k, Finmap.mem_erase, List.mem_cons]
    by_cases hk : k = id
    · subst hk
      simp [h]
    · simp [hk]
  apart k hk := by
    obtain ⟨hne, hl⟩ := Finmap.mem_erase.mp hk
    simpa [hne] using a.apart k hl

/-- Replace the value of a live name. -/
def update (a : Arena β) (id : ℕ) (b : β) (h : id ∈ a.live) : Arena β where
  live := a.live.insert id b
  released := a.released
  next := a.next
  nodup := a.nodup
  named k := by
    rw [a.named k, Finmap.mem_insert]
    constructor
    · exact fun hk => hk.imp .inr (fun x => x)
    · rintro ((rfl | hl) | hr)
      exacts [.inl h, .inl hl, .inr hr]
  apart k hk := by
    rcases Finmap.mem_insert.mp hk with rfl | hl
    · exact a.apart _ h
    · exact a.apart k hl

@[simp] theorem acquire_next (a : Arena β) (b : β) : (a.acquire b).next = a.next + 1 := rfl
@[simp] theorem acquire_released (a : Arena β) (b : β) : (a.acquire b).released = a.released := rfl
@[simp] theorem release_next (a : Arena β) (id : ℕ) (h) : (a.release id h).next = a.next := rfl
@[simp] theorem release_released (a : Arena β) (id : ℕ) (h) :
    (a.release id h).released = id :: a.released := rfl
@[simp] theorem update_next (a : Arena β) (id : ℕ) (b : β) (h) :
    (a.update id b h).next = a.next := rfl
@[simp] theorem update_released (a : Arena β) (id : ℕ) (b : β) (h) :
    (a.update id b h).released = a.released := rfl

@[simp] theorem mem_acquire {a : Arena β} {b : β} {id : ℕ} :
    id ∈ (a.acquire b).live ↔ id = a.next ∨ id ∈ a.live := Finmap.mem_insert

@[simp] theorem mem_release {a : Arena β} {id k : ℕ} {h : id ∈ a.live} :
    k ∈ (a.release id h).live ↔ k ≠ id ∧ k ∈ a.live := Finmap.mem_erase

@[simp] theorem mem_update {a : Arena β} {id k : ℕ} {b : β} {h : id ∈ a.live} :
    k ∈ (a.update id b h).live ↔ k ∈ a.live := by
  rw [update, Finmap.mem_insert]
  exact ⟨fun hk => hk.elim (fun e => e ▸ h) (fun x => x), .inr⟩

@[simp] theorem lookup_acquire_next (a : Arena β) (b : β) :
    (a.acquire b).live.lookup a.next = some b := Finmap.lookup_insert _

theorem lookup_acquire_of_ne (a : Arena β) (b : β) {id : ℕ} (h : id ≠ a.next) :
    (a.acquire b).live.lookup id = a.live.lookup id := Finmap.lookup_insert_of_ne _ h

theorem lookup_acquire_of_live {a : Arena β} (b : β) {id : ℕ} (h : id ∈ a.live) :
    (a.acquire b).live.lookup id = a.live.lookup id :=
  lookup_acquire_of_ne a b (lt_next_of_live h).ne

theorem lookup_release_of_ne (a : Arena β) {id k : ℕ} (h) (hk : k ≠ id) :
    (a.release id h).live.lookup k = a.live.lookup k := Finmap.lookup_erase_ne hk

@[simp] theorem lookup_update_self (a : Arena β) (id : ℕ) (b : β) (h) :
    (a.update id b h).live.lookup id = some b := Finmap.lookup_insert _

theorem lookup_update_of_ne (a : Arena β) {id k : ℕ} (b : β) (h) (hk : k ≠ id) :
    (a.update id b h).live.lookup k = a.live.lookup k := Finmap.lookup_insert_of_ne _ hk

/-- Release the names of a list that are live when their turn comes. -/
def releaseAll (a : Arena β) : List ℕ → Arena β
  | [] => a
  | id :: ids => releaseAll (if h : id ∈ a.live then a.release id h else a) ids

@[simp] theorem releaseAll_nil (a : Arena β) : a.releaseAll [] = a := rfl

theorem releaseAll_singleton (a : Arena β) {id : ℕ} (h : id ∈ a.live) :
    a.releaseAll [id] = a.release id h := by simp [releaseAll, h]

theorem releaseAll_append (a : Arena β) (ids ids' : List ℕ) :
    a.releaseAll (ids ++ ids') = (a.releaseAll ids).releaseAll ids' := by
  induction ids generalizing a with
  | nil => rfl
  | cons id ids ih => exact ih _

@[simp] theorem releaseAll_next (a : Arena β) (ids : List ℕ) :
    (a.releaseAll ids).next = a.next := by
  induction ids generalizing a with
  | nil => rfl
  | cons id ids ih =>
    rw [releaseAll, ih]
    split_ifs <;> rfl

@[simp] theorem mem_releaseAll {a : Arena β} {ids : List ℕ} {k : ℕ} :
    k ∈ (a.releaseAll ids).live ↔ k ∈ a.live ∧ k ∉ ids := by
  induction ids generalizing a with
  | nil => simp
  | cons id ids ih =>
    rw [releaseAll, ih]
    by_cases h : id ∈ a.live
    · simp [h, and_assoc, and_left_comm]
    · have hk : k ∈ a.live → k ≠ id := by
        rintro hk rfl
        exact h hk
      simp only [h, dite_false, List.mem_cons, not_or]
      exact ⟨fun ⟨hl, hn⟩ => ⟨hl, hk hl, hn⟩, fun ⟨hl, _, hn⟩ => ⟨hl, hn⟩⟩

theorem mem_releaseAll_released {a : Arena β} {ids : List ℕ} {k : ℕ} :
    k ∈ (a.releaseAll ids).released ↔ k ∈ a.released ∨ (k ∈ ids ∧ k ∈ a.live) := by
  have hnamed : k < a.next → k ∉ (a.releaseAll ids).live → k ∈ (a.releaseAll ids).released :=
    fun hn => (((a.releaseAll ids).named k).mp (by rwa [releaseAll_next])).resolve_left
  constructor
  · intro hr
    have hn : k < a.next := a.releaseAll_next ids ▸ lt_next_of_released hr
    rcases (a.named k).mp hn with hl | hr'
    · have hk : k ∈ ids := by
        by_contra hk
        exact notMem_live_of_released hr (mem_releaseAll.mpr ⟨hl, hk⟩)
      exact .inr ⟨hk, hl⟩
    · exact .inl hr'
  · rintro (hr | ⟨hk, hl⟩)
    · exact hnamed (lt_next_of_released hr) fun hl =>
        notMem_live_of_released hr (mem_releaseAll.mp hl).1
    · exact hnamed (lt_next_of_live hl) fun hl' => (mem_releaseAll.mp hl').2 hk

theorem lookup_releaseAll {a : Arena β} {ids : List ℕ} {k : ℕ} (hk : k ∉ ids) :
    (a.releaseAll ids).live.lookup k = a.live.lookup k := by
  induction ids generalizing a with
  | nil => rfl
  | cons id ids ih =>
    obtain ⟨hne, hk⟩ := not_or.mp (List.mem_cons.not.mp hk)
    rw [releaseAll, ih hk]
    split_ifs
    · exact lookup_release_of_ne a _ hne
    · rfl

/-- Overwriting the name just handed out. -/
theorem update_acquire (a : Arena β) (b c : β) (h) :
    (a.acquire b).update a.next c h = a.acquire c := by
  simp [update, acquire]

/-! ## Later arenas -/

/-- The history only grows: no name is taken back and no release is undone. -/
structure Later (a b : Arena β) : Prop where
  next : a.next ≤ b.next
  released : a.released <:+ b.released

namespace Later

variable {a b c : Arena β}

theorem refl (a : Arena β) : Later a a := ⟨le_rfl, List.suffix_refl _⟩

theorem trans (h : Later a b) (h' : Later b c) : Later a c :=
  ⟨h.next.trans h'.next, h.released.trans h'.released⟩

theorem acquire (a : Arena β) (v : β) : Later a (a.acquire v) :=
  ⟨Nat.le_succ _, List.suffix_refl _⟩

theorem release (a : Arena β) (id : ℕ) (h) : Later a (a.release id h) :=
  ⟨le_rfl, List.suffix_cons _ _⟩

theorem update (a : Arena β) (id : ℕ) (v : β) (h) : Later a (a.update id v h) :=
  ⟨le_rfl, List.suffix_refl _⟩

theorem releaseAll (a : Arena β) (ids : List ℕ) : Later a (a.releaseAll ids) := by
  induction ids generalizing a with
  | nil => exact refl a
  | cons id ids ih =>
    refine trans ?_ (ih _)
    split_ifs with h
    · exact release a id h
    · exact refl a

theorem mem_released (h : Later a b) {id : ℕ} (hr : id ∈ a.released) : id ∈ b.released :=
  h.released.subset hr

end Later

/-- The live names among `ids` stay live. -/
def Spares (ids : List ℕ) (a b : Arena β) : Prop := ∀ id ∈ ids, id ∈ a.live → id ∈ b.live

namespace Spares

variable {ids : List ℕ} {a b c : Arena β}

theorem refl (ids : List ℕ) (a : Arena β) : Spares ids a a := fun _ _ h => h

theorem trans (h : Spares ids a b) (h' : Spares ids b c) : Spares ids a c :=
  fun id hid hl => h' id hid (h id hid hl)

/-- In a later arena, what was not released is live. -/
theorem of_later (h : Later a b) (hr : ∀ id ∈ ids, id ∉ b.released) : Spares ids a b :=
  fun id hid hl => ((b.named id).mp ((lt_next_of_live hl).trans_le h.next)).resolve_right (hr id hid)

theorem acquire (ids : List ℕ) (a : Arena β) (v : β) : Spares ids a (a.acquire v) :=
  fun _ _ h => mem_acquire.mpr (.inr h)

end Spares

end Arena

end FfiBridge.Foundation
