import Mathlib.Data.Finmap
import Mathlib.Data.Set.Card
import Mathlib.Tactic

/-! # The latest write under each key

A history of writes, newest first, is read as a map: what was last written under a key,
where a write may also clear the key. A finite map that does each write agrees with it.
-/
namespace FfiBridge.Foundation

variable {κ ν : Type} [DecidableEq κ]

/-- What was last written under `k`, if it was not cleared. -/
def latest (ws : List (κ × Option ν)) (k : κ) : Option ν := (ws.find? fun w => w.1 = k).bind Prod.snd

variable {ws : List (κ × Option ν)} {k k' : κ} {v : ν}

theorem latest_cons (w : κ × Option ν) :
    latest (w :: ws) k = if w.1 = k then w.2 else latest ws k := by
  unfold latest
  by_cases h : w.1 = k
  · rw [List.find?_cons_of_pos (by simpa using h), if_pos h]
    rfl
  · rw [List.find?_cons_of_neg (by simpa using h), if_neg h]

/-- The newest write under `k`, if there is one. -/
theorem find?_key_eq_some {w : κ × Option ν} : (ws.find? fun w => w.1 = k) = some w ↔
    w.1 = k ∧ ∃ newer older, ws = newer ++ w :: older ∧ ∀ w' ∈ newer, w'.1 ≠ k := by
  simp [List.find?_eq_some_iff_append]

/-- Nothing was written under `k`, or it was cleared and not written since. -/
theorem latest_eq_none : latest ws k = none ↔ (∀ w ∈ ws, w.1 ≠ k) ∨
    ∃ newer older, ws = newer ++ (k, none) :: older ∧ ∀ w ∈ newer, w.1 ≠ k := by
  unfold latest
  rw [Option.bind_eq_none_iff]
  constructor
  · intro h
    cases hw : ws.find? fun w => w.1 = k with
    | none => exact .inl (by simpa using hw)
    | some w =>
      obtain ⟨k', o⟩ := w
      obtain rfl : o = none := h _ hw
      obtain ⟨rfl, hex⟩ := find?_key_eq_some.mp hw
      exact .inr hex
  · rintro (hall | hex) w hw
    · exact absurd (find?_key_eq_some.mp hw).1 (hall w (List.mem_of_find?_eq_some hw))
    · cases hw.symm.trans (find?_key_eq_some.mpr ⟨rfl, hex⟩)
      rfl

/-! ## Finite maps that do the writes -/

/-- The size of a finite map is the number of keys that are present. -/
theorem card_keys (m : Finmap (fun _ : κ => ν)) :
    m.keys.card = {k | (m.lookup k).isSome = true}.ncard := by
  have hset : {k | (m.lookup k).isSome = true} = (m.keys : Set κ) := by
    ext k
    rw [Set.mem_ofPred_eq, Finset.mem_coe, Finmap.mem_keys, ← Finmap.lookup_isSome]
  rw [hset, Set.ncard_coe_finset]

/-- The values of a finite map, each as often as it stands under a key. -/
def values (m : Finmap (fun _ : κ => ν)) : Multiset ν := m.entries.map Sigma.snd

omit [DecidableEq κ] in
@[simp] theorem values_empty : values (∅ : Finmap (fun _ : κ => ν)) = 0 := rfl

theorem mem_values {m : Finmap (fun _ : κ => ν)} : v ∈ values m ↔ ∃ k, m.lookup k = some v := by
  unfold values
  rw [Multiset.mem_map]
  constructor
  · rintro ⟨⟨k, v⟩, hk, rfl⟩
    exact ⟨k, Finmap.mem_lookup_iff.mpr hk⟩
  · rintro ⟨k, hk⟩
    exact ⟨⟨k, v⟩, Finmap.mem_lookup_iff.mp hk, rfl⟩

/-- An insertion adds a value, in the place of the one under its key. -/
theorem values_insert (m : Finmap (fun _ : κ => ν)) (k : κ) (v : ν) :
    values (m.insert k v) = v ::ₘ values (m.erase k) := by
  have hins : m.insert k v = (m.erase k).insert k v := by
    refine Finmap.ext_lookup fun k' => ?_
    by_cases hk : k' = k
    · subst hk
      rw [Finmap.lookup_insert, Finmap.lookup_insert]
    · rw [Finmap.lookup_insert_of_ne _ hk, Finmap.lookup_insert_of_ne _ hk, Finmap.lookup_erase_ne hk]
  rw [hins, values, Finmap.entries_insert_of_notMem Finmap.notMem_erase_self, Multiset.map_cons]
  rfl

/-- What an erasure takes from the values. -/
theorem values_erase (m : Finmap (fun _ : κ => ν)) (k : κ) :
    values m = ((m.lookup k).toList : Multiset ν) + values (m.erase k) := by
  cases hl : m.lookup k with
  | none =>
    have hm : m.erase k = m := by
      refine Finmap.ext_lookup fun k' => ?_
      by_cases hk : k' = k
      · subst hk
        rw [Finmap.lookup_erase, hl]
      · rw [Finmap.lookup_erase_ne hk]
    rw [hm]
    simp
  | some v =>
    have hm : m.insert k v = m := by
      refine Finmap.ext_lookup fun k' => ?_
      by_cases hk : k' = k
      · subst hk
        rw [Finmap.lookup_insert, hl]
      · rw [Finmap.lookup_insert_of_ne _ hk]
    have hv := values_insert m k v
    rw [hm] at hv
    rw [hv]
    simp

/-- The map is what the history of writes leaves. -/
def Agrees (m : Finmap (fun _ : κ => ν)) (ws : List (κ × Option ν)) : Prop :=
  ∀ k, m.lookup k = latest ws k

namespace Agrees

variable {m : Finmap (fun _ : κ => ν)}

theorem empty : Agrees (∅ : Finmap (fun _ : κ => ν)) [] := fun _ => rfl

theorem insert (h : Agrees m ws) : Agrees (m.insert k v) ((k, some v) :: ws) := by
  intro k'
  rw [latest_cons]
  by_cases hk : k = k'
  · rw [if_pos hk, ← hk, Finmap.lookup_insert]
  · rw [if_neg hk, Finmap.lookup_insert_of_ne _ (Ne.symm hk), h k']

theorem erase (h : Agrees m ws) : Agrees (m.erase k) ((k, none) :: ws) := by
  intro k'
  rw [latest_cons]
  by_cases hk : k = k'
  · rw [if_pos hk, ← hk, Finmap.lookup_erase]
  · rw [if_neg hk, Finmap.lookup_erase_ne (Ne.symm hk), h k']

/-- The size of the map is the number of keys present after the history. -/
theorem card (h : Agrees m ws) : m.keys.card = {k | (latest ws k).isSome = true}.ncard := by
  rw [card_keys]
  simp only [h _]

end Agrees

end FfiBridge.Foundation
