import Mathlib.Tactic

/-! # Texts that can be cut in one way

Where no word of a code starts another, a text made of a word and what follows it can be cut
in one way. Words closed by a mark that they do not contain are such a code.
-/
namespace FfiBridge.Foundation

variable {α : Type*} {T : Set (List α)} {m : α} {s t u v : List α}

/-- No word starts another. -/
def PrefixCode (T : Set (List α)) : Prop := IsAntichain (· <+: ·) T

theorem PrefixCode.append_inj (hT : PrefixCode T) (hs : s ∈ T) (ht : t ∈ T) :
    s ++ u = t ++ v ↔ s = t ∧ u = v := by
  constructor
  · intro h
    have hst : s = t := by
      rcases List.prefix_or_prefix_of_prefix (List.prefix_append s u) (h ▸ List.prefix_append t v)
        with hp | hp
      · exact hT.eq hs ht hp
      · exact (hT.eq ht hs hp).symm
    subst hst
    exact ⟨rfl, List.append_cancel_left h⟩
  · rintro ⟨rfl, rfl⟩
    rfl

/-- The words that `m` closes. -/
def closedBy (m : α) : Set (List α) := {w | ∃ w', m ∉ w' ∧ w = w' ++ [m]}

theorem closed_mem (h : m ∉ s) : s ++ [m] ∈ closedBy m := ⟨s, h, rfl⟩

theorem prefixCode_closedBy (m : α) : PrefixCode (closedBy m) := by
  rintro _ ⟨s, hs, rfl⟩ _ ⟨t, ht, rfl⟩ hne ⟨u, hu⟩
  rw [List.append_assoc] at hu
  rcases List.append_eq_append_iff.mp hu with ⟨w, rfl, hw⟩ | ⟨w, rfl, hw⟩
  · cases w with
    | nil => exact hne (by simp)
    | cons a w =>
      cases hw
      simp at ht
  · cases w with
    | nil => exact hne (by simp)
    | cons a w => simp at hw

theorem closed_append_inj (hs : m ∉ s) (ht : m ∉ t) :
    s ++ m :: u = t ++ m :: v ↔ s = t ∧ u = v := by
  have h := (prefixCode_closedBy m).append_inj (u := u) (v := v) (closed_mem hs) (closed_mem ht)
  simpa using h

end FfiBridge.Foundation
