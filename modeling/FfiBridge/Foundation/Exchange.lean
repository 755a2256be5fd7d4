import FfiBridge.Foundation.Arena

/-! # Exchanges of owned names

What a piece of code does to an arena, seen from its owner: the names it is handed are
given up, the names it hands back are live and no one else's, and every other live
name keeps its value. Exchanges compose with a frame, so a long history is accounted
for step by step.
-/
namespace FfiBridge.Foundation

namespace Arena

variable {β : Type} {a b c : Arena β} {ins outs xs ys zs : List ℕ}

/-- From `a` to `b`, the names `ins` are given up for the names `outs`. -/
structure Exchange (a : Arena β) (ins : List ℕ) (b : Arena β) (outs : List ℕ) : Prop where
  later : Later a b
  live : ∀ id, id ∈ b.live ↔ id ∈ a.live ∧ id ∉ ins ∨ id ∈ outs
  kept : ∀ id, id ∈ a.live → id ∉ ins → b.live.lookup id = a.live.lookup id
  apart : ∀ id, id ∈ outs → id ∈ a.live → id ∈ ins
  nodup : outs.Nodup

namespace Exchange

theorem refl (a : Arena β) : Exchange a [] a [] :=
  ⟨.refl a, by simp, fun _ _ _ => rfl, by simp, List.nodup_nil⟩

/-- Names handed in and handed back. -/
theorem pass (hn : xs.Nodup) (hl : ∀ id ∈ xs, id ∈ a.live) : Exchange a xs a xs where
  later := .refl a
  live id := by
    by_cases h : id ∈ xs
    · simp [h, hl id h]
    · simp [h]
  kept _ _ _ := rfl
  apart _ h _ := h
  nodup := hn

theorem acquire (a : Arena β) (v : β) : Exchange a [] (a.acquire v) [a.next] where
  later := .acquire a v
  live id := by simp [or_comm]
  kept id hl _ := lookup_acquire_of_live v hl
  apart id h hl := absurd (List.mem_singleton.mp h ▸ hl) a.next_notMem_live
  nodup := List.nodup_singleton _

theorem update (a : Arena β) (id : ℕ) (v : β) (hl : id ∈ a.live) :
    Exchange a [id] (a.update id v hl) [id] where
  later := .update a id v hl
  live k := by
    by_cases hk : k = id
    · simp [hk, hl]
    · simp [hk]
  kept _ _ hk := lookup_update_of_ne a v hl (List.mem_singleton.not.mp hk)
  apart _ h _ := h
  nodup := List.nodup_singleton _

theorem releaseAll (a : Arena β) (ids : List ℕ) : Exchange a ids (a.releaseAll ids) [] where
  later := .releaseAll a ids
  live id := by simp
  kept _ _ h := lookup_releaseAll h
  apart _ h := absurd h List.not_mem_nil
  nodup := List.nodup_nil

/-- The second exchange is fed with a part of what the first one handed back. -/
theorem trans (h : Exchange a ins b (xs ++ ys)) (h' : Exchange b xs c zs) :
    Exchange a ins c (zs ++ ys) := by
  obtain ⟨-, -, hxy⟩ := List.nodup_append.mp h.nodup
  have houtside : ∀ id, id ∈ a.live → id ∉ ins → id ∈ b.live ∧ id ∉ xs := fun id hl hi =>
    ⟨(h.live id).mpr (.inl ⟨hl, hi⟩),
      fun hx => hi (h.apart id (List.mem_append_left _ hx) hl)⟩
  have hys : ∀ id, id ∈ ys → id ∈ b.live ∧ id ∉ xs := fun id hy =>
    ⟨(h.live id).mpr (.inr (List.mem_append_right _ hy)), fun hx => hxy id hx id hy rfl⟩
  refine ⟨h.later.trans h'.later, fun id => ?_, fun id hl hi => ?_, fun id ho hl => ?_, ?_⟩
  · rw [h'.live, List.mem_append]
    constructor
    · rintro (⟨hb, hx⟩ | hz)
      · rcases (h.live id).mp hb with ha | ho
        · exact .inl ha
        · exact .inr (.inr ((List.mem_append.mp ho).resolve_left hx))
      · exact .inr (.inl hz)
    · rintro (⟨hl, hi⟩ | hz | hy)
      · exact .inl (houtside id hl hi)
      · exact .inr hz
      · exact .inl (hys id hy)
  · obtain ⟨hb, hx⟩ := houtside id hl hi
    rw [h'.kept id hb hx, h.kept id hl hi]
  · by_contra hi
    obtain ⟨hb, hx⟩ := houtside id hl hi
    rcases List.mem_append.mp ho with hz | hy
    · exact hx (h'.apart id hz hb)
    · exact hi (h.apart id (List.mem_append_right _ hy) hl)
  · refine List.nodup_append.mpr ⟨h'.nodup, (List.nodup_append.mp h.nodup).2.1, ?_⟩
    rintro id hz _ hy rfl
    obtain ⟨hb, hx⟩ := hys id hy
    exact hx (h'.apart id hz hb)

/-- The second exchange is fed with all the first one handed back. -/
theorem seq (h : Exchange a ins b xs) (h' : Exchange b xs c zs) : Exchange a ins c zs := by
  simpa using @trans _ _ _ _ _ _ [] _ (by simpa using h) h'

/-- The second exchange is fed with nothing. -/
theorem also (h : Exchange a ins b ys) (h' : Exchange b [] c zs) : Exchange a ins c (zs ++ ys) :=
  @trans _ _ _ _ _ [] ys zs h h'

theorem perm (h : Exchange a ins b xs) (hp : xs.Perm ys) : Exchange a ins b ys where
  later := h.later
  live id := by rw [h.live, hp.mem_iff]
  kept := h.kept
  apart id hid := h.apart id (hp.mem_iff.mpr hid)
  nodup := hp.nodup_iff.mp h.nodup

/-- Of several values that own names, some are traded for others. The rest is a frame, whose
names keep their values. -/
theorem trade {α : Type} {owns : α → List ℕ} {vs us ws rest : List α}
    (h : Exchange a ins b (vs.flatMap owns)) (hp : vs.Perm (us ++ rest))
    (h' : Exchange b (us.flatMap owns) c (ws.flatMap owns)) :
    Exchange a ins c ((ws ++ rest).flatMap owns) ∧
      ∀ v ∈ rest, ∀ id ∈ owns v, c.live.lookup id = b.live.lookup id := by
  have hall : Exchange a ins b (us.flatMap owns ++ rest.flatMap owns) := by
    rw [← List.flatMap_append]
    exact h.perm (hp.flatMap_right _)
  refine ⟨?_, fun v hv id hid => ?_⟩
  · rw [List.flatMap_append]
    exact hall.trans h'
  · have hrest : id ∈ rest.flatMap owns := List.mem_flatMap.mpr ⟨v, hv, hid⟩
    have hlive : id ∈ b.live := (hall.live id).mpr (.inr (List.mem_append_right _ hrest))
    exact h'.kept id hlive fun hu => (List.nodup_append.mp hall.nodup).2.2 id hu id hrest rfl

theorem mem_live (h : Exchange a ins b outs) {id : ℕ} (hid : id ∈ outs) : id ∈ b.live :=
  (h.live id).mpr (.inr hid)

/-- Where nothing was handed in, what is handed back is new. -/
theorem fresh (h : Exchange a [] b outs) {id : ℕ} (hid : id ∈ outs) : a.next ≤ id := by
  by_contra hlt
  rcases (a.named id).mp (not_le.mp hlt) with hl | hr
  · exact List.not_mem_nil (h.apart id hid hl)
  · exact b.apart id (h.mem_live hid) (h.later.mem_released hr)

/-- A live name handed in and not handed back was released, exactly once. -/
theorem count_released (h : Exchange a ins b outs) {id : ℕ} (hl : id ∈ a.live)
    (hi : id ∈ ins) (ho : id ∉ outs) : b.released.count id = 1 := by
  refine Arena.count_released ((lt_next_of_live hl).trans_le h.later.next) fun hb => ?_
  rcases (h.live id).mp hb with ⟨-, hn⟩ | hid
  · exact hn hi
  · exact ho hid

/-- An exchange of nothing spares every live name. -/
theorem spares (h : Exchange a [] b outs) : ∀ id ∈ a.live, id ∈ b.live :=
  fun id hl => (h.live id).mpr (.inl ⟨hl, List.not_mem_nil⟩)

/-- When nothing was handed in and nothing is held back, the live names and their
values are what they were. -/
theorem live_eq (h : Exchange a [] b []) : b.live = a.live := by
  refine Finmap.ext_lookup fun id => ?_
  by_cases hl : id ∈ a.live
  · exact h.kept id hl List.not_mem_nil
  · have hb : id ∉ b.live := fun hb => hl (by simpa using (h.live id).mp hb)
    rw [Finmap.lookup_eq_none.mpr hl, Finmap.lookup_eq_none.mpr hb]

end Exchange

end Arena

end FfiBridge.Foundation
