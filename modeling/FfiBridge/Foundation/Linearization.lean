import FfiBridge.Foundation.Execution

/-! # Linearizability

Operations of several clients overlap: each is called, takes effect at one moment after that,
and answers later, or never. What was called and answered is as if the operations had been run
one after the other, in the order of their effects, and an operation that is called when
another one has answered comes after it.
-/
namespace FfiBridge.Foundation

variable {ι ο α σ : Type*}

/-- Moments of the operation `i`. -/
inductive Moment (ι ο α : Type*) where
  | call (i : ι) (op : ο)
  | effect (i : ι) (op : ο) (a : α)
  | response (i : ι) (a : α)

/-- A history, newest first, in which every operation is called once, takes effect at most once
and after its call, and answers after its effect with what was decided there. -/
inductive Timely : List (Moment ι ο α) → Prop
  | nil : Timely []
  | call {h : List (Moment ι ο α)} {i : ι} {op : ο} (hh : Timely h)
      (hnew : ∀ op', .call i op' ∉ h) : Timely (.call i op :: h)
  | effect {h : List (Moment ι ο α)} {i : ι} {op : ο} {a : α} (hh : Timely h)
      (hcall : .call i op ∈ h) (hnew : ∀ op' a', .effect i op' a' ∉ h) : Timely (.effect i op a :: h)
  | response {h : List (Moment ι ο α)} {i : ι} {op : ο} {a : α} (hh : Timely h)
      (heffect : .effect i op a ∈ h) : Timely (.response i a :: h)

def Moment.id : Moment ι ο α → ι
  | call i _ | effect i _ _ | response i _ => i

def Moment.effect? : Moment ι ο α → Option (ι × ο × α)
  | effect i op a => some (i, op, a)
  | _ => none

/-- The operations that took effect, newest first. -/
def effects (h : List (Moment ι ο α)) : List (ι × ο × α) := h.filterMap Moment.effect?

/-- The operations of `l`, newest first, run one after the other from `s` to `t`, account for the
history `h`: it calls all of them, its answers are theirs, and they come in the order of time. -/
structure Linearizes (step : σ → ο × α → σ → Prop) (s t : σ) (h : List (Moment ι ο α))
    (l : List (ι × ο × α)) : Prop where
  legal : Execution step s (l.map Prod.snd) t
  nodup : (l.map Prod.fst).Nodup
  called : ∀ i op a, (i, op, a) ∈ l → .call i op ∈ h
  answered : ∀ i a, .response i a ∈ h → ∃ op, (i, op, a) ∈ l
  realTime : ∀ newer older i op, h = newer ++ .call i op :: older → ∀ x ∈ l, x.1 = i →
    ∀ j a, .response j a ∈ older → ∃ y, y.1 = j ∧ [x, y].Sublist l

variable {h newer older : List (Moment ι ο α)} {i j : ι} {op : ο} {a : α}

@[simp] theorem effects_call : effects (.call i op :: h) = effects h := rfl
@[simp] theorem effects_effect : effects (.effect i op a :: h) = (i, op, a) :: effects h := rfl
@[simp] theorem effects_response : effects (.response i a :: h : List (Moment ι ο α)) = effects h := rfl

theorem effects_append : effects (newer ++ older) = effects newer ++ effects older :=
  List.filterMap_append

theorem mem_effects : (i, op, a) ∈ effects h ↔ .effect i op a ∈ h := by
  unfold effects
  rw [List.mem_filterMap]
  constructor
  · rintro ⟨m, hm, he⟩
    cases m with
    | effect i' op' a' =>
      cases he
      exact hm
    | call i' op' => cases he
    | response i' a' => cases he
  · exact fun hm => ⟨_, hm, rfl⟩

namespace Timely

theorem tail (hh : Timely (newer ++ older)) : Timely older := by
  induction newer with
  | nil => exact hh
  | cons m newer ih =>
    cases hh with
    | call hh _ => exact ih hh
    | effect hh _ _ => exact ih hh
    | response hh _ => exact ih hh

theorem called_of_effect (hh : Timely h) (he : .effect i op a ∈ h) : .call i op ∈ h := by
  induction hh with
  | nil => cases he
  | call hh _ ih => exact List.mem_cons_of_mem _ (ih ((List.mem_cons.mp he).resolve_left nofun))
  | effect hh hcall _ ih =>
    rcases List.mem_cons.mp he with heq | he
    · cases heq
      exact List.mem_cons_of_mem _ hcall
    · exact List.mem_cons_of_mem _ (ih he)
  | response hh _ ih =>
    exact List.mem_cons_of_mem _ (ih ((List.mem_cons.mp he).resolve_left nofun))

theorem effect_of_response (hh : Timely h) (hr : .response i a ∈ h) : ∃ op, .effect i op a ∈ h := by
  induction hh with
  | nil => cases hr
  | call hh _ ih =>
    obtain ⟨op, he⟩ := ih ((List.mem_cons.mp hr).resolve_left nofun)
    exact ⟨op, List.mem_cons_of_mem _ he⟩
  | effect hh _ _ ih =>
    obtain ⟨op, he⟩ := ih ((List.mem_cons.mp hr).resolve_left nofun)
    exact ⟨op, List.mem_cons_of_mem _ he⟩
  | response hh he ih =>
    rcases List.mem_cons.mp hr with heq | hr
    · cases heq
      exact ⟨_, List.mem_cons_of_mem _ he⟩
    · obtain ⟨op, he⟩ := ih hr
      exact ⟨op, List.mem_cons_of_mem _ he⟩

theorem nodup_effects (hh : Timely h) : ((effects h).map Prod.fst).Nodup := by
  induction hh with
  | nil => exact List.nodup_nil
  | call hh _ ih => exact ih
  | @effect h i op a hh _ hnew ih =>
    rw [effects_effect, List.map_cons, List.nodup_cons]
    refine ⟨fun hmem => ?_, ih⟩
    obtain ⟨⟨i', op', a'⟩, he, rfl⟩ := List.mem_map.mp hmem
    exact hnew op' a' (mem_effects.mp he)
  | response hh _ ih => exact ih

/-- What an operation does comes after its call. -/
theorem effect_notMem (hh : Timely (.call i op :: older)) (op' : ο) (a' : α) :
    .effect i op' a' ∉ older := by
  cases hh with
  | call hh hnew => exact fun he => hnew op' (hh.called_of_effect he)

/-- The order of the effects accounts for the history. -/
theorem linearizes {step : σ → ο × α → σ → Prop} {s t : σ} (hh : Timely h)
    (hlegal : Execution step s ((effects h).map Prod.snd) t) :
    Linearizes step s t h (effects h) where
  legal := hlegal
  nodup := hh.nodup_effects
  called _ _ _ hmem := hh.called_of_effect (mem_effects.mp hmem)
  answered _ _ hr := (hh.effect_of_response hr).imp fun _ he => mem_effects.mpr he
  realTime newer older i op heq x hx hxi j a hr := by
    subst heq hxi
    have hcall := hh.tail
    have hold : Timely older := @tail _ _ _ [_] older hcall
    obtain ⟨op', he⟩ := hold.effect_of_response hr
    -- the effect of `x` is newer than its call, that of `j` older
    rw [effects_append, effects_call] at hx ⊢
    have hxn : x ∈ effects newer := (List.mem_append.mp hx).resolve_right fun hx =>
      hcall.effect_notMem x.2.1 x.2.2 (mem_effects.mp hx)
    exact ⟨(j, op', a), rfl, (List.singleton_sublist.mpr hxn).append
      (List.singleton_sublist.mpr (mem_effects.mpr he))⟩

end Timely

end FfiBridge.Foundation
