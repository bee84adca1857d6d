import Mathlib.Logic.Function.Basic

/-!
# Sweeps of partial maps

A sweep goes over the items of a partial map, changes those that it picks and leaves
the others. A change may drop an item.

Results:
* `sweep_sweep`: two sweeps with one change are one sweep, which picks what either
  picks;
* `sweep_foldl`: sweeps with one change, one after the other.
-/

namespace Sweep

variable {P I : Type*}

open Classical in
/-- The items that are picked are changed. -/
noncomputable def sweep (change : I → Option I) (picks : P → I → Prop) (m : P → Option I) :
    P → Option I :=
  fun p => (m p).bind fun i => if picks p i then change i else some i

variable {change : I → Option I} {picks picks' : P → I → Prop} {m : P → Option I} {p : P} {i : I}

theorem sweep_none (h : m p = none) : sweep change picks m p = none := by
  unfold sweep
  rw [h]
  rfl

theorem sweep_picked (h : m p = some i) (hp : picks p i) : sweep change picks m p = change i := by
  unfold sweep
  rw [h, Option.bind_some, if_pos hp]

theorem sweep_left (h : m p = some i) (hp : ¬ picks p i) : sweep change picks m p = m p := by
  unfold sweep
  rw [h, Option.bind_some, if_neg hp]

/-- Only the items of the map are asked about. -/
theorem sweep_congr (h : ∀ p i, m p = some i → (picks p i ↔ picks' p i)) :
    sweep change picks m = sweep change picks' m := by
  funext p
  cases hm : m p with
  | none => rw [sweep_none hm, sweep_none hm]
  | some i =>
    rcases Classical.em (picks p i) with hp | hp
    · rw [sweep_picked hm hp, sweep_picked hm ((h p i hm).mp hp)]
    · rw [sweep_left hm hp, sweep_left hm (mt (h p i hm).mpr hp)]

/-- A sweep that picks nothing. -/
theorem sweep_nothing (h : ∀ p i, m p = some i → ¬ picks p i) : sweep change picks m = m := by
  funext p
  cases hm : m p with
  | none => rw [sweep_none hm]
  | some i => rw [sweep_left hm (h p i hm), hm]

/-- A change that is made once. -/
def Idempotent (change : I → Option I) : Prop := ∀ i j, change i = some j → change j = some j

/-- What the second sweep picks of what the first has changed is changed already. -/
theorem sweep_sweep (hchange : Idempotent change) (picks picks' : P → I → Prop) (m : P → Option I) :
    sweep change picks' (sweep change picks m) = sweep change (fun p i => picks p i ∨ picks' p i) m := by
  funext p
  cases hm : m p with
  | none => rw [sweep_none (sweep_none hm), sweep_none hm]
  | some i =>
    -- what one sweep makes of the item
    have hboth : picks p i ∨ picks' p i →
        sweep change (fun p i => picks p i ∨ picks' p i) m p = change i := fun h => sweep_picked hm h
    rcases Classical.em (picks p i) with hp | hp
    · have hfirst : sweep change picks m p = change i := sweep_picked hm hp
      rw [hboth (Or.inl hp)]
      cases hc : change i with
      | none => exact sweep_none (hfirst.trans hc)
      | some j =>
        have hj : sweep change picks m p = some j := hfirst.trans hc
        rcases Classical.em (picks' p j) with hp' | hp'
        · rw [sweep_picked hj hp', hchange i j hc]
        · rw [sweep_left hj hp', hj]
    · have hfirst : sweep change picks m p = some i := (sweep_left hm hp).trans hm
      rcases Classical.em (picks' p i) with hp' | hp'
      · rw [sweep_picked hfirst hp', hboth (Or.inr hp')]
      · have hneither : sweep change (fun p i => picks p i ∨ picks' p i) m p = m p :=
          sweep_left hm (not_or.mpr ⟨hp, hp'⟩)
        rw [sweep_left hfirst hp', hfirst, hneither, hm]

/-- Any number of sweeps with one change are one sweep, which picks what any of them
picks. -/
theorem sweep_foldl {X : Type*} (hchange : Idempotent change) (picks : X → P → I → Prop) (xs : List X)
    (m : P → Option I) : xs.foldl (fun m x => sweep change (picks x) m) m =
      sweep change (fun p i => ∃ x ∈ xs, picks x p i) m := by
  induction xs generalizing m with
  | nil => exact (sweep_nothing fun _ _ _ ⟨_, h, _⟩ => absurd h List.not_mem_nil).symm
  | cons x xs ih =>
    rw [List.foldl_cons, ih, sweep_sweep hchange]
    refine sweep_congr fun p i _ => ?_
    simp only [List.mem_cons, exists_eq_or_imp]

end Sweep
