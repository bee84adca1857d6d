import Mathlib.Logic.Function.Basic

/-!
# Removal from partial maps

What is left of a partial map when some of its keys are removed, and the maps that
removals lead to.
-/

namespace Removal

variable {α β : Type*}

/-- The second map has lost keys at most. -/
def Fewer (m m' : α → Option β) : Prop := ∀ a, m' a = m a ∨ m' a = none

namespace Fewer

variable {m m' m'' : α → Option β}

theorem refl (m : α → Option β) : Fewer m m := fun _ => Or.inl rfl

theorem trans (h : Fewer m m') (h' : Fewer m' m'') : Fewer m m'' := by
  intro a
  rcases h' a with ha | ha
  · rw [ha]
    exact h a
  · exact Or.inr ha

theorem none {a : α} (h : Fewer m m') (ha : m a = .none) : m' a = .none := (h a).elim (·.trans ha) id

end Fewer

variable [DecidableEq α] {m : α → Option β} {keys keys' : List α} {a : α}

/-- The map without these keys. -/
def without (m : α → Option β) (keys : List α) : α → Option β := fun a =>
  if a ∈ keys then none else m a

theorem without_mem (h : a ∈ keys) : without m keys a = none := if_pos h

theorem without_not_mem (h : a ∉ keys) : without m keys a = m a := if_neg h

@[simp] theorem without_nil (m : α → Option β) : without m [] = m :=
  funext fun _ => without_not_mem List.not_mem_nil

theorem without_append (m : α → Option β) (keys keys' : List α) :
    without (without m keys) keys' = without m (keys ++ keys') := by
  funext a
  unfold without
  simp only [List.mem_append]
  split
  · next h => rw [if_pos (Or.inr h)]
  · next h => simp only [h, or_false]

theorem without_singleton (m : α → Option β) (a : α) :
    without m [a] = Function.update m a none := by
  funext b
  unfold without
  rw [Function.update_apply]
  simp only [List.mem_singleton]

/-- Nothing is removed where there is nothing. -/
theorem without_eq (h : ∀ a ∈ keys, m a = none) : without m keys = m := by
  funext a
  unfold without
  split
  · next ha => exact (h a ha).symm
  · rfl

theorem without_fewer (m : α → Option β) (keys : List α) : Fewer m (without m keys) := by
  intro a
  unfold without
  split
  · exact Or.inr rfl
  · exact Or.inl rfl

end Removal
