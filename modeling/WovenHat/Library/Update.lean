import Mathlib

/-! # Tables with one entry replaced -/

namespace WovenHat.Library

open Function

variable {ι α : Type*} [DecidableEq ι]

theorem update_eq_iff {f : ι → α} {i j : ι} {a b : α} :
    update f i a j = b ↔ j = i ∧ a = b ∨ j ≠ i ∧ f j = b := by
  rw [update_apply, ite_eq_iff]

/-- An entry of a table of tables. -/
theorem update_update_apply {κ : Type*} [DecidableEq κ] (f : ι → κ → α) (i i' : ι) (k k' : κ)
    (a : α) : update f i (update (f i) k a) i' k' =
      if i' = i ∧ k' = k then a else f i' k' := by
  by_cases hi : i' = i
  · subst hi
    simp [update_apply]
  · simp [hi]

end WovenHat.Library
