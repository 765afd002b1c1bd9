import Mathlib

/-! # Rooted graphs

What can be reached from a root, and how that changes when a leaf is taken away. -/

namespace WovenHat.Library

variable {N : Type*} {root : N} {child child' : N → N → Prop}

def Reaches (root : N) (child : N → N → Prop) (n : N) : Prop :=
  Relation.ReflTransGen child root n

namespace Reaches

variable {n m : N}

theorem refl (root : N) (child : N → N → Prop) : Reaches root child root :=
  Relation.ReflTransGen.refl

theorem step (h : Reaches root child n) (hchild : child n m) : Reaches root child m :=
  Relation.ReflTransGen.tail h hchild

/-- A reachable node is the root or a child of a reachable node. -/
theorem cases_parent (h : Reaches root child n) :
    n = root ∨ ∃ m, Reaches root child m ∧ child m n := by
  cases h with
  | refl => exact .inl rfl
  | tail hm hstep => exact .inr ⟨_, hm, hstep⟩

theorem prune {leaf : N} (hroot : root ≠ leaf) (hold : ∀ m, ¬child leaf m)
    (h : ∀ n m, Reaches root child n → n ≠ leaf → (child' n m ↔ child n m ∧ m ≠ leaf)) :
    Reaches root child' n ↔ Reaches root child n ∧ n ≠ leaf := by
  constructor
  · intro hn
    induction hn with
    | refl => exact ⟨refl _ _, hroot⟩
    | tail _ hstep ih =>
      have hstep := (h _ _ ih.1 ih.2).mp hstep
      exact ⟨ih.1.step hstep.1, hstep.2⟩
  · rintro ⟨hn, hne⟩
    induction hn with
    | refl => exact refl _ _
    | @tail a b hreach hstep ih =>
      have hleaf : a ≠ leaf := by
        rintro rfl
        exact hold b hstep
      exact (ih hleaf).step ((h a b hreach hleaf).mpr ⟨hstep, hne⟩)

end Reaches

end WovenHat.Library
