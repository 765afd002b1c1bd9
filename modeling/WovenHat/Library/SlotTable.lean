import Mathlib

/-! # Tables of optional slots

A fixed table whose slots are empty or hold a value. What matters of such a table is often
only which values it holds, so results are stated up to permutation. -/

namespace WovenHat.Library.SlotTable

open List Function

variable {α : Type*}

def freeSlot (t : List (Option α)) : Option ℕ :=
  t.findIdx? Option.isNone

variable {i : ℕ} {t : List (Option α)}

theorem getElem?_of_freeSlot (h : freeSlot t = some i) : t[i]? = some none := by
  obtain ⟨hlt, hnone, _⟩ := findIdx?_eq_some_iff_getElem.mp h
  rw [getElem?_eq_getElem hlt, Option.isNone_iff_eq_none.mp hnone]

theorem exists_freeSlot (h : t[i]? = some none) : ∃ j, freeSlot t = some j := by
  refine Option.isSome_iff_exists.mp ?_
  rw [freeSlot, findIdx?_isSome, any_eq_true]
  exact ⟨none, mem_of_getElem? h, rfl⟩

theorem reduceOption_set_some (h : t[i]? = some none) (x : α) :
    (t.set i (some x)).reduceOption.Perm (x :: t.reduceOption) := by
  induction t generalizing i with
  | nil => cases h
  | cons s t ih =>
    cases i with
    | zero =>
      cases h
      rfl
    | succ i =>
      have htail := ih h
      cases s with
      | none => exact htail
      | some y => exact (htail.cons y).trans (.swap x y _)

theorem reduceOption_set_none {x : α} (h : t[i]? = some (some x)) :
    t.reduceOption.Perm (x :: (t.set i none).reduceOption) := by
  induction t generalizing i with
  | nil => cases h
  | cons s t ih =>
    cases i with
    | zero =>
      cases h
      rfl
    | succ i =>
      have htail := ih h
      cases s with
      | none => exact htail
      | some y => exact (htail.cons y).trans (.swap x y _)

/-! ## Updating a table in place -/

/-- A loop that updates each slot of a list once, and may fail, when no update fails. -/
theorem foldlM_update {ι : Type*} [DecidableEq ι] (f : ι → α → Option α) {x y : ι → α}
    (hf : ∀ i, f i (x i) = some (y i)) {l : List ι} (hl : l.Nodup) :
    l.foldlM (fun t i => (f i (t i)).map (update t i)) x =
      some fun i => if i ∈ l then y i else x i := by
  -- what the loop has not reached is as before
  have hloop : ∀ t : ι → α, (∀ i ∈ l, t i = x i) →
      l.foldlM (fun t i => (f i (t i)).map (update t i)) t =
        some fun i => if i ∈ l then y i else t i := by
    induction l with
    | nil => simp
    | cons i l ih =>
      intro t ht
      obtain ⟨hi, hl⟩ := nodup_cons.mp hl
      rw [foldlM_cons, ht i mem_cons_self, hf i]
      change l.foldlM _ (update t i (y i)) = _
      rw [ih hl]
      · congr 1
        funext j
        by_cases hj : j = i
        · subst hj
          simp [hi]
        · simp [hj]
      · intro j hj
        have hne : j ≠ i := by
          rintro rfl
          exact hi hj
        rw [update_of_ne hne, ht j (mem_cons_of_mem i hj)]
  exact hloop x fun _ _ => rfl

end WovenHat.Library.SlotTable
