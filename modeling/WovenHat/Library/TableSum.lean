import WovenHat.Library.Update

/-! # Sums over tables

A quantity summed over the entries of a table, when one entry is replaced, and the number of
entries with a given value. -/

namespace WovenHat.Library

variable {ι α : Type*} [Fintype ι] [DecidableEq ι]

theorem sum_update (F : α → ℕ) (f : ι → α) (i : ι) (a : α) :
    ∑ j, F (Function.update f i a j) + F (f i) = ∑ j, F (f j) + F a := by
  have hnew : (fun j => F (Function.update f i a j)) =
      Function.update (fun j => F (f j)) i (F a) := by
    funext j
    by_cases hj : j = i
    · subst hj
      simp
    · simp [hj]
  rw [hnew, Finset.sum_update_of_mem (Finset.mem_univ i),
    Fintype.sum_eq_add_sum_compl i fun j => F (f j), ← Finset.compl_eq_univ_sdiff]
  omega

theorem count_filterMap_finRange {n : ℕ} [DecidableEq α] (f : Fin n → Option α) (a : α) :
    ((List.finRange n).filterMap f).count a = ∑ i, if f i = some a then 1 else 0 := by
  rw [Fin.sum_univ_def]
  induction List.finRange n with
  | nil => rfl
  | cons i l ih =>
    rw [List.map_cons, List.sum_cons, ← ih]
    cases hi : f i with
    | none => simp [hi]
    | some b => simp [hi, List.count_cons, Nat.add_comm]

end WovenHat.Library
