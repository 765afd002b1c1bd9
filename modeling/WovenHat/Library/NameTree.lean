import WovenHat.Library.Update

/-! # Trees of names in a flat table

A table of slots, some of which carry a name (a list of labels), is a tree when no
name occurs twice, the empty name is a branch, and the parent of every other name is
a branch. Filling a slot below a branch, emptying a leaf and moving a whole subtree
keep it one. -/

namespace WovenHat.Library

open Function List

variable {ι α : Type*}

/-- The names of a table form a tree whose inner nodes are branches. -/
structure NameTree (name : ι → Option (List α)) (branch : ι → Prop) : Prop where
  unique : ∀ i j p, name i = some p → name j = some p → i = j
  root : ∃ i, name i = some [] ∧ branch i
  parent : ∀ i p a, name i = some (p ++ [a]) → ∃ j, name j = some p ∧ branch j

namespace NameTree

variable {name : ι → Option (List α)} {branch : ι → Prop}

/-- Every proper prefix of a name is the name of a branch. -/
theorem ancestor (h : NameTree name branch) {i : ι} {p q : List α}
    (hi : name i = some (p ++ q)) (hq : q ≠ []) : ∃ j, name j = some p ∧ branch j := by
  induction q using reverseRecOn generalizing i with
  | nil => exact (hq rfl).elim
  | append_singleton q a ih =>
    rw [← append_assoc] at hi
    obtain ⟨j, hj, hbranch⟩ := h.parent i (p ++ q) a hi
    by_cases hq' : q = []
    · subst hq'
      exact ⟨j, by simpa using hj, hbranch⟩
    · exact ih hj hq'

variable {branch' : ι → Prop}

/-- Only what names and branches are in use matters. -/
theorem congr {name' : ι → Option (List α)} (h : NameTree name branch)
    (hname : ∀ i, name' i = name i) (hbranch : ∀ i p, name i = some p → branch i → branch' i) :
    NameTree name' branch' := by
  obtain rfl : name' = name := funext hname
  refine ⟨h.unique, ?_, ?_⟩
  · obtain ⟨i, hi, hb⟩ := h.root
    exact ⟨i, hi, hbranch i [] hi hb⟩
  intro i p a hi
  obtain ⟨j, hj, hb⟩ := h.parent i p a hi
  exact ⟨j, hj, hbranch j p hj hb⟩

theorem insert [DecidableEq ι] (h : NameTree name branch) {i k : ι} {p : List α} {a : α}
    (hfree : name i = none) (hnew : ∀ j, name j ≠ some (p ++ [a])) (hk : name k = some p)
    (hkb : branch k) (hbranch : ∀ j, j ≠ i → branch j → branch' j) :
    NameTree (update name i (some (p ++ [a]))) branch' := by
  have hold : ∀ j q, name j = some q → update name i (some (p ++ [a])) j = some q := by
    intro j q hj
    have hji : j ≠ i := by
      rintro rfl
      simp [hfree] at hj
    rw [update_of_ne hji, hj]
  have hkeep : ∀ j q, name j = some q → branch j → branch' j := by
    intro j q hj hb
    apply hbranch j _ hb
    rintro rfl
    simp [hfree] at hj
  refine ⟨?_, ?_, ?_⟩
  · intro x y q hx hy
    obtain ⟨rfl, hx'⟩ | ⟨-, hx'⟩ := update_eq_iff.mp hx <;>
      obtain ⟨rfl, hy'⟩ | ⟨-, hy'⟩ := update_eq_iff.mp hy
    · rfl
    · exact (hnew y (hy'.trans hx'.symm)).elim
    · exact (hnew x (hx'.trans hy'.symm)).elim
    · exact h.unique x y q hx' hy'
  · obtain ⟨j, hj, hb⟩ := h.root
    exact ⟨j, hold j [] hj, hkeep j [] hj hb⟩
  · intro x q b hx
    obtain ⟨-, hx⟩ | ⟨-, hx⟩ := update_eq_iff.mp hx
    · obtain ⟨rfl, -⟩ := append_inj' (Option.some.inj hx) rfl
      exact ⟨k, hold k p hk, hkeep k p hk hkb⟩
    · obtain ⟨j, hj, hb⟩ := h.parent x q b hx
      exact ⟨j, hold j q hj, hkeep j q hj hb⟩

/-- A named slot without children may give up its name. -/
theorem erase [DecidableEq ι] (h : NameTree name branch) {i : ι} {p : List α} (hi : name i = some p)
    (hp : p ≠ []) (hleaf : ∀ j a, name j ≠ some (p ++ [a]))
    (hbranch : ∀ j, j ≠ i → branch j → branch' j) : NameTree (update name i none) branch' := by
  have hother : ∀ j q, update name i none j = some q → j ≠ i ∧ name j = some q := by
    intro j q hj
    obtain ⟨-, ⟨⟩⟩ | hj := update_eq_iff.mp hj
    exact hj
  have hkeep : ∀ j q, q ≠ p → name j = some q → branch j →
      update name i none j = some q ∧ branch' j := by
    intro j q hq hj hb
    have hji : j ≠ i := by
      rintro rfl
      exact hq (Option.some.inj (hj.symm.trans hi))
    exact ⟨by rw [update_of_ne hji, hj], hbranch j hji hb⟩
  refine ⟨?_, ?_, ?_⟩
  · intro x y q hx hy
    exact h.unique x y q (hother x q hx).2 (hother y q hy).2
  · obtain ⟨j, hj, hb⟩ := h.root
    exact ⟨j, hkeep j [] hp.symm hj hb⟩
  intro x q a hx
  obtain ⟨-, hname⟩ := hother x _ hx
  obtain ⟨j, hj, hb⟩ := h.parent x q a hname
  have hq : q ≠ p := by
    rintro rfl
    exact hleaf x a hname
  exact ⟨j, hkeep j q hq hj hb⟩

/-! ## Moving a subtree -/

variable [DecidableEq α]

def relocate (old new p : List α) : List α :=
  if old <+: p then new ++ p.drop old.length else p

theorem relocate_append (old new q : List α) : relocate old new (old ++ q) = new ++ q := by
  simp [relocate]

theorem relocate_of_not_prefix {old new p : List α} (h : ¬ old <+: p) : relocate old new p = p := by
  simp [relocate, h]

/-- A name is moved, or it lies outside the moved subtree and stays. -/
theorem relocate_cases (old new p : List α) : (∃ q, p = old ++ q ∧ relocate old new p = new ++ q) ∨
      (¬ old <+: p ∧ relocate old new p = p) := by
  by_cases h : old <+: p
  · obtain ⟨q, rfl⟩ := h
    exact .inl ⟨q, rfl, relocate_append old new q⟩
  · exact .inr ⟨h, relocate_of_not_prefix h⟩

/-- A whole subtree may move below a branch outside it, to a name not in use. -/
theorem move (h : NameTree name branch) {old new : List α} {c : α} {k : ι}
    (hold : old ≠ []) (hnew : ∀ j, name j ≠ some (new ++ [c]))
    (hk : name k = some new) (hkb : branch k) (hout : ¬ old <+: new ++ [c]) :
    NameTree (fun i => (name i).map (relocate old (new ++ [c]))) branch := by
  have hbelow : ∀ j q, name j ≠ some (new ++ [c] ++ q) := by
    intro j q hj
    by_cases hq : q = []
    · subst hq
      exact hnew j (by simpa using hj)
    · obtain ⟨i, hi, -⟩ := h.ancestor hj hq
      exact hnew i hi
  have houtside : ¬ old <+: new := fun hpre => hout (hpre.trans (prefix_append new [c]))
  refine ⟨?_, ?_, ?_⟩
  · intro i j p hi hj
    simp only [Option.map_eq_some_iff] at hi hj
    obtain ⟨pi, hi, hpi⟩ := hi
    obtain ⟨pj, hj, hpj⟩ := hj
    -- two moved names, two kept names, or a moved name that would fall on a kept one
    rcases relocate_cases old (new ++ [c]) pi with ⟨qi, rfl, hri⟩ | ⟨-, hri⟩ <;>
      rcases relocate_cases old (new ++ [c]) pj with ⟨qj, rfl, hrj⟩ | ⟨-, hrj⟩
    · have hq : qi = qj := by
        rw [hri] at hpi
        rw [hrj, ← hpi] at hpj
        exact (append_cancel_left hpj).symm
      subst hq
      exact h.unique i j _ hi hj
    · rw [hri] at hpi
      rw [hrj, ← hpi] at hpj
      exact (hbelow j qi (hpj ▸ hj)).elim
    · rw [hri] at hpi
      rw [hrj, ← hpi] at hpj
      exact (hbelow i qj (hpj.symm ▸ hi)).elim
    · rw [hri] at hpi
      rw [hrj, ← hpi] at hpj
      exact h.unique i j pi hi (hpj ▸ hj)
  · obtain ⟨i, hi, hb⟩ := h.root
    refine ⟨i, ?_, hb⟩
    have hnil : ¬ old <+: [] := fun hpre => hold (prefix_nil.mp hpre)
    simp [hi, relocate_of_not_prefix hnil]
  · intro i p a hi
    simp only [Option.map_eq_some_iff] at hi
    obtain ⟨pi, hi, hpi⟩ := hi
    rcases relocate_cases old (new ++ [c]) pi with ⟨q, rfl, hri⟩ | ⟨hpre, hri⟩
    · rw [hri] at hpi
      rcases eq_nil_or_concat q with rfl | ⟨q, b, rfl⟩
      · -- the moved root: its new parent is the branch it moves below
        obtain ⟨rfl, -⟩ := append_inj' (hpi.symm.trans (append_nil _)) rfl
        exact ⟨k, by simp [hk, relocate_of_not_prefix houtside], hkb⟩
      · rw [concat_eq_append] at hi hpi
        rw [← append_assoc] at hi hpi
        obtain ⟨rfl, -⟩ := append_inj' hpi rfl
        obtain ⟨j, hj, hb⟩ := h.parent i _ b hi
        exact ⟨j, by simp [hj, relocate_append], hb⟩
    · rw [hri] at hpi
      subst hpi
      obtain ⟨j, hj, hb⟩ := h.parent i p a hi
      have hpre' : ¬ old <+: p := fun hp => hpre (hp.trans (prefix_append p [a]))
      exact ⟨j, by simp [hj, relocate_of_not_prefix hpre'], hb⟩

end NameTree

end WovenHat.Library
