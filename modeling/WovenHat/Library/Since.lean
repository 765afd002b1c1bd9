import Mathlib

/-! # Where a property of a run comes from

What holds at the end of a run has held from the start, or since a step that brought it
about. -/

namespace WovenHat.Library

open List

variable {S L : Type*} (next : S → L → S) (s : S)

/-- A step of the run has brought something about, and since then the states have had the
property `during`. -/
def Since (gives : List L → L → Prop) (during : S → Prop) (ops : List L) : Prop :=
  ∃ before l after, ops = before ++ l :: after ∧ gives before l ∧
    ∀ k, during ((before ++ l :: after.take k).foldl next s)

variable {next s} {gives : List L → L → Prop} {during : S → Prop} {ops : List L} {l : L}

theorem take_concat_le (ops : List L) (l : L) (k : ℕ) :
    (ops ++ [l]).take k = ops.take k ∨ (ops ++ [l]).take k = ops ++ [l] := by
  by_cases hk : k ≤ ops.length
  · exact .inl (take_append_of_le_length hk)
  right
  apply take_of_length_le
  rw [length_append, length_singleton]
  omega

theorem Since.last (hgives : gives ops l) (hduring : during ((ops ++ [l]).foldl next s)) :
    Since next s gives during (ops ++ [l]) :=
  ⟨ops, l, [], rfl, hgives, fun k => by rwa [take_nil]⟩

theorem Since.snoc (h : Since next s gives during ops)
    (hduring : during ((ops ++ [l]).foldl next s)) : Since next s gives during (ops ++ [l]) := by
  obtain ⟨before, l', after, rfl, hgives, hsince⟩ := h
  refine ⟨before, l', after ++ [l], by simp, hgives, fun k => ?_⟩
  rcases take_concat_le after l k with htake | htake
  · rw [htake]
    exact hsince k
  · rw [htake]
    simpa using hduring

/-- If every step that ends with `P` starts with `P` or brings it about, then `P` is there from
the start or since such a step. -/
theorem since_of_holds (P : S → Prop) (gives : List L → L → Prop) (during : S → Prop)
    (hduring : ∀ ops : List L, P (ops.foldl next s) → during (ops.foldl next s))
    (hstep : ∀ (ops : List L) l, P ((ops ++ [l]).foldl next s) → P (ops.foldl next s) ∨ gives ops l)
    (ops : List L) (h : P (ops.foldl next s)) :
    (P s ∧ ∀ k, during ((ops.take k).foldl next s)) ∨ Since next s gives during ops := by
  induction ops using reverseRecOn with
  | nil => exact .inl ⟨h, fun k => by rw [take_nil]; exact hduring [] h⟩
  | append_singleton ops l ih =>
    rcases hstep ops l h with hbefore | hgives
    · rcases ih hbefore with ⟨hstart, htakes⟩ | hsince
      · refine .inl ⟨hstart, fun k => ?_⟩
        rcases take_concat_le ops l k with htake | htake
        · rw [htake]
          exact htakes k
        · rw [htake]
          exact hduring _ h
      · exact .inr (hsince.snoc (hduring _ h))
    · exact .inr (.last hgives (hduring _ h))

end WovenHat.Library
