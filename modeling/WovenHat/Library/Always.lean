import Mathlib

/-! # Properties of every step of a run

Runs of a labelled transition function. A label that is not enabled ends the run. -/

namespace WovenHat.Library

variable {S L : Type*} {step : S → L → Option S} {P Q : S → L → S → Prop} {I : S → Prop} {s : S}

/-- The state after a run. -/
def runAll (step : S → L → Option S) : S → List L → S
  | s, [] => s
  | s, l :: ls =>
    match step s l with
    | none => s
    | some s' => runAll step s' ls

/-- Every step of the run from `s` has the property `P`. -/
def Always (step : S → L → Option S) (P : S → L → S → Prop) : S → List L → Prop
  | _, [] => True
  | s, l :: ls =>
    match step s l with
    | none => True
    | some s' => P s l s' ∧ Always step P s' ls

theorem runAll_induct (hinit : I s) (hkeep : ∀ s l s', I s → step s l = some s' → I s')
    (ls : List L) : I (runAll step s ls) := by
  induction ls generalizing s with
  | nil => exact hinit
  | cons l ls ih =>
    rw [runAll]
    cases hstep : step s l with
    | none => exact hinit
    | some s' => exact ih (hkeep s l s' hinit hstep)

theorem always_cons {l : L} {ls : List L} {s' : S} (h : step s l = some s') :
    Always step P s (l :: ls) ↔ P s l s' ∧ Always step P s' ls := by
  rw [Always, h]

theorem always_of_none {l : L} {ls : List L} (h : step s l = none) : Always step P s (l :: ls) := by
  rw [Always, h]
  trivial

/-- Two properties of steps that agree under an invariant, which the first one keeps, hold
of the same runs. -/
theorem Always.congr (hinit : I s)
    (hiff : ∀ s l s', I s → step s l = some s' → (P s l s' ↔ Q s l s'))
    (hkeep : ∀ s l s', I s → step s l = some s' → P s l s' → I s') (ls : List L) :
    Always step P s ls ↔ Always step Q s ls := by
  induction ls generalizing s with
  | nil => exact Iff.rfl
  | cons l ls ih =>
    cases hstep : step s l with
    | none => exact iff_of_true (always_of_none hstep) (always_of_none hstep)
    | some s' =>
      rw [always_cons hstep, always_cons hstep, ← hiff s l s' hinit hstep]
      exact and_congr_right fun hP => ih (hkeep s l s' hinit hstep hP)

end WovenHat.Library
