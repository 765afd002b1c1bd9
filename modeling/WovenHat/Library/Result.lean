import Mathlib

/-! # Successful results

Rules that take a computation in `Except` apart when it is known to have succeeded. -/

namespace WovenHat.Library.Result

universe u v

variable {ε : Type u} {α β : Type v}

theorem bind_eq_ok {x : Except ε α} {f : α → Except ε β} {b : β} :
    (x >>= f) = .ok b ↔ ∃ a, x = .ok a ∧ f a = .ok b := by
  cases x with
  | error e => simp [bind, Except.bind]
  | ok a => simp [bind, Except.bind]

theorem throw_eq_ok {e : ε} {a : α} : (throw e : Except ε α) = .ok a ↔ False := by
  simp [throw, throwThe, MonadExceptOf.throw]

theorem throw_bind {e : ε} {f : α → Except ε β} : ((throw e : Except ε α) >>= f) = throw e := rfl

theorem pure_eq_ok {a b : α} : (pure a : Except ε α) = .ok b ↔ a = b := by
  simp [pure, Except.pure]

theorem check_eq_ok {c : Prop} [Decidable c] {e : ε} {x : Except ε α} {a : α} :
    (if c then throw e else x) = .ok a ↔ ¬ c ∧ x = .ok a := by
  by_cases hc : c
  · simp [hc, throw_eq_ok]
  · simp [hc]

end WovenHat.Library.Result
