import Mathlib

/-! # Ring buffers

The queue that a circular array of `cap` cells holds: the `len` cells from `head` on. -/

namespace WovenHat.Library

open List Function

variable {α : Type*} {cap head len : ℕ} {data : ℕ → α}

def ring (cap : ℕ) (data : ℕ → α) (head len : ℕ) : List α :=
  (range len).map fun i => data ((head + i) % cap)

theorem ring_congr {data' : ℕ → α}
    (h : ∀ i < len, data' ((head + i) % cap) = data ((head + i) % cap)) :
    ring cap data' head len = ring cap data head len :=
  map_congr_left fun i hi => h i (mem_range.mp hi)

/-- Two positions of the queue share a cell only if they are the same. -/
theorem add_mod_ne {i j : ℕ} (hij : i < j) (hj : j < i + cap) :
    (head + i) % cap ≠ (head + j) % cap := by
  intro heq
  have hdvd : cap ∣ head + j - (head + i) := (Nat.modEq_iff_dvd' (by omega)).mp heq
  have hle := Nat.le_of_dvd (by omega) hdvd
  omega

theorem ring_push (hlen : len < cap) (x : α) :
    ring cap (update data ((head + len) % cap) x) head (len + 1) =
      ring cap data head len ++ [x] := by
  have hkept : ring cap (update data ((head + len) % cap) x) head len =
      ring cap data head len :=
    ring_congr fun i hi => update_of_ne (add_mod_ne hi (by omega)) _ _
  rw [← hkept]
  simp [ring, range_succ]

theorem ring_pop (cap : ℕ) (data : ℕ → α) (head len : ℕ) : ring cap data head (len + 1) =
      data (head % cap) :: ring cap data ((head + 1) % cap) len := by
  simp only [ring, range_succ_eq_map, map_cons, map_map, Nat.add_zero]
  congr 1
  refine map_congr_left fun i _ => ?_
  rw [comp_apply, Nat.mod_add_mod]
  congr 2
  omega

/-- Moving the head moves the end of a shorter queue to the same cell. -/
theorem succ_mod_add (cap head len : ℕ) :
    ((head + 1) % cap + len) % cap = (head + (len + 1)) % cap := by
  rw [Nat.mod_add_mod]
  congr 1
  omega

end WovenHat.Library
