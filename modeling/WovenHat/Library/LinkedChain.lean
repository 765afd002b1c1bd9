import Mathlib

/-! # Chains in a link table

A table links each cell to the next one, marks it as the last one of its chain, or says
nothing about it. The cells that one meets from a given start form its chain. -/

namespace WovenHat.Library

open Function List

variable {α : Type*} {link link' : α → Option (Option α)}

/-- The links from `a` on run through the cells of a list and then end. -/
inductive Linked (link : α → Option (Option α)) : α → List α → Prop where
  | last {a : α} (h : link a = some none) : Linked link a [a]
  | cons {a b : α} {l : List α} (h : link a = some (some b)) (tail : Linked link b l) :
      Linked link a (a :: l)

namespace Linked

variable {a b : α} {l l' : List α}

theorem ne_nil (h : Linked link a l) : l ≠ [] := by
  cases h <;> simp

theorem head_mem (h : Linked link a l) : a ∈ l := by
  cases h <;> simp

/-- Consecutive cells that are linked one to the next. -/
theorem range {link : ℕ → Option (Option ℕ)} {a count : ℕ}
    (h : ∀ i < count, link (a + i) = some (some (a + i + 1))) (hlast : link (a + count) = some none) :
    Linked link a (range' a (count + 1)) := by
  induction count generalizing a with
  | zero => exact .last hlast
  | succ count ih =>
    rw [range'_succ]
    refine .cons (h 0 (by omega)) (ih (fun i hi => ?_) ?_)
    · rw [Nat.add_right_comm a 1 i]
      exact h (i + 1) (by omega)
    · rw [Nat.add_right_comm a 1 count]
      exact hlast

section Linked

variable (h : Linked link a l)

include h

theorem unique (h' : Linked link a l') : l = l' := by
  induction h generalizing l' with
  | last hlast =>
    cases h' with
    | last _ => rfl
    | cons hnext _ => rw [hlast] at hnext; cases hnext
  | cons hnext _ ih =>
    cases h' with
    | last hlast => rw [hlast] at hnext; cases hnext
    | cons hnext' tail' =>
      rw [hnext] at hnext'
      cases hnext'
      rw [ih tail']

/-- Every cell of a chain is the start of the rest of it. -/
theorem suffix (hb : b ∈ l) : ∃ l', Linked link b l' ∧ l' <:+ l := by
  induction h with
  | last hlast =>
    rw [mem_singleton.mp hb]
    exact ⟨_, .last hlast, suffix_refl _⟩
  | cons hnext tail ih =>
    rcases mem_cons.mp hb with rfl | hb
    · exact ⟨_, .cons hnext tail, suffix_refl _⟩
    · obtain ⟨l', hl', hsuffix⟩ := ih hb
      exact ⟨l', hl', hsuffix.trans (suffix_cons _ _)⟩

theorem nodup : l.Nodup := by
  induction h with
  | last _ => exact nodup_singleton _
  | cons hnext tail ih =>
    refine nodup_cons.mpr ⟨fun hmem => ?_, ih⟩
    -- the start would have its own chain as a proper suffix
    obtain ⟨l', hl', hsuffix⟩ := tail.suffix hmem
    have heq := hl'.unique (.cons hnext tail)
    have hle := hsuffix.length_le
    rw [heq, length_cons] at hle
    omega

/-- A chain depends on the links of its own cells only. -/
theorem congr (heq : ∀ b ∈ l, link' b = link b) : Linked link' a l := by
  induction h with
  | last hlast => exact .last (by rw [heq _ (mem_singleton_self _), hlast])
  | cons hnext _ ih =>
    refine .cons (by rw [heq _ mem_cons_self, hnext]) (ih fun b hb => ?_)
    exact heq b (mem_cons_of_mem _ hb)

theorem link_mem (hb : b ∈ l) : link b = some none ∨ ∃ c ∈ l, link b = some (some c) := by
  induction h with
  | last hlast =>
    rw [mem_singleton.mp hb]
    exact .inl hlast
  | cons hnext tail ih =>
    rcases mem_cons.mp hb with rfl | hb
    · exact .inr ⟨_, mem_cons_of_mem _ tail.head_mem, hnext⟩
    rcases ih hb with hlast | ⟨c, hc, hlink⟩
    · exact .inl hlast
    · exact .inr ⟨c, mem_cons_of_mem _ hc, hlink⟩

/-- Linking the last cell of a chain to a chain of other cells joins the two. -/
theorem join [DecidableEq α] {z : α} (h' : Linked link b l') (hlast : l.getLast? = some z)
    (hz : z ∉ l') : Linked (update link z (some (some b))) a (l ++ l') := by
  have hnodup := h.nodup
  have hrest : Linked (update link z (some (some b))) b l' :=
    h'.congr fun c hc => update_of_ne (fun heq : c = z => hz (heq ▸ hc)) _ _
  induction h with
  | last hend =>
    cases hlast
    exact .cons (update_self ..) hrest
  | @cons x y m hnext tail ih =>
    have hm : m.getLast? = some z := by
      rw [← hlast, getLast?_cons]
      rw [getLast?_eq_some_getLast tail.ne_nil]
      rfl
    have hx : x ≠ z := fun heq =>
      (nodup_cons.mp hnodup).1 (heq ▸ mem_of_getLast? hm)
    refine .cons ?_ (ih hm (nodup_cons.mp hnodup).2)
    rw [update_of_ne hx, hnext]

end Linked

end Linked

/-! ## Walks -/

/-- The cell that one meets after `n` links from `a`. -/
def follow (link : α → Option (Option α)) (a : α) : ℕ → Option α
  | 0 => some a
  | n + 1 => (follow link a n).bind fun b => (link b).join

/-- No cell is met twice from `a`. -/
def Acyclic (link : α → Option (Option α)) (a : α) : Prop :=
  ∀ m n b, follow link a m = some b → follow link a n = some b → m = n

theorem follow_succ {a b c : α} {n : ℕ} (h : follow link a n = some b)
    (hlink : link b = some (some c)) : follow link a (n + 1) = some c := by
  rw [follow, h, Option.bind_some, hlink, Option.join_some]

theorem follow_isSome {a : α} {m n : ℕ} (h : (follow link a n).isSome) (hle : m ≤ n) :
    (follow link a m).isSome := by
  induction n with
  | zero => rwa [Nat.le_zero.mp hle]
  | succ n ih =>
    by_cases heq : m = n + 1
    · rwa [heq]
    refine ih ?_ (by omega)
    rw [follow] at h
    exact Option.isSome_of_isSome_bind h

end WovenHat.Library
