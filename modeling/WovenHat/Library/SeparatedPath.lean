import Mathlib

/-! # Separated paths

A path text over any alphabet is a list of components, each behind a separator. The
empty list of components is the root, whose text is the separator alone. Components
that hold no separator can be read back from the text, and text prefixes that end at a
separator are component prefixes. -/

namespace WovenHat.Library.SeparatedPath

open List

variable {α : Type*} {sep : α}

def suffix (sep : α) (cs : List (List α)) : List α :=
  cs.flatMap fun c => sep :: c

def render (sep : α) : List (List α) → List α
  | [] => [sep]
  | c :: cs => suffix sep (c :: cs)

@[simp] theorem suffix_nil : suffix sep [] = [] := rfl

@[simp] theorem suffix_cons (c : List α) (cs : List (List α)) :
    suffix sep (c :: cs) = sep :: (c ++ suffix sep cs) := rfl

@[simp] theorem suffix_append (cs ds : List (List α)) :
    suffix sep (cs ++ ds) = suffix sep cs ++ suffix sep ds := by
  simp [suffix]

variable {cs : List (List α)}

theorem render_of_ne_nil (h : cs ≠ []) : render sep cs = suffix sep cs := by
  cases cs with
  | nil => exact (h rfl).elim
  | cons c cs => rfl

theorem head_render (sep : α) (cs : List (List α)) : ∃ rest, render sep cs = sep :: rest := by
  cases cs with
  | nil => exact ⟨[], rfl⟩
  | cons c cs => exact ⟨c ++ suffix sep cs, rfl⟩

def Boundary (sep : α) (xs : List α) : Prop :=
  xs = [] ∨ ∃ rest, xs = sep :: rest

theorem boundary_suffix (cs : List (List α)) : Boundary sep (suffix sep cs) := by
  cases cs with
  | nil => exact .inl rfl
  | cons c cs => exact .inr ⟨c ++ suffix sep cs, rfl⟩

/-- A component ends where the next separator stands. -/
theorem component_inj {c d xs ys : List α} (hc : sep ∉ c) (hd : sep ∉ d)
    (hx : Boundary sep xs) (hy : Boundary sep ys) (h : c ++ xs = d ++ ys) : c = d ∧ xs = ys := by
  induction c generalizing d with
  | nil =>
    cases d with
    | nil => exact ⟨rfl, h⟩
    | cons b d =>
      rcases hx with rfl | ⟨rest, rfl⟩
      · simp at h
      · simp only [nil_append, cons_append, cons.injEq] at h
        simp [h.1] at hd
  | cons a c ih =>
    cases d with
    | nil =>
      rcases hy with rfl | ⟨rest, rfl⟩
      · simp at h
      · simp only [nil_append, cons_append, cons.injEq] at h
        simp [h.1] at hc
    | cons b d =>
      simp only [cons_append, cons.injEq] at h
      obtain ⟨rfl, htail⟩ := h
      simp only [mem_cons, not_or] at hc hd
      obtain ⟨rfl, hxy⟩ := ih hc.2 hd.2 htail
      exact ⟨rfl, hxy⟩

/-- A text prefix that ends at a separator is a prefix of the components. -/
theorem suffix_eq_append {os ps : List (List α)} {rest : List α} (ho : ∀ c ∈ os, sep ∉ c)
    (hp : ∀ c ∈ ps, sep ∉ c) (hrest : Boundary sep rest) (h : suffix sep ps = suffix sep os ++ rest)
    : ∃ qs, ps = os ++ qs ∧ suffix sep qs = rest := by
  induction os generalizing ps with
  | nil => exact ⟨ps, rfl, by simpa using h⟩
  | cons o os ih =>
    cases ps with
    | nil => simp at h
    | cons p ps =>
      simp only [suffix_cons, cons_append, cons.injEq, true_and, append_assoc] at h
      have hboundary : Boundary sep (suffix sep os ++ rest) := by
        cases os with
        | nil => simpa using hrest
        | cons o' os => exact .inr ⟨o' ++ suffix sep os ++ rest, by simp⟩
      obtain ⟨rfl, htail⟩ := component_inj (hp p (by simp)) (ho o (by simp))
        (boundary_suffix ps) hboundary h
      obtain ⟨qs, rfl, hqs⟩ := ih (fun c hc => ho c (by simp [hc]))
        (fun c hc => hp c (by simp [hc])) htail
      exact ⟨qs, rfl, hqs⟩

variable {ds : List (List α)}

theorem suffix_injective (hc : ∀ c ∈ cs, sep ∉ c)
    (hd : ∀ c ∈ ds, sep ∉ c) (h : suffix sep cs = suffix sep ds) : cs = ds := by
  have happend : suffix sep cs = suffix sep ds ++ [] := by simpa using h
  obtain ⟨qs, rfl, hqs⟩ := suffix_eq_append hd hc (.inl rfl) happend
  cases qs with
  | nil => simp
  | cons q qs => simp at hqs

/-- Components are proper when they are not empty and hold no separator. -/
def Proper (sep : α) (cs : List (List α)) : Prop :=
  ∀ c ∈ cs, c ≠ [] ∧ sep ∉ c

theorem Proper.sep_free (h : Proper sep cs) : ∀ c ∈ cs, sep ∉ c :=
  fun c hc => (h c hc).2

theorem proper_append : Proper sep (cs ++ ds) ↔ Proper sep cs ∧ Proper sep ds := by
  simp only [Proper, mem_append]
  constructor
  · intro h
    exact ⟨fun c hc => h c (.inl hc), fun c hc => h c (.inr hc)⟩
  rintro ⟨hl, hr⟩ c (hc | hc)
  · exact hl c hc
  · exact hr c hc

theorem render_injective (hc : Proper sep cs) (hd : Proper sep ds)
    (h : render sep cs = render sep ds) : cs = ds := by
  cases cs with
  | nil =>
    cases ds with
    | nil => rfl
    | cons d ds =>
      have hne := (hd d (by simp)).1
      simp only [render, suffix_cons, cons.injEq, true_and] at h
      exact (hne (append_eq_nil_iff.mp h.symm).1).elim
  | cons c cs =>
    cases ds with
    | nil =>
      have hne := (hc c (by simp)).1
      simp only [render, suffix_cons, cons.injEq, true_and] at h
      exact (hne (append_eq_nil_iff.mp h).1).elim
    | cons d ds => exact suffix_injective hc.sep_free hd.sep_free h

theorem suffix_eq_cons_intercalate (hne : cs ≠ []) :
    suffix sep cs = sep :: [sep].intercalate cs := by
  induction cs with
  | nil => exact (hne rfl).elim
  | cons c cs ih =>
    cases cs with
    | nil => simp
    | cons d cs =>
      rw [suffix_cons, ih (by simp), intercalate_cons_cons]
      simp

theorem not_mem_of_mem_splitOn [BEq α] [LawfulBEq α] (xs : List α) :
    ∀ c ∈ xs.splitOn sep, sep ∉ c := by
  induction xs with
  | nil => simp
  | cons x xs ih =>
    rw [splitOn_cons_eq_if_modifyHead]
    by_cases hx : x = sep
    · simpa [hx] using ih
    have hne : (x == sep) = false := by simpa using hx
    cases hsplit : xs.splitOn sep with
    | nil => simp at hsplit
    | cons d ds =>
      rw [hsplit] at ih
      intro c hc
      simp only [hne, Bool.false_eq_true, if_false, modifyHead_cons, mem_cons] at hc
      rcases hc with rfl | hc
      · simp only [mem_cons, not_or]
        exact ⟨fun h => hx h.symm, ih d (by simp)⟩
      · exact ih c (by simp [hc])

/-- Splitting the text after its first separator gives the components back. -/
theorem splitOn_tail_suffix [BEq α] [LawfulBEq α] (hne : cs ≠ [])
    (h : ∀ c ∈ cs, sep ∉ c) : (suffix sep cs).tail.splitOn sep = cs := by
  rw [suffix_eq_cons_intercalate hne, tail_cons]
  exact splitOn_intercalate sep h hne

/-- Every text that begins with a separator is rendered from its split. -/
theorem suffix_splitOn [BEq α] [LawfulBEq α] (xs : List α) :
    suffix sep (xs.splitOn sep) = sep :: xs := by
  rw [suffix_eq_cons_intercalate (splitOn_ne_nil sep xs), intercalate_splitOn]

end WovenHat.Library.SeparatedPath
