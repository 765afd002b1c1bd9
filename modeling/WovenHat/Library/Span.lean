import Mathlib

/-! # Regions of memory

Spans of addresses, and regions that are carved into pairwise disjoint spans. -/

namespace WovenHat.Library

open List

/-- The addresses from `start` on, `size` of them. -/
structure Span where
  start : ℕ
  size : ℕ
  deriving DecidableEq, Repr

namespace Span

variable {s s' t : Span}

def stop (s : Span) : ℕ :=
  s.start + s.size

/-- No address is in both spans. -/
def Apart (s t : Span) : Prop :=
  s.stop ≤ t.start ∨ t.stop ≤ s.start

instance (s t : Span) : Decidable (s.Apart t) :=
  inferInstanceAs (Decidable (_ ∨ _))

def Within (s t : Span) : Prop :=
  t.start ≤ s.start ∧ s.stop ≤ t.stop

theorem Apart.symm (h : s.Apart t) : t.Apart s :=
  Or.symm h

theorem Apart.of_within (h : s.Apart t) (hs : s'.Within s) : s'.Apart t := by
  unfold Apart Within at *
  omega

end Span

/-- The region from `lo` to `hi` contains the spans, which are not empty and pairwise
disjoint. -/
structure Carved (lo hi : ℕ) (spans : List Span) : Prop where
  nonempty : ∀ s ∈ spans, 0 < s.size
  inside : ∀ s ∈ spans, lo ≤ s.start ∧ s.stop ≤ hi
  apart : spans.Pairwise Span.Apart

namespace Carved

variable {lo hi : ℕ} {s s₁ s₂ : Span} {spans spans' : List Span}

theorem nil (lo hi : ℕ) : Carved lo hi [] :=
  ⟨by simp, by simp, .nil⟩

theorem perm (h : Carved lo hi spans) (hp : spans.Perm spans') : Carved lo hi spans' where
  nonempty s hs := h.nonempty s (hp.mem_iff.mpr hs)
  inside s hs := h.inside s (hp.mem_iff.mpr hs)
  apart := (hp.pairwise_iff Span.Apart.symm).mp h.apart

theorem tail (h : Carved lo hi (s :: spans)) : Carved lo hi spans where
  nonempty t ht := h.nonempty t (mem_cons_of_mem _ ht)
  inside t ht := h.inside t (mem_cons_of_mem _ ht)
  apart := (pairwise_cons.mp h.apart).2

theorem shrink (h : Carved lo hi (s :: spans)) (hs : s₁.Within s) (hpos : 0 < s₁.size) :
    Carved lo hi (s₁ :: spans) where
  nonempty t ht := by
    rcases mem_cons.mp ht with rfl | ht
    · exact hpos
    · exact h.tail.nonempty t ht
  inside t ht := by
    rcases mem_cons.mp ht with rfl | ht
    · have := h.inside s mem_cons_self
      exact ⟨this.1.trans hs.1, hs.2.trans this.2⟩
    · exact h.tail.inside t ht
  apart := by
    obtain ⟨hhead, htail⟩ := pairwise_cons.mp h.apart
    exact pairwise_cons.mpr ⟨fun t ht => (hhead t ht).of_within hs, htail⟩

/-- A span can be replaced by two disjoint parts of it. -/
theorem split (h : Carved lo hi (s :: spans)) (h₁ : s₁.Within s) (h₂ : s₂.Within s)
    (hapart : s₁.Apart s₂) (hpos₁ : 0 < s₁.size) (hpos₂ : 0 < s₂.size) :
    Carved lo hi (s₁ :: s₂ :: spans) where
  nonempty t ht := by
    rcases mem_cons.mp ht with rfl | ht
    · exact hpos₁
    · exact (h.shrink h₂ hpos₂).nonempty t ht
  inside t ht := by
    rcases mem_cons.mp ht with rfl | ht
    · exact (h.shrink h₁ hpos₁).inside t mem_cons_self
    · exact (h.shrink h₂ hpos₂).inside t ht
  apart := by
    refine pairwise_cons.mpr ⟨fun t ht => ?_, (h.shrink h₂ hpos₂).apart⟩
    rcases mem_cons.mp ht with rfl | ht
    · exact hapart
    · exact ((pairwise_cons.mp h.apart).1 t ht).of_within h₁

theorem extend (h : Carved lo hi spans) (hlo : lo ≤ hi) (hs : hi ≤ s.start) (hpos : 0 < s.size) :
    Carved lo s.stop (s :: spans) where
  nonempty t ht := by
    rcases mem_cons.mp ht with rfl | ht
    · exact hpos
    · exact h.nonempty t ht
  inside t ht := by
    rcases mem_cons.mp ht with rfl | ht
    · exact ⟨hlo.trans hs, le_refl _⟩
    have := h.inside t ht
    refine ⟨this.1, this.2.trans (hs.trans ?_)⟩
    exact Nat.le_add_right _ _
  apart := by
    refine pairwise_cons.mpr ⟨fun t ht => .inr ?_, h.apart⟩
    exact (h.inside t ht).2.trans hs

end Carved

end WovenHat.Library
