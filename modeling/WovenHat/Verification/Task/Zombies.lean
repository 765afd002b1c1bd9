import WovenHat.Library.Always
import WovenHat.Verification.Task.Steps

/-! # Zombies

`wait_process` frees the entry of an exited process only for the process or kernel task that
is recorded as its parent. The children of a process that ends are given to nobody else. -/

namespace WovenHat.Task

open Library Option

namespace System

open Scheduler TaskControlBlock

variable {s s' : System} {l : ℕ × Op}

/-- The parent is the kernel task, which waits for the processes that it starts, or a process
that has not exited. The other tasks without a process never call `wait_process`. -/
def HasReaper (s : System) (parent : ℕ) : Prop :=
  parent = kernelTaskId ∨ ∃ i, ∃ q ∈ s.processes i, q.id = parent ∧ q.state ≠ .exited

/-- Every exited process can still be reaped. -/
def Reapable (s : System) : Prop :=
  ∀ i, ∀ p ∈ s.processes i, p.state = .exited → s.HasReaper p.parent

/-- A process that the call ends was started by the kernel or by a process that lives on, and
has waited for all its children that have exited. -/
def Orderly (s : System) (l : ℕ × Op) : Prop :=
  ∀ i, ∀ p ∈ s.processes i, s.endsProcess l i = true →
    (p.parent = kernelTaskId ∨ ∃ j, ∃ q ∈ s.processes j, q.id = p.parent ∧ q.state ≠ .exited ∧
      s.endsProcess l j = false) ∧
    ∀ j, ∀ z ∈ s.processes j, z.state = .exited → z.parent ≠ p.id

instance (s : System) (parent : ℕ) : Decidable (s.HasReaper parent) :=
  inferInstanceAs (Decidable (_ ∨ _))

instance (s : System) : Decidable s.Reapable :=
  inferInstanceAs (Decidable (∀ _, _))

theorem reapable_boot : Reapable boot := by
  intro i p hp
  cases hp

/-- A process that has not exited is there after a call that does not end it. -/
theorem Follows.survivor (hf : s.Follows l s') {i : ProcessSlot} {q : Process}
    (hq : q ∈ s.processes i) (hstate : q.state ≠ .exited) (hends : s.endsProcess l i = false) :
    s'.HasReaper q.id := by
  have hstep := hf.processes i
  rw [mem_def.mp hq, hends] at hstep
  generalize hafter : s'.processes i = o at hstep
  cases hstep with
  | @kept _ q' hlasts hstate' =>
    refine .inr ⟨i, q', hafter, hlasts.id, ?_⟩
    simpa [hstate'] using hstate
  | reaped _ hexited => exact absurd hexited hstate

theorem Follows.reapable_of_orderly (hf : s.Follows l s') (hreapable : Reapable s)
    (horderly : Orderly s l) : Reapable s' := by
  intro i p' hp' hexited
  have hstep := hf.processes i
  rw [mem_def.mp hp'] at hstep
  generalize hbefore : s.processes i = o at hstep
  cases hstep with
  | @kept p _ hlasts hstate =>
    rw [hlasts.parent]
    by_cases hends : s.endsProcess l i = true
    · rcases (horderly i p hbefore hends).1 with hkernel | ⟨j, q, hq, hid, hlive, hkept⟩
      · exact .inl hkernel
      · exact hid ▸ hf.survivor hq hlive hkept
    · have hzombie := (hstate.mp hexited).resolve_right hends
      rcases hreapable i p hbefore hzombie with hkernel | ⟨j, q, hq, hid, hlive⟩
      · exact .inl hkernel
      · -- a process that the call ends leaves no zombie behind
        have hkept : s.endsProcess l j = false := by
          by_contra hends'
          exact (horderly j q hq (by simpa using hends')).2 i p hbefore hzombie hid.symm
        exact hid ▸ hf.survivor hq hlive hkept
  | created _ hcreated =>
    rw [hcreated.state] at hexited
    cases hexited

theorem ending_of_endsProcess {i : ProcessSlot} (h : s.endsProcess l i = true) :
    creating l.2 = false ∧ reaping l.2 = false := by
  obtain ⟨cpu, op⟩ := l
  cases op <;> first | exact ⟨rfl, rfl⟩ | cases h

/-- A zombie after a call that ends a process has a reaper that was there before. -/
theorem Follows.reaper_before (hf : s.Follows l s') (hcreate : creating l.2 = false)
    (hreap : reaping l.2 = false) (hreapable : Reapable s') {i : ProcessSlot} {p : Process}
    (hp : p ∈ s.processes i) (hzombie : p.state = .exited ∨ s.endsProcess l i = true) :
    p.parent = kernelTaskId ∨ ∃ j, ∃ q ∈ s.processes j, q.id = p.parent ∧ q.state ≠ .exited ∧
      s.endsProcess l j = false := by
  have hstep := hf.processes i
  rw [mem_def.mp hp] at hstep
  generalize hafter : s'.processes i = o at hstep
  cases hstep with
  | reaped hreaping =>
    rw [hreap] at hreaping
    cases hreaping
  | @kept _ p' hlasts hstate =>
    rw [← hlasts.parent]
    refine (hreapable i p' hafter (hstate.mpr hzombie)).imp_right ?_
    rintro ⟨j, q', hq', hid, hlive⟩
    have hstep := hf.processes j
    rw [mem_def.mp hq'] at hstep
    generalize hbefore : s.processes j = o at hstep
    cases hstep with
    | created hcreating =>
      rw [hcreate] at hcreating
      cases hcreating
    | @kept q _ hlasts' hstate' =>
      have hkept := not_or.mp fun hor => hlive (hstate'.mpr hor)
      exact ⟨j, q, hbefore, hlasts'.id.symm.trans hid, hkept.1, by simpa using hkept.2⟩

theorem Sane.orderly_of_reapable (h : s.Sane) (hf : s.Follows l s') (hreapable : Reapable s') :
    Orderly s l := by
  intro i p hp hends
  obtain ⟨hcreate, hreap⟩ := ending_of_endsProcess hends
  refine ⟨hf.reaper_before hcreate hreap hreapable hp (.inr hends), fun j z hz hzombie heq => ?_⟩
  rcases hf.reaper_before hcreate hreap hreapable hz (.inl hzombie) with
    hkernel | ⟨k, q, hq, hid, -, hkept⟩
  · -- no process has the id of the kernel task
    exact (h.processes i p hp).pos.ne' (heq.symm.trans hkernel)
  · obtain rfl := h.unique i k p q hp hq (heq.symm.trans hid.symm)
    rw [hends] at hkept
    cases hkept

/-- In a run from boot every exited process can be reaped after every step, exactly if no call
ends a process whose parent is gone or that has left a zombie. -/
theorem zombies_reapable_iff (ls : List (ℕ × Op)) :
    Always step (fun _ _ s' => Reapable s') boot ls ↔
      Always step (fun s l _ => Orderly s l) boot ls := by
  refine Always.congr (I := fun s => s.Sane ∧ s.Reapable) ⟨sane_boot, reapable_boot⟩
    (fun s l s' h hstep => ?_) (fun s l s' h hstep hreapable => ?_) ls
  · have hf := h.1.follows hstep
    exact ⟨h.1.orderly_of_reapable hf, hf.reapable_of_orderly h.2⟩
  · exact ⟨h.1.of_step hstep, hreapable⟩

/-- Process 1 forks process 2, which forks process 3, exits, and is outlived by it. -/
def orphan : List (ℕ × Op) :=
  [(0, .spawnUser 0 true), (0, .yieldNow), (0, .fork 1 true true), (0, .yieldNow),
    (0, .yieldNow), (0, .fork 2 true true), (0, .exitProcess 0), (0, .yieldNow),
    (0, .exitProcess 0)]

/-- Nobody can reap process 3. -/
theorem orphan_not_reapable :
    Reapable (runAll step boot (orphan.take 8)) ∧ ¬Reapable (runAll step boot orphan) := by
  decide +kernel

end System

end WovenHat.Task
