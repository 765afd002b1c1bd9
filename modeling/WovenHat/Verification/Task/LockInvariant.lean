import WovenHat.Model.Task.Machine

/-! # Task switches under a spin lock

Holders of a lock keep running under the lock discipline. -/

namespace WovenHat.Task

open Function

namespace Code

/-- Code that never yields, sleeps or blocks by itself. A `submit` may still wait. -/
def quiet : Code → Bool
  | .seq first second => first.quiet && second.quiet
  | .choose left right => left.quiet && right.quiet
  | .loop body => body.quiet
  | .withLock _ body => body.quiet
  | .fileFaultIo body => body.quiet
  | .yieldNow => false
  | .sleepCurrent _ => false
  | .blockCurrent => false
  | _ => true

def wellLocked : Code → Bool
  | .seq first second => first.wellLocked && second.wellLocked
  | .choose left right => left.wellLocked && right.wellLocked
  | .loop body => body.wellLocked
  | .withLock _ body => body.quiet && body.wellLocked
  | .fileFaultIo body => body.wellLocked
  | _ => true

end Code

/-- No kernel call yields, sleeps or blocks by name inside a critical section. -/
theorem KernelCall.wellLocked_code (call : KernelCall) : call.code.wellLocked = true := by
  cases call <;> rfl

/-! ## Continuations -/

/-- The continuation releases a lock: the task holds it. -/
def Holds (rest : List Item) : Prop :=
  ∃ lock, Item.unlock lock ∈ rest

@[simp] theorem not_holds_nil : ¬Holds [] := by
  rintro ⟨lock, hmem⟩
  cases hmem

variable {rest : List Item} {code : Code}

theorem holds_cons {item : Item} :
    Holds (item :: rest) ↔ (∃ lock, item = .unlock lock) ∨ Holds rest := by
  simp only [Holds, List.mem_cons, exists_or]
  constructor
  · rintro (⟨lock, h⟩ | h)
    · exact .inl ⟨lock, h.symm⟩
    · exact .inr h
  · rintro (⟨lock, h⟩ | h)
    · exact .inl ⟨lock, h.symm⟩
    · exact .inr h

def Item.WellLocked : Item → Prop
  | .run code => code.wellLocked = true
  | _ => True

/-- The continuation is safe to run at the given `FILE_IO_DEPTH` and interrupt flag: as
long as it holds a lock the timer cannot preempt it, and nothing in it switches tasks. -/
def Safe : ℕ → Bool → List Item → Prop
  | _, _, [] => True
  | depth, enabled, item :: rest =>
    (Holds (item :: rest) → enabled = false ∨ depth ≠ 0) ∧
      match item with
      | .run code => (Holds rest → code.quiet = true) ∧ Safe depth enabled rest
      | .unlock _ => Safe depth enabled rest
      | .endFileIo before => Safe (depth - 1) before rest
      | .restoreInterrupts before => Safe depth before rest
      | .awaitResult => ¬Holds rest ∧ Safe depth enabled rest

/-- A continuation without locks is safe whatever the flags are. -/
theorem safe_of_not_holds (hfree : ¬Holds rest) (depth : ℕ)
    (enabled : Bool) : Safe depth enabled rest := by
  induction rest generalizing depth enabled with
  | nil => trivial
  | cons item rest ih =>
    have htail : ¬Holds rest := fun h => hfree (holds_cons.mpr (.inr h))
    refine ⟨fun h => absurd h hfree, ?_⟩
    cases item with
    | run code => exact ⟨fun h => absurd h htail, ih htail _ _⟩
    | unlock lock => exact ih htail _ _
    | endFileIo before => exact ih htail _ _
    | restoreInterrupts before => exact ih htail _ _
    | awaitResult => exact ⟨htail, ih htail _ _⟩

/-- A safe continuation that the timer can preempt holds no lock. -/
theorem Safe.not_holds (hsafe : Safe 0 true rest) : ¬Holds rest := by
  cases rest with
  | nil => exact not_holds_nil
  | cons item rest =>
    intro hholds
    rcases hsafe.1 hholds with h | h <;> simp at h

variable {depth : ℕ} {enabled : Bool}

/-- A continuation is safe as soon as its head condition and its tail are. -/
theorem Safe.run (hguard : Holds rest → enabled = false ∨ depth ≠ 0)
    (hquiet : Holds rest → code.quiet = true) (hrest : Safe depth enabled rest) :
    Safe depth enabled (.run code :: rest) := by
  refine ⟨fun h => hguard ?_, hquiet, hrest⟩
  simpa [holds_cons] using h

/-- What a safe continuation says about the code at its head. -/
theorem Safe.of_run (hsafe : Safe depth enabled (.run code :: rest)) :
    (Holds rest → enabled = false ∨ depth ≠ 0) ∧ (Holds rest → code.quiet = true) ∧
      Safe depth enabled rest :=
  ⟨fun h => hsafe.1 (holds_cons.mpr (.inr h)), hsafe.2.1, hsafe.2.2⟩

namespace Scheduler

@[simp] theorem currentSlot_wakeTask (s : Scheduler) (id : ℕ) :
    (s.wakeTask id).2.currentSlot = s.currentSlot := by
  unfold wakeTask
  split <;> rfl

@[simp] theorem currentSlot_tick (s : Scheduler) (cpu now : ℕ) :
    (s.tick cpu now).2.currentSlot = s.currentSlot := by
  simp only [tick]
  split
  · rfl
  · split <;> rfl

end Scheduler

namespace Machine

@[simp] theorem code_wakeWorker (m : Machine) : m.wakeWorker.code = m.code := by
  unfold wakeWorker
  split <;> rfl

@[simp] theorem owner_wakeWorker (m : Machine) : m.wakeWorker.owner = m.owner := by
  unfold wakeWorker
  split <;> rfl

@[simp] theorem current_wakeWorker (m : Machine) : m.wakeWorker.current = m.current := by
  unfold wakeWorker current
  split <;> simp

/-- The invariant of disciplined runs. A task owns exactly the locks that its
continuation releases, only the running task owns any, and its continuation is safe. -/
structure Inv (m : Machine) : Prop where
  owned : ∀ lock slot,
    (m.code slot).count (.unlock lock) = if m.owner lock = some slot then 1 else 0
  wellLocked : ∀ slot, ∀ item ∈ m.code slot, item.WellLocked
  suspended : ∀ slot, slot ≠ m.current → ¬Holds (m.code slot)
  safe : Safe m.fileIoDepth m.interrupts (m.code m.current)

variable {m m' : Machine}

/-- While nobody holds a lock, any task may run with any flags. -/
theorem Inv.of_free (howner : ∀ lock, m.owner lock = none) (hfree : ∀ slot, ¬Holds (m.code slot))
    (hwell : ∀ slot, ∀ item ∈ m.code slot, item.WellLocked) : m.Inv where
  owned lock slot := by
    rw [howner, List.count_eq_zero.mpr fun hmem => hfree slot ⟨lock, hmem⟩]
    simp
  wellLocked := hwell
  suspended slot _ := hfree slot
  safe := safe_of_not_holds (hfree _) _ _

section

variable (inv : m.Inv)

include inv

theorem Inv.owner_iff (lock : Lock) (slot : Slot) :
    m.owner lock = some slot ↔ Item.unlock lock ∈ m.code slot := by
  rw [← List.count_pos_iff, inv.owned]
  split <;> simp_all

theorem Inv.holdersRun : m.HoldersRun := by
  intro lock slot howner
  by_contra hne
  exact inv.suspended slot hne ⟨lock, (inv.owner_iff lock slot).mp howner⟩

theorem Inv.holding_of_holds (hholds : Holds (m.code m.current)) : m.Holding := by
  obtain ⟨lock, hmem⟩ := hholds
  exact ⟨lock, (inv.owner_iff lock _).mpr hmem⟩

theorem Inv.free (hfree : ¬Holds (m.code m.current)) (slot : Slot) : ¬Holds (m.code slot) := by
  by_cases h : slot = m.current
  · exact h ▸ hfree
  · exact inv.suspended slot h

theorem Inv.owner_none (hfree : ¬Holds (m.code m.current)) (lock : Lock) : m.owner lock = none := by
  rw [Option.eq_none_iff_forall_ne_some]
  intro slot howner
  exact inv.free hfree slot ⟨lock, (inv.owner_iff lock slot).mp howner⟩

/-- A switch away from a task that holds nothing, or any other change of one task's
continuation while nothing is held. -/
theorem Inv.update_free (hfree : ¬Holds (m.code m.current)) (slot : Slot) (rest : List Item)
    (hrest : ¬Holds rest) (hwell : ∀ item ∈ rest, item.WellLocked)
    (hcode : m'.code = update m.code slot rest) (howner : m'.owner = m.owner) : m'.Inv := by
  refine .of_free (fun lock => howner ▸ inv.owner_none hfree lock) ?_ ?_ <;> intro other <;>
    rw [hcode] <;> by_cases h : other = slot
  · simpa [h] using hrest
  · simpa [h] using inv.free hfree other
  · simpa [h] using hwell
  · simpa [h] using inv.wellLocked other

theorem Inv.reschedule (hfree : ¬Holds (m.code m.current))
    (hcode : m'.code = m.code) (howner : m'.owner = m.owner) : m'.Inv :=
  .of_free (fun lock => howner ▸ inv.owner_none hfree lock)
    (fun slot => hcode ▸ inv.free hfree slot) (fun slot => hcode ▸ inv.wellLocked slot)

variable {rest : List Item}

/-- The running task goes on with another continuation. -/
theorem Inv.continue (hcur : m'.current = m.current)
    (hcode : m'.code = update m.code m.current rest) (hothers : ∀ lock slot, slot ≠ m.current →
      (m'.owner lock = some slot ↔ m.owner lock = some slot)) (hcount : ∀ lock,
      rest.count (.unlock lock) = if m'.owner lock = some m.current then 1 else 0)
    (hwell : ∀ item ∈ rest, item.WellLocked) (hsafe : Safe m'.fileIoDepth m'.interrupts rest)
    : m'.Inv where
  owned lock slot := by
    by_cases h : slot = m.current
    · simpa [hcode, h] using hcount lock
    · simpa [hcode, h, hothers lock slot h] using inv.owned lock slot
  wellLocked slot := by
    by_cases h : slot = m.current
    · simpa [hcode, h] using hwell
    · simpa [hcode, h] using inv.wellLocked slot
  suspended slot hne := by
    rw [hcur] at hne
    simpa [hcode, hne] using inv.suspended slot hne
  safe := by simpa [hcode, hcur] using hsafe

/-- The running task goes on and neither takes nor releases a lock. -/
theorem Inv.proceed (hcur : m'.current = m.current) (hcode : m'.code = update m.code m.current rest)
    (howner : m'.owner = m.owner) (hcount : ∀ lock,
      rest.count (.unlock lock) = (m.code m.current).count (.unlock lock))
    (hwell : ∀ item ∈ rest, item.WellLocked) (hsafe : Safe m'.fileIoDepth m'.interrupts rest)
    : m'.Inv :=
  inv.continue hcur hcode (by simp [howner])
    (fun lock => by rw [hcount, inv.owned, howner]) hwell hsafe

end

end Machine

end WovenHat.Task
