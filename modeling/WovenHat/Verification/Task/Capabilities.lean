import WovenHat.Library.Since
import WovenHat.Verification.Task.Ownership

/-! # Confinement of capabilities

`TaskControlBlock::initialize` does not write the capabilities of a task. They are empty
nevertheless, since a slot is only used again after `reap_dead` has cleared the whole block. -/

namespace WovenHat.Capabilities

open Capability

theorem Capability.index_lt (c : Capability) : c.index < 64 := by
  cases c <;> decide

theorem Capability.index_injective : Function.Injective index := by
  intro c d
  cases c <;> cases d <;> decide

namespace CapabilitySet

variable {s : CapabilitySet} {c d : Capability}

theorem bit_getLsbD : c.bit.getLsbD d.index = true ↔ c = d := by
  rw [bit, BitVec.getLsbD_twoPow, Bool.and_eq_true, decide_eq_true_eq, decide_eq_true_eq]
  exact ⟨fun h => index_injective h.2, fun h => h ▸ ⟨c.index_lt, rfl⟩⟩

theorem contains_iff : s.contains c = true ↔ s.bits.getLsbD c.index = true := by
  have hbit : c.bit ≠ 0 := by
    intro hzero
    have hself := bit_getLsbD.mpr (rfl : c = c)
    simp [hzero] at hself
  rw [contains, bne_iff_ne, bit, BitVec.and_twoPow]
  cases hget : s.bits.getLsbD c.index with
  | false => exact iff_of_false (fun h => h rfl) nofun
  | true => exact iff_of_true hbit rfl

theorem not_contains_empty : ¬empty.contains c = true := by
  simp [contains_iff, empty]

theorem contains_withCapability :
    (s.withCapability c).contains d = true ↔ s.contains d = true ∨ c = d := by
  rw [contains_iff, contains_iff, withCapability, BitVec.getLsbD_or, Bool.or_eq_true, bit_getLsbD]

theorem contains_of_without (h : (s.without c).contains d = true) : s.contains d = true := by
  rw [contains_iff, without, BitVec.getLsbD_and, Bool.and_eq_true] at h
  exact contains_iff.mpr h.1

end CapabilitySet

end WovenHat.Capabilities

namespace WovenHat.Task.Cpus

open Capabilities Option

variable {c c' c'' : Cpus} {cpu : ℕ} {slot : Slot} {l : ℕ × Op}
  {capability : Capabilities.Capability}

/-! ## What a step does to the capabilities in a slot -/

inductive Initial (c : Cpus) (slot : Slot) : ℕ × Op → CapabilitySet → Prop
  | kernel (l : ℕ × Op) : Initial c slot l (c.capabilities slot)
  | user (cpu : ℕ) : Initial c slot (cpu, .spawnUser) .userspace
  | fork (cpu : ℕ) (capabilities : CapabilitySet)
      (read : c.forking (c.scheduler.currentSlot cpu) = some capabilities) :
      Initial c slot (cpu, .forkCurrent) capabilities

inductive SlotChange (c : Cpus) (l : ℕ × Op) (c' : Cpus) (slot : Slot) : Prop
  | same (occupied : (c.task slot).state ≠ .empty → (c'.task slot).state ≠ .empty)
      (capabilities : c'.capabilities slot = c.capabilities slot)
      (forking : c'.forking slot = c.forking slot)
  | cleared (capabilities : c'.capabilities slot = .empty) (forking : c'.forking slot = none)
  | created (empty : (c.task slot).state = .empty) (occupied : (c'.task slot).state ≠ .empty)
      (capabilities : Initial c slot l (c'.capabilities slot)) (forking : c'.forking slot = none)
  | forks (cpu : ℕ) (label : l = (cpu, .forkBegin)) (current : c.scheduler.currentSlot cpu = slot)
      (occupied : (c'.task slot).state ≠ .empty)
      (capabilities : c'.capabilities slot = c.capabilities slot)
      (forking : c'.forking slot = some (c.capabilities slot))
  | granted (cpu target : ℕ) (capability : Capabilities.Capability)
      (label : l = (cpu, .grant target capability)) (found : c.taskWith target = some slot)
      (control : (c.authority cpu).contains .taskControl = true)
      (holds : (c.authority cpu).contains capability = true)
      (occupied : (c'.task slot).state ≠ .empty)
      (capabilities : c'.capabilities slot = (c.capabilities slot).withCapability capability)
      (forking : c'.forking slot = c.forking slot)
  | revoked (capability : Capabilities.Capability) (occupied : (c'.task slot).state ≠ .empty)
      (capabilities : c'.capabilities slot = (c.capabilities slot).without capability)
      (forking : c'.forking slot = c.forking slot)

theorem Calm.slotChange (h : Calm c c') (slot : Slot) : SlotChange c l c' slot :=
  .same (h.tasks slot).occupied (by rw [h.capabilities]) (by rw [h.forking])

theorem reapDead_slotChange (c : Cpus) (cpu : ℕ) (slot : Slot) :
    SlotChange c l (c.reapDead cpu) slot := by
  by_cases hreaps : c.reaps cpu slot
  · exact .cleared (by simp [reapDead, reapTable, hreaps]) (by simp [reapDead, reapTable, hreaps])
  refine .same ?_ (by simp [reapDead, reapTable, hreaps]) (by simp [reapDead, reapTable, hreaps])
  rw [reapDead_task, if_neg hreaps]
  exact id

theorem prepareSwitch_slotChange (h : Calm c c') (cpu : ℕ) (slot : Slot) :
    SlotChange c l (c'.prepareSwitch cpu) slot := by
  by_cases hreaps : c'.reaps cpu slot
  · exact .cleared (by simp [prepareSwitch, reapDead, reapTable, hreaps])
      (by simp [prepareSwitch, reapDead, reapTable, hreaps])
  refine .same (fun hocc hempty => ?_)
    (by simp [prepareSwitch, reapDead, reapTable, hreaps, h.capabilities])
    (by simp [prepareSwitch, reapDead, reapTable, hreaps, h.forking])
  have hreap := (prepareSwitch_task c' cpu slot).empty_iff.mp hempty
  rw [reapDead_task, if_neg hreaps] at hreap
  exact (h.tasks slot).occupied hocc hreap

variable {capabilities : CapabilitySet} {new : Slot}

theorem Placed.slotChange (h : Placed c new c') (hinitial : Initial c new l capabilities)
    (slot : Slot) : SlotChange c l
      { c' with capabilities := Function.update c'.capabilities new capabilities } slot := by
  by_cases hslot : slot = new
  · subst hslot
    refine .created h.empty h.occupied ?_ ?_
    · simpa using hinitial
    · simp [h.forking]
  · refine .same ?_ (by simp [hslot, h.capabilities]) (by simp [hslot, h.forking])
    show (c.task slot).state ≠ _ → (c'.task slot).state ≠ _
    rw [h.others slot hslot]
    exact id

theorem Added.slotChange (h : Added c new c') (slot : Slot) : SlotChange c l c' slot := by
  by_cases hslot : slot = new
  · subst hslot
    refine .created h.empty h.occupied ?_ (by simp [h.forking])
    rw [h.capabilities]
    exact .kernel l
  · refine .same ?_ (by rw [h.capabilities]) (by simp [hslot, h.forking])
    rw [h.others slot hslot]
    exact id

theorem taskWith_occupied {target : ℕ} (h : c.taskWith target = some slot) :
    (c.task slot).state ≠ .empty := by
  have hfound := List.find?_some h
  simp only [Bool.and_eq_true, bne_iff_ne] at hfound
  exact hfound.1

/-- Every step is one of the cases, for every slot. -/
theorem slotChange_step (howned : Owned c) (hstep : step c l = some c') (slot : Slot) :
    SlotChange c l c' slot := by
  obtain ⟨hup, hperform⟩ := perform_of_step hstep
  obtain ⟨cpu, op⟩ := l
  cases op with
  | spawnUser =>
    obtain ⟨⟨new, c''⟩, hplace, rfl⟩ := map_eq_some_iff.mp hperform
    exact (placed_of_place hplace).slotChange (.user cpu) slot
  | forkBegin =>
    cases (ite_none_right_eq_some.mp hperform).2
    by_cases hslot : slot = c.scheduler.currentSlot cpu
    · subst hslot
      exact .forks cpu rfl rfl (howned.current cpu hup).1 rfl (by simp [forkBegin])
    · exact .same id rfl (by simp [forkBegin, hslot])
  | forkCurrent =>
    obtain ⟨_, hfork⟩ := ite_none_right_eq_some.mp hperform
    unfold forkCurrent at hfork
    split at hfork
    · cases hfork
    rename_i capabilities hread
    obtain ⟨⟨new, c''⟩, hplace, rfl⟩ := map_eq_some_iff.mp hfork
    exact (placed_of_place hplace).slotChange (.fork cpu capabilities hread) slot
  | grant target capability =>
    simp only [perform, grant] at hperform
    split at hperform
    · cases hperform
    rename_i hauthority
    simp only [Bool.or_eq_true, Bool.not_eq_true', not_or, Bool.not_eq_false] at hauthority
    obtain ⟨found, hfound, rfl⟩ := map_eq_some_iff.mp hperform
    by_cases hslot : slot = found
    · subst hslot
      exact .granted cpu target capability rfl hfound hauthority.1 hauthority.2
        (taskWith_occupied hfound) (by simp) rfl
    · exact .same id (by simp [hslot]) rfl
  | revoke target capability =>
    simp only [perform, revoke] at hperform
    split at hperform
    · cases hperform
    obtain ⟨found, hfound, rfl⟩ := map_eq_some_iff.mp hperform
    by_cases hslot : slot = found
    · subst hslot
      exact .revoked capability (taskWith_occupied hfound) (by simp) rfl
    · exact .same id (by simp [hslot]) rfl
  | _ =>
    cases transition_of_step hstep with
    | calm h => exact h.slotChange slot
    | decision _ h => exact prepareSwitch_slotChange h cpu slot
    | placed h => exact h.toAdded.slotChange slot
    | started h => exact h.toAdded.slotChange slot
    | reaped => exact reapDead_slotChange c cpu slot
    | switched => exact .same id rfl rfl
    | empowered hop => cases hop

/-! ## Runs -/

def Clean (c : Cpus) : Prop :=
  ∀ slot, (c.task slot).state = .empty → c.capabilities slot = .empty ∧ c.forking slot = none

theorem Clean.of_slotChange (h : Clean c) (hchange : ∀ slot, SlotChange c l c' slot) :
    Clean c' := by
  intro slot hempty
  cases hchange slot with
  | same hocc hcaps hforking =>
    rw [hcaps, hforking]
    exact h slot (by_contra fun hbefore => hocc hbefore hempty)
  | cleared hcaps hforking => exact ⟨hcaps, hforking⟩
  | created _ hocc => exact absurd hempty hocc
  | forks _ _ _ hocc => exact absurd hempty hocc
  | granted _ _ _ _ _ _ _ hocc => exact absurd hempty hocc
  | revoked _ hocc => exact absurd hempty hocc

theorem clean_boot : Clean boot := by
  intro slot hempty
  refine ⟨?_, rfl⟩
  have hslot : slot.val ≠ 0 := by
    intro hzero
    revert hempty
    simp [boot, task, Scheduler.initialized, hzero]
  simp [boot, hslot]

theorem slotChange_next (howned : Owned c) (l : ℕ × Op) (slot : Slot) :
    SlotChange c l ((step c l).getD c) slot := by
  cases hstep : step c l with
  | none => exact .same id rfl rfl
  | some c' => exact slotChange_step howned hstep slot

variable (ops : List (ℕ × Op))

theorem clean_run : Clean (run ops) := by
  induction ops using List.reverseRecOn with
  | nil => exact clean_boot
  | append_singleton ops l ih =>
    rw [run_concat]
    exact ih.of_slotChange (slotChange_next (owned_run ops) l)

/-- The task in the slot holds the capability. -/
def HoldsCapability (c : Cpus) (slot : Slot) (capability : Capabilities.Capability) : Prop :=
  (c.capabilities slot).contains capability = true

theorem Clean.occupied (h : Clean c) (hholds : c.HoldsCapability slot capability) :
    (c.task slot).state ≠ .empty := by
  intro hempty
  rw [HoldsCapability, (h slot hempty).1] at hholds
  exact CapabilitySet.not_contains_empty hholds

/-- Something has happened in the run up to `ops`, and the slot has had a task since. -/
def SinceThen (gives : List (ℕ × Op) → ℕ × Op → Prop) (slot : Slot) : List (ℕ × Op) → Prop :=
  Library.Since (fun c l => (step c l).getD c) boot gives fun c => (c.task slot).state ≠ .empty

/-- The step is the start of a fork by a task that holds the capability. -/
def StartsFork (parent : Slot) (capability : Capabilities.Capability) (before : List (ℕ × Op))
    (l : ℕ × Op) : Prop :=
  ∃ cpu, l = (cpu, .forkBegin) ∧ (run before).scheduler.currentSlot cpu = parent ∧
    (run before).HoldsCapability parent capability

/-- A step that gives the capability to the task in the slot, after the run `before`. -/
inductive Gives (slot : Slot) (capability : Capabilities.Capability) (before : List (ℕ × Op)) :
    ℕ × Op → Prop
  /-- A user process is spawned, and the capability is one of the default set. -/
  | spawnUser (cpu : ℕ) (empty : ((run before).task slot).state = .empty)
      (default : CapabilitySet.userspace.contains capability = true) :
      Gives slot capability before (cpu, .spawnUser)
  /-- A fork is completed, and its parent held the capability when it started the fork. -/
  | fork (cpu : ℕ) (empty : ((run before).task slot).state = .empty) (parent : Slot)
      (current : (run before).scheduler.currentSlot cpu = parent)
      (held : SinceThen (StartsFork parent capability) parent before) :
      Gives slot capability before (cpu, .forkCurrent)
  /-- The capability is granted by a task that holds it and may control tasks. -/
  | grant (cpu target : ℕ) (found : (run before).taskWith target = some slot)
      (control : ((run before).authority cpu).contains .taskControl = true)
      (holds : ((run before).authority cpu).contains capability = true) :
      Gives slot capability before (cpu, .grant target capability)

theorem SlotChange.forking_cases (h : SlotChange c l c' slot)
    (hread : c'.forking slot = some capabilities) :
    c.forking slot = some capabilities ∨ ∃ cpu, l = (cpu, .forkBegin) ∧
      c.scheduler.currentSlot cpu = slot ∧ c.capabilities slot = capabilities := by
  cases h with
  | same _ _ hforking => exact .inl (hforking ▸ hread)
  | cleared _ hforking => exact nomatch hforking.symm.trans hread
  | created _ _ _ hforking => exact nomatch hforking.symm.trans hread
  | forks cpu hlabel hcur _ _ hforking =>
    exact .inr ⟨cpu, hlabel, hcur, some.inj (hforking.symm.trans hread)⟩
  | granted _ _ _ _ _ _ _ _ _ hforking => exact .inl (hforking ▸ hread)
  | revoked _ _ _ hforking => exact .inl (hforking ▸ hread)

/-- What a task has read at the start of its fork it held then. -/
theorem startsFork_of_forking {parent : Slot} (hread : (run ops).forking parent = some capabilities)
    (hcontains : capabilities.contains capability = true) :
    SinceThen (StartsFork parent capability) parent ops := by
  have hsince := Library.since_of_holds
    (fun c : Cpus => ∃ capabilities, c.forking parent = some capabilities ∧
      capabilities.contains capability = true)
    (StartsFork parent capability) (fun c => (c.task parent).state ≠ .empty) ?_ ?_ ops
    ⟨capabilities, hread, hcontains⟩
  · rcases hsince with ⟨⟨_, hboot, _⟩, _⟩ | hsince
    · cases hboot
    · exact hsince
  · rintro ops ⟨capabilities, hread, _⟩ hempty
    exact nomatch hread.symm.trans (clean_run ops parent hempty).2
  rintro ops l ⟨capabilities, hread, hcontains⟩
  have hchange := slotChange_next (owned_run ops) l parent
  rw [← run_concat] at hchange
  rcases hchange.forking_cases hread with hbefore | ⟨cpu, hlabel, hcur, rfl⟩
  · exact .inl ⟨capabilities, hbefore, hcontains⟩
  · exact .inr ⟨cpu, hlabel, hcur, hcontains⟩

/-- A step after which the task holds the capability gives it, or the task had it before. -/
theorem holds_or_gives (l : ℕ × Op) (hholds : (run (ops ++ [l])).HoldsCapability slot capability) :
    (run ops).HoldsCapability slot capability ∨ Gives slot capability ops l := by
  have hchange := slotChange_next (owned_run ops) l slot
  rw [← run_concat] at hchange
  unfold HoldsCapability at hholds
  cases hchange with
  | same _ hcaps =>
    rw [hcaps] at hholds
    exact .inl hholds
  | cleared hcaps =>
    rw [hcaps] at hholds
    exact absurd hholds CapabilitySet.not_contains_empty
  | created hempty _ hinitial =>
    generalize (run (ops ++ [l])).capabilities slot = capabilities at hinitial hholds
    cases hinitial with
    | kernel => exact .inl hholds
    | user cpu => exact .inr (.spawnUser cpu hempty hholds)
    | fork cpu _ hread =>
      exact .inr (.fork cpu hempty _ rfl (startsFork_of_forking ops hread hholds))
  | forks _ _ _ _ hcaps =>
    rw [hcaps] at hholds
    exact .inl hholds
  | granted cpu target granted hlabel hfound hcontrol hauthority _ hcaps =>
    rw [hcaps, CapabilitySet.contains_withCapability] at hholds
    rcases hholds with hbefore | rfl
    · exact .inl hbefore
    · subst hlabel
      exact .inr (.grant cpu target hfound hcontrol hauthority)
  | revoked _ _ hcaps =>
    rw [hcaps] at hholds
    exact .inl (CapabilitySet.contains_of_without hholds)

/-- After any run, an empty slot has no capabilities, and a task that holds one is the bootstrap
task, which has been in the first slot since boot, or it has been given it since it was
created: as a user process, by the task that forked it, or by a task that might grant it. -/
theorem capability_confinement (ops : List (ℕ × Op)) :
    (∀ slot, ((run ops).task slot).state = .empty → (run ops).capabilities slot = .empty) ∧
    ∀ slot capability, (run ops).HoldsCapability slot capability →
      (slot = Scheduler.slotZero ∧ ∀ k, ((run (ops.take k)).task slot).state ≠ .empty) ∨
        SinceThen (Gives slot capability) slot ops := by
  refine ⟨fun slot hempty => (clean_run ops slot hempty).1, fun slot capability hholds => ?_⟩
  rcases Library.since_of_holds (fun c : Cpus => c.HoldsCapability slot capability)
    (Gives slot capability) (fun c => (c.task slot).state ≠ .empty)
    (fun ops hholds => (clean_run ops).occupied hholds) holds_or_gives ops hholds with
    ⟨hboot, hsince⟩ | hsince
  · refine .inl ⟨?_, hsince⟩
    by_contra hslot
    have hempty : boot.capabilities slot = .empty := if_neg fun hzero => hslot (Fin.ext hzero)
    rw [HoldsCapability, hempty] at hboot
    exact CapabilitySet.not_contains_empty hboot
  · exact .inr hsince

end WovenHat.Task.Cpus
