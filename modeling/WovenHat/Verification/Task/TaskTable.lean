import WovenHat.Library.TableSum
import WovenHat.Model.Task.Process

/-! # The task table

What scheduler operations do to the states and ids of tasks, and to the count of tasks. -/

namespace WovenHat.Task

open List Finset

namespace TaskControlBlock

def Alive (t : TaskControlBlock) : Prop :=
  t.state ≠ .empty ∧ t.state ≠ .dead

instance (t : TaskControlBlock) : Decidable t.Alive :=
  inferInstanceAs (Decidable (_ ∧ _))

def Same (t t' : TaskControlBlock) : Prop :=
  t'.id = t.id ∧ t'.cpu = t.cpu ∧ (t'.state = t.state ∨ t.Alive ∧ t'.Alive)

variable {t t' : TaskControlBlock}

theorem Same.refl (t : TaskControlBlock) : t.Same t :=
  ⟨rfl, rfl, .inl rfl⟩

theorem Same.alive_iff (h : t.Same t') : t'.Alive ↔ t.Alive := by
  rcases h.2.2 with hstate | ⟨ht, ht'⟩
  · rw [Alive, Alive, hstate]
  · exact iff_of_true ht' ht

theorem Same.dead (h : t.Same t') (hdead : t.state = .dead) : t'.state = .dead := by
  rcases h.2.2 with hstate | ⟨ht, _⟩
  · rw [hstate, hdead]
  · exact absurd hdead ht.2

theorem Same.empty_iff (h : t.Same t') : t'.state = .empty ↔ t.state = .empty := by
  rcases h.2.2 with hstate | ⟨ht, ht'⟩
  · rw [hstate]
  · exact iff_of_false ht'.1 ht.1

end TaskControlBlock

namespace Scheduler

open TaskControlBlock Function

variable {s s' s'' : Scheduler} {cpu : ℕ} {slot : Slot}

def emptyId : ℕ := 2 ^ 64 - 1

/-- The number of tasks that are neither empty nor dead. -/
def aliveCount (s : Scheduler) : ℕ :=
  (univ.filter fun slot => (s.tasks slot).Alive).card

/-- Empty blocks have the id of an empty block, and other ids have been handed out. -/
def IdsOk (s : Scheduler) : Prop :=
  s.nextTaskId ≤ emptyId ∧ ∀ slot, (s.tasks slot).state = .empty ∧ (s.tasks slot).id = emptyId ∨
    (s.tasks slot).state ≠ .empty ∧ (s.tasks slot).id < s.nextTaskId

def Occupied (s : Scheduler) (cpu : ℕ) : Prop :=
  (s.current cpu).cpu = cpu ∧ (s.current cpu).state ≠ .empty

def KernelAlive (s : Scheduler) : Prop :=
  (s.tasks slotZero).id = kernelTaskId ∧ (s.tasks slotZero).Alive

/-- A task that is dead stays dead as long as its slot holds it. -/
def DeadStays (s s' : Scheduler) : Prop :=
  ∀ slot, (s.tasks slot).state = .dead → (s'.tasks slot).id = (s.tasks slot).id →
    (s'.tasks slot).state = .dead

/-- A change of the task table in which living tasks go on, those in the slots `ended`
apart. -/
structure Tracks (ended : Slot → Prop) (s s' : Scheduler) : Prop where
  next : s.nextTaskId ≤ s'.nextTaskId
  idsOk : s.IdsOk → s'.nextTaskId ≤ emptyId → s'.IdsOk
  occupied : ∀ cpu, s.Occupied cpu → s'.Occupied cpu
  alive : ∀ slot, ¬ended slot → (s.tasks slot).Alive →
    (s'.tasks slot).Alive ∧ (s'.tasks slot).id = (s.tasks slot).id

abbrev noneEnds : Slot → Prop := fun _ => False

/-- Moreover dead tasks stay dead, and the count follows the number of living tasks. -/
structure Evolves (ended : Slot → Prop) (s s' : Scheduler) : Prop extends Tracks ended s s' where
  dead : DeadStays s s'
  count : s'.taskCount + s.aliveCount = s.taskCount + s'.aliveCount
  id : ∀ slot, (s'.tasks slot).id = (s.tasks slot).id ∨ (s'.tasks slot).id = emptyId ∨
    s.nextTaskId ≤ (s'.tasks slot).id

variable {ended : Slot → Prop}

theorem IdsOk.lt_of_ne (hids : s.IdsOk) (h : (s.tasks slot).state ≠ .empty) :
    (s.tasks slot).id < s.nextTaskId :=
  ((hids.2 slot).resolve_left fun he => h he.1).2

theorem IdsOk.lt_of_dead (hids : s.IdsOk) (h : (s.tasks slot).state = .dead) :
    (s.tasks slot).id < s.nextTaskId :=
  hids.lt_of_ne (by rw [h]; simp)

namespace Tracks

theorem trans (h : Tracks ended s s') (h' : Tracks noneEnds s' s'') : Tracks ended s s'' where
  next := le_trans h.next h'.next
  idsOk hids hle := h'.idsOk (h.idsOk hids (le_trans h'.next hle)) hle
  occupied cpu ho := h'.occupied cpu (h.occupied cpu ho)
  alive slot hended halive := by
    have hfirst := h.alive slot hended halive
    have hsecond := h'.alive slot id hfirst.1
    exact ⟨hsecond.1, hsecond.2.trans hfirst.2⟩

theorem of_shape (htasks : ∀ slot, (s'.tasks slot).id = (s.tasks slot).id ∧
      (s'.tasks slot).cpu = (s.tasks slot).cpu ∧
      ((s'.tasks slot).state = .empty ↔ (s.tasks slot).state = .empty))
    (halive : ∀ slot, ¬ended slot → (s.tasks slot).Alive → (s'.tasks slot).Alive)
    (hnext : s.nextTaskId ≤ s'.nextTaskId)
    (hcur : ∀ cpu, s'.currentSlot cpu = s.currentSlot cpu ∨ s'.Occupied cpu) :
    Tracks ended s s' where
  next := hnext
  idsOk hids hle := by
    refine ⟨hle, fun slot => ?_⟩
    rw [(htasks slot).1, Ne, (htasks slot).2.2]
    exact (hids.2 slot).imp_right fun h => ⟨h.1, lt_of_lt_of_le h.2 hnext⟩
  occupied cpu ho := by
    rcases hcur cpu with hsame | ho'
    · have hs := htasks (s.currentSlot cpu)
      rw [Occupied, current, hsame, hs.2.1, Ne, hs.2.2]
      exact ho
    · exact ho'
  alive slot hended ha := ⟨halive slot hended ha, (htasks slot).1⟩

theorem kernel (h : Tracks ended s s') (hzero : ¬ended slotZero) (hk : s.KernelAlive) :
    s'.KernelAlive := by
  have halive := h.alive slotZero hzero hk.2
  exact ⟨halive.2.trans hk.1, halive.1⟩

end Tracks

namespace Evolves

theorem trans (h : Evolves ended s s') (h' : Evolves noneEnds s' s'') (hids : s.IdsOk) :
    Evolves ended s s'' where
  toTracks := h.toTracks.trans h'.toTracks
  dead slot hdead hid := by
    have hlt := hids.lt_of_dead hdead
    have hle := hids.1
    have hmono := h.next
    rcases h.id slot with hsame | hempty | hnew
    · refine h'.dead slot (h.dead slot hdead hsame) ?_
      rw [hid, hsame]
    · rcases h'.id slot with hsame | hempty' | hnew' <;> omega
    · rcases h'.id slot with hsame | hempty' | hnew' <;> omega
  count := by
    have hfirst := h.count
    have hsecond := h'.count
    omega
  id slot := by
    have hmono := h.next
    rcases h'.id slot with hsame | hempty | hnew
    · rw [hsame]
      exact h.id slot
    · exact .inr (.inl hempty)
    · exact .inr (.inr (by omega))

/-- A change that keeps every task in its slot and kills none. -/
theorem of_same (htasks : ∀ slot, (s.tasks slot).Same (s'.tasks slot))
    (hcount : s'.taskCount = s.taskCount) (hnext : s.nextTaskId ≤ s'.nextTaskId)
    (hcur : ∀ cpu, s'.currentSlot cpu = s.currentSlot cpu ∨ s'.Occupied cpu) :
    Evolves noneEnds s s' where
  toTracks := .of_shape
    (fun slot => ⟨(htasks slot).1, (htasks slot).2.1, (htasks slot).empty_iff⟩)
    (fun slot _ => (htasks slot).alive_iff.mpr) hnext hcur
  dead slot hdead _ := (htasks slot).dead hdead
  count := by
    have halive : s'.aliveCount = s.aliveCount :=
      congrArg card (filter_congr fun slot _ => (htasks slot).alive_iff)
    rw [hcount, halive]
  id slot := .inl (htasks slot).1

theorem refl (s : Scheduler) : Evolves noneEnds s s :=
  of_same (fun _ => .refl _) rfl (le_refl _) fun _ => .inl rfl

end Evolves

/-! ## Changing one block -/

@[simp]
theorem setTask_self (s : Scheduler) (slot : Slot) (t : TaskControlBlock) :
    (s.setTask slot t).tasks slot = t :=
  update_self _ _ _

theorem setTask_of_ne (s : Scheduler) {i : Slot} (h : i ≠ slot) (t : TaskControlBlock) :
    (s.setTask slot t).tasks i = s.tasks i :=
  update_of_ne h _ _

variable {t : TaskControlBlock} {hit : Slot → Bool}

theorem aliveCount_update (htasks : s'.tasks = update s.tasks slot t) :
    s'.aliveCount + (if (s.tasks slot).Alive then 1 else 0) =
      s.aliveCount + (if t.Alive then 1 else 0) := by
  rw [aliveCount, aliveCount, card_filter, card_filter, htasks]
  exact Library.sum_update (fun t : TaskControlBlock => if t.Alive then 1 else 0) s.tasks slot t

theorem Evolves.create (hempty : (s.tasks slot).state = .empty)
    (halive : t.Alive) (hid : s.nextTaskId ≤ t.id) (hid' : t.id < s'.nextTaskId)
    (htasks : s'.tasks = update s.tasks slot t) (hcount : s'.taskCount = s.taskCount + 1)
    (hcur : ∀ cpu, s'.currentSlot cpu = s.currentSlot cpu ∨ s'.Occupied cpu) :
    Evolves noneEnds s s' where
  dead i hdead hsame := by
    have hne : i ≠ slot := by
      rintro rfl
      rw [hempty] at hdead
      cases hdead
    rwa [htasks, update_of_ne hne]
  count := by
    have hupdate := aliveCount_update htasks
    rw [if_pos halive, if_neg fun h => h.1 hempty] at hupdate
    omega
  id i := by
    by_cases hi : i = slot
    · subst hi
      rw [htasks, update_self]
      exact .inr (.inr hid)
    · rw [htasks, update_of_ne hi]
      exact .inl rfl
  next := by omega
  idsOk hids hle := by
    refine ⟨hle, fun i => ?_⟩
    by_cases hi : i = slot
    · subst hi
      rw [htasks, update_self]
      exact .inr ⟨halive.1, hid'⟩
    · rw [htasks, update_of_ne hi]
      exact (hids.2 i).imp_right fun h => ⟨h.1, by omega⟩
  occupied cpu ho := by
    rcases hcur cpu with hsame | ho'
    · have hne : s.currentSlot cpu ≠ slot := by
        rintro rfl
        exact ho.2 hempty
      rw [Occupied, current, hsame, htasks, update_of_ne hne]
      exact ho
    · exact ho'
  alive i _ hi := by
    have hne : i ≠ slot := by
      rintro rfl
      exact hi.1 hempty
    rw [htasks, update_of_ne hne]
    exact ⟨hi, rfl⟩

theorem Evolves.create_next (hempty : (s.tasks slot).state = .empty) (ht : t.Alive)
    (hid : t.id = s.nextTaskId) (htasks : s'.tasks = update s.tasks slot t)
    (hcount : s'.taskCount = s.taskCount + 1) (hnext : s'.nextTaskId = s.nextTaskId + 1)
    (hcur : ∀ cpu, s'.currentSlot cpu = s.currentSlot cpu ∨ s'.Occupied cpu) :
    Evolves noneEnds s s' :=
  .create hempty ht hid.ge (by omega) htasks hcount hcur

/-! ## Killing -/

def killAll (tasks : Slot → TaskControlBlock) (hit : Slot → Bool) : Slot → TaskControlBlock :=
  fun slot => if hit slot then { tasks slot with state := .dead } else tasks slot

theorem killAll_id (tasks : Slot → TaskControlBlock) (hit : Slot → Bool) (slot : Slot) :
    (killAll tasks hit slot).id = (tasks slot).id := by
  rw [killAll]
  split <;> rfl

theorem killAll_cpu (tasks : Slot → TaskControlBlock) (hit : Slot → Bool) (slot : Slot) :
    (killAll tasks hit slot).cpu = (tasks slot).cpu := by
  rw [killAll]
  split <;> rfl

theorem killAll_of_not (h : ¬hit slot) (tasks : Slot → TaskControlBlock) :
    killAll tasks hit slot = tasks slot :=
  if_neg h

theorem killAll_state (h : hit slot) (tasks : Slot → TaskControlBlock) :
    (killAll tasks hit slot).state = .dead := by
  rw [killAll, if_pos h]

theorem alive_of_killAll {tasks : Slot → TaskControlBlock}
    (h : (killAll tasks hit slot).Alive) : (tasks slot).Alive ∧ ¬hit slot := by
  have hslot : ¬hit slot := fun hhit => h.2 (killAll_state hhit _)
  rw [killAll_of_not hslot] at h
  exact ⟨h, hslot⟩

theorem card_filter_eq_countP (hit : Slot → Bool) :
    (univ.filter fun slot => hit slot).card = (finRange maxTasks).countP hit := by
  rw [countP_eq_length_filter]
  change ((finRange maxTasks).filter _).length = _
  simp

theorem aliveCount_killAll (halive : ∀ slot, hit slot → (s.tasks slot).Alive)
    (htasks : s'.tasks = killAll s.tasks hit) :
    s'.aliveCount + (List.finRange maxTasks).countP hit = s.aliveCount := by
  have hhit : (Finset.univ.filter fun slot => (s.tasks slot).Alive).filter (fun slot => hit slot) =
      Finset.univ.filter fun slot => hit slot := by
    rw [Finset.filter_filter]
    exact Finset.filter_congr fun slot _ => and_iff_right_of_imp (halive slot)
  have hmiss : (Finset.univ.filter fun slot => (s.tasks slot).Alive).filter
      (fun slot => ¬ hit slot) = Finset.univ.filter fun slot => (s'.tasks slot).Alive := by
    rw [Finset.filter_filter]
    refine Finset.filter_congr fun slot _ => ?_
    rw [htasks]
    by_cases hslot : hit slot
    · exact iff_of_false (fun h => h.2 hslot) fun h => h.2 (killAll_state hslot _)
    · rw [killAll_of_not hslot, and_iff_left hslot]
  have hsplit := card_filter_add_card_filter_not
    (s := univ.filter fun slot => (s.tasks slot).Alive) (fun slot => hit slot)
  rw [hhit, hmiss, card_filter_eq_countP] at hsplit
  rw [aliveCount, aliveCount, ← hsplit, Nat.add_comm]

theorem Tracks.of_killAll (hstate : ∀ slot, hit slot → (s.tasks slot).state ≠ .empty)
    (htasks : s'.tasks = killAll s.tasks hit) (hnext : s'.nextTaskId = s.nextTaskId)
    (hcur : s'.currentSlot = s.currentSlot) : Tracks (fun slot => hit slot) s s' := by
  refine .of_shape (fun slot => ?_) (fun slot hslot halive => ?_) hnext.ge fun cpu => .inl ?_
  · rw [htasks, killAll_id, killAll_cpu]
    refine ⟨rfl, rfl, ?_⟩
    by_cases hslot : hit slot
    · rw [killAll_state hslot]
      exact iff_of_false (by simp) (hstate slot hslot)
    · rw [killAll_of_not hslot]
  · rwa [htasks, killAll_of_not hslot]
  · rw [hcur]

theorem Evolves.dieAll (halive : ∀ slot, hit slot → (s.tasks slot).Alive)
    (hexact : s.taskCount = s.aliveCount) (htasks : s'.tasks = killAll s.tasks hit)
    (hcount : s'.taskCount = s.taskCount - (finRange maxTasks).countP hit)
    (hnext : s'.nextTaskId = s.nextTaskId) (hcur : s'.currentSlot = s.currentSlot) :
    Evolves (fun slot => hit slot) s s' where
  toTracks := .of_killAll (fun slot hslot => (halive slot hslot).1) htasks hnext hcur
  dead slot hdead _ := by
    have hslot : ¬hit slot := fun h => (halive slot h).2 hdead
    rwa [htasks, killAll_of_not hslot]
  count := by
    have hkill := aliveCount_killAll halive htasks
    omega
  id slot := by
    rw [htasks, killAll_id]
    exact .inl rfl

theorem killAll_single (tasks : Slot → TaskControlBlock) (slot : Slot) :
    killAll tasks (· == slot) = update tasks slot { tasks slot with state := .dead } := by
  funext i
  by_cases hi : i = slot
  · subst hi
    simp [killAll]
  · simp [killAll, hi]

theorem countP_single (slot : Slot) : (finRange maxTasks).countP (· == slot) = 1 :=
  count_eq_one_of_mem (nodup_finRange _) (mem_finRange slot)

/-! ## Scheduler operations -/

theorem reapDead_tasks (s : Scheduler) (cpu : ℕ) (slot : Slot) :
    (s.reapDead cpu).tasks slot = s.tasks slot ∨
      (slot ≠ s.currentSlot cpu ∧ (s.tasks slot).state = .dead ∧ (s.tasks slot).cpu = cpu) ∧
        (s.reapDead cpu).tasks slot = TaskControlBlock.empty := by
  dsimp only [reapDead]
  split
  · rename_i h
    exact .inr ⟨h, rfl⟩
  · exact .inl rfl

theorem reapDead_of_alive (h : (s.tasks slot).Alive) (cpu : ℕ) :
    (s.reapDead cpu).tasks slot = s.tasks slot :=
  (reapDead_tasks s cpu slot).resolve_right fun hr => h.2 hr.1.2.1

theorem reapDead_alive_iff (s : Scheduler) (cpu : ℕ) (slot : Slot) :
    ((s.reapDead cpu).tasks slot).Alive ↔ (s.tasks slot).Alive := by
  rcases reapDead_tasks s cpu slot with heq | ⟨h, heq⟩
  · rw [heq]
  · rw [heq]
    exact iff_of_false (fun ha => ha.1 rfl) fun ha => ha.2 h.2.1

theorem evolves_reapDead (hids : s.IdsOk) (cpu : ℕ) : Evolves noneEnds s (s.reapDead cpu) where
  dead slot hdead hid := by
    rcases reapDead_tasks s cpu slot with heq | ⟨h, heq⟩
    · rw [heq, hdead]
    have hlt := hids.lt_of_dead hdead
    have hle := hids.1
    rw [← hid, heq] at hlt
    exact absurd (lt_of_lt_of_le hlt hle) (lt_irrefl _)
  count := by
    have hcount : (s.reapDead cpu).aliveCount = s.aliveCount :=
      congrArg card (filter_congr fun slot _ => reapDead_alive_iff s cpu slot)
    rw [hcount]
    rfl
  id slot := by
    rcases reapDead_tasks s cpu slot with heq | ⟨_, heq⟩
    · exact .inl (by rw [heq])
    · exact .inr (.inl (by rw [heq]; rfl))
  next := le_refl _
  idsOk _ hle := by
    refine ⟨hle, fun slot => ?_⟩
    rcases reapDead_tasks s cpu slot with heq | ⟨_, heq⟩
    · rw [heq]
      exact hids.2 slot
    · rw [heq]
      exact .inl ⟨rfl, rfl⟩
  occupied c ho := by
    rcases reapDead_tasks s cpu (s.currentSlot c) with heq | ⟨h, _⟩
    · change (_ ∧ _)
      rw [show (s.reapDead cpu).current c = s.current c from heq]
      exact ho
    · have hc : c = cpu := ho.1.symm.trans h.2.2
      exact absurd (by rw [hc]) h.1
  alive slot _ halive := by
    rw [reapDead_of_alive halive]
    exact ⟨halive, rfl⟩

theorem nextSlot_ready {priority : TaskPriority} {next : Slot}
    (h : s.nextSlot cpu = some (priority, next)) :
    (s.tasks next).state = .ready ∧ (s.tasks next).cpu = cpu := by
  unfold nextSlot at h
  split at h
  · cases h
  obtain ⟨found, hfound, heq⟩ := Option.map_eq_some_iff.mp h
  cases heq
  have hready := find?_some hfound
  simp only [readyAt, Bool.and_eq_true, beq_iff_eq] at hready
  exact ⟨hready.1.1, hready.2⟩

@[simp]
theorem prepareSwitch_taskCount (s : Scheduler) (cpu : ℕ) :
    (s.prepareSwitch cpu).2.taskCount = s.taskCount := by
  unfold prepareSwitch
  dsimp only
  split <;> rfl

@[simp]
theorem prepareSwitch_nextTaskId (s : Scheduler) (cpu : ℕ) :
    (s.prepareSwitch cpu).2.nextTaskId = s.nextTaskId := by
  unfold prepareSwitch
  dsimp only
  split <;> rfl

/-- A switch leaves a task that still runs ready, and the next task runs. -/
theorem prepareSwitch_tasks {priority : TaskPriority} {next : Slot}
    (h : (s.reapDead cpu).nextSlot cpu = some (priority, next)) (slot : Slot) :
    (s.prepareSwitch cpu).2.tasks slot =
      if slot = next then { (s.reapDead cpu).tasks slot with
        state := .running, remainingTicks := ((s.reapDead cpu).tasks slot).priority.quantum }
      else if slot = s.currentSlot cpu ∧ ((s.reapDead cpu).tasks slot).state = .running then
        { (s.reapDead cpu).tasks slot with state := .ready }
      else (s.reapDead cpu).tasks slot := by
  rw [← show (s.reapDead cpu).currentSlot = s.currentSlot from rfl, prepareSwitch]
  generalize s.reapDead cpu = r at h
  obtain ⟨hready, -⟩ := nextSlot_ready h
  have hleft (i : Slot) : (if (r.tasks (r.currentSlot cpu)).state = .running then
        update r.tasks (r.currentSlot cpu) { r.tasks (r.currentSlot cpu) with state := .ready }
      else r.tasks) i = if i = r.currentSlot cpu ∧ (r.tasks i).state = .running then
        { r.tasks i with state := .ready } else r.tasks i := by
    by_cases hprev : i = r.currentSlot cpu
    · subst hprev
      split <;> simp [*]
    · split <;> simp [hprev]
  simp only [h, update_apply, hleft]
  split
  · rename_i hslot
    subst hslot
    simp [hready]
  · rfl

/-- After `reap_dead`, a switch keeps every task, and the CPU runs one of its own. -/
theorem prepareSwitch_same (s : Scheduler) (cpu : ℕ) :
    (∀ slot, ((s.reapDead cpu).tasks slot).Same ((s.prepareSwitch cpu).2.tasks slot)) ∧
      ∀ c, (s.prepareSwitch cpu).2.currentSlot c = s.currentSlot c ∨
        (s.prepareSwitch cpu).2.Occupied c := by
  cases h : (s.reapDead cpu).nextSlot cpu with
  | none =>
    rw [prepareSwitch, h]
    exact ⟨fun slot => .refl _, fun c => .inl rfl⟩
  | some found =>
    obtain ⟨hready, hcpu⟩ := nextSlot_ready h
    have hcur : (s.prepareSwitch cpu).2.currentSlot = update s.currentSlot cpu found.2 := by
      rw [prepareSwitch, h]
      rfl
    refine ⟨fun slot => ?_, fun c => ?_⟩
    · rw [prepareSwitch_tasks h]
      split
      · rename_i hslot
        rw [hslot]
        exact ⟨rfl, rfl, .inr ⟨by simp [Alive, hready], by simp [Alive]⟩⟩
      split
      · rename_i hprev
        exact ⟨rfl, rfl, .inr ⟨by simp [Alive, hprev.2], by simp [Alive]⟩⟩
      · exact .refl _
    · rw [Occupied, current, hcur, update_apply]
      split
      · rename_i hc
        rw [prepareSwitch_tasks h, if_pos rfl, hc]
        exact .inr ⟨hcpu, nofun⟩
      · exact .inl rfl

theorem evolves_prepareSwitch (hids : s.IdsOk) (cpu : ℕ) :
    Evolves noneEnds s (s.prepareSwitch cpu).2 := by
  have hspec := prepareSwitch_same s cpu
  refine (evolves_reapDead hids cpu).trans (.of_same hspec.1 ?_ ?_ hspec.2) hids
  · rw [prepareSwitch_taskCount]
    rfl
  · rw [prepareSwitch_nextTaskId]
    rfl

theorem evolves_wakeSleeping (s : Scheduler) (now : ℕ) : Evolves noneEnds s (s.wakeSleeping now) := by
  refine .of_same (fun slot => ?_) rfl (le_refl _) fun _ => .inl rfl
  dsimp only [wakeSleeping]
  split
  · rename_i h
    exact ⟨rfl, rfl, .inr ⟨by simp [Alive, h.1], by simp [Alive]⟩⟩
  · exact .refl _

@[simp]
theorem wakeSleeping_nextTaskId (s : Scheduler) (now : ℕ) :
    (s.wakeSleeping now).nextTaskId = s.nextTaskId :=
  rfl

theorem Evolves.setTask_same (h : (s.tasks slot).Same t) :
    Evolves noneEnds s (s.setTask slot t) := by
  refine .of_same (fun i => ?_) rfl (le_refl _) fun _ => .inl rfl
  by_cases hi : i = slot
  · subst hi
    rwa [setTask_self]
  · rw [setTask_of_ne _ hi]
    exact .refl _

theorem evolves_tick (hids : s.IdsOk) (cpu now : ℕ) : Evolves noneEnds s (s.tick cpu now).2 := by
  refine (evolves_wakeSleeping s now).trans ?_ hids
  rw [tick]
  generalize s.wakeSleeping now = r
  split
  · exact .refl r
  split
  · exact .setTask_same ⟨rfl, rfl, .inl rfl⟩
  · exact .setTask_same ⟨rfl, rfl, .inl rfl⟩

@[simp]
theorem tick_nextTaskId (s : Scheduler) (cpu now : ℕ) :
    (s.tick cpu now).2.nextTaskId = s.nextTaskId := by
  unfold tick
  dsimp only
  split
  · rfl
  · split <;> rfl

theorem evolves_wakeTask (s : Scheduler) (id : ℕ) : Evolves noneEnds s (s.wakeTask id).2 := by
  unfold wakeTask
  split
  · exact .refl s
  rename_i slot hfound
  refine .setTask_same ⟨rfl, rfl, .inr ⟨?_, by simp [Alive]⟩⟩
  have hstate := find?_some hfound
  simp only [Bool.and_eq_true, Bool.or_eq_true, beq_iff_eq] at hstate
  rcases hstate.2 with h | h <;> simp [Alive, h]

@[simp]
theorem wakeTask_nextTaskId (s : Scheduler) (id : ℕ) :
    (s.wakeTask id).2.nextTaskId = s.nextTaskId := by
  unfold wakeTask
  split <;> rfl

theorem evolves_spawn (s : Scheduler) (priority : TaskPriority) :
    Evolves noneEnds s (s.spawn priority).2 := by
  unfold spawn
  split
  · exact .refl s
  rename_i slot hfound
  have hempty := find?_some hfound
  rw [beq_iff_eq] at hempty
  exact .create_next hempty (by simp [Alive]) rfl rfl rfl rfl fun _ => .inl rfl

theorem spawn_nextTaskId_le (s : Scheduler) (priority : TaskPriority) :
    (s.spawn priority).2.nextTaskId ≤ s.nextTaskId + 1 := by
  unfold spawn
  split
  · exact Nat.le_succ _
  · exact le_refl _

theorem prepareSwitch_alive_iff (s : Scheduler) (cpu : ℕ) (slot : Slot) :
    ((s.prepareSwitch cpu).2.tasks slot).Alive ↔ (s.tasks slot).Alive :=
  ((prepareSwitch_same s cpu).1 slot).alive_iff.trans (reapDead_alive_iff s cpu slot)

theorem prepareSwitch_id (h : (s.tasks slot).Alive) :
    ((s.prepareSwitch cpu).2.tasks slot).id = (s.tasks slot).id := by
  rw [((prepareSwitch_same s cpu).1 slot).1, reapDead_of_alive h]

theorem tracks_leave (hids : s.IdsOk) (hcur : (s.current cpu).state ≠ .empty)
    (hid : t.id = (s.current cpu).id) (hcpu : t.cpu = (s.current cpu).cpu)
    (ht : t.Alive) : Tracks noneEnds s ((s.setTask (s.currentSlot cpu) t).prepareSwitch cpu).2 := by
  have hleave : Tracks noneEnds s (s.setTask (s.currentSlot cpu) t) := by
    refine .of_shape (fun slot => ?_) (fun slot _ halive => ?_) (le_refl _) fun _ => .inl rfl
    · by_cases hslot : slot = s.currentSlot cpu
      · subst hslot
        rw [setTask_self]
        exact ⟨hid, hcpu, iff_of_false ht.1 hcur⟩
      · rw [setTask_of_ne _ hslot]
        exact ⟨rfl, rfl, Iff.rfl⟩
    · by_cases hslot : slot = s.currentSlot cpu
      · subst hslot
        rwa [setTask_self]
      · rwa [setTask_of_ne _ hslot]
  exact hleave.trans (evolves_prepareSwitch (hleave.idsOk hids hids.1) cpu).toTracks

theorem evolves_leave (hids : s.IdsOk) (halive : (s.current cpu).Alive)
    (hid : t.id = (s.current cpu).id) (hcpu : t.cpu = (s.current cpu).cpu) (ht : t.Alive) :
    Evolves noneEnds s ((s.setTask (s.currentSlot cpu) t).prepareSwitch cpu).2 := by
  have hleave : Evolves noneEnds s (s.setTask (s.currentSlot cpu) t) :=
    .setTask_same ⟨hid, hcpu, .inr ⟨halive, ht⟩⟩
  exact hleave.trans (evolves_prepareSwitch (hleave.idsOk hids hids.1) cpu) hids

end Scheduler

end WovenHat.Task
