import WovenHat.Library.Always
import WovenHat.Verification.Task.Steps

/-! # Dead tasks

A process that kills itself or its group runs on with a dead task. Until it is switched
away from, a call that blocks, sleeps or exits writes the state of that task again. -/

namespace WovenHat.Task

open Library Option

namespace System

open Scheduler TaskControlBlock

variable {s s' : System} {cpu : ℕ} {l : ℕ × Op}

def leavesTask : Op → Bool
  | .blockCurrent | .sleepCurrent _ _ | .exitTask | .exitProcess _ => true
  | _ => false

/-- The call writes the state of a running task that is dead. -/
def Offends (s : System) : ℕ × Op → Prop
  | (cpu, op) => leavesTask op ∧ (s.scheduler.current cpu).state = .dead

/-- No dead task comes back in the step, and the count of tasks is exact after it. -/
def DeadTasksKept (s s' : System) : Prop :=
  DeadStays s.scheduler s'.scheduler ∧ s'.scheduler.taskCount = s'.scheduler.aliveCount

/-- What every state of a run satisfies until a dead task is written to. -/
structure Good (s : System) : Prop extends Sane s where
  count : s.scheduler.taskCount = s.scheduler.aliveCount
  kernel : s.scheduler.KernelAlive

theorem good_boot : Good boot where
  toSane := sane_boot
  count := by decide
  kernel := ⟨rfl, by decide⟩

/-! ## Steps that write to no dead task -/

theorem Good.currentSlot_ne (h : s.Good) (hkernel : ¬s.kernelRuns cpu) :
    s.scheduler.currentSlot cpu ≠ slotZero := by
  intro hzero
  apply hkernel
  rw [kernelRuns, current, hzero]
  exact h.kernel.1

theorem Good.not_endsTask_slotZero (h : s.Good) (hstep : step s l = some s') :
    ¬s.endsTask l slotZero := by
  obtain ⟨cpu, op⟩ := l
  intro hends
  unfold step at hstep
  dsimp only at hstep
  split at hstep
  · cases hstep
  cases op with
  | exitTask =>
    simp only [ite_none_left_eq_some, not_or] at hstep
    exact h.currentSlot_ne hstep.1.1 (beq_iff_eq.mp hends).symm
  | exitProcess exitCode =>
    simp only [ite_none_left_eq_some] at hstep
    exact h.currentSlot_ne hstep.1 (beq_iff_eq.mp hends).symm
  | kill pid sig =>
    simp only [endsTask, Bool.and_eq_true] at hends
    have hbounds := (h.killsTask_bounds hends.2.1).1
    rw [h.kernel.1] at hbounds
    exact absurd hbounds (by decide)
  | _ => cases hends

theorem Good.current_alive (h : s.Good) (hcpu : s.online cpu = true)
    (hdead : (s.scheduler.current cpu).state ≠ .dead) : (s.scheduler.current cpu).Alive :=
  ⟨(h.occupied cpu hcpu).2, hdead⟩

variable {r : Scheduler}

theorem Good.evolves_of_ends (h : s.Good) (hcpu : s.online cpu = true)
    (hdead : (s.scheduler.current cpu).state ≠ .dead) (hr : s.Ends cpu r) :
    Evolves (fun slot => slot == s.scheduler.currentSlot cpu) s.scheduler r := by
  have hdie : Evolves (fun slot => slot == s.scheduler.currentSlot cpu) s.scheduler
      (s.killCurrentTask cpu).scheduler := by
    refine .dieAll (fun slot hslot => ?_) h.count (killCurrentTask_tasks s cpu) ?_ rfl rfl
    · rw [beq_iff_eq.mp hslot]
      exact h.current_alive hcpu hdead
    · rw [countP_single]
      rfl
  rcases hr with rfl | rfl
  · exact hdie
  · exact hdie.trans (evolves_prepareSwitch (hdie.idsOk h.ids h.ids.1) cpu) h.ids

theorem killProcess_taskCount (s : System) (cpu pid sig : ℕ) :
    (s.killProcess cpu pid sig).scheduler.taskCount =
      s.scheduler.taskCount - (List.finRange maxTasks).countP (s.endsTask (cpu, .kill pid sig)) := by
  unfold killProcess
  split
  · rename_i hsig
    have hnone : (List.finRange maxTasks).countP (s.endsTask (cpu, .kill pid sig)) = 0 :=
      List.countP_eq_zero.mpr fun slot _ => endsTask_kill_of_lt hsig pid slot
    rw [hnone]
    rfl
  rename_i hsig
  have hle : decide (sig ≤ 31) = true := decide_eq_true (by omega)
  have hhit : s.endsTask (cpu, .kill pid sig) = fun slot =>
      s.killsTask cpu pid sig (s.scheduler.tasks slot).id &&
        decide ((s.scheduler.tasks slot).state ≠ .dead) := by
    funext slot
    rw [endsTask, hle, Bool.true_and]
  rw [hhit]
  rfl

theorem Good.evolves_killProcess (h : s.Good) (cpu pid sig : ℕ) :
    Evolves (fun slot => s.endsTask (cpu, .kill pid sig) slot) s.scheduler
      (s.killProcess cpu pid sig).scheduler := by
  obtain ⟨hnext, hcur, _⟩ := killProcess_rest s cpu pid sig
  exact .dieAll (fun slot => h.alive_of_endsTask) h.count (killProcess_tasks s cpu pid sig)
    (killProcess_taskCount s cpu pid sig) hnext hcur

theorem waitProcess_scheduler (s : System) (cpu child : ℕ) :
    (s.waitProcess cpu child).scheduler = s.scheduler := by
  unfold waitProcess
  dsimp only
  split
  · rfl
  · split <;> rfl

theorem sigactionCurrent_scheduler (s : System) (cpu sig handler : ℕ) :
    (s.sigactionCurrent cpu sig handler).scheduler = s.scheduler := by
  unfold sigactionCurrent
  split
  · rfl
  · split <;> rfl

theorem setProcessGroup_scheduler (s : System) (cpu pid pgid : ℕ) :
    (s.setProcessGroup cpu pid pgid).scheduler = s.scheduler := by
  unfold setProcessGroup
  dsimp only
  generalize (if pid = 0 then s.currentProcessId cpu else pid) = target
  split
  · rfl
  · split <;> rfl

theorem prepareSignalDelivery_scheduler (s : System) (cpu : ℕ) (frame : Option UserFrame)
    (copied : Bool) : (s.prepareSignalDelivery cpu frame copied).2.scheduler = s.scheduler := by
  unfold prepareSignalDelivery
  split
  · rfl
  · split <;> rfl

/-- Dead tasks stay dead in the step, and the count follows the number of living tasks. -/
def Advances (s s' : System) : Prop :=
  ∃ ended : Slot → Prop, Evolves ended s.scheduler s'.scheduler

theorem Good.advances (h : s.Good) (hstep : step s l = some s') (hoffends : ¬Offends s l) :
    Advances s s' := by
  obtain ⟨cpu, op⟩ := l
  have hcpu := (step_enabled hstep).1
  unfold step at hstep
  dsimp only at hstep
  split at hstep
  · cases hstep
  cases op with
  | yieldNow =>
    cases hstep
    exact ⟨_, evolves_prepareSwitch h.ids cpu⟩
  | tick now =>
    cases hstep
    exact ⟨_, evolves_tick h.ids cpu now⟩
  | preempt now =>
    cases hstep
    have hwake := evolves_wakeSleeping s.scheduler now
    exact ⟨_, hwake.trans (evolves_prepareSwitch (hwake.idsOk h.ids h.ids.1) cpu) h.ids⟩
  | blockCurrent | sleepCurrent now ticks =>
    have hdead : (s.scheduler.current cpu).state ≠ .dead := fun hd => hoffends ⟨rfl, hd⟩
    cases (ite_none_left_eq_some.mp hstep).2
    exact ⟨_, evolves_leave h.ids (h.current_alive hcpu hdead) rfl rfl (by simp [Alive])⟩
  | wakeTask id =>
    cases hstep
    exact ⟨_, evolves_wakeTask s.scheduler id⟩
  | exitTask =>
    have hdead : (s.scheduler.current cpu).state ≠ .dead := fun hd => hoffends ⟨rfl, hd⟩
    cases (ite_none_left_eq_some.mp hstep).2
    exact ⟨_, h.evolves_of_ends hcpu hdead (ends_exitCurrent s cpu)⟩
  | spawn priority =>
    cases hstep
    exact ⟨_, evolves_spawn s.scheduler priority⟩
  | spawnOn cpu' =>
    cases (ite_none_right_eq_some.mp hstep).2
    exact ⟨_, evolves_spawnOn s cpu' .normal⟩
  | initAp cpu' =>
    simp only [ite_none_left_eq_some] at hstep
    exact ⟨_, evolves_initAp hstep.2⟩
  | spawnUser addressSpace registered =>
    cases hstep
    have hbirths := births_spawnUserProcess s cpu addressSpace registered
    exact ⟨_, (evolves_reapDead h.ids cpu).trans hbirths.evolves h.ids⟩
  | fork addressSpace cloned registered =>
    cases hstep
    rcases births_forkCurrent s cpu addressSpace cloned registered with heq | hbirths
    · rw [heq]
      exact ⟨_, .refl _⟩
    · exact ⟨_, (evolves_reapDead h.ids cpu).trans hbirths.evolves h.ids⟩
  | exitProcess exitCode =>
    have hdead : (s.scheduler.current cpu).state ≠ .dead := fun hd => hoffends ⟨rfl, hd⟩
    cases (ite_none_left_eq_some.mp hstep).2
    exact ⟨_, h.evolves_of_ends hcpu hdead (ends_exitCurrentProcess s cpu exitCode)⟩
  | kill pid sig =>
    cases hstep
    exact ⟨_, h.evolves_killProcess cpu pid sig⟩
  | wait child =>
    cases hstep
    rw [Advances, waitProcess_scheduler]
    exact ⟨_, .refl _⟩
  | sigaction sig handler =>
    cases hstep
    rw [Advances, sigactionCurrent_scheduler]
    exact ⟨_, .refl _⟩
  | setGroup pid pgid =>
    cases hstep
    rw [Advances, setProcessGroup_scheduler]
    exact ⟨_, .refl _⟩
  | syscallReturn frame copied =>
    cases hstep
    rw [Advances, prepareSignalDelivery_scheduler]
    exact ⟨_, .refl _⟩

theorem Good.count_of_advances (h : s.Good) (ha : Advances s s') :
    s'.scheduler.taskCount = s'.scheduler.aliveCount := by
  obtain ⟨ended, he⟩ := ha
  have hcount := he.count
  have hexact := h.count
  omega

theorem Good.of_step (h : s.Good) (hstep : step s l = some s') (hoffends : ¬Offends s l) :
    s'.Good where
  toSane := h.toSane.of_step hstep
  count := h.count_of_advances (h.advances hstep hoffends)
  kernel := (h.follows hstep).tasks.kernel (h.not_endsTask_slotZero hstep) h.kernel

/-! ## Steps that write to a dead task -/

/-- Leaving a dead task in another state brings it back. -/
theorem not_deadStays_leave {t : TaskControlBlock}
    (hdead : (r.current cpu).state = .dead) (hid : t.id = (r.current cpu).id) (ht : t.Alive) :
    ¬DeadStays r ((r.setTask (r.currentSlot cpu) t).prepareSwitch cpu).2 := by
  intro hstays
  have hself : (r.setTask (r.currentSlot cpu) t).tasks (r.currentSlot cpu) = t :=
    Function.update_self _ _ _
  have hsame := (prepareSwitch_same (r.setTask (r.currentSlot cpu) t) cpu).1 (r.currentSlot cpu)
  rw [reapDead_of_alive (by rwa [hself]), hself] at hsame
  exact (hsame.alive_iff.mpr ht).2 (hstays _ hdead (hsame.1.trans hid))

theorem Good.taskCount_of_ends (h : s.Good) (hdead : (s.scheduler.current cpu).state = .dead)
    (hr : s.Ends cpu r) : r.taskCount + 1 = r.aliveCount := by
  have hsame : (s.killCurrentTask cpu).scheduler.tasks = s.scheduler.tasks := by
    change Function.update _ _ _ = _
    rw [Function.update_eq_self_iff, ← hdead]
    rfl
  have halive : (s.killCurrentTask cpu).scheduler.aliveCount = s.scheduler.aliveCount := by
    rw [aliveCount, aliveCount, hsame]
  have hpos : 0 < s.scheduler.aliveCount :=
    Finset.card_pos.mpr ⟨slotZero, Finset.mem_filter.mpr ⟨Finset.mem_univ _, h.kernel.2⟩⟩
  have hcount : (s.killCurrentTask cpu).scheduler.taskCount = s.scheduler.taskCount - 1 := rfl
  have hexact := h.count
  rcases hr with rfl | rfl
  · omega
  have hids : (s.killCurrentTask cpu).scheduler.IdsOk := by
    rw [IdsOk, hsame]
    exact h.ids
  have hswitch := (evolves_prepareSwitch hids cpu).count
  omega

theorem Good.not_kept (h : s.Good) (hstep : step s l = some s')
    (hoffends : Offends s l) : ¬DeadTasksKept s s' := by
  obtain ⟨cpu, op⟩ := l
  obtain ⟨hleaves, hdead⟩ := hoffends
  unfold step at hstep
  dsimp only at hstep
  split at hstep
  · cases hstep
  cases op with
  | blockCurrent | sleepCurrent now ticks =>
    cases (ite_none_left_eq_some.mp hstep).2
    intro hkept
    refine not_deadStays_leave hdead ?_ ?_ hkept.1
    · rfl
    · simp [Alive]
  | exitTask =>
    cases (ite_none_left_eq_some.mp hstep).2
    intro hkept
    have hcount := h.taskCount_of_ends hdead (ends_exitCurrent s cpu)
    have hexact := hkept.2
    dsimp only [schedule] at hexact
    omega
  | exitProcess exitCode =>
    cases (ite_none_left_eq_some.mp hstep).2
    intro hkept
    have hcount := h.taskCount_of_ends hdead (ends_exitCurrentProcess s cpu exitCode)
    have hexact := hkept.2
    omega
  | _ => cases hleaves

/-- In a run from boot every dead task stays dead and the count of tasks stays exact, exactly
if no dead task that still runs blocks, sleeps or exits. -/
theorem dead_tasks_kept_iff (ls : List (ℕ × Op)) :
    Always step (fun s _ s' => DeadTasksKept s s') boot ls ↔
      Always step (fun s l _ => ¬Offends s l) boot ls := by
  refine Always.congr good_boot (fun s l s' h hstep => ?_) (fun s l s' h hstep hkept => ?_) ls
  · refine ⟨fun hkept hoffends => h.not_kept hstep hoffends hkept, fun hoffends => ?_⟩
    have ha := h.advances hstep hoffends
    refine ⟨?_, h.count_of_advances ha⟩
    obtain ⟨ended, he⟩ := ha
    exact he.dead
  · exact h.of_step hstep fun hoffends => h.not_kept hstep hoffends hkept

/-- A process that kills itself and then sleeps. -/
def selfKill : List (ℕ × Op) :=
  [(0, .spawnUser 0 true), (0, .yieldNow), (0, .kill 1 9), (0, .sleepCurrent 0 1)]

/-- The dead task sleeps, and is not counted. -/
theorem self_kill_revives :
    let killed := (runAll step boot (selfKill.take 3)).scheduler
    let asleep := (runAll step boot selfKill).scheduler
    (killed.tasks ⟨2, by decide⟩).state = .dead ∧
      (asleep.tasks ⟨2, by decide⟩).id = (killed.tasks ⟨2, by decide⟩).id ∧
      (asleep.tasks ⟨2, by decide⟩).state = .sleeping ∧
      asleep.taskCount = 2 ∧ asleep.aliveCount = 3 := by
  decide +kernel

end System

end WovenHat.Task
