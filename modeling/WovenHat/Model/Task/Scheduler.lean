import Mathlib

/-! # The scheduler

`Scheduler` of `task.rs`: a table of 32 task control blocks shared by all CPUs, each
task pinned to one of them. Every operation is one critical section of the scheduler
lock. Stacks, address spaces, names and capabilities are left out: which task runs does
not depend on them. -/

namespace WovenHat.Task

open Function

def maxTasks : ℕ := 32

abbrev Slot := Fin maxTasks

inductive TaskState where
  | empty
  | ready
  | running
  | blocked
  | sleeping
  | dead
  deriving DecidableEq, Repr

inductive TaskPriority where
  | low
  | normal
  | high
  deriving DecidableEq, Repr

def TaskPriority.index : TaskPriority → ℕ
  | .low => 0
  | .normal => 1
  | .high => 2

def TaskPriority.quantum : TaskPriority → ℕ
  | .low => 1
  | .normal => 2
  | .high => 4

structure TaskControlBlock where
  id : ℕ
  state : TaskState
  priority : TaskPriority
  wakeTick : ℕ
  remainingTicks : ℕ
  cpu : ℕ

def TaskControlBlock.empty : TaskControlBlock :=
  ⟨2 ^ 64 - 1, .empty, .normal, 0, 0, 0⟩

def kernelTaskId : ℕ := 0

def idleTaskId : ℕ := 1

/-- `Scheduler`, with the counter `NEXT_TASK_ID`. -/
structure Scheduler where
  tasks : Slot → TaskControlBlock
  currentSlot : ℕ → Slot
  taskCount : ℕ
  contextSwitches : ℕ
  lastSelected : ℕ → TaskPriority → Slot
  nextTaskId : ℕ

namespace Scheduler

def slotZero : Slot := ⟨0, by decide⟩

/-- The block that `TaskControlBlock::initialize` writes over an empty one. -/
def freshTask (id : ℕ) (priority : TaskPriority) : TaskControlBlock :=
  { TaskControlBlock.empty with
    id, state := .ready, priority, remainingTicks := priority.quantum }

/-- `Scheduler::initialize`: the kernel task runs and the idle task is ready. -/
def initialized : Scheduler where
  tasks slot :=
    if slot.val = 0 then
      { TaskControlBlock.empty with
        id := kernelTaskId, state := .running, priority := .high,
        remainingTicks := TaskPriority.high.quantum }
    else if slot.val = 1 then freshTask idleTaskId .low
    else TaskControlBlock.empty
  currentSlot _ := slotZero
  taskCount := 2
  contextSwitches := 0
  lastSelected _ _ := slotZero
  nextTaskId := 2

variable (s : Scheduler) (cpu : ℕ)

def current : TaskControlBlock :=
  s.tasks (s.currentSlot cpu)

def setTask (slot : Slot) (task : TaskControlBlock) : Scheduler :=
  { s with tasks := update s.tasks slot task }

def reapDead : Scheduler :=
  { s with tasks := fun slot =>
      if slot ≠ s.currentSlot cpu ∧ (s.tasks slot).state = .dead ∧ (s.tasks slot).cpu = cpu then
        TaskControlBlock.empty
      else s.tasks slot }

/-- A ready task of the CPU with the given priority. -/
def readyAt (priority : TaskPriority) (slot : Slot) : Bool :=
  (s.tasks slot).state == .ready && (s.tasks slot).priority == priority && (s.tasks slot).cpu == cpu

def bestPriority : Option TaskPriority :=
  [TaskPriority.high, .normal, .low].find? fun priority =>
    (List.finRange maxTasks).any (s.readyAt cpu priority)

/-- The slots after `start` in round-robin order, ending with `start` itself. -/
def rotation (start : Slot) : List Slot :=
  (List.range maxTasks).map fun offset =>
    ⟨(start.val + (offset + 1)) % maxTasks, Nat.mod_lt _ (by decide)⟩

/-- The slot that `prepare_switch` selects. -/
def nextSlot : Option (TaskPriority × Slot) :=
  match s.bestPriority cpu with
  | none => none
  | some priority =>
    ((rotation (s.lastSelected cpu priority)).find? (s.readyAt cpu priority)).map
      fun slot => (priority, slot)

/-- `Scheduler::prepare_switch`: whether it returns a context switch, and the scheduler
after it. -/
def prepareSwitch : Bool × Scheduler :=
  let s := s.reapDead cpu
  match s.nextSlot cpu with
  | none => (false, s)
  | some (priority, next) =>
    let previous := s.currentSlot cpu
    let tasks :=
      if (s.tasks previous).state = .running then
        update s.tasks previous { s.tasks previous with state := .ready }
      else s.tasks
    (true, { s with
      lastSelected := update s.lastSelected cpu (update (s.lastSelected cpu) priority next)
      tasks := update tasks next
        { tasks next with
          state := .running, remainingTicks := (tasks next).priority.quantum }
      currentSlot := update s.currentSlot cpu next
      contextSwitches := s.contextSwitches + 1 })

def wakeSleeping (now : ℕ) : Scheduler :=
  { s with tasks := fun slot =>
      let task := s.tasks slot
      if task.state = .sleeping ∧ task.wakeTick ≤ now then
        { task with state := .ready, wakeTick := 0 }
      else task }

def wakeTask (id : ℕ) : Bool × Scheduler :=
  match (List.finRange maxTasks).find? fun slot =>
      (s.tasks slot).id == id &&
        ((s.tasks slot).state == .blocked || (s.tasks slot).state == .sleeping) with
  | none => (false, s)
  | some slot => (true, s.setTask slot { s.tasks slot with state := .ready, wakeTick := 0 })

/-- `spawn_with_priority`: the slot and id of the new task, if the table has room. -/
def spawn (priority : TaskPriority) : Option (Slot × ℕ) × Scheduler :=
  match (List.finRange maxTasks).find? fun slot => (s.tasks slot).state == .empty with
  | none => (none, s)
  | some slot =>
    (some (slot, s.nextTaskId),
      { s.setTask slot
          { s.tasks slot with
            id := s.nextTaskId, state := .ready, priority, wakeTick := 0,
            remainingTicks := priority.quantum } with
        taskCount := s.taskCount + 1
        nextTaskId := s.nextTaskId + 1 })

/-- The scheduler part of `block_current`. -/
def blockCurrent : Bool × Scheduler :=
  (s.setTask (s.currentSlot cpu) { s.current cpu with state := .blocked }).prepareSwitch cpu

/-- The scheduler part of `sleep_current`. -/
def sleepCurrent (cpu now ticks : ℕ) : Bool × Scheduler :=
  (s.setTask (s.currentSlot cpu)
    { s.current cpu with
      wakeTick := min (now + max ticks 1) (2 ^ 64 - 1), state := .sleeping }).prepareSwitch cpu

/-- The running task of a CPU becomes `Dead` and is no longer counted. -/
def endCurrent : Scheduler :=
  { s.setTask (s.currentSlot cpu) { s.current cpu with state := .dead } with
    taskCount := s.taskCount - 1 }

/-- The scheduler part of `exit_current_task`. -/
def exitCurrent : Bool × Scheduler :=
  (s.endCurrent cpu).prepareSwitch cpu

/-- The scheduler part of `kill_process`, for the tasks of the processes that it ends. -/
def killTasks (killed : ℕ → Bool) : Scheduler :=
  let hit := fun slot => killed (s.tasks slot).id && (s.tasks slot).state ≠ .dead
  { s with
    tasks := fun slot => if hit slot then { s.tasks slot with state := .dead } else s.tasks slot
    taskCount := s.taskCount - (List.finRange maxTasks).countP hit }

/-- The scheduler part of `tick`: whether it requests a preemption. -/
def tick (cpu now : ℕ) : Bool × Scheduler :=
  let s := s.wakeSleeping now
  let slot := s.currentSlot cpu
  let task := s.tasks slot
  if task.state ≠ .running then (false, s)
  else if task.remainingTicks > 1 then
    (false, s.setTask slot { task with remainingTicks := task.remainingTicks - 1 })
  else (true, s.setTask slot { task with remainingTicks := 0 })

end Scheduler

end WovenHat.Task
