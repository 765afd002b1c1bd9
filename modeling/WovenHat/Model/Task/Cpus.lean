import WovenHat.Model.Capabilities
import WovenHat.Model.Task.Scheduler

/-! # CPUs, stacks and capabilities

The critical sections of the scheduler lock on several CPUs, with what the scheduler model
leaves out: the capabilities of the tasks, and the stack on which each CPU executes. A switch
is prepared under the lock and done after its release; in between the CPU has its interrupts
off, is still on the stack of the previous task, and takes no part in scheduling. The start of
`spawn_user_process` and `fork_current`, which reaps dead tasks, is a step of its own.

Paging is set up before the scheduler, so every task has an address space, and
`prepare_switch` does not fail for want of one. -/

namespace WovenHat.Task

open Capabilities Function

/-- The scheduler, the `capabilities` of its task control blocks, the set that the task in a
slot has read at the start of a running `fork_current`, the CPUs that are up, and the slot on
whose stack each of these executes. -/
structure Cpus where
  scheduler : Scheduler
  capabilities : Slot → CapabilitySet
  forking : Slot → Option CapabilitySet
  online : ℕ → Bool
  stack : ℕ → Slot

namespace Cpus

open Scheduler

/-- After `task::init`. -/
def boot : Cpus where
  scheduler := .initialized
  capabilities slot := if slot.val = 0 then .kernelBootstrap else .empty
  forking _ := none
  online cpu := cpu == 0
  stack _ := slotZero

variable (c : Cpus) (cpu : ℕ)

def current : TaskControlBlock := c.scheduler.current cpu

def setCurrent (task : TaskControlBlock) : Cpus :=
  { c with scheduler := c.scheduler.setTask (c.scheduler.currentSlot cpu) task }

/-! ## Reaping and switching -/

/-- `Scheduler::reap_dead` clears the slot. -/
def reaps (slot : Slot) : Bool :=
  slot ≠ c.scheduler.currentSlot cpu && (c.scheduler.tasks slot).state == .dead &&
    (c.scheduler.tasks slot).cpu == cpu

/-- What else goes with a task that `reap_dead` clears. -/
def reapTable {α : Type} (table : Slot → α) (gone : α) (slot : Slot) : α :=
  if c.reaps cpu slot then gone else table slot

def reapDead : Cpus :=
  { c with
    scheduler := c.scheduler.reapDead cpu
    capabilities := c.reapTable cpu c.capabilities .empty
    forking := c.reapTable cpu c.forking none }

def prepareSwitch : Cpus :=
  { c.reapDead cpu with scheduler := (c.scheduler.prepareSwitch cpu).2 }

/-- The end of `switch_stacks`. -/
def switchStacks : Cpus :=
  { c with stack := update c.stack cpu (c.scheduler.currentSlot cpu) }

/-- The scheduler part of `block_current`. -/
def blockCurrent : Cpus :=
  (c.setCurrent cpu { c.current cpu with state := .blocked }).prepareSwitch cpu

/-- The scheduler part of `sleep_current`. -/
def sleepCurrent (now ticks : ℕ) : Cpus :=
  (c.setCurrent cpu { c.current cpu with
    wakeTick := min (now + max ticks 1) (2 ^ 64 - 1), state := .sleeping }).prepareSwitch cpu

def endCurrent : Cpus :=
  { c with scheduler := c.scheduler.endCurrent cpu }

def killTasks (ids : List ℕ) : Cpus :=
  { c with scheduler := c.scheduler.killTasks ids.contains }

/-! ## New tasks -/

/-- Take the first empty slot and the next id, which wraps around. The stack of the slot is
built anew. -/
def place (priority : TaskPriority) : Option (Slot × Cpus) :=
  match c.scheduler.spawn priority with
  | (none, _) => none
  | (some (slot, _), s) =>
    some (slot, { c with
      scheduler := { s with nextTaskId := s.nextTaskId % 2 ^ 64 }
      forking := update c.forking slot none })

/-- `spawn_with_priority`. `TaskControlBlock::initialize` does not touch the capabilities. -/
def spawn (priority : TaskPriority) : Option Cpus :=
  (c.place priority).map fun (_, c) => c

def spawnOn : Option Cpus :=
  (c.place .normal).map fun (slot, c) =>
    { c with scheduler := c.scheduler.setTask slot { c.scheduler.tasks slot with cpu } }

/-- `init_ap`, which goes on with the stack of the bootstrap code. -/
def initAp : Option Cpus :=
  (c.place .low).map fun (slot, c) =>
    { c with
      scheduler :=
        { c.scheduler.setTask slot { c.scheduler.tasks slot with cpu, state := .running } with
          currentSlot := update c.scheduler.currentSlot cpu slot }
      online := update c.online cpu true
      stack := update c.stack cpu slot }

/-- The end of `spawn_user_process`: `TaskControlBlock::initialize_user`. -/
def spawnUser : Option Cpus :=
  (c.place .normal).map fun (slot, c) =>
    { c with capabilities := update c.capabilities slot .userspace }

/-- The first section of `fork_current`. -/
def forkBegin : Cpus :=
  let slot := c.scheduler.currentSlot cpu
  { c with forking := update c.forking slot (some (c.capabilities slot)) }

/-- The last section of `fork_current`: `TaskControlBlock::initialize_fork`. -/
def forkCurrent : Option Cpus :=
  match c.forking (c.scheduler.currentSlot cpu) with
  | none => none
  | some capabilities =>
    (c.place .normal).map fun (slot, c) =>
      { c with capabilities := update c.capabilities slot capabilities }

/-! ## Granting -/

def taskWith (id : ℕ) : Option Slot :=
  (List.finRange maxTasks).find? fun slot =>
    (c.scheduler.tasks slot).state != .empty && (c.scheduler.tasks slot).id == id

/-- The capabilities of the task that runs on a CPU. -/
def authority : CapabilitySet :=
  c.capabilities (c.scheduler.currentSlot cpu)

def grant (target : ℕ) (capability : Capabilities.Capability) : Option Cpus :=
  if !(c.authority cpu).contains .taskControl || !(c.authority cpu).contains capability then none
  else (c.taskWith target).map fun slot =>
    { c with capabilities :=
        update c.capabilities slot ((c.capabilities slot).withCapability capability) }

def revoke (target : ℕ) (capability : Capabilities.Capability) : Option Cpus :=
  if !(c.authority cpu).contains .taskControl then none
  else (c.taskWith target).map fun slot =>
    { c with capabilities := update c.capabilities slot ((c.capabilities slot).without capability) }

/-! ## Steps -/

inductive Op where
  | yieldNow
  | tick (now : ℕ)
  | preempt (now : ℕ)
  | blockCurrent
  | sleepCurrent (now ticks : ℕ)
  | wakeTask (id : ℕ)
  | exitTask
  /-- `exit_current_process` of a task that has no address space to give back. -/
  | exitInPlace
  | kill (ids : List ℕ)
  | spawn (priority : TaskPriority)
  | spawnOn (cpu : ℕ)
  | initAp
  | reapDead
  | spawnUser
  | forkBegin
  | forkCurrent
  | execCurrent
  /-- An id is taken for a process that is not created in the end. -/
  | takeId
  | grant (target : ℕ) (capability : Capabilities.Capability)
  | revoke (target : ℕ) (capability : Capabilities.Capability)
  | switchStacks
  deriving DecidableEq, Repr

/-- The CPU is on the stack of its current task, and can schedule. -/
def settled : Bool :=
  c.stack cpu == c.scheduler.currentSlot cpu

/-- The kernel task fails the assertions of the calls that leave the CPU. -/
def mayLeave : Bool :=
  c.settled cpu && (c.current cpu).id != kernelTaskId

/-- What a call does, if it does not fail. A CPU in the middle of a switch does not
schedule. -/
def perform : Op → Option Cpus
  | .yieldNow => if c.settled cpu then some (c.prepareSwitch cpu) else none
  | .tick now => some { c with scheduler := (c.scheduler.tick cpu now).2 }
  | .preempt now =>
    if c.settled cpu then
      some ({ c with scheduler := c.scheduler.wakeSleeping now }.prepareSwitch cpu)
    else none
  | .blockCurrent => if c.mayLeave cpu then some (c.blockCurrent cpu) else none
  | .sleepCurrent now ticks =>
    if c.mayLeave cpu then some (c.sleepCurrent cpu now ticks) else none
  | .wakeTask id => some { c with scheduler := (c.scheduler.wakeTask id).2 }
  | .exitTask => if c.mayLeave cpu then some ((c.endCurrent cpu).prepareSwitch cpu) else none
  | .exitInPlace => if c.mayLeave cpu then some (c.endCurrent cpu) else none
  | .kill ids => some (c.killTasks ids)
  | .spawn priority => c.spawn priority
  | .spawnOn cpu' => if c.online cpu' then c.spawnOn cpu' else none
  | .initAp => c.initAp cpu
  | .reapDead => if c.settled cpu then some (c.reapDead cpu) else none
  | .spawnUser => c.spawnUser
  | .forkBegin => if c.settled cpu then some (c.forkBegin cpu) else none
  | .forkCurrent => if c.settled cpu then c.forkCurrent cpu else none
  -- `exec_current` changes the user context and the address space of its task only
  | .execCurrent => some c
  | .takeId => some { c with scheduler.nextTaskId := (c.scheduler.nextTaskId + 1) % 2 ^ 64 }
  | .grant target capability => c.grant cpu target capability
  | .revoke target capability => c.revoke cpu target capability
  | .switchStacks => some (c.switchStacks cpu)

/-- A CPU that is not up only starts. -/
def step (c : Cpus) (l : ℕ × Op) : Option Cpus :=
  if c.online l.1 = (l.2 != .initAp) then c.perform l.1 l.2 else none

/-- A run from boot. A step that is not possible is skipped. -/
def run (ops : List (ℕ × Op)) : Cpus :=
  ops.foldl (fun c l => (step c l).getD c) boot

end Cpus

end WovenHat.Task
