import WovenHat.Model.Task.KernelCode

/-! # The boot CPU

The tasks of the boot CPU, each with the rest of its kernel code, and the state that
decides when one of them is switched away from: the interrupt flag, `FILE_IO_DEPTH`, the
preemption request and the block-I/O worker. Tasks pinned to other CPUs are left out. -/

namespace WovenHat.Task

open Function

/-- What a task still has to do. -/
inductive Item where
  | run (code : Code)
  | unlock (lock : Lock)
  | endFileIo (enabled : Bool)
  | restoreInterrupts (enabled : Bool)
  | awaitResult
  deriving DecidableEq, Repr

/-- The state of the boot CPU. -/
structure Machine where
  scheduler : Scheduler
  interrupts : Bool
  fileIoDepth : ℕ
  preemptionRequested : Bool
  ticks : ℕ
  worker : Option ℕ
  inWorker : Bool
  owner : Lock → Option Slot
  code : Slot → List Item

namespace Machine

/-- After `task::init`: the kernel task runs, no lock is held. The idle task starts in
`task_bootstrap`, which enables interrupts. -/
def boot : Machine where
  scheduler := .initialized
  interrupts := true
  fileIoDepth := 0
  preemptionRequested := false
  ticks := 0
  worker := none
  inWorker := false
  owner _ := none
  code slot := if slot.val = 1 then [.restoreInterrupts true] else []

variable (m : Machine)

def current : Slot :=
  m.scheduler.currentSlot 0

def setCode (rest : List Item) : Machine :=
  { m with code := update m.code m.current rest }

/-- Leave the running task: `yield_now`, `sleep_current` and `block_current` disable
interrupts, switch, and restore the flag when the task runs again. -/
def switchAway (rest : List Item) (scheduler : Scheduler) : Machine :=
  { m.setCode (.restoreInterrupts m.interrupts :: rest) with interrupts := false, scheduler }

def yieldNow (rest : List Item) : Machine :=
  m.switchAway rest (m.scheduler.prepareSwitch 0).2

/-- `should_queue` of `block_io.rs`. -/
def shouldQueue : Bool :=
  !m.inWorker && m.interrupts && m.scheduler.taskCount != 0 &&
    (m.scheduler.current 0).id != 0 &&
    m.worker.any (· != (m.scheduler.current 0).id)

/-- `wake_task` of the worker, in `submit`. -/
def wakeWorker : Machine :=
  match m.worker with
  | none => m
  | some id => { m with scheduler := (m.scheduler.wakeTask id).2 }

/-- Run one construct of the running task's code. `choice` settles what depends on data:
a branch, one more round of a loop, room in the request queue. A lock that is held spins:
no step. The assertions of `sleep_current` and `block_current` stop the kernel task. -/
def execCode (choice : Bool) (rest : List Item) : Code → Option Machine
  | .skip => some (m.setCode rest)
  | .seq first second => some (m.setCode (.run first :: .run second :: rest))
  | .choose left right => some (m.setCode (.run (if choice then left else right) :: rest))
  | .loop body =>
    some (m.setCode (if choice then .run body :: .run (.loop body) :: rest else rest))
  | .withLock lock body =>
    match m.owner lock with
    | some _ => none
    | none =>
      some { m.setCode (.run body :: .unlock lock :: rest) with
        owner := update m.owner lock (some m.current) }
  | .fileFaultIo body =>
    some { m.setCode (.run body :: .endFileIo m.interrupts :: rest) with
      fileIoDepth := m.fileIoDepth + 1
      interrupts := m.scheduler.taskCount != 0 }
  | .submit =>
    if m.shouldQueue then
      if choice then some (m.wakeWorker.setCode (.awaitResult :: rest))
      else some (m.setCode rest)
    else some (m.setCode (.run .withPrimaryMaster :: rest))
  | .setInWorker value => some { m.setCode rest with inWorker := value }
  | .yieldNow => some (m.yieldNow rest)
  | .sleepCurrent ticks =>
    if (m.scheduler.current 0).id = kernelTaskId then none
    else some (m.switchAway rest (m.scheduler.sleepCurrent 0 m.ticks ticks).2)
  | .blockCurrent =>
    if (m.scheduler.current 0).id = kernelTaskId then none
    else some (m.switchAway rest (m.scheduler.blockCurrent 0).2)
  | .clearPreemption => some { m.setCode rest with preemptionRequested := false }

/-- Run one item of the running task. While a request is not complete,
`wait_for_completion` yields and looks again. -/
def exec (choice : Bool) : Option Machine :=
  match m.code m.current with
  | [] => none
  | .run code :: rest => m.execCode choice rest code
  | .unlock lock :: rest =>
    some { m.setCode rest with owner := update m.owner lock none }
  | .endFileIo enabled :: rest =>
    some { m.setCode rest with fileIoDepth := m.fileIoDepth - 1, interrupts := enabled }
  | .restoreInterrupts enabled :: rest => some { m.setCode rest with interrupts := enabled }
  | .awaitResult :: rest =>
    some (if choice then m.setCode rest else m.yieldNow (.awaitResult :: rest))

def preemptFromInterrupt : Machine :=
  if m.fileIoDepth ≠ 0 then m
  else if m.preemptionRequested = false then m
  else
    let switch := (m.scheduler.wakeSleeping m.ticks).prepareSwitch 0
    if switch.1 then
      { m.setCode (.restoreInterrupts true :: m.code m.current) with
        interrupts := false, preemptionRequested := false, scheduler := switch.2 }
    else { m with preemptionRequested := false, scheduler := switch.2 }

/-- `timer_interrupt_handler`, which runs only while interrupts are enabled. -/
def timer : Option Machine :=
  if m.interrupts = false then none
  else
    let ticked := m.scheduler.tick 0 (m.ticks + 1)
    some { m with
      ticks := m.ticks + 1
      scheduler := ticked.2
      preemptionRequested := m.preemptionRequested || ticked.1 }.preemptFromInterrupt

/-- Add a task. `reap` is `spawn_user_process`, which reaps dead tasks first. A new task
starts in `task_bootstrap`. -/
def spawn (m : Machine) (reap : Bool) (priority : TaskPriority) : Option ℕ × Machine :=
  let scheduler := if reap then m.scheduler.reapDead 0 else m.scheduler
  match scheduler.spawn priority with
  | (none, s) => (none, { m with scheduler := s })
  | (some (slot, id), s) =>
    (some id, { m with
      scheduler := s
      code := update m.code slot [.restoreInterrupts true] })

def startWorker : Machine :=
  if m.worker.isSome then m
  else
    match m.spawn false .normal with
    | (none, m) => m
    | (some id, m) => { m with worker := some id }

/-- The running task is between kernel calls. -/
def AtTop (m : Machine) : Prop :=
  m.code m.current = [] ∧ (m.scheduler.current 0).state = .running

instance (m : Machine) : Decidable m.AtTop :=
  inferInstanceAs (Decidable (_ ∧ _))

inductive Action where
  | exec (choice : Bool)
  | timer
  | call (calls : List KernelCall)
  | syscall (calls : List KernelCall)
  | spawn (reap : Bool) (priority : TaskPriority)
  | startWorker
  | exit
  | kill (ids : List ℕ)
  deriving DecidableEq, Repr

/-- One step of the boot CPU. A task between kernel calls starts more of them, with
interrupts as they are or, through the interrupt gate of a system call, disabled. The files that
`kill_process` closes are calls before `kill`. -/
def step : Action → Option Machine
  | .exec choice => m.exec choice
  | .timer => m.timer
  | .call calls =>
    if m.AtTop then
      some (m.setCode (calls.map fun call => .run call.code))
    else none
  | .syscall calls =>
    if m.AtTop then
      some { m.setCode (calls.map (fun call => .run call.code) ++
          [.restoreInterrupts m.interrupts]) with interrupts := false }
    else none
  | .spawn reap priority =>
    if m.AtTop then some (m.spawn reap priority).2 else none
  | .startWorker => if m.AtTop then some m.startWorker else none
  | .exit =>
    if m.AtTop ∧ (m.scheduler.current 0).id ≠ kernelTaskId then
      some { m with interrupts := false, scheduler := (m.scheduler.exitCurrent 0).2 }
    else none
  | .kill ids =>
    if m.AtTop then some { m with scheduler := m.scheduler.killTasks ids.contains } else none

def steps (actions : List Action) : Option Machine :=
  actions.foldlM step m

/-- No task that holds one of the locks has been switched away from. -/
def HoldersRun : Prop :=
  ∀ lock slot, m.owner lock = some slot → slot = m.current

def Holding : Prop :=
  ∃ lock, m.owner lock = some m.current

/-- The discipline under which holders keep running: a lock is taken only while the timer
cannot preempt, and a request made under a lock goes to the device directly. -/
def Disciplined (action : Action) : Prop :=
  match action, m.code m.current with
  | .exec _, .run (.withLock _ _) :: _ => m.interrupts = false ∨ m.fileIoDepth ≠ 0
  | .exec _, .run .submit :: _ => m.Holding → m.shouldQueue = false
  | _, _ => True

end Machine

end WovenHat.Task
