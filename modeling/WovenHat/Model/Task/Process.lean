import WovenHat.Model.Task.Scheduler

/-! # Processes

The process table of `task.rs` next to the scheduler, and the calls that create and end
tasks and processes. Calls into other subsystems that may fail (the address space of a
fork, an IPC endpoint, a copy of the file table) are parameters. File tables, working
directories, environments and credentials are left out. -/

namespace WovenHat.Task

open Function

namespace System

def maxProcesses : ℕ := 32

abbrev ProcessSlot := Fin maxProcesses

inductive ProcessState where
  | ready
  | exited
  deriving DecidableEq, Repr

/-- `Process`. The address space is a handle. -/
structure Process where
  id : ℕ
  taskId : ℕ
  state : ProcessState
  parent : ℕ
  exitCode : ℤ
  addressSpace : Option ℕ
  pendingSignal : ℕ
  processGroup : ℕ
  signalActions : ℕ → ℕ

end System

/-- The scheduler and the process table, with the counter `NEXT_PROCESS_ID` and the CPUs
that have been started. -/
structure System where
  scheduler : Scheduler
  processes : System.ProcessSlot → Option System.Process
  nextProcessId : ℕ
  online : ℕ → Bool

namespace System

/-- After `task::init`. -/
def boot : System where
  scheduler := .initialized
  processes _ := none
  nextProcessId := 1
  online cpu := cpu == 0

variable (s : System)

/-- The first process with a property, as `iter().flatten().find` finds it. -/
def findProcess (test : Process → Bool) : Option ProcessSlot :=
  (List.finRange maxProcesses).find? fun i => (s.processes i).any test

def processOf (taskId : ℕ) : Option ProcessSlot :=
  s.findProcess (·.taskId == taskId)

def freeProcess : Option ProcessSlot :=
  (List.finRange maxProcesses).find? fun i => (s.processes i).isNone

def freeTask : Option Slot :=
  (List.finRange maxTasks).find? fun slot => (s.scheduler.tasks slot).state == .empty

def setProcess (i : ProcessSlot) (p : Option Process) : System :=
  { s with processes := update s.processes i p }

/-- `current_process_id`: a task without a process uses its task id. -/
def currentProcessId (cpu : ℕ) : ℕ :=
  let taskId := (s.scheduler.current cpu).id
  match s.processOf taskId with
  | some i => ((s.processes i).map Process.id).getD taskId
  | none => taskId

/-- `Scheduler::reap_dead` of the calling CPU. -/
def reapDead (s : System) (cpu : ℕ) : System :=
  { s with scheduler := s.scheduler.reapDead cpu }

/-- Count a new task and write its block over an empty one. -/
def placeTask (slot : Slot) (id : ℕ) : System :=
  { s with
    scheduler :=
      { s.scheduler.setTask slot
          { s.scheduler.tasks slot with
            id, state := .ready, priority := .normal, wakeTick := 0,
            remainingTicks := TaskPriority.normal.quantum } with
        taskCount := s.scheduler.taskCount + 1 } }

/-- `NEXT_TASK_ID.fetch_add` and `NEXT_PROCESS_ID.fetch_add`. -/
def takeIds : System :=
  { s with
    scheduler := { s.scheduler with nextTaskId := s.scheduler.nextTaskId + 1 }
    nextProcessId := s.nextProcessId + 1 }

/-- The process that `create_process` makes. -/
def createProcess (parent addressSpace : ℕ) : Process where
  id := s.nextProcessId
  taskId := s.scheduler.nextTaskId
  state := .ready
  parent := parent
  exitCode := 0
  addressSpace := some addressSpace
  pendingSignal := 0
  processGroup :=
    match s.findProcess (·.id == parent) with
    | some i => ((s.processes i).map Process.processGroup).getD s.nextProcessId
    | none => s.nextProcessId
  signalActions _ := 0

/-- The process that `fork_current` makes. -/
def forkProcess (parent : Process) (addressSpace : ℕ) : Process :=
  { parent with
    id := s.nextProcessId
    taskId := s.scheduler.nextTaskId
    state := .ready
    parent := parent.id
    exitCode := 0
    addressSpace := some addressSpace
    pendingSignal := 0 }

/-- `spawn_user_process` of a valid program. The ids are taken before the process table and
the IPC registration are tried. -/
def spawnUserProcess (cpu addressSpace : ℕ) (registered : Bool) : System :=
  let parent := s.currentProcessId cpu
  let s := s.reapDead cpu
  match s.freeTask with
  | none => s
  | some taskSlot =>
    let process := s.createProcess parent addressSpace
    match s.freeProcess with
    | some i =>
      if registered then
        (s.takeIds.placeTask taskSlot process.taskId).setProcess i (some process)
      else s.takeIds
    | none => s.takeIds

/-- `fork_current`. The ids are taken only when both tables have room. -/
def forkCurrent (cpu addressSpace : ℕ) (cloned registered : Bool) : System :=
  match (s.processOf (s.scheduler.current cpu).id).bind s.processes with
  | none => s
  | some parent =>
    if parent.addressSpace.isNone ∨ cloned = false then s
    else
      let s := s.reapDead cpu
      match s.freeTask, s.freeProcess with
      | some taskSlot, some i =>
        let process := s.forkProcess parent addressSpace
        if registered then
          (s.takeIds.placeTask taskSlot process.taskId).setProcess i (some process)
        else s.takeIds
      | _, _ => s

def killCurrentTask (cpu : ℕ) : System :=
  { s with scheduler := s.scheduler.endCurrent cpu }

def prepareSwitch (s : System) (cpu : ℕ) : System :=
  { s with scheduler := (s.scheduler.prepareSwitch cpu).2 }

/-- `exit_current_process`. Without an address space to release the task is not switched
away from. -/
def exitCurrentProcess (cpu : ℕ) (exitCode : ℤ) : System :=
  match s.processOf (s.scheduler.current cpu).id with
  | none => s.killCurrentTask cpu
  | some i =>
    match s.processes i with
    | none => s.killCurrentTask cpu
    | some p =>
      let exited := (s.setProcess i
        (some { p with state := .exited, exitCode, addressSpace := none })).killCurrentTask cpu
      if p.addressSpace.isSome then exited.prepareSwitch cpu else exited

/-- The processes that a signal is sent to. -/
def selected (cpu pid : ℕ) (p : Process) : Bool :=
  let currentPid := s.currentProcessId cpu
  let currentGroup :=
    match s.findProcess (·.id == currentPid) with
    | some i => ((s.processes i).map Process.processGroup).getD currentPid
    | none => currentPid
  if pid = 0 then p.processGroup == currentGroup
  else if 2 ^ 63 ≤ pid then p.processGroup == 2 ^ 64 - pid
  else p.id == pid

/-- Whether a signal ends a process, by its default action. -/
def terminates (sig : ℕ) (p : Process) : Bool :=
  sig ≠ 0 && p.signalActions sig ≠ 1 && !(p.signalActions sig > 1 && sig ≠ 9) &&
    (sig == 9 || sig == 15 || sig == 2) && p.state ≠ .exited

/-- What `kill_process` does with a selected process. -/
def signalProcess (sig : ℕ) (p : Process) : Process :=
  if sig = 0 ∨ p.signalActions sig = 1 then p
  else if terminates sig p then
    { p with pendingSignal := sig, state := .exited, exitCode := 128 + sig }
  else { p with pendingSignal := sig }

/-- The processes that `kill_process` ends. -/
def killed (cpu pid sig : ℕ) (i : ProcessSlot) : Bool :=
  (s.processes i).any fun p => s.selected cpu pid p && terminates sig p

/-- The task is that of a process that `kill_process` ends. -/
def killsTask (cpu pid sig id : ℕ) : Bool :=
  (List.finRange maxProcesses).any fun i =>
    s.killed cpu pid sig i && (s.processes i).any fun p => p.taskId == id

def killProcess (cpu pid sig : ℕ) : System :=
  if sig > 31 then s
  else
    { s with
      processes := fun i => (s.processes i).map fun p =>
        if s.selected cpu pid p then signalProcess sig p else p
      scheduler := s.scheduler.killTasks (s.killsTask cpu pid sig) }

def waitProcess (cpu child : ℕ) : System :=
  let parent := s.currentProcessId cpu
  match s.findProcess fun p => p.id == child && p.parent == parent with
  | none => s
  | some i =>
    if (s.processes i).any (·.state == .exited) then s.setProcess i none else s

def sigactionCurrent (cpu sig handler : ℕ) : System :=
  if sig = 0 ∨ sig > 31 ∨ sig = 9 then s
  else
    match s.processOf (s.scheduler.current cpu).id with
    | none => s
    | some i => s.setProcess i ((s.processes i).map fun p =>
      { p with signalActions := update p.signalActions sig handler })

def setProcessGroup (cpu pid pgid : ℕ) : System :=
  let caller := s.currentProcessId cpu
  let target := if pid = 0 then caller else pid
  let group := if pgid = 0 then target else pgid
  match s.findProcess (·.id == target) with
  | none => s
  | some i =>
    if target ≠ caller ∧ ¬(s.processes i).any (·.parent == caller) then s
    else s.setProcess i ((s.processes i).map fun p => { p with processGroup := group })

def initAp (cpu : ℕ) : Option System :=
  match s.freeTask with
  | none => none
  | some slot =>
    some { s with
      online := update s.online cpu true
      scheduler :=
        { s.scheduler.setTask slot
            { s.scheduler.tasks slot with
              id := s.scheduler.nextTaskId, state := .running, priority := .low,
              wakeTick := 0, remainingTicks := TaskPriority.low.quantum, cpu } with
          currentSlot := update s.scheduler.currentSlot cpu slot
          taskCount := s.scheduler.taskCount + 1
          nextTaskId := s.scheduler.nextTaskId + 1 } }

def spawnOn (s : System) (cpu : ℕ) (priority : TaskPriority) : System :=
  match s.freeTask with
  | none => s
  | some slot =>
    { s with
      scheduler :=
        { s.scheduler.setTask slot
            { s.scheduler.tasks slot with
              id := s.scheduler.nextTaskId, state := .ready, priority, wakeTick := 0,
              remainingTicks := priority.quantum, cpu } with
          taskCount := s.scheduler.taskCount + 1
          nextTaskId := s.scheduler.nextTaskId + 1 } }

/-! ## Signals -/

/-- `take_pending_signal_current`, for the process of the caller. -/
def Process.takePendingSignal (p : Process) : Option (ℕ × ℕ) × Process :=
  let sig := p.pendingSignal
  if sig = 0 ∨ sig > 31 ∨ p.signalActions sig ≤ 1 then (none, p)
  else (some (sig, p.signalActions sig), { p with pendingSignal := 0 })

/-- The registers of `UserForkFrame` that a delivery changes. -/
structure UserFrame where
  rip : ℕ
  rsp : ℕ
  rdi : ℕ

/-- `prepare_signal_delivery` of `syscall.rs`: the frame with which a handler is entered. The
copy of the return address to the stack may fail. -/
def Process.prepareSignalDelivery (p : Process) (frame : Option UserFrame) (copied : Bool) :
    Option UserFrame × Process :=
  match p.takePendingSignal with
  | (none, p) => (none, p)
  | (some (sig, handler), p) =>
    match frame with
    | none => (none, p)
    | some frame =>
      if frame.rsp < 8 ∨ !copied then (none, p) else (some ⟨handler, frame.rsp - 8, sig⟩, p)

/-- `prepare_signal_delivery` of the process that runs on a CPU. -/
def prepareSignalDelivery (cpu : ℕ) (frame : Option UserFrame) (copied : Bool) :
    Option UserFrame × System :=
  match s.processOf (s.scheduler.current cpu).id with
  | none => (none, s)
  | some i =>
    match s.processes i with
    | none => (none, s)
    | some p =>
      let (entered, p) := p.prepareSignalDelivery frame copied
      (entered, s.setProcess i (some p))

/-! ## Steps -/

/-- What the task that runs on a CPU, or an interrupt on it, can do. -/
inductive Op where
  | yieldNow
  | tick (now : ℕ)
  | preempt (now : ℕ)
  | blockCurrent
  | sleepCurrent (now ticks : ℕ)
  | wakeTask (id : ℕ)
  | exitTask
  | spawn (priority : TaskPriority)
  | spawnOn (cpu : ℕ)
  | initAp (cpu : ℕ)
  | spawnUser (addressSpace : ℕ) (registered : Bool)
  | fork (addressSpace : ℕ) (cloned registered : Bool)
  | exitProcess (exitCode : ℤ)
  | kill (pid sig : ℕ)
  | wait (child : ℕ)
  | sigaction (sig handler : ℕ)
  | setGroup (pid pgid : ℕ)
  | syscallReturn (frame : Option UserFrame) (copied : Bool)

/-- The running task is the kernel task, for which some calls have assertions. -/
def kernelRuns (s : System) (cpu : ℕ) : Prop :=
  (s.scheduler.current cpu).id = kernelTaskId

instance (s : System) (cpu : ℕ) : Decidable (s.kernelRuns cpu) :=
  inferInstanceAs (Decidable (_ = _))

def schedule (r : Bool × Scheduler) : System :=
  { s with scheduler := r.2 }

/-- One step of an online CPU. The kernel task fails the assertions of some calls. Only
kernel tasks call `exit_current_task`. Task ids are taken not to run out. -/
def step : ℕ × Op → Option System
  | (cpu, op) =>
    if s.online cpu = false ∨ 2 ^ 64 - 2 ≤ s.scheduler.nextTaskId then none
    else
      match op with
      | .yieldNow => some (s.prepareSwitch cpu)
      | .tick now => some (s.schedule (s.scheduler.tick cpu now))
      | .preempt now =>
        some (s.schedule ((s.scheduler.wakeSleeping now).prepareSwitch cpu))
      | .blockCurrent =>
        if s.kernelRuns cpu then none else some (s.schedule (s.scheduler.blockCurrent cpu))
      | .sleepCurrent now ticks =>
        if s.kernelRuns cpu then none
        else some (s.schedule (s.scheduler.sleepCurrent cpu now ticks))
      | .wakeTask id => some (s.schedule (s.scheduler.wakeTask id))
      | .exitTask =>
        if s.kernelRuns cpu ∨ (s.processOf (s.scheduler.current cpu).id).isSome then none
        else some (s.schedule (s.scheduler.exitCurrent cpu))
      | .spawn priority =>
        some { s with scheduler := (s.scheduler.spawn priority).2 }
      | .spawnOn cpu' =>
        if s.online cpu' then some (s.spawnOn cpu' .normal) else none
      | .initAp cpu' => if s.online cpu' then none else s.initAp cpu'
      | .spawnUser addressSpace registered =>
        some (s.spawnUserProcess cpu addressSpace registered)
      | .fork addressSpace cloned registered =>
        some (s.forkCurrent cpu addressSpace cloned registered)
      | .exitProcess exitCode =>
        if s.kernelRuns cpu then none else some (s.exitCurrentProcess cpu exitCode)
      | .kill pid sig => some (s.killProcess cpu pid sig)
      | .wait child => some (s.waitProcess cpu child)
      | .sigaction sig handler => some (s.sigactionCurrent cpu sig handler)
      | .setGroup pid pgid => some (s.setProcessGroup cpu pid pgid)
      | .syscallReturn frame copied => some (s.prepareSignalDelivery cpu frame copied).2

end System

end WovenHat.Task
