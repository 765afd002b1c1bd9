import WovenHat.Model.Pipes

/-! # Tasks that block on pipes

`pipe::read` and `pipe::write` of `pipe.rs` with the tasks that run them. A call goes on until
it returns or blocks; a blocked task continues its loop some time after `wake_task`. The pipe
ends of a process are those of its file table. -/

namespace WovenHat.Pipes

open Function

/-- Where a task is. In the loop of `pipe::read` or `pipe::write` it is `Blocked`, or ready to
continue; `room` is the size of the reader's buffer, `rest` what is still to be written. -/
inductive Status where
  | idle
  | reading (id : Fin maxPipes) (room : ℕ) (blocked : Bool)
  | writing (id : Fin maxPipes) (rest : List UInt8) (blocked : Bool)
  | dead
  deriving DecidableEq

/-- `wake_task` for the state of a task. -/
def Status.wake : Status → Status
  | .reading id room _ => .reading id room false
  | .writing id rest _ => .writing id rest false
  | status => status

/-- The variants of `FdKind` for pipes. -/
inductive PipeEnd where
  | pipeRead (id : Fin maxPipes)
  | pipeWrite (id : Fin maxPipes)
  deriving DecidableEq

namespace Table

/-- `push_waiter` on the read waiters of a pipe. -/
def pushReader (t : Table) (id : Fin maxPipes) (task : TaskId) : Table :=
  t.set id { t.pipes id with readWaiters := pushWaiter (t.pipes id).readWaiters task }

/-- `push_waiter` on the write waiters of a pipe. -/
def pushWriter (t : Table) (id : Fin maxPipes) (task : TaskId) : Table :=
  t.set id { t.pipes id with writeWaiters := pushWaiter (t.pipes id).writeWaiters task }

/-- `take_waiters` on the read waiters of a pipe. -/
def takeReaders (t : Table) (id : Fin maxPipes) : List TaskId × Table :=
  (listed (t.pipes id).readWaiters, t.set id { t.pipes id with readWaiters := noWaiters })

/-- `take_waiters` on the write waiters of a pipe. -/
def takeWriters (t : Table) (id : Fin maxPipes) : List TaskId × Table :=
  (listed (t.pipes id).writeWaiters, t.set id { t.pipes id with writeWaiters := noWaiters })

/-- `still_block` in `read`. -/
def stillBlockRead (t : Table) (id : Fin maxPipes) : Bool :=
  (t.pipes id).occupied && decide ((t.pipes id).len = 0) && decide (0 < (t.pipes id).writers)

/-- `still_block` in `write`. -/
def stillBlockWrite (t : Table) (id : Fin maxPipes) : Bool :=
  (t.pipes id).occupied && decide (0 < (t.pipes id).readers) &&
    decide (pipeBuffer ≤ (t.pipes id).len)

end Table

/-- The pipes, the tasks, and the pipe ends in their file tables. -/
structure System where
  table : Table
  status : TaskId → Status
  files : TaskId → List PipeEnd

namespace System

def new : System where
  table := .new
  status := fun _ => .idle
  files := fun _ => []

variable (s : System)

def enter (task : TaskId) (status : Status) : System :=
  { s with status := update s.status task status }

def wakeList (ids : List TaskId) : System :=
  { s with status := fun task => if task ∈ ids then (s.status task).wake else s.status task }

/-- A round of the loop of `pipe::read`. A task that need not block after all is left ready for
its next round. -/
def readRound (task : TaskId) (id : Fin maxPipes) (room : ℕ) : System :=
  match s.table.tryRead id room with
  | (.error _, table) => { s with table := table }.enter task .idle
  | (.ok (bytes, block, eof), table) =>
    let table := if block then table.pushReader id task else table
    if bytes ≠ [] then
      let (waiters, table) := table.takeWriters id
      ({ s with table := table }.wakeList waiters).enter task .idle
    else if eof then { s with table := table }.enter task .idle
    else if block then
      { s with table := table }.enter task (.reading id room (table.stillBlockRead id))
    else { s with table := table }.enter task .idle

/-- The loop of `pipe::write`, with the bytes not yet written. A round that writes something
shortens them, so as many rounds as bytes are enough. -/
def writeLoop (task : TaskId) (id : Fin maxPipes) : ℕ → System → List UInt8 → System
  | 0, s, _ => s.enter task .idle
  | rounds + 1, s, rest =>
    match s.table.tryWrite id rest with
    | (.error _, table) => { s with table := table }.enter task .idle
    | (.ok (written, block), table) =>
      let table := if block then table.pushWriter id task else table
      let s :=
        if 0 < written then
          let (waiters, table) := table.takeReaders id
          { s with table := table }.wakeList waiters
        else { s with table := table }
      let rest := rest.drop written
      if rest = [] then s.enter task .idle
      else if block then s.enter task (.writing id rest (s.table.stillBlockWrite id))
      else if written = 0 then s.enter task .idle
      else writeLoop task id rounds s rest

def releaseFd : PipeEnd → System
  | .pipeRead id =>
    let (waiters, table) := s.table.closeReader id
    { s with table := table }.wakeList waiters
  | .pipeWrite id =>
    let (waiters, table) := s.table.closeWriter id
    { s with table := table }.wakeList waiters

def releaseFileTable (ends : List PipeEnd) : System :=
  ends.foldl releaseFd s

/-- `clone_reader` or `clone_writer`. -/
def cloneEnd (t : Table) : PipeEnd → Except Error Unit × Table
  | .pipeRead id => t.cloneReader id
  | .pipeWrite id => t.cloneWriter id

/-- The end of `kill_process`: the tasks are marked, wherever they are. -/
def markDead (targets : List TaskId) : System :=
  { s with
    status := fun task => if task ∈ targets then .dead else s.status task
    files := fun task => if task ∈ targets then [] else s.files task }

inductive Call where
  | pipe (task : TaskId)
  | dup (task : TaskId) (fd : PipeEnd)
  | fork (task child : TaskId)
  | close (task : TaskId) (fd : PipeEnd)
  | read (task : TaskId) (id : Fin maxPipes) (room : ℕ)
  | write (task : TaskId) (id : Fin maxPipes) (buf : List UInt8)
  | resume (task : TaskId)
  | kill (targets : List TaskId)

/-- `pipe_current`, for a task whose file table has room for both ends. -/
def pipeCurrent (task : TaskId) : System :=
  match s.table.alloc with
  | (.error _, table) => { s with table := table }
  | (.ok id, table) =>
    match Table.slot? id with
    | none => { s with table := table }
    | some id =>
      { s with
        table := table
        files := update s.files task (.pipeRead id :: .pipeWrite id :: s.files task) }

/-- `dup_current`, for a task whose file table has room. -/
def dupCurrent (task : TaskId) (fd : PipeEnd) : System :=
  match cloneEnd s.table fd with
  | (.error _, table) => { s with table := table }
  | (.ok _, table) =>
    { s with table := table, files := update s.files task (fd :: s.files task) }

/-- `clone_file_table`, with the ends that the child has so far. -/
def cloneFileTable (s : System) : List PipeEnd → List PipeEnd → Option (List PipeEnd) × System
  | [], child => (some child, s)
  | fd :: ends, child =>
    match cloneEnd s.table fd with
    | (.error _, table) => (none, { s with table := table }.releaseFileTable child)
    | (.ok _, table) => cloneFileTable { s with table := table } ends (child ++ [fd])

/-- `fork_current`, as far as the pipe ends go. -/
def forkCurrent (task child : TaskId) : System :=
  match s.cloneFileTable (s.files task) [] with
  | (none, s') => s'
  | (some ends, s') => { s' with files := update s'.files child ends }

/-- `kill_process`: every process loses its files before its task is marked. -/
def killProcess (targets : List TaskId) : System :=
  (s.releaseFileTable (targets.dedup.flatMap s.files)).markDead targets

/-- A call, up to the point where it returns or blocks; a woken task goes on with its loop. -/
def step : Call → Option System
  | .pipe task => if s.status task = .idle then some (s.pipeCurrent task) else none
  | .dup task fd =>
    if s.status task = .idle ∧ fd ∈ s.files task then some (s.dupCurrent task fd) else none
  | .fork task child =>
    -- the child is a task that has not run before
    if s.status task = .idle ∧ s.status child = .idle ∧ s.files child = [] ∧ task ≠ child then
      some (s.forkCurrent task child)
    else none
  | .close task fd =>
    if s.status task = .idle ∧ fd ∈ s.files task then
      some (releaseFd
        { s with files := update s.files task ((s.files task).erase fd) } fd)
    else none
  | .read task id room =>
    if s.status task = .idle ∧ .pipeRead id ∈ s.files task then
      some (if room = 0 then s else s.readRound task id room)
    else none
  | .write task id buf =>
    if s.status task = .idle ∧ .pipeWrite id ∈ s.files task then
      some (if buf = [] then s else writeLoop task id buf.length s buf)
    else none
  | .resume task =>
    match s.status task with
    | .reading id room false => some (s.readRound task id room)
    | .writing id rest false => some (writeLoop task id rest.length s rest)
    | _ => none
  | .kill targets => some (s.killProcess targets)

end System

end WovenHat.Pipes
