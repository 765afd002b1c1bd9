import WovenHat.Model.Task.Process

/-! # What terminated processes give back

The resources that a process holds in the subsystems of the kernel, the operations that change
them, and the three functions of `task.rs` that end and reap processes. The counts of the
subsystems are one table: the ownership count of a frame, the reference count of an open file
and of a swap slot, whether a slot of the block-I/O queue is taken, and `FILE_IO_DEPTH`. A
process that waits for the completion of a request or is inside `file_fault_io` holds the slot
and the depth until it runs again. -/

namespace WovenHat.Teardown

open Function
open Task.System (maxProcesses ProcessSlot)

def maxUserSockets : ℕ := 16

inductive Resource where
  | frame (frame : ℕ)
  | file (id : ℕ)
  | swap (slot : ℕ)
  | request (slot : ℕ)
  | ioDepth
  deriving DecidableEq, Repr

/-- `AnonymousMapping`: the frames of its resident pages, its backing file and the slots of the
pages that are swapped out. -/
structure Mapping where
  pages : List ℕ
  file : Option ℕ
  swapSlots : List ℕ
  deriving DecidableEq, Repr

def Mapping.resources (m : Mapping) : List Resource :=
  m.pages.map .frame ++ m.file.toList.map .file ++ m.swapSlots.map .swap

/-- `Process`. The frames of the stack and the segments stand for the address space; `request`
and `guards` tell where in the kernel the process is. -/
structure Process where
  id : ℕ
  parent : ℕ
  exited : Bool
  files : List ℕ
  space : Option (List ℕ)
  mappings : List Mapping
  request : Option ℕ
  guards : ℕ
  deriving DecidableEq, Repr

/-- The operations of a running process that change what it holds. -/
inductive Action where
  | openFile (id : ℕ)
  | closeFile (id : ℕ)
  | mapAnonymous (frames : List ℕ)
  | mapFile (id : ℕ)
  | populate (mapping : Mapping) (frame : ℕ) (swapped : Option ℕ)
  | evict (mapping : Mapping) (frame : ℕ) (swapped : Option ℕ)
  | unmap (mapping : Mapping)
  | copyPage (frame copy : ℕ)
  | exec (space : List ℕ)
  | submit (slot : ℕ)
  | takeResult
  | enterFileIo
  | leaveFileIo

/-- What an operation does: the process afterwards, and what was taken and given back. -/
structure Change where
  process : Process
  taken : List Resource
  given : List Resource

namespace Process

variable (p : Process)

def mapped : List Resource :=
  p.mappings.flatMap (·.resources)

/-- What a process holds besides its open files. The last two are held by the place in the
kernel where it is. -/
def elsewhere : List Resource :=
  (p.space.getD []).map .frame ++ p.mapped ++ p.request.toList.map .request ++
    List.replicate p.guards .ioDepth

def resources : List Resource :=
  p.files.map .file ++ p.elsewhere

def replaceMapping (old new : Mapping) : Process :=
  { p with mappings := new :: p.mappings.erase old }

/-- A page of a mapping that is copied on a write is evicted and populated again. -/
def act : Action → Option Change
  | .openFile id => some ⟨{ p with files := id :: p.files }, [.file id], []⟩
  | .closeFile id =>
    if id ∈ p.files then some ⟨{ p with files := p.files.erase id }, [], [.file id]⟩ else none
  | .mapAnonymous frames =>
    some ⟨{ p with mappings := ⟨frames, none, []⟩ :: p.mappings }, frames.map .frame, []⟩
  | .mapFile id =>
    some ⟨{ p with mappings := ⟨[], some id, []⟩ :: p.mappings }, [.file id], []⟩
  | .populate m frame swapped =>
    if m ∈ p.mappings ∧ ∀ slot ∈ swapped, slot ∈ m.swapSlots then
      some ⟨p.replaceMapping m ⟨frame :: m.pages, m.file, m.swapSlots.diff swapped.toList⟩,
        [.frame frame], swapped.toList.map .swap⟩
    else none
  | .evict m frame swapped =>
    if m ∈ p.mappings ∧ frame ∈ m.pages then
      some ⟨p.replaceMapping m ⟨m.pages.erase frame, m.file, swapped.toList ++ m.swapSlots⟩,
        swapped.toList.map .swap, [.frame frame]⟩
    else none
  | .unmap m =>
    if m ∈ p.mappings then some ⟨{ p with mappings := p.mappings.erase m }, [], m.resources⟩
    else none
  | .copyPage frame copy =>
    match p.space with
    | none => none
    | some space =>
      if frame ∈ space then
        some ⟨{ p with space := some (copy :: space.erase frame) }, [.frame copy], [.frame frame]⟩
      else none
  | .exec space =>
    match p.space with
    | none => none
    | some old =>
      some ⟨{ p with space := some space, mappings := [] }, space.map .frame,
        p.mapped ++ old.map .frame⟩
  | .submit slot =>
    if p.request = none then some ⟨{ p with request := some slot }, [.request slot], []⟩ else none
  | .takeResult =>
    match p.request with
    | none => none
    | some slot => some ⟨{ p with request := none }, [], [.request slot]⟩
  | .enterFileIo => some ⟨{ p with guards := p.guards + 1 }, [.ioDepth], []⟩
  | .leaveFileIo =>
    if p.guards = 0 then none else some ⟨{ p with guards := p.guards - 1 }, [], [.ioDepth]⟩

end Process

/-- The process table and the books of the subsystems. -/
structure Kernel where
  processes : ProcessSlot → Option Process
  nextId : ℕ
  count : Resource → ℕ
  sockets : Fin maxUserSockets → Option ℕ
  foreground : Option ℕ

namespace Kernel

def boot : Kernel where
  processes _ := none
  nextId := 1
  count _ := 0
  sockets _ := none
  foreground := none

variable (k : Kernel)

def release (resources : List Resource) : Kernel :=
  { k with count := fun r => k.count r - resources.count r }

variable (slot : ProcessSlot)

def setProcess (p : Option Process) : Kernel :=
  { k with processes := update k.processes slot p }

def releaseFileTable (files : List ℕ) : Kernel :=
  k.release (files.map .file)

/-- `unmap_anonymous`: the resident pages, the swap slots and the backing file. -/
def unmapAnonymous (m : Mapping) : Kernel :=
  k.release m.resources

def destroy (space : List ℕ) : Kernel :=
  k.release (space.map .frame)

def releaseForeground (pid : ℕ) : Kernel :=
  if k.foreground = some pid then { k with foreground := none } else k

def closeProcessSockets (owner : ℕ) : Kernel :=
  { k with sockets := fun i => if k.sockets i = some owner then none else k.sockets i }

/-- `exit_current_process`. The address space and the mappings are taken from the process, and
released if there is another task to switch to. -/
def exitCurrentProcess (p : Process) (switch : Bool) : Kernel :=
  let k := (k.releaseForeground p.id).closeProcessSockets p.id
  let k := k.releaseFileTable p.files
  let ended := { p with exited := true, files := [] }
  match p.space with
  | none => k.setProcess slot (some ended)
  | some space =>
    let k := k.setProcess slot (some { ended with space := none, mappings := [] })
    if switch then (p.mappings.foldl unmapAnonymous k).destroy space else k

/-- What `kill_process` does to a running process that its signal terminates. -/
def killProcess (p : Process) : Kernel :=
  (k.releaseFileTable p.files).setProcess slot (some { p with exited := true, files := [] })

/-- The slot of a child of `parent`. -/
def childSlot (parent child : ℕ) : Option ProcessSlot :=
  (List.finRange maxProcesses).find? fun i =>
    (k.processes i).any fun p => p.id == child && p.parent == parent

def waitProcess (parent child : ℕ) : Kernel :=
  match k.childSlot parent child with
  | none => k
  | some slot =>
    match k.processes slot with
    | none => k
    | some p =>
      if p.exited then (k.releaseFileTable p.files).setProcess slot none else k

/-! ## Steps -/

/-- A signal to a group is one step for each process that it terminates. -/
inductive Op where
  | spawn (slot : ProcessSlot) (process : Process)
  | act (slot : ProcessSlot) (action : Action)
  | openSocket (slot : ProcessSlot) (index : Fin maxUserSockets)
  | closeSocket (slot : ProcessSlot) (index : Fin maxUserSockets)
  | setForeground (slot : ProcessSlot)
  | exit (slot : ProcessSlot) (switch : Bool)
  | kill (slot : ProcessSlot)
  | wait (parent child : ℕ)

def running : Option Process :=
  (k.processes slot).filter fun p => !p.exited

/-- One step. A process that calls `exit_current_process` waits for no request and is not inside
`file_fault_io`. The shell gives the foreground to a process that it has created, which may
have ended by then. -/
def step : Op → Option Kernel
  | .spawn slot p =>
    if k.processes slot = none ∧ p.id = k.nextId ∧ p.exited = false then
      some { k with
        processes := update k.processes slot (some p)
        nextId := k.nextId + 1
        count := fun r => k.count r + p.resources.count r }
    else none
  | .act slot action => do
    let p ← k.running slot
    let c ← p.act action
    some (({ k with count := fun r => k.count r + c.taken.count r }.release c.given).setProcess
      slot (some c.process))
  | .openSocket slot index => do
    let p ← k.running slot
    if k.sockets index = none then
      some { k with sockets := update k.sockets index (some p.id) }
    else none
  | .closeSocket slot index => do
    let p ← k.running slot
    if k.sockets index = some p.id then
      some { k with sockets := update k.sockets index none }
    else none
  | .setForeground slot => do
    let p ← k.processes slot
    some { k with foreground := some p.id }
  | .exit slot switch => do
    let p ← k.running slot
    if p.request = none ∧ p.guards = 0 then some (k.exitCurrentProcess slot p switch) else none
  | .kill slot => do
    let p ← k.running slot
    some (k.killProcess slot p)
  | .wait parent child => some (k.waitProcess parent child)

end Kernel

end WovenHat.Teardown
