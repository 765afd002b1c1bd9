import WovenHat.Model.Pipes
import WovenHat.Model.Task.Files
import WovenHat.Model.Task.Process

/-! # Descriptors and mappings of processes

The calls of `task.rs` that make and drop references to open files and pipes: descriptors,
and the lazy mappings of `userspace.rs`, which refer to their backing file. Of a mapping only
that file is kept. `open_current` starts here at `vfs::open`; what the checks of the path and
of the mount before it come to is an argument. -/

namespace WovenHat.Descriptors

open WovenHat.Vfs WovenHat.Task Function
open WovenHat.Task.System (ProcessSlot maxProcesses)

def maxAnonymousMappings : ℕ := 16

/-- `AnonymousMapping`: the backing file, if there is a lazy one. -/
structure Mapping where
  lazy : Option OpenFileId
  deriving DecidableEq, Repr

/-- The part of `Process` that refers to files. -/
structure Process where
  files : Fin maxFileDescriptors → Option FdKind
  memoryMappings : Fin maxAnonymousMappings → Option Mapping

/-- The process that `create_process` makes. -/
def Process.new : Process := ⟨fun _ => none, fun _ => none⟩

/-- `OPEN_FILES` in the VFS, the pipes and `PROCESS_TABLE`. A process that has exited is only
known by its place. -/
structure System where
  vfs : State
  pipes : Pipes.Table
  processes : ProcessSlot → Option Process
  zombies : ProcessSlot → Bool

/-- The result of a call, with the state that it leaves. -/
abbrev Result (α : Type) := Except FileError α × System

def System.boot (page : ℕ → Library.Buffer 4096) : System :=
  ⟨State.boot page, .new, fun _ => none, fun _ => false⟩

namespace System

variable (s : System) (slot : ProcessSlot)

def setProcess (p : Option Process) : System :=
  { s with processes := update s.processes slot p }

variable (p : Process)

def setFile (d : Fin maxFileDescriptors) (fd : Option FdKind) : System :=
  s.setProcess slot (some { p with files := update p.files d fd })

def setMapping (m : Fin maxAnonymousMappings) (mapping : Option Mapping) : System :=
  s.setProcess slot (some { p with memoryMappings := update p.memoryMappings m mapping })

/-! ## References -/

/-- `vfs::clone_open_file`, `pipe::clone_reader` or `pipe::clone_writer`. -/
def cloneFd : FdKind → Result Unit
  | .file id =>
    match s.vfs.cloneOpenFile id with
    | (.error _, vfs) => (.error .tooManyFiles, { s with vfs })
    | (.ok _, vfs) => (.ok (), { s with vfs })
  | .pipeRead id =>
    match s.pipes.cloneReader id with
    | (.error _, pipes) => (.error .tooManyFiles, { s with pipes })
    | (.ok _, pipes) => (.ok (), { s with pipes })
  | .pipeWrite id =>
    match s.pipes.cloneWriter id with
    | (.error _, pipes) => (.error .tooManyFiles, { s with pipes })
    | (.ok _, pipes) => (.ok (), { s with pipes })

def releaseFd : FdKind → System
  | .file id => { s with vfs := (s.vfs.closeOpenFile id).2 }
  | .pipeRead id => { s with pipes := (s.pipes.closeReader id).2 }
  | .pipeWrite id => { s with pipes := (s.pipes.closeWriter id).2 }

def descriptor? (d : ℕ) : Option FdKind :=
  if h : d < maxFileDescriptors then p.files ⟨d, h⟩ else none

/-- The first free descriptor from 3 on. -/
def freeDescriptor : Option (Fin maxFileDescriptors) :=
  (List.finRange maxFileDescriptors).find? fun d => 3 ≤ d.val && (p.files d).isNone

def freeMapping : Option (Fin maxAnonymousMappings) :=
  (List.finRange maxAnonymousMappings).find? fun m => (p.memoryMappings m).isNone

/-! ## Descriptors -/

/-- The `vfs::open` of `open_current`, which writes an empty file when it fails. -/
def openOrCreate (write : Bool) (path : Str) : Result OpenFileId :=
  match s.vfs.openPath path with
  | (.ok id, vfs) => (.ok id, { s with vfs })
  | (.error _, _) =>
    if !write then (.error .notFound, s)
    else
      match s.vfs.writeFile path [] with
      | (.error _, vfs) => (.error .notFound, { s with vfs })
      | (.ok (), vfs) =>
        match vfs.openPath path with
        | (.error _, vfs) => (.error .notFound, { s with vfs })
        | (.ok id, vfs) => (.ok id, { s with vfs })

def installDescriptor (file : OpenFileId) : Result ℕ :=
  match s.processes slot with
  | none => (.error .noProcess, s)
  | some p =>
    match freeDescriptor p with
    | none => (.error .tooManyFiles, s)
    | some d => (.ok d, s.setFile slot p d (some (.file file)))

/-- `open_current`, with the result of the checks that come before `vfs::open`. -/
def openCurrent (checks : Except FileError Unit) (write : Bool) (path : Str) : Result ℕ :=
  match checks with
  | .error e => (.error e, s)
  | .ok () =>
    match s.openOrCreate write path with
    | (.error e, s) => (.error e, s)
    | (.ok file, s) => s.installDescriptor slot file

def dupCurrent (descriptor : ℕ) : Result ℕ :=
  match s.processes slot with
  | none => (.error .noProcess, s)
  | some p =>
    match descriptor? p descriptor with
    | none => (.error .badDescriptor, s)
    | some fd =>
      match s.cloneFd fd with
      | (.error e, s) => (.error e, s)
      | (.ok (), s) =>
        match freeDescriptor p with
        | none => (.error .tooManyFiles, s)
        | some d => (.ok d, s.setFile slot p d (some fd))

def dup2Current (old new : ℕ) : Result ℕ :=
  if h : new < maxFileDescriptors then
    if old = new then (.ok new, s)
    else
      match s.processes slot with
      | none => (.error .noProcess, s)
      | some p =>
        match descriptor? p old with
        | none => (.error .badDescriptor, s)
        | some fd =>
          match s.cloneFd fd with
          | (.error e, s) => (.error e, s)
          | (.ok (), s) =>
            match p.files ⟨new, h⟩ with
            | none => (.ok new, s.setFile slot p ⟨new, h⟩ (some fd))
            | some prev =>
              (.ok new, ((s.setFile slot p ⟨new, h⟩ none).releaseFd prev).setFile
                slot p ⟨new, h⟩ (some fd))
  else (.error .badDescriptor, s)

/-- `pipe_current`. The read end is in place before the second descriptor is looked for. -/
def pipeCurrent : Result (ℕ × ℕ) :=
  match s.pipes.alloc with
  | (.error _, pipes) => (.error .tooManyFiles, { s with pipes })
  | (.ok id, pipes) =>
    let s := { s with pipes }
    match s.processes slot with
    | none => (.error .noProcess, s)
    | some p =>
      match freeDescriptor p with
      | none => (.error .tooManyFiles, s)
      | some r =>
        let p := { p with files := update p.files r (some (.pipeRead id)) }
        let s := s.setProcess slot (some p)
        match freeDescriptor p with
        | none => (.error .tooManyFiles, s)
        | some w => (.ok (r, w), s.setFile slot p w (some (.pipeWrite id)))

def closeCurrent (descriptor : ℕ) : Result Unit :=
  if descriptor < 3 then (.error .badDescriptor, s)
  else
    match s.processes slot with
    | none => (.error .noProcess, s)
    | some p =>
      if h : descriptor < maxFileDescriptors then
        match p.files ⟨descriptor, h⟩ with
        | none => (.error .badDescriptor, s)
        | some fd => (.ok (), (s.setFile slot p ⟨descriptor, h⟩ none).releaseFd fd)
      else (.error .badDescriptor, s)

/-! ## Mappings -/

/-- `mmap_current` of a range that can be mapped. -/
def mmapCurrent : Option System :=
  match s.processes slot with
  | none => none
  | some p => (freeMapping p).map fun m => s.setMapping slot p m (some ⟨none⟩)

/-- `mmap_file_current` of a lazy mapping that passes the checks of the range and the file. -/
def mmapFileLazy (descriptor : ℕ) : Option System :=
  match s.processes slot with
  | none => none
  | some p =>
    match descriptor? p descriptor with
    | some (.file file) =>
      match freeMapping p with
      | none => none
      | some m =>
        match s.cloneFd (.file file) with
        | (.error _, _) => none
        | (.ok (), s) => some (s.setMapping slot p m (some ⟨some file⟩))
    | _ => none

/-- The end of `unmap_anonymous`: whether the backing file could be closed. -/
def unmapAnonymous (mapping : Mapping) : Option System :=
  match mapping.lazy with
  | none => some s
  | some file =>
    match s.vfs.closeOpenFile file with
    | (.error _, _) => none
    | (.ok (), vfs) => some { s with vfs }

def munmapCurrent (m : Fin maxAnonymousMappings) : Option System :=
  match s.processes slot with
  | none => none
  | some p =>
    match p.memoryMappings m with
    | none => none
    | some mapping => (s.unmapAnonymous mapping).map fun s => s.setMapping slot p m none

def mappingList : List Mapping :=
  (List.finRange maxAnonymousMappings).filterMap p.memoryMappings

/-- The loop over the mappings that `exec_current` and `exit_current_process` took. -/
def unmapAll (mappings : List Mapping) : Option System :=
  mappings.foldlM unmapAnonymous s

/-! ## Processes -/

def fileList : List FdKind :=
  (List.finRange maxFileDescriptors).filterMap p.files

/-- `cloneFd` for each of a list, as far as all succeed. -/
def cloneAll (fds : List FdKind) : Option System :=
  fds.foldlM (fun s fd =>
    match s.cloneFd fd with
    | (.error _, _) => none
    | (.ok (), s) => some s) s

/-- A fork that succeeds: `clone_address_space` refers to the backing files once more, then
`clone_file_table` to the descriptors, and the child takes the first free place. -/
def forkCurrent : Option System :=
  match s.processes slot with
  | none => none
  | some p => do
      let child ← (List.finRange maxProcesses).find? fun i =>
        (s.processes i).isNone && !s.zombies i
      let s ← s.cloneAll ((mappingList p).filterMap fun m => m.lazy.map .file)
      let s ← s.cloneAll (fileList p)
      return s.setProcess child (some p)

/-- `exec_current`, which keeps the descriptors. -/
def execCurrent : Option System :=
  match s.processes slot with
  | none => none
  | some p =>
    (s.setProcess slot (some { p with memoryMappings := fun _ => none })).unmapAll (mappingList p)

/-- `exit_current_process`: the entry stays in the table for `wait_process`. -/
def exitCurrentProcess : Option System :=
  match s.processes slot with
  | none => none
  | some p =>
    let s := { s with zombies := update s.zombies slot true }.setProcess slot none
    ((fileList p).foldl releaseFd s).unmapAll (mappingList p)

end System

/-! ## Runs -/

/-- The same descriptions are open, with the same counts. -/
def SameOpenFiles (t t' : OpenFileTable) : Prop :=
  ∀ i, (t' i).occupied = (t i).occupied ∧ (t' i).refcount = (t i).refcount

/-- The same pipes are in use, with the same numbers of ends. -/
def SamePipes (t t' : Pipes.Table) : Prop :=
  ∀ i, (t'.pipes i).occupied = (t.pipes i).occupied ∧
    (t'.pipes i).readers = (t.pipes i).readers ∧ (t'.pipes i).writers = (t.pipes i).writers

instance (t t' : OpenFileTable) : Decidable (SameOpenFiles t t') :=
  inferInstanceAs (Decidable (∀ _, _))

instance (t t' : Pipes.Table) : Decidable (SamePipes t t') :=
  inferInstanceAs (Decidable (∀ _, _))

inductive Op where
  | spawn (slot : ProcessSlot)
  | openFile (slot : ProcessSlot) (write : Bool) (path : Str)
  | dup (slot : ProcessSlot) (descriptor : ℕ)
  | dup2 (slot : ProcessSlot) (old new : ℕ)
  | pipe (slot : ProcessSlot)
  | close (slot : ProcessSlot) (descriptor : ℕ)
  | mmap (slot : ProcessSlot)
  | mmapFileLazy (slot : ProcessSlot) (descriptor : ℕ)
  | munmap (slot : ProcessSlot) (m : Fin maxAnonymousMappings)
  | fork (slot : ProcessSlot)
  | exec (slot : ProcessSlot)
  | exit (slot : ProcessSlot)
  | wait (slot : ProcessSlot)
  /-- Anything else that happens to the files and the pipes: reads, writes, removals. -/
  | other (vfs : State) (pipes : Pipes.Table)

def Result.state {α : Type} : Result α → Option System
  | (.ok _, s) => some s
  | (.error _, _) => none

/-- A successful call; one that fails is not a step. -/
def step (s : System) : Op → Option System
  | .spawn slot =>
    if (s.processes slot).isNone && !s.zombies slot then some (s.setProcess slot (some .new))
    else none
  | .openFile slot write path => Result.state (s.openCurrent slot (.ok ()) write path)
  | .dup slot descriptor => Result.state (s.dupCurrent slot descriptor)
  | .dup2 slot old new => Result.state (s.dup2Current slot old new)
  | .pipe slot => Result.state (s.pipeCurrent slot)
  | .close slot descriptor => Result.state (s.closeCurrent slot descriptor)
  | .mmap slot => s.mmapCurrent slot
  | .mmapFileLazy slot descriptor => s.mmapFileLazy slot descriptor
  | .munmap slot m => s.munmapCurrent slot m
  | .fork slot => s.forkCurrent slot
  | .exec slot => s.execCurrent slot
  | .exit slot => s.exitCurrentProcess slot
  | .wait slot =>
    -- `wait_process` releases the descriptors once more, but an exited process has none
    if s.zombies slot then some { s with zombies := update s.zombies slot false }
    else none
  | .other vfs pipes =>
    if SameOpenFiles s.vfs.openFiles vfs.openFiles ∧ SamePipes s.pipes pipes then
      some { s with vfs, pipes }
    else none

end WovenHat.Descriptors
