import WovenHat.Model.Capabilities
import WovenHat.Model.Vfs.Operations

/-! # Opening files from a task

`open_current` of `task.rs` with the path resolution and the mount checks it makes.
What `storage::ensure_path` does once it has to look at the disk is a parameter, which
may add any nodes to the VFS. -/

namespace WovenHat.Task

open Library Vfs

inductive FileError where
  | permissionDenied
  | noProcess
  | notFound
  | tooManyFiles
  | badDescriptor
  | alreadyExists
  | notEmpty
  deriving DecidableEq, Repr

inductive EnsureError where
  | unmounted
  | noDevice
  | notFat32
  | notFound
  | notUnderMount
  | invalidPath
  | tooLarge
  | vfs
  | failed
  deriving DecidableEq, Repr

/-- `MountLifecycleStatus`, the value of `MNT_STATUS`. -/
inductive MountLifecycleStatus where
  | unknown
  | noDevice
  | notFat32
  | mounted
  | failed
  | unmounted
  deriving DecidableEq, Repr

inductive FdKind where
  | file (id : OpenFileId)
  | pipeRead (id : ℕ)
  | pipeWrite (id : ℕ)
  deriving DecidableEq, Repr

def maxFileDescriptors : ℕ := 16

/-- The part of `Process` that file access uses. -/
structure Process where
  taskId : ℕ
  files : Fin maxFileDescriptors → Option FdKind
  cwd : Str

/-- The state that `open_current` reads and changes. -/
structure Kernel where
  vfs : State
  processes : List (Option Process)
  mntStatus : MountLifecycleStatus
  mntDirty : Bool
  currentTask : ℕ
  currentHas : Capabilities.Capability → Bool

/-- What `ensure_path` does on the disk: import nodes into the VFS, or fail. -/
abbrev DiskImport := Str → State → Except EnsureError Unit × State

/-! ## Path resolution -/

/-- One step of the component loop of `normalize_absolute`, with the stack reversed. -/
def pushComponent (stack : List Str) (component : Str) : Except FileError (List Str) :=
  if component.isEmpty || component == ascii ['.'] then .ok stack
  else if component == ascii ['.', '.'] then .ok stack.tail
  else if component.contains 0 then .error .notFound
  else .ok (component :: stack)

def normalizeAbsolute (path : Str) : Except FileError Str := do
  if path.head? ≠ some slash then throw .notFound
  let stack ← (path.splitOn slash).foldlM pushComponent []
  if stack.isEmpty then return rootPath
  let out := slash :: [slash].intercalate stack.reverse
  if out.length > pathCapacity then throw .notFound
  return out

def resolvePathWithCwd (path cwd : Str) : Except FileError Str :=
  if path.isEmpty then .error .notFound
  else if path.head? = some slash then normalizeAbsolute path
  else if cwd = rootPath then normalizeAbsolute (slash :: path)
  else normalizeAbsolute (cwd ++ slash :: path)

namespace Kernel

variable (k : Kernel)

/-- The first process entry of the current task. -/
def currentProcess : Option Process :=
  (k.processes.filterMap id).find? fun p => p.taskId == k.currentTask

def currentCwd : Str :=
  match k.currentProcess with
  | some p => p.cwd
  | none => rootPath

def resolvePathForCurrent (path : Str) : Except FileError Str :=
  resolvePathWithCwd path k.currentCwd

/-! ## The mount point -/

def mnt : Str := ascii ['/', 'm', 'n', 't']

def isMntChild (path : Str) : Bool :=
  (mnt ++ [slash]).isPrefixOf path

/-- `touches_mnt`, and `mnt_path` of `storage.rs`. -/
def touchesMnt (path : Str) : Bool :=
  path == mnt || isMntChild path

def mntMounted : Bool :=
  k.mntStatus == .mounted

def unavailableEnsureError : EnsureError :=
  match k.mntStatus with
  | .noDevice => .noDevice
  | .notFat32 => .notFat32
  | .failed => .failed
  | _ => .unmounted

def markMntDirty : Kernel :=
  if k.mntMounted then { k with mntDirty := true } else k

/-- `vfs::stat`, reduced to the kind of the node. -/
def statKind (v : State) (path : Str) : Except Vfs.Error NodeKind := do
  validateAbsolutePath path
  match v.registry.position (·.matchesPath path) with
  | none => throw .notFound
  | some index => return (v.registry.nodes index).kind

variable (disk : DiskImport)

def ensurePath (k : Kernel) (path : Str) : Except EnsureError Unit × Kernel :=
  if touchesMnt path && !k.mntMounted then (.error k.unavailableEnsureError, k)
  else if !touchesMnt path then
    match statKind k.vfs path with
    | .ok _ => (.ok (), k)
    | .error _ => (.error .notUnderMount, k)
  else if statKind k.vfs path = .ok .file then (.ok (), k)
  else
    let (result, vfs) := disk path k.vfs
    (result, { k with vfs })

def mapEnsureFileError : EnsureError → FileError
  | .tooLarge => .tooManyFiles
  | _ => .notFound

def ensureExistingMntPath (k : Kernel) (path : Str) : Except FileError Unit × Kernel :=
  if touchesMnt path then
    if !k.mntMounted then (.error .notFound, k)
    else
      let (result, k) := k.ensurePath disk path
      (result.mapError mapEnsureFileError, k)
  else (.ok (), k)

def parentPathString (path : Str) : Option Str :=
  if path.head? ≠ some slash ∨ path = rootPath then none
  else
    match rfind slash path with
    | none => none
    | some index => some (if index = 0 then rootPath else path.take index)

def ensureMntParent (k : Kernel) (path : Str) : Except FileError Unit × Kernel :=
  match parentPathString path with
  | some parent =>
    if touchesMnt parent then k.ensureExistingMntPath disk parent else (.ok (), k)
  | none => (.ok (), k)

/-! ## Opening -/

/-- The mount checks at the start of `open_current`. -/
def prepareOpen (k : Kernel) (path : Str) : Except FileError Unit × Kernel :=
  if touchesMnt path then
    if !k.mntMounted then (.error .notFound, k)
    else
      match k.ensurePath disk path with
      | (.ok (), k) => (.ok (), k)
      | (.error .notFound, k) => k.ensureMntParent disk path
      | (.error e, k) => (.error (mapEnsureFileError e), k)
  else (.ok (), k)

/-- The `vfs::open` of `open_current`, which creates the file when the open fails. -/
def openOrCreate (path : Str) : Except FileError OpenFileId × Kernel :=
  match k.vfs.openPath path with
  | (.ok id, vfs) => (.ok id, { k with vfs })
  | (.error _, _) =>
    if !k.currentHas .fileWrite then (.error .notFound, k)
    else
      match k.vfs.writeFile path [] with
      | (.error _, vfs) => (.error .notFound, { k with vfs })
      | (.ok (), vfs) =>
        let k := { k with vfs }
        let k := if isMntChild path then k.markMntDirty else k
        match k.vfs.openPath path with
        | (.error _, vfs) => (.error .notFound, { k with vfs })
        | (.ok id, vfs) => (.ok id, { k with vfs })

/-- The first free descriptor from 3 on. -/
def freeDescriptor (p : Process) : Option (Fin maxFileDescriptors) :=
  (List.finRange maxFileDescriptors).find? fun d => 3 ≤ d.val && (p.files d).isNone

/-- Store an open file in the descriptor table of the current process. -/
def installDescriptor (file : OpenFileId) : Except FileError ℕ × Kernel :=
  match k.processes.findIdx? (fun p => p.any fun p => p.taskId == k.currentTask) with
  | none => (.error .noProcess, k)
  | some slot =>
    match k.processes.getD slot none with
    | none => (.error .noProcess, k)
    | some p =>
      match freeDescriptor p with
      | none => (.error .tooManyFiles, k)
      | some d =>
        let p := { p with files := Function.update p.files d (some (.file file)) }
        (.ok d, { k with processes := k.processes.set slot (some p) })

/-- What `open_current` does before `vfs::open`; it returns the resolved path. -/
def openChecks (k : Kernel) (path : Str) : Except FileError Str × Kernel :=
  if !k.currentHas .fileRead then (.error .permissionDenied, k)
  else
    match k.resolvePathForCurrent path with
    | .error e => (.error e, k)
    | .ok path =>
      match k.prepareOpen disk path with
      | (.error e, k) => (.error e, k)
      | (.ok (), k) => (.ok path, k)

def openCurrent (k : Kernel) (path : Str) : Except FileError ℕ × Kernel :=
  match k.openChecks disk path with
  | (.error e, k) => (.error e, k)
  | (.ok path, k) =>
    match k.openOrCreate path with
    | (.error e, k) => (.error e, k)
    | (.ok file, k) => k.installDescriptor file

end Kernel

end WovenHat.Task
