import WovenHat.Model.Vfs.OpenFiles

/-! # VFS operations

The public functions of `vfs.rs` on the registry, the open-file table and the shared
file pages. Each returns its result together with the state it leaves, since some of
them fail after a partial change. -/

namespace WovenHat.Vfs

open Library

/-- `storage::read_disk_file`: backing path, offset and old buffer contents to the
number of bytes read and the buffer contents after the call. -/
abbrev DiskReader := Str → ℕ → List UInt8 → Except Unit ℕ × List UInt8

/-- `REGISTRY`, `OPEN_FILES` and the file pages. -/
structure State where
  registry : Registry
  openFiles : OpenFileTable
  frames : FileFrames

def materializeDiskNode (disk : DiskReader) (node : Node) : Except Error Unit × Node :=
  match node.backing with
  | none => (.ok (), node)
  | some backing =>
    let (result, bytes) := disk backing 0 (node.data.slice 0 node.length)
    let node := { node with data := node.data.write 0 (bytes.take node.length) }
    match result with
    | .error _ => (.error .io, node)
    | .ok count =>
      if count ≠ node.length then (.error .io, node)
      else (.ok (), { node with backing := none })

namespace State

/-- The state at boot, with no file open and no page cached. -/
def boot (page : ℕ → Buffer 4096) : State :=
  ⟨Registry.boot, fun _ => OpenFileDescription.empty, ⟨fun _ => none, page⟩⟩

def setNode (v : State) (index : NodeId) (node : Node) : State :=
  { v with registry := v.registry.setNode index node }

variable (v : State)

/-- Run a registry method that leaves the table alone when it fails. -/
def withRegistry {α : Type} (result : Except Error (α × Registry)) : Except Error α × State :=
  match result with
  | .error e => (.error e, v)
  | .ok (a, registry) => (.ok a, { v with registry })

variable (id : OpenFileId)

/-- Run a step on an open description that `get_mut` accepts. -/
def withOpenFile {α : Type}
    (step : Fin maxOpenFiles → Except Error α × State) : Except Error α × State :=
  match v.openFiles.getMut id with
  | .error e => (.error e, v)
  | .ok slot => step slot

def withMaterialized {α : Type} (disk : DiskReader) (v : State) (index : NodeId)
    (step : State → Except Error α × State) : Except Error α × State :=
  let (result, node) := materializeDiskNode disk (v.registry.nodes index)
  let v := v.setNode index node
  match result with
  | .error e => (.error e, v)
  | .ok () => step v

def setOffset (slot : Fin maxOpenFiles) (offset : ℕ) : State :=
  { v with openFiles := Function.update v.openFiles slot { v.openFiles slot with offset } }

/-- `u64::wrapping_add` of one to a node's version. -/
def bumpVersion (index : NodeId) : State :=
  { v with registry :=
      { v.registry with
        versions := Function.update v.registry.versions index
          ((v.registry.versions index + 1) % 2 ^ 64) } }

def createReadOnly (path : Str) (data : List UInt8) : Except Error Unit × State :=
  v.withRegistry ((v.registry.insert path data false).map fun (_, r) => ((), r))

def createDiskFileWithWritable (path : Str) (length : ℕ) (writable : Bool) :
    Except Error Unit × State :=
  if length > nodeCapacity then (.error .full, v)
  else
    v.withRegistry ((v.registry.insert path [] writable).map fun (index, r) =>
      ((), r.setNode index { r.nodes index with backing := some path, length }))

def writeFile (path : Str) (data : List UInt8) : Except Error Unit × State :=
  match validateAbsolutePath path with
  | .error e => (.error e, v)
  | .ok () =>
    if data.length > nodeCapacity then (.error .full, v)
    else
      match v.registry.position (·.matchesPath path) with
      | some index =>
        let node := v.registry.nodes index
        if node.kind ≠ .file then (.error .alreadyExists, v)
        else if !node.writable then (.error .readOnly, v)
        else
          let v := v.setNode index
            { node with
              backing := none, data := Buffer.zero.write 0 data, length := data.length }
          let v := v.bumpVersion index
          (.ok (), { v with
            frames := v.frames.replace index (v.registry.generations index) data })
      | none => v.withRegistry ((v.registry.insert path data true).map fun (_, r) => ((), r))

def prepareRemove (disk : DiskReader) (v : State) (path : Str) : Except Error Unit × State :=
  match validateAbsolutePath path with
  | .error e => (.error e, v)
  | .ok () =>
    match v.registry.position (·.matchesPath path) with
    | none => (.error .notFound, v)
    | some index =>
      match v.registry.removableIndex path with
      | .error e => (.error e, v)
      | .ok _ =>
        if (v.registry.nodes index).kind = .file ∧ v.openFiles.refersTo index then
          v.withMaterialized disk index fun v => (.ok (), v)
        else (.ok (), v)

/-- `remove`: a file that is still open keeps its node but loses its name. -/
def remove (disk : DiskReader) (v : State) (path : Str) : Except Error Unit × State :=
  match validateAbsolutePath path with
  | .error e => (.error e, v)
  | .ok () =>
    match v.registry.position (·.matchesPath path) with
    | none => (.error .notFound, v)
    | some index =>
      if (v.registry.nodes index).kind = .file ∧ v.openFiles.refersTo index then
        v.withMaterialized disk index fun v =>
          (.ok (), v.setNode index { v.registry.nodes index with path := [] })
      else v.withRegistry ((v.registry.remove path).map fun r => ((), r))

def rename (v : State) (old new : Str) : Except Error Unit × State :=
  v.withRegistry ((v.registry.rename old new).map fun r => ((), r))

def mkdir (v : State) (path : Str) : Except Error Unit × State :=
  v.withRegistry ((v.registry.mkdir path).map fun (_, r) => ((), r))

def openPath (path : Str) : Except Error OpenFileId × State :=
  match validateAbsolutePath path with
  | .error e => (.error e, v)
  | .ok () =>
    match v.registry.position fun n => n.matchesPath path && n.kind == .file with
    | none => (.error .notFound, v)
    | some index =>
      match v.openFiles.alloc index (v.registry.generations index) with
      | .error e => (.error e, v)
      | .ok (id, openFiles) => (.ok id, { v with openFiles })

def cloneOpenFile : Except Error OpenFileId × State :=
  match v.openFiles.cloneId id with
  | .error e => (.error e, v)
  | .ok openFiles => (.ok id, { v with openFiles })

/-- `close_open_file`: the last close of an unnamed node frees it. -/
def closeOpenFile : Except Error Unit × State :=
  v.withOpenFile id fun slot =>
    let index := (v.openFiles slot).node
    let v := { v with openFiles := v.openFiles.dropId slot }
    let node := v.registry.nodes index
    if !v.openFiles.refersTo index ∧ node.occupied ∧ node.path = [] then
      match Registry.checkedIncrement (v.registry.generations index) with
      | none => (.error .full, v)
      | some generation =>
        (.ok (), { v with registry :=
          { v.registry.setNode index
              { node with
                occupied := false, length := 0, backing := none, data := Buffer.zero } with
            generations := Function.update v.registry.generations index generation } })
    else (.ok (), v)

/-! ## Reading and writing through a descriptor -/

def prepareSharedFile (disk : DiskReader) (v : State) (id : OpenFileId) :
    Except Error Unit × State :=
  v.withOpenFile id fun slot =>
    let index := (v.openFiles slot).node
    let node := v.registry.nodes index
    if !node.occupied then (.error .invalidDescriptor, v)
    else if node.writable then (.ok (), v)
    else if node.backing.isNone then (.error .readOnly, v)
    else
      v.withMaterialized disk index fun v =>
        (.ok (), v.setNode index { v.registry.nodes index with writable := true })

def writeMappingAt (offset : ℕ) (bytes : List UInt8) : Except Error Unit × State :=
  v.withOpenFile id fun slot =>
    let index := (v.openFiles slot).node
    let node := v.registry.nodes index
    if !node.occupied || !node.writable then (.error .readOnly, v)
    else if offset + bytes.length > node.length then (.error .full, v)
    else
      let v := v.setNode index { node with data := node.data.write offset bytes }
      let v := v.bumpVersion index
      (.ok (), { v with
        frames := v.frames.update index (v.openFiles slot).generation offset bytes })

/-- `read_from`, which `read`, `read_at` and `read_mapping_at` share: the bytes read
into a buffer of `len` bytes. -/
def readFrom (disk : DiskReader) (v : State) (id : OpenFileId) (position : Option ℕ)
    (buffer : List UInt8) (generation : Option ℕ) : Except Error (List UInt8) × State :=
  v.withOpenFile id fun slot =>
    let entry := v.openFiles slot
    let offset := position.getD entry.offset
    let node := v.registry.nodes entry.node
    if generation.any (· != v.registry.generations entry.node) then
      (.error .invalidDescriptor, v)
    else if !node.occupied then (.error .invalidDescriptor, v)
    else if offset > node.length then (.error .invalidDescriptor, v)
    else
      let count := min (node.length - offset) buffer.length
      let read : Except Error (List UInt8) :=
        match node.backing with
        | some backing =>
          match disk backing offset (buffer.take count) with
          | (.error _, _) => .error .io
          | (.ok read, bytes) => if read ≠ count then .error .io else .ok bytes
        | none => .ok (node.data.slice offset count)
      match read with
      | .error e => (.error e, v)
      | .ok bytes =>
        (.ok (v.frames.overlay entry.node entry.generation offset bytes),
          if position.isNone then v.setOffset slot (offset + count) else v)

def seek (offset : ℕ) : Except Error ℕ × State :=
  v.withOpenFile id fun slot =>
    let node := v.registry.nodes (v.openFiles slot).node
    if !node.occupied then (.error .notFound, v)
    else
      let pos := min offset node.length
      (.ok pos, v.setOffset slot pos)

def write (disk : DiskReader) (v : State) (id : OpenFileId) (buffer : List UInt8) :
    Except Error ℕ × State :=
  v.withOpenFile id fun slot =>
    let index := (v.openFiles slot).node
    let offset := (v.openFiles slot).offset
    let node := v.registry.nodes index
    if !node.occupied then (.error .invalidDescriptor, v)
    else if !node.writable then (.error .readOnly, v)
    else
      v.withMaterialized disk index fun v =>
        let node := v.registry.nodes index
        if offset > node.length then (.error .invalidDescriptor, v)
        else
          let count := min buffer.length (nodeCapacity - offset)
          let v := v.setNode index
            { node with
              data := node.data.write offset (buffer.take count)
              length := max node.length (offset + count) }
          let v := v.bumpVersion index
          let v := { v with
            frames := v.frames.update index (v.openFiles slot).generation offset
              (buffer.take count) }
          (if count < buffer.length then .error .full else .ok count,
            v.setOffset slot (offset + count))

/-! ## Sequences of operations -/

/-- One call of a VFS function that may change its state. -/
inductive Op where
  | createReadOnly (path : Str) (data : List UInt8)
  | createDiskFile (path : Str) (length : ℕ) (writable : Bool)
  | writeFile (path : Str) (data : List UInt8)
  | prepareRemove (path : Str)
  | remove (path : Str)
  | rename (old new : Str)
  | mkdir (path : Str)
  | openPath (path : Str)
  | cloneOpenFile (id : OpenFileId)
  | closeOpenFile (id : OpenFileId)
  | prepareSharedFile (id : OpenFileId)
  | writeMappingAt (id : OpenFileId) (offset : ℕ) (bytes : List UInt8)
  | readFrom (id : OpenFileId) (position : Option ℕ) (buffer : List UInt8)
      (generation : Option ℕ)
  | seek (id : OpenFileId) (offset : ℕ)
  | write (id : OpenFileId) (buffer : List UInt8)

/-- The state after one call, whether it succeeds or fails. -/
def perform (disk : DiskReader) (v : State) : Op → State
  | .createReadOnly path data => (v.createReadOnly path data).2
  | .createDiskFile path length writable =>
    (v.createDiskFileWithWritable path length writable).2
  | .writeFile path data => (v.writeFile path data).2
  | .prepareRemove path => (v.prepareRemove disk path).2
  | .remove path => (v.remove disk path).2
  | .rename old new => (v.rename old new).2
  | .mkdir path => (v.mkdir path).2
  | .openPath path => (v.openPath path).2
  | .cloneOpenFile id => (v.cloneOpenFile id).2
  | .closeOpenFile id => (v.closeOpenFile id).2
  | .prepareSharedFile id => (v.prepareSharedFile disk id).2
  | .writeMappingAt id offset bytes => (v.writeMappingAt id offset bytes).2
  | .readFrom id position buffer generation => (v.readFrom disk id position buffer generation).2
  | .seek id offset => (v.seek id offset).2
  | .write id buffer => (v.write disk id buffer).2

/-- The state after a sequence of calls; the disk may answer each of them differently. -/
def performAll (calls : List (DiskReader × Op)) : State :=
  calls.foldl (fun v call => v.perform call.1 call.2) v

end State

end WovenHat.Vfs
