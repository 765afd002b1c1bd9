import WovenHat.Library.Buffer
import WovenHat.Model.Vfs.Path

/-! # The node registry

`Registry` of `vfs.rs`: a flat table of 64 nodes, each with its full path. A registry
method that fails has not changed the table. -/

namespace WovenHat.Vfs

open Library

def maxNodes : ℕ := 64

def nodeCapacity : ℕ := 65536

inductive NodeKind where
  | file
  | directory
  deriving DecidableEq, Repr

/-- `Node`; `path` holds the first `path_length` bytes of the array, and an occupied
node without a name has the empty path. -/
structure Node where
  path : Str
  data : Buffer nodeCapacity
  backing : Option Str
  length : ℕ
  writable : Bool
  kind : NodeKind
  occupied : Bool

namespace Node

def empty : Node :=
  ⟨[], Buffer.zero, none, 0, false, .file, false⟩

def withData (path : Str) (data : List UInt8) (writable : Bool) : Node :=
  { empty with
    path, data := empty.data.write 0 data, length := data.length, writable, occupied := true }

def directory (path : Str) : Node :=
  { empty with path, kind := .directory, writable := true, occupied := true }

/-- `Node::matches`. -/
def matchesPath (node : Node) (path : Str) : Bool :=
  node.occupied && node.path == path

end Node

abbrev NodeId := Fin maxNodes

structure Registry where
  versions : NodeId → ℕ
  generations : NodeId → ℕ
  nodes : NodeId → Node

namespace Registry

variable (r : Registry)

/-- The first node with a property, as `Iterator::position` finds it. -/
def position (test : Node → Bool) : Option NodeId :=
  (List.finRange maxNodes).find? fun i => test (r.nodes i)

def any (r : Registry) (test : Node → Bool) : Bool :=
  (List.finRange maxNodes).any fun i => test (r.nodes i)

def setNode (index : NodeId) (node : Node) : Registry :=
  { r with nodes := Function.update r.nodes index node }

/-- The nodes of `Registry::boot`, in table order. -/
def bootNodes : List Node :=
  [Node.directory rootPath,
    Node.directory (ascii ['/', 'e', 't', 'c']),
    Node.directory (ascii ['/', 't', 'm', 'p']),
    Node.directory (ascii ['/', 'm', 'n', 't']),
    Node.directory (ascii ['/', 'b', 'i', 'n']),
    Node.withData (ascii ['/', 'e', 't', 'c', '/', 'm', 'o', 't', 'd'])
      (ascii "Welcome to WovenHat OS.\n".toList) false,
    Node.withData (ascii ['/', 'e', 't', 'c', '/', 'v', 'e', 'r', 's', 'i', 'o', 'n'])
      (ascii "WovenHat kernel 0.8.0 Multicore Foundation\n".toList) false,
    Node.withData (ascii ['/', 't', 'm', 'p', '/', 'v', 'f', 's', '-', 's', 'e', 'l', 'f',
      '-', 't', 'e', 's', 't']) [] true]

def boot : Registry where
  versions _ := 0
  generations _ := 0
  nodes i := bootNodes.getD i Node.empty

/-- The check that a new path has an existing directory above it. -/
def checkParent (path : Str) : Except Error Unit :=
  match parentPath path with
  | none => .error .invalidPath
  | some parent =>
    if r.any fun n => n.matchesPath parent && n.kind == .directory then .ok ()
    else .error .notFound

/-- The node that `insert` stores. -/
def insertedNode (node : Node) (path : Str) (data : List UInt8) (writable : Bool) : Node :=
  { node with
    path, data := node.data.write 0 data, length := data.length, writable,
    kind := .file, occupied := true }

def insert (path : Str) (data : List UInt8) (writable : Bool) :
    Except Error (NodeId × Registry) := do
  validateAbsolutePath path
  if data.length > nodeCapacity then throw .full
  if r.any (·.matchesPath path) then throw .alreadyExists
  if path ≠ rootPath then r.checkParent path
  match r.position (!·.occupied) with
  | none => throw .full
  | some index =>
    return (index, r.setNode index (insertedNode (r.nodes index) path data writable))

def mkdir (path : Str) : Except Error (NodeId × Registry) := do
  validateAbsolutePath path
  if path = rootPath then throw .alreadyExists
  if r.any (·.matchesPath path) then throw .alreadyExists
  r.checkParent path
  match r.position (!·.occupied) with
  | none => throw .full
  | some index => return (index, r.setNode index (Node.directory path))

def removableIndex (path : Str) : Except Error NodeId := do
  validateAbsolutePath path
  if path = rootPath then throw .readOnly
  match r.position (·.matchesPath path) with
  | none => throw .notFound
  | some index =>
    let node := r.nodes index
    if node.kind = .directory ∧
        r.any fun other =>
          other.occupied && (immediateChildName node.path other.path).isSome then
      throw .notEmpty
    return index

def checkedIncrement (n : ℕ) : Option ℕ :=
  if n + 1 < 2 ^ 64 then some (n + 1) else none

def remove (path : Str) : Except Error Registry := do
  let index ← r.removableIndex path
  match checkedIncrement (r.generations index) with
  | none => throw .full
  | some generation =>
    let node := r.nodes index
    return { r.setNode index
        { node with
          occupied := false, path := [], length := 0, backing := none, writable := false,
          data := Buffer.zero } with
      generations := Function.update r.generations index generation }

/-- Whether a path below the directory `old` no longer fits under `new`. -/
def renameTooLong (old new path : Str) (directory : Bool) : Bool :=
  if directory then
    match descendantSuffix old path with
    | some suffix => new.length + suffix.length > pathCapacity
    | none => false
  else false

/-- The preflight check of `Registry::validate_rename` on one node. -/
def renamePreflight (old new : Str) (directory : Bool) (node : Node) : Bool :=
  node.occupied &&
    (renameTooLong old new node.path directory ||
      match node.backing with
      | some backing =>
        renameTooLong old new backing directory ||
          (!directory && backing == old && new.length > pathCapacity)
      | none => false)

def validateRename (old new : Str) : Except Error Unit := do
  validateAbsolutePath old
  validateAbsolutePath new
  if old = rootPath ∨ new = rootPath then throw .readOnly
  match r.position (·.matchesPath old) with
  | none => throw .notFound
  | some index =>
    if old = new then return
    if r.any (·.matchesPath new) then throw .alreadyExists
    if (descendantSuffix old new).isSome then throw .invalidPath
    r.checkParent new
    if r.any (renamePreflight old new ((r.nodes index).kind == .directory)) then
      throw .invalidPath

/-- The new text of a node's path or backing path under a rename. -/
def renamePath (old new : Str) (directory : Bool) (path : Str) : Str :=
  if path == old || (directory && (descendantSuffix old path).isSome) then
    new ++ path.drop old.length
  else path

/-- What `Registry::rename` does to one node. -/
def renameNode (old new : Str) (directory : Bool) (node : Node) : Node :=
  if node.occupied then
    { node with
      path := renamePath old new directory node.path
      backing := node.backing.map (renamePath old new directory) }
  else node

/-- The rewriting loop of `Registry::rename`. -/
def renameNodes (old new : Str) (directory : Bool) : Registry :=
  { r with nodes := fun i => renameNode old new directory (r.nodes i) }

def rename (old new : Str) : Except Error Registry := do
  r.validateRename old new
  if old = new then return r
  match r.position (·.matchesPath old) with
  | none => throw .notFound
  | some index =>
    return r.renameNodes old new ((r.nodes index).kind == .directory)

/-! ## Listing a directory -/

structure DirEntry where
  name : Buffer maxDirName
  nameLength : ℕ
  kind : NodeKind

/-- The entry of a child; `copy_from_slice` panics unless the name fits. -/
def dirEntry (name : Str) (kind : NodeKind) : Option DirEntry :=
  let len := min name.length maxDirName
  if name.length = len then some ⟨Buffer.zero.write 0 name, len, kind⟩ else none

/-- The loop of `Registry::readdir` over the occupied nodes. -/
def readdirLoop (r : Registry) (dirPath : Str) (index : ℕ) :
    List NodeId → ℕ → Option (Except Error DirEntry)
  | [], _ => some (.error .notFound)
  | node :: rest, seen =>
    match immediateChildName dirPath (r.nodes node).path with
    | none => r.readdirLoop dirPath index rest seen
    | some name =>
      if seen = index then (dirEntry name (r.nodes node).kind).map .ok
      else r.readdirLoop dirPath index rest (seen + 1)

/-- `Registry::readdir`; nothing is returned where the source panics. -/
def readdir (dirPath : Str) (index : ℕ) : Option (Except Error DirEntry) :=
  match validateAbsolutePath dirPath with
  | .error e => some (.error e)
  | .ok () =>
    match r.position fun n => n.matchesPath dirPath && n.kind == .directory with
    | none => some (.error .notFound)
    | some dir =>
      r.readdirLoop (r.nodes dir).path index
        ((List.finRange maxNodes).filter fun i => (r.nodes i).occupied) 0

end Registry

end WovenHat.Vfs
