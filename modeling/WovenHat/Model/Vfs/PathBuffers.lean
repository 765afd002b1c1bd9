import WovenHat.Model.Vfs.Registry

/-! # Renaming in the path buffers

`Registry::rename` works on the fixed byte arrays of the nodes: it shifts the rest of a path
with `copy_within` and writes the new path before it. This model keeps the arrays. A slice
operation outside an array panics, which is the result `none`. -/

namespace WovenHat.Vfs

open Library

/-- A path in its array: `path` and `path_length` of a node, or a `DiskPath`. -/
structure PathBuffer where
  bytes : Buffer pathCapacity
  length : ℕ
  fits : length ≤ pathCapacity

namespace PathBuffer

def text (b : PathBuffer) : Str :=
  b.bytes.slice 0 b.length

/-- The bytes up to `start` are replaced by `new`: `copy_within`, `copy_from_slice`, and zeros
after the end. -/
def replacePrefix (b : PathBuffer) (start : ℕ) (new : Str) : Option PathBuffer :=
  let suffixLength := b.length - start
  if h : new.length + suffixLength ≤ pathCapacity then
    let shifted := b.bytes.write new.length (b.bytes.slice start suffixLength)
    let written := shifted.write 0 new
    let length := new.length + suffixLength
    some ⟨written.write length (List.replicate (pathCapacity - length) 0), length, h⟩
  else none

end PathBuffer

/-- `Node`, with its arrays. -/
structure NodeBuffer where
  path : PathBuffer
  data : Buffer nodeCapacity
  backing : Option PathBuffer
  length : ℕ
  writable : Bool
  kind : NodeKind
  occupied : Bool

namespace NodeBuffer

def node (n : NodeBuffer) : Node where
  path := n.path.text
  data := n.data
  backing := n.backing.map PathBuffer.text
  length := n.length
  writable := n.writable
  kind := n.kind
  occupied := n.occupied

/-- The path of a node in the loop of `Registry::rename`. -/
def renamePath (old new : Str) (directory : Bool) (b : PathBuffer) : Option PathBuffer :=
  if b.text == old || (directory && (descendantSuffix old b.text).isSome) then
    b.replacePrefix old.length new
  else some b

/-- The loop body of `Registry::rename`: the path, then the backing path. -/
def rename (old new : Str) (directory : Bool) (n : NodeBuffer) : Option NodeBuffer :=
  if n.occupied then do
    let path ← renamePath old new directory n.path
    match n.backing with
    | none => some { n with path }
    | some backing =>
      let backing ← renamePath old new directory backing
      some { n with path, backing := some backing }
  else some n

end NodeBuffer

/-- `Registry`, with the arrays of its nodes. -/
structure RegistryBuffer where
  versions : NodeId → ℕ
  generations : NodeId → ℕ
  nodes : NodeId → NodeBuffer

namespace RegistryBuffer

def registry (t : RegistryBuffer) : Registry where
  versions := t.versions
  generations := t.generations
  nodes i := (t.nodes i).node

/-- The loop of `Registry::rename` over the table. -/
def renameLoop (t : RegistryBuffer) (old new : Str) (directory : Bool) : Option RegistryBuffer :=
  ((List.finRange maxNodes).foldlM (fun (nodes : NodeId → NodeBuffer) i =>
    ((nodes i).rename old new directory).map (Function.update nodes i)) t.nodes).map
      fun nodes => { t with nodes }

def rename (t : RegistryBuffer) (old new : Str) : Option (Except Error Unit × RegistryBuffer) :=
  match t.registry.validateRename old new with
  | .error e => some (.error e, t)
  | .ok () =>
    if old = new then some (.ok (), t)
    else
      match t.registry.position (·.matchesPath old) with
      | none => some (.error .notFound, t)
      | some index =>
        (t.renameLoop old new ((t.nodes index).kind == .directory)).map fun t => (.ok (), t)

end RegistryBuffer

end WovenHat.Vfs
