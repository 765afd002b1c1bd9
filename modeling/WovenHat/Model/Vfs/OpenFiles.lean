import WovenHat.Model.Vfs.Registry

/-! # Open files

The open-file table, the shared file pages of `file_frames.rs` and the functions of
`vfs.rs` that work on the registry and the table together. A disk read is a parameter:
it is given the backing path, an offset and the old contents of the caller's buffer,
and returns its result with the buffer as it leaves it. -/

namespace WovenHat.Vfs

open Library Function

/-! ## Shared file pages -/

/-- `file_frames::Key`. -/
structure FrameKey where
  node : NodeId
  generation : ℕ
  version : ℕ
  offset : ℕ
  count : ℕ
  shared : Bool
  snapshot : ℕ

/-- `file_frames::Entry`. -/
structure FrameEntry where
  key : FrameKey
  frame : ℕ
  age : ℕ

/-- `file_frames::CACHE` with the contents of the physical frames it refers to. -/
structure FileFrames where
  cache : Fin 64 → Option FrameEntry
  page : ℕ → Buffer 4096

namespace FileFrames

variable (f : FileFrames)

/-- The cached pages that a shared mapping of one file generation uses. -/
def sharedEntries (node : NodeId) (generation : ℕ) : List FrameEntry :=
  ((List.finRange 64).filterMap f.cache).filter fun e =>
    e.key.shared && e.key.node == node && e.key.generation == generation

/-- One step of `file_frames::overlay`: copy the part of a page that lies in the buffer. -/
def overlayEntry (offset : ℕ) (bytes : List UInt8) (e : FrameEntry) : List UInt8 :=
  let start := max offset e.key.offset
  let stop := min (offset + bytes.length) (e.key.offset + e.key.count)
  if start < stop then
    bytes.take (start - offset) ++
      (f.page e.frame).slice (start - e.key.offset) (stop - start) ++
      bytes.drop (stop - offset)
  else bytes

def overlay (node : NodeId) (generation offset : ℕ) (bytes : List UInt8) : List UInt8 :=
  (f.sharedEntries node generation).foldl (f.overlayEntry offset) bytes

/-- Apply a function to the cached pages of one file generation, slot by slot. -/
def mapShared (node : NodeId) (generation : ℕ)
    (change : FrameEntry → Buffer 4096 → ℕ × Buffer 4096) : FileFrames :=
  (List.finRange 64).foldl (fun f i =>
    match f.cache i with
    | some e =>
      if e.key.shared && e.key.node == node && e.key.generation == generation then
        let (count, page) := change e (f.page e.frame)
        { cache := update f.cache i (some { e with key := { e.key with count } })
          page := update f.page e.frame page }
      else f
    | none => f) f

def update (node : NodeId) (generation offset : ℕ) (bytes : List UInt8) : FileFrames :=
  f.mapShared node generation fun e page =>
    let count :=
      if offset < e.key.offset + 4096 ∧ offset + bytes.length > e.key.offset then
        max e.key.count (min (offset + bytes.length - e.key.offset) 4096)
      else e.key.count
    let start := max offset e.key.offset
    let stop := min (offset + bytes.length) (e.key.offset + count)
    (count, if start < stop then
      page.write (start - e.key.offset) ((bytes.take (stop - offset)).drop (start - offset))
    else page)

def replace (node : NodeId) (generation : ℕ) (bytes : List UInt8) : FileFrames :=
  f.mapShared node generation fun e _ =>
    let count := min (bytes.length - e.key.offset) 4096
    (count, Buffer.zero.write 0 ((bytes.drop e.key.offset).take count))

end FileFrames

/-! ## The open-file table -/

def maxOpenFiles : ℕ := 64

structure OpenFileDescription where
  node : NodeId
  generation : ℕ
  offset : ℕ
  refcount : ℕ
  occupied : Bool

def OpenFileDescription.empty : OpenFileDescription :=
  ⟨⟨0, by decide⟩, 0, 0, 0, false⟩

abbrev OpenFileTable := Fin maxOpenFiles → OpenFileDescription

/-- `OpenFileId`, an index that has not been checked against the table. -/
abbrev OpenFileId := ℕ

namespace OpenFileTable

variable (t : OpenFileTable)

def alloc (node : NodeId) (generation : ℕ) : Except Error (OpenFileId × OpenFileTable) :=
  match (List.finRange maxOpenFiles).find? fun i => !(t i).occupied with
  | none => .error .full
  | some slot => .ok (slot, update t slot ⟨node, generation, 0, 1, true⟩)

def getMut (id : OpenFileId) : Except Error (Fin maxOpenFiles) :=
  if h : id < maxOpenFiles then
    if (t ⟨id, h⟩).occupied ∧ (t ⟨id, h⟩).refcount > 0 then .ok ⟨id, h⟩
    else .error .invalidDescriptor
  else .error .invalidDescriptor

def cloneId (id : OpenFileId) : Except Error OpenFileTable :=
  match t.getMut id with
  | .error e => .error e
  | .ok slot =>
    if (t slot).refcount + 1 < 2 ^ 32 then
      .ok (update t slot { t slot with refcount := (t slot).refcount + 1 })
    else .error .full

/-- `OpenFileTable::drop_id` of a description that `get_mut` has accepted. -/
def dropId (slot : Fin maxOpenFiles) : OpenFileTable :=
  let refcount := (t slot).refcount - 1
  update t slot
    (if refcount = 0 then OpenFileDescription.empty else { t slot with refcount })

def refersTo (node : NodeId) : Bool :=
  (List.finRange maxOpenFiles).any fun i => (t i).occupied && (t i).node == node

end OpenFileTable

end WovenHat.Vfs
