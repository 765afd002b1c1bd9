import WovenHat.Model.Vfs.Operations

/-! # Shared file mappings

The life of a shared mapping: `map_file_shared`, the fault that maps a page, stores through
the page, and the two ways in which a page leaves the address space, `unmap_anonymous` and
`evict_file_page`. A page is resident when the mapping has a frame for it; the page tables
hold nothing else that matters here, and calls that only change them succeed. Which frames the
cache could free is a parameter (`unused`), and so is the frame that an allocation returns. -/

namespace WovenHat.Vfs

open Library Function

/-- `MAX_SIZE` of `file_mapping.rs`. -/
def maxMappingSize : ℕ := 65536

def mappedSize (fileSize offset length : ℕ) : Option ℕ :=
  if length = 0 ∨ length > maxMappingSize ∨ offset % 4096 ≠ 0 ∨ offset + length > fileSize then none
  else some ((length + 4095) / 4096 * 4096)

/-- A shared `AnonymousMapping`, with the frames that its resident pages are mapped to. -/
structure SharedMapping where
  file : OpenFileId
  generation : ℕ
  offset : ℕ
  length : ℕ
  size : ℕ
  frame : ℕ → Option ℕ

namespace FileFrames

def reclaimUnused (f : FileFrames) (unused : ℕ → Bool) : FileFrames :=
  { f with cache := fun i => (f.cache i).filter fun e => !unused e.frame }

/-- The entry with the greatest age among those that can be freed, the last one of several. -/
def oldestUnused (f : FileFrames) (unused : ℕ → Bool) : Option (Fin 64) :=
  (List.finRange 64).foldl (fun best i =>
    match f.cache i with
    | none => best
    | some e =>
      if !unused e.frame then best
      else
        match best.bind f.cache with
        | none => some i
        | some b => if b.age ≤ e.age then some i else best) none

/-- The slot that a new entry takes. -/
def slotFor (f : FileFrames) (unused : ℕ → Bool) : Option (Fin 64) :=
  ((List.finRange 64).find? fun i => (f.cache i).isNone).or (f.oldestUnused unused)

/-- A store through a mapped page. -/
def poke (f : FileFrames) (frame offset : ℕ) (bytes : List UInt8) : FileFrames :=
  { f with page := Function.update f.page frame ((f.page frame).write offset bytes) }

end FileFrames

namespace State

variable (v : State)

def fileSize (id : OpenFileId) : Except Error ℕ :=
  match v.openFiles.getMut id with
  | .error e => .error e
  | .ok slot =>
    let node := v.registry.nodes (v.openFiles slot).node
    if node.occupied ∧ node.kind = .file then .ok node.length else .error .invalidDescriptor

def fileGeneration (id : OpenFileId) : Except Error ℕ :=
  match v.openFiles.getMut id with
  | .error e => .error e
  | .ok slot =>
    let entry := v.openFiles slot
    if !(v.registry.nodes entry.node).occupied ∨
        v.registry.generations entry.node ≠ entry.generation then
      .error .invalidDescriptor
    else .ok entry.generation

/-- `map_file_lazy` of pages that are not mapped, with the `shared` flag set. -/
def mapFileLazy (file : OpenFileId) (offset length : ℕ) : Option SharedMapping × State :=
  match v.fileSize file with
  | .error _ => (none, v)
  | .ok fileSize =>
    match mappedSize fileSize offset length with
    | none => (none, v)
    | some size =>
      match v.fileGeneration file with
      | .error _ => (none, v)
      | .ok generation =>
        match v.cloneOpenFile file with
        | (.error _, v) => (none, v)
        | (.ok file, v) => (some ⟨file, generation, offset, length, size, fun _ => none⟩, v)

def mapFileShared (disk : DiskReader) (v : State) (file : OpenFileId) (offset length : ℕ) :
    Option SharedMapping × State :=
  match v.fileSize file with
  | .error _ => (none, v)
  | .ok size =>
    if (mappedSize size offset length).isNone then (none, v)
    else if length % 4096 ≠ 0 ∧ offset + length ≠ size then (none, v)
    else
      match v.prepareSharedFile disk file with
      | (.error _, v) => (none, v)
      | (.ok (), v) => v.mapFileLazy file offset length

/-- `file_frames::map` of a shared page: the frame that is mapped. Nothing else loads pages
while the file is read. -/
def mapFrame (disk : DiskReader) (v : State) (file : OpenFileId) (generation offset count : ℕ)
    (fresh : Option ℕ) (unused : ℕ → Bool) : Option ℕ × State :=
  match v.openFiles.getMut file with
  | .error _ => (none, v)
  | .ok slot =>
    let entry := v.openFiles slot
    if v.fileGeneration file ≠ .ok generation then (none, v)
    else
      let key : FrameKey := ⟨entry.node, generation, 0, offset, count, true, 0⟩
      let aged : FileFrames :=
        { v.frames with cache := fun i =>
            (v.frames.cache i).map fun e => { e with age := min (e.age + 1) (2 ^ 64 - 1) } }
      let v := { v with frames := aged }
      let found := (List.finRange 64).find? fun i =>
        (v.frames.cache i).any fun e =>
          e.key.node == key.node && e.key.generation == key.generation &&
            e.key.version == key.version && e.key.offset == key.offset &&
            e.key.shared && e.key.snapshot == key.snapshot
      match found.bind fun i => (v.frames.cache i).map fun e => (i, e) with
      | some (i, e) =>
        (some e.frame, { v with frames :=
          { v.frames with cache := update v.frames.cache i (some { e with age := 0 }) } })
      | none =>
        match v.readFrom disk file (some offset) (List.replicate count 0) (some generation) with
        | (.error _, v) => (none, v)
        | (.ok bytes, v) =>
          if bytes.length ≠ count then (none, v)
          else
            match v.frames.slotFor unused with
            | none => (none, v)
            | some i =>
              let cache := update v.frames.cache i none
              match fresh with
              | none => (none, { v with frames := { v.frames with cache } })
              | some frame =>
                (some frame, { v with frames :=
                  { cache := update cache i (some ⟨key, frame, 0⟩)
                    page := update v.frames.page frame (Buffer.ofList bytes) } })

/-- `populate_file_page` of a shared mapping, which has no swapped pages. -/
def populateFilePage (disk : DiskReader) (v : State) (mapping : SharedMapping) (index : ℕ)
    (fresh : Option ℕ) (unused : ℕ → Bool) : Bool × SharedMapping × State :=
  if index * 4096 ≥ mapping.size ∨ (mapping.frame index).isSome then (false, mapping, v)
  else
    let count := min (mapping.length - index * 4096) 4096
    match v.mapFrame disk mapping.file mapping.generation (mapping.offset + index * 4096) count
        fresh unused with
    | (none, v) => (false, mapping, v)
    | (some frame, v) =>
      (true, { mapping with frame := update mapping.frame index (some frame) }, v)

/-- A store through the mapping, in one page. -/
def storeMapped (frame offset : ℕ) (bytes : List UInt8) : State :=
  { v with frames := v.frames.poke frame offset bytes }

variable (mapping : SharedMapping)

/-- Copy the first `count` bytes of a page to the file. -/
def writeBack (index frame count : ℕ) : Bool × State :=
  if count = 0 then (true, v)
  else
    match v.writeMappingAt mapping.file (mapping.offset + index * 4096)
        ((v.frames.page frame).slice 0 count) with
    | (.error _, v) => (false, v)
    | (.ok (), v) => (true, v)

/-- The loop of `sync_file_mapping` over the pages. -/
def syncPages (length : ℕ) (mapping : SharedMapping) (v : State) : List ℕ → Bool × State
  | [] => (true, v)
  | index :: pages =>
    match mapping.frame index with
    | none => syncPages length mapping v pages
    | some frame =>
      let count := min (min (length - (mapping.offset + index * 4096))
        (mapping.length - index * 4096)) 4096
      match v.writeBack mapping index frame count with
      | (false, v) => (false, v)
      | (true, v) => syncPages length mapping v pages

/-- `sync_file_mapping` without `durable`. -/
def syncFileMapping : Bool × State :=
  match v.fileSize mapping.file with
  | .error _ => (false, v)
  | .ok length => syncPages length mapping v (List.range (mapping.size / 4096))

def unmapAnonymous (unused : ℕ → Bool) : Bool × State :=
  match v.syncFileMapping mapping with
  | (false, v) => (false, v)
  | (true, v) =>
    let (result, v) := v.closeOpenFile mapping.file
    (result.isOk, { v with frames := v.frames.reclaimUnused unused })

def evictFilePage (index : ℕ) (unused : ℕ → Bool) : Bool × SharedMapping × State :=
  match mapping.frame index with
  | none => (false, mapping, v)
  | some frame =>
    match v.writeBack mapping index frame (min (mapping.length - index * 4096) 4096) with
    | (false, v) => (false, mapping, v)
    | (true, v) =>
      (true, { mapping with frame := update mapping.frame index none },
        { v with frames := v.frames.reclaimUnused unused })

end State

end WovenHat.Vfs
