import WovenHat.Model.Vfs.SharedMappings

/-! # Processes that share the pages of files

The VFS together with the shared mappings of all processes. A cached frame can be freed when no
mapping has it (`file_frame_references` is one); a frame that an allocation returns is not in
the cache. -/

namespace WovenHat.Vfs

open Library

def SharedMapping.pages (m : SharedMapping) : List ℕ :=
  List.range ((m.size + 4095) / 4096)

structure Sharing where
  vfs : State
  mappings : List SharedMapping

namespace Sharing

def inUse (mappings : List SharedMapping) (frame : ℕ) : Bool :=
  mappings.any fun m => m.pages.any fun j => m.frame j == some frame

/-- The frames that only the cache refers to. -/
def unused (mappings : List SharedMapping) (frame : ℕ) : Bool :=
  !inUse mappings frame

def cached (v : State) (frame : ℕ) : Bool :=
  (List.finRange 64).any fun i => (v.frames.cache i).any fun e => e.frame == frame

/-- What processes do with files and their shared pages. Mappings are numbered. -/
inductive Act where
  | seek (id : OpenFileId) (offset : ℕ)
  | write (disk : DiskReader) (id : OpenFileId) (buffer : List UInt8)
  | writeFile (path : Str) (data : List UInt8)
  | writeMappingAt (id : OpenFileId) (offset : ℕ) (bytes : List UInt8)
  | map (disk : DiskReader) (file : OpenFileId) (offset length : ℕ)
  | fault (disk : DiskReader) (mapping index : ℕ) (fresh : Option ℕ)
  | store (mapping index offset : ℕ) (bytes : List UInt8)
  | sync (mapping : ℕ)
  | unmap (mapping : ℕ)
  | evict (mapping index : ℕ)
  | reclaim

variable (s : Sharing)

/-- `map_file_shared` by some process. -/
def map (disk : DiskReader) (file : OpenFileId) (offset length : ℕ) : Sharing :=
  match s.vfs.mapFileShared disk file offset length with
  | (none, v) => { s with vfs := v }
  | (some m, v) => ⟨v, s.mappings ++ [m]⟩

/-- `populate_file_page`. -/
def fault (disk : DiskReader) (mapping : ℕ) (m : SharedMapping) (index : ℕ)
    (fresh : Option ℕ) : Sharing :=
  let (_, m, v) := s.vfs.populateFilePage disk m index fresh (unused s.mappings)
  ⟨v, s.mappings.set mapping m⟩

/-- `unmap_anonymous`; the mapping stays if it cannot be written back. -/
def unmap (mapping : ℕ) (m : SharedMapping) : Sharing :=
  if (s.vfs.syncFileMapping m).1 then
    let rest := s.mappings.eraseIdx mapping
    ⟨(s.vfs.unmapAnonymous m (unused rest)).2, rest⟩
  else { s with vfs := (s.vfs.unmapAnonymous m (unused s.mappings)).2 }

/-- `evict_file_page`. -/
def evict (mapping : ℕ) (m : SharedMapping) (index : ℕ) : Sharing :=
  let without := s.mappings.set mapping { m with frame := Function.update m.frame index none }
  let (_, m, v) := s.vfs.evictFilePage m index (unused without)
  ⟨v, s.mappings.set mapping m⟩

def step : Act → Option Sharing
  | .seek id offset => some { s with vfs := (s.vfs.seek id offset).2 }
  | .write disk id buffer => some { s with vfs := (s.vfs.write disk id buffer).2 }
  | .writeFile path data => some { s with vfs := (s.vfs.writeFile path data).2 }
  | .writeMappingAt id offset bytes =>
    some { s with vfs := (s.vfs.writeMappingAt id offset bytes).2 }
  | .map disk file offset length => some (s.map disk file offset length)
  | .fault disk mapping index fresh =>
    match s.mappings[mapping]? with
    | none => none
    | some m =>
      if fresh.any fun frame => cached s.vfs frame || inUse s.mappings frame then none
      else some (s.fault disk mapping m index fresh)
  | .store mapping index offset bytes =>
    match (s.mappings[mapping]?).bind fun m => m.frame index with
    | none => none
    | some frame =>
      if offset + bytes.length > 4096 then none
      else some { s with vfs := s.vfs.storeMapped frame offset bytes }
  | .sync mapping =>
    match s.mappings[mapping]? with
    | none => none
    | some m => some { s with vfs := (s.vfs.syncFileMapping m).2 }
  | .unmap mapping =>
    match s.mappings[mapping]? with
    | none => none
    | some m => some (s.unmap mapping m)
  | .evict mapping index =>
    match s.mappings[mapping]? with
    | none => none
    | some m => some (s.evict mapping m index)
  | .reclaim =>
    some { s with vfs :=
      { s.vfs with frames := s.vfs.frames.reclaimUnused (unused s.mappings) } }

end Sharing

end WovenHat.Vfs
