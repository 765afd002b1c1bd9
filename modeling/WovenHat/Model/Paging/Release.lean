import WovenHat.Model.Frames
import WovenHat.Model.Paging

/-! # Releasing the memory of a process

`exit_current_process` and `exec_current` call `unmap_anonymous` for the mappings of a process
and then `destroy` for its address space, and assert that each call succeeds. Sizes and
addresses are in pages, except for those in a file. The functions are generic in the frame
allocator, of which they only use `deallocate_frame`; `none` is a call that fails. -/

namespace WovenHat.Release

open Paging (Frame Page CowTable)

/-- The user pages of the address space, the COW table, the frames in the cache of
`file_frames.rs` and the allocator. -/
structure Memory (α : Type) where
  pages : Page → Option Frame
  cow : CowTable
  cache : List Frame
  allocator : α

/-- What `vfs.rs` has for the description that a mapping keeps: whether its node is a file, of
which length and permission, the generation, and whether closing the description frees the
node. Writing back changes none of it, and closing others only decides which one is the last. -/
structure BackingFile where
  isFile : Bool
  length : ℕ
  writable : Bool
  generation : ℕ
  freed : Bool
  deriving DecidableEq, Repr

/-- `LazyFile`. A description that is not open has no file. -/
structure LazyFile where
  file : Option BackingFile
  offset : ℕ
  length : ℕ
  shared : Bool
  deriving DecidableEq, Repr

structure AnonymousMapping where
  start : Page
  size : ℕ
  resident : BitVec 16
  lazy : Option LazyFile
  deriving DecidableEq, Repr

/-- The mappings of a process, the ranges of its stack and its ELF segments, and the frames of
its page tables, the one of level 4 last. -/
structure Process where
  mappings : List AnonymousMapping
  ranges : List (Page × ℕ)
  tables : List Frame
  deriving DecidableEq, Repr

section Release

variable {α : Type} (deallocate : α → Frame → Bool × α) (m : Memory α)

def releaseFrame (frame : Frame) : Bool × Memory α :=
  match m.cow.release frame with
  | (false, cow) => (true, { m with cow })
  | (true, cow) =>
    ((deallocate m.allocator frame).1,
      { m with cow, allocator := (deallocate m.allocator frame).2 })

/-- A round of the loops of `unmap_user_range_in` and `destroy_user_address_space`. -/
def unmapPage (page : Page) : Option (Memory α) :=
  match m.pages page with
  | none => none
  | some frame =>
    match releaseFrame deallocate { m with pages := Function.update m.pages page none } frame with
    | (true, m) => some m
    | (false, _) => none

def unmapUserRange (start : Page) (size : ℕ) : Option (Memory α) :=
  if size = 0 then none else (List.range' start size).foldlM (unmapPage deallocate) m

/-- A round of `reclaim_unused`. -/
def reclaimEntry (frame : Frame) : Memory α :=
  if m.cow.refcount frame = 1 then
    match releaseFrame deallocate m frame with
    | (true, m) => { m with cache := m.cache.erase frame }
    | (false, m) => m
  else m

def reclaimUnused : Memory α :=
  m.cache.foldl (reclaimEntry deallocate) m

/-- A round of the loop of `unmap_anonymous`. -/
def unmapResident (mapping : AnonymousMapping) (m : Memory α) (index : ℕ) : Option (Memory α) :=
  if mapping.resident.getLsbD index then unmapUserRange deallocate m (mapping.start + index) 1
  else some m

/-- The bytes of a page of a mapping that lie in the file. -/
def LazyFile.count (backing : LazyFile) (length index : ℕ) : ℕ :=
  min (min (length - (backing.offset + index * 4096)) (backing.length - index * 4096)) 4096

/-- The success of `sync_file_mapping` without `durable`, with that of `read_user_bytes_in` and
`write_mapping_at` for every resident page. -/
def syncFileMapping (pages : Page → Option Frame) (mapping : AnonymousMapping)
    (backing : LazyFile) : Bool :=
  match backing.file with
  | none => false
  | some file =>
    file.isFile && (List.range mapping.size).all fun index =>
      !mapping.resident.getLsbD index || backing.count file.length index == 0 ||
        ((pages (mapping.start + index)).isSome && file.writable &&
          decide (backing.offset + index * 4096 + backing.count file.length index ≤ file.length))

/-- The success of `close_open_file`: a node that is freed needs a new generation. -/
def closeOpenFile (backing : LazyFile) : Bool :=
  backing.file.any fun file => !file.freed || decide (file.generation + 1 < 2 ^ 64)

def unmapAnonymous (mapping : AnonymousMapping) : Option (Memory α) :=
  match mapping.lazy with
  | some backing =>
    if backing.shared && !syncFileMapping m.pages mapping backing then none
    else do
      let m ← (List.range mapping.size).foldlM (unmapResident deallocate mapping) m
      if closeOpenFile backing then some (reclaimUnused deallocate m) else none
  | none => unmapUserRange deallocate m mapping.start mapping.size

/-- A round of the last loop of `destroy_user_address_space`. -/
def releaseTable (frame : Frame) : Option (Memory α) :=
  match deallocate m.allocator frame with
  | (true, allocator) => some { m with allocator }
  | (false, _) => none

/-- `destroy_user_address_space`, for an address space that is not active. -/
def destroyUserAddressSpace (p : Process) : Option (Memory α) :=
  if p.ranges = [] then none
  else do
    let m ← p.ranges.foldlM (fun m range => unmapUserRange deallocate m range.1 range.2) m
    p.tables.foldlM (releaseTable deallocate) m

/-- The calls whose success `exit_current_process` and `exec_current` assert. -/
def release (p : Process) : Option (Memory α) := do
  let m ← p.mappings.foldlM (unmapAnonymous deallocate) m
  destroyUserAddressSpace deallocate m p

end Release

end WovenHat.Release
