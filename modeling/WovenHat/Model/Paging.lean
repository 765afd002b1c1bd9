import WovenHat.Model.Frames

/-! # User pages

The part of `paging.rs` that maps, shares and frees the frames of user pages, with the
frame allocator of `memory.rs`. The page tables are one finite map from pages of address
spaces to frames and flags; the frames of the tables themselves are left out, and whether
`map_to` finds one is a parameter (`fails`). Which frames `file_frames.rs` keeps in its cache
is part of the state, with the `shared` flag of the key. Every function is one critical
section. -/

namespace WovenHat.Paging

open Function

abbrev Frame := ℕ

/-- `AddressSpace`. -/
abbrev Space := ℕ

abbrev Page := ℕ

/-! ## Reference counts -/

def maxCowFrames : ℕ := 1024

structure CowEntry where
  frame : Frame
  refcount : ℕ
  occupied : Bool

def CowEntry.empty : CowEntry := ⟨0, 0, false⟩

abbrev CowTable := Fin maxCowFrames → CowEntry

namespace CowTable

def findSlot (t : CowTable) (frame : Frame) : Option (Fin maxCowFrames) :=
  (List.finRange maxCowFrames).find? fun i => (t i).occupied && (t i).frame == frame

/-- `CowTable::share`, which fails without a free entry or when the count overflows. -/
def share (t : CowTable) (frame : Frame) : Option CowTable :=
  match t.findSlot frame with
  | some slot =>
    if (t slot).refcount + 1 < 2 ^ 32 then
      some (update t slot { t slot with refcount := (t slot).refcount + 1 })
    else none
  | none =>
    match (List.finRange maxCowFrames).find? fun i => !(t i).occupied with
    | none => none
    | some slot => some (update t slot ⟨frame, 2, true⟩)

/-- `CowTable::release`: whether the frame should be freed. -/
def release (t : CowTable) (frame : Frame) : Bool × CowTable :=
  match t.findSlot frame with
  | none => (true, t)
  | some slot =>
    let refcount := (t slot).refcount - 1
    if refcount = 0 then (true, update t slot CowEntry.empty)
    else (false, update t slot { t slot with refcount })

def refcount (t : CowTable) (frame : Frame) : ℕ :=
  match t.findSlot frame with
  | some slot => (t slot).refcount
  | none => 1

def clear (t : CowTable) (frame : Frame) : CowTable :=
  match t.findSlot frame with
  | some slot => update t slot CowEntry.empty
  | none => t

end CowTable

/-! ## Physical frames -/

/-- `PhysicalFrameAllocator`: the usable frames, those that have never been handed out in the
order of the ranges, and the stack of reclaimed ones. -/
structure FrameAllocator where
  usable : List Frame
  fresh : List Frame
  reclaimed : List Frame
  allocatedFrames : ℕ

namespace FrameAllocator

def allocate (a : FrameAllocator) : Option (Frame × FrameAllocator) :=
  match a.reclaimed, a.fresh with
  | frame :: reclaimed, _ =>
    some (frame, { a with reclaimed, allocatedFrames := a.allocatedFrames + 1 })
  | [], frame :: fresh => some (frame, { a with fresh, allocatedFrames := a.allocatedFrames + 1 })
  | [], [] => none

def deallocate (a : FrameAllocator) (frame : Frame) : Bool × FrameAllocator :=
  if frame ∉ a.usable ∨ a.allocatedFrames = 0 ∨ a.reclaimed.length = Frames.maxReclaimedFrames ∨
      frame ∈ a.reclaimed then
    (false, a)
  else
    (true, { a with
      reclaimed := frame :: a.reclaimed, allocatedFrames := a.allocatedFrames - 1 })

end FrameAllocator

/-! ## Page tables -/

/-- An entry of a page table, which `user_flags` makes present and accessible to the user. -/
structure Pte where
  frame : Frame
  writable : Bool
  executable : Bool
  deriving DecidableEq, Repr

structure Memory where
  tables : AList fun _ : Space × Page => Pte
  cow : CowTable
  allocator : FrameAllocator
  cached : Frame → Option Bool
  bytes : Frame → ℕ → UInt8

namespace Memory

def boot (frames : List Frame) (bytes : Frame → ℕ → UInt8) : Memory where
  tables := ∅
  cow _ := CowEntry.empty
  allocator := ⟨frames, frames, [], 0⟩
  cached _ := none
  bytes := bytes

/-- Apply a function page by page. On a failure the pages before it are undone in order, by
`undo`. -/
def forPages (step : Memory → ℕ → Bool × Memory) (undo : Memory → ℕ → Memory) :
    ℕ → ℕ → Memory → Bool × Memory
  | 0, _, m => (true, m)
  | todo + 1, done, m =>
    let (ok, m) := step m done
    if ok then forPages step undo todo (done + 1) m
    else (false, (List.range done).foldl undo m)

variable (m : Memory) (space : Space) (page : Page)

/-- One page of `map_user_range_in`. -/
def mapPage (writable executable fails : Bool) : Bool × Memory :=
  if (m.tables.lookup (space, page)).isSome then (false, m)
  else
    match m.allocator.allocate with
    | none => (false, m)
    | some (frame, allocator) =>
      if fails then (false, { m with allocator := (allocator.deallocate frame).2 })
      else
        (true, { m with
          allocator, tables := m.tables.insert (space, page) ⟨frame, writable, executable⟩ })

/-- The rollback of `map_user_range_in` frees the frame of a page at once. -/
def unmapFresh : Memory :=
  match m.tables.lookup (space, page) with
  | none => m
  | some pte =>
    { m with
      tables := m.tables.erase (space, page)
      allocator := (m.allocator.deallocate pte.frame).2 }

/-- `map_user_range_in`; `page_range` rejects an empty range. -/
def mapUserRange (start : Page) (size : ℕ)
    (writable executable : Bool) (fails : ℕ → Bool) : Bool × Memory :=
  if size = 0 then (false, m)
  else
    forPages (fun m i => m.mapPage space (start + i) writable executable (fails i))
      (fun m i => m.unmapFresh space (start + i)) size 0 m

def releaseFrame (frame : Frame) : Bool × Memory :=
  let (free, cow) := m.cow.release frame
  let m := { m with cow }
  if free then
    let (ok, allocator) := m.allocator.deallocate frame
    (ok, { m with allocator })
  else (true, m)

/-- One page of `share_user_range_in`. The entry of the count is made before the page is
mapped. -/
def sharePage (source destination : Space) (page : Page)
    (writable executable fails : Bool) : Bool × Memory :=
  match m.tables.lookup (source, page) with
  | none => (false, m)
  | some pte =>
    if (m.tables.lookup (destination, page)).isSome then (false, m)
    else
      match m.cow.share pte.frame with
      | none => (false, m)
      | some cow =>
        if fails then (false, { m with cow := (cow.release pte.frame).2 })
        else
          let tables := m.tables.insert (destination, page) ⟨pte.frame, false, executable⟩
          let tables :=
            if writable && pte.writable then
              tables.insert (source, page) ⟨pte.frame, false, executable⟩
            else tables
          (true, { m with cow, tables })

/-- One page of `rollback_shared`. -/
def unmapShared (destination : Space) (page : Page) : Memory :=
  match m.tables.lookup (destination, page) with
  | none => m
  | some pte =>
    { m with tables := m.tables.erase (destination, page) }.releaseFrame pte.frame |>.2

def shareUserRange (source destination : Space) (start : Page) (size : ℕ)
    (writable executable : Bool) (fails : ℕ → Bool) : Bool × Memory :=
  if source = destination ∨ size = 0 then (false, m)
  else
    forPages
      (fun m i => m.sharePage source destination (start + i) writable executable (fails i))
      (fun m i => m.unmapShared destination (start + i)) size 0 m

/-- `try_break_cow`. Mapping the copy at the page that has just been unmapped needs no new
table. -/
def tryBreakCow : Bool × Memory :=
  match m.tables.lookup (space, page) with
  | none => (false, m)
  | some pte =>
    if pte.writable then (false, m)
    else if m.cow.refcount pte.frame ≤ 1 then
      (true, { m with
        tables := m.tables.insert (space, page) { pte with writable := true }
        cow := m.cow.clear pte.frame })
    else
      match m.allocator.allocate with
      | none => (false, m)
      | some (frame, allocator) =>
        (true, { m with
          allocator
          bytes := update m.bytes frame (m.bytes pte.frame)
          tables := m.tables.insert (space, page) ⟨frame, true, pte.executable⟩
          }.releaseFrame pte.frame |>.2)

/-- One page of `unmap_user_range_in`. -/
def unmapPage : Bool × Memory :=
  match m.tables.lookup (space, page) with
  | none => (false, m)
  | some pte => { m with tables := m.tables.erase (space, page) }.releaseFrame pte.frame

/-- `unmap_user_range_in`, which stops at the first page that it cannot unmap. -/
def unmapUserRange (start : Page) (size : ℕ) : Bool × Memory :=
  if size = 0 then (false, m)
  else forPages (fun m i => m.unmapPage space (start + i)) (fun m _ => m) size 0 m

/-- The user pages that `destroy_user_address_space` frees. -/
def destroyUserAddressSpace (m : Memory) (space : Space) : List (Page × ℕ) → Bool × Memory
  | [] => (true, m)
  | (start, size) :: ranges =>
    let (ok, m) := m.unmapUserRange space start size
    if ok then m.destroyUserAddressSpace space ranges else (false, m)

def mapPrivateFrameFromBytes (bytes : ℕ → UInt8) (writable fails : Bool) : Bool × Memory :=
  match m.allocator.allocate with
  | none => (false, m)
  | some (frame, allocator) =>
    if (m.tables.lookup (space, page)).isSome then
      (false, { m with allocator := (allocator.deallocate frame).2 })
    else
      let m := { m with bytes := update m.bytes frame bytes }
      if fails then (false, { m with allocator := (allocator.deallocate frame).2 })
      else
        (true, { m with
          allocator, tables := m.tables.insert (space, page) ⟨frame, writable, false⟩ })

/-! ## Frames of the file cache -/

/-- `allocate_file_frame`, for a key with the given `shared` flag. -/
def allocateFileFrame (bytes : ℕ → UInt8) (shared : Bool) : Option Frame × Memory :=
  match m.allocator.allocate with
  | none => (none, m)
  | some (frame, allocator) =>
    (some frame, { m with
      allocator
      bytes := update m.bytes frame bytes
      cached := update m.cached frame (some shared) })

def mapFileFrame (frame : Frame) (writable fails : Bool) : Bool × Memory :=
  if (m.tables.lookup (space, page)).isSome then (false, m)
  else
    match m.cow.share frame with
    | none => (false, m)
    | some cow =>
      if fails then (false, { m with cow := (cow.release frame).2 })
      else
        (true, { m with
          cow, tables := m.tables.insert (space, page) ⟨frame, writable, false⟩ })

/-- `release_file_frame` of a frame that the cache gives up. -/
def releaseFileFrame (frame : Frame) : Bool × Memory :=
  { m with cached := update m.cached frame none }.releaseFrame frame

/-- One entry of `reclaim_unused`, which the cache keeps if the frame cannot be freed. -/
def reclaimFileFrame (frame : Frame) : Bool × Memory :=
  let (ok, m) := m.releaseFrame frame
  if ok then (true, { m with cached := update m.cached frame none }) else (false, m)

/-! ## Steps -/

inductive Op where
  | map (space : Space) (start : Page) (size : ℕ) (writable executable : Bool) (fails : ℕ → Bool)
  | share (source destination : Space) (start : Page) (size : ℕ) (writable executable : Bool)
      (fails : ℕ → Bool)
  | breakCow (space : Space) (page : Page)
  | unmap (space : Space) (start : Page) (size : ℕ)
  | destroy (space : Space) (ranges : List (Page × ℕ))
  | mapPrivate (space : Space) (page : Page) (bytes : ℕ → UInt8) (writable fails : Bool)
  | allocateFile (bytes : ℕ → UInt8) (shared : Bool)
  | mapFile (space : Space) (page : Page) (frame : Frame) (writable fails : Bool)
  | releaseFile (frame : Frame)
  | reclaimFile (frame : Frame)

/-- One call. The file cache and `clone_address_space` map cached frames only, writable if the
key is shared; the cache gives up a frame only when it holds the last reference. -/
def step : Op → Option Memory
  | .map space start size writable executable fails =>
    some (m.mapUserRange space start size writable executable fails).2
  | .share source destination start size writable executable fails =>
    some (m.shareUserRange source destination start size writable executable fails).2
  | .breakCow space page => some (m.tryBreakCow space page).2
  | .unmap space start size => some (m.unmapUserRange space start size).2
  | .destroy space ranges => some (m.destroyUserAddressSpace space ranges).2
  | .mapPrivate space page bytes writable fails =>
    some (m.mapPrivateFrameFromBytes space page bytes writable fails).2
  | .allocateFile bytes shared => some (m.allocateFileFrame bytes shared).2
  | .mapFile space page frame writable fails =>
    if m.cached frame = some writable then
      some (m.mapFileFrame space page frame writable fails).2
    else none
  | .releaseFile frame =>
    if (m.cached frame).isSome ∧ m.cow.refcount frame = 1 then some (m.releaseFileFrame frame).2
    else none
  | .reclaimFile frame =>
    if (m.cached frame).isSome ∧ m.cow.refcount frame = 1 then some (m.reclaimFileFrame frame).2
    else none

end Memory

end WovenHat.Paging
