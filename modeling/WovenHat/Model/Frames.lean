import Mathlib

/-! # Physical frames

`PhysicalFrameAllocator` of `memory.rs`, with the ranges of usable frames, the cursor into
them and the stack of frames given back. Addresses are `u64` values. The arrays are lists of
their occupied entries, the stack with its top first. -/

namespace WovenHat.Frames

def frameSize : ℕ := 4096

def maxUsableRegions : ℕ := 128

def maxReclaimedFrames : ℕ := 1024

/-- `MemoryRegionKind`, in which only one kind matters here. -/
inductive MemoryRegionKind where
  | usable
  | other
  deriving DecidableEq, Repr

/-- `MemoryRegion`, which ends before `stop`. -/
structure MemoryRegion where
  start : UInt64
  stop : UInt64
  kind : MemoryRegionKind
  deriving DecidableEq, Repr

/-- `FrameRange`: the frames before `next` have been handed out. -/
structure FrameRange where
  start : ℕ
  next : ℕ
  stop : ℕ
  deriving DecidableEq, Repr

inductive InitError where
  | alreadyInitialized
  | tooManyUsableRegions
  | addressOverflow
  | noUsableFrames
  deriving DecidableEq, Repr

/-- `align_down`, for an alignment that is a power of two. -/
def alignDown (address alignment : ℕ) : ℕ :=
  address - address % alignment

def alignUp (address alignment : ℕ) : Option ℕ :=
  if address + (alignment - 1) < 2 ^ 64 then some (alignDown (address + (alignment - 1)) alignment)
  else none

/-- `PhysicalFrameAllocator`. -/
structure Allocator where
  ranges : List FrameRange
  currentRange : ℕ
  totalFrames : ℕ
  allocatedFrames : ℕ
  reclaimedFrames : List ℕ
  initialized : Bool
  deriving DecidableEq, Repr

/-- What `allocate_frame` comes to: `PhysAddr::new` panics on an address of more than 52
bits. -/
inductive Outcome where
  | frame (address : ℕ)
  | none
  | panic
  deriving DecidableEq, Repr

/-- `PhysFrame::from_start_address(PhysAddr::new(address)).ok()`. -/
def physFrame (address : ℕ) : Outcome :=
  if 2 ^ 52 ≤ address then .panic
  else if address % frameSize = 0 then .frame address
  else .none

namespace Allocator

def empty : Allocator := ⟨[], 0, 0, 0, [], false⟩

/-! ## Start-up -/

/-- What the loop of `initialize` does with one region. -/
def addRegion (a : Allocator) (region : MemoryRegion) : Except InitError Allocator :=
  if region.kind ≠ .usable then .ok a
  else
    match alignUp (max region.start.toNat 0x100000) frameSize with
    | none => .error .addressOverflow
    | some start =>
      let stop := alignDown region.stop.toNat frameSize
      if stop ≤ start then .ok a
      else if a.ranges.length = maxUsableRegions then .error .tooManyUsableRegions
      else if a.totalFrames + (stop - start) / frameSize < 2 ^ 64 then
        .ok { a with
          ranges := a.ranges ++ [⟨start, start, stop⟩]
          totalFrames := a.totalFrames + (stop - start) / frameSize }
      else .error .addressOverflow

/-- The loop of `initialize`. The ranges read before an error stay. -/
def addRegions (a : Allocator) : List MemoryRegion → Except InitError Unit × Allocator
  | [] => (.ok (), a)
  | region :: regions =>
    match a.addRegion region with
    | .error e => (.error e, a)
    | .ok a => a.addRegions regions

/-- `init`, which is `initialize` under the lock. -/
def init (a : Allocator) (regions : List MemoryRegion) : Except InitError Unit × Allocator :=
  if a.initialized then (.error .alreadyInitialized, a)
  else
    match a.addRegions regions with
    | (.error e, a) => (.error e, a)
    | (.ok (), a) =>
      if a.totalFrames = 0 then (.error .noUsableFrames, a)
      else (.ok (), { a with initialized := true })

/-! ## Handing out frames -/

/-- The loop of `allocate_frame` over the ranges from the current one on. -/
def allocateFresh (a : Allocator) : Outcome × Allocator :=
  if h : a.currentRange < a.ranges.length then
    let range := a.ranges[a.currentRange]
    if range.next < range.stop then
      (physFrame range.next,
        { a with
          ranges := a.ranges.set a.currentRange { range with next := range.next + frameSize }
          allocatedFrames := a.allocatedFrames + 1 })
    else allocateFresh { a with currentRange := a.currentRange + 1 }
  else (.none, a)
termination_by a.ranges.length - a.currentRange

def allocateFrame (a : Allocator) : Outcome × Allocator :=
  if !a.initialized then (.none, a)
  else
    match a.reclaimedFrames with
    | address :: reclaimedFrames =>
      (physFrame address,
        { a with reclaimedFrames, allocatedFrames := a.allocatedFrames + 1 })
    | [] => a.allocateFresh

def contains (a : Allocator) (address : ℕ) : Bool :=
  a.ranges.any fun range => decide (range.start ≤ address ∧ address < range.stop)

def deallocateFrame (a : Allocator) (address : ℕ) : Bool × Allocator :=
  if !a.contains address ∨ a.allocatedFrames = 0 ∨
      a.reclaimedFrames.length = maxReclaimedFrames ∨ address ∈ a.reclaimedFrames then
    (false, a)
  else
    (true, { a with
      reclaimedFrames := address :: a.reclaimedFrames
      allocatedFrames := a.allocatedFrames - 1 })

end Allocator

/-! ## Runs -/

/-- The allocator and the frames that it handed out and did not take back. -/
structure State where
  allocator : Allocator
  held : List ℕ
  deriving DecidableEq, Repr

inductive Call where
  | allocateFrame
  | deallocateFrame (address : ℕ)
  deriving DecidableEq, Repr

/-- A call. A panic ends the run, and only held frames are given back. -/
def step (s : State) : Call → Option State
  | .allocateFrame =>
    match s.allocator.allocateFrame with
    | (.frame address, allocator) => some ⟨allocator, address :: s.held⟩
    | (.none, allocator) => some ⟨allocator, s.held⟩
    | (.panic, _) => none
  | .deallocateFrame address =>
    if address ∈ s.held then
      match s.allocator.deallocateFrame address with
      | (true, allocator) => some ⟨allocator, s.held.erase address⟩
      | (false, allocator) => some ⟨allocator, s.held⟩
    else none

end WovenHat.Frames
