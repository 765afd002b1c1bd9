import WovenHat.Library.SlotTable

/-! # The kernel heap

`HeapState` of `heap.rs`: a bump allocator with a bounded table of live allocations and a
bounded list of free blocks. Addresses and sizes are `usize` values; a null pointer is
`none`. -/

namespace WovenHat.Heap

open Library

def heapStart : ℕ := 0x444450000000

def heapSize : ℕ := 256 * 1024

def maxAllocations : ℕ := 512

def maxFreeBlocks : ℕ := 128

/-- `core::alloc::Layout`, with the conditions that its constructors check. -/
structure Layout where
  size : ℕ
  align : ℕ
  isPowerOfTwo : align.isPowerOfTwo
  fits : size + align ≤ 2 ^ 63

structure FreeBlock where
  ptr : ℕ
  size : ℕ
  deriving DecidableEq, Repr

structure LiveAllocation where
  ptr : ℕ
  size : ℕ
  deriving DecidableEq, Repr

structure HeapState where
  start : ℕ
  stop : ℕ
  next : ℕ
  totalAllocations : ℕ
  totalAllocatedBytes : ℕ
  liveAllocations : List (Option LiveAllocation)
  freeList : List (Option FreeBlock)
  freeCount : ℕ
  deriving DecidableEq, Repr

/-- `align_up`; clearing the low bits of an address leaves a multiple of the alignment,
which is a power of two. -/
def alignUp (value alignment : ℕ) : Option ℕ :=
  if alignment = 0 ∨ ¬alignment.isPowerOfTwo then none
  else if value + (alignment - 1) < 2 ^ 64 then
    some (value + (alignment - 1) - (value + (alignment - 1)) % alignment)
  else none

namespace HeapState

def initialized : HeapState where
  start := heapStart
  stop := heapStart + heapSize
  next := heapStart
  totalAllocations := 0
  totalAllocatedBytes := 0
  liveAllocations := List.replicate maxAllocations none
  freeList := List.replicate maxFreeBlocks none
  freeCount := 0

def insertFreeBlock (h : HeapState) (block : FreeBlock) : HeapState :=
  if block.size = 0 then h
  else if h.freeCount < maxFreeBlocks then
    { h with
      freeList := h.freeList.set h.freeCount (some block)
      freeCount := h.freeCount + 1 }
  else h

/-- The search loop of `find_free`, from the slot `index` on. The outer option is the early
return of `align_up(..)?`, the inner one is `best_idx`. -/
def bestFit (layout : Layout) :
    List (Option FreeBlock) → ℕ → Option ℕ → ℕ → Option (Option ℕ)
  | [], _, bestIdx, _ => some bestIdx
  | none :: slots, index, bestIdx, bestSize =>
    bestFit layout slots (index + 1) bestIdx bestSize
  | some block :: slots, index, bestIdx, bestSize => do
      let alignedPtr ← alignUp block.ptr layout.align
      let waste := alignedPtr - block.ptr
      if waste + layout.size ≤ block.size ∧ block.size < bestSize then
        bestFit layout slots (index + 1) (some index) block.size
      else bestFit layout slots (index + 1) bestIdx bestSize

def findFree (h : HeapState) (layout : Layout) : Option ℕ × HeapState :=
  match bestFit layout (h.freeList.take h.freeCount) 0 none (2 ^ 64 - 1) with
  | some (some idx) =>
    match h.freeList.getD idx none with
    | some block =>
      let taken := { h with freeList := h.freeList.set idx none }
      match alignUp block.ptr layout.align with
      | some alignedPtr =>
        let waste := alignedPtr - block.ptr
        let remaining := block.size - (waste + layout.size)
        (some alignedPtr,
          if 0 < remaining then
            taken.insertFreeBlock ⟨alignedPtr + layout.size, remaining⟩
          else taken)
      | none => (none, taken)
    | none => (none, h)
  | _ => (none, h)

/-- Record an allocation in the first free slot of the table, or return null. -/
def record (h : HeapState) (ptr size : ℕ) : Option ℕ × HeapState :=
  match SlotTable.freeSlot h.liveAllocations with
  | some slot =>
    (some ptr,
      { h with
        liveAllocations := h.liveAllocations.set slot (some ⟨ptr, size⟩)
        totalAllocations := h.totalAllocations + 1
        totalAllocatedBytes := h.totalAllocatedBytes + size })
  | none => (none, h)

/-- The part of `alloc` that takes memory from the unused end of the heap. -/
def bump (h : HeapState) (layout : Layout) : Option ℕ × HeapState :=
  match alignUp h.next layout.align with
  | some aligned =>
    if aligned + layout.size < 2 ^ 64 ∧ aligned + layout.size ≤ h.stop then
      match h.record aligned layout.size with
      | (some ptr, h') => (some ptr, { h' with next := aligned + layout.size })
      | (none, h') => (none, h')
    else (none, h)
  | none => (none, h)

def alloc (h : HeapState) (layout : Layout) : Option ℕ × HeapState :=
  if h.start = 0 then (none, h)
  else
    match h.findFree layout with
    | (some ptr, h') => h'.record ptr layout.size
    | (none, h') => h'.bump layout

def dealloc (h : HeapState) (ptr : ℕ) : HeapState :=
  match h.liveAllocations.findIdx? fun s => s.any (·.ptr == ptr) with
  | some slot =>
    match h.liveAllocations.getD slot none with
    | some allocation =>
      { h with
        liveAllocations := h.liveAllocations.set slot none
        totalAllocations := h.totalAllocations - 1
        totalAllocatedBytes := h.totalAllocatedBytes - allocation.size
      }.insertFreeBlock ⟨allocation.ptr, allocation.size⟩
    | none => h
  | none => h

end HeapState

end WovenHat.Heap
