import WovenHat.Verification.Heap.Safety

/-! # Using freed memory again

The slots of the free list are used once: after 128 freed blocks nothing is put on the list
any more. -/

namespace WovenHat.Heap

open Library List HeapState SlotTable

/-- A free block has room for a layout. -/
def FreeBlock.Fits (layout : Layout) (b : FreeBlock) : Prop :=
  ∃ a, alignUp b.ptr layout.align = some a ∧ a - b.ptr + layout.size ≤ b.size

namespace HeapState

variable {h : HeapState}

/-- There is room for a layout at the unused end of the heap. -/
def Room (h : HeapState) (layout : Layout) : Prop :=
  ∃ a, alignUp h.next layout.align = some a ∧ a + layout.size ≤ h.stop

theorem bestFit_isSome (layout : Layout) {slots : List (Option FreeBlock)}
    (hlow : ∀ b ∈ slots.reduceOption, b.ptr < 2 ^ 63) (index : ℕ) (best : Option ℕ) (size : ℕ) :
    ∃ r, bestFit layout slots index best size = some r ∧ (best.isSome → r.isSome) ∧
      ∀ b ∈ slots.reduceOption, b.Fits layout → b.size < size → r.isSome := by
  induction slots generalizing index best size with
  | nil => exact ⟨best, rfl, id, fun b hb => by cases hb⟩
  | cons slot slots ih =>
    cases slot with
    | none => exact ih hlow (index + 1) best size
    | some block =>
      have hlow' : ∀ b ∈ slots.reduceOption, b.ptr < 2 ^ 63 := fun b hb =>
        hlow b (mem_cons_of_mem _ hb)
      obtain ⟨a, ha⟩ := alignUp_eq_some layout (hlow block mem_cons_self)
      have hstep : bestFit layout (some block :: slots) index best size =
          if a - block.ptr + layout.size ≤ block.size ∧ block.size < size then
            bestFit layout slots (index + 1) (some index) block.size
          else bestFit layout slots (index + 1) best size := by
        simp [bestFit, ha]
      rw [hstep]
      split
      · obtain ⟨r, hr, hsome, _⟩ := ih hlow' (index + 1) (some index) block.size
        exact ⟨r, hr, fun _ => hsome rfl, fun _ _ _ _ => hsome rfl⟩
      rename_i hnot
      obtain ⟨r, hr, hsome, hfits⟩ := ih hlow' (index + 1) best size
      refine ⟨r, hr, hsome, fun b hb hfit hlt => ?_⟩
      rcases mem_cons.mp hb with rfl | hb
      · obtain ⟨a', ha', hroom⟩ := hfit
        rw [ha] at ha'
        cases ha'
        exact absurd ⟨hroom, hlt⟩ hnot
      · exact hfits b hb hfit hlt

/-- All free blocks are in the part of the list that the loop searches. -/
theorem FreeTable.free_eq (ht : h.FreeTable) :
    (h.freeList.take h.freeCount).reduceOption = h.free := by
  have hrest : (h.freeList.drop h.freeCount).reduceOption = [] := by
    refine eq_nil_iff_forall_not_mem.mpr fun b hb => ?_
    rw [reduceOption_mem_iff] at hb
    obtain ⟨i, hi⟩ := mem_iff_getElem?.mp hb
    rw [List.getElem?_drop] at hi
    have hlt := (List.getElem?_eq_some_iff.mp hi).1
    rw [ht.length] at hlt
    rw [ht.unused _ (Nat.le_add_right _ _) hlt] at hi
    cases hi
  rw [free, ← take_append_drop h.freeCount h.freeList, reduceOption_append,
    take_append_drop, hrest, append_nil]

/-- `find_free` succeeds exactly when a free block fits. -/
theorem Safe.findFree_cases (hs : h.Safe) (layout : Layout) :
    (∃ b ∈ h.free, b.Fits layout) ∧ (∃ p h', h.findFree layout = (some p, h') ∧
        h'.liveAllocations = h.liveAllocations) ∨
      (¬∃ b ∈ h.free, b.Fits layout) ∧ h.findFree layout = (none, h) := by
  have hbound : ∀ b ∈ h.free, b.ptr + b.size ≤ heapStart + heapSize := by
    intro b hb
    have hinside := (hs.carved.inside b.span (mem_append_right _ (mem_map_of_mem hb))).2
    have hused := hs.used.2
    rw [hs.stop_eq] at hused
    exact le_trans hinside hused
  have hlow : ∀ b ∈ (h.freeList.take h.freeCount).reduceOption, b.ptr < 2 ^ 63 := by
    intro b hb
    rw [hs.table.free_eq] at hb
    have := hbound b hb
    simp only [heapStart, heapSize] at this
    omega
  obtain ⟨r, hr, _, hfits⟩ := bestFit_isSome layout hlow 0 none (2 ^ 64 - 1)
  rw [hs.table.free_eq] at hfits
  cases r with
  | none =>
    refine .inr ⟨?_, by rw [HeapState.findFree, hr]⟩
    rintro ⟨b, hb, hfit⟩
    have hsize : b.size < 2 ^ 64 - 1 := by
      have := hbound b hb
      simp only [heapStart, heapSize] at this
      omega
    exact absurd (hfits b hb hfit hsize) (by simp)
  | some idx =>
    obtain ⟨block, a, hslot, ha, hfit⟩ := block_of_bestFit hr
    have hmem : block ∈ h.free := by
      rw [free, reduceOption_mem_iff]
      exact mem_of_getElem? hslot
    refine .inl ⟨⟨block, hmem, a, ha, hfit⟩, ?_⟩
    simp only [HeapState.findFree, hr, getD_eq_getElem?_getD, hslot, Option.getD_some, ha]
    refine ⟨a, _, rfl, ?_⟩
    split
    · exact (insertFreeBlock_spec (hs.takeBlock hslot).1.table _).1.liveAllocations
    · rfl

variable {slot : ℕ}

theorem bump_isSome {layout : Layout} (hslot : freeSlot h.liveAllocations = some slot)
    (hstop : h.stop < 2 ^ 64) : (h.bump layout).1.isSome ↔ h.Room layout := by
  unfold bump Room
  rcases alignUp h.next layout.align with _ | a
  · simp
  simp only [Option.some.injEq, exists_eq_left']
  by_cases hroom : a + layout.size ≤ h.stop
  · rw [if_pos ⟨by omega, hroom⟩]
    simp [record, hslot, hroom]
  · rw [if_neg fun hand => hroom hand.2]
    simp [hroom]

/-- With a free slot in the table of live allocations, `alloc` succeeds exactly when a free
block fits or there is room at the end. -/
theorem Safe.alloc_isSome (hs : h.Safe) (layout : Layout)
    (hslot : freeSlot h.liveAllocations = some slot) :
    (h.alloc layout).1.isSome ↔ (∃ b ∈ h.free, b.Fits layout) ∨ h.Room layout := by
  have hstart : h.start ≠ 0 := by
    rw [hs.start_eq]
    decide
  have hstop : h.stop < 2 ^ 64 := by
    rw [hs.stop_eq]
    decide
  unfold HeapState.alloc
  rw [if_neg hstart]
  rcases hs.findFree_cases layout with ⟨hfit, p, h', hfound, hlive⟩ | ⟨hnone, hfound⟩
  · rw [hfound]
    simp [HeapState.record, hlive, hslot, hfit]
  rw [hfound]
  simp only [hnone, false_or]
  exact bump_isSome hslot hstop

theorem Safe.dealloc_live (hs : h.Safe) {p size : ℕ} (hp : ⟨p, size⟩ ∈ h.live) :
    (h.dealloc p).next = h.next ∧ (h.dealloc p).stop = h.stop ∧
      (∃ slot, freeSlot (h.dealloc p).liveAllocations = some slot) ∧
      (h.freeCount < maxFreeBlocks → ⟨p, size⟩ ∈ (h.dealloc p).free) ∧
      (¬h.freeCount < maxFreeBlocks → (h.dealloc p).free = h.free) := by
  have hpos : 0 < size := hs.carved.nonempty ⟨p, size⟩
    (mem_append_left _ (mem_map.mpr ⟨_, hp, rfl⟩))
  have hmem : (⟨p, size⟩ : Span) ∈ h.allocated := mem_map.mpr ⟨_, hp, rfl⟩
  obtain ⟨_, hnone⟩ | ⟨slot, found, hslot, hptr, hdealloc⟩ := dealloc_cases h p
  · exact absurd rfl (hnone _ hp)
  have hlive : found ∈ h.live := reduceOption_mem_iff.mpr (mem_of_getElem? hslot)
  have hspan : found.span = ⟨p, size⟩ :=
    hs.eq_of_start (mem_map.mpr ⟨_, hlive, rfl⟩) hmem hptr
  obtain ⟨rfl, rfl⟩ : found.ptr = p ∧ found.size = size := by
    simpa [LiveAllocation.span] using hspan
  have hempty : (h.liveAllocations.set slot none)[slot]? = some none := by
    obtain ⟨hlt, _⟩ := List.getElem?_eq_some_iff.mp hslot
    rw [getElem?_set_self hlt]
  rw [hdealloc, HeapState.insertFreeBlock, if_neg (by simpa using hpos.ne')]
  by_cases hroom : h.freeCount < maxFreeBlocks
  · rw [if_pos hroom]
    refine ⟨rfl, rfl, exists_freeSlot hempty, fun _ => ?_, fun hnot => absurd hroom hnot⟩
    rw [free, reduceOption_mem_iff]
    refine mem_of_getElem? (getElem?_set_self ?_)
    rw [hs.table.length]
    exact hroom
  · rw [if_neg hroom]
    exact ⟨rfl, rfl, exists_freeSlot hempty, fun h => absurd h hroom, fun _ => rfl⟩

/-- After an allocation has been freed again, the same request succeeds exactly when there
was a slot left in the free list for it, another free block fits, or there is room at the
unused end of the heap. -/
theorem alloc_dealloc_alloc_iff (hr : Reachable h) {layout : Layout} (hsize : 0 < layout.size)
    {p : ℕ} (halloc : (h.alloc layout).1 = some p) :
    (((h.alloc layout).2.dealloc p).alloc layout).1.isSome ↔
      (h.alloc layout).2.freeCount < maxFreeBlocks ∨
        (∃ b ∈ (h.alloc layout).2.free, b.Fits layout) ∨ (h.alloc layout).2.Room layout := by
  obtain ⟨hs, hfound⟩ := hr.safe.alloc hsize
  have hdvd := hfound p halloc
  have hlive : ⟨p, layout.size⟩ ∈ (h.alloc layout).2.live := by
    have hperm := alloc_allocated h layout
    rw [halloc] at hperm
    obtain ⟨⟨_, _⟩, ha, heq⟩ := mem_map.mp (hperm.mem_iff.mpr mem_cons_self)
    cases heq
    exact ha
  generalize (h.alloc layout).2 = h₁ at hs hlive ⊢
  obtain ⟨hnext, hstop, ⟨slot, hslot⟩, hlisted, hdropped⟩ := hs.dealloc_live hlive
  have hroom : (h₁.dealloc p).Room layout ↔ h₁.Room layout := by
    rw [Room, Room, hnext, hstop]
  rw [(hs.dealloc p).alloc_isSome layout hslot, hroom]
  by_cases hcount : h₁.freeCount < maxFreeBlocks
  · have hbound := (hs.carved.inside ⟨p, layout.size⟩
      (mem_append_left _ (mem_map.mpr ⟨_, hlive, rfl⟩))).2
    have hlow : p < 2 ^ 63 := by
      have hused := hs.used.2
      rw [hs.stop_eq] at hused
      simp only [Span.stop, heapStart, heapSize] at hbound hused
      omega
    have hfit : FreeBlock.Fits layout ⟨p, layout.size⟩ := ⟨p, alignUp_of_dvd hlow hdvd, by simp⟩
    simp only [hcount, true_or, iff_true]
    exact .inl ⟨_, hlisted hcount, hfit⟩
  · rw [hdropped hcount]
    simp only [hcount, false_or]

/-- A request for the whole heap. -/
def wholeHeap : Layout :=
  ⟨heapSize, 1, ⟨0, rfl⟩, by decide⟩

/-- Allocate the whole heap and free it again, a number of times. -/
def cycles : ℕ → HeapState
  | 0 => initialized
  | n + 1 => ((cycles n).alloc wholeHeap).2.dealloc heapStart

theorem reachable_cycles (n : ℕ) : Reachable (cycles n) := by
  induction n with
  | zero => exact .init
  | succ n ih => exact .dealloc (.alloc ih wholeHeap (by decide)) heapStart

/-- One allocation of the whole heap can be repeated. -/
theorem alloc_dealloc_alloc_whole :
    (((initialized.alloc wholeHeap).2.dealloc heapStart).alloc wholeHeap).1.isSome := by
  refine (alloc_dealloc_alloc_iff .init (by decide) ?_).mpr (.inl ?_)
  · decide +kernel
  · decide +kernel

/-- After 128 rounds the freed heap is lost. -/
theorem freed_heap_lost :
    Reachable (cycles 128) ∧ ((cycles 128).alloc wholeHeap).1 = some heapStart ∧
      ((((cycles 128).alloc wholeHeap).2.dealloc heapStart).alloc wholeHeap).1 = none := by
  have hrun : (((cycles 128).alloc wholeHeap).1,
      ((((cycles 128).alloc wholeHeap).2.dealloc heapStart).alloc wholeHeap).1) =
        (some heapStart, none) := by
    decide +kernel
  obtain ⟨hfirst, hsecond⟩ := Prod.mk.inj hrun
  exact ⟨reachable_cycles 128, hfirst, hsecond⟩

end HeapState

end WovenHat.Heap
