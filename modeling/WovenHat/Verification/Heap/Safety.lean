import WovenHat.Model.Heap
import WovenHat.Library.Span

/-! # Heap safety

The memory that the users of the heap hold and the free blocks carve the used part of it. -/

namespace WovenHat.Heap

open Library List HeapState SlotTable LiveAllocation

/-! ## Alignment -/

variable {value : ℕ}

theorem alignUp_spec {alignment a : ℕ} (h : alignUp value alignment = some a) :
    value ≤ a ∧ a < value + alignment ∧ alignment ∣ a := by
  unfold alignUp at h
  split at h
  · cases h
  rename_i hpow
  split at h
  · cases h
    have hpos : 0 < alignment := by omega
    have hmod := Nat.mod_lt (value + (alignment - 1)) hpos
    refine ⟨by omega, by omega, Nat.dvd_sub_mod _⟩
  · cases h

theorem alignUp_eq_some (layout : Layout) (h : value < 2 ^ 63) :
    ∃ a, alignUp value layout.align = some a := by
  have hfits := layout.fits
  have hpos : layout.align ≠ 0 := by
    obtain ⟨k, hk⟩ := layout.isPowerOfTwo
    rw [hk]
    positivity
  unfold alignUp
  rw [if_neg (by simp [hpos, layout.isPowerOfTwo]), if_pos (by omega)]
  exact ⟨_, rfl⟩

theorem alignUp_of_dvd {layout : Layout} (h : value < 2 ^ 63)
    (hdvd : layout.align ∣ value) : alignUp value layout.align = some value := by
  obtain ⟨a, ha⟩ := alignUp_eq_some layout h
  obtain ⟨hle, hlt, hdvd'⟩ := alignUp_spec ha
  have hzero := Nat.eq_zero_of_dvd_of_lt (Nat.dvd_sub hdvd' hdvd) (by omega)
  rw [ha, show a = value by omega]

/-! ## The invariant -/

def LiveAllocation.span (a : LiveAllocation) : Span :=
  ⟨a.ptr, a.size⟩

def FreeBlock.span (b : FreeBlock) : Span :=
  ⟨b.ptr, b.size⟩

namespace HeapState

variable {h h' : HeapState}

def live (h : HeapState) : List LiveAllocation :=
  h.liveAllocations.reduceOption

def free (h : HeapState) : List FreeBlock :=
  h.freeList.reduceOption

def spans (h : HeapState) : List Span :=
  h.live.map LiveAllocation.span ++ h.free.map FreeBlock.span

structure FreeTable (h : HeapState) : Prop where
  length : h.freeList.length = maxFreeBlocks
  count : h.freeCount ≤ maxFreeBlocks
  unused : ∀ i, h.freeCount ≤ i → i < maxFreeBlocks → h.freeList[i]? = some none

structure Safe (h : HeapState) : Prop where
  start_eq : h.start = heapStart
  stop_eq : h.stop = heapStart + heapSize
  used : h.start ≤ h.next ∧ h.next ≤ h.stop
  carved : Carved h.start h.next h.spans
  table : h.FreeTable
  length : h.liveAllocations.length = maxAllocations
  allocations : h.totalAllocations = h.live.length
  bytes : h.totalAllocatedBytes = (h.live.map size).sum

theorem live_initialized : initialized.live = [] :=
  reduceOption_replicate_none

theorem free_initialized : initialized.free = [] :=
  reduceOption_replicate_none

theorem safe_initialized : initialized.Safe where
  start_eq := rfl
  stop_eq := rfl
  used := by decide
  carved := by
    rw [spans, live_initialized, free_initialized]
    exact .nil _ _
  table := ⟨length_replicate, Nat.zero_le _, fun i _ hi => by simp [initialized, hi]⟩
  length := length_replicate
  allocations := by
    rw [live_initialized]
    rfl
  bytes := by
    rw [live_initialized]
    rfl

/-! ## Free blocks -/

structure SameElse (h h' : HeapState) : Prop where
  start : h'.start = h.start
  stop : h'.stop = h.stop
  next : h'.next = h.next
  totalAllocations : h'.totalAllocations = h.totalAllocations
  totalAllocatedBytes : h'.totalAllocatedBytes = h.totalAllocatedBytes
  liveAllocations : h'.liveAllocations = h.liveAllocations

theorem SameElse.refl (h : HeapState) : SameElse h h :=
  ⟨rfl, rfl, rfl, rfl, rfl, rfl⟩

/-- A change of the free list that carves the same memory. -/
theorem Safe.of_sameElse (hs : h.Safe) (he : SameElse h h') (ht : h'.FreeTable)
    (hc : Carved h.start h.next h'.spans) : h'.Safe where
  start_eq := he.start.trans hs.start_eq
  stop_eq := he.stop.trans hs.stop_eq
  used := by
    rw [he.start, he.next, he.stop]
    exact hs.used
  carved := by rwa [he.start, he.next]
  table := ht
  length := by rw [he.liveAllocations, hs.length]
  allocations := by rw [he.totalAllocations, live, he.liveAllocations, hs.allocations, live]
  bytes := by rw [he.totalAllocatedBytes, live, he.liveAllocations, hs.bytes, live]

theorem insertFreeBlock_spec (ht : h.FreeTable) (block : FreeBlock) :
    SameElse h (h.insertFreeBlock block) ∧ (h.insertFreeBlock block).FreeTable ∧
      ((h.insertFreeBlock block).free = h.free ∨
        block.size ≠ 0 ∧ (h.insertFreeBlock block).free.Perm (block :: h.free)) := by
  unfold insertFreeBlock
  split
  · exact ⟨.refl h, ht, .inl rfl⟩
  rename_i hsize
  split
  · rename_i hroom
    refine ⟨⟨rfl, rfl, rfl, rfl, rfl, rfl⟩, ⟨?_, hroom, fun i hi hlt => ?_⟩, .inr ⟨hsize, ?_⟩⟩
    · rw [length_set, ht.length]
    · dsimp only at hi ⊢
      rw [getElem?_set_ne (by omega)]
      exact ht.unused i (by omega) hlt
    · exact reduceOption_set_some (ht.unused _ (le_refl _) hroom) block
  · exact ⟨.refl h, ht, .inl rfl⟩

theorem insertFreeBlock_spans (ht : h.FreeTable) (block : FreeBlock) :
    (h.insertFreeBlock block).spans = h.spans ∨
      (h.insertFreeBlock block).spans.Perm (block.span :: h.spans) := by
  obtain ⟨he, _, hfree | ⟨_, hfree⟩⟩ := insertFreeBlock_spec ht block
  · left
    rw [spans, spans, live, live, he.liveAllocations, hfree]
  right
  rw [spans, spans, live, live, he.liveAllocations]
  exact ((hfree.map FreeBlock.span).append_left _).trans perm_middle

variable {block : FreeBlock}

theorem Safe.insertFreeBlock (hs : h.Safe)
    (hc : Carved h.start h.next (block.span :: h.spans)) : (h.insertFreeBlock block).Safe := by
  obtain ⟨he, ht, _⟩ := insertFreeBlock_spec hs.table block
  refine hs.of_sameElse he ht ?_
  rcases insertFreeBlock_spans hs.table block with heq | hperm
  · rw [heq]
    exact hs.carved
  · exact hc.perm hperm.symm

/-! ## Taking a free block -/

theorem Safe.takeBlock (hs : h.Safe) {idx : ℕ} (hslot : h.freeList[idx]? = some (some block)) :
    ({ h with freeList := h.freeList.set idx none } : HeapState).Safe ∧
      h.spans.Perm
        (block.span :: ({ h with freeList := h.freeList.set idx none } : HeapState).spans) := by
  have hperm : h.spans.Perm
      (block.span :: ({ h with freeList := h.freeList.set idx none } : HeapState).spans) :=
    (((reduceOption_set_none hslot).map FreeBlock.span).append_left _).trans perm_middle
  refine ⟨hs.of_sameElse ⟨rfl, rfl, rfl, rfl, rfl, rfl⟩ ⟨?_, hs.table.count, ?_⟩ ?_, hperm⟩
  · rw [length_set, hs.table.length]
  · intro i hi hlt
    rw [getElem?_set]
    split
    · rename_i heq
      rw [if_pos (by rw [hs.table.length, heq]; exact hlt)]
    · exact hs.table.unused i hi hlt
  · exact (hs.carved.perm hperm).tail

variable {layout : Layout}

theorem bestFit_eq_some {slots : List (Option FreeBlock)} {index size idx : ℕ}
    {best : Option ℕ} (hb : bestFit layout slots index best size = some (some idx)) :
    best = some idx ∨ ∃ j block a, idx = index + j ∧ slots[j]? = some (some block) ∧
      alignUp block.ptr layout.align = some a ∧ a - block.ptr + layout.size ≤ block.size := by
  induction slots generalizing index best size with
  | nil =>
    cases hb
    exact .inl rfl
  | cons slot slots ih =>
    -- a block found further on is one place further from here
    have hshift : ∀ {best : Option ℕ} {size : ℕ},
        bestFit layout slots (index + 1) best size = some (some idx) →
        best = some idx ∨ ∃ j block a, idx = index + j ∧
          (slot :: slots)[j]? = some (some block) ∧
          alignUp block.ptr layout.align = some a ∧
          a - block.ptr + layout.size ≤ block.size := by
      intro best size hb
      rcases ih hb with hbest | ⟨j, block, a, hidx, hslot, ha, hfit⟩
      · exact .inl hbest
      · exact .inr ⟨j + 1, block, a, by omega, hslot, ha, hfit⟩
    cases slot with
    | none => exact hshift hb
    | some block =>
      obtain ⟨a, ha, hb⟩ := Option.bind_eq_some_iff.mp hb
      dsimp only at hb
      split at hb
      · rename_i hfit
        rcases hshift hb with heq | hlater
        · cases heq
          exact .inr ⟨0, block, a, rfl, rfl, ha, hfit.1⟩
        · exact .inr hlater
      · exact hshift hb

theorem block_of_bestFit {idx size : ℕ}
    (hbest : bestFit layout (h.freeList.take h.freeCount) 0 none size = some (some idx)) :
    ∃ block a, h.freeList[idx]? = some (some block) ∧ alignUp block.ptr layout.align = some a ∧
      a - block.ptr + layout.size ≤ block.size := by
  obtain ⟨j, block, a, hidx, hslot, hrest⟩ := (bestFit_eq_some hbest).resolve_left (by simp)
  rw [Nat.zero_add] at hidx
  subst hidx
  refine ⟨block, a, ?_, hrest⟩
  rw [getElem?_take] at hslot
  split at hslot
  · exact hslot
  · cases hslot

/-- What `find_free` returns is aligned and apart from everything that is left. -/
theorem Safe.findFree (hs : h.Safe) (hsize : 0 < layout.size) :
    (h.findFree layout).2.Safe ∧ ∀ p, (h.findFree layout).1 = some p → layout.align ∣ p ∧
      Carved (h.findFree layout).2.start (h.findFree layout).2.next
        (⟨p, layout.size⟩ :: (h.findFree layout).2.spans) := by
  unfold HeapState.findFree
  split
  · rename_i idx hbest
    obtain ⟨block, a, hslot, ha, hfit⟩ := block_of_bestFit hbest
    obtain ⟨htaken, hperm⟩ := hs.takeBlock hslot
    generalize hg : ({ h with freeList := h.freeList.set idx none } : HeapState) = g at *
    have hcarved : Carved g.start g.next (block.span :: g.spans) := by
      have := hs.carved.perm hperm
      rwa [← hg] at this ⊢
    obtain ⟨hle, hlt, hdvd⟩ := alignUp_spec ha
    simp only [getD_eq_getElem?_getD, hslot, Option.getD_some, ha]
    have hwithin : Span.Within ⟨a, layout.size⟩ block.span := by
      simp only [Span.Within, Span.stop, FreeBlock.span]
      omega
    split
    · rename_i hmore
      generalize hrest : (⟨a + layout.size, block.size - (a - block.ptr + layout.size)⟩ :
        FreeBlock) = rest
      have hwithin' : rest.span.Within block.span := by
        subst hrest
        simp only [Span.Within, Span.stop, FreeBlock.span]
        omega
      have hapart : Span.Apart ⟨a, layout.size⟩ rest.span := by
        subst hrest
        exact .inl (le_refl _)
      have hpos : 0 < rest.span.size := by
        subst hrest
        exact hmore
      have hsplit := hcarved.split hwithin hwithin' hapart hsize hpos
      refine ⟨htaken.insertFreeBlock hsplit.tail, ?_⟩
      rintro p ⟨⟩
      obtain ⟨he, _⟩ := insertFreeBlock_spec htaken.table rest
      refine ⟨hdvd, ?_⟩
      rw [he.start, he.next]
      rcases insertFreeBlock_spans htaken.table rest with heq | hperm'
      · rw [heq]
        exact hcarved.shrink hwithin hsize
      · exact hsplit.perm (hperm'.symm.cons _)
    · refine ⟨htaken, ?_⟩
      rintro p ⟨⟩
      exact ⟨hdvd, hcarved.shrink hwithin hsize⟩
  · exact ⟨hs, nofun⟩

/-! ## Allocating and freeing -/

/-- Recording an allocation of memory that nothing else uses. -/
theorem Safe.record (hs : h.Safe) {p size : ℕ} (hc : Carved h.start h.next (⟨p, size⟩ :: h.spans)) :
    (h.record p size).2.Safe ∧ ∀ q, (h.record p size).1 = some q → q = p := by
  unfold HeapState.record
  split
  · rename_i slot hslot
    have hperm : (h.liveAllocations.set slot (some ⟨p, size⟩)).reduceOption.Perm
        (⟨p, size⟩ :: h.live) :=
      reduceOption_set_some (getElem?_of_freeSlot hslot) _
    refine ⟨⟨hs.start_eq, hs.stop_eq, hs.used, ?_, ⟨hs.table.length, hs.table.count,
      hs.table.unused⟩, ?_, ?_, ?_⟩, ?_⟩
    · exact hc.perm ((hperm.map LiveAllocation.span).append_right _).symm
    · rw [length_set, hs.length]
    · rw [live, hperm.length_eq, hs.allocations, length_cons]
    · rw [live, (hperm.map LiveAllocation.size).sum_eq, map_cons, sum_cons, ← hs.bytes]
      exact Nat.add_comm _ _
    · rintro q ⟨⟩
      rfl
  · exact ⟨hs, nofun⟩

theorem record_next (h : HeapState) (p size n : ℕ) :
    ({ h with next := n } : HeapState).record p size =
      ((h.record p size).1, { (h.record p size).2 with next := n }) := by
  unfold record
  cases SlotTable.freeSlot h.liveAllocations <;> rfl

theorem Safe.bump (hs : h.Safe) (hsize : 0 < layout.size) :
    (h.bump layout).2.Safe ∧ ∀ p, (h.bump layout).1 = some p → layout.align ∣ p := by
  unfold HeapState.bump
  split
  · rename_i a ha
    obtain ⟨hle, hlt, hdvd⟩ := alignUp_spec ha
    split
    · rename_i hroom
      have hcarved := hs.carved.extend hs.used.1 (s := ⟨a, layout.size⟩) hle hsize
      have hlonger : ({ h with next := a + layout.size } : HeapState).Safe :=
        ⟨hs.start_eq, hs.stop_eq, ⟨by have := hs.used.1; dsimp only; omega, hroom.2⟩,
          hcarved.tail, ⟨hs.table.length, hs.table.count, hs.table.unused⟩, hs.length,
          hs.allocations, hs.bytes⟩
      have hrecord := hlonger.record hcarved
      rw [record_next] at hrecord
      rcases hr : h.record a layout.size with ⟨_ | q, h'⟩ <;> rw [hr] at hrecord
      · have hsame : h' = h := by
          unfold HeapState.record at hr
          split at hr
          · cases hr
          · cases hr
            rfl
        rw [hsame]
        exact ⟨hs, nofun⟩
      · obtain rfl := hrecord.2 q rfl
        refine ⟨hrecord.1, ?_⟩
        rintro p ⟨⟩
        exact hdvd
    · exact ⟨hs, nofun⟩
  · exact ⟨hs, nofun⟩

theorem Safe.alloc (hs : h.Safe) (hsize : 0 < layout.size) :
    (h.alloc layout).2.Safe ∧ ∀ p, (h.alloc layout).1 = some p → layout.align ∣ p := by
  have hstart : h.start ≠ 0 := by
    rw [hs.start_eq]
    decide
  obtain ⟨hsafe, hfound⟩ := hs.findFree hsize
  unfold HeapState.alloc
  rw [if_neg hstart]
  rcases hf : h.findFree layout with ⟨_ | p, h'⟩ <;> rw [hf] at hsafe hfound
  · exact hsafe.bump hsize
  obtain ⟨hdvd, hcarved⟩ := hfound p rfl
  obtain ⟨hsafe', hrecord⟩ := hsafe.record hcarved
  refine ⟨hsafe', fun q hq => ?_⟩
  obtain rfl := hrecord q hq
  exact hdvd

/-- `dealloc` takes the first allocation at the address out of the table, if there is one. -/
theorem dealloc_cases (h : HeapState) (ptr : ℕ) :
    (h.dealloc ptr = h ∧ ∀ a ∈ h.live, a.ptr ≠ ptr) ∨
      ∃ slot allocation, h.liveAllocations[slot]? = some (some allocation) ∧
        allocation.ptr = ptr ∧ h.dealloc ptr =
          ({ h with
            liveAllocations := h.liveAllocations.set slot none
            totalAllocations := h.totalAllocations - 1
            totalAllocatedBytes := h.totalAllocatedBytes - allocation.size } :
              HeapState).insertFreeBlock ⟨allocation.ptr, allocation.size⟩ := by
  unfold HeapState.dealloc
  rcases hslot : h.liveAllocations.findIdx? fun s => s.any (·.ptr == ptr) with _ | slot
  · refine .inl ⟨by rw [hslot], fun a ha heq => ?_⟩
    simpa [heq] using findIdx?_eq_none_iff.mp hslot _ (reduceOption_mem_iff.mp ha)
  obtain ⟨hlt, hany, _⟩ := findIdx?_eq_some_iff_getElem.mp hslot
  rcases hget : h.liveAllocations[slot] with _ | allocation <;> rw [hget] at hany
  · cases hany
  have hslot' : h.liveAllocations[slot]? = some (some allocation) := by
    rw [getElem?_eq_getElem hlt, hget]
  refine .inr ⟨slot, allocation, hslot', by simpa using hany, ?_⟩
  rw [hslot]
  simp only [getD_eq_getElem?_getD, hslot', Option.getD_some]

theorem Safe.dealloc (hs : h.Safe) (ptr : ℕ) : (h.dealloc ptr).Safe := by
  obtain ⟨hsame, _⟩ | ⟨slot, allocation, hslot, _, heq⟩ := dealloc_cases h ptr
  · rwa [hsame]
  have hperm : h.live.Perm (allocation :: (h.liveAllocations.set slot none).reduceOption) :=
    reduceOption_set_none hslot
  have hspans := (hperm.map LiveAllocation.span).append_right (h.free.map FreeBlock.span)
  have hcarved := hs.carved.perm hspans
  rw [heq]
  refine Safe.insertFreeBlock ?_ hcarved
  refine ⟨hs.start_eq, hs.stop_eq, hs.used, hcarved.tail, ⟨hs.table.length, hs.table.count,
    hs.table.unused⟩, ?_, ?_, ?_⟩
  · rw [length_set, hs.length]
  · rw [hs.allocations, hperm.length_eq, length_cons, Nat.add_sub_cancel]
    rfl
  rw [hs.bytes, (hperm.map size).sum_eq, map_cons, sum_cons,
    Nat.add_sub_cancel_left]
  rfl

/-- The states of a heap in use. Nothing is assumed about the pointers that are freed. -/
inductive Reachable : HeapState → Prop where
  | init : Reachable initialized
  | alloc {h : HeapState} (reach : Reachable h) (layout : Layout) (size : 0 < layout.size) :
      Reachable (h.alloc layout).2
  | dealloc {h : HeapState} (reach : Reachable h) (ptr : ℕ) : Reachable (h.dealloc ptr)

theorem Reachable.safe (hr : Reachable h) : h.Safe := by
  induction hr with
  | init => exact safe_initialized
  | alloc _ layout size ih => exact (ih.alloc size).1
  | dealloc _ ptr ih => exact ih.dealloc ptr

/-! ## The memory that users hold -/

/-- What users hold after a request for `size` bytes. -/
def granted (size : ℕ) (held : List Span) : Option ℕ → List Span
  | some p => ⟨p, size⟩ :: held
  | none => held

/-- A heap in use, with the memory that its users hold: what `alloc` has returned to them and
they have not freed. Nothing is assumed about the pointers that are freed. -/
inductive Used : HeapState → List Span → Prop where
  | init : Used initialized []
  | alloc {h : HeapState} {held : List Span} (used : Used h held) (layout : Layout)
      (size : 0 < layout.size) :
      Used (h.alloc layout).2 (granted layout.size held (h.alloc layout).1)
  | dealloc {h : HeapState} {held : List Span} (used : Used h held) (ptr : ℕ) :
      Used (h.dealloc ptr) (held.eraseP (·.start = ptr))

variable {held : List Span}

theorem Used.reachable (hu : Used h held) : Reachable h := by
  induction hu with
  | init => exact .init
  | alloc _ layout size ih => exact ih.alloc layout size
  | dealloc _ ptr ih => exact ih.dealloc ptr

def allocated (h : HeapState) : List Span :=
  h.live.map LiveAllocation.span

theorem insertFreeBlock_allocated (h : HeapState) (block : FreeBlock) :
    (h.insertFreeBlock block).allocated = h.allocated := by
  unfold insertFreeBlock
  split_ifs <;> rfl

theorem findFree_allocated (h : HeapState) (layout : Layout) :
    (h.findFree layout).2.allocated = h.allocated := by
  unfold HeapState.findFree
  split
  · split
    · split
      · dsimp only
        split
        · exact insertFreeBlock_allocated _ _
        · rfl
      · rfl
    · rfl
  · rfl

theorem record_allocated (h : HeapState) (p size : ℕ) :
    (h.record p size).2.allocated.Perm (granted size h.allocated (h.record p size).1) := by
  unfold HeapState.record
  split
  · rename_i slot hslot
    exact (reduceOption_set_some (getElem?_of_freeSlot hslot) _).map LiveAllocation.span
  · exact .refl _

theorem alloc_allocated (h : HeapState) (layout : Layout) :
    (h.alloc layout).2.allocated.Perm
      (granted layout.size h.allocated (h.alloc layout).1) := by
  have hfound := findFree_allocated h layout
  unfold HeapState.alloc
  split
  · exact .refl _
  rcases hf : h.findFree layout with ⟨_ | p, h'⟩ <;> rw [hf] at hfound <;>
    dsimp only at hfound ⊢ <;> rw [← hfound]
  · unfold HeapState.bump
    split
    · rename_i a _
      split
      · have hrecord := record_allocated h' a layout.size
        rcases hr : h'.record a layout.size with ⟨_ | q, h''⟩ <;> rw [hr] at hrecord <;>
          exact hrecord
      · exact .refl _
    · exact .refl _
  · exact record_allocated h' p layout.size

theorem Safe.eq_of_start (hs : h.Safe) {s t : Span} (hmem : s ∈ h.allocated)
    (ht : t ∈ h.allocated) (heq : s.start = t.start) : s = t := by
  by_contra hne
  have hspos := hs.carved.nonempty s (mem_append_left _ hmem)
  have htpos := hs.carved.nonempty t (mem_append_left _ ht)
  have : Std.Symm Span.Apart := ⟨fun _ _ h => h.symm⟩
  -- two allocations at one address would overlap
  have hapart := (pairwise_append.mp hs.carved.apart).1.forall hmem ht hne
  simp only [Span.Apart, Span.stop] at hapart
  omega

theorem Safe.dealloc_allocated (hs : h.Safe) (hp : h.allocated.Perm held) (ptr : ℕ) :
    (h.dealloc ptr).allocated.Perm (held.eraseP (·.start = ptr)) := by
  obtain ⟨hsame, hnone⟩ | ⟨slot, allocation, hslot, hptr, heq⟩ := dealloc_cases h ptr
  · rw [hsame, eraseP_of_forall_not fun s hmem => ?_]
    · exact hp
    obtain ⟨a, ha, rfl⟩ := mem_map.mp (hp.mem_iff.mpr hmem)
    exact decide_eq_false (hnone a ha) ▸ Bool.false_ne_true
  rw [heq, insertFreeBlock_allocated]
  have hfreed : h.allocated.Perm (allocation.span ::
      ((h.liveAllocations.set slot none).reduceOption.map LiveAllocation.span)) :=
    (reduceOption_set_none hslot).map LiveAllocation.span
  have hmem : allocation.span ∈ h.allocated := hfreed.mem_iff.mpr mem_cons_self
  obtain ⟨s, l₁, l₂, _, hs', hheld, herase⟩ := exists_of_eraseP (p := (·.start = ptr))
    (hp.mem_iff.mp hmem) (decide_eq_true hptr)
  have hs' : s.start = ptr := by simpa using hs'
  obtain rfl : s = allocation.span := hs.eq_of_start
    (hp.mem_iff.mpr (by simp [hheld])) hmem (hs'.trans hptr.symm)
  rw [herase]
  exact ((hfreed.symm.trans hp).trans (hheld ▸ perm_middle)).cons_inv

/-- The table of live allocations lists exactly the memory that users hold. -/
theorem Used.allocated (hu : Used h held) : h.allocated.Perm held := by
  induction hu with
  | init => simp [HeapState.allocated, live_initialized]
  | @alloc h held _ layout size ih =>
    refine (alloc_allocated h layout).trans ?_
    cases (h.alloc layout).1 with
    | none => exact ih
    | some p => exact ih.cons _
  | dealloc used ptr ih => exact used.reachable.safe.dealloc_allocated ih ptr

/-- In every state of a heap in use, the allocations that users hold and the free blocks are
pairwise disjoint and lie in the used part of the heap, the counters are the number and the
size of what users hold, and a pointer that `alloc` returns is aligned. -/
theorem reachable_heap_safe (hu : Used h held) :
    (held ++ h.free.map FreeBlock.span).Pairwise Span.Apart ∧
    (∀ s ∈ held ++ h.free.map FreeBlock.span, heapStart ≤ s.start ∧ s.stop ≤ h.next) ∧
    h.next ≤ heapStart + heapSize ∧
    h.totalAllocations = held.length ∧ h.totalAllocatedBytes = (held.map Span.size).sum ∧
    ∀ layout : Layout, 0 < layout.size → ∀ p, (h.alloc layout).1 = some p →
      layout.align ∣ p := by
  have hs := hu.reachable.safe
  have hp := hu.allocated
  have hcarved := hs.carved.perm (hp.append_right _)
  refine ⟨hcarved.apart, fun s hmem => ?_, ?_, ?_, ?_, fun layout hsize => (hs.alloc hsize).2⟩
  · rw [← hs.start_eq]
    exact hcarved.inside s hmem
  · rw [← hs.stop_eq]
    exact hs.used.2
  · rw [hs.allocations, ← hp.length_eq, HeapState.allocated, length_map]
  · rw [hs.bytes, ← (hp.map Span.size).sum_eq, HeapState.allocated, map_map]
    rfl

def smallLayout : Layout :=
  ⟨24, 8, ⟨3, rfl⟩, by decide⟩

/-- Two small allocations in a new heap, the first of them freed again. -/
theorem reachable_heap_safe_small :
    let h := (((initialized.alloc smallLayout).2.alloc smallLayout).2.dealloc heapStart)
    ((⟨heapStart + 24, 24⟩ : Span) :: h.free.map FreeBlock.span).Pairwise Span.Apart ∧
      h.totalAllocations = 1 ∧ h.totalAllocatedBytes = 24 := by
  have h := reachable_heap_safe
    (((Used.init.alloc smallLayout (by decide)).alloc smallLayout (by decide)).dealloc heapStart)
  have hheld : (granted 24 (granted 24 [] (initialized.alloc smallLayout).1)
      ((initialized.alloc smallLayout).2.alloc smallLayout).1).eraseP (·.start = heapStart) =
      [⟨heapStart + 24, 24⟩] := by
    decide +kernel
  rw [show smallLayout.size = 24 from rfl, hheld] at h
  exact ⟨h.1, h.2.2.2.1, h.2.2.2.2.1⟩

end HeapState

end WovenHat.Heap
