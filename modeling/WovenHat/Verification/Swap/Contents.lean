import WovenHat.Library.Always
import WovenHat.Model.SwapTasks
import WovenHat.Verification.Swap.Generations
import WovenHat.Verification.Swap.Separation

/-! # The contents of swapped pages

A page that several tasks keep in swap reads back as it was given to `allocate_page`, whatever
the other tasks do between the locks, as long as not all of its owners have released it. -/

namespace WovenHat.Swap

open Library Block Function List Option Buffer State Books

/-! ## Sectors of the area -/

theorem sectorsPerPage_eq : sectorsPerPage = 8 := by
  decide

variable {st : State}

theorem State.diskLba_eq_some {index lba : ℕ} (h : st.diskLba index = some lba) :
    ∃ disk, st.disk = some disk ∧ index < disk.slots ∧
      lba = disk.startLba + index * sectorsPerPage := by
  simp only [diskLba, bind_eq_bind, bind_eq_some_iff] at h
  obtain ⟨disk, hdisk, h⟩ := h
  split_ifs at h with hindex
  cases h
  exact ⟨disk, hdisk, not_le.mp hindex, rfl⟩

theorem State.diskLba_congr {st' : State} (h : st'.disk = st.disk) (index : ℕ) :
    st'.diskLba index = st.diskLba index := by
  rw [diskLba, diskLba, h]

theorem State.diskLba_disjoint {i j a b n m : ℕ} (hi : st.diskLba i = some a)
    (hj : st.diskLba j = some b) (hne : i ≠ j) (hn : n < sectorsPerPage) (hm : m < sectorsPerPage) :
    a + n ≠ b + m := by
  obtain ⟨disk, hdisk, _, rfl⟩ := diskLba_eq_some hi
  obtain ⟨disk', hdisk', _, rfl⟩ := diskLba_eq_some hj
  rw [hdisk] at hdisk'
  cases hdisk'
  rw [sectorsPerPage_eq] at *
  omega

theorem diskLba_configured {startLba sectors i lba n : ℕ}
    (h : (new.configureDisk startLba sectors).2.diskLba i = some lba)
    (hn : n < sectorsPerPage) : startLba ≤ lba + n ∧ lba + n < startLba + sectors := by
  obtain ⟨disk, hdisk, hslot, rfl⟩ := diskLba_eq_some h
  have harea : disk.startLba = startLba ∧ disk.slots ≤ sectors / sectorsPerPage := by
    simp only [configureDisk] at hdisk
    split_ifs at hdisk
    · cases hdisk
    · cases hdisk
    · cases hdisk
      exact ⟨rfl, min_le_right _ _⟩
  rw [sectorsPerPage_eq] at *
  obtain ⟨rfl, hslots⟩ := harea
  omega

def Stored (disk : ℕ → Sector) (lba : ℕ) (bytes : Page) (count : ℕ) : Prop :=
  ∀ n, n < count → disk (lba + n) = System.sectorOf bytes n

theorem Stored.succ {disk : ℕ → Sector} {lba : ℕ} {bytes : Page} {count : ℕ}
    (h : Stored disk lba bytes count) :
    Stored (update disk (lba + count) (System.sectorOf bytes count)) lba bytes (count + 1) := by
  intro n hn
  by_cases heq : n = count
  · subst heq
    exact update_self ..
  · rw [update_of_ne (by omega)]
    exact h n (by omega)

/-- The slot has seen as many allocations, shares and releases. -/
def Books.SameCounts (b b' : Books) (i : Fin maxSwapSlots) : Prop :=
  b.allocated i = b'.allocated i ∧ b.shared i = b'.shared i ∧ b.released i = b'.released i

section Tally

variable {i j : Fin maxSwapSlots} {handle : Handle} (h : (i : ℕ) = handle.index)
  (counts : Fin maxSwapSlots → ℕ)

include h

theorem Books.tally_self : tally counts handle i = counts i + 1 :=
  if_pos h

theorem index_ne_of_ne (hj : j ≠ i) : ¬(j : ℕ) = handle.index :=
  fun heq => hj (Fin.ext (heq.trans h.symm))

theorem Books.tally_of_ne (hj : j ≠ i) : tally counts handle j = counts j :=
  if_neg (index_ne_of_ne h hj)

end Tally

theorem State.setSlot_self (st : State) (i : Fin maxSwapSlots) (slot : Slot) :
    (st.setSlot i slot).slots i = slot :=
  update_self ..

/-- The slot that a task has reserved. -/
def Phase.reserves : Phase → Option ℕ
  | .writing index _ _ _ _ => some index
  | .written index _ _ _ => some index
  | _ => none

namespace System

theorem get_write_sector {disk : ℕ → Sector} {lba : ℕ} {page bytes : Page} {sector : ℕ}
    (hstored : Stored disk lba page sectorsPerPage) (hsector : sector < sectorsPerPage)
    (hread : ∀ j, j < sector * sectorSize → bytes.get j = page.get j) {j : ℕ}
    (hj : j < (sector + 1) * sectorSize) :
    (bytes.write (sector * sectorSize) (disk (lba + sector)).toList).get j = page.get j := by
  rw [Buffer.get_write, Buffer.length_toList]
  by_cases hlow : j < sector * sectorSize
  · rw [if_neg (by omega)]
    exact hread j hlow
  have hsize : j < pageSize := by
    simp only [sectorsPerPage_eq, sectorSize, pageSize] at *
    omega
  have hrel : j - sector * sectorSize < sectorSize := by
    simp only [sectorSize] at *
    omega
  rw [if_pos (by omega), hstored sector hsector, Buffer.toList, Buffer.getD_slice _ _ _ _ hrel,
    sectorOf, Nat.zero_add, Buffer.get_sub, if_pos hrel]
  congr 1
  omega

/-! ## The invariant -/

/-- The page of a slot in use. -/
structure Holds (s : System) (i : Fin maxSwapSlots) (bytes : Page) : Prop where
  ram : (s.state.slots i).backing = .ram → (s.state.slots i).data = bytes
  disk : (s.state.slots i).backing = .disk →
    ∃ lba, s.state.diskLba i = some lba ∧ Stored s.disk lba bytes sectorsPerPage

/-- A slot is free, reserved by a task that writes its page, or in use. -/
inductive SlotOk (s : System) (i : Fin maxSwapSlots) : Prop where
  | free (hfree : (s.state.slots i).occupied = false) (hcount : (s.state.slots i).refcount = 0)
      (hoccupant : s.books.occupant i = none)
  | reserved (hocc : (s.state.slots i).occupied = true)
      (hcount : (s.state.slots i).refcount = 0) (hoccupant : s.books.occupant i = none)
      (task : TaskId) (htask : (s.phase task).reserves = some (i : ℕ))
  | live (hocc : (s.state.slots i).occupied = true)
      (hcount : 0 < (s.state.slots i).refcount) (k : ℕ) (hoccupant : s.books.occupant i = some k)
      (bytes : Page)
      (hentry : s.books.allocations[k]? = some (⟨i, (s.state.slots i).generation⟩, bytes))
      (hholds : Holds s i bytes)

/-- What a task knows about its slot. A reader knows it as long as the allocation is the one
that it has found. -/
def TaskOk (s : System) : Phase → Prop
  | .idle => True
  | .fallback _ => True
  | .writing index generation lba bytes sector =>
    ∃ i : Fin maxSwapSlots, (i : ℕ) = index ∧ isReserved (s.state.slots i) generation ∧
      s.state.diskLba i = some lba ∧ sector ≤ sectorsPerPage ∧ Stored s.disk lba bytes sector
  | .written index generation bytes wrote =>
    ∃ i : Fin maxSwapSlots, (i : ℕ) = index ∧ isReserved (s.state.slots i) generation ∧
      (wrote = true → ∃ lba, s.state.diskLba i = some lba ∧ Stored s.disk lba bytes sectorsPerPage)
  | .reading handle lba bytes sector begun =>
    ∃ (i : Fin maxSwapSlots) (k : ℕ) (page : Page), (i : ℕ) = handle.index ∧ begun = some k ∧
      s.books.allocations[k]? = some (handle, page) ∧ sector < sectorsPerPage ∧
      (s.books.occupant i = some k → (s.state.slots i).backing = .disk ∧
        s.state.diskLba i = some lba ∧
        ∀ j, j < sector * sectorSize → bytes.get j = page.get j)

theorem TaskOk.slot {s : System} {phase : Phase} {index : ℕ} (h : TaskOk s phase)
    (hreserves : phase.reserves = some index) : ∃ i : Fin maxSwapSlots, (i : ℕ) = index ∧
      (s.state.slots i).occupied = true ∧ (s.state.slots i).refcount = 0 := by
  cases phase with
  | writing | written =>
    obtain ⟨i, rfl, hreserved, -⟩ := h
    exact ⟨i, some.inj hreserves, hreserved.1, hreserved.2.1⟩
  | _ => cases hreserves

/-- A read began with an allocation, and gave its page if the allocation was still there. -/
def ReadOk (allocations : List (Handle × Page)) (r : Reading) : Prop :=
  ∃ k page, r.begun = some k ∧ allocations[k]? = some (r.handle, page) ∧
    (r.ended = some k → r.bytes = page)

structure Inv (s : System) : Prop where
  slots : ∀ i, SlotOk s i
  tasks : ∀ task, TaskOk s (s.phase task)
  unique : ∀ task task' j, (s.phase task).reserves = some j → (s.phase task').reserves = some j →
    task = task'
  counts : ∀ i, s.books.allocated i + s.books.shared i =
    s.books.released i + (s.state.slots i).refcount
  reads : ∀ r ∈ s.books.reads, ReadOk s.books.allocations r

/-! ## Changes of one slot -/

structure Local (s s' : System) (i : Fin maxSwapSlots) (task : TaskId) : Prop where
  slots : ∀ j, j ≠ i → s'.state.slots j = s.state.slots j
  area : s'.state.disk = s.state.disk
  occupant : ∀ j, j ≠ i → s'.books.occupant j = s.books.occupant j
  phase : ∀ t, t ≠ task → s'.phase t = s.phase t
  sectors : ∀ j, j ≠ i → ∀ lba, s.state.diskLba j = some lba → ∀ n, n < sectorsPerPage →
    s'.disk (lba + n) = s.disk (lba + n)
  allocations : s.books.allocations <+: s'.books.allocations
  others : ∀ t, t ≠ task → (s.phase t).reserves ≠ some (i : ℕ)
  before : ∀ j, j ≠ (i : ℕ) → (s.phase task).reserves = some j → (s'.phase task).reserves = some j
  after : ∀ j, (s'.phase task).reserves = some j → j = i ∨ (s.phase task).reserves = some j
  same : ∀ k, k < s.books.allocations.length → s'.books.occupant i = some k →
    s.books.occupant i = some k ∧ (s'.state.slots i).backing = (s.state.slots i).backing

section Local

variable {s s' : System} {i : Fin maxSwapSlots} {task : TaskId}

theorem SlotOk.of_live {slot : Slot} {k : ℕ} {bytes : Page} (hself : s'.state.slots i = slot)
    (hocc : slot.occupied = true) (hcount : 0 < slot.refcount)
    (hoccupant : s'.books.occupant i = some k)
    (hentry : s'.books.allocations[k]? = some (⟨i, slot.generation⟩, bytes))
    (hram : slot.backing = .ram → slot.data = bytes) (hdisk : slot.backing = .disk →
      ∃ lba, s'.state.diskLba i = some lba ∧ Stored s'.disk lba bytes sectorsPerPage) :
    SlotOk s' i := by
  subst hself
  exact .live hocc hcount k hoccupant bytes hentry ⟨hram, hdisk⟩

theorem SlotOk.of_vacant {slot : Slot} (task : TaskId) (hself : s'.state.slots i = slot)
    (hzero : slot.refcount = 0) (hnone : s'.books.occupant i = none)
    (htask : slot.occupied = true → (s'.phase task).reserves = some (i : ℕ)) : SlotOk s' i := by
  subst hself
  cases hocc : (s'.state.slots i).occupied with
  | false => exact .free hocc hzero hnone
  | true => exact .reserved hocc hzero hnone task (htask hocc)

theorem entry_mono {allocations allocations' : List (Handle × Page)} {k : ℕ}
    {entry : Handle × Page} (h : allocations <+: allocations')
    (hk : allocations[k]? = some entry) : allocations'[k]? = some entry := by
  obtain ⟨rest, rfl⟩ := h
  rw [List.getElem?_append_left (List.getElem?_eq_some_iff.mp hk).1]
  exact hk

/-- A slot that a step leaves alone, with the sectors of its page. -/
theorem SlotOk.kept {j : Fin maxSwapSlots} (h : SlotOk s j)
    (hslot : s'.state.slots j = s.state.slots j) (harea : s'.state.disk = s.state.disk)
    (hoccupants : s'.books.occupant j = s.books.occupant j)
    (hallocations : s.books.allocations <+: s'.books.allocations)
    (hsectors : ∀ lba, s.state.diskLba j = some lba → ∀ n, n < sectorsPerPage →
      s'.disk (lba + n) = s.disk (lba + n))
    (hphase : ∀ t, (s.phase t).reserves = some (j : ℕ) → (s'.phase t).reserves = some (j : ℕ)) :
    SlotOk s' j := by
  cases h with
  | free hfree hcount hoccupant =>
    exact .free (hslot ▸ hfree) (hslot ▸ hcount) (hoccupants ▸ hoccupant)
  | reserved hocc hcount hoccupant t ht =>
    exact .reserved (hslot ▸ hocc) (hslot ▸ hcount) (hoccupants ▸ hoccupant) t (hphase t ht)
  | live hocc hcount k hoccupant bytes hentry hholds =>
    refine .of_live hslot hocc hcount (hoccupants.trans hoccupant)
      (entry_mono hallocations hentry) hholds.ram fun hdisk => ?_
    obtain ⟨lba, hlba, hstored⟩ := hholds.disk hdisk
    refine ⟨lba, (diskLba_congr harea j).trans hlba, fun n hn => ?_⟩
    rw [hsectors lba hlba n hn]
    exact hstored n hn

variable {j : Fin maxSwapSlots}

theorem Local.stored (h : Local s s' i task) (hj : j ≠ i) {lba count : ℕ}
    {bytes : Page} (hlba : s.state.diskLba j = some lba) (hcount : count ≤ sectorsPerPage)
    (hstored : Stored s.disk lba bytes count) : Stored s'.disk lba bytes count := by
  intro n hn
  rw [h.sectors j hj lba hlba n (by omega)]
  exact hstored n hn

theorem Local.slotOk (h : Local s s' i task) (hj : j ≠ i) (hslot : SlotOk s j) : SlotOk s' j := by
  refine hslot.kept (h.slots j hj) h.area (h.occupant j hj) h.allocations (h.sectors j hj)
    fun t ht => ?_
  by_cases htask : t = task
  · subst htask
    exact h.before j (fun heq => hj (Fin.ext heq)) ht
  · rw [h.phase t htask, ht]

theorem Local.taskOk (h : Local s s' i task) {phase : Phase}
    (hreserves : phase.reserves ≠ some (i : ℕ)) (hphase : TaskOk s phase) : TaskOk s' phase := by
  cases phase with
  | idle => trivial
  | fallback bytes => trivial
  | writing index generation lba bytes sector =>
    obtain ⟨j, hj, hreserved, hlba, hsector, hstored⟩ := hphase
    have hne : j ≠ i := by
      rintro rfl
      exact hreserves (congrArg some hj.symm)
    refine ⟨j, hj, ?_, ?_, hsector, h.stored hne hlba hsector hstored⟩
    · rw [h.slots j hne]
      exact hreserved
    · rw [diskLba_congr h.area, hlba]
  | written index generation bytes wrote =>
    obtain ⟨j, hj, hreserved, hwrote⟩ := hphase
    have hne : j ≠ i := by
      rintro rfl
      exact hreserves (congrArg some hj.symm)
    refine ⟨j, hj, ?_, fun hok => ?_⟩
    · rw [h.slots j hne]
      exact hreserved
    obtain ⟨lba, hlba, hstored⟩ := hwrote hok
    refine ⟨lba, ?_, h.stored hne hlba le_rfl hstored⟩
    rw [diskLba_congr h.area, hlba]
  | reading handle lba bytes sector begun =>
    obtain ⟨j, k, page, hj, hbegun, hentry, hsector, hknown⟩ := hphase
    refine ⟨j, k, page, hj, hbegun, entry_mono h.allocations hentry, hsector, fun hoccupant => ?_⟩
    rw [diskLba_congr h.area]
    by_cases hne : j = i
    · subst hne
      obtain ⟨hbefore, hbacking⟩ := h.same k (List.getElem?_eq_some_iff.mp hentry).1 hoccupant
      rw [hbacking]
      exact hknown hbefore
    · rw [h.slots j hne]
      rw [h.occupant j hne] at hoccupant
      exact hknown hoccupant

theorem ReadOk.mono {allocations allocations' : List (Handle × Page)} {r : Reading}
    (h : ReadOk allocations r) (hmore : allocations <+: allocations') : ReadOk allocations' r := by
  obtain ⟨k, page, hbegun, hentry, hended⟩ := h
  exact ⟨k, page, hbegun, entry_mono hmore hentry, hended⟩

/-- A local step keeps the invariant if it does so for its slot and its task. -/
theorem Inv.of_local (hinv : Inv s) (i : Fin maxSwapSlots) (task : TaskId)
    (h : Local s s' i task) (hslot : SlotOk s' i) (htask : TaskOk s' (s'.phase task))
    (hcount : s'.books.allocated i + s'.books.shared i =
      s'.books.released i + (s'.state.slots i).refcount)
    (hcounts : ∀ j, j ≠ i → s'.books.SameCounts s.books j)
    (hreads : s'.books.reads = s.books.reads) : Inv s' := by
  refine ⟨fun j => ?_, fun t => ?_, fun t t' j ht ht' => ?_, fun j => ?_, fun r hr => ?_⟩
  · by_cases hj : j = i
    · subst hj
      exact hslot
    · exact h.slotOk hj (hinv.slots j)
  · by_cases ht : t = task
    · subst ht
      exact htask
    · rw [h.phase t ht]
      exact h.taskOk (h.others t ht) (hinv.tasks t)
  · -- the task of the step is the only one that may reserve the slot
    have hnew : ∀ u, (s'.phase u).reserves = some j → u ≠ task → (s'.phase task).reserves = some j →
        False := by
      intro u hu hne htask'
      rw [h.phase u hne] at hu
      obtain rfl | hbefore := h.after j htask'
      · exact h.others u hne hu
      · exact hne (hinv.unique u task j hu hbefore)
    by_cases heq : t = task
    · subst heq
      by_contra hne
      exact hnew t' ht' (Ne.symm hne) ht
    by_cases heq' : t' = task
    · subst heq'
      exact (hnew t ht heq ht').elim
    rw [h.phase t heq] at ht
    rw [h.phase t' heq'] at ht'
    exact hinv.unique t t' j ht ht'
  · by_cases hj : j = i
    · subst hj
      exact hcount
    obtain ⟨hallocated, hshared, hreleased⟩ := hcounts j hj
    rw [hallocated, hshared, hreleased, h.slots j hj]
    exact hinv.counts j
  · rw [hreads] at hr
    exact (hinv.reads r hr).mono h.allocations

end Local

/-! ## Steps that change no slot -/

theorem enter_phase (s : System) (task t : TaskId) (phase : Phase) :
    (s.enter task phase).phase t = if t = task then phase else s.phase t :=
  update_apply _ _ _ _

section Inv

variable {s : System} (h : Inv s)

include h

variable {task : TaskId} {handle : Handle}

theorem Inv.taskOk {old : Phase} (hold : s.phase task = old) : TaskOk s old :=
  hold ▸ h.tasks task

theorem Inv.enter {old phase : Phase} (hold : s.phase task = old) (hphase : TaskOk s phase)
    (hreserves : phase.reserves = old.reserves) : Inv (s.enter task phase) := by
  have hsame : ∀ t, ((s.enter task phase).phase t).reserves = (s.phase t).reserves := by
    intro t
    rw [enter_phase]
    split
    · rename_i ht
      rw [hreserves, ht, hold]
    · rfl
  refine ⟨fun i => (h.slots i).kept rfl rfl rfl prefix_rfl (fun _ _ _ _ => rfl)
    fun t => (hsame t).trans, fun t => ?_, fun t t' j => ?_,
    h.counts, h.reads⟩
  · rw [enter_phase]
    split
    · exact hphase
    · exact h.tasks t
  · rw [hsame, hsame]
    exact h.unique t t' j

theorem Inv.read {begun : Option ℕ} {bytes : Page}
    (hread : ReadOk s.books.allocations ⟨handle, begun, s.books.current handle, bytes⟩) :
    Inv { s with books := s.books.read handle begun bytes } := by
  refine ⟨fun i => (h.slots i).kept rfl rfl rfl prefix_rfl (fun _ _ _ _ => rfl)
    fun _ => id, h.tasks, h.unique, h.counts,
    fun r hr => ?_⟩
  obtain hr | hr := mem_append.mp hr
  · exact h.reads r hr
  · rw [mem_singleton.mp hr]
    exact hread

variable {i : Fin maxSwapSlots}

/-- A slot that is not reserved is reserved by nobody. -/
theorem Inv.not_reserved
    (hi : ¬((s.state.slots i).occupied = true ∧ (s.state.slots i).refcount = 0)) (task : TaskId) :
    (s.phase task).reserves ≠ some (i : ℕ) := by
  intro hreserves
  obtain ⟨j, hj, hreserved⟩ := (h.tasks task).slot hreserves
  obtain rfl : j = i := Fin.ext hj
  exact hi hreserved

theorem Inv.free (hfree : (s.state.slots i).occupied = false) :
    s.books.occupant i = none ∧ (s.state.slots i).refcount = 0 ∧
      ∀ t, (s.phase t).reserves ≠ some (i : ℕ) := by
  have hnone := h.not_reserved fun hreserved => nomatch hfree.symm.trans hreserved.1
  cases h.slots i with
  | free _ hcount hoccupant => exact ⟨hoccupant, hcount, hnone⟩
  | reserved hocc => exact nomatch hfree.symm.trans hocc
  | live hocc => exact nomatch hfree.symm.trans hocc

theorem Inv.reserved {generation : ℕ} (hreserved : isReserved (s.state.slots i) generation)
    (htask : (s.phase task).reserves = some (i : ℕ)) :
    s.books.occupant i = none ∧ ∀ t, t ≠ task → (s.phase t).reserves ≠ some (i : ℕ) := by
  refine ⟨?_, fun t hne ht => hne (h.unique t task i ht htask)⟩
  cases h.slots i with
  | free hfree => exact nomatch hfree.symm.trans hreserved.1
  | reserved _ _ hoccupant => exact hoccupant
  | live _ hcount => exact absurd hreserved.2.1 hcount.ne'

theorem Inv.live (hget : s.state.get handle = some i) :
    ∃ k bytes, s.books.current handle = some k ∧ s.books.occupant i = some k ∧
      s.books.allocations[k]? = some (handle, bytes) ∧ Holds s i bytes := by
  obtain ⟨hindex, hocc, hcount, hgen⟩ := get_eq_some hget
  have hcur : s.books.current handle = s.books.occupant i := by
    rw [current, ← hindex, slotAt, dif_pos i.isLt]
    rfl
  cases h.slots i with
  | free hfree =>
    rw [hfree] at hocc
    cases hocc
  | reserved _ hzero => omega
  | live _ _ k hoccupant bytes hentry hholds =>
    refine ⟨k, bytes, hcur.trans hoccupant, hoccupant, ?_, hholds⟩
    rw [hentry, hgen, hindex]

end Inv

/-! ## Steps that change a slot -/

section Slots

variable {s : System} (h : Inv s)

include h

variable {i : Fin maxSwapSlots} {phase : Phase} {task : TaskId} {slot : Slot}

theorem Inv.allocate (slot : Slot) (bytes : Page) (hcount : (s.state.slots i).refcount = 0)
    (hothers : ∀ t, t ≠ task → (s.phase t).reserves ≠ some (i : ℕ))
    (htask : ∀ j, (s.phase task).reserves = some j → j = i)
    (hslot : slot.occupied = true ∧ slot.refcount = 1)
    (hram : slot.backing = .ram → slot.data = bytes) (hdisk : slot.backing = .disk →
      ∃ lba, s.state.diskLba i = some lba ∧ Stored s.disk lba bytes sectorsPerPage) : Inv ({ s with
      state := s.state.setSlot i slot
      books := s.books.allocate ⟨i, slot.generation⟩ bytes }.enter task .idle) := by
  have hself := s.state.setSlot_self i slot
  have hindex : (i : ℕ) = Handle.index ⟨i, slot.generation⟩ := rfl
  refine h.of_local i task ⟨fun j hj => update_of_ne hj .., rfl,
    fun j hj => if_neg (index_ne_of_ne hindex hj), fun t ht => update_of_ne ht ..,
    fun _ _ _ _ _ _ => rfl, prefix_append _ _, hothers,
    fun j hj hbefore => absurd (htask j hbefore) hj, fun j hafter => ?_,
    fun k hk hoccupant => ?_⟩ ?_ ?_ ?_ (fun j hj => ⟨tally_of_ne hindex _ hj, rfl, rfl⟩) rfl
  · rw [enter_phase, if_pos rfl] at hafter
    cases hafter
  · have hnew : some s.books.allocations.length = some k := (if_pos rfl).symm.trans hoccupant
    cases hnew
    exact absurd hk (lt_irrefl _)
  · exact .of_live hself hslot.1 (hslot.2 ▸ Nat.one_pos) (if_pos rfl) getElem?_concat_length
      hram hdisk
  · rw [enter_phase, if_pos rfl]
    trivial
  · have hcounts := h.counts i
    change tally s.books.allocated ⟨i, slot.generation⟩ i + s.books.shared i =
      s.books.released i + ((s.state.setSlot i slot).slots i).refcount
    rw [hself, tally_self hindex, hslot.2]
    omega

/-- A change of a slot by which no allocation comes or goes. -/
theorem Inv.setSlot (hold : s.books.occupant i = none) (hcount : (s.state.slots i).refcount = 0)
    (hothers : ∀ t, t ≠ task → (s.phase t).reserves ≠ some (i : ℕ))
    (hbefore : ∀ j, (s.phase task).reserves = some j → j = i)
    (hafter : ∀ j, phase.reserves = some j → j = i) (hzero : slot.refcount = 0)
    (hslot : slot.occupied = true → phase.reserves = some (i : ℕ))
    (htask : TaskOk { s with state := s.state.setSlot i slot } phase) :
    Inv ({ s with state := s.state.setSlot i slot }.enter task phase) := by
  have hself := s.state.setSlot_self i slot
  have hphase :
      ({ s with state := s.state.setSlot i slot }.enter task phase).phase task = phase := by
    rw [enter_phase, if_pos rfl]
  refine h.of_local i task ⟨fun j hj => update_of_ne hj .., rfl, fun _ _ => rfl,
    fun t ht => update_of_ne ht .., fun _ _ _ _ _ _ => rfl, prefix_rfl, hothers,
    fun j hj hj' => absurd (hbefore j hj') hj, fun j hj => ?_,
    fun k _ hoccupant => nomatch hold.symm.trans hoccupant⟩ ?_ ?_ ?_ (fun _ _ => ⟨rfl, rfl, rfl⟩) rfl
  · rw [hphase] at hj
    exact .inl (hafter j hj)
  · refine .of_vacant task hself hzero hold fun hocc => ?_
    rw [hphase]
    exact hslot hocc
  · rw [hphase]
    exact htask
  · change _ = _ + ((s.state.setSlot i slot).slots i).refcount
    rw [hself, hzero, ← hcount]
    exact h.counts i

/-- The count of a page in use changes; at zero the slot is free. -/
theorem Inv.recount {books : Books} (hused : 0 < (s.state.slots i).refcount)
    (hallocations : books.allocations = s.books.allocations) (hreads : books.reads = s.books.reads)
    (hothers : ∀ j, j ≠ i → books.occupant j = s.books.occupant j ∧ books.SameCounts s.books j)
    (hcount : books.allocated i + books.shared i = books.released i + slot.refcount)
    (hkept : slot.occupied = true → 0 < slot.refcount ∧ books.occupant i = s.books.occupant i ∧
      slot.generation = (s.state.slots i).generation ∧ slot.data = (s.state.slots i).data ∧
      slot.backing = (s.state.slots i).backing)
    (hfreed : slot.occupied = false → slot.refcount = 0 ∧ books.occupant i = none) :
    Inv { s with state := s.state.setSlot i slot, books := books } := by
  have hself := s.state.setSlot_self i slot
  have hnone := h.not_reserved fun hreserved => hused.ne' hreserved.2
  -- no task has reserved the slot, so any task will do as that of the step
  have hlocal : Local s { s with state := s.state.setSlot i slot, books := books } i 0 := by
    refine ⟨fun j hj => update_of_ne hj .., rfl, fun j hj => (hothers j hj).1,
      fun _ _ => rfl, fun _ _ _ _ _ _ => rfl, ?_, fun t _ => hnone t, fun _ _ hj => hj,
      fun _ hj => .inr hj, fun k hk hoccupant => ?_⟩
    · exact ⟨[], (append_nil _).trans hallocations.symm⟩
    cases hocc : slot.occupied with
    | false =>
      rw [(hfreed hocc).2] at hoccupant
      cases hoccupant
    | true =>
      obtain ⟨_, hsame, _, _, hbacking⟩ := hkept hocc
      rw [hsame] at hoccupant
      refine ⟨hoccupant, ?_⟩
      rw [hself, hbacking]
  refine h.of_local i 0 hlocal ?_ (hlocal.taskOk (hnone 0) (h.tasks 0)) (hself.symm ▸ hcount)
    (fun j hj => (hothers j hj).2) hreads
  cases hocc : slot.occupied with
  | false =>
    obtain ⟨hzero, hnone⟩ := hfreed hocc
    exact .of_vacant 0 hself hzero hnone fun htrue => absurd (hocc.symm.trans htrue) nofun
  | true =>
    obtain ⟨hpos, hsame, hgen, hdata, hbacking⟩ := hkept hocc
    cases h.slots i with
    | free _ hzero => omega
    | reserved _ hzero => omega
    | live _ _ k hoccupant bytes hentry hholds =>
      refine .of_live hself hocc hpos (hsame.trans hoccupant) ?_
        (fun hram => hdata.trans (hholds.ram (hbacking.symm.trans hram)))
        fun hdisk => hholds.disk (hbacking.symm.trans hdisk)
      rw [hgen]
      exact hallocations ▸ hentry

theorem Inv.writeDisk {generation lba n : ℕ}
    {sector : Sector} (hreserved : isReserved (s.state.slots i) generation)
    (hlba : s.state.diskLba i = some lba) (hn : n < sectorsPerPage)
    (htask : (s.phase task).reserves = some (i : ℕ)) (hphase : phase.reserves = some (i : ℕ))
    (hok : TaskOk { s with disk := update s.disk (lba + n) sector } phase) :
    Inv ({ s with disk := update s.disk (lba + n) sector }.enter task phase) := by
  have henter : ({ s with disk := update s.disk (lba + n) sector }.enter task
      phase).phase task = phase := by
    rw [enter_phase, if_pos rfl]
  obtain ⟨hoccupant, hothers⟩ := h.reserved hreserved htask
  refine h.of_local i task ⟨fun _ _ => rfl, rfl, fun _ _ => rfl, fun t ht => ?_,
    fun j hj b hb m hm => ?_, prefix_rfl, hothers, fun j hj hj' => ?_,
    fun j hj => ?_, fun k _ hk => ⟨hk, rfl⟩⟩ ?_ ?_ (h.counts i) (fun _ _ => ⟨rfl, rfl, rfl⟩) rfl
  · rw [enter_phase, if_neg ht]
  · have hne := diskLba_disjoint hb hlba (fun heq => hj (Fin.ext heq)) hm hn
    exact update_of_ne hne ..
  · exact absurd (some.inj (hj'.symm.trans htask)) hj
  · rw [henter] at hj
    exact .inl (some.inj (hj.symm.trans hphase))
  · refine .reserved hreserved.1 hreserved.2.1 hoccupant task ?_
    rw [henter, hphase]
  · rw [henter]
    exact hok

end Slots

/-! ## The steps of the source -/

end System

namespace State

variable (st : State)

theorem slotAt_val (i : Fin maxSwapSlots) : slotAt i = some i := by
  rw [slotAt, dif_pos i.isLt]

theorem reserveDisk_cases : st.reserveDisk = (none, st) ∨ ∃ (i : Fin maxSwapSlots) (lba : ℕ),
      (st.slots i).occupied = false ∧ st.diskLba i = some lba ∧
      st.reserveDisk = (some ((i : ℕ), st.nextGeneration i, lba),
        st.setSlot i ⟨zero, 0, st.nextGeneration i, true, .disk⟩) := by
  unfold reserveDisk
  split
  · exact .inl rfl
  rename_i i hfree
  split
  · exact .inl rfl
  · rename_i lba hlba
    exact .inr ⟨i, lba, freeSlot_free hfree, hlba, rfl⟩

theorem allocateRam_cases (bytes : Page) :
    st.allocateRam bytes = (none, st) ∨ ∃ i : Fin maxSwapSlots, (st.slots i).occupied = false ∧
      st.allocateRam bytes = (some ⟨i, st.nextGeneration i⟩,
        st.setSlot i ⟨bytes, 1, st.nextGeneration i, true, .ram⟩) := by
  unfold allocateRam
  split
  · exact .inl rfl
  · rename_i i hfree
    exact .inr ⟨i, freeSlot_free hfree, rfl⟩

variable {st} {i : Fin maxSwapSlots} {generation : ℕ}

theorem publishReservedDisk_eq (h : isReserved (st.slots i) generation) :
    st.publishReservedDisk i generation = (some ⟨i, generation⟩,
      st.setSlot i { st.slots i with refcount := 1, backing := .disk }) := by
  rw [publishReservedDisk, slotAt_val]
  exact if_pos h

theorem cancelReserved_eq (h : isReserved (st.slots i) generation) :
    st.cancelReserved i generation = st.setSlot i (st.slots i).clear := by
  rw [cancelReserved, slotAt_val]
  exact if_pos h

end State

namespace System

/-- A step keeps the invariant, and the area where it was configured. -/
def Keeps (s s' : System) : Prop :=
  Inv s' ∧ s'.state.disk = s.state.disk

section Steps

variable {s : System} (h : Inv s)

include h

variable {task : TaskId} {bytes : Page} {handle : Handle}

theorem Inv.beginAllocate (hidle : s.phase task = .idle) (bytes : Page) :
    Keeps s (s.beginAllocate task bytes) := by
  have hnone : ∀ j, (s.phase task).reserves ≠ some j := by
    intro j hj
    rw [hidle] at hj
    cases hj
  unfold System.beginAllocate
  obtain hreserve | ⟨i, lba, hfree, hlba, hreserve⟩ := s.state.reserveDisk_cases
  · rw [hreserve]
    exact ⟨h.enter hidle trivial rfl, rfl⟩
  rw [hreserve]
  obtain ⟨hoccupant, hcount, hothers⟩ := h.free hfree
  refine ⟨h.setSlot hoccupant hcount (fun t _ => hothers t) (fun j hj => absurd hj (hnone j))
    (fun j hj => (some.inj hj).symm) rfl (fun _ => rfl) ?_, rfl⟩
  refine ⟨i, rfl, ?_, hlba, Nat.zero_le _, fun n hn => absurd hn (Nat.not_lt_zero n)⟩
  rw [setSlot_self]
  exact ⟨rfl, rfl, rfl⟩

theorem Inv.settle {index generation : ℕ} {wrote : Bool}
    (hphase : s.phase task = .written index generation bytes wrote) :
    Keeps s (s.settle task index generation bytes wrote) := by
  obtain ⟨i, rfl, hreserved, hwrote⟩ := h.taskOk hphase
  have hreserves : (s.phase task).reserves = some (i : ℕ) := by
    rw [hphase]
    rfl
  have honly : ∀ j, (s.phase task).reserves = some j → j = i := fun j hj =>
    some.inj (hj.symm.trans hreserves)
  obtain ⟨hoccupant, hothers⟩ := h.reserved hreserved hreserves
  unfold System.settle
  cases wrote with
  | false =>
    rw [cancelReserved_eq hreserved]
    exact ⟨h.setSlot hoccupant hreserved.2.1 hothers honly nofun rfl
      nofun trivial, rfl⟩
  | true =>
    rw [publishReservedDisk_eq hreserved]
    have hpublished := h.allocate { s.state.slots i with refcount := 1, backing := .disk } bytes
      hreserved.2.1 hothers honly ⟨hreserved.1, rfl⟩ nofun fun _ => hwrote rfl
    rw [hreserved.2.2] at hpublished
    exact ⟨hpublished, rfl⟩

theorem Inv.fallBack (hphase : s.phase task = .fallback bytes) :
    Keeps s (s.fallBack task bytes) := by
  unfold System.fallBack
  obtain hram | ⟨i, hfree, hram⟩ := s.state.allocateRam_cases bytes
  · rw [hram]
    exact ⟨h.enter hphase trivial rfl, rfl⟩
  rw [hram]
  obtain ⟨_, hcount, hothers⟩ := h.free hfree
  exact ⟨h.allocate _ bytes hcount (fun t _ => hothers t)
    (fun j hj => by rw [hphase] at hj; cases hj) ⟨rfl, rfl⟩ (fun _ => rfl)
    nofun, rfl⟩

theorem Inv.beginRead (hidle : s.phase task = .idle) (handle : Handle)
    (bytes : Page) : Keeps s (s.beginRead task handle bytes) := by
  unfold System.beginRead
  split
  · exact ⟨h, rfl⟩
  rename_i i hget
  obtain ⟨k, page, hcur, hoccupant, hentry, hholds⟩ := h.live hget
  obtain ⟨hindex, -⟩ := get_eq_some hget
  split
  · rename_i hram
    exact ⟨h.read ⟨k, page, hcur, hentry, fun _ => hholds.ram hram⟩, rfl⟩
  rename_i hdisk
  split
  · exact ⟨h, rfl⟩
  rename_i lba hlba
  refine ⟨h.enter hidle ⟨i, k, page, hindex, hcur, hentry, by decide,
    fun _ => ⟨hdisk, ?_, ?_⟩⟩ rfl, rfl⟩
  · rw [hindex]
    exact hlba
  · intro j hj
    omega

theorem Inv.readSector {lba sector : ℕ}
    {begun : Option ℕ} (hphase : s.phase task = .reading handle lba bytes sector begun) :
    Keeps s (s.readSector task handle lba bytes sector begun) := by
  obtain ⟨i, k, page, hindex, hbegun, hentry, hsector, hknown⟩ := h.taskOk hphase
  have hcur : s.books.current handle = s.books.occupant i := by
    rw [current, ← hindex, slotAt_val]
    rfl
  -- as long as the allocation is there, its sectors are on the disk
  have hnext : s.books.occupant i = some k → ∀ j, j < (sector + 1) * sectorSize →
      (bytes.write (sector * sectorSize) (s.disk (lba + sector)).toList).get j = page.get j := by
    intro hoccupant j hj
    obtain ⟨hdisk, hlba, hread⟩ := hknown hoccupant
    cases h.slots i with
    | free _ _ hnone => exact nomatch hnone.symm.trans hoccupant
    | reserved _ _ hnone => exact nomatch hnone.symm.trans hoccupant
    | live _ _ k' hk' page' hentry' hholds =>
      obtain rfl : k' = k := some.inj (hk'.symm.trans hoccupant)
      obtain rfl : page' = page := (Prod.mk.inj (some.inj (hentry'.symm.trans hentry))).2
      obtain ⟨lba', hlba', hstored⟩ := hholds.disk hdisk
      obtain rfl : lba' = lba := some.inj (hlba'.symm.trans hlba)
      exact get_write_sector hstored hsector hread hj
  unfold System.readSector
  split
  · exact ⟨h.enter hphase trivial rfl, rfl⟩
  split
  · rename_i hlast
    have hread : ReadOk s.books.allocations ⟨handle, begun, s.books.current handle,
        bytes.write (sector * sectorSize) (s.disk (lba + sector)).toList⟩ := by
      refine ⟨k, page, hbegun, hentry, fun hended => ext_get fun j hj => ?_⟩
      refine hnext (hcur.symm.trans hended) j ?_
      rw [hlast]
      exact hj
    exact ⟨(h.read hread).enter hphase trivial rfl, rfl⟩
  · rename_i hmore
    refine ⟨h.enter hphase ⟨i, k, page, hindex, hbegun, hentry, by omega,
      fun hoccupant => ?_⟩ rfl, rfl⟩
    obtain ⟨hdisk, hlba, -⟩ := hknown hoccupant
    exact ⟨hdisk, hlba, hnext hoccupant⟩

variable {i : Fin maxSwapSlots}

theorem Inv.share (hget : s.state.get handle = some i) : Inv { s with
      state := s.state.setSlot i { s.state.slots i with
        refcount := (s.state.slots i).refcount + 1 }
      books := s.books.share handle } := by
  obtain ⟨hindex, hocc, hused, -⟩ := get_eq_some hget
  refine h.recount hused rfl rfl
    (fun j hj => ⟨rfl, rfl, tally_of_ne hindex _ hj, rfl⟩) ?_
    (fun _ => ⟨Nat.succ_pos _, rfl, rfl, rfl, rfl⟩)
    fun hfree => nomatch hfree.symm.trans hocc
  have hcounts := h.counts i
  change s.books.allocated i + tally s.books.shared handle i =
    s.books.released i + ((s.state.slots i).refcount + 1)
  rw [tally_self hindex]
  omega

theorem Inv.release {slot : Slot} (hget : s.state.get handle = some i)
    (hslot : slot = if (s.state.slots i).refcount - 1 = 0 then (s.state.slots i).clear
      else { s.state.slots i with refcount := (s.state.slots i).refcount - 1 }) :
    Inv { s with
      state := s.state.setSlot i slot
      books := s.books.release handle (s.state.setSlot i slot).slots } := by
  obtain ⟨hindex, hocc, hused, -⟩ := get_eq_some hget
  have hself := s.state.setSlot_self i slot
  have hrefcount : slot.refcount = (s.state.slots i).refcount - 1 := by
    rw [hslot]
    split
    · rename_i hzero
      exact hzero.symm
    · rfl
  refine h.recount hused rfl rfl (fun j hj => ⟨if_neg fun heq => index_ne_of_ne hindex hj heq.1,
    rfl, rfl, tally_of_ne hindex _ hj⟩) ?_ (fun hkept => ?_) fun hfreed => ?_
  · have hcounts := h.counts i
    change s.books.allocated i + s.books.shared i = tally s.books.released handle i + _
    rw [tally_self hindex, hrefcount]
    omega
  · have hoccupant : (s.books.release handle (s.state.setSlot i slot).slots).occupant i =
        s.books.occupant i := by
      refine if_neg fun hfree => ?_
      rw [hself, hkept] at hfree
      cases hfree.2
    by_cases hzero : (s.state.slots i).refcount - 1 = 0
    · rw [hslot, if_pos hzero] at hkept
      cases hkept
    rw [if_neg hzero] at hslot
    refine ⟨by omega, hoccupant, ?_, ?_, ?_⟩
    · rw [hslot]
    · rw [hslot]
    · rw [hslot]
  · refine ⟨?_, if_pos ⟨hindex, ?_⟩⟩
    · by_cases hzero : (s.state.slots i).refcount - 1 = 0
      · rw [hrefcount, hzero]
      · rw [hslot, if_neg hzero] at hfreed
        exact nomatch hfreed.symm.trans hocc
    · rw [hself, hfreed]

theorem Inv.step {s' : System} {act : Act} (hstep : s.step act = some s') : Keeps s s' := by
  unfold System.step at hstep
  cases act with dsimp only at hstep
  | allocate task bytes =>
    split at hstep
    · rename_i hidle
      cases hstep
      exact h.beginAllocate hidle bytes
    · cases hstep
  | absent task =>
    split at hstep
    · rename_i index generation lba bytes hphase
      cases hstep
      obtain ⟨i, hi, hreserved, -⟩ := h.taskOk hphase
      exact ⟨h.enter hphase ⟨i, hi, hreserved, nofun⟩ rfl, rfl⟩
    · cases hstep
  | writeSector task =>
    split at hstep
    · rename_i index generation lba bytes sector hphase
      obtain ⟨i, hi, hreserved, hlba, -, hstored⟩ := h.taskOk hphase
      split at hstep
      · cases hstep
      rename_i hmore
      split at hstep
      · cases hstep
        exact ⟨h.enter hphase ⟨i, hi, hreserved, nofun⟩ rfl, rfl⟩
      cases hstep
      subst hi
      exact ⟨h.writeDisk hreserved hlba (by omega) (by rw [hphase]; rfl) rfl
        ⟨i, rfl, hreserved, hlba, by omega, hstored.succ⟩, rfl⟩
    · cases hstep
  | failSector task left =>
    split at hstep
    · rename_i index generation lba bytes sector hphase
      obtain ⟨i, hi, hreserved, hlba, -⟩ := h.taskOk hphase
      split at hstep
      · cases hstep
      rename_i hmore
      cases hstep
      subst hi
      exact ⟨h.writeDisk hreserved hlba (by omega) (by rw [hphase]; rfl) rfl
        ⟨i, rfl, hreserved, nofun⟩, rfl⟩
    · cases hstep
  | flush task succeeds =>
    split at hstep
    · rename_i index generation lba bytes sector hphase
      obtain ⟨i, hi, hreserved, hlba, -, hstored⟩ := h.taskOk hphase
      split at hstep
      · rename_i hall
        cases hstep
        subst hall
        exact ⟨h.enter hphase ⟨i, hi, hreserved, fun _ => ⟨lba, hlba, hstored⟩⟩ rfl, rfl⟩
      · cases hstep
    · cases hstep
  | settle task =>
    split at hstep
    · rename_i hphase
      cases hstep
      exact h.settle hphase
    · cases hstep
  | allocateRam task =>
    split at hstep
    · rename_i hphase
      cases hstep
      exact h.fallBack hphase
    · cases hstep
  | read task handle bytes =>
    split at hstep
    · rename_i hidle
      cases hstep
      exact h.beginRead hidle handle bytes
    · cases hstep
  | readSector task succeeds =>
    split at hstep
    · rename_i hphase
      cases hstep
      cases succeeds with
      | true => exact h.readSector hphase
      | false => exact ⟨h.enter hphase trivial rfl, rfl⟩
    · cases hstep
  | share handle =>
    simp only [State.share] at hstep
    cases hget : s.state.get handle with
    | none =>
      rw [hget] at hstep
      cases hstep
      exact ⟨h, rfl⟩
    | some i =>
      rw [hget] at hstep
      dsimp only at hstep
      by_cases hroom : (s.state.slots i).refcount + 1 < 2 ^ 16
      · rw [if_pos hroom] at hstep
        cases hstep
        exact ⟨h.share hget, rfl⟩
      · rw [if_neg hroom] at hstep
        cases hstep
        exact ⟨h, rfl⟩
  | release handle =>
    simp only [State.release] at hstep
    cases hget : s.state.get handle with
    | none =>
      rw [hget] at hstep
      cases hstep
      exact ⟨h, rfl⟩
    | some i =>
      rw [hget] at hstep
      cases hstep
      exact ⟨h.release hget rfl, rfl⟩

end Steps

theorem inv_configured (startLba sectors : ℕ) (disk : ℕ → Sector) :
    Inv (configured startLba sectors disk) := by
  have hslots : ∀ i, (new.configureDisk startLba sectors).2.slots i = .empty := by
    intro i
    simp only [configureDisk]
    split
    · rfl
    · split <;> rfl
  have hslot : ∀ i, (configured startLba sectors disk).state.slots i = .empty := hslots
  refine ⟨fun i => ?_, fun _ => trivial, by rintro _ _ _ ⟨⟩, fun i => ?_, by rintro _ ⟨⟩⟩
  · refine .free ?_ ?_ rfl
    · rw [hslot]
      rfl
    · rw [hslot]
      rfl
  · rw [hslot]
    rfl

/-! ## Runs -/

/-- A slot is free if and only if no `allocate_page` holds it and its releases have caught up with
its allocations and shares. -/
theorem Inv.free_iff {s : System} (h : Inv s) (i : Fin maxSwapSlots) :
    (s.state.slots i).occupied = false ↔
      (∀ task, (s.phase task).reserves ≠ some (i : ℕ)) ∧
      s.books.allocated i + s.books.shared i = s.books.released i := by
  have hcounts := h.counts i
  constructor
  · intro hfree
    obtain ⟨_, hcount, hnone⟩ := h.free hfree
    exact ⟨hnone, by omega⟩
  · rintro ⟨hnone, heven⟩
    cases h.slots i with
    | free hfree => exact hfree
    | reserved _ _ _ task htask => exact absurd htask (hnone task)
    | live _ hcount => omega

/-- In every state that any interleaving of the tasks reaches from a configured area: a
successful read found an allocation of its handle, and returned the bytes of this allocation if
it was still in the slot at the end; the sectors of the slots are disjoint and inside the area;
and the free slots are those that no allocation holds and whose owners have all released them. -/
theorem run_contents (startLba sectors : ℕ) (disk : ℕ → Sector) (acts : List Act) :
    let s := runAll step (configured startLba sectors disk) acts
    (∀ r ∈ s.books.reads, ∃ k page, r.begun = some k ∧
      s.books.allocations[k]? = some (r.handle, page) ∧ (r.ended = some k → r.bytes = page)) ∧
    (∀ (i : Fin maxSwapSlots) (lba : ℕ), s.state.diskLba i = some lba → ∀ n, n < sectorsPerPage →
      (startLba ≤ lba + n ∧ lba + n < startLba + sectors) ∧
      ∀ (j : Fin maxSwapSlots) (lba' : ℕ), j ≠ i → s.state.diskLba j = some lba' →
        ∀ m, m < sectorsPerPage → lba + n ≠ lba' + m) ∧
    ∀ i : Fin maxSwapSlots, (s.state.slots i).occupied = false ↔
      (∀ task, (s.phase task).reserves ≠ some (i : ℕ)) ∧
      s.books.allocated i + s.books.shared i = s.books.released i := by
  intro s
  obtain ⟨hinv, harea⟩ : Keeps (configured startLba sectors disk) s := by
    refine runAll_induct ⟨inv_configured startLba sectors disk, rfl⟩ ?_ acts
    intro s act s' h hstep
    obtain ⟨hinv, harea⟩ := h.1.step hstep
    exact ⟨hinv, harea.trans h.2⟩
  refine ⟨hinv.reads, fun i lba hlba n hn => ⟨?_, fun j lba' hj hlba' m hm => ?_⟩, hinv.free_iff⟩
  · rw [diskLba_congr harea] at hlba
    exact diskLba_configured hlba hn
  · exact diskLba_disjoint hlba hlba' (fun heq => hj (Fin.ext heq.symm)) hn hm

/-- One task swaps a page out to the disk, and another one reads it back. -/
example : (runAll step (configured 8 16 fun _ => zero)
    ([.allocate 1 (fill 7)] ++ replicate sectorsPerPage (.writeSector 1) ++
      [.flush 1 true, .settle 1, .read 2 ⟨0, 1⟩ zero] ++
      replicate sectorsPerPage (.readSector 2 true))).books.reads.map
        (fun r => (r.ended, r.bytes.get 4095)) = [(some 0, 7)] := by
  decide +kernel

/-- In every interleaving, no two tasks write the page of one slot, and the reference count of a
slot is what its allocations and shares exceed its releases by. -/
theorem run_reservations (startLba sectors : ℕ) (disk : ℕ → Sector) (acts : List Act) :
    let s := runAll step (configured startLba sectors disk) acts
    (∀ task task' j, (s.phase task).reserves = some j → (s.phase task').reserves = some j →
      task = task') ∧
    ∀ i, s.books.allocated i + s.books.shared i =
      s.books.released i + (s.state.slots i).refcount := by
  intro s
  have h : Inv s := runAll_induct (inv_configured startLba sectors disk)
    (fun _ _ _ h hstep => (h.step hstep).1) acts
  exact ⟨h.unique, h.counts⟩

end System

end WovenHat.Swap
