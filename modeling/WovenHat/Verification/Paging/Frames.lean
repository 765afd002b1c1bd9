import WovenHat.Library.Always
import WovenHat.Model.Frames
import WovenHat.Verification.Paging.Ownership

/-! # The frames that the allocator hands out

The allocator with ranges and a cursor does what the allocator of the paging model does with
lists of frames. The frames that are held, those given back and those never handed out are
together the usable ones, each once. -/

namespace WovenHat.Frames

open Library List Allocator FrameRange Paging.FrameAllocator

/-! ## Ranges -/

namespace FrameRange

def frames (r : FrameRange) : List ℕ :=
  range' r.start ((r.stop - r.start) / frameSize) frameSize

def rest (r : FrameRange) : List ℕ :=
  range' r.next ((r.stop - r.next) / frameSize) frameSize

structure Aligned (r : FrameRange) : Prop where
  start : r.start % frameSize = 0
  next : r.next % frameSize = 0
  stop : r.stop % frameSize = 0

variable {r : FrameRange} {address : ℕ}

theorem Aligned.mem_frames (h : r.Aligned) :
    address ∈ r.frames ↔ address % frameSize = 0 ∧ r.start ≤ address ∧ address < r.stop := by
  have hstart := h.start
  have hstop := h.stop
  rw [frames, mem_range']
  unfold frameSize at *
  constructor
  · rintro ⟨i, hi, rfl⟩
    omega
  · rintro ⟨haddr, hle, hlt⟩
    exact ⟨(address - r.start) / 4096, by omega, by omega⟩

theorem frames_nodup (r : FrameRange) : r.frames.Nodup :=
  nodup_range' _ (by decide : 0 < frameSize)

theorem Aligned.rest_cons (h : r.Aligned) (hlt : r.next < r.stop) :
    r.rest = r.next :: rest { r with next := r.next + frameSize } := by
  have hnext := h.next
  have hstop := h.stop
  have hcount :
      (r.stop - r.next) / frameSize = (r.stop - (r.next + frameSize)) / frameSize + 1 := by
    unfold frameSize at *
    omega
  rw [rest, hcount, range'_succ]
  rfl

theorem frames_next (r : FrameRange) (next : ℕ) : frames { r with next } = r.frames := by
  rw [frames, frames]

theorem rest_eq_nil (hle : r.stop ≤ r.next) : r.rest = [] := by
  rw [rest, Nat.sub_eq_zero_of_le hle]
  rfl

theorem Aligned.advance (h : r.Aligned) : Aligned { r with next := r.next + frameSize } :=
  ⟨h.start, (Nat.add_mod_right _ _).trans h.next, h.stop⟩

end FrameRange

/-! ## The allocator of the paging model -/

namespace Allocator

variable {a a' : Allocator} {address : ℕ}

def toFrameAllocator (a : Allocator) : Paging.FrameAllocator where
  usable := a.ranges.flatMap frames
  fresh := (a.ranges.drop a.currentRange).flatMap rest
  reclaimed := a.reclaimedFrames
  allocatedFrames := a.allocatedFrames

structure Ok (a : Allocator) : Prop where
  initialized : a.initialized = true
  aligned : ∀ r ∈ a.ranges, r.Aligned

/-- What the loop over the ranges does, in terms of the frames never handed out. -/
structure FreshSpec (a : Allocator) (result : Outcome × Allocator) : Prop where
  ok : result.2.Ok
  total : result.2.totalFrames = a.totalFrames
  outcome : result.1 = (a.toFrameAllocator.fresh.head?.map physFrame).getD .none
  toFrameAllocator : result.2.toFrameAllocator =
    { a.toFrameAllocator with
      fresh := a.toFrameAllocator.fresh.tail
      allocatedFrames := a.allocatedFrames + a.toFrameAllocator.fresh.head?.toList.length }

theorem flatMap_set_of_eq {α β : Type*} {f : α → List β} {l : List α} {i : ℕ} (hi : i < l.length)
    {x : α} (hx : f x = f l[i]) : (l.set i x).flatMap f = l.flatMap f := by
  rw [flatMap_def, flatMap_def, map_set, hx, ← getElem_map f, set_getElem_self]
  simpa using hi

theorem toFrameAllocator_advance (a : Allocator) {i : ℕ} (hi : i < a.ranges.length) (next n : ℕ) :
    toFrameAllocator { a with
      ranges := a.ranges.set i { a.ranges[i] with next }
      currentRange := i
      allocatedFrames := n } =
    { a.toFrameAllocator with
      fresh := rest { a.ranges[i] with next } ++ (a.ranges.drop (i + 1)).flatMap rest
      allocatedFrames := n } := by
  have hset : (a.ranges.set i { a.ranges[i] with next }).drop i =
      { a.ranges[i] with next } :: a.ranges.drop (i + 1) := by
    rw [drop_set, if_neg (lt_irrefl _), drop_eq_getElem_cons hi, Nat.sub_self, set_cons_zero]
  have husable : (a.ranges.set i { a.ranges[i] with next }).flatMap frames =
      a.ranges.flatMap frames := flatMap_set_of_eq hi (frames_next _ _)
  simp only [toFrameAllocator, hset, husable, flatMap_cons]

theorem allocateFresh_spec (a : Allocator) (h : a.Ok) : FreshSpec a a.allocateFresh := by
  fun_induction allocateFresh a with
  | case1 a hi range hlt =>
    have haligned := h.aligned range (getElem_mem hi)
    have hadvance := haligned.advance
    have hrest := haligned.rest_cons hlt
    have hdrop : a.ranges.drop a.currentRange = range :: a.ranges.drop (a.currentRange + 1) :=
      drop_eq_getElem_cons hi
    generalize range.next + frameSize = next at *
    have hfresh : a.toFrameAllocator.fresh = range.next :: (rest { range with next } ++
        (a.ranges.drop (a.currentRange + 1)).flatMap rest) := by
      rw [toFrameAllocator, hdrop, flatMap_cons, hrest, cons_append]
    refine ⟨⟨h.initialized, ?_⟩, rfl, ?_, ?_⟩
    · intro r hr
      rcases mem_or_eq_of_mem_set hr with hr | rfl
      · exact h.aligned r hr
      · exact hadvance
    · rw [hfresh, head?_cons, Option.map_some, Option.getD_some]
    · refine (toFrameAllocator_advance a hi next (a.allocatedFrames + 1)).trans ?_
      rw [hfresh, tail_cons, head?_cons, Option.toList_some, length_singleton]
  | case2 a hi range hlt ih =>
    have hfresh : toFrameAllocator { a with currentRange := a.currentRange + 1 } =
        a.toFrameAllocator := by
      rw [toFrameAllocator, toFrameAllocator, drop_eq_getElem_cons hi, flatMap_cons,
        rest_eq_nil (not_lt.mp hlt), nil_append]
    obtain ⟨hok, htotal, houtcome, habs⟩ := ih ⟨h.initialized, h.aligned⟩
    rw [hfresh] at houtcome habs
    exact ⟨hok, htotal, houtcome, habs⟩
  | case3 a hi =>
    have hfresh : a.toFrameAllocator.fresh = [] := by
      rw [toFrameAllocator, drop_eq_nil_of_le (not_lt.mp hi), flatMap_nil]
    refine ⟨h, rfl, by rw [hfresh]; rfl, ?_⟩
    rw [hfresh]
    simp only [toFrameAllocator, drop_eq_nil_of_le (not_lt.mp hi)]
    rfl

/-- What `allocate_frame` does, in terms of the allocator of the paging model. -/
inductive Allocation (a : Allocator) : Outcome × Allocator → Prop
  | frame (address : ℕ) (a' : Allocator) (ok : a'.Ok) (total : a'.totalFrames = a.totalFrames)
      (allocate : a.toFrameAllocator.allocate = some (address, a'.toFrameAllocator)) :
      Allocation a (physFrame address, a')
  | none (a' : Allocator) (ok : a'.Ok) (total : a'.totalFrames = a.totalFrames)
      (allocate : a.toFrameAllocator.allocate = none)
      (same : a'.toFrameAllocator = a.toFrameAllocator) : Allocation a (.none, a')

theorem allocateFrame_refines (h : a.Ok) : Allocation a a.allocateFrame := by
  have hfresh := allocateFresh_spec a h
  unfold allocateFrame
  rw [if_neg (by rw [h.initialized]; decide)]
  split
  · rename_i address reclaimedFrames heq
    refine .frame address _ ⟨h.initialized, h.aligned⟩ rfl ?_
    rw [allocate]
    simp only [toFrameAllocator, heq]
  rename_i heq
  obtain ⟨hok, htotal, houtcome, habs⟩ := hfresh
  rcases hcase : a.toFrameAllocator.fresh with _ | ⟨address, rest⟩
  · rw [hcase] at houtcome habs
    have hsame : a.allocateFresh.2.toFrameAllocator = a.toFrameAllocator := by
      rw [habs]
      exact congrArg (fun fresh => { a.toFrameAllocator with fresh }) hcase.symm
    have hpair : a.allocateFresh = (.none, a.allocateFresh.2) := Prod.ext houtcome rfl
    rw [hpair]
    refine .none _ hok htotal ?_ hsame
    rw [allocate, hcase]
    simp only [toFrameAllocator, heq]
  · rw [hcase] at houtcome habs
    have hpair : a.allocateFresh = (physFrame address, a.allocateFresh.2) := Prod.ext houtcome rfl
    rw [hpair]
    refine .frame address _ hok htotal ?_
    rw [allocate, hcase, habs]
    simp only [toFrameAllocator, heq]
    rfl

theorem Ok.contains (h : a.Ok) (haligned : address % frameSize = 0) :
    a.contains address = true ↔ address ∈ a.toFrameAllocator.usable := by
  simp only [Allocator.contains, List.any_eq_true, decide_eq_true_eq, toFrameAllocator,
    List.mem_flatMap]
  refine exists_congr fun r => and_congr_right fun hr => ?_
  rw [(h.aligned r hr).mem_frames]
  exact (and_iff_right haligned).symm

theorem deallocateFrame_refines (h : a.Ok) (haligned : address % frameSize = 0) :
    (a.deallocateFrame address).1 = (a.toFrameAllocator.deallocate address).1 ∧
      (a.deallocateFrame address).2.toFrameAllocator =
        (a.toFrameAllocator.deallocate address).2 := by
  have hcond : (!a.contains address ∨ a.allocatedFrames = 0 ∨
      a.reclaimedFrames.length = maxReclaimedFrames ∨ address ∈ a.reclaimedFrames) ↔
      (address ∉ a.toFrameAllocator.usable ∨ a.toFrameAllocator.allocatedFrames = 0 ∨
        a.toFrameAllocator.reclaimed.length = maxReclaimedFrames ∨
        address ∈ a.toFrameAllocator.reclaimed) := by
    rw [← h.contains haligned, Bool.not_eq_true', Bool.not_eq_true]
    rfl
  unfold deallocateFrame deallocate
  by_cases hrefused : address ∉ a.toFrameAllocator.usable ∨
      a.toFrameAllocator.allocatedFrames = 0 ∨
      a.toFrameAllocator.reclaimed.length = maxReclaimedFrames ∨
      address ∈ a.toFrameAllocator.reclaimed
  · rw [if_pos (hcond.mpr hrefused), if_pos hrefused]
    exact ⟨rfl, rfl⟩
  · rw [if_neg (mt hcond.mp hrefused), if_neg hrefused]
    exact ⟨rfl, rfl⟩

theorem deallocateFrame_ok (h : a.Ok) (address : ℕ) : (a.deallocateFrame address).2.Ok := by
  unfold deallocateFrame
  split
  · exact h
  · exact ⟨h.initialized, h.aligned⟩

theorem deallocateFrame_refused (h : (a.deallocateFrame address).1 = false) :
    (a.deallocateFrame address).2 = a := by
  unfold deallocateFrame at h ⊢
  split at h
  · rename_i hcond
    rw [if_pos hcond]
  · cases h

theorem deallocateFrame_totalFrames (a : Allocator) (address : ℕ) :
    (a.deallocateFrame address).2.totalFrames = a.totalFrames := by
  unfold deallocateFrame
  split <;> rfl

end Allocator

/-! ## Start-up -/

/-- No address lies in both regions. -/
def MemoryRegion.Disjoint (a b : MemoryRegion) : Prop :=
  ∀ address, ¬(a.start.toNat ≤ address ∧ address < a.stop.toNat ∧
    b.start.toNat ≤ address ∧ address < b.stop.toNat)

/-- The address is that of a frame above the first MiB and inside a usable region. -/
def Usable (regions : List MemoryRegion) (address : ℕ) : Prop :=
  address % frameSize = 0 ∧ 0x100000 ≤ address ∧
    ∃ region ∈ regions, region.kind = .usable ∧
      region.start.toNat ≤ address ∧ address + frameSize ≤ region.stop.toNat

/-- The range is made of a region: its first and last frames are inside. -/
structure FrameRange.Of (r : FrameRange) (region : MemoryRegion) : Prop where
  aligned : r.Aligned
  next_eq : r.next = r.start
  mib : 0x100000 ≤ r.start
  start_le : region.start.toNat ≤ r.start
  stop_le : r.stop ≤ region.stop.toNat

namespace Allocator

/-- The allocator after the loop of `initialize` has read some regions. -/
structure Loaded (regions : List MemoryRegion) (a : Allocator) : Prop where
  source : ∀ r ∈ a.ranges, ∃ region ∈ regions, region.kind = .usable ∧ r.Of region
  nodup : (a.ranges.flatMap frames).Nodup
  total : a.totalFrames = (a.ranges.flatMap frames).length
  current : a.currentRange = 0
  allocated : a.allocatedFrames = 0
  reclaimed : a.reclaimedFrames = []

theorem loaded_empty : Loaded [] empty where
  source _ h := (not_mem_nil h).elim
  nodup := nodup_nil
  total := rfl
  current := rfl
  allocated := rfl
  reclaimed := rfl

variable {regions seen : List MemoryRegion} {region : MemoryRegion} {a a' : Allocator}

theorem Loaded.mono (h : Loaded seen a) : Loaded (seen ++ [region]) a :=
  { h with
    source := fun r hr => by
      obtain ⟨source, hsource, hof⟩ := h.source r hr
      exact ⟨source, mem_append_left _ hsource, hof⟩ }

theorem of_region {start : ℕ}
    (hstart : alignUp (max region.start.toNat 0x100000) frameSize = some start) :
    FrameRange.Of ⟨start, start, alignDown region.stop.toNat frameSize⟩ region := by
  unfold alignUp at hstart
  split at hstart
  · have heq := Option.some.inj hstart
    rw [alignDown] at heq
    have hdown : ∀ address, (address - address % frameSize) % frameSize = 0 := fun address =>
      Nat.sub_mod_eq_zero_of_mod_eq (Nat.mod_mod _ _).symm
    have hstart_aligned : start % frameSize = 0 := heq ▸ hdown _
    have hle : max region.start.toNat 0x100000 ≤ start := by
      unfold frameSize at heq
      omega
    exact ⟨⟨hstart_aligned, hstart_aligned, hdown _⟩, rfl, (le_max_right _ _).trans hle,
      (le_max_left _ _).trans hle, Nat.sub_le _ _⟩
  · cases hstart

theorem Loaded.addRegion (h : Loaded seen a)
    (hdisjoint : ∀ other ∈ seen, other.kind = .usable → region.kind = .usable →
      other.Disjoint region)
    (hadd : a.addRegion region = .ok a') : Loaded (seen ++ [region]) a' := by
  unfold Allocator.addRegion at hadd
  split at hadd
  · cases hadd
    exact h.mono
  rename_i hkind
  have husable : region.kind = .usable := not_not.mp hkind
  split at hadd
  · cases hadd
  rename_i start hstart
  have hof := of_region hstart
  simp only at hadd
  split_ifs at hadd
  · cases hadd
    exact h.mono
  cases hadd
  generalize alignDown region.stop.toNat frameSize = stop at *
  -- A frame of the new range in an old one would lie in two usable regions.
  have hfresh : ∀ address ∈ a.ranges.flatMap frames, address ∉ frames ⟨start, start, stop⟩ := by
    intro address hold hnew
    obtain ⟨r, hr, haddr⟩ := mem_flatMap.mp hold
    obtain ⟨other, hother, hotherUsable, hotherOf⟩ := h.source r hr
    have hin := hotherOf.aligned.mem_frames.mp haddr
    have hin' := hof.aligned.mem_frames.mp hnew
    exact hdisjoint other hother hotherUsable husable address
      ⟨hotherOf.start_le.trans hin.2.1, hin.2.2.trans_le hotherOf.stop_le,
        hof.start_le.trans hin'.2.1, hin'.2.2.trans_le hof.stop_le⟩
  have hflat : (a.ranges ++ [FrameRange.mk start start stop]).flatMap FrameRange.frames =
      a.ranges.flatMap FrameRange.frames ++ FrameRange.frames ⟨start, start, stop⟩ := by
    rw [List.flatMap_append, List.flatMap_singleton]
  refine ⟨?_, ?_, ?_, h.current, h.allocated, h.reclaimed⟩
  · intro r hr
    rcases mem_append.mp hr with hr | hr
    · exact h.mono.source r hr
    · cases mem_singleton.mp hr
      exact ⟨region, mem_append_right _ (mem_singleton_self _), husable, hof⟩
  · rw [hflat]
    exact nodup_append'.mpr ⟨h.nodup, frames_nodup _, hfresh⟩
  · rw [hflat, length_append, h.total, frames, length_range']

theorem Loaded.addRegions (h : Loaded seen a)
    (hdisjoint : ((seen ++ regions).filter (·.kind = .usable)).Pairwise MemoryRegion.Disjoint)
    (hadd : a.addRegions regions = (.ok (), a')) : Loaded (seen ++ regions) a' := by
  induction regions generalizing a seen with
  | nil =>
    cases hadd
    rwa [append_nil]
  | cons region regions ih =>
    rw [addRegions] at hadd
    split at hadd
    · cases hadd
    rename_i a₁ hregion
    have hfirst : Loaded (seen ++ [region]) a₁ := by
      refine h.addRegion (fun other hother hotherUsable husable => ?_) hregion
      rw [filter_append] at hdisjoint
      refine (pairwise_append.mp hdisjoint).2.2 other ?_ region ?_
      · exact mem_filter.mpr ⟨hother, decide_eq_true hotherUsable⟩
      · exact mem_filter.mpr ⟨mem_cons_self, decide_eq_true husable⟩
    have hsplit : seen ++ region :: regions = seen ++ [region] ++ regions :=
      (append_cons seen region regions)
    rw [hsplit] at hdisjoint ⊢
    exact ih hfirst hdisjoint hadd

theorem loaded_of_init
    (hdisjoint : (regions.filter (·.kind = .usable)).Pairwise MemoryRegion.Disjoint)
    (hinit : empty.init regions = (.ok (), a)) : Loaded regions a ∧ a.initialized = true := by
  unfold init at hinit
  rw [if_neg (by decide)] at hinit
  split at hinit
  · cases hinit
  rename_i a₁ hadd
  split at hinit
  · cases hinit
  cases hinit
  have h := loaded_empty.addRegions hdisjoint hadd
  exact ⟨⟨h.source, h.nodup, h.total, h.current, h.allocated, h.reclaimed⟩, rfl⟩

theorem Loaded.usable (h : Loaded regions a) {address : ℕ}
    (hmem : address ∈ a.toFrameAllocator.usable) : Usable regions address := by
  obtain ⟨r, hr, haddr⟩ := mem_flatMap.mp hmem
  obtain ⟨region, hregion, husable, hof⟩ := h.source r hr
  obtain ⟨haligned, hle, hlt⟩ := hof.aligned.mem_frames.mp haddr
  have hstop := hof.aligned.stop
  refine ⟨haligned, hof.mib.trans hle, region, hregion, husable, hof.start_le.trans hle, ?_⟩
  refine le_trans ?_ hof.stop_le
  unfold frameSize at *
  omega

theorem Loaded.fresh (h : Loaded regions a) :
    a.toFrameAllocator.free = a.toFrameAllocator.usable := by
  rw [free]
  simp only [toFrameAllocator, h.current, h.reclaimed, drop_zero, nil_append]
  refine flatMap_congr fun r hr => ?_
  obtain ⟨region, _, _, hof⟩ := h.source r hr
  rw [rest, hof.next_eq]
  rfl

end Allocator

/-! ## Runs -/

/-- The usable frames are the held ones, those given back and those never handed out. -/
structure State.Ok (regions : List MemoryRegion) (s : State) : Prop where
  allocator : s.allocator.Ok
  usable : ∀ address ∈ s.allocator.toFrameAllocator.usable, Usable regions address
  nodup : s.allocator.toFrameAllocator.usable.Nodup
  total : s.allocator.totalFrames = s.allocator.toFrameAllocator.usable.length
  perm : (s.held ++ s.allocator.toFrameAllocator.free).Perm s.allocator.toFrameAllocator.usable
  allocated : s.allocator.allocatedFrames = s.held.length

namespace State

variable {regions : List MemoryRegion} {s s' : State} {a : Allocator} {address : ℕ}

theorem ok_init (hdisjoint : (regions.filter (·.kind = .usable)).Pairwise MemoryRegion.Disjoint)
    (hinit : empty.init regions = (.ok (), a)) : Ok regions ⟨a, []⟩ := by
  obtain ⟨h, hinitialized⟩ := loaded_of_init hdisjoint hinit
  refine ⟨⟨hinitialized, fun r hr => ?_⟩, fun _ => h.usable, h.nodup, h.total, ?_, h.allocated⟩
  · obtain ⟨_, _, _, hof⟩ := h.source r hr
    exact hof.aligned
  · exact List.Perm.of_eq h.fresh

theorem Ok.held_nodup (h : s.Ok regions) : s.held.Nodup :=
  (nodup_append.mp (h.perm.nodup_iff.mpr h.nodup)).1

theorem Ok.free (h : s.Ok regions) (hfree : address ∈ s.allocator.toFrameAllocator.free) :
    address ∉ s.held ∧ Usable regions address := by
  refine ⟨fun hheld => ?_, h.usable address ?_⟩
  · exact (nodup_append.mp (h.perm.nodup_iff.mpr h.nodup)).2.2 address hheld address hfree rfl
  · exact h.perm.mem_iff.mp (mem_append_right _ hfree)

theorem physFrame_of_aligned (h : address % frameSize = 0) :
    physFrame address = .frame address ∨ physFrame address = .panic ∧ 2 ^ 52 ≤ address := by
  by_cases hhigh : 2 ^ 52 ≤ address
  · exact .inr ⟨if_pos hhigh, hhigh⟩
  · exact .inl ((if_neg hhigh).trans (if_pos h))

section Allocate

variable (h : s.Ok regions)

include h

theorem Ok.allocate (hok : a.Ok) (htotal : a.totalFrames = s.allocator.totalFrames)
    (halloc : s.allocator.toFrameAllocator.allocate = some (address, a.toFrameAllocator)) :
    Ok regions ⟨a, address :: s.held⟩ := by
  have hfree := allocate_some halloc
  obtain ⟨husable, hcount⟩ := allocate_usable halloc
  have hperm := h.perm
  rw [hfree, ← husable] at hperm
  refine ⟨hok, ?_, ?_, ?_, perm_middle.symm.trans hperm, ?_⟩
  · exact husable ▸ h.usable
  · exact husable ▸ h.nodup
  · rw [husable]
    exact htotal.trans h.total
  · exact hcount.trans (congrArg (· + 1) h.allocated)

theorem Ok.deallocate (hheld : address ∈ s.held)
    (htaken : (s.allocator.deallocateFrame address).1 = true) :
    Ok regions ⟨(s.allocator.deallocateFrame address).2, s.held.erase address⟩ := by
  have husable := h.usable address (h.perm.mem_iff.mp (mem_append_left _ hheld))
  obtain ⟨hres, hstate⟩ := deallocateFrame_refines h.allocator husable.1
  have hafter := deallocate_taken (hres.symm.trans htaken)
  rw [hafter] at hstate
  have hperm : (s.held.erase address ++ address :: s.allocator.toFrameAllocator.free).Perm
      s.allocator.toFrameAllocator.usable :=
    (perm_middle.trans ((perm_cons_erase hheld).symm.append_right _)).trans h.perm
  refine ⟨deallocateFrame_ok h.allocator address, ?_, ?_, ?_, ?_, ?_⟩
  · rw [hstate]
    exact h.usable
  · rw [hstate]
    exact h.nodup
  · rw [hstate, deallocateFrame_totalFrames]
    exact h.total
  · rw [hstate]
    exact hperm
  have hcount := congrArg Paging.FrameAllocator.allocatedFrames hstate
  rw [length_erase_of_mem hheld, ← h.allocated]
  exact hcount

theorem Ok.step {call : Call} (hstep : step s call = some s') : s'.Ok regions := by
  cases call with
  | allocateFrame =>
    have hallocation := allocateFrame_refines h.allocator
    simp only [Frames.step] at hstep
    generalize s.allocator.allocateFrame = result at hstep hallocation
    cases hallocation with
    | frame address a' hok htotal halloc =>
      have hfree := allocate_some halloc
      obtain ⟨_, husable⟩ := h.free (hfree ▸ mem_cons_self)
      rcases physFrame_of_aligned husable.1 with heq | ⟨heq, _⟩
      · rw [heq] at hstep
        cases hstep
        exact h.allocate hok htotal halloc
      · rw [heq] at hstep
        cases hstep
    | none a' hok htotal halloc hsame =>
      cases hstep
      have hcount := congrArg Paging.FrameAllocator.allocatedFrames hsame
      exact ⟨hok, hsame ▸ h.usable, hsame ▸ h.nodup, htotal.trans (hsame ▸ h.total),
        hsame ▸ h.perm, hcount.trans h.allocated⟩
  | deallocateFrame address =>
    simp only [Frames.step] at hstep
    split at hstep
    · rename_i hheld
      split at hstep
      · rename_i a' heq
        cases hstep
        have hafter := h.deallocate hheld (congrArg Prod.fst heq)
        rwa [heq] at hafter
      rename_i a' heq
      cases hstep
      have hsame := deallocateFrame_refused (congrArg Prod.fst heq)
      rw [heq] at hsame
      cases hsame
      exact h
    · cases hstep

/-- The next call hands out a frame exactly when some usable frame is not held. -/
theorem Ok.allocateFrame_none :
    s.allocator.allocateFrame.1 = .none ↔ s.held.length = s.allocator.totalFrames := by
  have hlen := h.perm.length_eq
  rw [length_append, ← h.total] at hlen
  have hallocation := allocateFrame_refines h.allocator
  generalize s.allocator.allocateFrame = result at hallocation
  cases hallocation with
  | frame address a' hok htotal halloc =>
    have hfree := allocate_some halloc
    obtain ⟨_, husable⟩ := h.free (hfree ▸ mem_cons_self)
    rw [hfree, length_cons] at hlen
    refine iff_of_false ?_ (by omega)
    rcases physFrame_of_aligned husable.1 with heq | ⟨heq, _⟩
    · exact heq ▸ Outcome.noConfusion
    · exact heq ▸ Outcome.noConfusion
  | none a' hok htotal halloc hsame =>
    have hnil := free_of_allocate_none halloc
    rw [hnil, length_nil, Nat.add_zero] at hlen
    exact iff_of_true rfl hlen

theorem Ok.allocateFrame_frame (hframe : s.allocator.allocateFrame.1 = .frame address) :
    address ∉ s.held ∧ Usable regions address := by
  have hallocation := allocateFrame_refines h.allocator
  generalize s.allocator.allocateFrame = result at hframe hallocation
  cases hallocation with
  | frame next a' hok htotal halloc =>
    have hnext := h.free (allocate_some halloc ▸ mem_cons_self)
    rcases physFrame_of_aligned hnext.2.1 with heq | ⟨heq, _⟩
    · cases heq.symm.trans hframe
      exact hnext
    · cases heq.symm.trans hframe
  | none a' hok htotal halloc hsame => cases hframe

/-- `allocate_frame` panics only if there is usable memory beyond the addresses of 52 bits. -/
theorem Ok.allocateFrame_panic (hpanic : s.allocator.allocateFrame.1 = .panic) :
    ∃ region ∈ regions, region.kind = .usable ∧ 2 ^ 52 < region.stop.toNat := by
  have hallocation := allocateFrame_refines h.allocator
  generalize s.allocator.allocateFrame = result at hpanic hallocation
  cases hallocation with
  | frame next a' hok htotal halloc =>
    have hnext := h.free (allocate_some halloc ▸ mem_cons_self)
    obtain ⟨haligned, _, region, hregion, husable, _, hstop⟩ := hnext.2
    rcases physFrame_of_aligned haligned with heq | ⟨_, hhigh⟩
    · cases heq.symm.trans hpanic
    · refine ⟨region, hregion, husable, lt_of_lt_of_le ?_ hstop⟩
      exact hhigh.trans_lt (Nat.lt_add_of_pos_right (by decide))
  | none a' hok htotal halloc hsame => cases hpanic

end Allocate

end State

section Runs

variable {regions : List MemoryRegion} {a : Allocator}

theorem ok_run (hdisjoint : (regions.filter (·.kind = .usable)).Pairwise MemoryRegion.Disjoint)
    (hinit : empty.init regions = (.ok (), a)) (calls : List Call) :
    (runAll step ⟨a, []⟩ calls).Ok regions :=
  runAll_induct (State.ok_init hdisjoint hinit) (fun _ _ _ h hstep => h.step hstep) calls

/-- After any calls, the next frame handed out is not held, starts at a multiple of 4 KiB above
the first MiB and lies inside a usable region; the count is that of the frames held, and no
frame is handed out exactly when all are held. -/
theorem allocator_exact (regions : List MemoryRegion) (a : Allocator)
    (hdisjoint : (regions.filter (·.kind = .usable)).Pairwise MemoryRegion.Disjoint)
    (hinit : empty.init regions = (.ok (), a)) (calls : List Call) :
    let s := runAll step ⟨a, []⟩ calls
    (∀ address, s.allocator.allocateFrame.1 = .frame address →
      address ∉ s.held ∧ Usable regions address) ∧
    s.held.Nodup ∧ s.allocator.allocatedFrames = s.held.length ∧
    (s.allocator.allocateFrame.1 = .none ↔ s.held.length = s.allocator.totalFrames) := by
  intro s
  have h : s.Ok regions := ok_run hdisjoint hinit calls
  exact ⟨fun _ => h.allocateFrame_frame, h.held_nodup, h.allocated, h.allocateFrame_none⟩

theorem allocator_exact_two :
    let regions := [⟨0xff000, 0x102000, .usable⟩, ⟨0x200000, 0x201800, .usable⟩]
    let s := runAll step ⟨(empty.init regions).2, []⟩
      [.allocateFrame, .allocateFrame, .deallocateFrame 0x100000, .allocateFrame, .allocateFrame]
    s.held.Nodup ∧ s.allocator.allocatedFrames = s.held.length := by
  intro regions s
  have h := allocator_exact regions (empty.init regions).2
    (by
      have hfilter : regions.filter (·.kind = .usable) = regions := by decide
      rw [hfilter]
      refine List.pairwise_pair.mpr fun address h => ?_
      have hlow : address < 0x102000 := h.2.1
      have hhigh : 0x200000 ≤ address := h.2.2.1
      omega)
    (by decide)
    [.allocateFrame, .allocateFrame, .deallocateFrame 0x100000, .allocateFrame, .allocateFrame]
  exact ⟨h.2.1, h.2.2.1⟩

end Runs

end WovenHat.Frames
