import WovenHat.Model.Paging.Release
import WovenHat.Verification.Paging.Frames

/-! # Releasing the memory of a process

The allocator refuses a frame when its stack of reclaimed frames is full, and the calls at the
end of a process fail with it. The run of the source is compared with one on an allocator that
has no such limit: the two agree as long as there is room, and a run that misses room once ends
in a failure, since the frames of the page tables are given back last. The frames that the run
without a limit gives back are counted from the page table, the reference counts and the cache
as they are before it. -/

namespace WovenHat.Release

open Function List Frames Release AnonymousMapping
open Paging (Frame Page CowTable CowEntry)
open Allocator (deallocateFrame)
open Library (runAll runAll_induct)

/-- An allocator that takes back whatever it has handed out; its state is the list of the
frames it still misses. -/
def takeBack (held : List Frame) (frame : Frame) : Bool × List Frame :=
  if frame ∈ held then (true, held.erase frame) else (false, held)

/-! ## References -/

/-- The references `refs` are counted, and they and the table frames are held. -/
structure Sound (tables refs : List Frame) (m : Memory (List Frame)) : Prop where
  cow : m.cow.Ok
  counted : ∀ f, refs.count f ≤ m.cow.refcount f
  held : ∀ f ∈ refs, f ∈ m.allocator
  tables : tables.Nodup ∧ ∀ f ∈ tables, f ∈ m.allocator ∧ f ∉ refs
  nodup : m.allocator.Nodup

/-- The frame is given back when the pages with the frames `frames` are unmapped: they have all
references to it, or all but the one of the cache, which is searched afterwards. -/
def Due (cow : CowTable) (cache frames : List Frame) (searched : Bool) (f : Frame) : Prop :=
  if f ∈ cache then searched = true ∧ cow.refcount f = frames.count f + 1
  else f ∈ frames ∧ cow.refcount f = frames.count f

instance (cow : CowTable) (cache frames : List Frame) (searched : Bool) :
    DecidablePred (Due cow cache frames searched) :=
  fun _ => inferInstanceAs (Decidable (ite _ _ _))

/-- The pages `todo` are still mapped and counted. The frames that stay are those that are
held and not due. A page of `plain` has no cached frame. -/
structure Ready (plain : List Page) (stay : Frame → Prop) (searched : Bool)
    (tables : List Frame) (todo : List Page) (m : Memory (List Frame)) : Prop where
  nodup : todo.Nodup
  mapped : ∀ page ∈ todo, (m.pages page).isSome
  sound : Sound tables (todo.filterMap m.pages ++ m.cache) m
  cache : m.cache.Nodup
  plain : ∀ page ∈ plain, ∀ f, m.pages page = some f → f ∉ m.cache
  stays : ∀ f, f ∈ m.allocator ∧ ¬Due m.cow m.cache (todo.filterMap m.pages) searched f ↔ stay f

variable {tables refs frames : List Frame} {todo plain : List Page} {stay : Frame → Prop}
  {searched : Bool} {f : Frame} {page : Page} {l l' : Memory (List Frame)} {cow : CowTable}

theorem releaseFrame_last {α : Type} {deallocate : α → Frame → Bool × α} {m : Memory α}
    (h : m.cow.release f = (true, cow)) :
    releaseFrame deallocate m f = ((deallocate m.allocator f).1,
      { m with cow, allocator := (deallocate m.allocator f).2 }) := by
  unfold releaseFrame
  rw [h]

theorem releaseFrame_shared {α : Type} {deallocate : α → Frame → Bool × α} {m : Memory α}
    (h : m.cow.release f = (false, cow)) :
    releaseFrame deallocate m f = (true, { m with cow }) := by
  unfold releaseFrame
  rw [h]

theorem takeBack_held {held : List Frame} (h : f ∈ held) : takeBack held f = (true, held.erase f) :=
  if_pos h

theorem refcount_congr {t t' : CowTable} (h : t'.entry f = t.entry f) :
    t'.refcount f = t.refcount f := by
  rw [CowTable.refcount_eq, CowTable.refcount_eq, h]

theorem Sound.perm {refs' : List Frame} (h : Sound tables refs l) (hperm : refs.Perm refs') :
    Sound tables refs' l where
  cow := h.cow
  counted g := hperm.count_eq g ▸ h.counted g
  held g hg := h.held g (hperm.mem_iff.mpr hg)
  tables := ⟨h.tables.1, fun g hg => ⟨(h.tables.2 g hg).1,
    fun hmem => (h.tables.2 g hg).2 (hperm.mem_iff.mpr hmem)⟩⟩
  nodup := h.nodup

/-- What dropping a reference to `f` leaves, on the allocator without a limit. -/
structure Dropped (tables refs : List Frame) (f : Frame) (l l' : Memory (List Frame)) : Prop where
  pages : l'.pages = l.pages
  cache : l'.cache = l.cache
  shrinks : l'.allocator.length ≤ l.allocator.length
  sound : Sound tables refs l'
  last : l.cow.refcount f = 1 → f ∉ l'.allocator
  more : l.cow.refcount f ≠ 1 → (f ∈ l'.allocator ↔ f ∈ l.allocator) ∧
    l'.cow.refcount f + 1 = l.cow.refcount f
  other : ∀ g, g ≠ f → (g ∈ l'.allocator ↔ g ∈ l.allocator) ∧
    l'.cow.refcount g = l.cow.refcount g

theorem Sound.releaseFrame (h : Sound tables (f :: refs) l) :
    ∃ l', releaseFrame takeBack l f = (true, l') ∧ Dropped tables refs f l l' := by
  have hcount := h.counted f
  rw [count_cons_self] at hcount
  have hother : ∀ g, g ≠ f → refs.count g ≤ l.cow.refcount g := fun g hg => by
    have hg' := h.counted g
    rwa [count_cons_of_ne hg.symm] at hg'
  have htables : ∀ g ∈ tables, g ≠ f ∧ g ∉ refs := fun g hg =>
    ⟨fun heq => (h.tables.2 g hg).2 (heq ▸ mem_cons_self),
      fun hmem => (h.tables.2 g hg).2 (mem_cons_of_mem _ hmem)⟩
  by_cases hone : l.cow.refcount f = 1
  · have hlast := h.cow.release_last f hone
    have hgone : f ∉ refs := count_eq_zero.mp (by omega)
    generalize hreleased : l.cow.release f = released at hlast
    obtain ⟨_, cow⟩ := released
    obtain ⟨rfl, hok, -, hentry⟩ := hlast
    have hrelease : Release.releaseFrame takeBack l f =
        (true, { l with cow, allocator := l.allocator.erase f }) := by
      rw [releaseFrame_last hreleased, takeBack_held (h.held f mem_cons_self)]
    refine ⟨_, hrelease, ⟨rfl, rfl, length_erase_le, ?_, fun _ => h.nodup.not_mem_erase,
      fun hmore => absurd hone hmore,
      fun g hg => ⟨mem_erase_of_ne hg, refcount_congr (hentry g hg)⟩⟩⟩
    refine ⟨hok, fun g => ?_, fun g hg => ?_, ⟨h.tables.1, fun g hg => ?_⟩, h.nodup.erase f⟩
    · by_cases hg : g = f
      · rw [hg, count_eq_zero.mpr hgone]
        exact Nat.zero_le _
      · exact (hother g hg).trans (refcount_congr (hentry g hg)).ge
    · have hne : g ≠ f := fun heq => hgone (heq ▸ hg)
      exact (mem_erase_of_ne hne).mpr (h.held g (mem_cons_of_mem _ hg))
    · exact ⟨(mem_erase_of_ne (htables g hg).1).mpr (h.tables.2 g hg).1, (htables g hg).2⟩
  · have hfew := h.cow.release_shared f (by omega)
    generalize hreleased : l.cow.release f = released at hfew
    obtain ⟨_, cow⟩ := released
    obtain ⟨rfl, hok, hself, hentry⟩ := hfew
    have hfewer : cow.refcount f = l.cow.refcount f - 1 := by
      rw [CowTable.refcount_eq, hself]
      rfl
    refine ⟨_, releaseFrame_shared hreleased, ⟨rfl, rfl, le_rfl, ?_, fun hlast => absurd hlast hone,
      fun _ => ⟨Iff.rfl, by dsimp only; omega⟩,
      fun g hg => ⟨Iff.rfl, refcount_congr (hentry g hg)⟩⟩⟩
    refine ⟨hok, fun g => ?_, fun g hg => ?_, ⟨h.tables.1,
      fun g hg => ⟨(h.tables.2 g hg).1, (htables g hg).2⟩⟩, h.nodup⟩
    · by_cases hg : g = f
      · rw [hg]
        dsimp only
        omega
      · exact (hother g hg).trans (refcount_congr (hentry g hg)).ge
    · exact h.held g (mem_cons_of_mem _ hg)

/-- Unmapping a page changes nothing about the frames that stay. -/
theorem Dropped.due_page (h : Dropped tables refs f l l') (hs : Sound tables (f :: refs) l)
    (hrefs : refs = frames ++ l.cache) (g : Frame) :
    (g ∈ l'.allocator ∧ ¬Due l'.cow l'.cache frames searched g) ↔
      (g ∈ l.allocator ∧ ¬Due l.cow l.cache (f :: frames) searched g) := by
  have hcount := hs.counted f
  rw [count_cons_self, hrefs, count_append] at hcount
  unfold Due
  rw [h.cache]
  by_cases hg : g = f
  · subst hg
    by_cases hone : l.cow.refcount g = 1
    · have hcached : g ∉ l.cache := count_eq_zero.mp (by omega)
      have hdue : l.cow.refcount g = count g (g :: frames) := by
        rw [count_cons_self]
        omega
      rw [if_neg hcached, if_neg hcached]
      exact iff_of_false (fun hmem => h.last hone hmem.1)
        fun hmem => hmem.2 ⟨mem_cons_self, hdue⟩
    · obtain ⟨hheld, hfewer⟩ := h.more hone
      rw [hheld, count_cons_self]
      refine and_congr_right fun _ => not_congr ?_
      split
      · exact and_congr_right fun _ => by omega
      · refine ⟨fun hdue => ⟨mem_cons_self, by omega⟩, fun hdue => ⟨?_, by omega⟩⟩
        exact count_pos_iff.mp (by omega)
  · obtain ⟨hheld, hsame⟩ := h.other g hg
    rw [hheld, hsame, count_cons_of_ne (Ne.symm hg), mem_cons]
    simp only [hg, false_or]

/-- Neither does giving back a frame that only the cache still has. -/
theorem Dropped.due_cached (h : Dropped tables refs f l l') (hone : l.cow.refcount f = 1)
    (hcached : f ∈ l.cache) (hunused : f ∉ frames) (g : Frame) :
    (g ∈ l'.allocator ∧ ¬Due l'.cow (l.cache.erase f) frames true g) ↔
      (g ∈ l.allocator ∧ ¬Due l.cow l.cache frames true g) := by
  unfold Due
  by_cases hg : g = f
  · subst hg
    rw [if_pos hcached, count_eq_zero.mpr hunused]
    exact iff_of_false (fun hmem => h.last hone hmem.1) fun hmem => hmem.2 ⟨rfl, hone⟩
  · obtain ⟨hheld, hsame⟩ := h.other g hg
    rw [hheld, hsame]
    simp only [mem_erase_of_ne hg]

/-! ## The two runs -/

section Runs

variable {regions : List MemoryRegion} {total : ℕ} {m m' : Memory Allocator}

def Full (m : Memory Allocator) : Prop :=
  m.allocator.reclaimedFrames.length = maxReclaimedFrames

structure Tracks (regions : List MemoryRegion) (total : ℕ) (m : Memory Allocator)
    (l : Memory (List Frame)) : Prop where
  pages : m.pages = l.pages
  cow : m.cow = l.cow
  cache : m.cache = l.cache
  ok : Frames.State.Ok regions ⟨m.allocator, l.allocator⟩
  bound : m.allocator.reclaimedFrames.length ≤ maxReclaimedFrames
  total : m.allocator.reclaimedFrames.length + l.allocator.length = total

/-- The result of the source follows the run without a limit, unless that one has given back
more frames than there was room for. -/
inductive Follows (regions : List MemoryRegion) (jam : Memory Allocator → Prop) (total : ℕ)
    (result : Option (Memory Allocator)) (l : Memory (List Frame)) : Prop
  | tracks (m : Memory Allocator) (h : result = some m) (tracks : Tracks regions total m l)
  | jammed (h : ∀ m, result = some m → jam m)
      (short : maxReclaimedFrames + l.allocator.length < total)

/-- From `P` to `Q` the run without a limit succeeds, and the source follows it. -/
structure Steps (regions : List MemoryRegion) (jam : Memory Allocator → Prop)
    (P Q : Memory (List Frame) → Prop) (F : Memory Allocator → Option (Memory Allocator))
    (G : Memory (List Frame) → Option (Memory (List Frame))) : Prop where
  run : ∀ {l}, P l → ∃ l', G l = some l' ∧ Q l' ∧ l'.allocator.length ≤ l.allocator.length
  follows : ∀ {total m l l'}, P l → Tracks regions total m l → G l = some l' →
    Follows regions jam total (F m) l'
  stays : ∀ {m m'}, jam m → F m = some m' → jam m'

section Compose

variable {jam : Memory Allocator → Prop} {P Q R : Memory (List Frame) → Prop}
  {F F' : Memory Allocator → Option (Memory Allocator)}
  {G G' : Memory (List Frame) → Option (Memory (List Frame))}

theorem steps_some (h : ∀ {l}, P l → Q l) : Steps regions jam P Q some some where
  run {l} hP := ⟨l, rfl, h hP, le_rfl⟩
  follows {_ m _ _} _ htracks hG := .tracks m rfl (Option.some.inj hG ▸ htracks)
  stays hjam hF := Option.some.inj hF ▸ hjam

theorem Steps.bind (h : Steps regions jam P Q F G) (h' : Steps regions jam Q R F' G') :
    Steps regions jam P R (fun m => F m >>= F') (fun l => G l >>= G') where
  run hP := by
    obtain ⟨l₁, hG, hQ, hle⟩ := h.run hP
    obtain ⟨l₂, hG', hR, hle'⟩ := h'.run hQ
    exact ⟨l₂, by rw [hG]; exact hG', hR, hle'.trans hle⟩
  follows {total m l l'} hP htracks hGG := by
    obtain ⟨l₁, hG, hQ, -⟩ := h.run hP
    obtain ⟨l₂, hG', -, hle⟩ := h'.run hQ
    have hl : l₂ = l' := Option.some.inj (by rw [← hG', ← hGG, hG]; rfl)
    cases h.follows hP htracks hG with
    | tracks m₁ hF htracks₁ =>
      rw [hF]
      exact h'.follows hQ htracks₁ (hl ▸ hG')
    | jammed hjam hshort =>
      refine .jammed (fun m₂ hFF => ?_) (by rw [← hl]; omega)
      obtain ⟨m₁, hF, hF'⟩ := Option.bind_eq_some_iff.mp hFF
      exact h'.stays (hjam m₁ hF) hF'
  stays hjam hFF := by
    obtain ⟨m₁, hF, hF'⟩ := Option.bind_eq_some_iff.mp hFF
    exact h'.stays (h.stays hjam hF) hF'

theorem Steps.foldlM {β : Type} {I : List β → Memory (List Frame) → Prop}
    {F : Memory Allocator → β → Option (Memory Allocator)}
    {G : Memory (List Frame) → β → Option (Memory (List Frame))} (xs : List β)
    (h : ∀ x ∈ xs, ∀ rest, Steps regions jam (I (x :: rest)) (I rest) (F · x) (G · x)) :
    Steps regions jam (I xs) (I []) (fun m => xs.foldlM F m) (fun l => xs.foldlM G l) := by
  induction xs with
  | nil => exact steps_some id
  | cons x xs ih =>
    exact (h x mem_cons_self xs).bind (ih fun y hy => h y (mem_cons_of_mem _ hy))

theorem Steps.guard {c : (Page → Option Frame) → Bool} (h : Steps regions jam P Q F G)
    (hc : ∀ {l}, P l → c l.pages = false) :
    Steps regions jam P Q (fun m => if c m.pages then none else F m)
      (fun l => if c l.pages then none else G l) where
  run {l} hP := by
    rw [hc hP]
    exact h.run hP
  follows {total m l l'} hP htracks hG := by
    rw [hc hP] at hG
    rw [htracks.pages, hc hP]
    exact h.follows hP htracks hG
  stays {m m'} hjam hF := by
    split at hF
    · cases hF
    · exact h.stays hjam hF

end Compose

/-! ## Single frames -/

theorem deallocateFrame_taken_iff {s : Frames.State} (h : s.Ok regions) (hheld : f ∈ s.held) :
    (s.allocator.deallocateFrame f).1 = true ↔
      s.allocator.reclaimedFrames.length ≠ maxReclaimedFrames := by
  have husable := h.perm.mem_iff.mp (mem_append_left _ hheld)
  have hcontains := (h.allocator.contains (h.usable f husable).1).mpr husable
  have hallocated : s.allocator.allocatedFrames ≠ 0 := by
    rw [h.allocated]
    exact (length_pos_of_mem hheld).ne'
  have hreclaimed : f ∉ s.allocator.reclaimedFrames := fun hmem =>
    (h.free (mem_append_left _ hmem)).1 hheld
  unfold deallocateFrame
  by_cases hfull : s.allocator.reclaimedFrames.length = maxReclaimedFrames <;>
    simp [hcontains, hallocated, hreclaimed, hfull]

variable {a : Allocator} {α : Type} {p : Process}

theorem deallocateFrame_full
    (h : a.reclaimedFrames.length = maxReclaimedFrames) : a.deallocateFrame f = (false, a) := by
  unfold deallocateFrame
  rw [if_pos (.inr (.inr (.inl h)))]

theorem deallocateFrame_length (h : (a.deallocateFrame f).1 = true) :
    (a.deallocateFrame f).2.reclaimedFrames.length = a.reclaimedFrames.length + 1 := by
  unfold deallocateFrame at h ⊢
  split at h
  · cases h
  rename_i hcond
  rw [if_neg hcond]
  rfl

/-- A frame that the run without a limit takes back finds the stack full, or is taken. -/
theorem Tracks.deallocate (h : Tracks regions total m l) (hheld : f ∈ l.allocator) :
    (Full m ∧ maxReclaimedFrames + (l.allocator.erase f).length < total) ∨
      ((m.allocator.deallocateFrame f).1 = true ∧
        Frames.State.Ok regions ⟨(m.allocator.deallocateFrame f).2, l.allocator.erase f⟩ ∧
        (m.allocator.deallocateFrame f).2.reclaimedFrames.length ≤ maxReclaimedFrames ∧
        (m.allocator.deallocateFrame f).2.reclaimedFrames.length +
          (l.allocator.erase f).length = total) := by
  have hlen := length_erase_of_mem hheld
  have hpos := length_pos_of_mem hheld
  have htotal := h.total
  by_cases hfull : Full m
  · have heq : m.allocator.reclaimedFrames.length = maxReclaimedFrames := hfull
    exact .inl ⟨hfull, by omega⟩
  have htaken := (deallocateFrame_taken_iff h.ok hheld).mpr hfull
  have hgrown : (m.allocator.deallocateFrame f).2.reclaimedFrames.length =
      m.allocator.reclaimedFrames.length + 1 := deallocateFrame_length htaken
  have hroom := lt_of_le_of_ne h.bound hfull
  exact .inr ⟨htaken, h.ok.deallocate hheld htaken, by omega, by omega⟩

theorem Tracks.releaseFrame (h : Tracks regions total m l)
    (hideal : releaseFrame takeBack l f = (true, l')) :
    (∃ m', releaseFrame deallocateFrame m f = (true, m') ∧
        Tracks regions total m' l') ∨
      ((releaseFrame deallocateFrame m f).1 = false ∧
        Full (releaseFrame deallocateFrame m f).2 ∧
        maxReclaimedFrames + l'.allocator.length < total) := by
  obtain ⟨hpages, hcow, hcache, hok, hbound, htotal⟩ := id h
  generalize hreleased : l.cow.release f = released
  obtain ⟨freed, cow⟩ := released
  have hreleased' : m.cow.release f = (freed, cow) := hcow ▸ hreleased
  cases freed with
  | false =>
    rw [releaseFrame_shared hreleased] at hideal
    cases hideal
    rw [releaseFrame_shared hreleased']
    exact .inl ⟨_, rfl, hpages, rfl, hcache, hok, hbound, htotal⟩
  | true =>
    rw [releaseFrame_last hreleased] at hideal
    rw [releaseFrame_last hreleased']
    by_cases hheld : f ∈ l.allocator
    · rw [takeBack_held hheld] at hideal
      cases hideal
      rcases h.deallocate hheld with ⟨hfull, hshort⟩ | ⟨htaken, hafter⟩
      · rw [deallocateFrame_full hfull]
        exact .inr ⟨rfl, hfull, hshort⟩
      · rw [htaken]
        exact .inl ⟨_, rfl, hpages, rfl, hcache, hafter.1, hafter.2.1, hafter.2.2⟩
    · rw [takeBack, if_neg hheld] at hideal
      cases hideal

theorem Full.releaseFrame (h : Full m) (f : Frame) :
    Full (releaseFrame deallocateFrame m f).2 := by
  generalize hreleased : m.cow.release f = released
  obtain ⟨freed, cow⟩ := released
  cases freed with
  | false =>
    rw [releaseFrame_shared hreleased]
    exact h
  | true =>
    rw [releaseFrame_last hreleased, deallocateFrame_full h]
    exact h

/-! ## Pages -/

theorem unmapPage_eq_some {deallocate : α → Frame → Bool × α} {m m' : Memory α} :
    unmapPage deallocate m page = some m' ↔ ∃ frame, m.pages page = some frame ∧
      releaseFrame deallocate { m with pages := update m.pages page none } frame = (true, m') := by
  unfold unmapPage
  cases m.pages page with
  | none => exact iff_of_false nofun nofun
  | some frame =>
    dsimp only
    split
    · rename_i m₁ heq
      rw [Option.some_inj]
      exact ⟨fun h => ⟨frame, rfl, h ▸ heq⟩,
        fun ⟨_, hframe, h⟩ => (Prod.mk.inj (heq.symm.trans (Option.some.inj hframe ▸ h))).2⟩
    · rename_i m₁ heq
      refine iff_of_false nofun fun ⟨frame', hframe, h⟩ => ?_
      cases hframe
      cases heq.symm.trans h

theorem steps_unmapPage : Steps regions Full (Ready plain stay searched tables (page :: todo))
    (Ready plain stay searched tables todo)
    (unmapPage deallocateFrame · page) (unmapPage takeBack · page) where
  run {l} h := by
    obtain ⟨hnew, hnodup⟩ := nodup_cons.mp h.nodup
    obtain ⟨frame, hframe⟩ := Option.isSome_iff_exists.mp (h.mapped page mem_cons_self)
    have hsound := h.sound
    rw [filterMap_cons_some hframe] at hsound
    have hsound' : Sound tables (frame :: (todo.filterMap l.pages ++ l.cache))
        { l with pages := update l.pages page none } :=
      ⟨hsound.cow, hsound.counted, hsound.held, hsound.tables, hsound.nodup⟩
    obtain ⟨l', hrelease, hdropped⟩ := hsound'.releaseFrame
    have hpages := hdropped.pages
    have hcache := hdropped.cache
    have hkept : ∀ other ∈ todo, l'.pages other = l.pages other := fun other hother => by
      have hne : other ≠ page := fun heq => hnew (heq ▸ hother)
      rw [hpages]
      exact update_of_ne hne _ _
    refine ⟨l', unmapPage_eq_some.mpr ⟨frame, hframe, hrelease⟩,
      ⟨hnodup, ?_, ?_, hcache ▸ h.cache, ?_, fun g => ?_⟩, hdropped.shrinks⟩
    · intro other hother
      rw [hkept other hother]
      exact h.mapped other (mem_cons_of_mem _ hother)
    · rw [filterMap_congr hkept, hcache]
      exact hdropped.sound
    · intro other hother g hg
      rw [hpages] at hg
      rw [hcache]
      by_cases heq : other = page
      · subst heq
        cases (update_self other none l.pages).symm.trans hg
      · exact h.plain other hother g ((update_of_ne heq _ _).symm.trans hg)
    · have hstays := h.stays g
      rw [filterMap_cons_some hframe] at hstays
      rw [filterMap_congr hkept]
      exact (hdropped.due_page hsound' rfl g).trans hstays
  follows {total m l l'} h htracks hl := by
    obtain ⟨frame, hframe, hideal⟩ := unmapPage_eq_some.mp hl
    have htracks' : Tracks regions total { m with pages := update m.pages page none }
        { l with pages := update l.pages page none } :=
      ⟨by rw [htracks.pages], htracks.cow, htracks.cache, htracks.ok, htracks.bound, htracks.total⟩
    rcases htracks'.releaseFrame hideal with ⟨m', hm', htracks''⟩ | ⟨hrefused, -, hshort⟩
    · exact .tracks m' (unmapPage_eq_some.mpr ⟨frame, htracks.pages ▸ hframe, hm'⟩) htracks''
    refine .jammed (fun m' hm' => ?_) hshort
    obtain ⟨frame', hframe', hm''⟩ := unmapPage_eq_some.mp hm'
    rw [htracks.pages, hframe] at hframe'
    cases hframe'
    rw [hm''] at hrefused
    cases hrefused
  stays {m m'} hfull hm' := by
    obtain ⟨frame, -, hrelease⟩ := unmapPage_eq_some.mp hm'
    have hfull' : Full { m with pages := update m.pages page none } := hfull
    have hafter := hfull'.releaseFrame frame
    rwa [hrelease] at hafter

theorem steps_unmapPages (pages : List Page) :
    Steps regions Full (Ready plain stay searched tables (pages ++ todo))
      (Ready plain stay searched tables todo)
      (fun m => pages.foldlM (unmapPage deallocateFrame) m)
      (fun l => pages.foldlM (unmapPage takeBack) l) :=
  Steps.foldlM (I := fun pages => Ready plain stay searched tables (pages ++ todo)) pages
    fun _ _ _ => steps_unmapPage

theorem steps_unmapUserRange {start size : ℕ} (hsize : 0 < size) :
    Steps regions Full (Ready plain stay searched tables (range' start size ++ todo))
      (Ready plain stay searched tables todo)
      (unmapUserRange deallocateFrame · start size)
      (unmapUserRange takeBack · start size) := by
  simp only [unmapUserRange, if_neg hsize.ne']
  exact steps_unmapPages _

/-! ## Cached frames -/

/-- The frames of `rest` are still to be looked at; the others have more than one reference. -/
structure Cached (plain : List Page) (stay : Frame → Prop) (tables : List Frame)
    (todo : List Page) (rest : List Frame) (l : Memory (List Frame)) : Prop where
  ready : Ready plain stay true tables todo l
  unseen : rest.Nodup ∧ ∀ f ∈ rest, f ∈ l.cache
  others : ∀ f ∈ l.cache, f ∉ rest → l.cow.refcount f ≠ 1

theorem Ready.cached (h : Ready plain stay searched tables todo l) (hmem : f ∈ l.cache) :
    Sound tables (f :: (todo.filterMap l.pages ++ l.cache.erase f)) l :=
  h.sound.perm (((perm_cons_erase hmem).append_left _).trans perm_middle)

theorem steps_reclaimEntry {rest : List Frame} :
    Steps regions Full (Cached plain stay tables todo (f :: rest))
      (Cached plain stay tables todo rest)
      (fun m => some (reclaimEntry deallocateFrame m f))
      (fun l => some (reclaimEntry takeBack l f)) where
  run {l} := by
    rintro ⟨h, ⟨hnodup, hrest⟩, hothers⟩
    obtain ⟨hnew, hnodup⟩ := nodup_cons.mp hnodup
    have hmem : f ∈ l.cache := hrest f mem_cons_self
    have hrest' : ∀ g ∈ rest, g ∈ l.cache := fun g hg => hrest g (mem_cons_of_mem _ hg)
    refine ⟨_, rfl, ?_⟩
    unfold reclaimEntry
    split
    · rename_i hone
      have hunused : f ∉ todo.filterMap l.pages := by
        have hcount := h.sound.counted f
        have hpos := count_pos_iff.mpr hmem
        rw [count_append] at hcount
        exact count_eq_zero.mp (by omega)
      obtain ⟨l', hrelease, hdropped⟩ := (h.cached hmem).releaseFrame
      have hdue := hdropped.due_cached hone hmem hunused
      obtain ⟨hpages, hcache, hshrinks, hafter, -, -, hother⟩ := hdropped
      have hgone : ∀ g ∈ l.cache.erase f, g ≠ f ∧ g ∈ l.cache := fun g hg =>
        ⟨fun heq => h.cache.not_mem_erase (heq ▸ hg), mem_of_mem_erase hg⟩
      rw [hrelease]
      dsimp only
      rw [hcache]
      refine ⟨⟨⟨h.nodup, ?_, ?_, h.cache.erase f, fun page hpage g hg hcached => ?_, fun g => ?_⟩,
        ⟨hnodup, fun g hg => ?_⟩, fun g hg hnot => ?_⟩, hshrinks⟩
      · rw [hpages]
        exact h.mapped
      · rw [hpages]
        exact ⟨hafter.cow, hafter.counted, hafter.held, hafter.tables, hafter.nodup⟩
      · rw [hpages] at hg
        exact h.plain page hpage g hg (hgone g hcached).2
      · rw [hpages]
        exact (hdue g).trans (h.stays g)
      · have hne : g ≠ f := fun heq => hnew (heq ▸ hg)
        exact (mem_erase_of_ne hne).mpr (hrest' g hg)
      · rw [(hother g (hgone g hg).1).2]
        refine hothers g (hgone g hg).2 fun hmem' => ?_
        rcases mem_cons.mp hmem' with heq | hmem'
        · exact (hgone g hg).1 heq
        · exact hnot hmem'
    · rename_i hmore
      refine ⟨⟨h, ⟨hnodup, hrest'⟩, fun g hg hnot => ?_⟩, le_rfl⟩
      by_cases heq : g = f
      · exact heq ▸ hmore
      · exact hothers g hg fun hmem' => (mem_cons.mp hmem').elim heq hnot
  follows {total m l l'} := by
    rintro ⟨h, hrest, -⟩ htracks hl
    cases Option.some.inj hl
    have hmem : f ∈ l.cache := hrest.2 f mem_cons_self
    unfold reclaimEntry
    rw [htracks.cow]
    split
    · obtain ⟨l', hideal, -⟩ := (h.cached hmem).releaseFrame
      rw [hideal]
      rcases htracks.releaseFrame hideal with ⟨m', hm', htracks'⟩ | ⟨hrefused, hfull, hshort⟩
      · rw [hm']
        exact .tracks _ rfl ⟨htracks'.pages, htracks'.cow,
          congrArg (·.erase f) htracks'.cache, htracks'.ok, htracks'.bound, htracks'.total⟩
      refine .jammed (fun m' hm' => ?_) hshort
      rw [← Option.some.inj hm']
      split
      · rename_i m₁ heq
        rw [heq] at hrefused
        cases hrefused
      · rename_i m₁ heq
        rw [heq] at hfull
        exact hfull
    · exact .tracks _ rfl htracks
  stays {m m'} hfull hm' := by
    rw [← Option.some.inj hm']
    have hafter := hfull.releaseFrame f
    unfold reclaimEntry
    split
    · split <;> rename_i heq <;> rw [heq] at hafter <;> exact hafter
    · exact hfull

/-- After a search every cached frame has another reference. -/
theorem steps_reclaimUnused : Steps regions Full (Ready plain stay true tables todo)
    (Cached plain stay tables todo [])
    (fun m => some (reclaimUnused deallocateFrame m))
    (fun l => some (reclaimUnused takeBack l)) := by
  have hfold (cache : List Frame) : Steps regions Full (Cached plain stay tables todo cache)
      (Cached plain stay tables todo [])
      (fun m => some (cache.foldl (reclaimEntry deallocateFrame) m))
      (fun l => some (cache.foldl (reclaimEntry takeBack) l)) := by
    simp only [← Option.pure_def, ← List.foldlM_pure]
    exact Steps.foldlM (I := Cached plain stay tables todo) cache fun _ _ _ => steps_reclaimEntry
  have hstart {l : Memory (List Frame)} (h : Ready plain stay true tables todo l) :
      Cached plain stay tables todo l.cache l :=
    ⟨h, ⟨h.cache, fun _ => id⟩, fun _ hmem hnot => absurd hmem hnot⟩
  exact {
    run := fun {l} h => (hfold l.cache).run (hstart h)
    follows := fun {total m l l'} h htracks hl => by
      have hfollows := (hfold l.cache).follows (hstart h) htracks hl
      rwa [← htracks.cache] at hfollows
    stays := fun {m m'} hfull hm => (hfold m.cache).stays hfull hm }

/-- The last search: the pages that are left have no cached frames. -/
theorem Cached.last (h : Cached plain stay tables todo [] l)
    (hplain : ∀ page ∈ todo, page ∈ plain) : Ready plain stay false tables todo l := by
  have hready := h.ready
  refine ⟨hready.nodup, hready.mapped, hready.sound, hready.cache, hready.plain, fun f =>
    (and_congr_right fun _ => not_congr ?_).trans (hready.stays f)⟩
  unfold Due
  split
  · rename_i hcached
    have hunused : f ∉ todo.filterMap l.pages := fun hmem => by
      obtain ⟨page, hpage, hf⟩ := mem_filterMap.mp hmem
      exact h.ready.plain page (hplain page hpage) f hf hcached
    rw [count_eq_zero.mpr hunused]
    exact iff_of_false (by simp) fun hdue => h.others f hcached not_mem_nil hdue.2
  · exact Iff.rfl

/-! ## Mappings -/

/-- The description is open, its node can be freed if it has to be, and for a shared mapping it
is a file, writable if a resident page lies in it. -/
def LazyFile.Ok (a : AnonymousMapping) (b : LazyFile) : Prop :=
  ∃ file, b.file = some file ∧ (file.freed = true → file.generation + 1 < 2 ^ 64) ∧
    (b.shared = true → file.isFile = true ∧ ∀ index < a.size,
      a.resident.getLsbD index = true → 0 < b.count file.length index → file.writable = true)

def AnonymousMapping.residentPages (a : AnonymousMapping) (indices : List ℕ) : List Page :=
  (indices.filter fun index => a.resident.getLsbD index).map (a.start + ·)

def AnonymousMapping.pages (a : AnonymousMapping) : List Page :=
  match a.lazy with
  | some _ => a.residentPages (range a.size)
  | none => range' a.start a.size

theorem steps_unmapResident (a : AnonymousMapping) (index : ℕ) (rest : List ℕ) :
    Steps regions Full (Ready plain stay searched tables (a.residentPages (index :: rest) ++ todo))
      (Ready plain stay searched tables (a.residentPages rest ++ todo))
      (unmapResident deallocateFrame a · index) (unmapResident takeBack a · index) := by
  simp only [unmapResident]
  unfold residentPages
  by_cases hresident : a.resident.getLsbD index = true
  · simp only [if_pos hresident, filter_cons_of_pos hresident]
    exact steps_unmapUserRange Nat.one_pos
  · simp only [if_neg hresident, filter_cons_of_neg hresident]
    exact steps_some id

theorem LazyFile.Ok.closeOpenFile {a : AnonymousMapping} {b : LazyFile} (h : b.Ok a) :
    closeOpenFile b = true := by
  obtain ⟨file, hfile, hgeneration, -⟩ := h
  rw [Release.closeOpenFile, hfile]
  cases hfreed : file.freed with
  | false => simp [hfreed]
  | true => simpa [hfreed] using hgeneration hfreed

theorem LazyFile.Ok.syncFileMapping {a : AnonymousMapping} {b : LazyFile} (h : b.Ok a)
    (hshared : b.shared = true) {pages : Page → Option Frame}
    (hpages : ∀ page ∈ a.residentPages (range a.size), (pages page).isSome) :
    syncFileMapping pages a b = true := by
  obtain ⟨file, hfile, -, hwritable⟩ := h
  obtain ⟨hkind, hwritable⟩ := hwritable hshared
  simp only [Release.syncFileMapping, hfile, hkind, Bool.true_and, all_eq_true, mem_range]
  intro index hindex
  by_cases hresident : a.resident.getLsbD index = true
  · by_cases hcount : b.count file.length index = 0
    · simp [hcount]
    have hmapped : (pages (a.start + index)).isSome :=
      hpages _ (mem_map.mpr ⟨index, mem_filter.mpr ⟨mem_range.mpr hindex, hresident⟩, rfl⟩)
    -- what lies in the file can be written to it
    have hinside : b.offset + index * 4096 + b.count file.length index ≤ file.length := by
      simp only [LazyFile.count] at hcount ⊢
      omega
    simp [hmapped, hinside,
      hwritable index hindex hresident (Nat.pos_of_ne_zero hcount)]
  · simp [hresident]

theorem steps_unmapAnonymous {a : AnonymousMapping} {left : Bool} (hsize : 0 < a.size)
    (hfile : ∀ b, a.lazy = some b → b.Ok a)
    (hlast : a.lazy.isSome → left = false → ∀ page ∈ todo, page ∈ plain) :
    Steps regions Full (Ready plain stay (a.lazy.isSome || left) tables (a.pages ++ todo))
      (Ready plain stay left tables todo)
      (unmapAnonymous deallocateFrame · a) (unmapAnonymous takeBack · a) := by
  unfold unmapAnonymous pages
  cases hlazy : a.lazy with
  | none => exact steps_unmapUserRange hsize
  | some b =>
    have hok := hfile b hlazy
    have hsteps : Steps regions Full
        (Ready plain stay true tables (a.residentPages (range a.size) ++ todo))
        (Ready plain stay left tables todo)
        (fun m => (range a.size).foldlM (unmapResident deallocateFrame a) m >>= fun m =>
          some (reclaimUnused deallocateFrame m) >>= some)
        (fun l => (range a.size).foldlM (unmapResident takeBack a) l >>= fun l =>
          some (reclaimUnused takeBack l) >>= some) := by
      refine (Steps.foldlM (I := fun indices =>
        Ready plain stay true tables (a.residentPages indices ++ todo))
        (range a.size) fun index _ rest => steps_unmapResident a index rest).bind
        (steps_reclaimUnused.bind (steps_some fun {l} hcached => ?_))
      cases left with
      | true => exact hcached.ready
      | false => exact hcached.last (hlast (by rw [hlazy]; rfl) rfl)
    simp only [hok.closeOpenFile, if_true]
    refine hsteps.guard (c := fun pages => b.shared && !syncFileMapping pages a b) fun h => ?_
    cases hshared : b.shared with
    | false => rfl
    | true =>
      rw [hok.syncFileMapping hshared fun page hpage => h.mapped page (mem_append_left _ hpage)]
      rfl

theorem unmapAnonymous_of_not_ok {deallocate : α → Frame → Bool × α} {m : Memory α}
    {a : AnonymousMapping} {b : LazyFile} (hlazy : a.lazy = some b) (h : ¬b.Ok a) :
    unmapAnonymous deallocate m a = none := by
  unfold unmapAnonymous
  rw [hlazy]
  dsimp only
  split
  · rfl
  rename_i hsynced
  have hclosed : closeOpenFile b = false := by
    by_contra hclosed
    simp only [Bool.not_eq_false, closeOpenFile, Option.any_eq_true] at hclosed
    obtain ⟨file, hfile, hfreed⟩ := hclosed
    refine h ⟨file, hfile, fun hfreed' => by simpa [hfreed'] using hfreed, fun hshared => ?_⟩
    have hsync : syncFileMapping m.pages a b = true := by simpa [hshared] using hsynced
    simp only [syncFileMapping, hfile, Bool.and_eq_true, all_eq_true, mem_range] at hsync
    refine ⟨hsync.1, fun index hindex hresident hcount => ?_⟩
    have hpage := hsync.2 index hindex
    simp only [hresident, hcount.ne', Bool.not_true, Bool.false_or, beq_iff_eq,
      Bool.or_eq_true, Bool.and_eq_true, false_or] at hpage
    exact hpage.1.2
  rw [hclosed]
  cases (range a.size).foldlM (unmapResident deallocate a) m <;> rfl

/-! ## The whole release -/

/-- The pages of a process in the order in which they are released. -/
def Process.pages (p : Process) : List Page :=
  p.mappings.flatMap (·.pages) ++ p.ranges.flatMap fun range => range' range.1 range.2

/-- The pages outside of lazy mappings. -/
def Process.plainPages (p : Process) : List Page :=
  (p.mappings.filter (·.lazy.isNone)).flatMap (·.pages) ++
    p.ranges.flatMap fun range => range' range.1 range.2

/-- Releasing the mappings searches the cache for frames that nobody uses. -/
def Process.searches (p : Process) : Bool :=
  p.mappings.any (·.lazy.isSome)

/-- Every backing file of the process can be written back and closed. -/
def Process.FilesOk (p : Process) : Prop :=
  ∀ a ∈ p.mappings, ∀ b, a.lazy = some b → b.Ok a

def releasePages {α : Type} (deallocate : α → Frame → Bool × α) (p : Process) (m : Memory α) :
    Option (Memory α) := do
  let m ← p.mappings.foldlM (unmapAnonymous deallocate) m
  p.ranges.foldlM (fun m range => unmapUserRange deallocate m range.1 range.2) m

theorem release_eq {deallocate : α → Frame → Bool × α} {m : Memory α} (hranges : p.ranges ≠ []) :
    release deallocate m p =
      releasePages deallocate p m >>= fun m => p.tables.foldlM (releaseTable deallocate) m := by
  unfold release destroyUserAddressSpace releasePages
  simp only [if_neg hranges, bind_assoc]

theorem steps_releasePages (hsizes : ∀ a ∈ p.mappings, 0 < a.size)
    (hranges : ∀ range ∈ p.ranges, 0 < range.2) (hfiles : p.FilesOk) :
    Steps regions Full (Ready p.plainPages stay p.searches tables p.pages)
      (Ready p.plainPages stay false tables [])
      (releasePages deallocateFrame p) (releasePages takeBack p) := by
  have hmappings (mappings : List AnonymousMapping) (hsub : ∀ a ∈ mappings, a ∈ p.mappings) :
      Steps regions Full
        (Ready p.plainPages stay (mappings.any (·.lazy.isSome)) tables
          (mappings.flatMap (·.pages) ++ p.ranges.flatMap fun range => range' range.1 range.2))
        (Ready p.plainPages stay false tables
          (p.ranges.flatMap fun range => range' range.1 range.2))
        (fun m => mappings.foldlM (unmapAnonymous deallocateFrame) m)
        (fun l => mappings.foldlM (unmapAnonymous takeBack) l) := by
    induction mappings with
    | nil => exact steps_some id
    | cons a rest ih =>
      have hrest : ∀ a ∈ rest, a ∈ p.mappings := fun a ha => hsub a (mem_cons_of_mem _ ha)
      have ha := hsub a mem_cons_self
      rw [flatMap_cons, append_assoc, any_cons]
      refine (steps_unmapAnonymous (hsizes a ha) (hfiles a ha) fun _ hnone page hpage => ?_).bind
        (ih hrest)
      -- no lazy mapping is left, so all pages that are left are plain ones
      refine (mem_append.mp hpage).elim (fun hpage => ?_) (mem_append_right _)
      obtain ⟨a', ha', hpage⟩ := mem_flatMap.mp hpage
      refine mem_append_left _ (mem_flatMap.mpr ⟨a', mem_filter.mpr ⟨hrest a' ha', ?_⟩, hpage⟩)
      simpa using any_eq_false.mp hnone a' ha'
  exact (hmappings p.mappings fun _ => id).bind <| Steps.foldlM
    (I := fun ranges : List (Page × ℕ) => Ready p.plainPages stay false tables
      (ranges.flatMap fun range => range' range.1 range.2)) _
    fun range hrange rest => by
      rw [flatMap_cons]
      exact steps_unmapUserRange (hranges range hrange)

/-- The table frames `tables` are held, beside `n` others. -/
structure Tables (n : ℕ) (tables : List Frame) (m : Memory (List Frame)) : Prop where
  nodup : tables.Nodup
  held : ∀ f ∈ tables, f ∈ m.allocator
  length : m.allocator.length = n + tables.length

variable {n : ℕ}

/-- A table frame that finds the stack full is not given up, so no jam is survived here. -/
theorem steps_releaseTable : Steps regions (fun _ => False) (Tables n (f :: tables))
    (Tables n tables) (releaseTable deallocateFrame · f) (releaseTable takeBack · f) where
  run {l} h := by
    obtain ⟨hnew, hnodup⟩ := nodup_cons.mp h.nodup
    have hheld := h.held f mem_cons_self
    refine ⟨{ l with allocator := l.allocator.erase f }, ?_, ⟨hnodup, fun g hg => ?_, ?_⟩,
      length_erase_le⟩
    · unfold releaseTable
      rw [takeBack_held hheld]
    · have hne : g ≠ f := fun heq => hnew (heq ▸ hg)
      exact (mem_erase_of_ne hne).mpr (h.held g (mem_cons_of_mem _ hg))
    · have hlen := h.length
      rw [length_cons] at hlen
      dsimp only
      rw [length_erase_of_mem hheld]
      omega
  follows {total m l l'} h htracks hl := by
    have hheld := h.held f mem_cons_self
    unfold releaseTable at hl ⊢
    rw [takeBack_held hheld] at hl
    cases hl
    rcases htracks.deallocate hheld with ⟨hfull, hshort⟩ | ⟨htaken, hafter⟩
    · rw [deallocateFrame_full hfull]
      exact .jammed nofun hshort
    generalize m.allocator.deallocateFrame f = result at htaken hafter
    obtain ⟨_, allocator⟩ := result
    cases htaken
    exact .tracks _ rfl ⟨htracks.pages, htracks.cow, htracks.cache, hafter.1, hafter.2.1,
      hafter.2.2⟩
  stays hjam := hjam.elim

theorem Full.releaseTables (h : Full m) (htables : tables ≠ []) :
    tables.foldlM (releaseTable deallocateFrame) m = none := by
  cases tables with
  | nil => exact absurd rfl htables
  | cons f tables =>
    rw [foldlM_cons, releaseTable, deallocateFrame_full h]
    rfl

/-- The frames of the recorded pages, each as often as it is mapped. -/
def Process.mappedFrames (p : Process) (m : Memory α) : List Frame :=
  p.pages.filterMap m.pages

/-- The mapping records of the process match its page table: the recorded pages are mapped, no
page is recorded twice, every frame has as many references as there are records and cache
entries for it or more, and all frames, those of the tables included, are held. Cached frames
are mapped by lazy mappings only. -/
structure Matches (held : List Frame) (m : Memory Allocator) (p : Process) : Prop where
  sizes : ∀ a ∈ p.mappings, 0 < a.size
  ranges : p.ranges ≠ [] ∧ ∀ range ∈ p.ranges, 0 < range.2
  tables : p.tables.length = 4 ∧ p.tables.Nodup ∧
    ∀ f ∈ p.tables, f ∈ held ∧ f ∉ p.mappedFrames m ++ m.cache
  nodup : p.pages.Nodup
  mapped : ∀ page ∈ p.pages, (m.pages page).isSome
  cow : m.cow.Ok
  counted : ∀ f, (p.mappedFrames m ++ m.cache).count f ≤ m.cow.refcount f
  held : ∀ f ∈ p.mappedFrames m ++ m.cache, f ∈ held
  cache : m.cache.Nodup
  plain : ∀ page ∈ p.plainPages, ∀ f, m.pages page = some f → f ∉ m.cache

/-- The frame is given back with the pages: the process has all references to it or, if the
frame is cached and the cache is searched, all but that one. -/
def Process.Frees (p : Process) (m : Memory α) : Frame → Prop :=
  Due m.cow m.cache (p.mappedFrames m) p.searches

instance (p : Process) (m : Memory α) : DecidablePred (p.Frees m) :=
  fun _ => inferInstanceAs (Decidable (Due ..))

/-- The frames that the release gives back, those of the page tables included. -/
def framesFreed (m : Memory α) (p : Process) : ℕ :=
  ((p.mappedFrames m ++ m.cache).dedup.filter (p.Frees m)).length + p.tables.length

variable {held : List Frame}

theorem Matches.ready (h : Matches held m p) (hheld : held.Nodup) :
    Ready p.plainPages (fun f => f ∈ held ∧ ¬p.Frees m f) p.searches p.tables p.pages
      ⟨m.pages, m.cow, m.cache, held⟩ where
  nodup := h.nodup
  mapped := h.mapped
  sound := ⟨h.cow, h.counted, h.held, h.tables.2, hheld⟩
  cache := h.cache
  plain := h.plain
  stays _ := Iff.rfl

theorem not_due_nil {cache : List Frame} : ¬Due cow cache [] false f := by
  unfold Due
  split <;> simp

/-- What is left of the held frames after the pages have been released. -/
theorem Matches.left (h : Matches held m p) (hheld : held.Nodup)
    (hl : Ready p.plainPages (fun f => f ∈ held ∧ ¬p.Frees m f) false p.tables [] l) :
    Tables (held.length - framesFreed m p) p.tables l ∧ framesFreed m p ≤ held.length := by
  have hmem (f : Frame) : f ∈ l.allocator ↔
      f ∈ held.filter fun f => !decide (p.Frees m f) := by
    have hstays := hl.stays f
    rw [filterMap_nil, and_iff_left not_due_nil] at hstays
    rw [hstays, mem_filter, Bool.not_eq_true', decide_eq_false_iff_not]
  have hperm := (perm_ext_iff_of_nodup hl.sound.nodup (hheld.filter _)).mpr hmem
  have hdue : (held.filter fun f => decide (p.Frees m f)).Perm
      ((p.mappedFrames m ++ m.cache).dedup.filter (p.Frees m)) := by
    refine (perm_ext_iff_of_nodup (hheld.filter _) ((nodup_dedup _).filter _)).mpr fun f => ?_
    rw [mem_filter, mem_filter, mem_dedup]
    refine and_congr_left fun hf => ⟨fun _ => ?_, h.held f⟩
    have hf : p.Frees m f := of_decide_eq_true hf
    unfold Process.Frees Due at hf
    split at hf
    · exact mem_append_right _ ‹_›
    · exact mem_append_left _ hf.1
  have hsplit := length_eq_length_filter_add (l := held)
    fun f => decide (p.Frees m f)
  have htables : p.tables.length ≤ l.allocator.length :=
    (h.tables.2.1.subperm fun f hf => (hl.sound.tables.2 f hf).1).length_le
  rw [hdue.length_eq, ← hperm.length_eq] at hsplit
  have hfreed : framesFreed m p =
      ((p.mappedFrames m ++ m.cache).dedup.filter (p.Frees m)).length + p.tables.length := rfl
  exact ⟨⟨hl.sound.tables.1, fun f hf => (hl.sound.tables.2 f hf).1, by omega⟩, by omega⟩

theorem release_of_not_filesOk (h : ¬p.FilesOk) : release deallocateFrame m p = none := by
  simp only [Process.FilesOk, not_forall] at h
  obtain ⟨a, ha, b, hlazy, hb⟩ := h
  have hfails (mappings : List AnonymousMapping) (hmem : a ∈ mappings) (m : Memory Allocator) :
      mappings.foldlM (unmapAnonymous deallocateFrame) m = none := by
    induction mappings generalizing m with
    | nil => cases hmem
    | cons a' mappings ih =>
      rw [foldlM_cons]
      rcases mem_cons.mp hmem with rfl | hmem
      · rw [unmapAnonymous_of_not_ok hlazy hb]
        rfl
      cases unmapAnonymous deallocateFrame m a' with
      | none => rfl
      | some m₁ => exact ih hmem m₁
  rw [release, hfails p.mappings ha]
  rfl

theorem release_follows (hok : Frames.State.Ok regions ⟨m.allocator, held⟩)
    (hbound : m.allocator.reclaimedFrames.length ≤ maxReclaimedFrames) (hmatch : Matches held m p)
    (hfiles : p.FilesOk) : ∃ l : Memory (List Frame),
      l.allocator.length + framesFreed m p = held.length ∧
      Follows regions (fun _ => False) (m.allocator.reclaimedFrames.length + held.length)
        (release deallocateFrame m p) l := by
  have hready := hmatch.ready hok.held_nodup
  have htables : Steps regions (fun _ => False)
      (Tables (held.length - framesFreed m p) p.tables)
      (Tables (held.length - framesFreed m p) [])
      (fun m => p.tables.foldlM (releaseTable deallocateFrame) m)
      (fun l => p.tables.foldlM (releaseTable takeBack) l) :=
    Steps.foldlM (I := Tables (held.length - framesFreed m p)) p.tables
      fun _ _ _ => steps_releaseTable
  have hpages : Steps regions Full
      (Ready p.plainPages (fun f => f ∈ held ∧ ¬p.Frees m f) p.searches p.tables p.pages)
      (Ready p.plainPages (fun f => f ∈ held ∧ ¬p.Frees m f) false p.tables [])
      (releasePages deallocateFrame p) (releasePages takeBack p) :=
    steps_releasePages hmatch.sizes hmatch.ranges.2 hfiles
  obtain ⟨l₁, hl₁, hleft, -⟩ := hpages.run hready
  obtain ⟨hheld, hle⟩ := hmatch.left hok.held_nodup hleft
  obtain ⟨l₂, hl₂, hend, hle'⟩ := htables.run hheld
  have hlen := hend.length
  rw [length_nil] at hlen
  refine ⟨l₂, by omega, ?_⟩
  rw [release_eq hmatch.ranges.1]
  have hstart : Tracks regions (m.allocator.reclaimedFrames.length + held.length) m
      ⟨m.pages, m.cow, m.cache, held⟩ := ⟨rfl, rfl, rfl, hok, hbound, rfl⟩
  cases hpages.follows hready hstart hl₁ with
  | tracks m₁ hm₁ htracks =>
    rw [hm₁]
    exact htables.follows hheld htracks hl₂
  | jammed hfull hshort =>
    refine .jammed (fun m₂ hm₂ => ?_) (by omega)
    obtain ⟨m₁, hm₁, hm₂⟩ := Option.bind_eq_some_iff.mp hm₂
    have hnone := (hfull m₁ hm₁).releaseTables (ne_nil_of_length_eq_add_one hmatch.tables.1)
    cases hnone.symm.trans hm₂

/-- The frames are all given back exactly if the stack has room for them. -/
theorem release_isSome_iff (hok : Frames.State.Ok regions ⟨m.allocator, held⟩)
    (hbound : m.allocator.reclaimedFrames.length ≤ maxReclaimedFrames) (hmatch : Matches held m p)
    (hfiles : p.FilesOk) : (release deallocateFrame m p).isSome ↔
      m.allocator.reclaimedFrames.length + framesFreed m p ≤ maxReclaimedFrames := by
  obtain ⟨l, hfreed, hfollows⟩ := release_follows hok hbound hmatch hfiles
  cases hfollows with
  | tracks m' hm' htracks =>
    have htotal := htracks.total
    have hroom := htracks.bound
    exact iff_of_true (by rw [hm']; rfl) (by omega)
  | jammed hjam hshort =>
    have hnone := Option.eq_none_iff_forall_ne_some.mpr hjam
    exact iff_of_false (by rw [hnone]; nofun) (by omega)

theorem allocateFresh_reclaimed (a : Allocator) :
    a.allocateFresh.2.reclaimedFrames = a.reclaimedFrames := by
  fun_induction Allocator.allocateFresh a with
  | case1 a hi range hlt => rfl
  | case2 a hi range hlt ih => exact ih
  | case3 a hi => rfl

theorem allocateFrame_reclaimed (a : Allocator) :
    a.allocateFrame.2.reclaimedFrames <:+ a.reclaimedFrames := by
  unfold Allocator.allocateFrame
  split
  · exact suffix_rfl
  split
  · rename_i heq
    rw [heq]
    exact suffix_cons ..
  · exact (allocateFresh_reclaimed a).symm ▸ suffix_rfl

theorem reclaimed_le_step {s s' : Frames.State} {call : Frames.Call}
    (h : s.allocator.reclaimedFrames.length ≤ maxReclaimedFrames)
    (hstep : step s call = some s') :
    s'.allocator.reclaimedFrames.length ≤ maxReclaimedFrames := by
  cases call with
  | allocateFrame =>
    have hle := (allocateFrame_reclaimed s.allocator).length_le.trans h
    simp only [step] at hstep
    split at hstep <;> rename_i heq <;> rw [heq] at hle <;> cases hstep <;> exact hle
  | deallocateFrame address =>
    simp only [step] at hstep
    split at hstep
    · split at hstep <;> rename_i heq <;> cases hstep
      · have hroom : s.allocator.reclaimedFrames.length ≠ maxReclaimedFrames := by
          intro hfull
          cases heq.symm.trans (deallocateFrame_full hfull)
        have hgrown := @deallocateFrame_length address s.allocator (by rw [heq])
        rw [heq] at hgrown
        have hlt := lt_of_le_of_ne h hroom
        dsimp only at hgrown ⊢
        omega
      · have hsame := Allocator.deallocateFrame_refused (a := s.allocator) (by rw [heq])
        rw [heq] at hsame
        cases hsame
        exact h
    · cases hstep

theorem reclaimed_le_run
    (hdisjoint : (regions.filter (·.kind = .usable)).Pairwise MemoryRegion.Disjoint)
    (hinit : Allocator.empty.init regions = (.ok (), a)) (calls : List Frames.Call) :
    (runAll step ⟨a, []⟩ calls).allocator.reclaimedFrames.length ≤
      maxReclaimedFrames := by
  refine runAll_induct ?_ (fun _ _ _ h hstep => reclaimed_le_step h hstep) calls
  rw [(Allocator.loaded_of_init hdisjoint hinit).1.reclaimed]
  exact Nat.zero_le _

/-- The release of a process succeeds exactly if its files can be written back and closed and
the stack of reclaimed frames has room for the frames that it gives back. -/
theorem release_succeeds_iff (regions : List MemoryRegion) (a : Allocator)
    (hdisjoint : (regions.filter (·.kind = .usable)).Pairwise MemoryRegion.Disjoint)
    (hinit : Allocator.empty.init regions = (.ok (), a)) (calls : List Frames.Call)
    (m : Memory Allocator) (p : Process)
    (hallocator : m.allocator = (runAll step ⟨a, []⟩ calls).allocator)
    (hmatch : Matches (runAll step ⟨a, []⟩ calls).held m p) :
    (release deallocateFrame m p).isSome ↔ p.FilesOk ∧
      m.allocator.reclaimedFrames.length + framesFreed m p ≤ maxReclaimedFrames := by
  have hok : (runAll step ⟨a, []⟩ calls).Ok regions :=
    ok_run hdisjoint hinit calls
  have hbound := reclaimed_le_run hdisjoint hinit calls
  generalize runAll step ⟨a, []⟩ calls = s at hallocator hmatch hok hbound ⊢
  obtain ⟨allocator, held⟩ := s
  cases hallocator
  by_cases hfiles : p.FilesOk
  · rw [and_iff_right hfiles]
    exact release_isSome_iff hok hbound hmatch hfiles
  · rw [release_of_not_filesOk hfiles]
    exact iff_of_false nofun fun h => hfiles h.1

/-! ## A full stack -/

section FullStack

variable {s : Frames.State}

theorem step_allocateFrame (h : s.Ok regions)
    (hlow : ∀ region ∈ regions, region.kind = .usable → region.stop.toNat ≤ 2 ^ 52)
    (hroom : s.held.length < s.allocator.totalFrames) :
    ∃ s', step s .allocateFrame = some s' ∧ s'.held.length = s.held.length + 1 ∧
      s'.allocator.reclaimedFrames <:+ s.allocator.reclaimedFrames ∧
      s'.allocator.totalFrames = s.allocator.totalFrames := by
  have hnone := mt h.allocateFrame_none.mp hroom.ne
  have hpanic : s.allocator.allocateFrame.1 ≠ .panic := fun hpanic => by
    obtain ⟨region, hregion, husable, hhigh⟩ := h.allocateFrame_panic hpanic
    exact absurd (hlow region hregion husable) (not_le.mpr hhigh)
  have hsuffix := allocateFrame_reclaimed s.allocator
  have htotal : s.allocator.allocateFrame.2.totalFrames = s.allocator.totalFrames := by
    cases hres : s.allocator.allocateFrame with
    | mk outcome a' =>
      cases hres ▸ Allocator.allocateFrame_refines h.allocator with
      | frame _ _ _ htotal => exact htotal
      | none _ _ htotal => exact htotal
  simp only [step]
  split <;> rename_i heq <;> rw [heq] at hnone hpanic hsuffix htotal
  · exact ⟨_, rfl, rfl, hsuffix, htotal⟩
  · exact absurd rfl hnone
  · exact absurd rfl hpanic

/-- Frames are handed out as long as there are any. -/
theorem exists_allocated (count : ℕ) (h : s.Ok regions)
    (hlow : ∀ region ∈ regions, region.kind = .usable → region.stop.toNat ≤ 2 ^ 52)
    (hroom : s.held.length + count ≤ s.allocator.totalFrames) :
    ∃ calls s', (∀ more, runAll step s (calls ++ more) =
      runAll step s' more) ∧ s'.Ok regions ∧
      s'.held.length = s.held.length + count ∧
      s'.allocator.reclaimedFrames <:+ s.allocator.reclaimedFrames := by
  induction count generalizing s with
  | zero => exact ⟨[], s, fun _ => rfl, h, rfl, suffix_rfl⟩
  | succ count ih =>
    obtain ⟨s₁, hstep, hheld, hsuffix, htotal⟩ := step_allocateFrame h hlow (by omega)
    obtain ⟨calls, s₂, hrun, hok, hheld', hsuffix'⟩ := ih (h.step hstep) (by omega)
    refine ⟨.allocateFrame :: calls, s₂, fun more => ?_, hok, by omega, hsuffix'.trans hsuffix⟩
    rw [cons_append, runAll, hstep]
    exact hrun more

/-- Held frames are taken back as long as there is room. -/
theorem exists_reclaimed (count : ℕ) (h : s.Ok regions) (hheld : count ≤ s.held.length)
    (hroom : s.allocator.reclaimedFrames.length + count ≤ maxReclaimedFrames) :
    ∃ calls s', (∀ more, runAll step s (calls ++ more) =
      runAll step s' more) ∧ s'.Ok regions ∧
      s'.held.length + count = s.held.length ∧
      s'.allocator.reclaimedFrames.length = s.allocator.reclaimedFrames.length + count := by
  induction count generalizing s with
  | zero => exact ⟨[], s, fun _ => rfl, h, rfl, rfl⟩
  | succ count ih =>
    obtain ⟨f, hf⟩ := exists_mem_of_length_pos (l := s.held) (by omega)
    have htaken := (deallocateFrame_taken_iff h hf).mpr (by omega)
    have hgrown := deallocateFrame_length htaken
    have hstep : step s (.deallocateFrame f) =
        some ⟨(s.allocator.deallocateFrame f).2, s.held.erase f⟩ := by
      simp only [step, if_pos hf]
      generalize s.allocator.deallocateFrame f = result at htaken ⊢
      obtain ⟨_, allocator⟩ := result
      cases htaken
      rfl
    have hlen := length_erase_of_mem hf
    obtain ⟨calls, s₂, hrun, hok, hheld', hreclaimed⟩ :=
      ih (h.step hstep) (by dsimp only; omega) (by dsimp only; omega)
    refine ⟨.deallocateFrame f :: calls, s₂, fun more => ?_, hok, ?_, ?_⟩
    · rw [cons_append, runAll, hstep]
      exact hrun more
    · dsimp only at hheld'
      omega
    · dsimp only at hreclaimed
      omega

/-- A process with one stack page and nothing else. -/
def stackProcess (tables : List Frame) : Process :=
  ⟨[], [(0, 1)], tables⟩

def stackMemory (frame : Frame) (allocator : Allocator) : Memory Allocator :=
  ⟨Function.update (fun _ => none) 0 (some frame), fun _ => CowEntry.empty, [], allocator⟩

theorem stackProcess_matches {frame : Frame} {allocator : Allocator}
    (hnodup : (frame :: tables).Nodup) (hlen : tables.length = 4) :
    Matches (frame :: tables) (stackMemory frame allocator) (stackProcess tables) := by
  obtain ⟨hnew, htables⟩ := nodup_cons.mp hnodup
  have hframes : (stackProcess tables).mappedFrames (stackMemory frame allocator) ++
      (stackMemory frame allocator).cache = [frame] := rfl
  refine ⟨nofun, ⟨nofun, fun range hrange => ?_⟩, ⟨hlen, htables, fun g hg => ?_⟩,
    nodup_singleton 0, fun page hpage => ?_, CowTable.ok_empty, fun g => ?_, fun g hg => ?_,
    nodup_nil, fun _ _ _ _ => not_mem_nil⟩
  · cases mem_singleton.mp hrange
    exact Nat.one_pos
  · rw [hframes, mem_singleton]
    exact ⟨mem_cons_of_mem _ hg, fun heq => hnew (heq ▸ hg)⟩
  · cases mem_singleton.mp hpage
    rfl
  · rw [hframes]
    exact count_le_length.trans (CowTable.refcount_pos CowTable.ok_empty g)
  · rw [hframes, mem_singleton] at hg
    exact hg ▸ mem_cons_self

/-- After 1024 frames were given back and none was handed out since, the process with one stack
page cannot be released. -/
theorem release_fails : ∃ regions a calls m p,
    (regions.filter (·.kind = .usable)).Pairwise MemoryRegion.Disjoint ∧
    Allocator.empty.init regions = (.ok (), a) ∧
    m.allocator = (runAll step ⟨a, []⟩ calls).allocator ∧
    Matches (runAll step ⟨a, []⟩ calls).held m p ∧ p.FilesOk ∧
    release deallocateFrame m p = none := by
  have hdisjoint : ([⟨0x100000, 0x505000, .usable⟩].filter
      (·.kind = Frames.MemoryRegionKind.usable)).Pairwise MemoryRegion.Disjoint :=
    pairwise_singleton ..
  have hinit : Allocator.empty.init [⟨0x100000, 0x505000, .usable⟩] =
      (.ok (), (Allocator.empty.init [⟨0x100000, 0x505000, .usable⟩]).2) := by decide
  have hok := Frames.State.ok_init hdisjoint hinit
  have hnil := (Allocator.loaded_of_init hdisjoint hinit).1.reclaimed
  have htotal : (Allocator.empty.init [⟨0x100000, 0x505000, .usable⟩]).2.totalFrames = 1029 := by
    decide
  generalize (Allocator.empty.init [⟨0x100000, 0x505000, .usable⟩]).2 = a at hinit hok hnil htotal
  obtain ⟨calls, s₁, hrun, hok₁, hheld₁, hsuffix⟩ := exists_allocated 1029 hok (by decide) (by
    rw [htotal]
    exact Nat.le_refl 1029)
  have hnil₁ : s₁.allocator.reclaimedFrames = [] := suffix_nil.mp (hnil ▸ hsuffix)
  obtain ⟨calls', s₂, hrun', hok₂, hheld₂, hfull⟩ := exists_reclaimed 1024 hok₁
    (by rw [hheld₁]; exact Nat.le_add_left 1024 _) (by rw [hnil₁]; exact Nat.le_refl 1024)
  have hreached : runAll step ⟨a, []⟩ (calls ++ calls') = s₂ := by
    rw [hrun, ← append_nil calls', hrun']
    rfl
  have hfive : s₂.held.length = 5 := by
    rw [hheld₁] at hheld₂
    exact Nat.add_right_cancel (m := 1024) hheld₂
  have hnodup := hok₂.held_nodup
  obtain ⟨frame, tables, hsplit⟩ := exists_cons_of_length_eq_add_one hfive
  rw [hsplit] at hnodup hfive
  have hmatch : Matches (frame :: tables) (stackMemory frame s₂.allocator)
      (stackProcess tables) := stackProcess_matches hnodup (Nat.succ.inj hfive)
  refine ⟨_, a, calls ++ calls', stackMemory frame s₂.allocator, stackProcess tables, hdisjoint,
    hinit, ?_, ?_, nofun, ?_⟩
  · rw [hreached]
    rfl
  · rw [hreached, hsplit]
    exact hmatch
  have hlast : s₂.allocator.reclaimedFrames.length = maxReclaimedFrames := by
    rw [hnil₁] at hfull
    exact hfull
  have hroom := release_isSome_iff (m := stackMemory frame s₂.allocator)
    (by rw [← hsplit]; exact hok₂) hlast.le hmatch nofun
  rw [← Option.not_isSome_iff_eq_none, hroom]
  change ¬s₂.allocator.reclaimedFrames.length + (_ + tables.length) ≤ _
  rw [length_cons] at hfive
  omega

/-- A process that has read one page of a file, which the cache still has. -/
def readerProcess : Process :=
  ⟨[⟨1, 2, 1, some ⟨some ⟨true, 6000, false, 0, false⟩, 0, 6000, false⟩⟩], [(0, 1)],
    [0x103000, 0x102000, 0x101000, 0x100000]⟩

def readerMemory (allocator : Allocator) : Memory Allocator :=
  ⟨Function.update (Function.update (fun _ => none) 0 (some 0x104000)) 1 (some 0x105000),
    fun i => if i.val = 0 then ⟨0x105000, 2, true⟩ else CowEntry.empty, [0x105000], allocator⟩

theorem readerMemory_cow (allocator : Allocator) : (readerMemory allocator).cow.Ok := by
  have hfirst {i : Fin Paging.maxCowFrames}
      (hi : ((readerMemory allocator).cow i).occupied = true) : i.val = 0 := by
    by_contra hne
    simp [readerMemory, hne, CowEntry.empty] at hi
  refine ⟨fun i j hi hj _ => Fin.ext ((hfirst hi).trans (hfirst hj).symm), fun i hi => ?_⟩
  simp [readerMemory, hfirst hi]

theorem readerProcess_matches (allocator : Allocator) :
    Matches [0x105000, 0x104000, 0x103000, 0x102000, 0x101000, 0x100000]
      (readerMemory allocator) readerProcess := by
  have hcow := readerMemory_cow allocator
  have hframes : readerProcess.mappedFrames (readerMemory allocator) ++
      (readerMemory allocator).cache = [0x105000, 0x104000, 0x105000] := rfl
  refine ⟨by decide, by decide, ⟨rfl, by decide, ?_⟩, by decide, fun page hpage => ?_, hcow,
    fun f => ?_, ?_, nodup_singleton _, fun page hpage f hf hcached => ?_⟩
  · rw [hframes]
    decide
  · have hpages : readerProcess.pages = [1, 0] := by decide
    rcases mem_pair.mp (hpages ▸ hpage) with rfl | rfl <;> rfl
  · rw [hframes]
    by_cases hcached : f = 0x105000
    · have htwo : (readerMemory allocator).cow.refcount 0x105000 = 2 := by
        rw [CowTable.refcount_eq]
        exact congrArg (Option.getD · 1) (hcow.entry_eq_some ⟨0, by decide⟩ rfl)
      rw [hcached, htwo]
      decide
    · refine le_trans ?_ (CowTable.refcount_pos hcow f)
      rw [count_cons_of_ne (Ne.symm hcached)]
      by_cases hstack : f = 0x104000
      · rw [hstack]
        decide
      · rw [count_eq_zero.mpr (by simp [hcached, hstack])]
        exact Nat.zero_le _
  · rw [hframes]
    decide
  · cases mem_singleton.mp hpage
    cases hf
    cases mem_singleton.mp hcached

/-- All six frames are given back, that of the file by the search of the cache. -/
theorem release_succeeds_reader :
    let s := runAll step
      ⟨(Allocator.empty.init [⟨0x100000, 0x107000, .usable⟩]).2, []⟩
      (replicate 6 .allocateFrame)
    (release deallocateFrame (readerMemory s.allocator) readerProcess).isSome := by
  intro s
  have hheld : s.held = [0x105000, 0x104000, 0x103000, 0x102000, 0x101000, 0x100000] := by
    decide +kernel
  have hnil : s.allocator.reclaimedFrames = [] := by decide +kernel
  have hfiles : readerProcess.FilesOk := by
    intro a ha b hb
    cases mem_singleton.mp ha
    cases hb
    exact ⟨_, rfl, nofun, nofun⟩
  refine (release_succeeds_iff [⟨0x100000, 0x107000, .usable⟩] _ (pairwise_singleton ..)
    (by decide) (replicate 6 .allocateFrame) (readerMemory s.allocator) _ rfl
    (hheld ▸ readerProcess_matches s.allocator)).mpr ⟨hfiles, ?_⟩
  change s.allocator.reclaimedFrames.length + framesFreed _ _ ≤ _
  rw [hnil, length_nil, Nat.zero_add]
  refine (Nat.add_le_add_right ((length_filter_le _ _).trans (dedup_sublist _).length_le)
    _).trans ?_
  decide

end FullStack

end Runs

end WovenHat.Release
