import WovenHat.Library.Always
import WovenHat.Verification.Paging.Ownership

/-! # Exact reference counts

Every call of the paging code keeps the reference counts exact, also where it fails half way
and undoes what it has done. -/

namespace WovenHat.Paging

open Library Function List Option Memory Exact

namespace Memory

variable {m m' : Memory} {held : List Frame} {f : Frame} {k k' : Space × Page} {pte : Pte}
  {P : ℕ → Memory → Prop} {frame : Frame} {allocator : FrameAllocator}

/-- The outcome of `forPages`, from a property that holds before each page. -/
theorem forPages_spec {step : Memory → ℕ → Bool × Memory} {undo : Memory → ℕ → Memory}
    {Q : Bool → Memory → Prop} {size : ℕ}
    (hnext : ∀ i m, i < size → P i m → (step m i).1 = true → P (i + 1) (step m i).2)
    (hfail : ∀ i m, i < size → P i m → (step m i).1 = false →
      Q false ((range i).foldl undo (step m i).2))
    (hdone : ∀ m, P size m → Q true m) (todo i : ℕ) (hsize : i + todo = size) (hm : P i m) :
    Q (forPages step undo todo i m).1 (forPages step undo todo i m).2 := by
  induction todo generalizing i m with
  | zero =>
    have heq : i = size := by omega
    exact hdone m (heq ▸ hm)
  | succ todo ih =>
    rw [forPages]
    have hok := hnext i m (by omega) hm
    have hko := hfail i m (by omega) hm
    generalize step m i = result at hok hko ⊢
    obtain ⟨ok, m'⟩ := result
    cases ok with
    | true => exact ih (i + 1) (by omega) (hok rfl)
    | false => exact hko rfl

theorem forPages_induct {step : Memory → ℕ → Bool × Memory} {undo : Memory → ℕ → Memory}
    {Q : Memory → Prop} (hnext : ∀ i m, P i m → (step m i).1 = true → P (i + 1) (step m i).2)
    (hfail : ∀ i m, P i m → (step m i).1 = false → Q ((range i).foldl undo (step m i).2))
    (hdone : ∀ i m, P i m → Q m) (todo i : ℕ) (hm : P i m) : Q (forPages step undo todo i m).2 :=
  forPages_spec (Q := fun _ => Q) (fun i m _ => hnext i m) (fun i m _ => hfail i m) (hdone _)
    todo i rfl hm

/-! ## Mapping new frames -/

theorem Exact.discard (h : Exact (f :: held) m) (hlast : m.uses held f = 0)
    (hentry : m.cow.entry f = none) :
    Exact held { m with allocator := (m.allocator.deallocate f).2 } := by
  have hused : 0 < m.uses (f :: held) f := by
    rw [uses_cons_self]
    omega
  have hle : ∀ g, m.uses held g ≤ m.uses (f :: held) g := by
    intro g
    rw [uses_cons]
    omega
  have hforget : Exact held m := by
    refine ⟨h.cow, fun g hg => (hle g).trans (h.absent g hg), fun g n hg => ?_, h.nodup,
      fun g hg => ?_, h.single⟩
    · have hne : f ≠ g := by
        rintro rfl
        rw [hentry] at hg
        cases hg
      rw [← uses_cons_of_ne held m hne]
      exact h.present g n hg
    · have := hle g
      have := h.free g hg
      omega
  exact hforget.deallocate hlast (h.not_free_of_used hused)

/-- The page is not mapped, or to a frame that nothing else refers to. -/
def Solo (m : Memory) (k : Space × Page) : Prop :=
  ∀ pte, m.tables.lookup k = some pte → m.uses [] pte.frame = 1 ∧ m.cow.entry pte.frame = none

theorem Exact.mapNew (h : Exact [] m) (ha : m.allocator.allocate = some (frame, allocator))
    (hk : m.tables.lookup k = none) (writable executable : Bool) (hm' : m' = { m with
      allocator, tables := m.tables.insert k ⟨frame, writable, executable⟩ }) :
    Exact [] m' ∧ Solo m' k ∧ ∀ k', k' ≠ k → Solo m k' → Solo m' k' := by
  obtain ⟨hunused, hheld⟩ := h.allocate ha
  have hentry := h.entry_of_unused hunused
  have hwritable : m.writableCount frame = 0 := by
    have := writableCount_le_mapCount m frame
    have := mapCount_le_uses [] m frame
    omega
  have huses : ∀ g, m'.uses [] g = m.uses [frame] g := by
    intro g
    rw [hm']
    exact uses_insert (m := { m with allocator }) [] hk ⟨frame, writable, executable⟩ g
  have hexact := insert ⟨frame, writable, executable⟩ hheld hk fun _ => .inr hwritable
  have hcow : m'.cow = m.cow := by rw [hm']
  have htables : m'.tables = m.tables.insert k ⟨frame, writable, executable⟩ := by rw [hm']
  refine ⟨hm' ▸ hexact, fun pte hpte => ?_, fun k' hne hsolo pte hpte => ?_⟩
  · rw [htables, AList.lookup_insert] at hpte
    cases hpte
    rw [huses, hcow, uses_cons_self, hunused]
    exact ⟨rfl, hentry⟩
  rw [htables, AList.lookup_insert_ne hne] at hpte
  obtain ⟨hone, hnone⟩ := hsolo pte hpte
  have hframe : frame ≠ pte.frame := by
    rintro rfl
    omega
  rw [huses, hcow, uses_cons_of_ne _ _ hframe]
  exact ⟨hone, hnone⟩

theorem Exact.allocate_discard (h : Exact [] m)
    (ha : m.allocator.allocate = some (frame, allocator)) :
    Exact [] { m with allocator := (allocator.deallocate frame).2 } := by
  obtain ⟨hunused, hheld⟩ := h.allocate ha
  exact hheld.discard hunused (h.entry_of_unused hunused)

theorem Exact.mapPage (h : Exact [] m) (space : Space) (page : Page)
    (writable executable fails : Bool) :
    Exact [] (m.mapPage space page writable executable fails).2 ∧
      ((m.mapPage space page writable executable fails).1 = true →
        Solo (m.mapPage space page writable executable fails).2 (space, page)) ∧
      ∀ k, k ≠ (space, page) → Solo m k →
        Solo (m.mapPage space page writable executable fails).2 k := by
  unfold Memory.mapPage
  split
  · exact ⟨h, nofun, fun _ _ hsolo => hsolo⟩
  rename_i hfree
  have hk : m.tables.lookup (space, page) = none := by simpa using hfree
  cases ha : m.allocator.allocate with
  | none => exact ⟨h, nofun, fun _ _ hsolo => hsolo⟩
  | some result =>
    cases fails with
    | true => exact ⟨h.allocate_discard ha, nofun, fun _ _ hsolo => hsolo⟩
    | false =>
      obtain ⟨hexact, hnew, hother⟩ := h.mapNew ha hk writable executable rfl
      exact ⟨hexact, fun _ => hnew, hother⟩

theorem Exact.unmapFresh (h : Exact [] m) {space : Space} {page : Page}
    (hsolo : Solo m (space, page)) : Exact [] (m.unmapFresh space page) ∧
      ∀ k, k ≠ (space, page) → Solo m k → Solo (m.unmapFresh space page) k := by
  unfold Memory.unmapFresh
  cases hk : m.tables.lookup (space, page) with
  | none => exact ⟨h, fun _ _ hs => hs⟩
  | some pte =>
    obtain ⟨hone, hentry⟩ := hsolo pte hk
    have herased := uses_erase [] hk
    have hlast : uses [] { m with tables := m.tables.erase (space, page) } pte.frame = 0 := by
      have := herased pte.frame
      rw [uses_cons_self] at this
      omega
    refine ⟨(h.erase hk).discard hlast hentry, fun k hne hs pte' hpte' => ?_⟩
    have hlookup : m.tables.lookup k = some pte' := (AList.lookup_erase_ne hne).symm.trans hpte'
    obtain ⟨hone', hentry'⟩ := hs pte' hlookup
    -- two pages with one frame would count it twice
    have hframe : pte.frame ≠ pte'.frame := by
      intro heq
      have hle : valueCount (fun e => e.frame == pte.frame) m.tables ≤ 1 := by
        have := mapCount_le_uses [] m pte.frame
        unfold mapCount at this
        omega
      exact hne (key_unique hle hlookup (by simp [heq]) hk (by simp))
    refine ⟨?_, hentry'⟩
    have hsame := herased pte'.frame
    rw [uses_cons_of_ne _ _ hframe] at hsame
    exact hsame.trans hone'

theorem Exact.undo (h : Exact [] m) (space : Space) (start : Page) (pages : List ℕ)
    (hnodup : pages.Nodup) (hsolo : ∀ i ∈ pages, Solo m (space, start + i)) :
    Exact [] (pages.foldl (fun m i => m.unmapFresh space (start + i)) m) := by
  induction pages generalizing m with
  | nil => exact h
  | cons i pages ih =>
    obtain ⟨hi, hpages⟩ := nodup_cons.mp hnodup
    obtain ⟨hexact, hother⟩ := h.unmapFresh (hsolo i mem_cons_self)
    refine ih hexact hpages fun j hj => ?_
    have hne : j ≠ i := by
      rintro rfl
      exact hi hj
    exact hother _ (by simpa using hne) (hsolo j (mem_cons_of_mem _ hj))

theorem Exact.mapUserRange (h : Exact [] m) (space : Space) (start : Page) (size : ℕ)
    (writable executable : Bool) (fails : ℕ → Bool) :
    Exact [] (m.mapUserRange space start size writable executable fails).2 := by
  unfold Memory.mapUserRange
  split
  · exact h
  refine forPages_induct (P := fun i m => Exact [] m ∧ ∀ j < i, Solo m (space, start + j))
    (fun i m hm hok => ?_) (fun i m hm _ => ?_) (fun _ _ hm => hm.1) size 0 ⟨h, fun _ hj => by omega⟩
  · obtain ⟨hexact, hnew, hother⟩ := hm.1.mapPage space (start + i) writable executable (fails i)
    refine ⟨hexact, fun j hj => ?_⟩
    by_cases hji : j = i
    · subst hji
      exact hnew hok
    · exact hother _ (by simpa using hji) (hm.2 j (by omega))
  · obtain ⟨hexact, -, hother⟩ := hm.1.mapPage space (start + i) writable executable (fails i)
    refine hexact.undo space start (range i) nodup_range fun j hj => ?_
    have hlt := mem_range.mp hj
    exact hother _ (by simp; omega) (hm.2 j hlt)

theorem Exact.mapPrivateFrameFromBytes (h : Exact [] m) (space : Space) (page : Page)
    (bytes : ℕ → UInt8) (writable fails : Bool) :
    Exact [] (m.mapPrivateFrameFromBytes space page bytes writable fails).2 := by
  unfold Memory.mapPrivateFrameFromBytes
  cases ha : m.allocator.allocate with
  | none => exact h
  | some result =>
    obtain ⟨frame, allocator⟩ := result
    dsimp only
    split
    · exact h.allocate_discard ha
    rename_i hfree
    have hk : m.tables.lookup (space, page) = none := by simpa using hfree
    split
    · exact (h.allocate_discard ha).setBytes _
    · exact (h.mapNew ha hk writable false rfl).1.setBytes _

/-! ## Sharing -/

theorem mapCount_pos (hk : m.tables.lookup k = some pte) : 0 < m.mapCount pte.frame :=
  valueCount_pos hk (by simp)

theorem uses_pos (hk : m.tables.lookup k = some pte) : 0 < m.uses held pte.frame := by
  have := mapCount_pos hk
  unfold uses
  omega

section Sharing

variable (h : Exact [] m)

include h

theorem Exact.sharePage {source destination : Space}
    (hne : source ≠ destination) (page : Page) (writable executable fails : Bool) :
    Exact [] (m.sharePage source destination page writable executable fails).2 := by
  unfold Memory.sharePage
  cases hsource : m.tables.lookup (source, page) with
  | none => exact h
  | some pte =>
    dsimp only
    split
    · exact h
    rename_i hfree
    have hk : m.tables.lookup (destination, page) = none := by simpa using hfree
    cases hshare : m.cow.share pte.frame with
    | none => exact h
    | some cow =>
      have hheld := h.share (uses_pos hsource) hshare
      dsimp only
      split
      · exact hheld.release.1
      have hmapped := insert ⟨pte.frame, false, executable⟩ hheld hk fun hw => by cases hw
      split
      · have hkey : (source, page) ≠ (destination, page) := by simpa using hne
        exact hmapped.replace ⟨pte.frame, false, executable⟩
          ((AList.lookup_insert_ne hkey).trans hsource) rfl nofun
      · exact hmapped

theorem Exact.eraseRelease (hk : m.tables.lookup k = some pte) :
    Exact [] ({ m with tables := m.tables.erase k }.releaseFrame pte.frame).2 :=
  (h.erase hk).releaseFrame

theorem Exact.unmapShared (destination : Space) (page : Page) :
    Exact [] (m.unmapShared destination page) := by
  unfold Memory.unmapShared
  cases hk : m.tables.lookup (destination, page) with
  | none => exact h
  | some pte => exact h.eraseRelease hk

theorem Exact.foldl_unmapShared (destination : Space) (start : Page) (pages : List ℕ) :
    Exact [] (pages.foldl (fun m i => m.unmapShared destination (start + i)) m) := by
  induction pages generalizing m with
  | nil => exact h
  | cons i pages ih => exact ih (h.unmapShared destination (start + i))

theorem Exact.shareUserRange (source destination : Space) (start : Page)
    (size : ℕ) (writable executable : Bool) (fails : ℕ → Bool) :
    Exact [] (m.shareUserRange source destination start size writable executable fails).2 := by
  unfold Memory.shareUserRange
  split
  · exact h
  rename_i hne
  have hspaces : source ≠ destination := fun heq => hne (.inl heq)
  refine forPages_induct (P := fun _ m => Exact [] m) (fun i m hm _ => ?_) (fun i m hm _ => ?_)
    (fun _ _ hm => hm) size 0 h
  · exact hm.sharePage hspaces _ _ _ _
  · exact (hm.sharePage hspaces _ _ _ _).foldl_unmapShared destination start _

/-- `try_break_cow` makes a page writable that has its frame for itself, or gives it a copy. -/
theorem Exact.tryBreakCow (space : Space) (page : Page) :
    Exact [] (m.tryBreakCow space page).2 := by
  unfold Memory.tryBreakCow
  cases hk : m.tables.lookup (space, page) with
  | none => exact h
  | some pte =>
    have hused : 0 < m.uses [] pte.frame := uses_pos hk
    have hcount := h.refcount_of_used hused
    dsimp only
    split
    · exact h
    split
    · rename_i hsole
      obtain ⟨hok, hentry, hother⟩ := h.cow.clear pte.frame
      generalize m.cow.clear pte.frame = cow at hok hentry hother ⊢
      have hmap := mapCount_le_uses [] m pte.frame
      have hexact := h.setCow [] hok hother (fun _ _ => rfl) (fun _ => by omega)
        (fun n hn => absurd (hentry.symm.trans hn) (some_ne_none _).symm)
        (h.not_free_of_used hused)
      have hone : mapCount { m with cow } pte.frame ≤ 1 := by
        unfold mapCount at hmap ⊢
        dsimp only
        omega
      exact hexact.replace { pte with writable := true } hk rfl fun _ => hone
    · cases ha : m.allocator.allocate with
      | none => exact h
      | some result =>
        obtain ⟨frame, allocator⟩ := result
        obtain ⟨hunused, hheld⟩ := h.allocate ha
        have hwritable : m.writableCount frame = 0 := by
          have := writableCount_le_mapCount m frame
          have := mapCount_le_uses [] m frame
          omega
        have hexchanged := exchange ⟨frame, true, pte.executable⟩ hheld hk hwritable
        have hcopied := hexchanged.setBytes (update m.bytes frame (m.bytes pte.frame))
        dsimp only at hcopied ⊢
        generalize (⟨_, _, _, _, _⟩ : Memory) = m' at hcopied ⊢
        exact hcopied.releaseFrame

/-! ## Unmapping -/

theorem Exact.unmapPage (space : Space) (page : Page) : Exact [] (m.unmapPage space page).2 := by
  unfold Memory.unmapPage
  cases hk : m.tables.lookup (space, page) with
  | none => exact h
  | some pte => exact h.eraseRelease hk

theorem Exact.unmapUserRange (space : Space) (start : Page) (size : ℕ) :
    Exact [] (m.unmapUserRange space start size).2 := by
  unfold Memory.unmapUserRange
  split
  · exact h
  refine forPages_induct (P := fun _ m => Exact [] m) (fun i m hm _ => ?_) (fun i m hm _ => ?_)
    (fun _ _ hm => hm) size 0 h
  · exact hm.unmapPage space (start + i)
  · rw [foldl_fixed]
    exact hm.unmapPage space (start + i)

theorem Exact.destroyUserAddressSpace (space : Space)
    (ranges : List (Page × ℕ)) : Exact [] (m.destroyUserAddressSpace space ranges).2 := by
  induction ranges generalizing m with
  | nil => exact h
  | cons range ranges ih =>
    have hrange := h.unmapUserRange space range.1 range.2
    rw [destroyUserAddressSpace]
    generalize m.unmapUserRange space range.1 range.2 = result at hrange ⊢
    obtain ⟨ok, m'⟩ := result
    cases ok with
    | true => exact ih hrange
    | false => exact hrange

/-! ## The file cache -/

theorem Exact.allocateFileFrame (bytes : ℕ → UInt8) (shared : Bool) :
    Exact [] (m.allocateFileFrame bytes shared).2 := by
  unfold Memory.allocateFileFrame
  cases ha : m.allocator.allocate with
  | none => exact h
  | some result =>
    obtain ⟨frame, allocator⟩ := result
    obtain ⟨hunused, hheld⟩ := h.allocate ha
    have hcache : ∀ g, uses [] { m with
        allocator, cached := update m.cached frame (some shared) } g = m.uses [frame] g := by
      intro g
      by_cases hg : g = frame
      · subst hg
        rw [uses_cons_self, hunused]
        have hmap : m.mapCount g = 0 := by
          have := mapCount_le_uses [] m g
          omega
        simp [uses, cacheCount, mapCount] at hmap ⊢
        exact hmap
      · rw [uses_cons_of_ne _ _ (Ne.symm hg)]
        simp [uses, cacheCount, mapCount, update_of_ne hg]
    refine ⟨h.cow, fun g hg => (hcache g).trans_le (hheld.absent g hg),
      fun g n hg => (hcache g).trans (hheld.present g n hg), hheld.nodup,
      fun g hg => (hcache g).trans (hheld.free g hg), fun g hg => ?_⟩
    by_cases hgf : g = frame
    · subst hgf
      have hle := writableCount_le_mapCount m g
      have := mapCount_le_uses [] m g
      change m.writableCount g ≤ 1
      omega
    · exact h.single g (by simpa [update_of_ne hgf] using hg)

theorem Exact.mapFileFrame (space : Space) (page : Page)
    {writable : Bool} (hcached : m.cached frame = some writable) (fails : Bool) :
    Exact [] (m.mapFileFrame space page frame writable fails).2 := by
  have hused : 0 < m.uses [] frame := by
    simp [uses, cacheCount, hcached]
  unfold Memory.mapFileFrame
  split
  · exact h
  rename_i hfree
  have hk : m.tables.lookup (space, page) = none := by simpa using hfree
  cases hshare : m.cow.share frame with
  | none => exact h
  | some cow =>
    have hheld := h.share hused hshare
    dsimp only
    split
    · exact hheld.release.1
    refine insert ⟨frame, writable, false⟩ hheld hk fun hw => .inl ?_
    dsimp only at hw ⊢
    rw [hcached, hw]

theorem Exact.releaseFileFrame (hcached : (m.cached frame).isSome)
    (hlast : m.cow.refcount frame = 1) : Exact [] (m.releaseFileFrame frame).2 := by
  have hused : 0 < m.uses [] frame := by
    simp [uses, cacheCount, hcached]
  have hcount := h.refcount_of_used hused
  have hmap : m.mapCount frame = 0 := by
    simp only [uses, cacheCount, hcached, if_true] at hcount
    omega
  apply releaseFrame
  have huses : ∀ g, uses [frame] { m with cached := update m.cached frame none } g =
      m.uses [] g := by
    intro g
    by_cases hg : g = frame
    · subst hg
      rw [uses_cons_self]
      simp [uses, cacheCount, hcached, mapCount]
    · rw [uses_cons_of_ne _ _ (Ne.symm hg)]
      simp [uses, cacheCount, mapCount, update_of_ne hg]
  refine ⟨h.cow, fun g hg => (huses g).trans_le (h.absent g hg),
    fun g n hg => (huses g).trans (h.present g n hg), h.nodup,
    fun g hg => (huses g).trans (h.free g hg), fun g hg => ?_⟩
  by_cases hgf : g = frame
  · subst hgf
    have hle := writableCount_le_mapCount m g
    change m.writableCount g ≤ 1
    omega
  · exact h.single g (by simpa [update_of_ne hgf] using hg)

end Sharing

/-- The cache keeps the frame that the allocator refuses, or gives it up. -/
theorem reclaimFileFrame_eq (m : Memory) (frame : Frame) :
    (m.reclaimFileFrame frame).2 = (m.releaseFileFrame frame).2 ∨
      (m.reclaimFileFrame frame).2 = { m with cow := (m.cow.release frame).2 } := by
  have hrefused : (m.allocator.deallocate frame).1 = false → _ := FrameAllocator.deallocate_refused
  unfold reclaimFileFrame releaseFileFrame releaseFrame
  dsimp only
  generalize m.cow.release frame = released
  generalize m.allocator.deallocate frame = deallocated at hrefused ⊢
  obtain ⟨freed, cow⟩ := released
  obtain ⟨ok, allocator⟩ := deallocated
  cases freed with
  | false => exact .inl rfl
  | true =>
    cases ok with
    | false => exact .inr (congrArg (fun a => { m with cow, allocator := a }) (hrefused rfl))
    | true => exact .inl rfl

theorem Exact.reclaimFileFrame (h : Exact [] m) (hcached : (m.cached frame).isSome)
    (hlast : m.cow.refcount frame = 1) : Exact [] (m.reclaimFileFrame frame).2 := by
  have hused : 0 < m.uses [] frame := by
    simp [uses, cacheCount, hcached]
  have hcount := h.refcount_of_used hused
  obtain heq | heq := reclaimFileFrame_eq m frame
  · rw [heq]
    exact h.releaseFileFrame hcached hlast
  rw [heq]
  obtain ⟨-, hok, hentry, hother⟩ := h.cow.release_last frame hlast
  generalize (m.cow.release frame).2 = cow at hok hentry hother ⊢
  exact h.setCow [] hok hother (fun _ _ => rfl) (fun _ => by omega)
    (fun n hn => absurd (hentry.symm.trans hn) (some_ne_none _).symm)
    (h.not_free_of_used hused)

/-! ## Runs -/

theorem exact_boot {frames : List Frame} (hnodup : frames.Nodup) (bytes : Frame → ℕ → UInt8) :
    Exact [] (boot frames bytes) where
  cow := CowTable.ok_empty
  absent f _ := by simp [uses, mapCount, cacheCount, boot, valueCount_empty]
  present f n hn := by
    change CowTable.entry (fun _ => CowEntry.empty) f = some n at hn
    rw [CowTable.entry_empty] at hn
    cases hn
  nodup := hnodup
  free f _ := by simp [uses, mapCount, cacheCount, boot, valueCount_empty]
  single f _ := by simp [writableCount, boot, valueCount_empty]

theorem Exact.of_step (h : Exact [] m) {op : Op} (hstep : m.step op = some m') : Exact [] m' := by
  unfold step at hstep
  cases op with
  | map => exact some.inj hstep ▸ h.mapUserRange _ _ _ _ _ _
  | share => exact some.inj hstep ▸ h.shareUserRange _ _ _ _ _ _ _
  | breakCow => exact some.inj hstep ▸ h.tryBreakCow _ _
  | unmap => exact some.inj hstep ▸ h.unmapUserRange _ _ _
  | destroy => exact some.inj hstep ▸ h.destroyUserAddressSpace _ _
  | mapPrivate => exact some.inj hstep ▸ h.mapPrivateFrameFromBytes _ _ _ _ _
  | allocateFile => exact some.inj hstep ▸ h.allocateFileFrame _ _
  | mapFile space page frame writable fails =>
    dsimp only at hstep
    split at hstep
    · exact some.inj hstep ▸ h.mapFileFrame _ _ ‹_› _
    · cases hstep
  | releaseFile frame =>
    dsimp only at hstep
    split at hstep
    · rename_i hlast
      exact some.inj hstep ▸ h.releaseFileFrame hlast.1 hlast.2
    · cases hstep
  | reclaimFile frame =>
    dsimp only at hstep
    split at hstep
    · rename_i hlast
      exact some.inj hstep ▸ h.reclaimFileFrame hlast.1 hlast.2
    · cases hstep

/-- What the reference counts are for. -/
structure FramesOwned (m : Memory) : Prop where
  counted : ∀ f, 0 < m.mapCount f + m.cacheCount f →
    m.cow.refcount f = m.mapCount f + m.cacheCount f
  last : ∀ f, 0 < m.mapCount f + m.cacheCount f →
    ((m.cow.release f).1 = true ↔ m.mapCount f + m.cacheCount f = 1)
  free : ∀ f ∈ m.allocator.free, m.mapCount f = 0 ∧ m.cached f = none
  exclusive : ∀ k k' pte pte', m.tables.lookup k = some pte → m.tables.lookup k' = some pte' →
    pte.frame = pte'.frame → pte.writable → pte'.writable → k = k' ∨ m.cached pte.frame = some true

theorem Exact.release_true_iff (h : Exact [] m) (hused : 0 < m.uses [] f) :
    (m.cow.release f).1 = true ↔ m.uses [] f = 1 := by
  have hcount := h.refcount_of_used hused
  constructor
  · intro hfreed
    by_contra hne
    have hkept := (h.cow.release_shared f (by omega)).1
    exact Bool.false_ne_true (hkept.symm.trans hfreed)
  · intro hone
    exact (h.cow.release_last f (by omega)).1

theorem Exact.framesOwned (h : Exact [] m) : FramesOwned m where
  counted f hf := h.refcount_of_used hf
  last f hf := h.release_true_iff hf
  free f hf := by
    have hunused := h.free f hf
    unfold uses cacheCount at hunused
    refine ⟨by omega, ?_⟩
    cases hcached : m.cached f with
    | none => rfl
    | some shared =>
      simp only [hcached, isSome_some, if_true] at hunused
      omega
  exclusive k k' pte pte' hk hk' hframe hw hw' := by
    by_cases hshared : m.cached pte.frame = some true
    · exact .inr hshared
    refine .inl (key_unique (h.single _ hshared) hk ?_ hk' ?_)
    · simp [hw]
    · simp [hframe, hw']

/-- In every reachable state the reference count of a frame in use is the number of entries
that map it, plus one if the file cache keeps it. So a frame is freed with its last reference
only, a free frame is not in use, and no frame can be written through two pages unless it
belongs to a shared file mapping. -/
theorem frames_owned {frames : List Frame} (hnodup : frames.Nodup) (bytes : Frame → ℕ → UInt8)
    (ops : List Op) : FramesOwned (runAll step (boot frames bytes) ops) :=
  (runAll_induct (exact_boot hnodup bytes) (fun _ _ _ h hstep => h.of_step hstep) ops).framesOwned

/-- A page that is shared and then copied by its second owner. -/
theorem frames_owned_copied : ([0, 1] : List Frame).Nodup ∧
      FramesOwned (runAll step (boot [0, 1] fun _ _ => 0)
        [.map 0 0 1 true false fun _ => false, .share 0 1 0 1 true false fun _ => false,
          .breakCow 1 0]) :=
  ⟨by decide, frames_owned (by decide) _ _⟩

end Memory

end WovenHat.Paging
