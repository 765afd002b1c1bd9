import WovenHat.Library.KeyedCount
import WovenHat.Verification.Paging.CowTable

/-! # References to frames

The reference count of a frame is the number of page-table entries that map it, plus one if
the file cache keeps it. While an operation is under way it also holds references of its
own: to a frame that it has allocated and not mapped yet, or has unmapped and not released
yet. -/

namespace WovenHat.Paging

open Library List

namespace CowTable

variable {t : CowTable} {frame : Frame} {n : ℕ}

theorem Ok.entry_pos (h : t.Ok) (hentry : t.entry frame = some n) : 0 < n := by
  have hpos := refcount_pos h frame
  rw [refcount_eq, hentry] at hpos
  exact hpos

end CowTable

namespace FrameAllocator

/-- The frames that can be handed out. -/
def free (a : FrameAllocator) : List Frame :=
  a.reclaimed ++ a.fresh

variable {a : FrameAllocator} {frame : Frame} {a' : FrameAllocator}

theorem allocate_some (h : a.allocate = some (frame, a')) : a.free = frame :: a'.free := by
  unfold allocate at h
  unfold free
  split at h
  · rename_i heq
    cases h
    rw [heq]
    rfl
  · rename_i hreclaimed hfresh
    cases h
    simp [hreclaimed, hfresh]
  · cases h

theorem deallocate_free (a : FrameAllocator) (frame : Frame) :
    (a.deallocate frame).2.free = a.free ∨
      (a.deallocate frame).2.free = frame :: a.free ∧ frame ∉ a.reclaimed := by
  unfold deallocate
  split
  · exact .inl rfl
  · rename_i h
    exact .inr ⟨rfl, fun hmem => h (.inr (.inr (.inr hmem)))⟩

theorem deallocate_refused (h : (a.deallocate frame).1 = false) : (a.deallocate frame).2 = a := by
  unfold deallocate at h ⊢
  split at h
  · rename_i hcond
    rw [if_pos hcond]
  · cases h

theorem allocate_usable (h : a.allocate = some (frame, a')) :
    a'.usable = a.usable ∧ a'.allocatedFrames = a.allocatedFrames + 1 := by
  unfold allocate at h
  split at h
  · cases h
    exact ⟨rfl, rfl⟩
  · cases h
    exact ⟨rfl, rfl⟩
  · cases h

theorem free_of_allocate_none (h : a.allocate = none) : a.free = [] := by
  unfold allocate at h
  unfold free
  split at h
  · cases h
  · cases h
  rename_i hreclaimed hfresh
  rw [hreclaimed, hfresh]
  rfl

theorem deallocate_taken (h : (a.deallocate frame).1 = true) : (a.deallocate frame).2 = { a with
      reclaimed := frame :: a.reclaimed, allocatedFrames := a.allocatedFrames - 1 } := by
  unfold deallocate at h ⊢
  split at h
  · cases h
  · rename_i hcond
    rw [if_neg hcond]

end FrameAllocator

namespace Memory

variable {m m' : Memory} {held : List Frame} {f g frame : Frame} {k : Space × Page} {pte pte' : Pte}

def mapCount (m : Memory) (f : Frame) : ℕ :=
  valueCount (fun pte => pte.frame == f) m.tables

def writableCount (m : Memory) (f : Frame) : ℕ :=
  valueCount (fun pte => pte.frame == f && pte.writable) m.tables

def cacheCount (m : Memory) (f : Frame) : ℕ :=
  if (m.cached f).isSome then 1 else 0

/-- The references to a frame, with those that the operation holds. -/
def uses (held : List Frame) (m : Memory) (f : Frame) : ℕ :=
  m.mapCount f + m.cacheCount f + held.count f

/-- Reference counts are exact, while the operation under way holds `held`. -/
structure Exact (held : List Frame) (m : Memory) : Prop where
  cow : m.cow.Ok
  absent : ∀ f, m.cow.entry f = none → m.uses held f ≤ 1
  present : ∀ f n, m.cow.entry f = some n → m.uses held f = n
  nodup : m.allocator.free.Nodup
  free : ∀ f ∈ m.allocator.free, m.uses held f = 0
  single : ∀ f, m.cached f ≠ some true → m.writableCount f ≤ 1

namespace Exact

theorem entry_of_unused (h : Exact held m) (hf : m.uses held f = 0) : m.cow.entry f = none := by
  cases hentry : m.cow.entry f with
  | none => rfl
  | some n =>
    have hpos := h.cow.entry_pos hentry
    have heq := h.present f n hentry
    omega

theorem refcount_of_used (h : Exact held m) (hf : 0 < m.uses held f) :
    m.cow.refcount f = m.uses held f := by
  rw [CowTable.refcount_eq]
  cases hentry : m.cow.entry f with
  | none =>
    have hle := h.absent f hentry
    change 1 = _
    omega
  | some n => exact (h.present f n hentry).symm

theorem not_free_of_used (h : Exact held m) (hf : 0 < m.uses held f) : f ∉ m.allocator.free :=
  fun hmem => by
    have := h.free f hmem
    omega

theorem setBytes (h : Exact held m) (bytes : Frame → ℕ → UInt8) : Exact held { m with bytes } :=
  ⟨h.cow, h.absent, h.present, h.nodup, h.free, h.single⟩

end Exact

theorem uses_cons (held : List Frame) (m : Memory) (f g : Frame) :
    m.uses (f :: held) g = m.uses held g + if f = g then 1 else 0 := by
  rw [uses, uses, count_cons]
  by_cases h : f = g
  · simp [h, Nat.add_assoc]
  · simp [h]

theorem uses_cons_self (held : List Frame) (m : Memory) (f : Frame) :
    m.uses (f :: held) f = m.uses held f + 1 := by
  rw [uses_cons, if_pos rfl]

theorem uses_cons_of_ne (held : List Frame) (m : Memory) (h : f ≠ g) :
    m.uses (f :: held) g = m.uses held g := by
  rw [uses_cons, if_neg h, Nat.add_zero]

theorem writableCount_le_mapCount (m : Memory) (f : Frame) : m.writableCount f ≤ m.mapCount f := by
  apply countP_mono_left
  intro e _ he
  exact (Bool.and_eq_true_iff.mp he).1

theorem mapCount_le_uses (held : List Frame) (m : Memory) (f : Frame) :
    m.mapCount f ≤ m.uses held f := by
  unfold uses
  omega

/-! ## Allocating and releasing -/

theorem Exact.allocate (h : Exact held m) {allocator : FrameAllocator}
    (ha : m.allocator.allocate = some (f, allocator)) :
    m.uses held f = 0 ∧ Exact (f :: held) { m with allocator } := by
  have hfree := FrameAllocator.allocate_some ha
  have hunused : m.uses held f = 0 := h.free f (by rw [hfree]; exact mem_cons_self)
  have hnodup := h.nodup
  rw [hfree, nodup_cons] at hnodup
  refine ⟨hunused, h.cow, fun g hg => ?_, fun g n hg => ?_, hnodup.2, fun g hg => ?_, h.single⟩
  · change m.uses (f :: held) g ≤ 1
    by_cases hfg : f = g
    · subst hfg
      rw [uses_cons_self, hunused]
    · rw [uses_cons_of_ne held m hfg]
      exact h.absent g hg
  · change m.uses (f :: held) g = n
    have hfg : f ≠ g := by
      rintro rfl
      rw [h.entry_of_unused hunused] at hg
      cases hg
    rw [uses_cons_of_ne held m hfg]
    exact h.present g n hg
  · change m.uses (f :: held) g = 0
    have hfg : f ≠ g := by
      rintro rfl
      exact hnodup.1 hg
    rw [uses_cons_of_ne held m hfg]
    exact h.free g (by rw [hfree]; exact mem_cons_of_mem _ hg)

theorem Exact.deallocate (h : Exact held m) (hf : m.uses held f = 0) (hfree : f ∉ m.allocator.free)
    : Exact held { m with allocator := (m.allocator.deallocate f).2 } := by
  refine ⟨h.cow, h.absent, h.present, ?_, fun g hg => ?_, h.single⟩
  · rcases m.allocator.deallocate_free f with heq | ⟨heq, _⟩
    · exact heq ▸ h.nodup
    · rw [heq, nodup_cons]
      exact ⟨hfree, h.nodup⟩
  rcases m.allocator.deallocate_free f with heq | ⟨heq, _⟩
  · exact h.free g (heq ▸ hg)
  rw [heq] at hg
  rcases mem_cons.mp hg with rfl | hg
  · exact hf
  · exact h.free g hg

variable {cow : CowTable}

/-- The count of one frame in use is changed, together with the references held to it. -/
theorem Exact.setCow (h : Exact held m) (held' : List Frame) (hok : cow.Ok)
    (hother : ∀ g, g ≠ f → cow.entry g = m.cow.entry g)
    (hheld : ∀ g, g ≠ f → m.uses held' g = m.uses held g)
    (habsent : cow.entry f = none → m.uses held' f ≤ 1)
    (hpresent : ∀ n, cow.entry f = some n → m.uses held' f = n)
    (hfree : f ∉ m.allocator.free) : Exact held' { m with cow } := by
  refine ⟨hok, fun g hg => ?_, fun g n hg => ?_, h.nodup, fun g hg => ?_, h.single⟩
  · change m.uses held' g ≤ 1
    by_cases hgf : g = f
    · subst hgf
      exact habsent hg
    · rw [hheld g hgf]
      exact h.absent g ((hother g hgf).symm.trans hg)
  · change m.uses held' g = n
    by_cases hgf : g = f
    · subst hgf
      exact hpresent n hg
    · rw [hheld g hgf]
      exact h.present g n ((hother g hgf).symm.trans hg)
  · change m.uses held' g = 0
    have hgf : g ≠ f := by
      rintro rfl
      exact hfree hg
    rw [hheld g hgf]
    exact h.free g hg

theorem Exact.share (h : Exact held m) (hf : 0 < m.uses held f)
    (hshare : m.cow.share f = some cow) : Exact (f :: held) { m with cow } := by
  obtain ⟨hok, hentry, hother⟩ := h.cow.share hshare
  rw [h.refcount_of_used hf] at hentry
  refine h.setCow (f :: held) hok hother (fun g hg => ?_) (fun hnone => ?_) (fun n hn => ?_)
    (h.not_free_of_used hf)
  · exact uses_cons_of_ne held m (Ne.symm hg)
  · exact absurd (hentry.symm.trans hnone) (Option.some_ne_none _)
  · rw [uses_cons_self]
    exact Option.some.inj (hentry.symm.trans hn)

/-- `CowTable::release` takes a reference from the operation, and says whether it was the
last one. -/
theorem Exact.release (h : Exact (f :: held) m) : Exact held { m with cow := (m.cow.release f).2 } ∧
      ((m.cow.release f).1 = true ↔ m.uses held f = 0) := by
  have hself := uses_cons_self held m f
  have hused : 0 < m.uses (f :: held) f := by omega
  have hcount := h.refcount_of_used hused
  have hheld : ∀ g, g ≠ f → m.uses held g = m.uses (f :: held) g := fun g hg =>
    (uses_cons_of_ne held m (Ne.symm hg)).symm
  by_cases hlast : m.uses held f = 0
  · obtain ⟨hfree, hok, hentry, hother⟩ := h.cow.release_last f (by omega)
    refine ⟨h.setCow held hok hother hheld (fun _ => by omega) (fun n hn => ?_)
      (h.not_free_of_used hused), iff_of_true hfree hlast⟩
    rw [hentry] at hn
    cases hn
  · obtain ⟨hfree, hok, hentry, hother⟩ := h.cow.release_shared f (by omega)
    refine ⟨h.setCow held hok hother hheld (fun hnone => ?_) (fun n hn => ?_)
      (h.not_free_of_used hused), iff_of_false (by rw [hfree]; simp) hlast⟩
    · exact absurd (hentry.symm.trans hnone) (Option.some_ne_none _)
    · have hn' := Option.some.inj (hentry.symm.trans hn)
      omega

theorem Exact.releaseFrame (h : Exact (f :: held) m) : Exact held (m.releaseFrame f).2 := by
  have hused : 0 < m.uses (f :: held) f := by
    rw [uses_cons_self]
    omega
  have hfree := h.not_free_of_used hused
  obtain ⟨hrelease, hlast⟩ := h.release
  unfold Memory.releaseFrame
  generalize m.cow.release f = released at hrelease hlast ⊢
  obtain ⟨freed, cow⟩ := released
  cases freed with
  | false => exact hrelease
  | true => exact hrelease.deallocate (hlast.mp rfl) hfree

/-! ## Mapping and unmapping -/

theorem uses_insert (held : List Frame) (hk : m.tables.lookup k = none) (pte : Pte) (g : Frame) :
    uses held { m with tables := m.tables.insert k pte } g = m.uses (pte.frame :: held) g := by
  rw [uses_cons]
  have hcount := valueCount_insert_of_none (fun e => e.frame == g) hk pte
  unfold uses mapCount cacheCount
  rw [hcount]
  unfold indicator
  by_cases h : pte.frame = g
  · simp only [h, beq_self_eq_true, if_true]
    omega
  · simp only [beq_eq_false_iff_ne.mpr h, h, if_false, Bool.false_eq_true]
    omega

theorem uses_erase (held : List Frame) (hk : m.tables.lookup k = some pte) (g : Frame) :
    uses (pte.frame :: held) { m with tables := m.tables.erase k } g = m.uses held g := by
  rw [uses_cons]
  have hcount := valueCount_erase (fun e => e.frame == g) hk
  unfold uses mapCount cacheCount
  rw [← hcount]
  unfold indicator
  by_cases h : pte.frame = g
  · simp only [h, beq_self_eq_true, if_true]
    omega
  · simp only [beq_eq_false_iff_ne.mpr h, h, if_false, Bool.false_eq_true]
    omega

theorem mapCount_replace (hk : m.tables.lookup k = some pte) (hframe : pte'.frame = pte.frame)
    (g : Frame) : mapCount { m with tables := m.tables.insert k pte' } g = m.mapCount g := by
  have hcount := valueCount_replace (fun e => e.frame == g) hk pte'
  have hsame : indicator (fun e : Pte => e.frame == g) pte' =
      indicator (fun e : Pte => e.frame == g) pte := by
    simp only [indicator, hframe]
  unfold mapCount
  dsimp only
  omega

theorem Exact.congr (h : Exact held m) {held' : List Frame}
    {tables : AList fun _ : Space × Page => Pte}
    (huses : ∀ g, uses held' { m with tables } g = m.uses held g)
    (hsingle : ∀ g, m.cached g ≠ some true → writableCount { m with tables } g ≤ 1) :
    Exact held' { m with tables } where
  cow := h.cow
  absent g hg := (huses g).trans_le (h.absent g hg)
  present g n hg := (huses g).trans (h.present g n hg)
  nodup := h.nodup
  free g hg := (huses g).trans (h.free g hg)
  single := hsingle

/-- A frame in hand is mapped. It is mapped for writing only where no other entry allows it,
or as a shared file page. -/
theorem Exact.insert (pte : Pte) (h : Exact (pte.frame :: held) m) (hk : m.tables.lookup k = none)
    (hw : pte.writable = true → m.cached pte.frame = some true ∨ m.writableCount pte.frame = 0) :
    Exact held { m with tables := m.tables.insert k pte } := by
  refine h.congr (fun g => uses_insert held hk pte g) fun g hg => ?_
  have hcount := valueCount_insert_of_none (fun e => e.frame == g && e.writable) hk pte
  have hle := indicator_le_one (fun e : Pte => e.frame == g && e.writable) pte
  have hbefore := h.single g hg
  unfold writableCount at hbefore ⊢
  rw [hcount]
  by_cases hpte : pte.frame = g ∧ pte.writable = true
  · obtain ⟨rfl, hwritable⟩ := hpte
    have hzero := (hw hwritable).resolve_left hg
    unfold writableCount at hzero
    omega
  · have hnone : indicator (fun e : Pte => e.frame == g && e.writable) pte = 0 := by
      apply indicator_of_not
      simpa using hpte
    omega

theorem Exact.erase (h : Exact held m) (hk : m.tables.lookup k = some pte) :
    Exact (pte.frame :: held) { m with tables := m.tables.erase k } := by
  refine h.congr (fun g => uses_erase held hk g) fun g hg => ?_
  have hcount := valueCount_erase (fun e => e.frame == g && e.writable) hk
  have hbefore := h.single g hg
  unfold writableCount at hbefore ⊢
  dsimp only
  omega

/-- An entry is changed to map a frame in hand, and the old frame is in hand instead. -/
theorem Exact.exchange (pte' : Pte) (h : Exact (pte'.frame :: held) m)
    (hk : m.tables.lookup k = some pte) (hw : m.writableCount pte'.frame = 0) :
    Exact (pte.frame :: held) { m with tables := m.tables.insert k pte' } := by
  refine h.congr (fun g => ?_) fun g hg => ?_
  · have hcount := valueCount_replace (fun e => e.frame == g) hk pte'
    rw [uses_cons, uses_cons]
    unfold uses mapCount cacheCount
    unfold indicator at hcount
    simp only [beq_iff_eq] at hcount ⊢
    omega
  · have hcount := valueCount_replace (fun e => e.frame == g && e.writable) hk pte'
    have hle := indicator_le_one (fun e : Pte => e.frame == g && e.writable) pte'
    have hbefore := h.single g hg
    unfold writableCount at hbefore hw ⊢
    dsimp only
    by_cases hpte : pte'.frame = g
    · subst hpte
      omega
    have hnone : indicator (fun e : Pte => e.frame == g && e.writable) pte' = 0 := by
      apply indicator_of_not
      simp [hpte]
    omega

theorem Exact.replace (pte' : Pte) (h : Exact held m) (hk : m.tables.lookup k = some pte)
    (hframe : pte'.frame = pte.frame) (hw : pte'.writable = true → m.mapCount pte.frame ≤ 1) :
    Exact held { m with tables := m.tables.insert k pte' } := by
  refine h.congr (fun g => ?_) fun g hg => ?_
  · rw [uses, mapCount_replace hk hframe]
    rfl
  by_cases hpte : pte.frame = g ∧ pte'.writable = true
  · obtain ⟨rfl, hwritable⟩ := hpte
    have hmap := mapCount_replace hk hframe pte.frame
    have hle := writableCount_le_mapCount { m with tables := m.tables.insert k pte' } pte.frame
    have hone := hw hwritable
    omega
  have hcount := valueCount_replace (fun e => e.frame == g && e.writable) hk pte'
  have hnone : indicator (fun e : Pte => e.frame == g && e.writable) pte' = 0 := by
    apply indicator_of_not
    rw [hframe]
    simpa using hpte
  have hbefore := h.single g hg
  unfold writableCount at hbefore ⊢
  dsimp only
  omega

end Memory

end WovenHat.Paging
