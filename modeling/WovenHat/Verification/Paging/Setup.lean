import WovenHat.Verification.Paging.Fork

/-! # Mapping and unmapping pages

The calls other than sharing keep the frames of writable private pages to themselves. -/

namespace WovenHat.Paging

open Library Function List AList Memory

namespace Memory

variable {m m' : Memory} {k : Space × Page} {pte : Pte} {f : Frame}

/-- Mapped pages stay mapped, with their contents. -/
structure Extends (m m' : Memory) : Prop where
  lookup : ∀ k pte, m.tables.lookup k = some pte → m'.tables.lookup k = some pte
  bytes : ∀ k pte, m.tables.lookup k = some pte → m'.bytes pte.frame = m.bytes pte.frame
  cached : ∀ k pte, m.tables.lookup k = some pte → m'.cached pte.frame = m.cached pte.frame

theorem Extends.cells (h : Extends m m') {cell : Cell}
    (hk : m.eager.cells k = some cell) : m'.eager.cells k = some cell := by
  obtain ⟨pte, hpte, rfl⟩ := Option.map_eq_some_iff.mp hk
  rw [eager_cells (h.lookup k pte hpte)]
  unfold cell
  rw [h.cached k pte hpte, h.bytes k pte hpte]

theorem extends_insert (hk : m.tables.lookup k = none) (htables : m'.tables = m.tables.insert k pte)
    (hbytes : ∀ k pte, m.tables.lookup k = some pte → m'.bytes pte.frame = m.bytes pte.frame)
    (hcached : m'.cached = m.cached) : Extends m m' where
  lookup k' pte' hk' := by
    have hne : k' ≠ k := by
      rintro rfl
      cases hk.symm.trans hk'
    rw [htables, lookup_insert_ne hne]
    exact hk'
  bytes := hbytes
  cached _ _ _ := congrFun hcached _

theorem extends_of_tables (htables : m'.tables = m.tables) (hbytes : m'.bytes = m.bytes)
    (hcached : ∀ k pte, m.tables.lookup k = some pte →
      m'.cached pte.frame = m.cached pte.frame) : Extends m m' where
  lookup _ _ hk := htables ▸ hk
  bytes _ _ _ := congrFun hbytes _
  cached := hcached

theorem frame_ne_of_unused (h : m.mapCount f = 0)
    (hk : m.tables.lookup k = some pte) : pte.frame ≠ f := by
  rintro rfl
  have hpos := mapCount_pos hk
  omega

theorem mapCount_of_allocate (h : Exact [] m) {allocator : FrameAllocator}
    (ha : m.allocator.allocate = some (f, allocator)) : m.mapCount f = 0 := by
  have hunused := (h.allocate ha).1
  have hle := mapCount_le_uses [] m f
  omega

/-! ## New frames -/

theorem Private.insertFresh (pte : Pte) (h : Private m) (hexact : Exact [] m')
    (hk : m.tables.lookup k = none) (hunused : m.uses [] pte.frame = 0)
    (htables : m'.tables = m.tables.insert k pte) (hcached : m'.cached = m.cached) :
    Private m' := by
  have huses := uses_inserted hk htables hcached
  have hother : ∀ k' pte', k' ≠ k → m'.tables.lookup k' = some pte' →
      m.tables.lookup k' = some pte' := by
    intro k' pte' hne hk'
    rwa [htables, lookup_insert_ne hne] at hk'
  refine ⟨hexact, fun k' pte' hk' hw hown => ?_, fun k' pte' hk' hfile => ?_⟩
  · rw [hcached] at hown
    rw [huses]
    by_cases hkk : k' = k
    · subst hkk
      rw [htables, lookup_insert] at hk'
      cases hk'
      rw [hunused, if_pos rfl]
    have hbefore := hother k' pte' hkk hk'
    have hne : pte.frame ≠ pte'.frame := by
      intro heq
      have hpos : 0 < m.uses [] pte'.frame := uses_pos hbefore
      rw [heq] at hunused
      omega
    rw [if_neg hne]
    exact h.alone k' pte' hbefore hw hown
  · rw [hcached] at hfile
    by_cases hkk : k' = k
    · subst hkk
      rw [htables, lookup_insert] at hk'
      cases hk'
      rw [not_cached_of_unused hunused] at hfile
      cases hfile
    · exact h.file k' pte' (hother k' pte' hkk hk') hfile

theorem mapPage_cases (h : Exact [] m) {space : Space} {page : Page}
    {writable executable fails : Bool} {r : Bool × Memory}
    (hr : m.mapPage space page writable executable fails = r) : (r.1 = false ∧ Same m r.2) ∨
      m.tables.lookup (space, page) = none ∧ r.1 = true ∧ r.2.cached = m.cached ∧
        ∃ frame, m.uses [] frame = 0 ∧
          r.2.tables = m.tables.insert (space, page) ⟨frame, writable, executable⟩ := by
  subst hr
  unfold mapPage
  split
  · exact .inl ⟨rfl, rfl, rfl, rfl⟩
  rename_i hfree
  have hk : m.tables.lookup (space, page) = none := by simpa using hfree
  cases ha : m.allocator.allocate with
  | none => exact .inl ⟨rfl, rfl, rfl, rfl⟩
  | some result =>
    cases fails with
    | true => exact .inl ⟨rfl, rfl, rfl, rfl⟩
    | false => exact .inr ⟨hk, rfl, rfl, result.1, (h.allocate ha).1, rfl⟩

theorem foldl_unmapFresh (m : Memory) (space : Space) (start : Page) (pages : List ℕ) :
    (∀ k pte, (pages.foldl (fun m i => m.unmapFresh space (start + i)) m).tables.lookup k =
        some pte → m.tables.lookup k = some pte ∧ ∀ i ∈ pages, k ≠ (space, start + i)) ∧
      (∀ g, (pages.foldl (fun m i => m.unmapFresh space (start + i)) m).uses [] g ≤ m.uses [] g) ∧
      (pages.foldl (fun m i => m.unmapFresh space (start + i)) m).cached = m.cached := by
  induction pages generalizing m with
  | nil => exact ⟨fun _ _ hk => ⟨hk, nofun⟩, fun _ => le_rfl, rfl⟩
  | cons i pages ih =>
    obtain ⟨hsub, huses, hcached⟩ := ih (m.unmapFresh space (start + i))
    rw [foldl_cons]
    have hone : (∀ k pte, (m.unmapFresh space (start + i)).tables.lookup k = some pte →
          m.tables.lookup k = some pte ∧ k ≠ (space, start + i)) ∧
        (∀ g, (m.unmapFresh space (start + i)).uses [] g ≤ m.uses [] g) ∧
        (m.unmapFresh space (start + i)).cached = m.cached := by
      unfold unmapFresh
      cases hk : m.tables.lookup (space, start + i) with
      | none =>
        refine ⟨fun k pte hpte => ⟨hpte, ?_⟩, fun _ => le_rfl, rfl⟩
        rintro rfl
        rw [hk] at hpte
        cases hpte
      | some pte =>
        refine ⟨fun k pte' hpte => ?_, fun g => ?_, rfl⟩
        · by_cases hkk : k = (space, start + i)
          · subst hkk
            rw [lookup_erase] at hpte
            cases hpte
          · exact ⟨(lookup_erase_ne hkk).symm.trans hpte, hkk⟩
        · have herase := uses_erase [] hk g
          rw [uses_cons] at herase
          unfold uses mapCount cacheCount at herase ⊢
          dsimp only at herase ⊢
          omega
    refine ⟨fun k pte hpte => ?_, fun g => (huses g).trans (hone.2.1 g), hcached.trans hone.2.2⟩
    obtain ⟨hstep, hne⟩ := hsub k pte hpte
    obtain ⟨hbefore, hhead⟩ := hone.1 k pte hstep
    exact ⟨hbefore, forall_mem_cons.mpr ⟨hhead, hne⟩⟩

/-- The pages that `map_user_range_in` maps, with the given permission. -/
structure MapsRange (space : Space) (start : Page) (size : ℕ) (writable : Bool) (m m' : Memory) :
    Prop where
  other : ∀ k, (∀ i < size, k ≠ (space, start + i)) → m'.tables.lookup k = m.tables.lookup k
  mapped : ∀ i < size, ∀ pte, m'.tables.lookup (space, start + i) = some pte →
    pte.writable = writable

theorem Private.mapUserRange (h : Private m) {space : Space} {start : Page} {size : ℕ}
    {writable executable : Bool} {fails : ℕ → Bool} {r : Bool × Memory}
    (hr : m.mapUserRange space start size writable executable fails = r) :
    Private r.2 ∧ (r.1 = false → WritableIn m r.2) ∧
      (r.1 = true → MapsRange space start size writable m r.2) := by
  subst hr
  unfold Memory.mapUserRange
  split
  · exact ⟨h, fun _ => .refl m, nofun⟩
  refine forPages_spec (m := m)
    (P := fun i m' => Private m' ∧ (∀ j < i, Solo m' (space, start + j)) ∧
      MapsRange space start i writable m m')
    (Q := fun ok m' => Private m' ∧ (ok = false → WritableIn m m') ∧
      (ok = true → MapsRange space start size writable m m'))
    (fun i m' hi hP hok => ?_) (fun i m' hi hP hko => ?_) (fun m' hP => ?_) size 0
    (Nat.zero_add size)
    ⟨h, fun _ hj => absurd hj (Nat.not_lt_zero _), fun _ _ => rfl,
      fun _ hi => absurd hi (Nat.not_lt_zero _)⟩
  · obtain ⟨hprivate, hsolo, hmaps⟩ := hP
    obtain ⟨hexact, hnew, hkept⟩ :=
      hprivate.exact.mapPage space (start + i) writable executable (fails i)
    obtain ⟨hfail, -⟩ | ⟨hk, -, hcached, frame, hunused, htables⟩ :=
      mapPage_cases hprivate.exact rfl
    · rw [hok] at hfail
      cases hfail
    refine ⟨Private.insertFresh _ hprivate hexact hk hunused htables hcached, fun j hj => ?_,
      fun k hne => ?_, fun j hj pte hpte => ?_⟩
    · by_cases hji : j = i
      · subst hji
        exact hnew hok
      · exact hkept _ (by simpa using hji) (hsolo j (by omega))
    · rw [htables, lookup_insert_ne (hne i (Nat.lt_succ_self i))]
      exact hmaps.other k fun j hj => hne j (by omega)
    rw [htables] at hpte
    by_cases hji : j = i
    · subst hji
      rw [lookup_insert] at hpte
      cases hpte
      rfl
    · rw [lookup_insert_ne (by simpa using hji)] at hpte
      exact hmaps.mapped j (by omega) pte hpte
  · obtain ⟨hprivate, hsolo, hmaps⟩ := hP
    obtain ⟨hexact, -, hkept⟩ :=
      hprivate.exact.mapPage space (start + i) writable executable (fails i)
    have hundone : Exact [] _ := hexact.undo space start (range i) nodup_range
      fun j hj => hkept _ (by simp [(mem_range.mp hj).ne]) (hsolo j (mem_range.mp hj))
    obtain ⟨-, hsame⟩ | ⟨-, hfail, -⟩ := mapPage_cases hprivate.exact rfl
    swap
    · rw [hko] at hfail
      cases hfail
    obtain ⟨hprivate', -, -⟩ := hprivate.of_same hexact hsame
    obtain ⟨hsub, huses, hcached'⟩ := foldl_unmapFresh
      (m'.mapPage space (start + i) writable executable (fails i)).2 space start (range i)
    refine ⟨hprivate'.mono hundone (fun k pte hpte => (hsub k pte hpte).1) huses hcached',
      fun _ => .of_subset fun k pte hpte => ?_, nofun⟩
    obtain ⟨hbefore, hne⟩ := hsub k pte hpte
    rw [hsame.tables] at hbefore
    rw [← hmaps.other k fun j hj => hne j (mem_range.mpr hj)]
    exact hbefore
  · exact ⟨hP.1, nofun, fun _ => hP.2.2⟩

/-! ## Swapped pages -/

theorem Private.mapPrivateFrameFromBytes (h : Private m) (space : Space) (page : Page)
    (bytes : ℕ → UInt8) (writable fails : Bool) :
    let m' := (m.mapPrivateFrameFromBytes space page bytes writable fails).2
    Private m' ∧ Extends m m' ∧ ∀ k pte, m'.tables.lookup k = some pte →
      m.tables.lookup k = some pte ∨ k = (space, page) ∧ pte.writable = writable := by
  have hexact := h.exact.mapPrivateFrameFromBytes space page bytes writable fails
  unfold Memory.mapPrivateFrameFromBytes at hexact ⊢
  cases ha : m.allocator.allocate with
  | none => exact ⟨h, extends_of_tables rfl rfl fun _ _ _ => rfl, fun _ _ hk => .inl hk⟩
  | some result =>
    obtain ⟨frame, allocator⟩ := result
    have hbytes : ∀ k pte, m.tables.lookup k = some pte →
        update m.bytes frame bytes pte.frame = m.bytes pte.frame := fun k pte hk =>
      update_of_ne (frame_ne_of_unused (mapCount_of_allocate h.exact ha) hk) _ _
    rw [ha] at hexact
    dsimp only at hexact ⊢
    split at hexact
    · rename_i hmapped
      rw [if_pos hmapped]
      exact ⟨h.mono hexact (fun _ _ hk => hk) (fun _ => le_rfl) rfl,
        extends_of_tables rfl rfl fun _ _ _ => rfl, fun _ _ hk => .inl hk⟩
    rename_i hfree
    rw [if_neg hfree]
    have hk : m.tables.lookup (space, page) = none := by simpa using hfree
    split at hexact
    · rename_i hfails
      rw [if_pos hfails]
      exact ⟨h.mono hexact (fun _ _ hk => hk) (fun _ => le_rfl) rfl,
        ⟨fun _ _ hk => hk, hbytes, fun _ _ _ => rfl⟩, fun _ _ hk => .inl hk⟩
    rename_i hfails
    rw [if_neg hfails]
    refine ⟨Private.insertFresh ⟨frame, writable, false⟩ h hexact hk
      (h.exact.allocate ha).1 rfl rfl, extends_insert hk rfl hbytes rfl, fun k pte hpte => ?_⟩
    by_cases hkk : k = (space, page)
    · subst hkk
      rw [lookup_insert] at hpte
      cases hpte
      exact .inr ⟨rfl, rfl⟩
    · exact .inl ((lookup_insert_ne hkk).symm.trans hpte)

theorem mapFile_extends (m : Memory) (space : Space) (page : Page) (frame : Frame)
    (writable fails : Bool) : Extends m (m.mapFileFrame space page frame writable fails).2 := by
  obtain ⟨-, hsame⟩ | ⟨hk, -, hcached, hbytes, htables⟩ := mapFileFrame_cases rfl
  · exact extends_of_tables hsame.tables hsame.bytes fun _ _ _ => congrFun hsame.cached _
  · exact extends_insert hk htables (fun _ _ _ => congrFun hbytes _) hcached

/-! ## Unmapping -/

theorem unmapPage_eq (m : Memory) (space : Space) (page : Page) :
    (m.unmapPage space page).2 = m.unmapShared space page := by
  unfold unmapPage unmapShared
  split <;> rfl

theorem Private.unmapUserRange (h : Private m) (space : Space) (start : Page) (size : ℕ) :
    Private (m.unmapUserRange space start size).2 ∧
      WritableIn m (m.unmapUserRange space start size).2 := by
  unfold Memory.unmapUserRange
  split
  · exact ⟨h, .refl m⟩
  have hpage : ∀ i m', Private m' ∧ WritableIn m m' →
      Private (m'.unmapPage space (start + i)).2 ∧
        WritableIn m (m'.unmapPage space (start + i)).2 := by
    intro i m' hm'
    rw [unmapPage_eq]
    obtain ⟨hprivate, hin⟩ := hm'.1.unmapShared space (start + i)
    exact ⟨hprivate, hm'.2.trans hin⟩
  refine forPages_induct (P := fun _ m' => Private m' ∧ WritableIn m m')
    (fun i m' hm' _ => hpage i m' hm') (fun i m' hm' _ => ?_) (fun _ _ hm' => hm') size 0
    ⟨h, .refl m⟩
  rw [foldl_fixed]
  exact hpage i m' hm'

theorem Private.destroyUserAddressSpace (h : Private m) (space : Space) (ranges : List (Page × ℕ)) :
    Private (m.destroyUserAddressSpace space ranges).2 ∧
      WritableIn m (m.destroyUserAddressSpace space ranges).2 := by
  induction ranges generalizing m with
  | nil => exact ⟨h, .refl m⟩
  | cons range ranges ih =>
    obtain ⟨hprivate, hin⟩ := h.unmapUserRange space range.1 range.2
    rw [destroyUserAddressSpace]
    generalize m.unmapUserRange space range.1 range.2 = result at hprivate hin ⊢
    obtain ⟨ok, m'⟩ := result
    cases ok with
    | true => exact ⟨(ih hprivate).1, hin.trans (ih hprivate).2⟩
    | false => exact ⟨hprivate, hin⟩

/-! ## The file cache -/

/-- The cache takes or gives up a frame that no page is mapped to. -/
theorem Private.setCached (h : Private m) (hexact : Exact [] m') (hmap : m.mapCount f = 0)
    (htables : m'.tables = m.tables) (hcached : ∀ g, g ≠ f → m'.cached g = m.cached g) :
    Private m' := by
  have hframe : ∀ k pte, m'.tables.lookup k = some pte →
      m.tables.lookup k = some pte ∧ pte.frame ≠ f := by
    intro k pte hk
    rw [htables] at hk
    exact ⟨hk, frame_ne_of_unused hmap hk⟩
  refine ⟨hexact, fun k pte hk hw hown => ?_, fun k pte hk hfile => ?_⟩
  · obtain ⟨hbefore, hne⟩ := hframe k pte hk
    rw [hcached _ hne] at hown
    rw [uses, mapCount, cacheCount, htables, hcached _ hne]
    exact h.alone k pte hbefore hw hown
  · obtain ⟨hbefore, hne⟩ := hframe k pte hk
    rw [hcached _ hne] at hfile
    exact h.file k pte hbefore hfile

theorem Private.allocateFileFrame (h : Private m) (bytes : ℕ → UInt8) (shared : Bool) :
    let m' := (m.allocateFileFrame bytes shared).2
    Private m' ∧ Extends m m' ∧ m'.tables = m.tables := by
  have hexact := h.exact.allocateFileFrame bytes shared
  unfold Memory.allocateFileFrame at hexact ⊢
  cases ha : m.allocator.allocate with
  | none => exact ⟨h, extends_of_tables rfl rfl fun _ _ _ => rfl, rfl⟩
  | some result =>
    obtain ⟨frame, allocator⟩ := result
    rw [ha] at hexact
    have hmap := mapCount_of_allocate h.exact ha
    have hne {k : Space × Page} {pte : Pte} (hk : m.tables.lookup k = some pte) :=
      frame_ne_of_unused hmap hk
    exact ⟨h.setCached (f := frame) hexact hmap rfl fun g hg => update_of_ne hg _ _,
      ⟨fun _ _ hk => hk, fun _ _ hk => update_of_ne (hne hk) _ _,
        fun _ _ hk => update_of_ne (hne hk) _ _⟩, rfl⟩

theorem mapCount_of_last (h : Exact [] m) (hcached : (m.cached f).isSome)
    (hlast : m.cow.refcount f = 1) : m.mapCount f = 0 := by
  have hused : 0 < m.uses [] f := by
    simp [uses, cacheCount, hcached]
  have hcount := h.refcount_of_used hused
  simp only [uses, cacheCount, hcached, if_true] at hcount
  omega

theorem Private.releaseFileFrame (h : Private m) (hcached : (m.cached f).isSome)
    (hlast : m.cow.refcount f = 1) :
    let m' := (m.releaseFileFrame f).2
    Private m' ∧ Extends m m' ∧ m'.tables = m.tables := by
  have hexact := h.exact.releaseFileFrame hcached hlast
  have hmap := mapCount_of_last h.exact hcached hlast
  unfold Memory.releaseFileFrame at hexact ⊢
  have htables := releaseFrame_tables { m with cached := update m.cached f none } f
  have hcached' := releaseFrame_cached { m with cached := update m.cached f none } f
  have hother : ∀ g, g ≠ f → _ = m.cached g := fun g hg =>
    (congrFun hcached' g).trans (update_of_ne hg _ _)
  exact ⟨h.setCached (f := f) hexact hmap htables hother,
    extends_of_tables htables (releaseFrame_bytes _ _) fun k pte hk =>
      hother _ (frame_ne_of_unused hmap hk), htables⟩

theorem Private.reclaimFileFrame (h : Private m) (hcached : (m.cached f).isSome)
    (hlast : m.cow.refcount f = 1) :
    let m' := (m.reclaimFileFrame f).2
    Private m' ∧ Extends m m' ∧ m'.tables = m.tables := by
  have hexact := h.exact.reclaimFileFrame hcached hlast
  obtain heq | heq := reclaimFileFrame_eq m f
  · rw [heq]
    exact h.releaseFileFrame hcached hlast
  rw [heq] at hexact ⊢
  generalize (m.cow.release f).2 = cow at hexact ⊢
  exact ⟨h.mono hexact (fun _ _ hk => hk) (fun _ => le_rfl) rfl,
    extends_of_tables rfl rfl fun _ _ _ => rfl, rfl⟩

end Memory

end WovenHat.Paging
