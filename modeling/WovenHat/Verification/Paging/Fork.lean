import WovenHat.Verification.Paging.Eager

/-! # Forks

Sharing the pages of a mapping shows the processes copies of them, also when it fails half way
and is rolled back. -/

namespace WovenHat.Paging

open Library Option AList Eager List

theorem not_inRange_zero (start page : ℕ) : ¬InRange start 0 page := by
  unfold InRange
  omega

theorem inRange_succ {start i page : ℕ} :
    InRange start (i + 1) page ↔ InRange start i page ∨ page = start + i := by
  unfold InRange
  omega

theorem inRange_iff {start size page : ℕ} :
    InRange start size page ↔ ∃ i < size, page = start + i := by
  unfold InRange
  constructor
  · intro h
    exact ⟨page - start, by omega, by omega⟩
  · rintro ⟨i, hi, rfl⟩
    omega

namespace Eager

variable {e : Eager} {source destination : Space}

theorem copy_zero (e : Eager) (source destination : Space) (start : Page) :
    e.copy source destination start 0 = e :=
  Eager.ext (funext fun _ => if_neg fun h => not_inRange_zero _ _ h.2) rfl

theorem copy_source (e : Eager) (hne : source ≠ destination) (start : Page) (size : ℕ)
    (page : Page) : (e.copy source destination start size).cells (source, page) =
      e.cells (source, page) :=
  if_neg fun h => hne h.1

theorem copy_succ (e : Eager) (hne : source ≠ destination) (start : Page) (i : ℕ) :
    (e.copy source destination start i).copy source destination (start + i) 1 =
      e.copy source destination start (i + 1) := by
  refine Eager.ext (funext fun k => ?_) rfl
  obtain ⟨space, page⟩ := k
  by_cases hspace : space = destination
  · by_cases hlast : page = start + i
    · simp [copy, inRange_succ, hspace, hlast, hne]
    · simp [copy, inRange_succ, not_inRange_zero, hspace, hlast]
  · simp [copy, hspace]

variable {start : Page}

theorem copyMapping_free {e' : Eager} {size : ℕ}
    (h : e.copyMapping source destination start size = some e') {page : Page}
    (hpage : InRange start size page) : e.cells (destination, page) = none := by
  unfold copyMapping at h
  split at h
  · rename_i hpages
    obtain ⟨i, hi, rfl⟩ := inRange_iff.mp hpage
    exact isNone_iff_eq_none.mp (hpages i hi).2
  · cases h

theorem copy_one (e : Eager) (source destination : Space) (page : Page) (k : Space × Page) :
    (e.copy source destination page 1).cells k =
      if k = (destination, page) then e.cells (source, page) else e.cells k := by
  obtain ⟨space, page'⟩ := k
  unfold copy
  dsimp only
  by_cases hk : space = destination ∧ page' = page
  · obtain ⟨rfl, rfl⟩ := hk
    rw [if_pos ⟨rfl, inRange_succ.mpr (.inr rfl)⟩, if_pos rfl]
  have hout : ¬(space = destination ∧ InRange page 1 page') := by
    rintro ⟨hspace, hrange⟩
    exact hk ⟨hspace, (inRange_succ.mp hrange).resolve_left (not_inRange_zero _ _)⟩
  rw [if_neg hout, if_neg (by simpa using hk)]

def clear (e : Eager) (space : Space) (start : Page) (pages : List ℕ) : Eager :=
  { e with cells := fun k =>
      if ∃ i ∈ pages, k = (space, start + i) then none else e.cells k }

/-- Pages that were not mapped before they were copied are taken away again. -/
theorem clear_copy {i : ℕ} (hfree : ∀ j < i, (e.cells (destination, start + j)).isNone) :
    (e.copy source destination start i).clear destination start (range i) = e := by
  refine Eager.ext (funext fun k => ?_) rfl
  by_cases hk : ∃ j ∈ range i, k = (destination, start + j)
  · obtain ⟨j, hj, rfl⟩ := hk
    have hnone := Option.isNone_iff_eq_none.mp (hfree j (mem_range.mp hj))
    exact (if_pos ⟨j, hj, rfl⟩).trans hnone.symm
  · refine (if_neg hk).trans (if_neg ?_)
    rintro ⟨hspace, hrange⟩
    obtain ⟨j, hj, hpage⟩ := inRange_iff.mp hrange
    exact hk ⟨j, mem_range.mpr hj, Prod.ext hspace hpage⟩

end Eager

namespace Memory

variable {m m' : Memory} {k : Space × Page} {pte : Pte} {source destination : Space}
  {start page : Page} {r : Bool × Memory}

def WritableIn (m m' : Memory) : Prop :=
  ∀ k pte', m'.tables.lookup k = some pte' → pte'.writable →
    ∃ pte, m.tables.lookup k = some pte ∧ pte.writable

theorem WritableIn.refl (m : Memory) : WritableIn m m :=
  fun _ pte hk hw => ⟨pte, hk, hw⟩

theorem WritableIn.trans {m'' : Memory} (h : WritableIn m m') (h' : WritableIn m' m'') :
    WritableIn m m'' := by
  intro k pte'' hk hw
  obtain ⟨pte', hk', hw'⟩ := h' k pte'' hk hw
  exact h k pte' hk' hw'

theorem WritableIn.of_subset
    (hsub : ∀ k pte, m'.tables.lookup k = some pte → m.tables.lookup k = some pte) :
    WritableIn m m' :=
  fun k pte hk hw => ⟨pte, hsub k pte hk, hw⟩

theorem Private.mono (h : Private m) (hexact : Exact [] m')
    (hsub : ∀ k pte, m'.tables.lookup k = some pte → m.tables.lookup k = some pte)
    (huses : ∀ g, m'.uses [] g ≤ m.uses [] g) (hcached : m'.cached = m.cached) : Private m' where
  exact := hexact
  alone k pte hk hw hown := (huses _).trans (h.alone k pte (hsub k pte hk) hw (hcached ▸ hown))
  file k pte hk hfile := h.file k pte (hsub k pte hk) (hcached ▸ hfile)

/-- Only the counts and the allocator have changed. -/
structure Same (m m' : Memory) : Prop where
  tables : m'.tables = m.tables
  cached : m'.cached = m.cached
  bytes : m'.bytes = m.bytes

theorem Private.of_same (h : Private m) (hexact : Exact [] m') (hsame : Same m m') :
    Private m' ∧ WritableIn m m' ∧ m'.eager = m.eager := by
  obtain ⟨htables, hcached, hbytes⟩ := hsame
  have hsub : ∀ k pte, m'.tables.lookup k = some pte → m.tables.lookup k = some pte := by
    intro k pte hk
    rwa [htables] at hk
  have huses : ∀ g, m'.uses [] g ≤ m.uses [] g := by
    intro g
    rw [uses, uses, mapCount, mapCount, cacheCount, cacheCount, htables, hcached]
  refine ⟨h.mono hexact hsub huses hcached, WritableIn.of_subset hsub, ?_⟩
  refine eager_congr (fun k => ?_) hcached fun g _ => by rw [hbytes]
  rw [htables]
  refine map_congr fun pte _ => ?_
  rw [cell, cell, hcached, hbytes]

theorem isFilePage_eq (m : Memory) (space : Space) (page : Page) :
    m.isFilePage space page = (m.eager.cells (space, page)).any fun c => !c.isOwn := by
  unfold isFilePage
  cases hk : m.tables.lookup (space, page) with
  | none => simp [eager, hk]
  | some pte =>
    rw [eager_cells hk]
    by_cases hfile : m.cached pte.frame = some true
    · simp [cell_file hfile, hfile, Cell.isOwn]
    · simp [cell_own hfile, hfile, Cell.isOwn]

/-! ## One page -/

/-- The entries after a page is shared: the new one cannot be written, and neither can that of
the source if the mapping is writable. -/
theorem sharePage_cases {writable executable fails : Bool}
    (hr : m.sharePage source destination page writable executable fails = r) :
    (r.1 = false ∧ Same m r.2) ∨
      ∃ pte, m.tables.lookup (source, page) = some pte ∧
        m.tables.lookup (destination, page) = none ∧ r.1 = true ∧ r.2.cached = m.cached ∧
        r.2.bytes = m.bytes ∧ r.2.tables =
          let tables := m.tables.insert (destination, page) ⟨pte.frame, false, executable⟩
          if writable && pte.writable then
            tables.insert (source, page) ⟨pte.frame, false, executable⟩
          else tables := by
  subst hr
  unfold sharePage
  cases hsource : m.tables.lookup (source, page) with
  | none => exact .inl ⟨rfl, rfl, rfl, rfl⟩
  | some pte =>
    dsimp only
    split
    · exact .inl ⟨rfl, rfl, rfl, rfl⟩
    rename_i hfree
    have hk : m.tables.lookup (destination, page) = none := by simpa using hfree
    generalize m.cow.share pte.frame = shared
    cases shared with
    | none => exact .inl ⟨rfl, rfl, rfl, rfl⟩
    | some cow =>
      dsimp only
      split
      · exact .inl ⟨rfl, rfl, rfl, rfl⟩
      · exact .inr ⟨pte, rfl, hk, rfl, rfl, rfl, rfl⟩

theorem uses_shared {executable b : Bool} (hne : source ≠ destination)
    (hsource : m.tables.lookup (source, page) = some pte)
    (hk : m.tables.lookup (destination, page) = none) (hcached : m'.cached = m.cached)
    (htables : m'.tables =
      let tables := m.tables.insert (destination, page) ⟨pte.frame, false, executable⟩
      if b then tables.insert (source, page) ⟨pte.frame, false, executable⟩ else tables)
    (g : Frame) : m'.uses [] g = m.uses [] g + if pte.frame = g then 1 else 0 := by
  generalize hentry : (⟨pte.frame, false, executable⟩ : Pte) = entry at htables
  have hframe : entry.frame = pte.frame := by rw [← hentry]
  have hinsert := valueCount_insert_of_none (fun e => e.frame == g) hk entry
  have hkey : (source, page) ≠ (destination, page) := by simpa using hne
  have hkept : (m.tables.insert (destination, page) entry).lookup (source, page) = some pte :=
    (lookup_insert_ne hkey).trans hsource
  have hreplace := valueCount_replace (fun e => e.frame == g) hkept entry
  unfold indicator at hinsert hreplace
  simp only [beq_iff_eq, hframe] at hinsert hreplace
  unfold uses mapCount cacheCount
  rw [htables, hcached]
  cases b with
  | true =>
    rw [if_pos rfl]
    omega
  | false =>
    rw [if_neg Bool.false_ne_true]
    omega

/-- The page tables after a private page has been shared: both pages map the frame, and neither
can be written. -/
structure SharedPage (m m' : Memory) (source destination : Space) (page : Page) (frame : Frame) :
    Prop where
  old : ∃ pte, m'.tables.lookup (source, page) = some pte ∧ pte.frame = frame ∧ ¬pte.writable
  new : ∃ pte, m'.tables.lookup (destination, page) = some pte ∧ pte.frame = frame ∧ ¬pte.writable
  other : ∀ k, k ≠ (source, page) → k ≠ (destination, page) → m'.tables.lookup k = m.tables.lookup k
  cached : m'.cached = m.cached
  bytes : m'.bytes = m.bytes

variable {writable : Bool}

theorem SharedPage.of_tables {executable : Bool} (hne : source ≠ destination)
    (hsource : m.tables.lookup (source, page) = some pte) (hwritable : pte.writable → writable)
    (hcached : m'.cached = m.cached) (hbytes : m'.bytes = m.bytes) (htables : m'.tables =
      let tables := m.tables.insert (destination, page) ⟨pte.frame, false, executable⟩
      if writable && pte.writable then
        tables.insert (source, page) ⟨pte.frame, false, executable⟩
      else tables) : SharedPage m m' source destination page pte.frame := by
  have hkey : (source, page) ≠ (destination, page) := by simpa using hne
  refine ⟨?_, ?_, fun k hks hkd => ?_, hcached, hbytes⟩
  · rw [htables]
    split
    · exact ⟨_, lookup_insert _, rfl, nofun⟩
    rename_i hcase
    refine ⟨pte, (lookup_insert_ne hkey).trans hsource, rfl, fun hw => hcase ?_⟩
    simp [hw, hwritable hw]
  · refine ⟨⟨pte.frame, false, executable⟩, ?_, rfl, nofun⟩
    rw [htables]
    split
    · rw [lookup_insert_ne hkey.symm, lookup_insert]
    · rw [lookup_insert]
  · rw [htables]
    split
    · rw [lookup_insert_ne hks, lookup_insert_ne hkd]
    · rw [lookup_insert_ne hkd]

/-- An entry that can still be written is none of the two. -/
theorem SharedPage.kept {f : Frame} (h : SharedPage m m' source destination page f)
    (hk : m'.tables.lookup k = some pte) (hw : pte.writable) :
    k ≠ (source, page) ∧ m.tables.lookup k = some pte := by
  obtain ⟨pteS, hsource, -, hroS⟩ := h.old
  obtain ⟨pteD, hdest, -, hroD⟩ := h.new
  have hks : k ≠ (source, page) := by
    rintro rfl
    obtain rfl := some.inj (hsource.symm.trans hk)
    exact hroS hw
  have hkd : k ≠ (destination, page) := by
    rintro rfl
    obtain rfl := some.inj (hdest.symm.trans hk)
    exact hroD hw
  exact ⟨hks, (h.other k hks hkd).symm.trans hk⟩

theorem SharedPage.isPrivate (hs : SharedPage m m' source destination page pte.frame)
    (h : Private m) (hexact : Exact [] m') (hsource : m.tables.lookup (source, page) = some pte)
    (hown : m.cached pte.frame ≠ some true)
    (huses : ∀ g, m'.uses [] g = m.uses [] g + if pte.frame = g then 1 else 0) : Private m' := by
  refine ⟨hexact, fun k pte' hk hw hown' => ?_, fun k pte' hk hfile => ?_⟩
  · obtain ⟨hks, hbefore⟩ := hs.kept hk hw
    rw [hs.cached] at hown'
    have hframe : pte.frame ≠ pte'.frame :=
      fun heq => hks (h.unique hbefore hw hown' hsource heq).symm
    rw [huses, if_neg hframe]
    exact h.alone k pte' hbefore hw hown'
  · rw [hs.cached] at hfile
    obtain ⟨pteS, hsource', hframeS, -⟩ := hs.old
    obtain ⟨pteD, hdest, hframeD, -⟩ := hs.new
    by_cases hks : k = (source, page)
    · subst hks
      obtain rfl := some.inj (hsource'.symm.trans hk)
      exact absurd (hframeS ▸ hfile) hown
    by_cases hkd : k = (destination, page)
    · subst hkd
      obtain rfl := some.inj (hdest.symm.trans hk)
      exact absurd (hframeD ▸ hfile) hown
    · exact h.file k pte' ((hs.other k hks hkd).symm.trans hk) hfile

theorem SharedPage.eager (hs : SharedPage m m' source destination page pte.frame)
    (hsource : m.tables.lookup (source, page) = some pte) :
    m'.eager = m.eager.copy source destination page 1 := by
  have hcell : ∀ e e' : Pte, e.frame = e'.frame → m'.cell e = m.cell e' := by
    intro e e' hframe
    rw [cell, cell, hs.cached, hs.bytes, hframe]
  obtain ⟨pteS, hsource', hframeS, -⟩ := hs.old
  obtain ⟨pteD, hdest, hframeD, -⟩ := hs.new
  refine Eager.ext (funext fun k => ?_) ?_
  · change (m'.tables.lookup k).map m'.cell = _
    rw [Eager.copy_one]
    by_cases hkd : k = (destination, page)
    · rw [if_pos hkd, hkd, hdest, eager_cells hsource, Option.map_some, hcell _ _ hframeD]
    rw [if_neg hkd]
    by_cases hks : k = (source, page)
    · subst hks
      rw [hsource', eager_cells hsource, map_some, hcell _ _ hframeS]
    · rw [hs.other k hks hkd, show m'.cell = m.cell from funext fun e => hcell e e rfl]
      rfl
  · change m'.eager.files = m.eager.files
    unfold Memory.eager
    rw [hs.cached, hs.bytes]

theorem Private.sharePage (h : Private m) (hne : source ≠ destination) {executable fails : Bool}
    (hr : m.sharePage source destination page writable executable fails = r)
    (hwritable : ∀ pte, m.tables.lookup (source, page) = some pte → pte.writable → writable)
    (hfile : m.isFilePage source page = false) :
    Private r.2 ∧ WritableIn m r.2 ∧ (r.1 = false → r.2.eager = m.eager) ∧
      (r.1 = true → r.2.eager = m.eager.copy source destination page 1 ∧
          (m.eager.cells (source, page)).any Cell.isOwn ∧
          (m.eager.cells (destination, page)).isNone) := by
  have hexact := h.exact.sharePage hne page writable executable fails
  rw [hr] at hexact
  obtain ⟨hko, hsame⟩ | ⟨pte, hsource, hk, hok, hcached, hbytes, htables⟩ := sharePage_cases hr
  · rw [hko]
    obtain ⟨hprivate, hin, heager⟩ := h.of_same hexact hsame
    exact ⟨hprivate, hin, fun _ => heager, nofun⟩
  rw [hok]
  have huses := uses_shared hne hsource hk hcached htables
  have hs := SharedPage.of_tables hne hsource (hwritable pte hsource) hcached hbytes htables
  have hown : m.cached pte.frame ≠ some true := by
    intro hcase
    simp [isFilePage, hsource, hcase] at hfile
  refine ⟨hs.isPrivate h hexact hsource hown huses,
    fun k pte' hk' hw => ⟨pte', (hs.kept hk' hw).2, hw⟩, nofun, fun _ => ⟨hs.eager hsource, ?_, ?_⟩⟩
  · rw [eager_cells hsource, cell_own hown]
    rfl
  · simp [Memory.eager, hk]

theorem unmapShared_lookup (m : Memory) (destination : Space) (page : Page) (k : Space × Page) :
    (m.unmapShared destination page).tables.lookup k =
      if k = (destination, page) then none else m.tables.lookup k := by
  unfold unmapShared
  cases hk : m.tables.lookup (destination, page) with
  | none =>
    dsimp only
    split
    · subst k
      exact hk
    · rfl
  | some pte =>
    rw [releaseFrame_tables]
    split
    · subst k
      exact lookup_erase _ _
    · exact lookup_erase_ne ‹_›

theorem unmapShared_fields (m : Memory) (destination : Space) (page : Page) :
    (m.unmapShared destination page).cached = m.cached ∧
      (m.unmapShared destination page).bytes = m.bytes ∧
      ∀ g, (m.unmapShared destination page).uses [] g ≤ m.uses [] g := by
  unfold unmapShared
  cases hk : m.tables.lookup (destination, page) with
  | none => exact ⟨rfl, rfl, fun _ => le_rfl⟩
  | some pte =>
    refine ⟨releaseFrame_cached _ _, releaseFrame_bytes _ _, fun g => ?_⟩
    have herase := uses_erase [] hk g
    rw [uses_cons] at herase
    unfold uses mapCount cacheCount at herase ⊢
    rw [releaseFrame_tables, releaseFrame_cached]
    omega

theorem Private.unmapShared (h : Private m) (destination : Space) (page : Page) :
    Private (m.unmapShared destination page) ∧ WritableIn m (m.unmapShared destination page) := by
  obtain ⟨hcached, -, huses⟩ := unmapShared_fields m destination page
  have hsub : ∀ k pte, (m.unmapShared destination page).tables.lookup k = some pte →
      m.tables.lookup k = some pte := by
    intro k pte hk
    rw [unmapShared_lookup] at hk
    split at hk
    · cases hk
    · exact hk
  exact ⟨h.mono (h.exact.unmapShared destination page) hsub huses hcached,
    WritableIn.of_subset hsub⟩

/-- The pages that are rolled back are gone, and nothing else changes. -/
theorem foldl_unmapShared_eager (m : Memory) (destination : Space) (start : Page) (pages : List ℕ) :
    (pages.foldl (fun m i => m.unmapShared destination (start + i)) m).eager =
      m.eager.clear destination start pages := by
  induction pages generalizing m with
  | nil =>
    refine Eager.ext (funext fun k => ?_) rfl
    simp [Eager.clear]
  | cons i pages ih =>
    obtain ⟨hcached, hbytes, -⟩ := unmapShared_fields m destination (start + i)
    rw [foldl_cons, ih]
    refine Eager.ext (funext fun k => ?_) ?_
    · have hcell : (m.unmapShared destination (start + i)).cell = m.cell := by
        funext pte
        rw [cell, cell, hcached, hbytes]
      have hcells : (m.unmapShared destination (start + i)).eager.cells k =
          if k = (destination, start + i) then none else m.eager.cells k := by
        change Option.map _ _ = _
        rw [unmapShared_lookup, hcell]
        split <;> rfl
      unfold Eager.clear
      dsimp only
      rw [hcells]
      by_cases hhead : k = (destination, start + i)
      · simp [hhead]
      · simp [hhead]
    · change (m.unmapShared destination (start + i)).eager.files = m.eager.files
      unfold eager
      rw [hcached, hbytes]

theorem Private.foldl_unmapShared (h : Private m) (destination : Space) (start : Page)
    (pages : List ℕ) : Private (pages.foldl (fun m i => m.unmapShared destination (start + i)) m) ∧
      WritableIn m (pages.foldl (fun m i => m.unmapShared destination (start + i)) m) := by
  induction pages generalizing m with
  | nil => exact ⟨h, .refl m⟩
  | cons i pages ih =>
    obtain ⟨hprivate, hwritable⟩ := h.unmapShared destination (start + i)
    exact ⟨(ih hprivate).1, hwritable.trans (ih hprivate).2⟩

/-! ## A mapping -/

/-- `share_user_range_in` of a private mapping shows copies of its pages to the destination.
If it fails, nothing changes. -/
theorem Private.shareUserRange (h : Private m) {size : ℕ} {executable : Bool} {fails : ℕ → Bool}
    (hr : m.shareUserRange source destination start size writable executable fails = r)
    (hwritable : ∀ i < size, ∀ pte, m.tables.lookup (source, start + i) = some pte →
      pte.writable → writable) (hfile : ∀ i < size, m.isFilePage source (start + i) = false) :
    Private r.2 ∧ WritableIn m r.2 ∧ (r.1 = false → r.2.eager = m.eager) ∧
      (r.1 = true → m.eager.copyMapping source destination start size = some r.2.eager) := by
  subst hr
  unfold Memory.shareUserRange
  split
  · exact ⟨h, .refl m, fun _ => rfl, nofun⟩
  rename_i hcond
  have hne : source ≠ destination := fun heq => hcond (.inl heq)
  have hcopying : ∀ i m', i < size → WritableIn m m' → ∀ pte,
      m'.tables.lookup (source, start + i) = some pte → pte.writable → writable := by
    intro i m' hi hin pte hk hw
    obtain ⟨pte', hk', hw'⟩ := hin _ _ hk hw
    exact hwritable i hi pte' hk' hw'
  have hprivatePage : ∀ i (m' : Memory), i < size → m'.eager = m.eager.copy source destination start i →
      m'.isFilePage source (start + i) = false := by
    intro i m' hi heager
    rw [isFilePage_eq, heager, copy_source _ hne, ← isFilePage_eq]
    exact hfile i hi
  -- before each page, those before it have been copied
  refine forPages_spec (m := m)
    (P := fun i m' => Private m' ∧ WritableIn m m' ∧
      m'.eager = m.eager.copy source destination start i ∧
      ∀ j < i, (m.eager.cells (source, start + j)).any Cell.isOwn ∧
        (m.eager.cells (destination, start + j)).isNone)
    (Q := fun ok m' => Private m' ∧ WritableIn m m' ∧ (ok = false → m'.eager = m.eager) ∧
      (ok = true → m.eager.copyMapping source destination start size = some m'.eager))
    (fun i m' hi hP hok => ?_) (fun i m' hi hP hko => ?_) (fun m' hP => ?_) size 0 (Nat.zero_add size)
    ⟨h, .refl m, (copy_zero _ _ _ _).symm, fun _ hj => by omega⟩
  · obtain ⟨hprivate, hin, heager, hpages⟩ := hP
    obtain ⟨hprivate', hin', -, hcopied⟩ := hprivate.sharePage hne rfl
      (hcopying i m' hi hin) (hprivatePage i m' hi heager)
    obtain ⟨heager', hown, hfree⟩ := hcopied hok
    rw [heager] at heager' hown hfree
    rw [copy_succ _ hne] at heager'
    rw [copy_source _ hne] at hown
    refine ⟨hprivate', hin.trans hin', heager', fun j hj => ?_⟩
    by_cases hji : j = i
    · subst hji
      refine ⟨hown, ?_⟩
      have hout : ¬(destination = destination ∧ InRange start j (start + j)) := by
        rintro ⟨-, hrange⟩
        exact absurd hrange.2 (lt_irrefl _)
      exact (if_neg hout : (m.eager.copy source destination start j).cells
        (destination, start + j) = _) ▸ hfree
    · exact hpages j (by omega)
  · obtain ⟨hprivate, hin, heager, hpages⟩ := hP
    obtain ⟨hprivate', hin', hsame, -⟩ := hprivate.sharePage hne rfl
      (hcopying i m' hi hin) (hprivatePage i m' hi heager)
    obtain ⟨hprivate'', hin''⟩ := hprivate'.foldl_unmapShared destination start (range i)
    refine ⟨hprivate'', (hin.trans hin').trans hin'', fun _ => ?_, nofun⟩
    rw [foldl_unmapShared_eager, hsame hko, heager]
    exact clear_copy fun j hj => (hpages j hj).2
  · obtain ⟨hprivate, hin, heager, hpages⟩ := hP
    refine ⟨hprivate, hin, nofun, fun _ => ?_⟩
    rw [heager]
    exact if_pos hpages

/-! ## A page of a file -/

variable {space : Space} {frame : Frame} {fails : Bool}

theorem mapFileFrame_cases (hr : m.mapFileFrame space page frame writable fails = r) :
    (r.1 = false ∧ Same m r.2) ∨
      m.tables.lookup (space, page) = none ∧ r.1 = true ∧ r.2.cached = m.cached ∧
        r.2.bytes = m.bytes ∧
        r.2.tables = m.tables.insert (space, page) ⟨frame, writable, false⟩ := by
  subst hr
  unfold mapFileFrame
  split
  · exact .inl ⟨rfl, rfl, rfl, rfl⟩
  rename_i hfree
  have hk : m.tables.lookup (space, page) = none := by simpa using hfree
  generalize m.cow.share frame = shared
  cases shared with
  | none => exact .inl ⟨rfl, rfl, rfl, rfl⟩
  | some cow =>
    dsimp only
    split
    · exact .inl ⟨rfl, rfl, rfl, rfl⟩
    · exact .inr ⟨hk, rfl, rfl, rfl, rfl⟩

/-- A frame of the cache is mapped. Its other pages cannot be written, unless it belongs to a
shared mapping. -/
theorem Private.mapFileFrame (h : Private m)
    (hr : m.mapFileFrame space page frame writable fails = r)
    (hfile : m.cached frame = some writable) :
    Private r.2 ∧ ∀ k pte, r.2.tables.lookup k = some pte →
      m.tables.lookup k = some pte ∨ k = (space, page) ∧ pte.writable = writable := by
  have hexact := h.exact.mapFileFrame space page hfile fails
  rw [hr] at hexact
  obtain ⟨-, hsame⟩ | ⟨hk, -, hcached, -, htables⟩ := mapFileFrame_cases hr
  · refine ⟨(h.of_same hexact hsame).1, fun k pte hpte => .inl ?_⟩
    rwa [hsame.tables] at hpte
  have huses := uses_inserted hk htables hcached
  have hcases : ∀ k pte, r.2.tables.lookup k = some pte →
      m.tables.lookup k = some pte ∨ k = (space, page) ∧ pte = ⟨frame, writable, false⟩ := by
    intro k pte hpte
    rw [htables] at hpte
    by_cases hkk : k = (space, page)
    · subst hkk
      rw [lookup_insert] at hpte
      exact .inr ⟨rfl, (some.inj hpte).symm⟩
    · exact .inl ((lookup_insert_ne hkk).symm.trans hpte)
  refine ⟨⟨hexact, fun k pte hpte hw hown => ?_, fun k pte hpte hfile' => ?_⟩, fun k pte hpte => ?_⟩
  · rw [hcached] at hown
    obtain hbefore | ⟨-, rfl⟩ := hcases k pte hpte
    · have halone := h.alone k pte hbefore hw hown
      have hne : frame ≠ pte.frame := by
        rintro rfl
        have hpos := mapCount_pos hbefore
        simp only [uses, cacheCount, hfile, isSome_some, if_true] at halone
        omega
      rw [huses, if_neg hne]
      exact halone
    · -- the new page can be written only if it belongs to a shared mapping
      dsimp only at hw hown
      rw [hfile, hw] at hown
      exact absurd rfl hown
  · rw [hcached] at hfile'
    obtain hbefore | ⟨-, rfl⟩ := hcases k pte hpte
    · exact h.file k pte hbefore hfile'
    · rw [hfile] at hfile'
      exact some.inj hfile'
  · obtain hbefore | ⟨hkk, rfl⟩ := hcases k pte hpte
    · exact .inl hbefore
    · exact .inr ⟨hkk, rfl⟩

theorem Private.mapFilePage (h : Private m)
    (hr : m.mapFileFrame destination page pte.frame true fails = r)
    (hsource : m.tables.lookup (source, page) = some pte) (hfile : m.cached pte.frame = some true) :
    (r.1 = false → WritableIn m r.2 ∧ r.2.eager = m.eager) ∧
      (r.1 = true → m.eager.copyFilePage source destination page = some r.2.eager) := by
  have hexact := h.exact.mapFileFrame destination page hfile fails
  rw [hr] at hexact
  obtain ⟨hko, hsame⟩ | ⟨hk, hok, hcached, hbytes, htables⟩ := mapFileFrame_cases hr
  · rw [hko]
    exact ⟨fun _ => (h.of_same hexact hsame).2, by simp⟩
  rw [hok]
  have hcell : r.2.cell = m.cell := by
    funext pte
    rw [cell, cell, hcached, hbytes]
  have hcond : (m.eager.cells (source, page)).any (fun c => !c.isOwn) ∧
      (m.eager.cells (destination, page)).isNone := by
    constructor
    · rw [eager_cells hsource, cell_file hfile]
      rfl
    · simp [eager, hk]
  refine ⟨by simp, fun _ => ?_⟩
  refine (if_pos hcond).trans (congrArg some (Eager.ext (funext fun k => ?_) ?_))
  · change _ = (r.2.tables.lookup k).map r.2.cell
    rw [hcell, Eager.copy_one, htables]
    by_cases hkd : k = (destination, page)
    · rw [if_pos hkd, hkd, AList.lookup_insert, eager_cells hsource]
      rfl
    · rw [if_neg hkd, lookup_insert_ne hkd]
      rfl
  · change m.eager.files = r.2.eager.files
    unfold eager
    rw [hcached, hbytes]

end Memory

end WovenHat.Paging
