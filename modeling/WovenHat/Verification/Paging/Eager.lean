import WovenHat.Model.Paging.Accesses
import WovenHat.Verification.Paging.Counts

/-! # Copy-on-write and eager copying

The abstract model: every private page has contents of its own, and sharing a mapping copies
them at once. Pages of shared file mappings refer to the contents of the file. A page table
with reference counts shows the same contents, and every access keeps it so. -/

namespace WovenHat.Paging

open Library Function Option AList

/-- What a page holds: contents of its own, or those of a page of a file. -/
inductive Cell where
  | own (bytes : ℕ → UInt8)
  | file (frame : Frame)

def Cell.isOwn : Cell → Bool
  | own _ => true
  | file _ => false

@[ext]
structure Eager where
  cells : Space × Page → Option Cell
  files : Frame → ℕ → UInt8

namespace Eager

def load (e : Eager) (k : Space × Page) (offset : ℕ) : Option UInt8 :=
  (e.cells k).map fun
    | .own bytes => bytes offset
    | .file frame => e.files frame offset

def store (e : Eager) (k : Space × Page) (offset : ℕ) (byte : UInt8) : Option Eager :=
  (e.cells k).map fun
    | .own bytes =>
      let cell := Cell.own (update bytes offset byte)
      { e with cells := update e.cells k (some cell) }
    | .file frame =>
      let bytes := update (e.files frame) offset byte
      { e with files := update e.files frame bytes }

variable {k : Space × Page} {e : Eager}

theorem store_own {bytes : ℕ → UInt8} (offset : ℕ) (byte : UInt8)
    (h : e.cells k = some (.own bytes)) : e.store k offset byte = some { e with
      cells := update e.cells k (some (.own (update bytes offset byte))) } := by
  rw [store, h, map_some]

theorem store_file {frame : Frame} (offset : ℕ) (byte : UInt8) (h : e.cells k = some (.file frame))
    : e.store k offset byte = some { e with
      files := update e.files frame (update (e.files frame) offset byte) } := by
  rw [store, h, map_some]

def copy (e : Eager) (source destination : Space) (start : Page) (size : ℕ) : Eager :=
  { e with cells := fun k =>
      if k.1 = destination ∧ InRange start size k.2 then e.cells (source, k.2)
      else e.cells k }

def copyMapping (e : Eager) (source destination : Space) (start : Page) (size : ℕ) : Option Eager :=
  if ∀ i < size, (e.cells (source, start + i)).any Cell.isOwn ∧
      (e.cells (destination, start + i)).isNone then
    some (e.copy source destination start size)
  else none

def copyFilePage (e : Eager) (source destination : Space) (page : Page) : Option Eager :=
  if (e.cells (source, page)).any (fun c => !c.isOwn) ∧ (e.cells (destination, page)).isNone then
    some (e.copy source destination page 1)
  else none

/-- The effect of an access; there is none when the page or the range is not as it should be. -/
def effect (e : Eager) : Access → Option Eager
  | .load .. => some e
  | .store space page offset byte => e.store (space, page) offset byte
  | .shareMapping source destination start size _ _ _ =>
    e.copyMapping source destination start size
  | .shareFilePage source destination page _ => e.copyFilePage source destination page

/-- What a process observes of an access that is carried out. -/
def outcome (e : Eager) : Access → Outcome
  | .load space page offset => .loaded (e.load (space, page) offset)
  | access => .finished (e.effect access).isSome

/-- A run, in which some accesses are refused for want of memory. -/
def run (e : Eager) : List (Access × Bool) → List Outcome
  | [] => []
  | (access, true) :: accesses =>
    e.outcome access :: ((e.effect access).getD e).run accesses
  | (_, false) :: accesses => .finished false :: e.run accesses

end Eager

namespace Memory

variable {m m' : Memory} {k k' : Space × Page} {pte pte' : Pte} {f : Frame}

def cell (m : Memory) (pte : Pte) : Cell :=
  if m.cached pte.frame = some true then .file pte.frame else .own (m.bytes pte.frame)

/-- The contents that the page tables show. -/
def eager (m : Memory) : Eager where
  cells k := (m.tables.lookup k).map m.cell
  files f := if m.cached f = some true then m.bytes f else fun _ => 0

theorem cell_own (h : m.cached pte.frame ≠ some true) : m.cell pte = .own (m.bytes pte.frame) :=
  if_neg h

theorem cell_file (h : m.cached pte.frame = some true) : m.cell pte = .file pte.frame :=
  if_pos h

theorem eager_cells (h : m.tables.lookup k = some pte) : m.eager.cells k = some (m.cell pte) := by
  change (m.tables.lookup k).map m.cell = _
  rw [h, map_some]

theorem load_eq (m : Memory) (space : Space) (page : Page) (offset : ℕ) :
    m.load space page offset = m.eager.load (space, page) offset := by
  unfold load Eager.load
  cases h : m.tables.lookup (space, page) with
  | none => simp [eager, h]
  | some pte =>
    rw [eager_cells h]
    by_cases hfile : m.cached pte.frame = some true
    · simp [cell_file hfile, eager, hfile]
    · simp [cell_own hfile]

/-! ## Memories that show the same contents -/

/-- Two memories with the same contents in all pages of files and of the cache. -/
theorem eager_congr (hcells : ∀ k, (m'.tables.lookup k).map m'.cell = (m.tables.lookup k).map m.cell)
    (hcached : m'.cached = m.cached)
    (hfiles : ∀ f, m.cached f = some true → m'.bytes f = m.bytes f) : m'.eager = m.eager := by
  unfold eager
  congr 1
  · exact funext hcells
  funext f
  rw [hcached]
  split
  · exact hfiles f ‹_›
  · rfl

theorem releaseFrame_tables (m : Memory) (f : Frame) : (m.releaseFrame f).2.tables = m.tables := by
  unfold releaseFrame
  dsimp only
  split <;> rfl

theorem releaseFrame_bytes (m : Memory) (f : Frame) : (m.releaseFrame f).2.bytes = m.bytes := by
  unfold releaseFrame
  dsimp only
  split <;> rfl

theorem releaseFrame_cached (m : Memory) (f : Frame) : (m.releaseFrame f).2.cached = m.cached := by
  unfold releaseFrame
  dsimp only
  split <;> rfl

/-! ## Pages with a frame of their own -/

/-- A frame that can be written through a private page has no other reference, and the pages
of shared file mappings can be written. -/
structure Private (m : Memory) : Prop where
  exact : Exact [] m
  alone : ∀ k pte, m.tables.lookup k = some pte → pte.writable → m.cached pte.frame ≠ some true →
    m.uses [] pte.frame ≤ 1
  file : ∀ k pte, m.tables.lookup k = some pte → m.cached pte.frame = some true → pte.writable

theorem Private.unique (h : Private m) (hk : m.tables.lookup k = some pte) (hw : pte.writable)
    (hown : m.cached pte.frame ≠ some true) (hk' : m.tables.lookup k' = some pte')
    (hframe : pte'.frame = pte.frame) : k' = k := by
  have hone := (mapCount_le_uses [] m pte.frame).trans (h.alone k pte hk hw hown)
  exact key_unique hone hk' (by simp [hframe]) hk (by simp)

theorem Private.poke (h : Private m) (f : Frame) (offset : ℕ) (byte : UInt8) :
    Private (m.poke f offset byte) :=
  ⟨h.exact.setBytes _, h.alone, h.file⟩

theorem cell_poke_of_ne (h : pte.frame ≠ f) (offset : ℕ) (byte : UInt8) :
    (m.poke f offset byte).cell pte = m.cell pte := by
  simp [cell, Memory.poke, update_of_ne h]

theorem Private.eager_poke (h : Private m) (hk : m.tables.lookup k = some pte)
    (hw : pte.writable) (offset : ℕ) (byte : UInt8) :
    m.eager.store k offset byte = some (m.poke pte.frame offset byte).eager := by
  have hcell := eager_cells hk
  by_cases hfile : m.cached pte.frame = some true
  · rw [cell_file hfile] at hcell
    rw [Eager.store_file offset byte hcell]
    refine congrArg some (Eager.ext (funext fun k' => ?_) (funext fun f => ?_))
    · refine map_congr fun pte' _ => ?_
      by_cases hfile' : m.cached pte'.frame = some true
      · rw [cell_file hfile', cell_file (m := m.poke ..) hfile']
      · have hne : pte'.frame ≠ pte.frame := fun heq => hfile' (heq ▸ hfile)
        exact (cell_poke_of_ne hne offset byte).symm
    · by_cases hf : f = pte.frame
      · subst hf
        simp [eager, hfile, Memory.poke]
      · simp [eager, Memory.poke, update_of_ne hf]
  · rw [cell_own hfile] at hcell
    rw [Eager.store_own offset byte hcell]
    refine congrArg some (Eager.ext (funext fun k' => ?_) (funext fun f => ?_))
    · by_cases hkk : k' = k
      · subst hkk
        have hpoked : (m.poke pte.frame offset byte).eager.cells k' = some _ := eager_cells hk
        rw [hpoked, cell_own (m := m.poke ..) hfile]
        simp [Memory.poke]
      dsimp only
      rw [update_of_ne hkk]
      refine map_congr fun pte' hpte' => ?_
      have hne : pte'.frame ≠ pte.frame :=
        fun heq => hkk (h.unique hk hw hfile (mem_def.mp hpte') heq)
      exact (cell_poke_of_ne hne offset byte).symm
    · by_cases hf : f = pte.frame
      · subst hf
        simp [eager, hfile, Memory.poke]
      · simp [eager, Memory.poke, update_of_ne hf]

/-! ## Breaking the sharing of a page -/

/-- The references after one entry is exchanged for another. -/
theorem uses_exchanged (hk : m.tables.lookup k = some pte)
    (htables : m'.tables = m.tables.insert k pte') (hcached : m'.cached = m.cached) (g : Frame) :
    m'.uses [] g + (if pte.frame = g then 1 else 0) =
      m.uses [] g + (if pte'.frame = g then 1 else 0) := by
  have hcount := valueCount_replace (fun e => e.frame == g) hk pte'
  unfold indicator at hcount
  simp only [beq_iff_eq] at hcount
  unfold uses mapCount cacheCount
  rw [htables, hcached]
  omega

theorem uses_inserted (hk : m.tables.lookup k = none) (htables : m'.tables = m.tables.insert k pte)
    (hcached : m'.cached = m.cached) (g : Frame) :
    m'.uses [] g = m.uses [] g + if pte.frame = g then 1 else 0 := by
  have hcount := valueCount_insert_of_none (fun e => e.frame == g) hk pte
  unfold indicator at hcount
  simp only [beq_iff_eq] at hcount
  unfold uses mapCount cacheCount
  rw [htables, hcached]
  omega

variable {space : Space} {page : Page}

/-- `try_break_cow` makes a page writable whose frame has no other reference, or gives it a
copy in a free frame. It fails only when there is none. -/
theorem tryBreakCow_cases (h : Exact [] m)
    (hk : m.tables.lookup (space, page) = some pte) (hw : pte.writable = false) :
    (m.tryBreakCow space page = (false, m) ∧ m.allocator.allocate = none) ∨
      ∃ frame, (m.tryBreakCow space page).1 = true ∧
        (m.tryBreakCow space page).2.cached = m.cached ∧
        (m.tryBreakCow space page).2.tables =
          m.tables.insert (space, page) ⟨frame, true, pte.executable⟩ ∧
        ((frame = pte.frame ∧ m.uses [] frame = 1 ∧ (m.tryBreakCow space page).2.bytes = m.bytes) ∨
          (m.uses [] frame = 0 ∧
            (m.tryBreakCow space page).2.bytes = update m.bytes frame (m.bytes pte.frame))) := by
  have hused : 0 < m.uses [] pte.frame := uses_pos hk
  have hcount := h.refcount_of_used hused
  have hro : ¬pte.writable = true := by simp [hw]
  by_cases hsole : m.cow.refcount pte.frame ≤ 1
  · have heq : m.tryBreakCow space page = (true, { m with
        tables := m.tables.insert (space, page) { pte with writable := true }
        cow := m.cow.clear pte.frame }) := by
      rw [tryBreakCow, hk]
      dsimp only
      rw [if_neg hro, if_pos hsole]
    refine .inr ⟨pte.frame, ?_, ?_, ?_, .inl ⟨rfl, by omega, ?_⟩⟩ <;> rw [heq]
  · cases ha : m.allocator.allocate with
    | none =>
      refine .inl ⟨?_, rfl⟩
      rw [tryBreakCow, hk]
      dsimp only
      rw [if_neg hro, if_neg hsole, ha]
    | some result =>
      obtain ⟨frame, allocator⟩ := result
      have heq : m.tryBreakCow space page = (true, ({ m with
          allocator
          bytes := update m.bytes frame (m.bytes pte.frame)
          tables := m.tables.insert (space, page) ⟨frame, true, pte.executable⟩
          } : Memory).releaseFrame pte.frame |>.2) := by
        rw [tryBreakCow, hk]
        dsimp only
        rw [if_neg hro, if_neg hsole, ha]
      refine .inr ⟨frame, ?_, ?_, ?_, .inr ⟨(h.allocate ha).1, ?_⟩⟩ <;> rw [heq]
      · rw [releaseFrame_cached]
      · rw [releaseFrame_tables]
      · rw [releaseFrame_bytes]

theorem not_cached_of_unused (h : m.uses [] f = 0) : m.cached f = none := by
  cases hcached : m.cached f with
  | none => rfl
  | some shared =>
    simp [uses, cacheCount, hcached] at h

/-- The processes do not see that the sharing of a page is broken. -/
theorem Private.tryBreakCow (h : Private m)
    (hk : m.tables.lookup (space, page) = some pte) (hw : pte.writable = false) :
    Private (m.tryBreakCow space page).2 ∧ (m.tryBreakCow space page).2.eager = m.eager := by
  have hexact := h.exact.tryBreakCow space page
  have hown : m.cached pte.frame ≠ some true := by
    intro hfile
    have := h.file _ _ hk hfile
    simp [hw] at this
  obtain ⟨heq, -⟩ | ⟨frame, -, hcached, htables, hframe⟩ := tryBreakCow_cases h.exact hk hw
  · rw [heq]
    exact ⟨h, rfl⟩
  generalize (m.tryBreakCow space page).2 = m' at hexact hcached htables hframe ⊢
  have huses := uses_exchanged hk htables hcached
  have hown' : m.cached frame ≠ some true := by
    obtain ⟨rfl, -, -⟩ | ⟨hunused, -⟩ := hframe
    · exact hown
    · rw [not_cached_of_unused hunused]
      exact nofun
  -- the frames of the other pages are not the new one
  have hother : ∀ k' pte', k' ≠ (space, page) → m'.tables.lookup k' = some pte' →
      m.tables.lookup k' = some pte' := by
    intro k' pte' hne hk'
    rwa [htables, lookup_insert_ne hne] at hk'
  have hbytes : ∀ k' pte', m.tables.lookup k' = some pte' →
      m'.bytes pte'.frame = m.bytes pte'.frame := by
    intro k' pte' hk'
    obtain ⟨-, -, hsame⟩ | ⟨hunused, hcopy⟩ := hframe
    · rw [hsame]
    have hne : pte'.frame ≠ frame := by
      rintro rfl
      have hpos : 0 < m.uses [] pte'.frame := uses_pos hk'
      omega
    rw [hcopy, update_of_ne hne]
  have hnew : m'.bytes frame = m.bytes pte.frame := by
    obtain ⟨rfl, -, hsame⟩ | ⟨-, hcopy⟩ := hframe
    · rw [hsame]
    · rw [hcopy, update_self]
  refine ⟨⟨hexact, fun k' pte' hk' hw' hown'' => ?_, fun k' pte' hk' hfile => ?_⟩, ?_⟩
  · rw [hcached] at hown''
    have hcount := huses pte'.frame
    by_cases hkk : k' = (space, page)
    · subst hkk
      rw [htables, lookup_insert] at hk'
      cases hk'
      obtain ⟨rfl, hone, -⟩ | ⟨hunused, -⟩ := hframe
      · simp only [if_true] at hcount
        dsimp only
        omega
      · simp only [if_true] at hcount
        dsimp only
        omega
    · have hbefore := hother k' pte' hkk hk'
      have halone := h.alone k' pte' hbefore hw' hown''
      have hpos : 0 < m.uses [] pte'.frame := uses_pos hbefore
      obtain ⟨rfl, -, -⟩ | ⟨hunused, -⟩ := hframe
      · dsimp only at hcount
        omega
      have hne : frame ≠ pte'.frame := by
        rintro rfl
        omega
      rw [if_neg hne] at hcount
      omega
  · rw [hcached] at hfile
    by_cases hkk : k' = (space, page)
    · subst hkk
      rw [htables, lookup_insert] at hk'
      cases hk'
      rfl
    · exact h.file k' pte' (hother k' pte' hkk hk') hfile
  · refine eager_congr (fun k' => ?_) hcached fun g hg => ?_
    · by_cases hkk : k' = (space, page)
      · subst hkk
        rw [htables, lookup_insert, hk, map_some, map_some,
          cell_own hown, cell_own (hcached ▸ hown'), hnew]
      · rw [htables, lookup_insert_ne hkk]
        refine map_congr fun pte' hpte' => ?_
        rw [cell, cell, hcached, hbytes k' pte' (mem_def.mp hpte')]
    · obtain ⟨-, -, hsame⟩ | ⟨hunused, hcopy⟩ := hframe
      · rw [hsame]
      have hne : g ≠ frame := by
        rintro rfl
        exact hown' hg
      rw [hcopy, update_of_ne hne]

end Memory

end WovenHat.Paging
