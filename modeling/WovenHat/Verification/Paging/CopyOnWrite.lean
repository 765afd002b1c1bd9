import WovenHat.Verification.Paging.Setup

/-! # Copy-on-write is eager copying

No process can tell whether its pages were shared with its children or copied. -/

namespace WovenHat.Paging

open Library Memory Eager Spaces Outcome

/-- What the page faults of lazy mappings do to map a page: they map frames of the file cache
or pages read back from swap. -/
def Memory.Op.populates : Memory.Op → Bool
  | .mapPrivate .. | .mapFile .. | .allocateFile .. | .releaseFile .. | .reclaimFile .. => true
  | _ => false

namespace Spaces

variable {s : Spaces}

/-- The state between two accesses: a page that can be written belongs to a writable mapping,
and its frame to no other private page. -/
structure Settled (s : Spaces) : Prop where
  memory : s.memory.Private
  logical : ∀ space page pte, s.memory.tables.lookup (space, page) = some pte → pte.writable →
    s.writable space page

variable {memory : Memory} {space : Space} {page : Page} {s' : Spaces}

/-- A change of the memory that gives no page new permissions. -/
theorem Settled.mono (h : Settled s) (hprivate : memory.Private)
    (hin : s.memory.WritableIn memory) : Settled { s with memory } := by
  refine ⟨hprivate, fun space page pte hk hw => ?_⟩
  obtain ⟨pte', hk', hw'⟩ := hin _ _ hk hw
  exact h.logical space page pte' hk' hw'

/-- What the abstract model says about an access: one that is carried out has the effect and
the outcome that it has there, and one that is refused has no effect. -/
structure Simulated (s : Spaces) (access : Access) (outcome : Outcome) (s' : Spaces) : Prop where
  settled : Settled s'
  granted : outcome.granted = true → outcome = s.memory.eager.outcome access ∧
    s'.memory.eager = (s.memory.eager.effect access).getD s.memory.eager
  refused : outcome.granted = false → outcome = .finished false ∧ s'.memory.eager = s.memory.eager

theorem Simulated.of_refused (h : Settled s) {access : Access} (hprivate : memory.Private)
    (hin : s.memory.WritableIn memory) (heager : memory.eager = s.memory.eager) :
    Simulated s access (.finished false) { s with memory } where
  settled := h.mono hprivate hin
  granted := nofun
  refused _ := ⟨rfl, heager⟩

theorem Simulated.of_poke {pte : Pte} (offset : ℕ) (byte : UInt8) (hprivate : memory.Private)
    (hlogical : ∀ space page pte, memory.tables.lookup (space, page) = some pte → pte.writable →
      s.writable space page) (heager : memory.eager = s.memory.eager)
    (hk : memory.tables.lookup (space, page) = some pte) (hw : pte.writable) :
    Simulated s (.store space page offset byte) (.finished true)
      { s with memory := memory.poke pte.frame offset byte } where
  settled := ⟨hprivate.poke _ _ _, hlogical⟩
  granted _ := by
    have hstore := hprivate.eager_poke hk hw offset byte
    rw [heager] at hstore
    simp [outcome, effect, hstore]
  refused := nofun

theorem Settled.store (h : Settled s) (space : Space) (page : Page) (offset : ℕ) (byte : UInt8) :
    Simulated s (.store space page offset byte)
      (.finished (s.store space page offset byte).1) (s.store space page offset byte).2 := by
  have hnone : Simulated s (.store space page offset byte) (.finished false) s :=
    .of_refused h h.memory (.refl _) rfl
  cases hk : s.memory.tables.lookup (space, page) with
  | none =>
    have hbreak : s.memory.tryBreakCow space page = (false, s.memory) := by
      rw [Memory.tryBreakCow, hk]
    have heq : s.store space page offset byte = (false, s) := by
      simp [Spaces.store, Memory.store, hk, hbreak]
    rw [heq]
    exact hnone
  | some pte =>
    by_cases hw : pte.writable = true
    · have heq : s.store space page offset byte =
          (true, { s with memory := s.memory.poke pte.frame offset byte }) := by
        simp [Spaces.store, Memory.store, hk, hw]
      rw [heq]
      exact .of_poke offset byte h.memory h.logical rfl hk hw
    have hro : pte.writable = false := by simpa using hw
    by_cases hlogical : s.writable space page = true
    · obtain ⟨hprivate, heager⟩ := h.memory.tryBreakCow hk hro
      have hstore : s.store space page offset byte =
          if (s.memory.tryBreakCow space page).1 then
            (((s.memory.tryBreakCow space page).2.store space page offset byte).1,
              { s with
                memory := ((s.memory.tryBreakCow space page).2.store space page offset byte).2 })
          else (false, { s with memory := (s.memory.tryBreakCow space page).2 }) := by
        simp [Spaces.store, Memory.store, hk, hro, hlogical]
      obtain ⟨heq, -⟩ | ⟨frame, hok, -, htables, -⟩ :=
        Memory.tryBreakCow_cases h.memory.exact hk hro
      · rw [heq] at hstore
        rw [hstore]
        exact hnone
      rw [hok, if_pos rfl] at hstore
      generalize (s.memory.tryBreakCow space page).2 = m at hprivate heager hstore htables
      have hnew : m.tables.lookup (space, page) = some ⟨frame, true, pte.executable⟩ := by
        rw [htables, AList.lookup_insert]
      have hpoke : m.store space page offset byte = (true, m.poke frame offset byte) := by
        simp [Memory.store, hnew]
      rw [hpoke] at hstore
      rw [hstore]
      refine .of_poke offset byte hprivate (fun space' page' pte' hk' hw' => ?_) heager hnew rfl
      by_cases hkk : (space', page') = (space, page)
      · cases hkk
        exact hlogical
      · rw [htables, AList.lookup_insert_ne hkk] at hk'
        exact h.logical space' page' pte' hk' hw'
    · have heq : s.store space page offset byte = (false, s) := by
        simp [Spaces.store, Memory.store, hk, hro, hlogical]
      rw [heq]
      exact hnone

theorem Settled.shareMapping (h : Settled s) (source destination : Space) (start : Page)
    (size : ℕ) (writable executable : Bool) (fails : ℕ → Bool) :
    Simulated s (.shareMapping source destination start size writable executable fails)
      (.finished (s.shareMapping source destination start size writable executable fails).1)
      (s.shareMapping source destination start size writable executable fails).2 := by
  unfold Spaces.shareMapping
  split
  swap
  · exact .of_refused h h.memory (.refl _) rfl
  rename_i hpages
  have hwritable : ∀ i < size, ∀ pte, s.memory.tables.lookup (source, start + i) = some pte →
      pte.writable → writable := by
    intro i hi pte hk hw
    rw [← (hpages i hi).1]
    exact h.logical source (start + i) pte hk hw
  generalize hr : s.memory.shareUserRange source destination start size writable executable fails =
    result
  obtain ⟨hprivate, hin, hko, hok⟩ := h.memory.shareUserRange hr hwritable
    fun i hi => (hpages i hi).2
  obtain ⟨ok, m⟩ := result
  cases ok with
  | false => exact .of_refused h hprivate hin (hko rfl)
  | true =>
    refine ⟨⟨hprivate, fun space page pte hk hw => ?_⟩, fun _ => ?_, nofun⟩
    · obtain ⟨pte', hk', hw'⟩ := hin _ _ hk hw
      have hout : ¬(space = destination ∧ InRange start size page) := by
        rintro ⟨rfl, hpage⟩
        have hfree := copyMapping_free (hok rfl) hpage
        rw [eager_cells hk'] at hfree
        cases hfree
      exact (if_neg hout).trans (h.logical space page pte' hk' hw')
    · simp [outcome, effect, hok rfl]

theorem Settled.shareFilePage (h : Settled s) (source destination : Space) (page : Page)
    (fails : Bool) : Simulated s (.shareFilePage source destination page fails)
      (.finished (s.shareFilePage source destination page fails).1)
      (s.shareFilePage source destination page fails).2 := by
  have hnone : Simulated s (.shareFilePage source destination page fails) (.finished false) s :=
    .of_refused h h.memory (.refl _) rfl
  unfold Spaces.shareFilePage
  split
  swap
  · exact hnone
  rename_i hpage
  cases hk : s.memory.tables.lookup (source, page) with
  | none => exact hnone
  | some pte =>
    have hfile : s.memory.cached pte.frame = some true := by
      simpa [isFilePage, hk] using hpage
    dsimp only
    generalize hr : s.memory.mapFileFrame destination page pte.frame true fails = result
    obtain ⟨hprivate, hcases⟩ := h.memory.mapFileFrame hr hfile
    obtain ⟨hko, hok⟩ := h.memory.mapFilePage hr hk hfile
    obtain ⟨ok, m⟩ := result
    cases ok with
    | false => exact .of_refused h hprivate (hko rfl).1 (hko rfl).2
    | true =>
      refine ⟨⟨hprivate, fun space page' pte' hk' hw' => ?_⟩, fun _ => ?_, by rintro ⟨⟩⟩
      · by_cases hnew : space = destination ∧ page' = page
        · exact if_pos hnew
        obtain hbefore | ⟨hkk, -⟩ := hcases _ _ hk'
        · exact (if_neg hnew).trans (h.logical space page' pte' hbefore hw')
        · exact absurd (by simpa using hkk) hnew
      · simp [outcome, effect, hok rfl]

/-- Every access does what it does in the abstract model. -/
theorem Settled.exec (h : Settled s) (access : Access) :
    Simulated s access (s.exec access).1 (s.exec access).2 := by
  cases access with
  | load space page offset =>
    refine ⟨h, fun _ => ⟨?_, rfl⟩, nofun⟩
    exact congrArg loaded (load_eq _ _ _ _)
  | store space page offset byte => exact h.store space page offset byte
  | shareMapping source destination start size writable executable fails =>
    exact h.shareMapping source destination start size writable executable fails
  | shareFilePage source destination page fails => exact h.shareFilePage source destination page fails

theorem Settled.run_eq (h : Settled s) (accesses : List Access) : s.run accesses =
      s.memory.eager.run (accesses.zip ((s.run accesses).map granted)) := by
  induction accesses generalizing s with
  | nil => rfl
  | cons access accesses ih =>
    obtain ⟨hsettled, hgranted, hrefused⟩ := h.exec access
    rw [run, List.map_cons, List.zip_cons_cons]
    cases hcase : (s.exec access).1.granted with
    | true =>
      obtain ⟨houtcome, heager⟩ := hgranted hcase
      rw [Eager.run, ← houtcome, ← heager, ← ih hsettled]
    | false =>
      obtain ⟨houtcome, heager⟩ := hrefused hcase
      rw [Eager.run, ← houtcome, ← heager, ← ih hsettled]

/-! ## Reachable states -/

theorem settled_boot {frames : List Frame} (hnodup : frames.Nodup) (bytes : Frame → ℕ → UInt8) :
    Settled (boot frames bytes) where
  memory := ⟨exact_boot hnodup bytes, nofun, nofun⟩
  logical := nofun

/-- What page faults do to the memory: mapped pages stay, and new pages have the permission of
their mapping. -/
structure Grows (s : Spaces) (memory : Memory) : Prop where
  isPrivate : memory.Private
  kept : s.memory.Extends memory
  new : ∀ space page pte, memory.tables.lookup (space, page) = some pte →
    s.memory.tables.lookup (space, page) = some pte ∨ (pte.writable → s.writable space page)

theorem Grows.of_tables (hgrows : memory.Private ∧ s.memory.Extends memory ∧
    memory.tables = s.memory.tables) : Grows s memory :=
  ⟨hgrows.1, hgrows.2.1, fun _ _ _ hk => .inl (hgrows.2.2 ▸ hk)⟩

theorem Grows.of_insert {writable : Bool} (hprivate : memory.Private)
    (hkept : s.memory.Extends memory) (hcases : ∀ k pte, memory.tables.lookup k = some pte →
      s.memory.tables.lookup k = some pte ∨ k = (space, page) ∧ pte.writable = writable)
    (hpermitted : writable → s.writable space page) : Grows s memory := by
  refine ⟨hprivate, hkept, fun space' page' pte hk => (hcases _ _ hk).imp_right ?_⟩
  rintro ⟨⟨⟩, rfl⟩
  exact hpermitted

theorem Settled.grows (h : Settled s) {op : Memory.Op} (hop : op.populates = true)
    (hstep : s.step (.paging op) = some s') : ∃ memory, s' = { s with memory } ∧ Grows s memory := by
  cases op with
  | map | share | breakCow | unmap | destroy => cases hop
  | mapPrivate space page bytes writable fails =>
    unfold step at hstep
    dsimp only at hstep
    split at hstep
    · rename_i hpermitted
      cases hstep
      obtain ⟨hprivate, hkept, hcases⟩ :=
        h.memory.mapPrivateFrameFromBytes space page bytes writable fails
      exact ⟨_, rfl, .of_insert hprivate hkept hcases fun hw => hpermitted.trans hw⟩
    · cases hstep
  | allocateFile bytes shared =>
    cases hstep
    exact ⟨_, rfl, .of_tables (h.memory.allocateFileFrame bytes shared)⟩
  | mapFile space page frame writable fails =>
    unfold step at hstep
    dsimp only [Memory.step] at hstep
    split at hstep
    · rename_i hpermitted
      split at hstep
      · rename_i hfile
        cases hstep
        obtain ⟨hprivate, hcases⟩ := h.memory.mapFileFrame rfl hfile
        exact ⟨_, rfl, .of_insert hprivate (mapFile_extends ..) hcases hpermitted⟩
      · cases hstep
    · cases hstep
  | releaseFile frame =>
    unfold step at hstep
    dsimp only [Memory.step] at hstep
    split at hstep
    · rename_i hlast
      exact ⟨_, (Option.some.inj hstep).symm, .of_tables
        (h.memory.releaseFileFrame hlast.1 hlast.2)⟩
    · cases hstep
  | reclaimFile frame =>
    unfold step at hstep
    dsimp only [Memory.step] at hstep
    split at hstep
    · rename_i hlast
      exact ⟨_, (Option.some.inj hstep).symm, .of_tables
        (h.memory.reclaimFileFrame hlast.1 hlast.2)⟩
    · cases hstep

/-- `map_user_range_in` with the permission of the new mapping. -/
theorem Settled.map (h : Settled s) (space : Space) (start : Page) (size : ℕ)
    (writable executable : Bool) (fails : ℕ → Bool)
    (hstep : s.step (.paging (.map space start size writable executable fails)) = some s') :
    Settled s' := by
  unfold step at hstep
  dsimp only at hstep
  generalize hr : s.memory.mapUserRange space start size writable executable fails = result at hstep
  obtain ⟨hprivate, hko, hok⟩ := h.memory.mapUserRange hr
  obtain ⟨ok, m⟩ := result
  cases ok with
  | false =>
    cases hstep
    exact h.mono hprivate (hko rfl)
  | true =>
    cases hstep
    obtain ⟨hother, hmapped⟩ := hok rfl
    refine ⟨hprivate, fun space' page' pte hk hw => ?_⟩
    by_cases hin : space' = space ∧ InRange start size page'
    · obtain ⟨i, hi, hpage⟩ := inRange_iff.mp hin.2
      refine (if_pos hin).trans ?_
      rw [← hmapped i hi pte (by rw [← hpage, ← hin.1]; exact hk)]
      exact hw
    · refine (if_neg hin).trans (h.logical space' page' pte ?_ hw)
      rw [← hother (space', page') fun i hi heq => ?_]
      · exact hk
      · cases heq
        exact hin ⟨rfl, inRange_iff.mpr ⟨i, hi, rfl⟩⟩

theorem Settled.of_step (h : Settled s) {call : Call}
    (hstep : s.step call = some s') : Settled s' := by
  cases call with
  | access access => exact Option.some.inj hstep ▸ (h.exec access).settled
  | mapLazily space start size writable =>
    unfold step at hstep
    dsimp only at hstep
    split at hstep
    · rename_i hfree
      cases hstep
      refine ⟨h.memory, fun space' page' pte hk hw => ?_⟩
      have hout : ¬(space' = space ∧ InRange start size page') := by
        rintro ⟨rfl, hrange⟩
        obtain ⟨i, hi, rfl⟩ := inRange_iff.mp hrange
        have hnone := Option.isNone_iff_eq_none.mp (hfree i hi)
        exact absurd (hnone.symm.trans hk) nofun
      exact (if_neg hout).trans (h.logical space' page' pte hk hw)
    · cases hstep
  | paging op =>
    cases op with
    | map space start size writable executable fails =>
      exact h.map space start size writable executable fails hstep
    | share => cases hstep
    | breakCow => cases hstep
    | unmap space start size =>
      cases hstep
      obtain ⟨hprivate, hin⟩ := h.memory.unmapUserRange space start size
      exact h.mono hprivate hin
    | destroy space ranges =>
      cases hstep
      obtain ⟨hprivate, hin⟩ := h.memory.destroyUserAddressSpace space ranges
      exact h.mono hprivate hin
    | mapPrivate | allocateFile | mapFile | releaseFile | reclaimFile =>
      obtain ⟨memory, rfl, hgrows⟩ := h.grows rfl hstep
      refine ⟨hgrows.isPrivate, fun space page pte hk hw => ?_⟩
      obtain hbefore | hnew := hgrows.new space page pte hk
      · exact h.logical space page pte hbefore hw
      · exact hnew hw

/-- From every reachable state, whatever the processes load, store and share in whatever
order, they observe what they would observe if every shared page had been copied. An access
may be refused for want of memory, and then changes nothing. -/
theorem cow_fork_eq_eager_copy {frames : List Frame} (hnodup : frames.Nodup)
    (bytes : Frame → ℕ → UInt8) (calls : List Call) (accesses : List Access) :
    let s := runAll step (boot frames bytes) calls
    s.run accesses = s.memory.eager.run (accesses.zip ((s.run accesses).map granted)) :=
  (runAll_induct (settled_boot hnodup bytes) (fun _ _ _ h hstep => h.of_step hstep) calls).run_eq
    accesses

/-- A parent with one page, a child that writes to it, and a grandchild. -/
theorem cow_fork_eq_eager_copy_grandchild :
    let s := runAll step (boot [0, 1, 2] fun _ _ => 0)
      [.paging (.map 0 0 1 true false fun _ => false), .access (.store 0 0 5 7)]
    let accesses : List Access :=
      [.shareMapping 0 1 0 1 true false fun _ => false,
        .shareMapping 1 2 0 1 true false fun _ => false,
        .store 1 0 5 9, .load 0 0 5, .load 1 0 5, .load 2 0 5]
    ([0, 1, 2] : List Frame).Nodup ∧
      s.run accesses = s.memory.eager.run (accesses.zip ((s.run accesses).map granted)) ∧
      s.run accesses = [.finished true, .finished true, .finished true, .loaded (some 7),
        .loaded (some 9), .loaded (some 7)] :=
  ⟨by decide, cow_fork_eq_eager_copy (by decide) _ _ _, by decide +kernel⟩

end Spaces

end WovenHat.Paging
