import WovenHat.Verification.Paging.CopyOnWrite
import WovenHat.Verification.Paging.UserCopy

/-! # Read-only pages stay read-only

A page outside every writable mapping keeps its contents while processes run, until it is
evicted. A byte that `copy_to_current_user` writes is a store here: the copy looks at the same
flags and calls the same fault handlers. -/

namespace WovenHat.Paging

open Library Eager UserCopy.Tables

/-- What happens while processes run: accesses, and page faults, which map pages and, without
a free frame, evict one of any process. -/
def Call.runs : Call → Bool
  | .access _ => true
  | .paging (.unmap _ _ size) => size == 1
  | .paging op => op.populates
  | .mapLazily .. => false

/-- The page is evicted. -/
def Call.evicts (space : Space) (page : Page) : Call → Bool
  | .paging (.unmap space' page' _) => space' == space && page' == page
  | _ => false

namespace Spaces

variable {s s' : Spaces} {space : Space} {page : Page} {bytes : ℕ → UInt8}

/-- The page lies in no writable mapping and holds `bytes`. -/
structure ReadOnly (s : Spaces) (space : Space) (page : Page) (bytes : ℕ → UInt8) : Prop where
  permission : s.writable space page = false
  contents : s.memory.eager.cells (space, page) = some (.own bytes)

/-- The frames of shared file mappings are mapped writable, so they are none of these. -/
theorem Settled.readOnly (h : Settled s) {pte : Pte}
    (hk : s.memory.tables.lookup (space, page) = some pte) (hperm : s.writable space page = false) :
    s.ReadOnly space page (s.memory.bytes pte.frame) := by
  refine ⟨hperm, ?_⟩
  have hown : s.memory.cached pte.frame ≠ some true := by
    intro hfile
    have hlogical := h.logical space page pte hk (h.memory.file _ pte hk hfile)
    exact absurd (hperm.symm.trans hlogical) nofun
  rw [Memory.eager_cells hk, Memory.cell_own hown]

theorem ReadOnly.load (h : s.ReadOnly space page bytes) (offset : ℕ) :
    s.memory.load space page offset = some (bytes offset) := by
  rw [Memory.load_eq, Eager.load, h.contents]
  rfl

/-! ## Accesses -/

theorem Settled.store_refused (h : Settled s) (hperm : s.writable space page = false)
    (offset : ℕ) (byte : UInt8) : (s.store space page offset byte).1 = false := by
  have hstore : s.memory.store space page offset byte = (false, s.memory) := by
    unfold Memory.store
    cases hk : s.memory.tables.lookup (space, page) with
    | none => rfl
    | some pte =>
      have hw : ¬pte.writable = true := fun hw =>
        absurd (hperm.symm.trans (h.logical space page pte hk hw)) nofun
      exact if_neg hw
  simp [Spaces.store, hstore, hperm]

theorem store_writable (s : Spaces) (space : Space) (page : Page) (offset : ℕ) (byte : UInt8) :
    (s.store space page offset byte).2.writable = s.writable := by
  unfold Spaces.store
  dsimp only
  split
  · rfl
  split
  · split <;> rfl
  · rfl

theorem shareMapping_writable {source destination : Space} {start : Page} {size : ℕ}
    {writable executable : Bool} {fails : ℕ → Bool}
    (hout : (s.shareMapping source destination start size writable executable fails).1 = true →
      ¬(space = destination ∧ InRange start size page)) :
    (s.shareMapping source destination start size writable executable fails).2.writable space page =
      s.writable space page := by
  unfold Spaces.shareMapping at hout ⊢
  split
  · rename_i hpages
    rw [if_pos hpages] at hout
    generalize s.memory.shareUserRange source destination start size writable executable fails =
      result at hout ⊢
    obtain ⟨ok, memory⟩ := result
    cases ok with
    | false => rfl
    | true => exact if_neg (hout rfl)
  · rfl

theorem shareFilePage_writable {source destination : Space} {page' : Page} {fails : Bool}
    (hout : (s.shareFilePage source destination page' fails).1 = true →
      ¬(space = destination ∧ page = page')) :
    (s.shareFilePage source destination page' fails).2.writable space page =
      s.writable space page := by
  unfold Spaces.shareFilePage at hout ⊢
  split
  · rename_i hfile
    rw [if_pos hfile] at hout
    cases hk : s.memory.tables.lookup (source, page') with
    | none => rfl
    | some pte =>
      rw [hk] at hout
      dsimp only at hout ⊢
      generalize s.memory.mapFileFrame destination page' pte.frame true fails = result at hout ⊢
      obtain ⟨ok, memory⟩ := result
      cases ok with
      | false => rfl
      | true => exact if_neg (hout rfl)
  · rfl

theorem store_cells_of_ne {e : Eager} {k k' : Space × Page} (hne : k ≠ k')
    (offset : ℕ) (byte : UInt8) : ((e.store k' offset byte).getD e).cells k = e.cells k := by
  cases hcell : e.cells k' with
  | none => rw [Eager.store, hcell]; rfl
  | some cell =>
    cases cell with
    | own bytes =>
      rw [store_own offset byte hcell]
      exact Function.update_of_ne hne _ _
    | file frame => rw [store_file offset byte hcell]; rfl

/-- A read-only page is not written by an access, nor is it in a range that one maps. -/
theorem ReadOnly.exec (h : s.ReadOnly space page bytes) (hs : Settled s) (access : Access) :
    (s.exec access).2.ReadOnly space page bytes := by
  obtain ⟨hperm, hcontents⟩ := h
  have hsimulated := hs.exec access
  -- an access that is refused leaves the contents, so only its effect remains to be seen
  have hcontents' (heffect : ∀ e, (s.exec access).1.granted = true →
      s.memory.eager.effect access = some e →
      e.cells (space, page) = s.memory.eager.cells (space, page)) :
      (s.exec access).2.memory.eager.cells (space, page) = some (.own bytes) := by
    cases hgranted : (s.exec access).1.granted with
    | false => rw [(hsimulated.refused hgranted).2, hcontents]
    | true =>
      rw [(hsimulated.granted hgranted).2, ← hcontents]
      cases he : s.memory.eager.effect access with
      | none => rfl
      | some e => exact heffect e hgranted he
  cases access with
  | load space' page' offset => exact ⟨hperm, hcontents⟩
  | store space' page' offset byte =>
    refine ⟨(congrFun₂ (store_writable s space' page' offset byte) _ _).trans hperm,
      hcontents' fun e hgranted he => ?_⟩
    have hne : (space, page) ≠ (space', page') := by
      rintro ⟨⟩
      exact absurd ((hs.store_refused hperm offset byte).symm.trans hgranted) nofun
    have hcells := store_cells_of_ne (e := s.memory.eager) hne offset byte
    rwa [show s.memory.eager.store _ _ _ = some e from he] at hcells
  | shareMapping source destination start size writable executable fails =>
    have hout {e : Eager}
        (he : s.memory.eager.copyMapping source destination start size = some e) :
        ¬(space = destination ∧ InRange start size page) := by
      rintro ⟨rfl, hpage⟩
      cases hcontents.symm.trans (copyMapping_free he hpage)
    refine ⟨(shareMapping_writable fun hok => ?_).trans hperm, hcontents' fun e _ he => ?_⟩
    · obtain ⟨e, he⟩ := Option.isSome_iff_exists.mp
        ((Outcome.finished.inj (hsimulated.granted hok).1).symm.trans hok)
      exact hout he
    have hne := hout he
    have he' : s.memory.eager.copyMapping source destination start size = some e := he
    unfold copyMapping at he'
    split at he'
    · cases he'
      exact if_neg hne
    · cases he'
  | shareFilePage source destination page' fails =>
    have hout {e : Eager} (he : s.memory.eager.copyFilePage source destination page' = some e) :
        ¬(space = destination ∧ page = page') := by
      rintro ⟨rfl, rfl⟩
      unfold copyFilePage at he
      split at he
      · rename_i hpages
        rw [hcontents] at hpages
        cases hpages.2
      · cases he
    refine ⟨(@shareFilePage_writable s space page source destination page' fails
      fun hok => ?_).trans hperm,
      hcontents' fun e _ he => ?_⟩
    · obtain ⟨e, he⟩ := Option.isSome_iff_exists.mp
        ((Outcome.finished.inj (hsimulated.granted hok).1).symm.trans hok)
      exact hout he
    have hne : (space, page) ≠ (destination, page') := fun heq =>
      hout he (by simpa using heq)
    have he' : s.memory.eager.copyFilePage source destination page' = some e := he
    unfold copyFilePage at he'
    split at he'
    · cases he'
      rw [copy_one, if_neg hne]
    · cases he'

/-! ## Evictions -/

theorem unmapUserRange_one (m : Memory) (space : Space) (page : Page) :
    (m.unmapUserRange space page 1).2 = m.unmapShared space page := by
  rw [← Memory.unmapPage_eq]
  simp only [Memory.unmapUserRange, Memory.forPages, Nat.add_zero, one_ne_zero, if_false]
  split <;> rfl

theorem unmapShared_cells (m : Memory) {k : Space × Page} {space : Space} {page : Page}
    (hne : k ≠ (space, page)) : (m.unmapShared space page).eager.cells k = m.eager.cells k := by
  obtain ⟨hcached, hbytes, -⟩ := Memory.unmapShared_fields m space page
  simp only [Memory.eager, Memory.unmapShared_lookup, if_neg hne]
  congr 1
  funext pte
  simp only [Memory.cell, hcached, hbytes]

/-! ## Runs -/

theorem ReadOnly.of_step (h : s.ReadOnly space page bytes) (hs : Settled s) {call : Call}
    (hcall : call.runs = true) (hkept : call.evicts space page = false)
    (hstep : s.step call = some s') : s'.ReadOnly space page bytes := by
  cases call with
  | access access => exact Option.some.inj hstep ▸ h.exec hs access
  | mapLazily => cases hcall
  | paging op =>
    by_cases hunmap : ∃ space' page' size, op = .unmap space' page' size
    · obtain ⟨space', page', size, rfl⟩ := hunmap
      obtain rfl : size = 1 := by simpa [Call.runs] using hcall
      cases hstep
      refine ⟨h.permission, ?_⟩
      have hne : (space, page) ≠ (space', page') := by
        rintro ⟨⟩
        simp [Call.evicts] at hkept
      rw [unmapUserRange_one, unmapShared_cells _ hne]
      exact h.contents
    · have hop : op.populates = true := by
        cases op with
        | unmap space' page' size => exact absurd ⟨_, _, _, rfl⟩ hunmap
        | _ => exact hcall
      obtain ⟨memory, rfl, hgrows⟩ := hs.grows hop hstep
      exact ⟨h.permission, hgrows.kept.cells h.contents⟩

theorem ReadOnly.of_run (h : s.ReadOnly space page bytes) (hs : Settled s) {calls : List Call}
    (hcalls : ∀ call ∈ calls, call.runs = true)
    (hkept : ∀ call ∈ calls, call.evicts space page = false) :
    (runAll step s calls).ReadOnly space page bytes := by
  induction calls generalizing s with
  | nil => exact h
  | cons call calls ih =>
    rw [runAll]
    cases hstep : s.step call with
    | none => exact h
    | some s' =>
      exact ih (h.of_step hs (hcalls call List.mem_cons_self) (hkept call List.mem_cons_self) hstep)
        (hs.of_step hstep) (fun other hother => hcalls other (List.mem_cons_of_mem _ hother))
        fun other hother => hkept other (List.mem_cons_of_mem _ hother)

/-- From every reachable state on, a page outside every writable mapping keeps its contents
whatever the processes do and whatever faults they take, unless a fault evicts it. The copies from and to user memory
access the given range only, in frames that the tables map for the user, and for writing if
the copy writes. -/
theorem read_only_pages_kept {frames : List Frame} (hnodup : frames.Nodup)
    (bytes : Frame → ℕ → UInt8) (before calls : List Call)
    (hcalls : ∀ call ∈ calls, call.runs = true) :
    let s := runAll step (boot frames bytes) before
    let s' := runAll step s calls
    (∀ space page, (s.memory.tables.lookup (space, page)).isSome →
      s.writable space page = false → (∀ call ∈ calls, call.evicts space page = false) →
      s'.writable space page = false ∧
        ∀ offset, (s.memory.load space page offset).isSome ∧
          s'.memory.load space page offset = s.memory.load space page offset) ∧
    ∀ start length tables passes,
      (∀ chunk ∈ (UserCopy.run copyToPass start length tables passes).chunks,
        ∃ pass copied, copied + chunk.count ≤ length ∧
          UserCopy.Access true (tables pass) start length copied chunk) ∧
      ∀ chunk ∈ (UserCopy.run copyFromPass start length tables passes).chunks,
        ∃ pass copied, copied + chunk.count ≤ length ∧
          UserCopy.Access false (tables pass) start length copied chunk := by
  intro s s'
  have hs : Settled s :=
    runAll_induct (settled_boot hnodup bytes) (fun _ _ _ h hstep => h.of_step hstep) before
  refine ⟨fun space page hmapped hpermission hkept => ?_, fun start length tables passes =>
    ⟨(UserCopy.ok_run copyToPass_spec passes).accesses,
      (UserCopy.ok_run (copyPass_spec false) passes).accesses⟩⟩
  obtain ⟨pte, hk⟩ := Option.isSome_iff_exists.mp hmapped
  have hbefore := hs.readOnly hk hpermission
  have hafter := hbefore.of_run hs hcalls hkept
  refine ⟨hafter.permission, fun offset => ?_⟩
  rw [hbefore.load, hafter.load]
  exact ⟨rfl, rfl⟩

/-- A child stores to a page shared with its parent, whose mapping is read-only there, and
another page of the child is evicted. -/
theorem read_only_pages_kept_child :
    let s := runAll step (boot [0, 1, 2] fun _ _ => 7)
      [.paging (.map 0 0 2 false true fun _ => false)]
    let s' := runAll step s [.access (.shareMapping 0 1 0 2 false true fun _ => false),
      .access (.store 1 0 5 9), .access (.store 0 0 5 9), .paging (.unmap 1 1 1)]
    s.memory.load 0 0 5 = some 7 ∧ s'.memory.load 0 0 5 = s.memory.load 0 0 5 :=
  have h := @read_only_pages_kept [0, 1, 2] (by decide) (fun _ _ => 7)
    [.paging (.map 0 0 2 false true fun _ => false)]
    [.access (.shareMapping 0 1 0 2 false true fun _ => false), .access (.store 1 0 5 9),
      .access (.store 0 0 5 9), .paging (.unmap 1 1 1)] (by simp [Call.runs])
  ⟨by decide +kernel,
    ((h.1 0 0 (by decide +kernel) (by decide +kernel) (by simp [Call.evicts])).2 5).2⟩

/-! ## Reloaded pages -/

/-- A file of one page of sevens is mapped shared and writable by process 1, and privately and
read-only by process 0. Both have the page. -/
def bothMapped : List Call :=
  [.mapLazily 0 0 1 false, .mapLazily 1 0 1 true, .paging (.allocateFile (fun _ => 7) true),
    .paging (.mapFile 1 0 0 true false), .paging (.allocateFile (fun _ => 7) false),
    .paging (.mapFile 0 0 1 false false)]

/-- Process 1 stores to the file. The page of process 0 is evicted by a fault and, at its next
load, read from the file again. -/
def storedAndReloaded : List Call :=
  [.access (.store 1 0 5 9), .paging (.unmap 0 0 1), .paging (.reclaimFile 1),
    .paging (.allocateFile (Function.update (fun _ => 7) 5 9) false),
    .paging (.mapFile 0 0 1 false false)]

/-- A page that no mapping makes writable shows other bytes after it has been evicted. -/
theorem evicted_page_reloaded :
    let s := runAll step (boot [0, 1, 2] fun _ _ => 0) bothMapped
    let s' := runAll step s storedAndReloaded
    (∀ call ∈ storedAndReloaded, call.runs = true) ∧ s.writable 0 0 = false ∧
      s'.writable 0 0 = false ∧ s.memory.load 0 0 5 = some 7 ∧ s'.memory.load 0 0 5 = some 9 ∧
      s'.memory.load 1 0 5 = some 9 :=
  ⟨by simp [storedAndReloaded, Call.runs, Memory.Op.populates], by decide +kernel⟩

end Spaces

end WovenHat.Paging
