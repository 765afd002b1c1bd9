import WovenHat.Model.Swap
import WovenHat.Verification.Fat32.Table

/-! # The volume and the swap area share no sector

The swap area starts where the volume ends, on the disk itself or inside a partition. -/

namespace WovenHat.Storage.PartitionDevice

open Library Block Fat32 Fallible Calls Step

variable {count : ℕ} {d : Device} {v : Volume} {α : Type}

/-! ## Partitions -/

def Reads : SectorOp → Prop
  | .write _ _ => False
  | _ => True

theorem calls_validFsInfoSector (lba reserved : ℕ) :
    Issues Reads (validFsInfoSector lba reserved) := by
  refine .ite (fun _ => .pure trivial) fun _ => ?_
  have hread : Issues Reads (Fs.readSector lba) := .call trivial _
  refine hread.attempt.bind fun result _ => ?_
  cases result <;> exact .pure trivial

theorem calls_mount : Issues Reads mount := by
  have hread : Issues Reads (Fs.readSector 0) := .call trivial _
  have hcount : Issues Reads Fs.sectorCount := .call trivial _
  refine hread.bind fun boot _ => rejectIf.bind fun _ _ => rejectIf.bind fun _ _ => ?_
  refine hcount.bind fun sectors _ => rejectIf.bind fun _ _ => ?_
  refine rejectIf.bind fun _ _ => rejectIf.bind fun _ _ => ?_
  refine (calls_validFsInfoSector _ _).bind fun _ _ => ?_
  have hbackup : Issues Reads (backupFsInfo (boot.readU16 50) (boot.readU16 14)) :=
    .ite (fun _ => .pure trivial) fun _ => calls_validFsInfoSector _ _
  exact hbackup.bind fun _ _ => .pure trivial

/-- The partition as a disk of its own. -/
def window (view : PartitionDevice count) (d : Device) : Device :=
  { d with
    sectors := view.partition.sectors
    disk := fun lba => d.disk (view.partition.startLba + lba) }

/-- A read of the partition is one of its window, and changes neither. -/
theorem run_handle_reads (view : PartitionDevice d.sectors) (op : SectorOp) (hop : Reads op) :
    (view.handle op).run d =
        ((Program.Environment.handle op (view.window d) : SectorOp.Resp op × Device).1, d) ∧
      (Program.Environment.handle op (view.window d) : SectorOp.Resp op × Device).2 =
        view.window d := by
  have hin := view.inside
  have haddr := view.addressable
  cases op with
  | sectorCount => exact ⟨rfl, rfl⟩
  | write lba sector => exact hop.elim
  | read lba =>
    refine ⟨?_, rfl⟩
    by_cases hlba : view.partition.sectors ≤ lba
    · have habsolute : view.absoluteLba lba = .error .outOfBounds := if_pos hlba
      have hread : (view.window d).read lba = .error .outOfBounds := if_neg (not_lt.mpr hlba)
      simp only [handle, habsolute]
      exact Prod.ext hread.symm rfl
    have habsolute : view.absoluteLba lba = .ok (view.partition.startLba + lba) := by
      rw [absoluteLba, if_neg hlba, if_neg (by omega)]
    have hinside : view.partition.startLba + lba < d.sectors := by omega
    have hread : (view.window d).read lba = d.read (view.partition.startLba + lba) :=
      (if_pos (not_le.mp hlba)).trans (if_pos hinside).symm
    simp only [handle, habsolute]
    exact Prod.ext hread.symm rfl

/-- Mounting through a partition checks the geometry against the partition. -/
theorem accepted_of_through (view : PartitionDevice d.sectors)
    (hmount : ((view.through mount).exec d).1 = .ok v) : v.Accepted view.partition.sectors := by
  have hrun : (view.through mount).exec d = ((mount.exec (view.window d)).1, d) :=
    Program.Ensures.run_interpret calls_mount view.run_handle_reads
  rw [hrun] at hmount
  exact accepted_of_mount hmount

theorem new_partition (view : PartitionDevice count) :
    PartitionDevice.new count view.partition = .ok view := by
  have hin := view.inside
  have hpos := view.start_pos
  have hsize := view.sectors_pos
  rw [PartitionDevice.new, dif_neg (not_le.mpr view.addressable), dif_neg (by omega)]

/-- What a computation writes through the partition is a sector that it writes, moved to
where the partition starts. -/
theorem calls_through (view : PartitionDevice count) {p : Fs α} {Q : α → Prop} (hp : v.Confines p Q)
    : Calls (fun op => ∀ lba sector, op = .write lba sector →
        ∃ relative, v.Writable relative ∧ relative < view.partition.sectors ∧
          lba = view.partition.startLba + relative)
      (view.through p) Q := by
  refine Program.Ensures.interpret hp fun op hop => ?_
  cases op with
  | sectorCount => exact trivial
  | read lba =>
    simp only [handle]
    split
    · exact trivial
    · exact ⟨nofun, fun _ => trivial⟩
  | write lba sector =>
    simp only [handle]
    split
    · exact trivial
    rename_i absolute habsolute
    refine ⟨?_, fun _ => trivial⟩
    rintro _ _ ⟨⟩
    simp only [absoluteLba] at habsolute
    split_ifs at habsolute with hlba _
    cases habsolute
    exact ⟨lba, hop, not_le.mp hlba, rfl⟩

end WovenHat.Storage.PartitionDevice

namespace WovenHat.Swap

open Library Block Fat32 Storage Fallible Program

/-! ## The area -/

/-- The area is the one that was asked for, unless an earlier one was kept. -/
theorem startLba_of_configureSwapArea {startLba limitLba : ℕ} {st st' : State}
    {result : Option ℕ} (h : configureSwapArea startLba limitLba st = (result, st'))
    (hchosen : result.isSome ∨ st.disk = none) {disk : DiskBacking} (hdisk : st'.disk = some disk) :
    disk.startLba = startLba := by
  have hkept : (none, st) ≠ (result, st') := by
    rintro ⟨⟩
    simp [hdisk] at hchosen
  simp only [configureSwapArea, State.configureDisk] at h
  split_ifs at h
  · exact absurd h hkept
  · exact absurd h hkept
  · exact absurd h hkept
  cases h
  cases hdisk
  rfl

theorem Step.apply_disk (st : State) (step : Step) : (step.apply st).disk = st.disk := by
  cases step with
  | reserve =>
    simp only [apply, State.reserveDisk]
    split
    · rfl
    · split <;> rfl
  | publish index generation =>
    simp only [apply, State.publishReservedDisk]
    split
    · rfl
    · split <;> rfl
  | cancel index generation =>
    simp only [apply, State.cancelReserved]
    split
    · rfl
    · split <;> rfl
  | allocateRam bytes =>
    simp only [apply, State.allocateRam]
    split <;> rfl
  | share handle =>
    simp only [apply, State.share]
    split
    · rfl
    · split <;> rfl
  | release handle =>
    simp only [apply, State.release]
    split <;> rfl

theorem State.after_disk (st : State) (steps : List Step) : (st.after steps).disk = st.disk := by
  induction steps generalizing st with
  | nil => rfl
  | cons step steps ih => exact (ih (step.apply st)).trans (step.apply_disk st)

theorem le_of_reserveDisk {st : State} {index generation lba : ℕ}
    (h : st.reserveDisk.1 = some (index, generation, lba)) :
    ∃ disk, st.disk = some disk ∧ disk.startLba ≤ lba := by
  simp only [State.reserveDisk] at h
  split at h
  · cases h
  split at h
  · cases h
  rename_i start hlba
  cases h
  simp only [State.diskLba, Option.bind_eq_bind, Option.bind_eq_some_iff] at hlba
  obtain ⟨disk, hdisk, hlba⟩ := hlba
  split_ifs at hlba
  cases hlba
  exact ⟨disk, hdisk, Nat.le_add_right _ _⟩

theorem calls_writePageLoop (startLba : ℕ) (bytes : Page) (sector count : ℕ) :
    Calls (fun op => ∀ lba data, op = .write lba data → startLba ≤ lba)
      (writePageLoop startLba bytes sector count) fun _ => True := by
  induction count generalizing sector with
  | zero => exact .pure trivial
  | succ count ih =>
    refine .ite (fun _ => .throw trivial) fun _ => ?_
    refine (Calls.call ?_ _).bind fun _ _ => ih (sector + 1)
    rintro _ _ ⟨⟩
    exact Nat.le_add_right _ _

variable {d : Device} {v : Volume}

/-- On the disk itself the area starts after the volume. -/
theorem exec_configureDirectSwap (hmount : (mount.exec d).1 = .ok v) (st : State) :
    ((configureDirectSwap st).exec d).1 = .ok (configureSwapArea v.totalSectors d.sectors st) := by
  rw [configureDirectSwap, exec_bind_ok (exec_attempt mount d), hmount]
  change Except.ok (configureSwapArea v.totalSectors (mount.exec d).2.sectors st) = _
  rw [exec_sectors]

/-- In a partition the area starts after the volume, too. -/
theorem exec_configurePartitionSwap (view : PartitionDevice d.sectors)
    (hmount : ((view.through mount).exec d).1 = .ok v) (st : State) :
    ((configurePartitionSwap d.sectors view.partition st).exec d).1 =
      .ok (configureSwapArea (view.partition.startLba + v.totalSectors)
        (view.partition.startLba + view.partition.sectors) st) := by
  have htotal := (view.accepted_of_through hmount).total
  have haddr := view.addressable
  rw [configurePartitionSwap, view.new_partition]
  rw [exec_bind_ok (exec_attempt (view.through mount) d), hmount]
  dsimp only
  rw [if_neg (by omega), if_neg (by omega)]
  rfl

/-! ## Separation -/

section

variable {S : Type} [Environment SectorOp SectorOp.Resp S]

/-- The computation, run from `s`, writes the sector. -/
def Writes {α : Type} (p : Fs α) (s : S) (lba : ℕ) : Prop :=
  ∃ sector, SectorOp.write lba sector ∈ p.run.calls s

def isWriteTo (lba : ℕ) : SectorOp → Bool
  | .write written _ => written == lba
  | _ => false

theorem any_isWriteTo_iff {α : Type} (p : Fs α) (s : S) (lba : ℕ) :
    (p.run.calls s).any (isWriteTo lba) = true ↔ Writes p s lba := by
  rw [List.any_eq_true]
  constructor
  · rintro ⟨op, hop, hwrite⟩
    cases op with
    | sectorCount => cases hwrite
    | read _ => cases hwrite
    | write written sector =>
      obtain rfl := beq_iff_eq.mp hwrite
      exact ⟨sector, hop⟩
  · rintro ⟨sector, hop⟩
    exact ⟨_, hop, beq_self_eq_true lba⟩

instance {α : Type} (p : Fs α) (s : S) (lba : ℕ) : Decidable (Writes p s lba) :=
  decidable_of_iff _ (any_isWriteTo_iff p s lba)

/-- A page that is reserved some steps after `st` is written to the sector. -/
def WritesPage (st : State) (s : S) (lba : ℕ) : Prop :=
  ∃ steps index generation start bytes,
    (st.after steps).reserveDisk.1 = some (index, generation, start) ∧
      Writes (writePageToDevice start bytes) s lba

/-- Pages are written from the start of the area on. -/
theorem WritesPage.le {startLba limitLba : ℕ} {st st' : State} {result : Option ℕ} {s : S} {lba : ℕ}
    (hpage : WritesPage st' s lba) (harea : configureSwapArea startLba limitLba st = (result, st'))
    (hchosen : result.isSome ∨ st.disk = none) : startLba ≤ lba := by
  obtain ⟨steps, index, generation, start, bytes, hreserve, sector, hwrite⟩ := hpage
  obtain ⟨disk, hdisk, hstart⟩ := le_of_reserveDisk hreserve
  rw [State.after_disk] at hdisk
  have hlba : start ≤ lba :=
    Ensures.of_mem_calls (calls_writePageLoop start bytes 0 sectorsPerPage) hwrite _ _ rfl
  exact (startLba_of_configureSwapArea harea hchosen hdisk ▸ hstart).trans hlba

/-- Every write of every sequence of mutations stays inside the volume, also through a
partition, and never meets a page of the swap area chosen when the volume was mounted. The
answers of the device are arbitrary. -/
theorem writes_confined (d : Device) (v : Volume) (ms : List Mutation) (s s' : S) (st st' : State)
    (result : Option ℕ) (hchosen : result.isSome ∨ st.disk = none) : ((mount.exec d).1 = .ok v →
      (∀ lba, Writes (mutate v ms) s lba → v.Writable lba ∧ 0 < lba ∧ lba < v.totalSectors) ∧
      (((configureDirectSwap st).exec d).1 = .ok (result, st') →
        ∀ lba, Writes (mutate v ms) s lba → ¬WritesPage st' s' lba)) ∧
    ∀ view : PartitionDevice d.sectors, ((view.through mount).exec d).1 = .ok v →
      (∀ lba, Writes (view.through (mutate v ms)) s lba →
        ∃ relative, lba = view.partition.startLba + relative ∧
          v.Writable relative ∧ 0 < relative ∧ relative < v.totalSectors ∧
          relative < view.partition.sectors) ∧
      (((configurePartitionSwap d.sectors view.partition st).exec d).1 = .ok (result, st') →
        ∀ lba, Writes (view.through (mutate v ms)) s lba → ¬WritesPage st' s' lba) := by
  constructor
  · intro hmount
    have hv := accepted_of_mount hmount
    have hwrites : ∀ lba, Writes (mutate v ms) s lba →
        v.Writable lba ∧ 0 < lba ∧ lba < v.totalSectors := by
      rintro lba ⟨sector, hwrite⟩
      have hwritable := Ensures.of_mem_calls (confines_mutate hv.cluster_pos ms) hwrite
      exact ⟨hwritable, Volume.Writable.bounds hwritable hv⟩
    refine ⟨hwrites, fun harea lba hwrite hpage => ?_⟩
    rw [exec_configureDirectSwap hmount] at harea
    have hlow := hpage.le (Except.ok.inj harea) hchosen
    have hhigh := (hwrites lba hwrite).2.2
    omega
  · intro view hmount
    have hv := view.accepted_of_through hmount
    have hwrites : ∀ lba, Writes (view.through (mutate v ms)) s lba →
        ∃ relative, lba = view.partition.startLba + relative ∧ v.Writable relative ∧
          0 < relative ∧ relative < v.totalSectors ∧ relative < view.partition.sectors := by
      rintro lba ⟨sector, hwrite⟩
      obtain ⟨relative, hwritable, hinside, rfl⟩ := Ensures.of_mem_calls
        (view.calls_through (confines_mutate hv.cluster_pos ms)) hwrite lba sector rfl
      obtain ⟨hpos, htotal⟩ := hwritable.bounds hv
      exact ⟨relative, rfl, hwritable, hpos, htotal, hinside⟩
    refine ⟨hwrites, fun harea lba hwrite hpage => ?_⟩
    rw [exec_configurePartitionSwap view hmount] at harea
    have hlow := hpage.le (Except.ok.inj harea) hchosen
    obtain ⟨relative, rfl, _, _, hhigh, _⟩ := hwrites lba hwrite
    omega

end

/-- The sample volume on a disk with room for two pages after it. -/
def swapDevice : Device :=
  { sampleDevice [(2, fat32EndMin)] [] with sectors := 66566 }

theorem mount_swapDevice : (mount.exec swapDevice).1 = .ok sampleVolume := by
  decide +kernel

theorem writes_confined_sample :
    Writes (mutate sampleVolume [.createPathFile [0x41] []]) swapDevice 1025 ∧
      ¬WritesPage (configureSwapArea 66550 66566 .new).2 swapDevice 1025 := by
  have hwrite : Writes (mutate sampleVolume [.createPathFile [0x41] []]) swapDevice 1025 := by
    decide +kernel
  have hconfined := (writes_confined swapDevice sampleVolume [.createPathFile [0x41] []]
    swapDevice swapDevice .new (configureSwapArea 66550 66566 .new).2
    (configureSwapArea 66550 66566 .new).1 (Or.inr rfl)).1 mount_swapDevice
  exact ⟨hwrite, hconfined.2 (exec_configureDirectSwap mount_swapDevice .new) 1025 hwrite⟩

end WovenHat.Swap
