import WovenHat.Model.Fat32.Files
import WovenHat.Library.Result
import WovenHat.Verification.Fat32.Geometry

/-! # Where a volume is written

The writes of `fat32.rs` are bounded for every answer that the device may give: no
assumption on the disk, on its faults or on what other tasks do to it is made. -/

namespace WovenHat.Fat32

open Library Block Fallible Calls Meets

def Volume.InCluster (v : Volume) (lba : ℕ) : Prop :=
  ∃ cluster index, v.isAllocatable cluster ∧ index < v.sectorsPerCluster ∧
    lba = v.lbaOf cluster + index

/-- An FSInfo sector, a FAT sector or a sector of a cluster. -/
inductive Volume.Writable (v : Volume) (lba : ℕ) : Prop where
  | fsInfo (h : v.fsInfoSector = some lba)
  | backup (h : v.backupFsInfoSector = some lba)
  | fat (low : v.firstFatSector ≤ lba) (high : lba < v.firstDataSector)
  | data (h : v.InCluster lba)

inductive Volume.Record (v : Volume) (lba : ℕ) : Prop where
  | fsInfo (h : v.fsInfoSector = some lba)
  | backup (h : v.backupFsInfoSector = some lba)
  | fat (low : v.firstFatSector ≤ lba) (high : lba < v.firstDataSector)

variable {lba : ℕ}

theorem Volume.Record.writable {v : Volume} (h : v.Record lba) : v.Writable lba := by
  cases h with
  | fsInfo h => exact .fsInfo h
  | backup h => exact .backup h
  | fat low high => exact .fat low high

def Volume.Allows (v : Volume) : SectorOp → Prop
  | .write lba _ => v.Writable lba
  | _ => True

def Volume.Stores (v : Volume) : SectorOp → Prop
  | .write lba _ => v.InCluster lba
  | _ => True

def Volume.Links (v : Volume) : SectorOp → Prop
  | .write lba _ => v.firstFatSector ≤ lba ∧ lba < v.firstDataSector
  | _ => True

def Volume.Infos (v : Volume) : SectorOp → Prop
  | .write lba _ => v.fsInfoSector = some lba ∨ v.backupFsInfoSector = some lba
  | _ => True

def SectorOp.IsRead : SectorOp → Prop
  | .write _ _ => False
  | _ => True

/-- A computation that writes nowhere else, with what holds of its value. -/
abbrev Volume.Confines {α : Type} (v : Volume) (p : Fs α) (Q : α → Prop) : Prop :=
  Calls v.Allows p Q

variable {v : Volume} {α σ ρ : Type}

theorem Volume.Stores.allows (op : SectorOp) (h : v.Stores op) : v.Allows op := by
  cases op with
  | write lba sector => exact .data h
  | _ => exact trivial

/-! ## Sectors -/

/-- All errors but the one of a full volume. -/
class AllowsErrors (E : Error → Prop) : Prop where
  other : ∀ {e : Error}, e ≠ .noSpace → E e

instance : AllowsErrors fun _ => True := ⟨fun _ => trivial⟩
instance : AllowsErrors (· ≠ .noSpace) := ⟨id⟩

open AllowsErrors

section Reading

/-- Reading is a call of each kind. -/
class AllowsReads (P : SectorOp → Prop) : Prop where
  sectorCount : P .sectorCount
  read : ∀ lba, P (.read lba)

instance : AllowsReads v.Allows := ⟨trivial, fun _ => trivial⟩
instance : AllowsReads v.Stores := ⟨trivial, fun _ => trivial⟩
instance : AllowsReads v.Links := ⟨trivial, fun _ => trivial⟩
instance : AllowsReads v.Infos := ⟨trivial, fun _ => trivial⟩
instance : AllowsReads SectorOp.IsRead := ⟨trivial, fun _ => trivial⟩

/-- A computation that does not write depends on the disk only and leaves the device as it
is. -/
theorem exec_of_reads {d t : Device} {p : Fs α} {Q : α → Prop} (h : Calls SectorOp.IsRead p Q)
    (hsectors : t.sectors = d.sectors) (hdisk : t.disk = d.disk) :
    p.exec t = ((p.exec d).1, t) ∧ (p.exec d).2 = d := by
  refine h.exec_agree fun op hop => ⟨?_, ?_⟩
  · cases op with
    | sectorCount => rfl
    | read lba => rfl
    | write lba sector => cases hop
  cases op with
  | sectorCount => exact congrArg (·, t) hsectors
  | read lba =>
    change (t.read lba, t) = (d.read lba, t)
    rw [Device.read, Device.read, hsectors, hdisk]
  | write lba sector => cases hop

theorem moves_of_reads {R : Device → Device → Prop} [IsPreorder Device R] {p : Fs α}
    {Q : α → Prop} (h : Calls SectorOp.IsRead p Q) : Moves R p := by
  intro d
  have hsame : (p.exec d).2 = d := (exec_of_reads h rfl rfl).2
  rw [hsame]
  exact refl_of R d

/-- Writing an FSInfo sector is a call of some kinds. -/
class AllowsInfo (v : Volume) (P : SectorOp → Prop) : Prop extends AllowsReads P where
  info : ∀ {lba : ℕ}, v.fsInfoSector = some lba ∨ v.backupFsInfoSector = some lba →
    ∀ sector, P (.write lba sector)

instance : AllowsInfo v v.Infos := ⟨fun h _ => h⟩

/-- Writing an FSInfo or FAT sector is a call of some kinds. -/
class AllowsRecords (v : Volume) (P : SectorOp → Prop) : Prop extends AllowsReads P where
  record : ∀ {lba : ℕ}, v.Record lba → ∀ sector, P (.write lba sector)

instance : AllowsRecords v v.Allows := ⟨fun h _ => h.writable⟩

instance (P : SectorOp → Prop) [AllowsRecords v P] : AllowsInfo v P :=
  ⟨fun h => AllowsRecords.record (h.elim .fsInfo .backup)⟩

variable {P : SectorOp → Prop} {E : Error → Prop}

theorem calls_clusterLba [AllowsErrors E] (cluster : ℕ) : Meets P E (v.clusterLba cluster)
    fun lba => v.isAllocatable cluster ∧ lba = v.lbaOf cluster :=
  .ite (fun hc => .ite (fun _ => .pure ⟨hc, rfl⟩) fun _ => .throw (other nofun))
    fun _ => .throw (other nofun)

theorem calls_okOr (x : Option α) (error : Error) : Issues P (okOr x error) := by
  cases x with
  | none => exact .throw trivial
  | some a => exact .pure trivial

variable [AllowsErrors E]

theorem calls_writeSector {lba : ℕ} {sector : Sector} (h : P (.write lba sector)) :
    Within P E (Fs.writeSector lba sector) := by
  refine ⟨h, fun answer => ?_⟩
  cases answer with
  | ok _ => exact trivial
  | error e => exact other nofun

variable [AllowsReads P]

theorem calls_readSector (lba : ℕ) : Within P E (Fs.readSector lba) := by
  refine ⟨AllowsReads.read lba, fun answer => ?_⟩
  cases answer with
  | ok _ => exact trivial
  | error e => exact other nofun

theorem calls_readFsInfo : Within P E (readFsInfo v) := by
  unfold readFsInfo
  split
  · exact .pure trivial
  · exact (calls_readSector _).bind fun _ _ =>
      .ite (fun _ => .pure trivial) fun _ => .pure trivial

theorem calls_readFatEntry (cluster : ℕ) : Within P E (readFatEntry v cluster) :=
  (calls_clusterLba cluster).bind fun _ _ => (rejectIf (other (by nofun))).bind fun _ _ =>
    (calls_readSector _).bind fun _ _ => .pure trivial

theorem calls_nextCluster (cluster : ℕ) : Within P E (nextCluster v cluster) :=
  (calls_readFatEntry cluster).bind fun value _ =>
    .ite (fun _ => .pure trivial) fun _ => .ite (fun _ => .throw (other nofun)) fun _ =>
      (calls_clusterLba value).bind fun _ _ => .pure trivial

theorem calls_advance (g : ChainCycleGuard) : Within P E (g.advance v) := by
  refine .ite (fun _ => .pure trivial) fun _ => .ite (fun _ => .throw (other nofun)) fun _ => ?_
  refine (calls_nextCluster _).bind fun tortoise _ => ?_
  cases tortoise with
  | last => exact .pure trivial
  | next tortoise =>
    refine (calls_nextCluster _).bind fun hare _ => ?_
    cases hare with
    | last => exact .pure trivial
    | next hare =>
      refine (calls_nextCluster hare).bind fun hare _ => ?_
      cases hare with
      | last => exact .pure trivial
      | next hare => exact .ite (fun _ => .throw (other nofun)) fun _ => .pure trivial

theorem calls_validateLoop (fuel cluster : ℕ) (g : ChainCycleGuard) :
    Within P E (validateLoop v fuel cluster g) := by
  induction fuel generalizing cluster g with
  | zero => exact .throw (other nofun)
  | succ fuel ih =>
    refine (calls_nextCluster cluster).bind fun link _ => ?_
    cases link with
    | last => exact .pure trivial
    | next next => exact (calls_advance g).bind fun g _ => ih next g

end Reading

theorem confines_writeSector (h : v.Writable lba) (sector : Sector) :
    Issues v.Allows (Fs.writeSector lba sector) :=
  calls_writeSector h

/-! ## FSInfo -/

section Records

variable {P : SectorOp → Prop} {E : Error → Prop} [AllowsErrors E]

section Info

variable [AllowsInfo v P]

theorem calls_writeFsInfoCopy {copy : Option ℕ} (h : ∀ lba, copy = some lba →
      v.fsInfoSector = some lba ∨ v.backupFsInfoSector = some lba) (info : FsInfo) :
    Within P E (writeFsInfoCopy copy info) := by
  cases copy with
  | none => exact .pure trivial
  | some lba =>
    exact (calls_readSector lba).bind fun _ _ =>
      .ite (fun _ => calls_writeSector (AllowsInfo.info (h lba rfl) _)) fun _ => .pure trivial

theorem calls_writeFsInfo (info : FsInfo) : Within P E (writeFsInfo v info) :=
  (calls_writeFsInfoCopy (fun _ => .inl) info).bind fun _ _ =>
    calls_writeFsInfoCopy (fun _ => .inr) info

theorem calls_updateFsInfoAfterAlloc (cluster : ℕ) :
    Within P E (updateFsInfoAfterAlloc v cluster) := by
  refine calls_readFsInfo.bind fun info _ => ?_
  cases info with
  | none => exact .pure trivial
  | some info => exact calls_writeFsInfo _

theorem calls_updateFsInfoAfterFree (freed first : ℕ) :
    Within P E (updateFsInfoAfterFree v freed first) := by
  refine calls_readFsInfo.bind fun info _ => ?_
  cases info with
  | none => exact .pure trivial
  | some info => exact calls_writeFsInfo _

end Info

variable [AllowsRecords v P]

theorem calls_fsInfoNextFreeHint : Issues P (fsInfoNextFreeHint v) := by
  refine calls_readFsInfo.attempt.bind fun info _ => ?_
  rcases info with _ | _ | info <;> exact .pure trivial

/-! ## Chains -/

theorem links_writeFatEntry (cluster value : ℕ) :
    Within v.Links E (writeFatEntry v cluster value) := by
  refine (calls_clusterLba cluster).bind fun _ _ => forM fun copy _ => ?_
  refine (rejectIf (other (by nofun))).bind fun _ hbelow => (calls_readSector _).bind fun _ _ => ?_
  exact calls_writeSector ⟨(Nat.le_add_right _ _).trans (Nat.le_add_right _ _), not_le.mp hbelow⟩

theorem calls_writeFatEntry (cluster value : ℕ) : Within P E (writeFatEntry v cluster value) :=
  (links_writeFatEntry cluster value).imp fun op hop => by
    cases op with
    | sectorCount => exact AllowsReads.sectorCount
    | read lba => exact AllowsReads.read lba
    | write lba sector => exact AllowsRecords.record (.fat hop.1 hop.2) sector

theorem calls_freeLoop (start fuel cluster freed : ℕ) :
    Within P E (freeLoop v start fuel cluster freed) := by
  induction fuel generalizing cluster freed with
  | zero => exact .throw (other nofun)
  | succ fuel ih =>
    refine (calls_nextCluster cluster).bind fun link _ => ?_
    refine (calls_writeFatEntry cluster 0).bind fun _ _ => ?_
    cases link with
    | last => exact (calls_updateFsInfoAfterFree _ start).ignore
    | next next => exact ih next (freed + 1)

theorem calls_freeClusterChain (start : ℕ) : Within P E (freeClusterChain v start) :=
  .ite (fun _ => .pure trivial) fun _ =>
    (calls_validateLoop _ _ _).bind fun _ _ => calls_freeLoop start _ _ _

theorem calls_allocateInRange (cluster count : ℕ) : Issues P (allocateInRange v cluster count) := by
  induction count generalizing cluster with
  | zero => exact .throw trivial
  | succ count ih =>
    exact (calls_readFatEntry cluster).bind fun _ _ =>
      .ite (fun _ => (calls_writeFatEntry cluster _).bind fun _ _ =>
        (calls_updateFsInfoAfterAlloc cluster).ignore.bind fun _ _ => .pure trivial)
      fun _ => ih (cluster + 1)

theorem calls_allocateCluster : Issues P (allocateCluster v) := by
  refine rejectIf.bind fun _ _ => calls_fsInfoNextFreeHint.bind fun hint _ => ?_
  refine (calls_allocateInRange _ _).attempt.bind fun result _ => ?_
  cases result with
  | ok cluster => exact .pure trivial
  | error e => exact .ite (fun _ => calls_allocateInRange _ _) fun _ => .throw trivial

theorem calls_allocateFileChain (count first previous : ℕ) :
    Issues P (allocateChainLoop v count first previous) := by
  induction count generalizing first previous with
  | zero => exact .pure trivial
  | succ count ih =>
    have hfree : Issues P (runIf (2 ≤ first) (freeClusterChain v first)) :=
      (calls_freeClusterChain first).runIf
    refine (calls_allocateCluster.onError hfree).bind fun cluster _ => ?_
    refine .ite (fun _ => ih cluster cluster) fun _ => ?_
    exact ((calls_writeFatEntry previous cluster).onError
      ((calls_freeClusterChain cluster).ignore.bind fun _ _ => hfree)).bind
        fun _ _ => ih first cluster

end Records

/-! ## Data -/

section Data

variable {E : Error → Prop} [AllowsErrors E]

theorem stores_writeSector (h : v.InCluster lba) (sector : Sector) :
    Within v.Stores E (Fs.writeSector lba sector) :=
  calls_writeSector h

theorem stores_modifySector (h : v.InCluster lba) (f : Sector → Sector) :
    Within v.Stores E (modifySector lba f) :=
  (calls_readSector lba).bind fun sector _ => stores_writeSector h (f sector)

theorem stores_writeClusterData {cluster : ℕ} (hc : v.isAllocatable cluster)
    (index count : ℕ) (remaining : List UInt8) (hcount : index + count ≤ v.sectorsPerCluster) :
    Within v.Stores E (writeClusterData (v.lbaOf cluster) index count remaining) := by
  induction count generalizing index remaining with
  | zero => exact .pure trivial
  | succ count ih =>
    exact (stores_writeSector ⟨cluster, index, hc, by omega, rfl⟩ _).bind fun _ _ =>
      ih (index + 1) _ (by omega)

theorem stores_writeDataLoop (fuel cluster : ℕ) (remaining : List UInt8) :
    Within v.Stores E (writeDataLoop v fuel cluster remaining) := by
  induction fuel generalizing cluster remaining with
  | zero => exact .throw (other nofun)
  | succ fuel ih =>
    refine (calls_clusterLba cluster).bind ?_
    rintro base ⟨hc, rfl⟩
    refine (stores_writeClusterData hc 0 _ _ (by omega)).bind fun remaining _ => ?_
    refine .ite (fun _ => .pure trivial) fun _ => ?_
    refine (calls_nextCluster cluster).bind fun link _ => ?_
    cases link with
    | last => exact .throw (other nofun)
    | next next => exact ih next remaining

theorem stores_writeFileDataChain (first : ℕ) (data : List UInt8) :
    Within v.Stores E (writeFileDataChain v first data) :=
  .ite (fun _ => .pure trivial) fun _ => .ite (fun _ => .throw (other nofun)) fun _ =>
    stores_writeDataLoop _ _ _

theorem stores_zeroCluster (cluster : ℕ) : Within v.Stores E (zeroCluster v cluster) := by
  refine (calls_clusterLba cluster).bind ?_
  rintro base ⟨hc, rfl⟩
  exact forM fun index hindex =>
    stores_writeSector ⟨cluster, index, hc, List.mem_range.mp hindex, rfl⟩ _

end Data

/-! ## Directories -/

/-- The scanner keeps `I` of its state and finds only what meets `R`, in the sectors of
clusters. -/
def SlotStep.Finds (v : Volume) (step : SlotStep σ ρ) (I : σ → Prop) (R : ρ → Prop) : Prop :=
  ∀ s lba sector offset, I s → v.InCluster lba →
    (∀ s', step s lba sector offset = .ok (.next s') → I s') ∧
    ∀ r, step s lba sector offset = .ok (.stop r) → R r

theorem finds_true (step : SlotStep σ ρ) : step.Finds v (fun _ => True) fun _ => True :=
  fun _ _ _ _ _ _ => ⟨fun _ _ => trivial, fun _ _ => trivial⟩

section Scan

variable {step : SlotStep σ ρ} {I : σ → Prop} {R : ρ → Prop}

theorem scanSector_finds (hstep : step.Finds v I R) {lba : ℕ} (hlba : v.InCluster lba)
    (sector : Sector) (index count : ℕ) {s : σ} (hs : I s) :
    (∀ s', scanSector step lba sector index count s = .ok (.next s') → I s') ∧
      ∀ r, scanSector step lba sector index count s = .ok (.stop r) → R r := by
  induction count generalizing index s with
  | zero =>
    refine ⟨?_, nofun⟩
    rintro _ ⟨⟩
    exact hs
  | succ count ih =>
    obtain ⟨hnext, hstop⟩ := hstep s lba sector (index * directoryEntrySize) hs hlba
    rw [scanSector]
    rcases hres : step s lba sector (index * directoryEntrySize) with e | s' | r
    · exact ⟨nofun, nofun⟩
    · exact ih (index + 1) (hnext s' hres)
    refine ⟨nofun, ?_⟩
    rintro _ ⟨⟩
    exact hstop r hres

def Step.Justified (I : σ → Prop) (R : ρ → Prop) : Step σ ρ → Prop
  | .next s => I s
  | .stop r => R r

variable {P : SectorOp → Prop} [AllowsReads P]

theorem calls_scanCluster (hstep : step.Finds v I R) {cluster : ℕ} (hc : v.isAllocatable cluster)
    (index count : ℕ) (hcount : index + count ≤ v.sectorsPerCluster) {s : σ} (hs : I s) :
    Calls P (scanCluster step (v.lbaOf cluster + index) count s) (Step.Justified I R) := by
  induction count generalizing index s with
  | zero => exact .pure hs
  | succ count ih =>
    have hlba : v.InCluster (v.lbaOf cluster + index) := ⟨cluster, index, hc, by omega, rfl⟩
    refine (calls_readSector _).bind fun sector _ => ?_
    obtain ⟨hnext, hstop⟩ := scanSector_finds hstep hlba sector 0 16 hs
    refine (Calls.ofExcept _).bind fun result hres => ?_
    cases result with
    | stop r => exact .pure (hstop r hres)
    | next s => exact ih (index + 1) (by omega) (hnext s hres)

theorem calls_walkDirectory (hstep : step.Finds v I R) {finish : σ → ℕ → Fs ρ}
    (hfinish : ∀ s cluster, I s → Calls P (finish s cluster) R) (fuel : ℕ) (visited : List ℕ)
    (cluster : ℕ) {s : σ} (hs : I s) :
    Calls P (walkDirectory v step finish fuel visited cluster s) R := by
  induction fuel generalizing visited cluster s with
  | zero => exact .throw trivial
  | succ fuel ih =>
    refine rejectIf.bind fun _ _ => (calls_clusterLba cluster).bind ?_
    rintro base ⟨hc, rfl⟩
    refine (calls_scanCluster hstep hc 0 _ (by omega) hs).bind fun result hres => ?_
    cases result with
    | stop r => exact .pure hres
    | next s =>
      refine (calls_nextCluster cluster).bind fun link _ => ?_
      cases link with
      | next next => exact ih (cluster :: visited) next hres
      | last => exact hfinish s cluster hres

theorem calls_findInDirectory (cluster : ℕ) (short : List UInt8) :
    Issues P (findInDirectory v cluster short) :=
  calls_walkDirectory (finds_true _) (fun _ _ _ => .throw trivial) _ _ _ trivial

theorem calls_directoryIsEmpty (cluster : ℕ) : Issues P (directoryIsEmpty v cluster) :=
  calls_walkDirectory (finds_true _) (fun _ _ _ => .pure trivial) _ _ _ trivial

theorem calls_findExistingDirectorySlot (cluster : ℕ) (short : List UInt8) :
    Calls P (findExistingDirectorySlot v cluster short) fun slot => v.InCluster slot.lba := by
  refine calls_walkDirectory (I := fun _ => True) ?_ (fun _ _ _ => .throw trivial) _ _ _ trivial
  intro _ lba sector offset _ hlba
  refine ⟨fun _ _ => trivial, fun slot hslot => ?_⟩
  simp only [existingStep] at hslot
  split_ifs at hslot
  · cases hslot
  · cases hslot
  obtain ⟨entry, _, hstop⟩ := Result.bind_eq_ok.mp hslot
  cases hstop
  exact hlba

theorem calls_checkExisting {E : Error → Prop} [AllowsErrors E]
    (existing : Option DirectoryEntry) : Within P E (checkExisting v existing) := by
  cases existing with
  | none => exact .pure trivial
  | some entry =>
    exact (rejectIf (other (by nofun))).bind fun _ _ =>
      (calls_validateLoop _ _ _).runIf.bind fun _ _ => .pure trivial

theorem calls_checkDeletable (entry : DirectoryEntry) : Issues P (checkDeletable v entry) :=
  .ite (fun _ => (calls_directoryIsEmpty _).bind fun _ _ => rejectIf.bind fun _ _ =>
      calls_validateLoop _ _ _)
    fun _ => (calls_validateLoop _ _ _).runIf

end Scan

section

variable (hpos : 0 < v.sectorsPerCluster)
include hpos

theorem inCluster_lbaOf {cluster : ℕ} (hc : v.isAllocatable cluster) :
    v.InCluster (v.lbaOf cluster) :=
  ⟨cluster, 0, hc, hpos, rfl⟩

theorem confines_extendDirectoryChain (last : ℕ) :
    v.Confines (extendDirectoryChain v last) fun slot => v.InCluster slot.lba := by
  refine calls_allocateCluster.bind fun cluster _ => ?_
  have hfree : Issues v.Allows (freeClusterChain v cluster) := calls_freeClusterChain cluster
  refine (((stores_zeroCluster cluster).imp Volume.Stores.allows).onError hfree).bind fun _ _ => ?_
  refine ((calls_writeFatEntry last cluster).onError hfree).bind fun _ _ => ?_
  refine (calls_clusterLba cluster).bind ?_
  rintro lba ⟨hc, rfl⟩
  exact .pure (inCluster_lbaOf hpos hc)

theorem confines_findDirectorySlot (cluster : ℕ) (short : List UInt8) :
    v.Confines (findDirectorySlot v cluster short) fun slot => v.InCluster slot.lba := by
  refine calls_walkDirectory (I := fun deleted => ∀ place, deleted = some place →
    v.InCluster place.1) ?_ ?_ _ _ _ nofun
  · intro deleted lba sector offset hdeleted hlba
    have hplace : v.InCluster (deleted.getD (lba, offset)).1 := by
      cases deleted with
      | none => exact hlba
      | some place => exact hdeleted place rfl
    constructor
    · intro deleted' hnext place hsome
      simp only [slotStep] at hnext
      split_ifs at hnext <;> cases hnext
      · cases hsome
        exact hplace
      · exact hdeleted place hsome
      · exact hdeleted place hsome
    · intro slot hstop
      simp only [slotStep] at hstop
      split_ifs at hstop <;> cases hstop
      · exact hplace
      · exact hlba
  · intro deleted cluster hdeleted
    cases deleted with
    | none => exact confines_extendDirectoryChain hpos cluster
    | some place => exact .pure (hdeleted place rfl)

theorem stores_updateDotdot (dir parent : ℕ) : Issues v.Stores (updateDotdot v dir parent) := by
  refine (calls_clusterLba dir).bind ?_
  rintro base ⟨hc, rfl⟩
  refine (calls_readSector _).bind fun sector _ => ?_
  cases dotdotOffset sector 0 16 with
  | none => exact .throw trivial
  | some offset => exact stores_writeSector (inCluster_lbaOf hpos hc) _

end

theorem confines_modifySector (h : v.InCluster lba) (f : Sector → Sector) :
    Issues v.Allows (modifySector lba f) :=
  (stores_modifySector h f).imp Volume.Stores.allows

theorem confines_rollbackReservedSlot (slot : DirectorySlotReservation) :
    Issues v.Allows (rollbackReservedSlot v slot) := by
  unfold rollbackReservedSlot
  split
  · exact .pure trivial
  · exact ((calls_writeFatEntry _ _).bind fun _ _ => calls_freeClusterChain _).ignore

theorem confines_rollbackCreation (first : ℕ) (slot : DirectorySlotReservation) :
    Issues v.Allows (rollbackCreation v first slot) :=
  (calls_freeClusterChain first).ignore.bind fun _ _ => confines_rollbackReservedSlot slot

/-! ## Paths -/

/-- A property that computations which only read have, and sequences keep. -/
structure Composes (M : (α : Type) → Fs α → Prop) : Prop where
  reads {α : Type} {p : Fs α} (h : Issues SectorOp.IsRead p) : M α p
  bind {α β : Type} {p : Fs α} {f : α → Fs β} (h : M α p) (hf : ∀ a, M β (f a)) : M β (p >>= f)
  after {α β : Type} {p : Fs α} {f : α → Fs β} {Q : α → Prop} (h : Calls SectorOp.IsRead p Q)
    (hf : ∀ a, Q a → M β (f a)) : M β (p >>= f)

theorem composes_issues (P : SectorOp → Prop) [hreads : AllowsReads P] :
    Composes fun _ p => Issues P p := by
  have hallows : ∀ op, SectorOp.IsRead op → P op := by
    intro op hop
    cases op with
    | sectorCount => exact hreads.sectorCount
    | read lba => exact hreads.read lba
    | write lba sector => cases hop
  exact ⟨fun h => h.imp hallows, fun h hf => h.bind fun a _ => hf a,
    fun h hf => (h.imp hallows).bind hf⟩

theorem composes_moves (R : Device → Device → Prop) [IsPreorder Device R] :
    Composes fun _ p => Moves R p :=
  ⟨moves_of_reads, Moves.bind, fun h hf => (moves_of_reads h).bind_calls h hf⟩

/-- It holds of the calls from which the mutations are composed. -/
structure Volume.Mutates (v : Volume) (M : (α : Type) → Fs α → Prop) : Prop
    extends Composes M where
  createDirectory : ∀ parent name, M ℕ (createDirectoryIn v parent name)
  createFile : ∀ dir name data, M Unit (createFileInDirectory v dir name data)
  store : ∀ {lba : ℕ}, v.InCluster lba → ∀ f, M Unit (modifySector lba f)
  free : ∀ cluster, M Unit (freeClusterChain v cluster)
  move : ∀ oldParent newParent {oldSlot : DirectorySlot}, v.InCluster oldSlot.lba →
    ∀ newShort, M Unit (moveEntry v oldParent newParent oldSlot newShort)

namespace Composes

variable {M : (α : Type) → Fs α → Prop}

theorem branch {c : Prop} [Decidable c] {p q : Fs α} (hp : c → M α p) (hq : ¬c → M α q) :
    M α (if c then p else q) := by
  split
  · exact hp ‹_›
  · exact hq ‹_›

section

variable (h : Composes M)

include h

theorem throw {e : Error} : M α (throw e) :=
  h.reads (.throw trivial)

variable {createMissing : Bool}
  (hcreate : createMissing = true → ∀ parent name, M ℕ (createDirectoryIn v parent name))

include hcreate

theorem resolveParents (cluster : ℕ) (parts : List (List UInt8)) :
    M ℕ (resolveParents v createMissing cluster parts) := by
  induction parts generalizing cluster with
  | nil => exact h.reads (.pure trivial)
  | cons component rest ih =>
    refine h.after (calls_okOr _ _) fun short _ => ?_
    refine h.after (calls_findInDirectory cluster short).attempt fun found _ => ?_
    cases found with
    | ok entry => exact branch (fun _ => h.throw) fun _ => ih _
    | error e =>
      exact branch (fun hmissing => h.bind (hcreate hmissing.2 cluster component) fun _ => ih _)
        fun _ => h.throw

theorem resolveParentCluster (path : List UInt8) :
    M (ℕ × List UInt8) (resolveParentCluster v path createMissing) := by
  refine h.after (ofExcept _) fun parts _ => ?_
  cases parts.getLast? with
  | none => exact h.throw
  | some leaf =>
    exact h.after (calls_okOr _ _) fun _ _ =>
      h.bind (h.resolveParents hcreate _ _) fun _ => h.reads (.pure trivial)

end

variable (h : v.Mutates M)

include h

theorem mkdirParts (cluster : ℕ) (parts : List (List UInt8)) :
    M Unit (mkdirParts v cluster parts) := by
  induction parts generalizing cluster with
  | nil => exact h.reads (.pure trivial)
  | cons component rest ih =>
    refine branch (fun _ => ih cluster) fun _ => branch (fun _ => h.throw) fun _ => ?_
    refine h.after (calls_okOr _ _) fun short _ => ?_
    refine h.after (calls_findInDirectory cluster short).attempt fun found _ => ?_
    cases found with
    | ok entry => exact branch (fun _ => ih _) fun _ => h.throw
    | error e =>
      exact branch (fun _ => h.bind (h.createDirectory cluster component) fun _ => ih _)
        fun _ => h.throw

theorem deletePath (path : List UInt8) : M Unit (deletePath v path) := by
  refine h.after rejectIf fun _ _ => ?_
  refine h.bind (h.resolveParentCluster (by simp) path) fun parent => ?_
  refine h.after (calls_okOr _ _) fun short _ => ?_
  refine h.after (calls_findExistingDirectorySlot _ short) fun slot hslot => ?_
  refine h.after rejectIf fun _ _ => h.after (calls_checkDeletable _) fun _ _ => ?_
  exact h.bind (h.store hslot _) fun _ => branch (fun _ => h.free _) fun _ =>
    h.reads (.pure trivial)

theorem renamePath (old new : List UInt8) : M Unit (renamePath v old new) := by
  refine h.after rejectIf fun _ _ => ?_
  refine h.bind (h.resolveParentCluster (by simp) _) fun oldPlace => ?_
  refine h.after (calls_okOr _ _) fun oldShort _ => ?_
  refine h.after (calls_findExistingDirectorySlot _ oldShort) fun oldSlot hold => ?_
  refine h.after rejectIf fun _ _ => h.after rejectIf fun _ _ =>
    h.after rejectIf fun _ _ => ?_
  refine h.bind (h.resolveParentCluster (by simp) _) fun newPlace => ?_
  refine h.after (calls_okOr _ _) fun newShort _ => ?_
  refine branch (fun _ => h.reads (.pure trivial)) fun _ => ?_
  refine h.after (calls_findExistingDirectorySlot _ newShort).attempt fun found _ => ?_
  cases found with
  | ok slot => exact h.throw
  | error e =>
    exact branch (fun _ => h.throw) fun _ =>
      branch (fun _ => h.store hold _) fun _ => h.move _ _ hold newShort

theorem mutation (m : Mutation) : M Unit (m.run v) := by
  cases m with
  | createFileInDirectory dir name data => exact h.createFile dir name data
  | createPathFile path data =>
    exact h.bind (h.resolveParentCluster (fun _ => h.createDirectory) path) fun _ =>
      h.createFile _ _ data
  | mkdirPath path => exact mkdirParts h _ _
  | deletePath path => exact deletePath h path
  | renamePath old new => exact renamePath h old new

end Composes

/-! ## Mutations -/

section

variable (hpos : 0 < v.sectorsPerCluster)
include hpos

theorem confines_createFileInDirectory (dir : ℕ) (name data : List UInt8) :
    Issues v.Allows (createFileInDirectory v dir name data) := by
  refine (calls_okOr _ _).bind fun short _ => rejectIf.bind fun _ _ => ?_
  refine (confines_findDirectorySlot hpos dir short).bind fun slot hslot => ?_
  refine (calls_checkExisting _).bind fun existing _ => ?_
  refine ((calls_allocateFileChain _ 0 0).onError
    (confines_rollbackReservedSlot slot)).bind fun first _ => ?_
  have hrollback := confines_rollbackCreation (v := v) first slot
  refine (((stores_writeFileDataChain first data).imp Volume.Stores.allows).onError
    hrollback).bind fun _ _ => ?_
  refine ((confines_modifySector hslot _).onError hrollback).bind fun _ _ => ?_
  exact (calls_freeClusterChain existing).runIf

theorem confines_createDirectoryIn (parent : ℕ) (name : List UInt8) :
    Issues v.Allows (createDirectoryIn v parent name) := by
  refine (calls_okOr _ _).bind fun short _ => ?_
  refine (confines_findDirectorySlot hpos parent short).bind fun slot hslot => ?_
  split
  · exact .ite (fun _ => .pure trivial) fun _ => .throw trivial
  refine (calls_allocateCluster.onError (confines_rollbackReservedSlot slot)).bind
    fun cluster _ => ?_
  have hrollback := confines_rollbackCreation (v := v) cluster slot
  refine (((stores_zeroCluster cluster).imp Volume.Stores.allows).onError hrollback).bind fun _ _ => ?_
  refine ((calls_clusterLba cluster).onError hrollback).bind ?_
  rintro base ⟨hc, rfl⟩
  refine ((confines_writeSector (.data (inCluster_lbaOf hpos hc)) _).onError hrollback).bind
    fun _ _ => ?_
  exact ((confines_modifySector hslot _).onError hrollback).bind fun _ _ =>
    .pure trivial

theorem confines_moveEntry (oldParent newParent : ℕ) {oldSlot : DirectorySlot}
    (hold : v.InCluster oldSlot.lba) (newShort : List UInt8) :
    Issues v.Allows (moveEntry v oldParent newParent oldSlot newShort) := by
  refine (confines_findDirectorySlot hpos newParent newShort).bind fun newSlot hnew => ?_
  have hrollback := confines_rollbackReservedSlot (v := v) newSlot
  have hunpublish : Issues v.Allows (modifySector newSlot.lba (·.set newSlot.offset 0xe5)).ignore :=
    (confines_modifySector hnew _).ignore
  refine rejectIf.bind fun _ _ => ?_
  refine ((confines_modifySector hnew _).onError hrollback).bind fun _ _ => ?_
  refine (((stores_updateDotdot hpos _ newParent).imp Volume.Stores.allows).onError
    (hunpublish.bind fun _ _ => hrollback)).runIf.bind fun _ _ => ?_
  exact (confines_modifySector hold _).onError (hunpublish.bind fun _ _ =>
    ((stores_updateDotdot hpos _ oldParent).imp Volume.Stores.allows).ignore.runIf.bind
      fun _ _ => hrollback)

theorem Mutation.confines (m : Mutation) : Issues v.Allows (m.run v) :=
  Composes.mutation ⟨composes_issues v.Allows, confines_createDirectoryIn hpos,
    confines_createFileInDirectory hpos, confines_modifySector, calls_freeClusterChain,
    confines_moveEntry hpos⟩ m

theorem confines_mutate (ms : List Mutation) : Issues v.Allows (mutate v ms) :=
  forM fun m _ => (m.confines hpos).ignore

end

/-! ## The sectors of the volume -/

theorem Volume.Writable.bounds {sectors : ℕ} (h : v.Writable lba) (hv : v.Accepted sectors) :
    0 < lba ∧ lba < v.totalSectors := by
  have hroom := hv.room
  have hfirst := hv.firstFat_pos
  have hdata : v.firstFatSector ≤ v.firstDataSector := by
    rw [hv.firstData]
    exact Nat.le_add_right _ _
  cases h with
  | fsInfo h =>
    have hlow := hv.fsInfo lba h
    omega
  | backup h =>
    have hlow := hv.backup lba h
    omega
  | fat low high => omega
  | data h =>
    obtain ⟨cluster, index, ⟨hlow, hhigh⟩, hindex, rfl⟩ := h
    simp only [saturatingAdd32] at hhigh
    -- the last sector of the cluster is below the end of the last cluster
    have hmul : (cluster - 2 + 1) * v.sectorsPerCluster ≤ v.clusterCount * v.sectorsPerCluster :=
      Nat.mul_le_mul_right _ (by omega)
    rw [Nat.add_mul, Nat.one_mul] at hmul
    simp only [Volume.lbaOf]
    omega

end WovenHat.Fat32
