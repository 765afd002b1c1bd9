import WovenHat.Model.Task.Scheduler

/-! # The locks that kernel code takes

What matters for task switches while a spin lock is held: which of the four locks a
kernel function takes, in which order, and which calls it makes while it holds them.
Branches and loops that depend on data are left open. A guard that is dropped early
closes its section early. -/

namespace WovenHat.Task

/-- The spin locks of the file path. -/
inductive Lock where
  | openFiles
  | registry
  | filePages
  | ata
  deriving DecidableEq, Repr

/-- The control flow of kernel code between lock operations. -/
inductive Code where
  | skip
  | seq (first second : Code)
  | choose (left right : Code)
  | loop (body : Code)
  | withLock (lock : Lock) (body : Code)
  | fileFaultIo (body : Code)
  | submit
  | setInWorker (value : Bool)
  | yieldNow
  | sleepCurrent (ticks : ℕ)
  | blockCurrent
  | clearPreemption
  deriving DecidableEq, Repr

namespace Code

def optional (c : Code) : Code :=
  choose c skip

def preemptionPoint : Code :=
  optional (seq yieldNow clearPreemption)

/-! ## Devices -/

/-- `ata::with_primary_master` around code that takes no other lock: also
`primary_ata_present`, `PrimaryAta::sector_count` and `PrimaryAta::is_read_only`. -/
def withPrimaryMaster : Code :=
  withLock .ata skip

/-- One round of `worker_task`: `process_one_primary`, or the sleep when nothing is
pending. -/
def workerStep : Code :=
  choose (seq (setInWorker true) (seq withPrimaryMaster (setInWorker false))) (sleepCurrent 16)

/-- Work on `PrimaryAta`: sector transfers, each a `submit`, and geometry queries. -/
def deviceAccess : Code :=
  loop (choose submit withPrimaryMaster)

/-- `if !primary_ata_present() { return … }` before `body`. -/
def ifPresent (body : Code) : Code :=
  seq withPrimaryMaster (optional body)

/-- `swap::allocate_page` and `swap::read_page`; also `df_mnt` and `fscheck_mnt`. -/
def presentAccess : Code :=
  optional (ifPresent deviceAccess)

/-! ## The VFS -/

/-- A call of `vfs.rs` that locks the registry only: `create_read_only`,
`create_disk_file_with_writable`, `write_file`, `can_remove`, `can_rename`, `rename`,
`mkdir`, `stat`, `readdir`, `node_count` and `for_each_file_with_prefix`. -/
def registryCall : Code :=
  withLock .registry skip

/-- A call that locks the open-file table only: `clone_open_file` and
`open_file_description_count`. -/
def openFilesCall : Code :=
  withLock .openFiles skip

/-- A call that locks the table and, under it, the registry: `open`, `close_open_file`,
`file_identity`, `write_mapping_at`, `file_generation`, `file_size`,
`open_file_path_starts_with` and `seek`. -/
def tableCall : Code :=
  withLock .openFiles (optional registryCall)

/-- `storage::read_disk_file`: the page cache stays locked while pages are read. -/
def readDiskFile : Code :=
  optional (ifPresent (withLock .filePages deviceAccess))

def materializeDiskNode : Code :=
  optional (fileFaultIo readDiskFile)

/-- `write`, `prepare_shared_file`, `prepare_remove` and `remove`: the node is
materialized under both guards. -/
def materializingCall : Code :=
  withLock .openFiles (optional (withLock .registry (optional materializeDiskNode)))

/-- `read_from`, the body of `read`, `read_at` and `read_mapping_at`: the registry guard
is dropped before the disk is read, the table guard is not. -/
def readFrom : Code :=
  withLock .openFiles (optional (seq registryCall (optional readDiskFile)))

/-- `read_all`: open, then size and read, then close. -/
def readAll : Code :=
  seq tableCall (optional (seq (seq tableCall (optional readFrom)) tableCall))

/-! ## Storage -/

/-- `FILE_PAGES.lock()` for `page_cache_stats` or `invalidate`. -/
def touchFilePages : Code :=
  withLock .filePages skip

/-- `persist_on_device`, and the same steps in the other mutations: invalidate the
pages, change the volume, flush. -/
def persistOnDevice : Code :=
  seq touchFilePages (seq deviceAccess submit)

def persistDirectory : Code :=
  optional (ifPresent persistOnDevice)

/-- `delete_path` and `rename_path`, which also ask whether the disk is read-only. -/
def deletePath : Code :=
  optional (ifPresent (ifPresent persistOnDevice))

def persistPath : Code :=
  optional (seq readAll persistDirectory)

/-- `sync_all_mounted`: the names are collected first, then each file is written. -/
def syncAllMounted : Code :=
  optional (seq registryCall (seq (loop persistPath) (ifPresent submit)))

def unmountMnt : Code :=
  optional (seq syncAllMounted (optional (seq touchFilePages (ifPresent submit))))

/-- `mount_ata_root`: the ATA device stays locked while nodes are imported. -/
def mountAtaRoot : Code :=
  withLock .ata (loop registryCall)

def remountMnt : Code :=
  seq touchFilePages mountAtaRoot

/-- `ensure_path`: nodes are imported from within the directory walk. -/
def ensurePath : Code :=
  seq (optional registryCall)
    (optional (ifPresent (loop (choose registryCall (choose submit withPrimaryMaster)))))

/-! ## Mapped files -/

def persistMapping : Code :=
  seq tableCall (optional persistPath)

def syncFileMapping : Code :=
  seq tableCall (seq (loop tableCall) (optional (fileFaultIo persistMapping)))

def evictOneMappedFilePage : Code :=
  loop (choose presentAccess tableCall)

/-- `file_frames::map`: the page is read when it is not cached. -/
def mapFilePage : Code :=
  seq tableCall (optional (seq (fileFaultIo readFrom) (optional evictOneMappedFilePage)))

/-- `populate_file_page`: from swap, or from the file. -/
def populateFilePage : Code :=
  optional (choose presentAccess mapFilePage)

/-- One round of `pager_task`. -/
def pagerStep : Code :=
  choose populateFilePage (sleepCurrent 1)

end Code

/-- The kernel calls that a task makes. A system call or a kernel task makes any number
of them, one after another. -/
inductive KernelCall where
  | withPrimaryMaster
  | workerStep
  | presentAccess
  | registryCall
  | openFilesCall
  | tableCall
  | materializingCall
  | readFrom
  | readAll
  | readDiskFile
  | touchFilePages
  | persistDirectory
  | deletePath
  | persistPath
  | syncAllMounted
  | unmountMnt
  | mountAtaRoot
  | remountMnt
  | ensurePath
  | syncFileMapping
  | populateFilePage
  | pagerStep
  | preemptionPoint
  | yieldNow
  | blockCurrent
  | faultReadDiskFile
  | faultPersistPath
  | sleepCurrent (ticks : ℕ)
  deriving DecidableEq, Repr

/-- The code of a kernel call. The self tests of `userspace.rs` wrap `read_disk_file` and
`persist_path` in `file_fault_io` themselves. -/
def KernelCall.code : KernelCall → Code
  | .withPrimaryMaster => .withPrimaryMaster
  | .workerStep => .workerStep
  | .presentAccess => .presentAccess
  | .registryCall => .registryCall
  | .openFilesCall => .openFilesCall
  | .tableCall => .tableCall
  | .materializingCall => .materializingCall
  | .readFrom => .readFrom
  | .readAll => .readAll
  | .readDiskFile => .readDiskFile
  | .touchFilePages => .touchFilePages
  | .persistDirectory => .persistDirectory
  | .deletePath => .deletePath
  | .persistPath => .persistPath
  | .syncAllMounted => .syncAllMounted
  | .unmountMnt => .unmountMnt
  | .mountAtaRoot => .mountAtaRoot
  | .remountMnt => .remountMnt
  | .ensurePath => .ensurePath
  | .syncFileMapping => .syncFileMapping
  | .populateFilePage => .populateFilePage
  | .pagerStep => .pagerStep
  | .preemptionPoint => .preemptionPoint
  | .yieldNow => .yieldNow
  | .blockCurrent => .blockCurrent
  | .faultReadDiskFile => .fileFaultIo .readDiskFile
  | .faultPersistPath => .fileFaultIo .persistPath
  | .sleepCurrent ticks => .sleepCurrent ticks

end WovenHat.Task
