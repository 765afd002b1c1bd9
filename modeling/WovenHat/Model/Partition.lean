import WovenHat.Model.Fat32.Device

/-! # Partitions

The window that `partition.rs` puts over a disk. Its methods call those of the disk, so each
of them is a program over the disk's calls. -/

namespace WovenHat.Storage

open Library Fat32

structure Partition where
  startLba : ℕ
  sectors : ℕ
  kind : UInt8
  deriving DecidableEq, Repr

inductive PartitionError where
  | block (error : Block.Error)
  | invalidTable
  | outOfBounds
  deriving DecidableEq, Repr

/-- `PartitionDevice` over a disk with `count` sectors: a partition that lies inside of it. -/
structure PartitionDevice (count : ℕ) where
  partition : Partition
  addressable : partition.startLba + partition.sectors < 2 ^ 64
  start_pos : 0 < partition.startLba
  sectors_pos : 0 < partition.sectors
  inside : partition.startLba + partition.sectors ≤ count

def PartitionDevice.new (count : ℕ) (partition : Partition) :
    Except PartitionError (PartitionDevice count) :=
  if hend : 2 ^ 64 ≤ partition.startLba + partition.sectors then .error .outOfBounds
  else if h : partition.startLba = 0 ∨ partition.sectors = 0 ∨
      count < partition.startLba + partition.sectors then .error .outOfBounds
  else .ok ⟨partition, by omega, by omega, by omega, by omega⟩

namespace PartitionDevice

variable {count : ℕ} (view : PartitionDevice count)

def absoluteLba (lba : ℕ) : Except Block.Error ℕ :=
  if view.partition.sectors ≤ lba then .error .outOfBounds
  else if 2 ^ 64 ≤ view.partition.startLba + lba then .error .outOfBounds
  else .ok (view.partition.startLba + lba)

/-- The methods of the partition, by calls to the disk. -/
def handle :
    (op : SectorOp) → Program SectorOp SectorOp.Resp (SectorOp.Resp op)
  | .sectorCount => .done view.partition.sectors
  | .read lba =>
    match view.absoluteLba lba with
    | .error e => .done (.error e)
    | .ok absolute => .call (.read absolute) fun answer => .done answer
  | .write lba sector =>
    match view.absoluteLba lba with
    | .error e => .done (.error e)
    | .ok absolute => .call (.write absolute sector) fun answer => .done answer

/-- A computation on the partition, as one on the disk. -/
def through {α : Type} (p : Fs α) : Fs α :=
  ExceptT.mk (p.run.interpret view.handle)

end PartitionDevice

end WovenHat.Storage
