import WovenHat.Library.Fallible
import WovenHat.Model.Block

/-! # Sector programs

The functions of `fat32.rs` reach the disk only through the `BlockDevice` trait. They are
programs over its calls, so that a run can meet a failing write and two of them can be
interleaved. Their buffers are always one sector long. -/

namespace WovenHat.Fat32

open Library Block

inductive Error where
  | block (error : Block.Error)
  | invalidBootSector
  | unsupportedGeometry
  | corruptDirectory
  | directoryFull
  | corruptChain
  | chainLoop
  | chainTooLong
  | truncatedFile
  | notFound
  | noSpace
  | nameTooLong
  | alreadyExists
  | directoryNotEmpty
  | readOnly
  | invalidPath
  | writeFailed
  deriving DecidableEq, Repr

/-- A call of the `BlockDevice` trait. -/
inductive SectorOp where
  | sectorCount
  | read (lba : ℕ)
  | write (lba : ℕ) (sector : Sector)

def SectorOp.Resp : SectorOp → Type
  | .sectorCount => ℕ
  | .read _ => Except Block.Error Sector
  | .write _ _ => Except Block.Error Unit

/-- A computation of `fat32.rs`. -/
abbrev Fs (α : Type) := Fallible Error SectorOp SectorOp.Resp α

namespace Fs

def sectorCount : Fs ℕ :=
  ExceptT.mk (.call SectorOp.sectorCount fun (count : ℕ) => .done (.ok count))

/-- `device.read_sector(lba, &mut sector).map_err(Error::Block)?`. -/
def readSector (lba : ℕ) : Fs Sector :=
  ExceptT.mk (.call (SectorOp.read lba) fun (answer : Except Block.Error Sector) =>
    .done (answer.mapError Error.block))

/-- `device.write_sector(lba, &sector).map_err(Error::Block)?`. -/
def writeSector (lba : ℕ) (sector : Sector) : Fs Unit :=
  ExceptT.mk (.call (SectorOp.write lba sector) fun (answer : Except Block.Error Unit) =>
    .done (answer.mapError Error.block))

end Fs

/-- A disk whose `fault`-th coming write, counted from zero, fails and leaves the disk
as it is. -/
structure Device where
  sectors : ℕ
  disk : ℕ → Sector
  readOnly : Bool
  fault : Option ℕ

namespace Device

def write (d : Device) (lba : ℕ) (sector : Sector) : Except Block.Error Unit × Device :=
  if d.readOnly then (.error .readOnly, d)
  else if d.sectors ≤ lba then (.error .outOfBounds, d)
  else
    match d.fault with
    | none => (.ok (), { d with disk := Function.update d.disk lba sector })
    | some 0 => (.error .deviceFault, { d with fault := none })
    | some (k + 1) =>
      (.ok (), { d with disk := Function.update d.disk lba sector, fault := some k })

def read (d : Device) (lba : ℕ) : Except Block.Error Sector :=
  if lba < d.sectors then .ok (d.disk lba) else .error .outOfBounds

instance : Program.Environment SectorOp SectorOp.Resp Device where
  handle
    | .sectorCount, d => (d.sectors, d)
    | .read lba, d => (d.read lba, d)
    | .write lba sector, d => d.write lba sector

end Device

end WovenHat.Fat32
