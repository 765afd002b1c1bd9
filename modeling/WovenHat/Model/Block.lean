import WovenHat.Library.Buffer

/-! # Block devices

The sector interface of `block.rs`. A device is a state together with the four
operations of the `BlockDevice` trait; each mutating operation returns the state
after the call, also when it fails. -/

namespace WovenHat.Block

open Library

def sectorSize : ℕ := 512

abbrev Sector := Buffer sectorSize

inductive Error where
  | outOfBounds
  | invalidBuffer
  | readOnly
  | deviceFault
  deriving DecidableEq, Repr

/-- The `BlockDevice` trait. A read is given the length of the caller's buffer and
a write the caller's bytes, since both reject buffers that are not one sector. -/
class BlockDevice (D : Type) where
  sectorCount : D → ℕ
  isReadOnly : D → Bool
  flush : D → Except Error Unit × D
  readSector : D → ℕ → ℕ → Except Error Sector × D
  writeSector : D → ℕ → List UInt8 → Except Error Unit × D

def saturatingAdd (a b : ℕ) : ℕ :=
  min (a + b) (2 ^ 64 - 1)

/-- What a caller may rely on: `contents` is changed only by a successful write, at
the written sector, and every successful read returns it. Any call may fail; the
remaining state of the device decides when. -/
class LawfulBlockDevice (D : Type) [BlockDevice D] where
  contents : D → ℕ → Sector
  contents_flush : ∀ d : D, contents (BlockDevice.flush d).2 = contents d
  contents_read : ∀ (d : D) (lba len : ℕ),
    contents (BlockDevice.readSector d lba len).2 = contents d
  read_ok : ∀ (d : D) (lba len : ℕ) (sector : Sector),
    (BlockDevice.readSector d lba len).1 = .ok sector → sector = contents d lba
  write_ok : ∀ (d : D) (lba : ℕ) (bytes : List UInt8),
    (BlockDevice.writeSector d lba bytes).1 = .ok () →
      contents (BlockDevice.writeSector d lba bytes).2 =
        Function.update (contents d) lba (Buffer.ofList bytes)
  write_error : ∀ (d : D) (lba : ℕ) (bytes : List UInt8) (e : Error),
    (BlockDevice.writeSector d lba bytes).1 = .error e →
      contents (BlockDevice.writeSector d lba bytes).2 = contents d

/-! ## RAM disks -/

structure RamDisk (sectors : ℕ) where
  sector : Fin sectors → Sector
  readOnly : Bool

def RamDisk.new (sectors : ℕ) : RamDisk sectors :=
  ⟨fun _ => Buffer.zero, false⟩

def RamDisk.readSector {sectors : ℕ} (disk : RamDisk sectors) (lba len : ℕ) : Except Error Sector :=
  if len ≠ sectorSize then .error .invalidBuffer
  else if h : lba < sectors then .ok (disk.sector ⟨lba, h⟩)
  else .error .outOfBounds

def RamDisk.writeSector {sectors : ℕ} (disk : RamDisk sectors) (lba : ℕ)
    (bytes : List UInt8) : Except Error Unit × RamDisk sectors :=
  if bytes.length ≠ sectorSize then (.error .invalidBuffer, disk)
  else if disk.readOnly then (.error .readOnly, disk)
  else if h : lba < sectors then
    (.ok (), { disk with sector := Function.update disk.sector ⟨lba, h⟩ (Buffer.ofList bytes) })
  else (.error .outOfBounds, disk)

instance (sectors : ℕ) : BlockDevice (RamDisk sectors) where
  sectorCount _ := sectors
  isReadOnly disk := disk.readOnly
  flush disk := (.ok (), disk)
  readSector disk lba len := (disk.readSector lba len, disk)
  writeSector := RamDisk.writeSector

def RamDisk.contents {sectors : ℕ} (disk : RamDisk sectors) (lba : ℕ) : Sector :=
  if h : lba < sectors then disk.sector ⟨lba, h⟩ else Buffer.zero

/-- A RAM disk reads back what was written and rejects everything else unchanged. -/
instance (sectors : ℕ) : LawfulBlockDevice (RamDisk sectors) where
  contents := RamDisk.contents
  contents_flush _ := rfl
  contents_read _ _ _ := rfl
  read_ok disk lba len sector h := by
    simp only [BlockDevice.readSector, RamDisk.readSector] at h
    split at h
    · simp at h
    split at h
    · rename_i hlba
      simp only [Except.ok.injEq] at h
      simp [RamDisk.contents, hlba, h]
    · simp at h
  write_ok disk lba bytes h := by
    simp only [BlockDevice.writeSector, RamDisk.writeSector] at h ⊢
    split at h
    · simp at h
    split at h
    · simp at h
    split at h
    · rename_i hlen hro hlba
      funext i
      by_cases hi : i = lba
      · subst hi
        simp [RamDisk.contents, hlen, hro, hlba]
      · by_cases hin : i < sectors <;> simp [RamDisk.contents, hlen, hro, hlba, hi, hin]
    · simp at h
  write_error disk lba bytes e h := by
    simp only [BlockDevice.writeSector, RamDisk.writeSector] at h ⊢
    split at h
    · simp [*]
    split at h
    · simp [*]
    split at h
    · simp at h
    · simp [*]

end WovenHat.Block
