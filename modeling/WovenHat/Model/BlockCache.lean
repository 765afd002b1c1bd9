import WovenHat.Model.Block

/-! # The write-back sector cache

`block_cache.rs`: a least-recently-used cache of `N` sectors between a filesystem
and a block device. Dirty entries are written back before they are replaced and by
`flush`. -/

namespace WovenHat.BlockCache

open Library Block BlockDevice

structure CacheEntry where
  lba : ℕ
  data : Sector
  valid : Bool
  dirty : Bool
  age : ℕ

def CacheEntry.empty : CacheEntry :=
  ⟨0, Buffer.zero, false, false, 0⟩

structure CachedDevice (D : Type) (N : ℕ) where
  inner : D
  entries : Fin N → CacheEntry
  writebacks : ℕ
  evictions : ℕ
  hits : ℕ
  misses : ℕ

variable {D : Type} {N : ℕ}

namespace CachedDevice

def new (N : ℕ) (inner : D) : CachedDevice D N :=
  ⟨inner, fun _ => CacheEntry.empty, 0, 0, 0, 0⟩

variable (c : CachedDevice D N)

def setEntry (index : Fin N) (entry : CacheEntry) : CachedDevice D N :=
  { c with entries := Function.update c.entries index entry }

/-- `CachedDevice::touch`: every valid entry ages by one and `index` becomes the youngest. -/
def touch (index : Fin N) : CachedDevice D N :=
  let aged := fun i =>
    if (c.entries i).valid then { c.entries i with age := saturatingAdd (c.entries i).age 1 }
    else c.entries i
  { c with entries := Function.update aged index { aged index with age := 0 } }

/-- `CachedDevice::find`: the first valid entry that holds `lba`. -/
def find (c : CachedDevice D N) (lba : ℕ) : Option (Fin N) :=
  (List.finRange N).find? fun i => (c.entries i).valid && (c.entries i).lba == lba

/-- The last position of a list whose key is largest, as `Iterator::max_by_key` selects it. -/
def maxByKey {α : Type} (key : α → ℕ) : List α → Option α
  | [] => none
  | x :: xs =>
    match maxByKey key xs with
    | none => some x
    | some y => if key x ≤ key y then some y else some x

/-- `CachedDevice::victim`: the first invalid entry, else the oldest one. -/
def victim [NeZero N] : Fin N :=
  match (List.finRange N).find? fun i => !(c.entries i).valid with
  | some index => index
  | none => (maxByKey (fun i => (c.entries i).age) (List.finRange N)).getD 0

variable [BlockDevice D]

def writeBack (index : Fin N) : Except Error Unit × CachedDevice D N :=
  if (c.entries index).valid && (c.entries index).dirty then
    match writeSector c.inner (c.entries index).lba ((c.entries index).data.slice 0 sectorSize) with
    | (.error e, inner) => (.error e, { c with inner })
    | (.ok (), inner) =>
      (.ok (), { c.setEntry index { c.entries index with dirty := false } with
        inner, writebacks := saturatingAdd c.writebacks 1 })
  else (.ok (), c)

def evict (index : Fin N) : CachedDevice D N :=
  if (c.entries index).valid then { c with evictions := saturatingAdd c.evictions 1 } else c

/-- `CachedDevice::load`: the index of the entry that holds `lba`, read from the inner
device when it is not cached. -/
def load [NeZero N] (lba : ℕ) : Except Error (Fin N) × CachedDevice D N :=
  match c.find lba with
  | some index =>
    (.ok index, touch { c with hits := saturatingAdd c.hits 1 } index)
  | none =>
    let c := { c with misses := saturatingAdd c.misses 1 }
    let index := c.victim
    match c.writeBack index with
    | (.error e, c) => (.error e, c)
    | (.ok (), c) =>
      match readSector c.inner lba sectorSize with
      | (.error e, inner) => (.error e, { c with inner })
      | (.ok data, inner) =>
        let c := evict { c with inner } index
        (.ok index, (c.setEntry index ⟨lba, data, true, false, 0⟩).touch index)

/-- The write-back loop of `CachedDevice::flush` over a list of entry positions. -/
def writeBackAll (c : CachedDevice D N) : List (Fin N) → Except Error Unit × CachedDevice D N
  | [] => (.ok (), c)
  | index :: rest =>
    match c.writeBack index with
    | (.error e, c) => (.error e, c)
    | (.ok (), c) => c.writeBackAll rest

def flush (c : CachedDevice D N) : Except Error Unit × CachedDevice D N :=
  match c.writeBackAll (List.finRange N) with
  | (.error e, c) => (.error e, c)
  | (.ok (), c) =>
    let (result, inner) := BlockDevice.flush c.inner
    (result, { c with inner })

/-- `CachedDevice::read_sector` into a buffer of `len` bytes. -/
def readSector (c : CachedDevice D N) (lba len : ℕ) : Except Error Sector × CachedDevice D N :=
  if len ≠ sectorSize then (.error .invalidBuffer, c)
  else if lba ≥ BlockDevice.sectorCount c.inner then (.error .outOfBounds, c)
  else if h : N = 0 then
    let (result, inner) := BlockDevice.readSector c.inner lba len
    (result, { c with inner })
  else
    have : NeZero N := ⟨h⟩
    match c.load lba with
    | (.error e, c) => (.error e, c)
    | (.ok index, c) => (.ok (c.entries index).data, c)

/-- The entry that `write_sector` fills: the one that holds `lba`, or a replaced victim. -/
def reserve [NeZero N] (lba : ℕ) : Except Error (Fin N) × CachedDevice D N :=
  match c.find lba with
  | some index => (.ok index, { c with hits := saturatingAdd c.hits 1 })
  | none =>
    let c := { c with misses := saturatingAdd c.misses 1 }
    let index := c.victim
    match c.writeBack index with
    | (.error e, c) => (.error e, c)
    | (.ok (), c) =>
      (.ok index, (c.evict index).setEntry index ⟨lba, Buffer.zero, true, false, 0⟩)

def writeSector (c : CachedDevice D N) (lba : ℕ) (bytes : List UInt8) :
    Except Error Unit × CachedDevice D N :=
  if bytes.length ≠ sectorSize then (.error .invalidBuffer, c)
  else if lba ≥ BlockDevice.sectorCount c.inner then (.error .outOfBounds, c)
  else if BlockDevice.isReadOnly c.inner then (.error .readOnly, c)
  else if h : N = 0 then
    let (result, inner) := BlockDevice.writeSector c.inner lba bytes
    (result, { c with inner })
  else
    have : NeZero N := ⟨h⟩
    match c.reserve lba with
    | (.error e, c) => (.error e, c)
    | (.ok index, c) =>
      (.ok (), (c.setEntry index
        { c.entries index with data := Buffer.ofList bytes, dirty := true }).touch index)

end CachedDevice

instance [BlockDevice D] (N : ℕ) : BlockDevice (CachedDevice D N) where
  sectorCount c := sectorCount c.inner
  isReadOnly c := isReadOnly c.inner
  flush := CachedDevice.flush
  readSector := CachedDevice.readSector
  writeSector := CachedDevice.writeSector

/-! ## The fault probe -/

/-- `Probe`: a four-sector disk that counts the calls it receives and fails those of
the kinds it is told to. -/
structure Probe where
  disk : RamDisk 4
  reads : ℕ
  writes : ℕ
  flushes : ℕ
  failRead : Bool
  failWrite : Bool
  failFlush : Bool

def Probe.new : Probe :=
  ⟨RamDisk.new 4, 0, 0, 0, false, false, false⟩

instance : BlockDevice Probe where
  sectorCount p := sectorCount p.disk
  isReadOnly p := isReadOnly p.disk
  flush p :=
    (if p.failFlush then .error .deviceFault else .ok (), { p with flushes := p.flushes + 1 })
  readSector p lba len :=
    let p := { p with reads := p.reads + 1 }
    if p.failRead then (.error .deviceFault, p)
    else
      let (result, disk) := readSector p.disk lba len
      (result, { p with disk })
  writeSector p lba bytes :=
    let p := { p with writes := p.writes + 1 }
    if p.failWrite then (.error .deviceFault, p)
    else
      let (result, disk) := writeSector p.disk lba bytes
      (result, { p with disk })

/-! ## Sequences of calls -/

/-- One call on the cached device. -/
inductive Request where
  | read (lba len : ℕ)
  | write (lba : ℕ) (bytes : List UInt8)
  | flush

/-- The result of a call; only a read returns a sector. -/
abbrev Reply := Except Error (Option Sector)

def serve [BlockDevice D] (c : CachedDevice D N) : Request → Reply × CachedDevice D N
  | .read lba len => ((c.readSector lba len).1.map some, (c.readSector lba len).2)
  | .write lba bytes => ((c.writeSector lba bytes).1.map fun _ => none, (c.writeSector lba bytes).2)
  | .flush => (c.flush.1.map fun _ => none, c.flush.2)

/-- Serve the calls in order; the log pairs each call with its result. -/
def run [BlockDevice D] (c : CachedDevice D N) :
    List Request → List (Request × Reply) × CachedDevice D N
  | [] => ([], c)
  | request :: rest =>
    let (reply, next) := serve c request
    let (log, final) := run next rest
    ((request, reply) :: log, final)

/-- The effect of one logged call on the sectors a client has stored: only a
successful write changes them. -/
def applyLogged (sectors : ℕ → Sector) : Request × Reply → ℕ → Sector
  | (.write lba bytes, .ok _) => Function.update sectors lba (Buffer.ofList bytes)
  | _ => sectors

/-- The last successful write to each sector, or its initial contents. -/
def lastWritten (initial : ℕ → Sector) (log : List (Request × Reply)) : ℕ → Sector :=
  log.foldl applyLogged initial

end WovenHat.BlockCache
