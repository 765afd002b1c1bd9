import WovenHat.Model.BlockCache

/-! # The cache of file pages

`page_cache.rs`: a least-recently-used cache of `N` clean file pages. Pages are loaded by a
function that the caller passes, which may fail. -/

namespace WovenHat.FilePages

open Library Block BlockCache

def pageSize : ℕ := 4096

def keySize : ℕ := 128

def usizeMax : ℕ := 2 ^ 64 - 1

abbrev Key := List UInt8

structure Slot where
  key : Buffer keySize
  keyLen : ℕ
  page : ℕ
  data : Buffer pageSize
  length : ℕ
  valid : Bool
  age : ℕ

def Slot.empty : Slot := ⟨Buffer.zero, 0, 0, Buffer.zero, 0, false, 0⟩

def Slot.name (s : Slot) : Key := s.key.slice 0 s.keyLen

structure PageCache (N : ℕ) where
  slots : Fin N → Slot
  hits : ℕ
  misses : ℕ
  evictions : ℕ

/-- The function that loads the page at an offset into a buffer, with its own state. It gives
the number of bytes loaded. -/
abbrev Loader (L : Type) := L → ℕ → Buffer pageSize → (Except Error ℕ × Buffer pageSize) × L

namespace PageCache

variable {N : ℕ} {L : Type}

def new (N : ℕ) : PageCache N := ⟨fun _ => .empty, 0, 0, 0⟩

variable (c : PageCache N)

def invalidate : PageCache N :=
  { c with slots := fun i => { c.slots i with valid := false } }

def setSlot (index : Fin N) (slot : Slot) : PageCache N :=
  { c with slots := Function.update c.slots index slot }

def lookup (key : Key) (page : ℕ) : Option (Fin N) :=
  (List.finRange N).find? fun i =>
    (c.slots i).valid && (c.slots i).page == page && (c.slots i).keyLen == key.length &&
      (c.slots i).name == key

/-- The first slot that is not valid, else the oldest one. -/
def victim [NeZero N] : Fin N :=
  match (List.finRange N).find? fun i => !(c.slots i).valid with
  | some index => index
  | none => (CachedDevice.maxByKey (fun i => (c.slots i).age) (List.finRange N)).getD 0

def fill (index : Fin N) (key : Key) (page : ℕ) (load : Loader L) (l : L) :
    Except Error (Fin N) × PageCache N × L :=
  let slot := c.slots index
  let c := if slot.valid then { c with evictions := saturatingAdd c.evictions 1 } else c
  match load l (page * pageSize) Buffer.zero with
  | ((.error e, data), l) => (.error e, c.setSlot index { slot with valid := false, data }, l)
  | ((.ok length, data), l) =>
    if pageSize < length then
      (.error .invalidBuffer, c.setSlot index { slot with valid := false, data }, l)
    else
      (.ok index, c.setSlot index { slot with
        key := slot.key.write 0 key, keyLen := key.length, page, data, length, valid := true }, l)

/-- The slot of a page: one that has it, or one into which it is loaded. -/
def fetch [NeZero N] (key : Key) (page : ℕ) (load : Loader L) (l : L) :
    Except Error (Fin N) × PageCache N × L :=
  match c.lookup key page with
  | some index => (.ok index, { c with hits := saturatingAdd c.hits 1 }, l)
  | none => { c with misses := saturatingAdd c.misses 1 }.fill c.victim key page load l

/-- Every valid slot ages by one and `index` becomes the youngest. -/
def touch (index : Fin N) : PageCache N :=
  let aged := fun i =>
    if (c.slots i).valid then { c.slots i with age := saturatingAdd (c.slots i).age 1 }
    else c.slots i
  { c with slots := Function.update aged index { aged index with age := 0 } }

/-- The loop of `PageCache::read`: `out` is the part of the output that has been filled. -/
def readLoop [NeZero N] (c : PageCache N) (key : Key) (offset room : ℕ) (load : Loader L) (l : L)
    (out : List UInt8) : Except Error ℕ × List UInt8 × PageCache N × L :=
  if _ : out.length < room then
    let position := offset + out.length
    match c.fetch key (position / pageSize) load l with
    | (.error e, c, l) => (.error e, out, c, l)
    | (.ok index, c, l) =>
      let c := c.touch index
      let slot := c.slots index
      let within := position % pageSize
      let count := min (slot.length - within) (room - out.length)
      if _ : count = 0 then (.ok out.length, out, c, l)
      else
        let out' := out ++ slot.data.slice within count
        if slot.length < pageSize then (.ok out'.length, out', c, l)
        else c.readLoop key offset room load l out'
  else (.ok out.length, out, c, l)
termination_by room - out.length
decreasing_by
  simp only [List.length_append, Buffer.length_slice]
  change room - (out.length + count) < room - out.length
  omega

/-- `PageCache::read` into an output of `room` bytes: the result and the part of the output that
has been filled. -/
def read (key : Key) (offset room : ℕ) (load : Loader L) (l : L) :
    Except Error ℕ × List UInt8 × PageCache N × L :=
  if h : key = [] ∨ keySize < key.length ∨ N = 0 ∨ usizeMax < offset + room then
    (.error .invalidBuffer, [], c, l)
  else
    have : NeZero N := ⟨fun hN => h (.inr (.inr (.inl hN)))⟩
    c.readLoop key offset room load l []

end PageCache

end WovenHat.FilePages
