import WovenHat.Model.Paging

/-! # Loads, stores and forks

What processes do with their pages: a load reads through the page table; a store that the page
table forbids is resolved by `try_handle_cow_fault` and retried; `clone_address_space` shares
the private pages with the child, mapping by mapping, and maps the frames of shared file pages
once more. The permissions of the mappings (`is_logically_writable`) are part of the state. -/

namespace WovenHat.Paging

def InRange (start size page : ℕ) : Prop :=
  start ≤ page ∧ page < start + size

instance (start size page : ℕ) : Decidable (InRange start size page) :=
  inferInstanceAs (Decidable (_ ∧ _))

namespace Memory

def load (m : Memory) (space : Space) (page : Page) (offset : ℕ) : Option UInt8 :=
  (m.tables.lookup (space, page)).map fun pte => m.bytes pte.frame offset

def poke (m : Memory) (frame : Frame) (offset : ℕ) (byte : UInt8) : Memory :=
  { m with bytes := Function.update m.bytes frame (Function.update (m.bytes frame) offset byte) }

/-- A store, if the page table allows it. -/
def store (m : Memory) (space : Space) (page : Page) (offset : ℕ) (byte : UInt8) : Bool × Memory :=
  match m.tables.lookup (space, page) with
  | none => (false, m)
  | some pte => if pte.writable then (true, m.poke pte.frame offset byte) else (false, m)

/-- The page is mapped to a frame of a shared file mapping. -/
def isFilePage (m : Memory) (space : Space) (page : Page) : Bool :=
  (m.tables.lookup (space, page)).any fun pte => m.cached pte.frame = some true

end Memory

/-- The address spaces, with the permissions of their mappings. -/
structure Spaces where
  memory : Memory
  writable : Space → Page → Bool

namespace Spaces

/-- A store with its fault: `try_handle_cow_fault` breaks the sharing of a page that is
logically writable, and the instruction runs again. -/
def store (s : Spaces) (space : Space) (page : Page) (offset : ℕ) (byte : UInt8) : Bool × Spaces :=
  let (ok, memory) := s.memory.store space page offset byte
  if ok then (true, { s with memory })
  else if s.writable space page then
    let (ok, memory) := s.memory.tryBreakCow space page
    if ok then
      let (ok, memory) := memory.store space page offset byte
      (ok, { s with memory })
    else (false, { s with memory })
  else (false, s)

/-- The call of `share_user_range_in` for a private mapping, all of whose pages have the
permission `writable`. -/
def shareMapping (s : Spaces) (source destination : Space) (start : Page) (size : ℕ)
    (writable executable : Bool) (fails : ℕ → Bool) : Bool × Spaces :=
  if ∀ i < size, s.writable source (start + i) = writable ∧
      s.memory.isFilePage source (start + i) = false then
    let (ok, memory) :=
      s.memory.shareUserRange source destination start size writable executable fails
    if ok then
      (true, { memory, writable := fun space page =>
        if space = destination ∧ InRange start size page then writable
        else s.writable space page })
    else (false, { s with memory })
  else (false, s)

/-- `map_file_frame` for a page of a shared file mapping. -/
def shareFilePage (s : Spaces) (source destination : Space) (page : Page) (fails : Bool) :
    Bool × Spaces :=
  if s.memory.isFilePage source page then
    match s.memory.tables.lookup (source, page) with
    | none => (false, s)
    | some pte =>
      let (ok, memory) := s.memory.mapFileFrame destination page pte.frame true fails
      if ok then
        (true, { memory, writable := fun space other =>
          if space = destination ∧ other = page then true else s.writable space other })
      else (false, { s with memory })
  else (false, s)

end Spaces

inductive Access where
  | load (space : Space) (page : Page) (offset : ℕ)
  | store (space : Space) (page : Page) (offset : ℕ) (byte : UInt8)
  | shareMapping (source destination : Space) (start : Page) (size : ℕ)
      (writable executable : Bool) (fails : ℕ → Bool)
  | shareFilePage (source destination : Space) (page : Page) (fails : Bool)

inductive Outcome where
  | loaded (byte : Option UInt8)
  | finished (ok : Bool)
  deriving DecidableEq, Repr

def Outcome.granted : Outcome → Bool
  | .loaded _ => true
  | .finished ok => ok

namespace Spaces

def exec (s : Spaces) : Access → Outcome × Spaces
  | .load space page offset => (.loaded (s.memory.load space page offset), s)
  | .store space page offset byte =>
    let (ok, s) := s.store space page offset byte
    (.finished ok, s)
  | .shareMapping source destination start size writable executable fails =>
    let (ok, s) := s.shareMapping source destination start size writable executable fails
    (.finished ok, s)
  | .shareFilePage source destination page fails =>
    let (ok, s) := s.shareFilePage source destination page fails
    (.finished ok, s)

def run (s : Spaces) : List Access → List Outcome
  | [] => []
  | access :: accesses => (s.exec access).1 :: (s.exec access).2.run accesses

end Spaces

/-! ## How a family comes about -/

/-- Calls of the kernel and accesses of processes. -/
inductive Call where
  | paging (op : Memory.Op)
  | mapLazily (space : Space) (start : Page) (size : ℕ) (writable : Bool)
  | access (access : Access)

namespace Spaces

def boot (frames : List Frame) (bytes : Frame → ℕ → UInt8) : Spaces where
  memory := Memory.boot frames bytes
  writable _ _ := false

def permit (s : Spaces) (space : Space) (start : Page) (size : ℕ) (writable : Bool) : Spaces :=
  { s with writable := fun other page =>
      if other = space ∧ InRange start size page then writable else s.writable other page }

/-- One call or access. `map_anonymous` and the loader map pages with the permission of the
mapping; `map_file_lazy` records the permission of pages that are not mapped yet, and
`populate_file_page` maps them later, for writing only where the mapping allows it. Pages are
shared and sharing is broken by accesses only. -/
def step (s : Spaces) : Call → Option Spaces
  | .paging (.map space start size writable executable fails) =>
    let (ok, memory) := s.memory.mapUserRange space start size writable executable fails
    if ok then some ({ s with memory }.permit space start size writable)
    else some { s with memory }
  | .paging (.mapPrivate space page bytes writable fails) =>
    if s.writable space page = writable then
      (s.memory.step (.mapPrivate space page bytes writable fails)).map fun memory =>
        { s with memory }
    else none
  | .paging (.mapFile space page frame writable fails) =>
    if writable → s.writable space page then
      (s.memory.step (.mapFile space page frame writable fails)).map fun memory =>
        { s with memory }
    else none
  | .paging (.share ..) => none
  | .paging (.breakCow ..) => none
  | .paging op => (s.memory.step op).map fun memory => { s with memory }
  | .mapLazily space start size writable =>
    if ∀ i < size, (s.memory.tables.lookup (space, start + i)).isNone then
      some (s.permit space start size writable)
    else none
  | .access access => some (s.exec access).2

end Spaces

end WovenHat.Paging
