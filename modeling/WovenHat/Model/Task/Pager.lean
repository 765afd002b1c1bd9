import Mathlib

/-! # Lazy file mappings and the pager

Processes with lazily mapped files. A fault on an absent page copies the mapping into a request
(`try_handle_file_fault`); the pager takes the request, populates the page in its copy, possibly
after evicting pages of any process, and writes the copy back (`pager_task`). The state keeps
which pages of each mapping are in the page tables and the reference counts of swap handles.
The contents of pages and frames are left out; where an operation depends on memory, on the
disk or on the order in which pages are tried for eviction, the outcome is part of the label. -/

namespace WovenHat.Pager

open Function

/-- `MAX_PROCESSES`. -/
abbrev Proc := Fin 32

/-- `MAX_ANONYMOUS_MAPPINGS`. -/
abbrev Slot := Fin 16

/-- `USER_MMAP_PAGES`. -/
abbrev Page := Fin 16

abbrev Handle := ℕ

/-- A lazy `AnonymousMapping`. -/
structure Mapping where
  pages : ℕ
  writable : Bool
  shared : Bool
  resident : Page → Bool
  dirty : Page → Bool
  swapSlots : Page → Option Handle

/-- The mapping that `map_file_lazy` makes. -/
def Mapping.lazy (pages : ℕ) (writable shared : Bool) : Mapping :=
  ⟨pages, writable, shared, fun _ => false, fun _ => false, fun _ => none⟩

/-- How often a mapping records a swap handle. -/
def Mapping.records (m : Mapping) (h : Handle) : ℕ :=
  ∑ page, if m.swapSlots page = some h then 1 else 0

/-- `PagerRequest`, with the copy of the mapping. -/
structure Request where
  proc : Proc
  slot : Slot
  mapping : Mapping
  page : Page
  write : Bool

/-- `PROCESS_TABLE`, page tables, `swap` and `PAGER`. The request that the pager is serving is
`active`. -/
structure State where
  mappings : Proc → Slot → Option Mapping
  mapped : Proc → Slot → Page → Bool
  swap : Handle → ℕ
  entries : Fin 16 → Option Request
  active : Option Request

namespace State

def boot : State where
  mappings _ _ := none
  mapped _ _ _ := false
  swap _ := 0
  entries _ := none
  active := none

variable (s : State) (p : Proc) (slot : Slot)

def setMapping (m : Option Mapping) : State :=
  { s with mappings := update s.mappings p (update (s.mappings p) slot m) }

def setMapped (page : Page) (b : Bool) : State :=
  let pages := update (s.mapped p slot) page b
  { s with mapped := update s.mapped p (update (s.mapped p) slot pages) }

def blocked : Bool :=
  s.active.any (·.proc == p) || (List.finRange 16).any fun i => (s.entries i).any (·.proc == p)

/-- `map_file_lazy` and `map_file_shared`. -/
def map (pages : ℕ) (writable shared : Bool) : Option State :=
  if (s.mappings p slot).isNone ∧ ∀ page, s.mapped p slot page = false then
    some (s.setMapping p slot (some (.lazy pages writable shared)))
  else none

/-- `try_handle_file_fault`, up to the point where the process blocks. -/
def tryHandleFileFault (page : Page) (write : Bool) : Option State :=
  match s.mappings p slot with
  | none => none
  | some mapping =>
    match (List.finRange 16).find? fun i => (s.entries i).isNone with
    | none => none
    | some i =>
      some { s with entries := update s.entries i (some ⟨p, slot, mapping, page, write⟩) }

/-- The pager takes the first request. -/
def pop : Option State :=
  if s.active.isSome then none
  else
    match (List.finRange 16).find? fun i => (s.entries i).isSome with
    | none => none
    | some i => some { s with entries := update s.entries i none, active := s.entries i }

/-- `populate_file_page` on the copy of a mapping: the page and the copy afterwards. The handle
of a swapped page is released. -/
def populateFilePage (r : Request) : Option (Mapping × State) :=
  let m := r.mapping
  if m.pages ≤ r.page.val ∨ (r.write && !m.writable) ∨ m.resident r.page then none
  else
    match m.swapSlots r.page with
    | some h =>
      if s.swap h = 0 ∨ s.mapped r.proc r.slot r.page then none
      else
        some ({ m with
            swapSlots := update m.swapSlots r.page none
            resident := update m.resident r.page true
            dirty := update m.dirty r.page true },
          { s.setMapped r.proc r.slot r.page true with
            swap := update s.swap h (s.swap h - 1) })
    | none =>
      if s.mapped r.proc r.slot r.page then none
      else
        some ({ m with resident := update m.resident r.page true },
          s.setMapped r.proc r.slot r.page true)

/-- The rest of `pager_task`: populate the page, and write the copy back if that succeeds. -/
def finish (succeeds : Bool) : Option State :=
  match s.active with
  | none => none
  | some r =>
    let s := { s with active := none }
    if succeeds then
      match s.populateFilePage r with
      | none => some s
      | some (m, s) => some (s.setMapping r.proc r.slot (some m))
    else some s

/-- `evict_file_page` of a page that `evict_one_mapped_file_page` finds. A dirty private page
goes to the swap slot `handle`, which has just been allocated. -/
def evictFilePage (page : Page) (handle : Handle) : Option State :=
  match s.mappings p slot with
  | none => none
  | some m =>
    if m.pages ≤ page.val ∨ m.resident page = false ∨ s.mapped p slot page = false then none
    else
      let swapped := !m.shared && m.dirty page
      if swapped ∧ s.swap handle ≠ 0 then none
      else
        -- the old handle of the page is released first
        let swap :=
          match m.swapSlots page with
          | some old => update s.swap old (s.swap old - 1)
          | none => s.swap
        let swap := if swapped then update swap handle 1 else swap
        let m := { m with
          swapSlots := update m.swapSlots page (if swapped then some handle else none)
          resident := update m.resident page false }
        some ({ s.setMapped p slot page false with swap }.setMapping p slot (some m))

/-- `try_handle_cow_fault` on a page of a lazy mapping, with `mark_file_page_dirty`. -/
def tryHandleCowFault (page : Page) : Option State :=
  match s.mappings p slot with
  | none => none
  | some m =>
    if m.shared ∨ m.writable = false ∨ m.resident page = false then some s
    else
      some (s.setMapping p slot (some { m with dirty := update m.dirty page true }))

/-- `unmap_anonymous` and the free slot. -/
def unmap : Option State :=
  match s.mappings p slot with
  | none => none
  | some m =>
    -- `unmap_user_range_in` fails on a page that is not mapped
    if ∃ page, m.resident page ∧ s.mapped p slot page = false then none
    else
      some ({ s with
        mapped := update s.mapped p (update (s.mapped p) slot fun page =>
          s.mapped p slot page && !m.resident page)
        swap := fun h => s.swap h - m.records h }.setMapping p slot none)

/-- `clone_address_space` for a new process. -/
def fork (s : State) (parent child : Proc) : Option State :=
  if (∀ slot, (s.mappings child slot).isNone) ∧ (∀ slot page, s.mapped child slot page = false) ∧
      ∀ slot page, (s.mappings parent slot).any (·.resident page) → s.mapped parent slot page then
    some { s with
      mappings := update s.mappings child (s.mappings parent)
      mapped := update s.mapped child fun slot page =>
        (s.mappings parent slot).any (·.resident page)
      swap := fun h => s.swap h + ∑ slot, (s.mappings parent slot).elim 0 (·.records h) }
  else none

/-! ## Steps -/

/-- The steps of processes and of the pager. -/
inductive Op where
  | map (p : Proc) (slot : Slot) (pages : ℕ) (writable shared : Bool)
  | fault (p : Proc) (slot : Slot) (page : Page) (write : Bool)
  | pop
  | evict (p : Proc) (slot : Slot) (page : Page) (handle : Handle)
  | finish (succeeds : Bool)
  | breakCow (p : Proc) (slot : Slot) (page : Page)
  | unmap (p : Proc) (slot : Slot)
  | fork (parent child : Proc)

/-- One step. A process that is blocked in a fault does nothing else, and pages are evicted
while the pager serves a request. -/
def step : Op → Option State
  | .map p slot pages writable shared =>
    if s.blocked p then none else s.map p slot pages writable shared
  | .fault p slot page write =>
    if s.blocked p then none else s.tryHandleFileFault p slot page write
  | .pop => s.pop
  | .evict p slot page handle =>
    if s.active.isSome then s.evictFilePage p slot page handle else none
  | .finish succeeds => s.finish succeeds
  | .breakCow p slot page =>
    if s.blocked p then none else s.tryHandleCowFault p slot page
  | .unmap p slot => if s.blocked p then none else s.unmap p slot
  | .fork parent child => if s.blocked parent then none else s.fork parent child

end State

end WovenHat.Pager
