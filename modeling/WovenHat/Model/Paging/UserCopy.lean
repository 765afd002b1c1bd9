import Mathlib

/-! # Copies from and to user memory

`copy_from_current_user` and `copy_to_current_user` of `paging.rs`. Each pass of their loops
locks the page tables anew, so it may find other tables than the one before. The fault
handlers are called between passes; what they answer belongs to what a pass finds. -/

namespace WovenHat.Paging.UserCopy

/-- The addresses that `VirtAddr::new` accepts; it panics on all others. -/
def Canonical (address : ℕ) : Prop :=
  address < 2 ^ 47 ∨ 2 ^ 64 - 2 ^ 47 ≤ address

instance (address : ℕ) : Decidable (Canonical address) :=
  inferInstanceAs (Decidable (_ ∨ _))

inductive UserMemoryError where
  | addressOverflow
  | notMapped
  | permissionDenied
  deriving DecidableEq, Repr

/-- The flags of a page that the copies look at. -/
structure Flags where
  userAccessible : Bool
  writable : Bool
  deriving DecidableEq, Repr

/-- `TranslateResult`, with the start and the size of the frame, which may be a huge one. -/
inductive TranslateResult where
  | mapped (frame size : ℕ) (offset : Fin size) (flags : Flags)
  | notMapped
  | invalidFrameAddress
  deriving DecidableEq, Repr

/-- The page tables as a pass finds them. -/
structure Tables where
  /-- `physical_memory_offset`. -/
  physicalMemoryOffset : ℕ
  /-- The frame in `Cr3`. -/
  level4Frame : ℕ
  translate : ℕ → TranslateResult
  /-- What `try_handle_file_fault` answers. -/
  tryHandleFileFault : ℕ → Bool → Bool
  /-- What `try_handle_cow_fault` answers. -/
  tryHandleCowFault : ℕ → Bool

/-- A part of a copy: from or to which addresses, and how much. -/
structure Chunk where
  virtual : ℕ
  physical : ℕ
  count : ℕ
  deriving DecidableEq, Repr

/-- What a pass comes to. -/
inductive Pass where
  | copied (chunk : Chunk)
  /-- A fault was resolved. -/
  | retry
  | error (e : UserMemoryError)
  | panic
  deriving DecidableEq, Repr

/-- What `translated_chunk` comes to. -/
inductive Translated where
  | chunk (physical count : ℕ) (flags : Flags)
  | error (e : UserMemoryError)
  | panic
  deriving DecidableEq, Repr

namespace Tables

def checkedAdd (a b : ℕ) : Option ℕ :=
  if a + b < 2 ^ 64 then some (a + b) else none

/-- Whether `mapper_for` finds the table. -/
def mapperFor (t : Tables) : Bool :=
  (checkedAdd t.physicalMemoryOffset t.level4Frame).isSome

def translatedChunk (t : Tables) (virtualAddress remaining : ℕ) : Translated :=
  if Canonical virtualAddress then
    match t.translate virtualAddress with
    | .mapped frame size offset flags =>
      match checkedAdd frame offset with
      | some physical => .chunk physical (min (size - offset) remaining) flags
      | none => .error .addressOverflow
    | .notMapped | .invalidFrameAddress => .error .notMapped
  else .panic

/-- A pass of `copy_to_current_user`. -/
def copyToPass (t : Tables) (start length copied : ℕ) : Pass :=
  if !t.mapperFor then .error .notMapped
  else
    match checkedAdd start copied with
    | none => .error .addressOverflow
    | some virtualAddress =>
      match t.translatedChunk virtualAddress (length - copied) with
      | .panic => .panic
      | .error .notMapped =>
        if t.tryHandleFileFault virtualAddress true then .retry else .error .notMapped
      | .error e => .error e
      | .chunk physical count flags =>
        if !flags.userAccessible then .error .permissionDenied
        else if !flags.writable then
          if t.tryHandleCowFault virtualAddress then .retry else .error .permissionDenied
        else
          match checkedAdd t.physicalMemoryOffset physical with
          | none => .error .addressOverflow
          | some _ => .copied ⟨virtualAddress, physical, count⟩

/-- A pass of `copy_current_user`, which `copy_from_current_user` calls without
`require_writable`. -/
def copyPass (requireWritable : Bool) (t : Tables) (start length copied : ℕ) : Pass :=
  if !t.mapperFor then .error .notMapped
  else
    match checkedAdd start copied with
    | none => .error .addressOverflow
    | some virtualAddress =>
      match t.translatedChunk virtualAddress (length - copied) with
      | .panic => .panic
      | .error .notMapped =>
        if t.tryHandleFileFault virtualAddress requireWritable then .retry
        else .error .notMapped
      | .error e => .error e
      | .chunk physical count flags =>
        if !flags.userAccessible || (requireWritable && !flags.writable) then
          .error .permissionDenied
        else
          match checkedAdd t.physicalMemoryOffset physical with
          | none => .error .addressOverflow
          | some _ => .copied ⟨virtualAddress, physical, count⟩

/-- A pass of `copy_from_current_user`. -/
def copyFromPass : Tables → ℕ → ℕ → ℕ → Pass :=
  copyPass false

end Tables

inductive Outcome where
  | ok
  | error (e : UserMemoryError)
  | panic
  deriving DecidableEq, Repr

/-- A call under way, or ended. -/
structure Call where
  copied : ℕ
  /-- The faults resolved so far. -/
  resolved : ℕ
  /-- The parts copied so far, the last one first. -/
  chunks : List Chunk
  outcome : Option Outcome
  deriving DecidableEq, Repr

namespace Call

/-- The test at the head of the loop. -/
def test (c : Call) (length : ℕ) : Call :=
  if c.copied < length then c else { c with outcome := some .ok }

def begin (length : ℕ) : Call :=
  test ⟨0, 0, [], none⟩ length

/-- The loop's body. -/
def next (c : Call) (length : ℕ) : Pass → Call
  | .copied chunk =>
    test { c with copied := c.copied + chunk.count, chunks := chunk :: c.chunks } length
  | .retry => { c with resolved := c.resolved + 1 }
  | .error e => { c with outcome := some (.error e) }
  | .panic => { c with outcome := some .panic }

end Call

/-- A call after a number of passes over the tables that these find. -/
def run (pass : Tables → ℕ → ℕ → ℕ → Pass) (start length : ℕ) (tables : ℕ → Tables) : ℕ → Call
  | 0 => Call.begin length
  | passes + 1 =>
    let c := run pass start length tables passes
    match c.outcome with
    | none => c.next length (pass (tables passes) start length c.copied)
    | some _ => c

end WovenHat.Paging.UserCopy
