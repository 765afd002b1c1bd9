import WovenHat.Library.Buffer

/-! # Pipes

The pipe table of `pipe.rs`. Waiting tasks are kept in fixed lists; who is woken by an
operation is part of its result. -/

namespace WovenHat.Pipes

open Library

def pipeBuffer : ℕ := 2048

def maxPipes : ℕ := 32

def maxWaiters : ℕ := 32

def u32Max : ℕ := 2 ^ 32 - 1

abbrev TaskId := ℕ

inductive Error where
  | full
  | invalid
  | closed
  deriving DecidableEq, Repr

abbrev Waiters := Fin maxWaiters → Option TaskId

structure Pipe where
  data : Buffer pipeBuffer
  head : ℕ
  tail : ℕ
  len : ℕ
  readers : ℕ
  writers : ℕ
  occupied : Bool
  readWaiters : Waiters
  writeWaiters : Waiters

namespace Pipe

def empty : Pipe where
  data := Buffer.zero
  head := 0
  tail := 0
  len := 0
  readers := 0
  writers := 0
  occupied := false
  readWaiters := fun _ => none
  writeWaiters := fun _ => none

/-- The pipe that `Table::alloc` stores. -/
def fresh : Pipe :=
  { empty with readers := 1, writers := 1, occupied := true }

/-- One round of the loop of `try_write`. -/
def put (p : Pipe) (byte : UInt8) : Pipe :=
  { p with data := p.data.set p.tail byte, tail := (p.tail + 1) % pipeBuffer, len := p.len + 1 }

/-- The loop of `try_write`: the number of bytes written. -/
def fill (p : Pipe) : List UInt8 → Pipe × ℕ
  | [] => (p, 0)
  | byte :: rest =>
    if p.len < pipeBuffer then
      let (p', written) := (p.put byte).fill rest
      (p', written + 1)
    else (p, 0)

/-- One round of the loop of `try_read`. -/
def skip (p : Pipe) : Pipe :=
  { p with head := (p.head + 1) % pipeBuffer, len := p.len - 1 }

/-- The loop of `try_read` into a buffer with room for so many bytes: the bytes read. -/
def drain (p : Pipe) : ℕ → Pipe × List UInt8
  | 0 => (p, [])
  | room + 1 =>
    if 0 < p.len then
      let (p', bytes) := p.skip.drain room
      (p', p.data.get p.head :: bytes)
    else (p, [])

end Pipe

/-- `Table::push_waiter`: the first place that is free or has the task already. -/
def pushWaiter (slots : Waiters) (id : TaskId) : Waiters :=
  match (List.finRange maxWaiters).find? fun i => slots i = none ∨ slots i = some id with
  | some i => Function.update slots i (some id)
  | none => slots

/-- The tasks of a list, in the order in which `wake_list` wakes them. -/
def listed (slots : Waiters) : List TaskId :=
  (List.finRange maxWaiters).filterMap slots

/-- The list that `take_waiters` leaves. -/
def noWaiters : Waiters := fun _ => none

structure Table where
  pipes : Fin maxPipes → Pipe

namespace Table

def new : Table := ⟨fun _ => .empty⟩

def slot? (id : ℕ) : Option (Fin maxPipes) :=
  if h : id < maxPipes then some ⟨id, h⟩ else none

variable (t : Table)

def set (slot : Fin maxPipes) (p : Pipe) : Table :=
  ⟨Function.update t.pipes slot p⟩

/-- `get_mut(id)` and the check of `occupied` after it. -/
def find (id : ℕ) : Except Error (Fin maxPipes) :=
  match slot? id with
  | some slot => if (t.pipes slot).occupied then .ok slot else .error .invalid
  | none => .error .invalid

def alloc : Except Error ℕ × Table :=
  match (List.finRange maxPipes).find? fun slot => ¬(t.pipes slot).occupied with
  | some slot => (.ok slot, t.set slot .fresh)
  | none => (.error .full, t)

/-- `Table::try_write`: the number of bytes written, and whether to block. -/
def tryWrite (id : ℕ) (buf : List UInt8) : Except Error (ℕ × Bool) × Table :=
  match t.find id with
  | .error e => (.error e, t)
  | .ok slot =>
    let pipe := t.pipes slot
    if pipe.readers = 0 then (.error .closed, t)
    else
      let (pipe', written) := pipe.fill buf
      let needBlock := decide (written < buf.length ∧ 0 < pipe'.readers)
      (.ok (written, needBlock && decide (written = 0)), t.set slot pipe')

/-- `Table::try_read` into a buffer of `room` bytes: the bytes read, whether to block, and
whether this is the end of the file. -/
def tryRead (id room : ℕ) : Except Error (List UInt8 × Bool × Bool) × Table :=
  match t.find id with
  | .error e => (.error e, t)
  | .ok slot =>
    let pipe := t.pipes slot
    if pipe.len = 0 then
      if pipe.writers = 0 then (.ok ([], false, true), t) else (.ok ([], true, false), t)
    else
      let (pipe', bytes) := pipe.drain room
      (.ok (bytes, false, false), t.set slot pipe')

/-- `clone_reader` and `clone_writer`, with the change they make to an occupied pipe. -/
def cloneEnd (id : ℕ) (change : Pipe → Pipe) : Except Error Unit × Table :=
  match t.find id with
  | .error e => (.error e, t)
  | .ok slot => (.ok (), t.set slot (change (t.pipes slot)))

def cloneReader (id : ℕ) : Except Error Unit × Table :=
  t.cloneEnd id fun p => { p with readers := min (p.readers + 1) u32Max }

def cloneWriter (id : ℕ) : Except Error Unit × Table :=
  t.cloneEnd id fun p => { p with writers := min (p.writers + 1) u32Max }

/-- The end of `close_reader` and `close_writer`: a pipe without ends is given back. -/
def settle (p : Pipe) : Pipe :=
  if p.readers = 0 ∧ p.writers = 0 then .empty else p

/-- `close_reader`: the tasks that it wakes. -/
def closeReader (id : ℕ) : List TaskId × Table :=
  match t.find id with
  | .error _ => ([], t)
  | .ok slot =>
    let pipe := t.pipes slot
    (listed pipe.writeWaiters, t.set slot
      (settle { pipe with readers := pipe.readers - 1, writeWaiters := noWaiters }))

/-- `close_writer`: the tasks that it wakes. -/
def closeWriter (t : Table) (id : ℕ) : List TaskId × Table :=
  match t.find id with
  | .error _ => ([], t)
  | .ok slot =>
    let pipe := t.pipes slot
    (listed pipe.readWaiters, t.set slot
      (settle { pipe with writers := pipe.writers - 1, readWaiters := noWaiters }))

end Table

/-! ## Sequences of operations -/

inductive Op where
  | create
  | tryWrite (id : ℕ) (buf : List UInt8)
  | tryRead (id room : ℕ)
  | cloneReader (id : ℕ)
  | cloneWriter (id : ℕ)
  | closeReader (id : ℕ)
  | closeWriter (id : ℕ)

inductive Reply where
  | created (result : Except Error ℕ)
  | written (result : Except Error (ℕ × Bool))
  | read (result : Except Error (List UInt8 × Bool × Bool))
  | cloned (result : Except Error Unit)
  | closed (woken : List TaskId)

def Table.step (t : Table) : Op → Reply × Table
  | .create => (.created t.alloc.1, t.alloc.2)
  | .tryWrite id buf => (.written (t.tryWrite id buf).1, (t.tryWrite id buf).2)
  | .tryRead id room => (.read (t.tryRead id room).1, (t.tryRead id room).2)
  | .cloneReader id => (.cloned (t.cloneReader id).1, (t.cloneReader id).2)
  | .cloneWriter id => (.cloned (t.cloneWriter id).1, (t.cloneWriter id).2)
  | .closeReader id => (.closed (t.closeReader id).1, (t.closeReader id).2)
  | .closeWriter id => (.closed (t.closeWriter id).1, (t.closeWriter id).2)

/-- The loop of `pipe::write` after `total` bytes, with what other tasks do before each round:
the result, once the call returns, and the tables that each round finds and leaves. A round that
blocks is followed by another one in any case, and who waits does not matter here. -/
def Table.writeLoop (id : Fin maxPipes) (buf : List UInt8) :
    Table → ℕ → List (List Op) → Option (Except Error ℕ) × List (Table × Table)
  | _, _, [] => (none, [])
  | t, total, ops :: others =>
    let t := ops.foldl (fun t op => (t.step op).2) t
    match t.tryWrite id (buf.drop total) with
    | (.error e, t') => (some (.error e), [(t, t')])
    | (.ok (written, block), t') =>
      let total := total + written
      if total = buf.length then (some (.ok total), [(t, t')])
      else if block = false ∧ written = 0 then
        (some (if 0 < total then .ok total else .error .closed), [(t, t')])
      else
        let (result, rounds) := writeLoop id buf t' total others
        (result, (t, t') :: rounds)

def Table.write (t : Table) (id : Fin maxPipes) (buf : List UInt8) (others : List (List Op)) :
    Option (Except Error ℕ) × List (Table × Table) :=
  if buf = [] then (some (.ok 0), []) else writeLoop id buf t 0 others

end WovenHat.Pipes
