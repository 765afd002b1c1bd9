import WovenHat.Model.Block

/-! # The queue of block requests

`block_io.rs`: tasks put requests into a fixed table and wait for their results; a worker task
executes them one at a time. Requests that bypass the queue do not touch it and are left out. -/

namespace WovenHat.BlockIo

open Library Block

/-- `MAX_BLOCK_IO_REQUESTS`. -/
def maxRequests : ℕ := 16

inductive Operation where
  | read
  | write
  | flush
  deriving DecidableEq, Repr

inductive RequestState where
  | pending
  | inProgress
  | complete
  deriving DecidableEq, Repr

structure Request where
  id : ℕ
  operation : Operation
  lba : ℕ
  data : Sector
  result : Except Error Unit
  state : RequestState

def Request.pending (id : ℕ) (operation : Operation) (lba : ℕ) (data : Sector) : Request :=
  ⟨id, operation, lba, data, .ok (), .pending⟩

structure WorkItem where
  slot : Fin maxRequests
  request : Request

structure Queue where
  entries : Fin maxRequests → Option Request
  nextId : ℕ

namespace Queue

def new : Queue := ⟨fun _ => none, 1⟩

variable (q : Queue) (slot : Fin maxRequests)

def set (entry : Option Request) : Queue :=
  { q with entries := Function.update q.entries slot entry }

/-- `Queue::push`: the slot and the id of the request. -/
def push (operation : Operation) (lba : ℕ) (data : Sector) : Option (Fin maxRequests × ℕ) × Queue :=
  match (List.finRange maxRequests).find? fun slot => (q.entries slot).isNone with
  | none => (none, q)
  | some slot =>
    (some (slot, q.nextId),
      { q.set slot (some (.pending q.nextId operation lba data)) with
        nextId := max ((q.nextId + 1) % 2 ^ 64) 1 })

def pendingAt : Option WorkItem :=
  match q.entries slot with
  | some request =>
    if request.state = .pending then some ⟨slot, { request with state := .inProgress }⟩ else none
  | none => none

def takePending : Option WorkItem × Queue :=
  match (List.finRange maxRequests).findSome? q.pendingAt with
  | some work => (some work, q.set work.slot (some work.request))
  | none => (none, q)

def finish (id : ℕ) (result : Except Error Unit) (data : Sector) : Queue :=
  match q.entries slot with
  | none => q
  | some request =>
    if request.id = id ∧ request.state = .inProgress then
      q.set slot (some { request with data, result, state := .complete })
    else q

def completeAt (id : ℕ) (slot : Fin maxRequests) : Option (Fin maxRequests × Request) :=
  match q.entries slot with
  | some request =>
    if request.id ≠ id ∨ request.state ≠ .complete then none else some (slot, request)
  | none => none

/-- `Queue::take_result`: the result, and the data that is copied out if the caller has an
output. -/
def takeResult (id : ℕ) (output : Bool) : Option (Except Error Unit × Option Sector) × Queue :=
  match (List.finRange maxRequests).findSome? (q.completeAt id) with
  | none => (none, q)
  | some (slot, request) =>
    let copied := match request.result with
      | .ok _ => if output then some request.data else none
      | .error _ => none
    (some (request.result, copied), q.set slot none)

end Queue

/-! ## Tasks and the worker -/

/-- Where the worker is in `process_one_primary`. -/
inductive Worker where
  | idle
  | taken (work : WorkItem)
  | executed (work : WorkItem) (result : Except Error Unit) (data : Sector)

/-- A request that a task has put into the queue. -/
structure Submission where
  task : ℕ
  id : ℕ
  slot : Fin maxRequests
  operation : Operation
  lba : ℕ
  data : Sector

/-- A request that the worker has executed, with what came out. -/
structure Execution where
  id : ℕ
  operation : Operation
  lba : ℕ
  data : Sector
  result : Except Error Unit
  output : Sector

structure Delivery where
  task : ℕ
  id : ℕ
  result : Except Error Unit
  copied : Option Sector

/-- The queue, the worker, the tasks in `wait_for_completion` with the id that they wait for and
whether they have an output, and the history. -/
structure System where
  queue : Queue
  worker : Worker
  waiting : ℕ → Option (ℕ × Bool)
  submitted : List Submission
  executed : List Execution
  delivered : List Delivery

namespace System

def new : System := ⟨.new, .idle, fun _ => none, [], [], []⟩

inductive Step where
  | submit (task : ℕ) (operation : Operation) (lba : ℕ) (input : Option Sector)
  | take
  | execute (result : Except Error Unit) (read : Sector)
  | finish
  | poll (task : ℕ)

/-- The part of `submit` before the wait. A read has an output. -/
def submit (s : System) (task : ℕ) (operation : Operation) (lba : ℕ) (input : Option Sector) :
    System :=
  let data := input.getD Buffer.zero
  match s.queue.push operation lba data with
  | (none, _) => s
  | (some (slot, id), queue) =>
    { s with
      queue
      waiting := Function.update s.waiting task (some (id, decide (operation = .read)))
      submitted := s.submitted ++ [⟨task, id, slot, operation, lba, data⟩] }

/-- The end of the device access: only a read changes the data. -/
def execute (s : System) (work : WorkItem) (result : Except Error Unit) (read : Sector) : System :=
  let data := if work.request.operation = .read then read else work.request.data
  { s with
    worker := .executed work result data
    executed := s.executed ++ [⟨work.request.id, work.request.operation, work.request.lba,
      work.request.data, result, data⟩] }

/-- One round of `wait_for_completion`. -/
def poll (s : System) (task id : ℕ) (output : Bool) : System :=
  match s.queue.takeResult id output with
  | (none, _) => s
  | (some (result, copied), queue) =>
    { s with
      queue
      waiting := Function.update s.waiting task none
      delivered := s.delivered ++ [⟨task, id, result, copied⟩] }

/-- A task that waits does nothing else, and the worker takes one request at a time. -/
def step (s : System) : Step → Option System
  | .submit task operation lba input =>
    match s.waiting task with
    | none => some (s.submit task operation lba input)
    | some _ => none
  | .take =>
    match s.worker, s.queue.takePending with
    | .idle, (some work, queue) => some { s with queue, worker := .taken work }
    | _, _ => none
  | .execute result read =>
    match s.worker with
    | .taken work => some (s.execute work result read)
    | _ => none
  | .finish =>
    match s.worker with
    | .executed work result data =>
      some { s with
        queue := s.queue.finish work.slot work.request.id result data, worker := .idle }
    | _ => none
  | .poll task =>
    match s.waiting task with
    | some (id, output) => some (s.poll task id output)
    | none => none

end System

end WovenHat.BlockIo
