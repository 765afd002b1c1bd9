import Mathlib

/-! # TLB shootdown

`shootdown` and `acknowledge_tlb` of `smp.rs`, one access to a shared variable at a time, on
any number of CPUs that are online. A CPU that has an NMI pending takes it between two steps
of whatever it runs, unless it is in the handler already; a second NMI that arrives before
then is merged with the first. Generations are `u64` values that wrap around. -/

namespace WovenHat.Smp

open Function

/-- Where a CPU is in `shootdown_inner`; `generation` is the local of that name. -/
inductive Point where
  | idle
  /-- Spinning on `SHOOT_LOCK`. -/
  | locking
  /-- Before `GENERATION.fetch_add`. -/
  | locked
  | published (generation : ℕ)
  /-- In `acknowledge_tlb`, with the generation that it loaded. -/
  | loaded (generation value : ℕ)
  | flushed (generation value : ℕ)
  /-- Before the NMI to a CPU. -/
  | sending (generation cpu : ℕ)
  /-- Before the load of the acknowledgement of a CPU. -/
  | waiting (generation cpu : ℕ)
  /-- An acknowledgement was missing. -/
  | spinning (generation : ℕ)
  /-- The timeout struck. -/
  | panicked
  deriving DecidableEq, Repr

/-- Where a CPU is in the handler of an NMI, which is `acknowledge_tlb`. -/
inductive Handler where
  | entered
  | loaded (value : ℕ)
  | flushed (value : ℕ)
  deriving DecidableEq, Repr

/-- What happened. No step reads the events. -/
inductive Event (n : ℕ) where
  | published (cpu : Fin n) (generation : ℕ)
  | flushed (cpu : Fin n)
  /-- A shootdown returned, without a generation if there is one CPU only. -/
  | returned (cpu : Fin n) (generation : Option ℕ)
  deriving DecidableEq, Repr

/-- The statics of `smp.rs`, the pending NMIs and the CPUs. -/
structure State (n : ℕ) where
  shootLock : Bool
  generation : ℕ
  ack : Fin n → ℕ
  pending : Fin n → Bool
  point : Fin n → Point
  handler : Fin n → Option Handler
  /-- The latest event first. -/
  history : List (Event n)

def State.boot (n : ℕ) : State n :=
  ⟨false, 0, fun _ => 0, fun _ => false, fun _ => .idle, fun _ => none, []⟩

inductive Label (n : ℕ) where
  | shootdown (cpu : Fin n)
  /-- The next step of the shootdown of a CPU. -/
  | advance (cpu : Fin n)
  | timeout (cpu : Fin n)
  | nmi (cpu : Fin n)
  /-- The next step of the handler of a CPU. -/
  | acknowledge (cpu : Fin n)
  deriving DecidableEq, Repr

variable {n : ℕ}

namespace State

variable (s : State n)

/-- The CPU goes on at a point. -/
def goto (cpu : Fin n) (point : Point) : State n :=
  { s with point := update s.point cpu point }

/-- The handler of the CPU goes on. -/
def handle (cpu : Fin n) (handler : Option Handler) : State n :=
  { s with handler := update s.handler cpu handler }

def record (event : Event n) : State n :=
  { s with history := event :: s.history }

def storeAck (cpu : Fin n) (value : ℕ) : State n :=
  { s with ack := update s.ack cpu value }

/-- `send` of an NMI, to a CPU by its place in `IDS`. -/
def send (cpu : Fin n) : State n :=
  { s with pending := update s.pending cpu true }

/-- The next step of `shootdown_inner` and of the `acknowledge_tlb` that it calls. -/
def advance (cpu : Fin n) : Option (State n) :=
  match s.point cpu with
  | .idle => none
  | .locking => if s.shootLock then some s else some ({ s with shootLock := true }.goto cpu .locked)
  | .locked =>
    let generation := (s.generation + 1) % 2 ^ 64
    some (({ s with generation }.goto cpu (.published generation)).record
      (.published cpu generation))
  | .published generation => some (s.goto cpu (.loaded generation s.generation))
  | .loaded generation value =>
    some ((s.goto cpu (.flushed generation value)).record (.flushed cpu))
  | .flushed generation value => some ((s.storeAck cpu value).goto cpu (.sending generation 0))
  | .sending generation target =>
    if h : target < n then
      if target = cpu then some (s.goto cpu (.sending generation (target + 1)))
      else some ((s.send ⟨target, h⟩).goto cpu (.sending generation (target + 1)))
    else some (s.goto cpu (.waiting generation 0))
  | .waiting generation target =>
    if h : target < n then
      if s.ack ⟨target, h⟩ < generation then some (s.goto cpu (.spinning generation))
      else some (s.goto cpu (.waiting generation (target + 1)))
    else
      some (({ s with shootLock := false }.goto cpu .idle).record (.returned cpu (some generation)))
  | .spinning generation => some (s.goto cpu (.waiting generation 0))
  | .panicked => none

/-- The next step of `acknowledge_tlb` in the handler. -/
def acknowledge (cpu : Fin n) : Option (State n) :=
  match s.handler cpu with
  | none => none
  | some .entered => some (s.handle cpu (some (.loaded s.generation)))
  | some (.loaded value) => some ((s.handle cpu (some (.flushed value))).record (.flushed cpu))
  | some (.flushed value) => some ((s.storeAck cpu value).handle cpu none)

end State

/-- A step of a CPU. Its handler interrupts everything else. -/
def step (s : State n) : Label n → Option (State n)
  | .shootdown cpu =>
    if s.handler cpu = none ∧ s.point cpu = .idle then
      if n = 1 then some (s.record (.returned cpu none)) else some (s.goto cpu .locking)
    else none
  | .advance cpu => if s.handler cpu = none then s.advance cpu else none
  | .timeout cpu =>
    match s.handler cpu, s.point cpu with
    | none, .spinning _ => some (s.goto cpu .panicked)
    | _, _ => none
  | .nmi cpu =>
    if s.handler cpu = none ∧ s.pending cpu then
      some ({ s with pending := update s.pending cpu false }.handle cpu (some .entered))
    else none
  | .acknowledge cpu => s.acknowledge cpu

end WovenHat.Smp
