import WovenHat.Library.Always
import WovenHat.Verification.Task.Steps

/-! # Signals

Signal 9 ends every process that it is sent to. A process has one place for a pending signal: a
caught one stays there until its handler is entered, unless another one takes its place, the
handler is replaced, or the return address cannot be stored. -/

namespace WovenHat.Task.System

open Library Function Scheduler

/-- The process has not exited and has a handler for the signal. -/
def Process.Catches (p : Process) (sig : ℕ) : Prop :=
  p.state ≠ .exited ∧ sig ≠ 0 ∧ sig ≤ 31 ∧ sig ≠ 9 ∧ 1 < p.signalActions sig

instance (p : Process) (sig : ℕ) : Decidable (p.Catches sig) :=
  inferInstanceAs (Decidable (_ ∧ _))

/-- What a process that has not exited is owed is pending. A signal is owed with the handler
that was installed when it was sent. -/
def Process.Holds (p : Process) (owed : List (ℕ × ℕ)) : Prop :=
  p.state ≠ .exited → ∀ o ∈ owed, p.pendingSignal = o.1

namespace Process

variable {p : Process} {owed : List (ℕ × ℕ)} (h : p.Holds owed)

include h

end Process

/-- The system, with what each entry of the process table is owed: the signals that were sent
to the process there while it caught them, and whose handler has not been entered yet. -/
structure Watch where
  system : System
  owed : ProcessSlot → List (ℕ × ℕ)

namespace Watch

variable (w : Watch)

/-- What the process of an entry is owed after a call. -/
def owes (i : ProcessSlot) (p : Process) : ℕ × Op → List (ℕ × ℕ)
  | (cpu, .kill pid sig) =>
    if w.system.selected cpu pid p = true ∧ p.Catches sig then
      (sig, p.signalActions sig) :: w.owed i
    else w.owed i
  | (cpu, .syscallReturn frame copied) =>
    if w.system.processOf (w.system.scheduler.current cpu).id = some i then
      (w.owed i).filter fun o =>
        (p.prepareSignalDelivery frame copied).1.all fun f => ¬(f.rdi = o.1 ∧ f.rip = o.2)
    else w.owed i
  | _ => w.owed i

/-- The books after a call. An entry that is taken or given back is owed nothing. -/
def settle (l : ℕ × Op) (s' : System) (i : ProcessSlot) : List (ℕ × ℕ) :=
  match w.system.processes i, s'.processes i with
  | some p, some _ => w.owes i p l
  | _, _ => []

def next (l : ℕ × Op) : Option Watch :=
  (w.system.step l).map fun s' => ⟨s', w.settle l s'⟩

def Held : Prop :=
  ∀ i, ∀ p ∈ w.system.processes i, p.Holds (w.owed i)

variable {w} {w' : Watch} {l : ℕ × Op}

instance (p : Process) (owed : List (ℕ × ℕ)) : Decidable (p.Holds owed) :=
  inferInstanceAs (Decidable (_ → _))

instance (w : Watch) : Decidable w.Held :=
  inferInstanceAs (Decidable (∀ _, _))

end Watch

end WovenHat.Task.System
