import Mathlib

/-! # Capabilities

`capability.rs`: sets of capabilities as the bits of a word. -/

namespace WovenHat.Capabilities

inductive Capability where
  | console
  | timerRead
  | taskInspect
  | taskControl
  | deviceIo
  | interruptControl
  | memoryInspect
  | fileRead
  | fileWrite
  | ipc
  | processCreate
  deriving DecidableEq, Repr

/-- The discriminant of a capability. -/
def Capability.index : Capability → ℕ
  | .console => 0
  | .timerRead => 1
  | .taskInspect => 2
  | .taskControl => 3
  | .deviceIo => 4
  | .interruptControl => 5
  | .memoryInspect => 6
  | .fileRead => 7
  | .fileWrite => 8
  | .ipc => 9
  | .processCreate => 10

def Capability.bit (c : Capability) : BitVec 64 :=
  BitVec.twoPow 64 c.index

structure CapabilitySet where
  bits : BitVec 64
  deriving DecidableEq, Repr

namespace CapabilitySet

def empty : CapabilitySet := ⟨0⟩

/-- `CapabilitySet::with`. -/
def withCapability (s : CapabilitySet) (c : Capability) : CapabilitySet :=
  ⟨s.bits ||| c.bit⟩

def contains (s : CapabilitySet) (c : Capability) : Bool :=
  s.bits &&& c.bit != 0

def without (s : CapabilitySet) (c : Capability) : CapabilitySet :=
  ⟨s.bits &&& ~~~c.bit⟩

def kernelBootstrap : CapabilitySet :=
  empty
    |>.withCapability .console
    |>.withCapability .timerRead
    |>.withCapability .taskInspect
    |>.withCapability .taskControl
    |>.withCapability .deviceIo
    |>.withCapability .interruptControl
    |>.withCapability .memoryInspect
    |>.withCapability .fileRead
    |>.withCapability .fileWrite
    |>.withCapability .ipc
    |>.withCapability .processCreate

def userspace : CapabilitySet :=
  empty
    |>.withCapability .console
    |>.withCapability .fileRead
    |>.withCapability .fileWrite
    |>.withCapability .ipc
    |>.withCapability .processCreate

end CapabilitySet

end WovenHat.Capabilities
