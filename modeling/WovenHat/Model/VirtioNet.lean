import WovenHat.Library.Buffer

/-! # Transmission of frames

The transmit queue of `virtio_net.rs` and `TxToken::consume` of `network.rs`. There is one
descriptor and one buffer. The device reads them once the available index has moved, and moves
the used index when it has completed the frame. The statistics are left out. -/

namespace WovenHat.VirtioNet

open Library Function

def maxFrame : ℕ := 1536

def packetBytes : ℕ := 2048

def headerBytes : ℕ := 10

/-- The transmit part of `Transport`, `TX_PACKET`, and the queue memory: the length in
descriptor 0, the available ring with its index, and the used index. -/
structure Transmitter where
  initialized : Bool
  queueSize : ℕ
  lastUsed : ℕ
  outstanding : Bool
  packet : Buffer packetBytes
  descLen : ℕ
  availRing : ℕ → ℕ
  availIdx : ℕ
  usedIdx : ℕ

namespace Transmitter

variable (t : Transmitter)

def reapTx : Transmitter :=
  if t.outstanding ∧ t.usedIdx ≠ t.lastUsed then
    { t with lastUsed := t.usedIdx, outstanding := false }
  else t

def pushAvail (descriptor : ℕ) : Transmitter :=
  { t with
    availRing := update t.availRing (t.availIdx % t.queueSize) descriptor
    availIdx := (t.availIdx + 1) % 2 ^ 16 }

def transmit (frame : List UInt8) : Bool × Transmitter :=
  if frame = [] ∨ frame.length > maxFrame ∨ t.initialized = false then (false, t)
  else
    let t := t.reapTx
    if t.outstanding then (false, t)
    else
      let packet := (t.packet.write 0 (List.replicate headerBytes 0)).write headerBytes frame
      let t := { t with packet, descLen := headerBytes + frame.length }.pushAvail 0
      (true, { t with outstanding := true })

/-- `TxToken::consume`, where the stack fills the buffer with the frame. -/
def consume (frame : List UInt8) : Transmitter :=
  (t.transmit (frame.take maxFrame)).2

end Transmitter

end WovenHat.VirtioNet
