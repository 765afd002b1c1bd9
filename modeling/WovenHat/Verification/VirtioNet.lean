import WovenHat.Library.Always
import WovenHat.Model.VirtioNet

/-! # Frames on their way to the device

`TxToken::consume` drops the answer of `transmit`, which refuses a frame as long as the one
before it is with the device. -/

namespace WovenHat.VirtioNet

open Library Transmitter List

/-- The queue after `init`: its memory is zero. -/
def Transmitter.new (queueSize : ℕ) (packet : Buffer packetBytes) : Transmitter where
  initialized := true
  queueSize := queueSize
  lastUsed := 0
  outstanding := false
  packet := packet
  descLen := 0
  availRing _ := 0
  availIdx := 0
  usedIdx := 0

inductive TxOp where
  | consume (frame : {frame : List UInt8 // 0 < frame.length ∧ frame.length ≤ maxFrame})
  | poll
  /-- The device has read a frame and moves the used index. -/
  | complete

/-- The transmitter, the frames that the stack has emitted, and those that the device has found
behind a new available index, with how many of these it has completed. -/
structure Link where
  tx : Transmitter
  emitted : List (List UInt8)
  placed : List (List UInt8)
  completed : ℕ

namespace Link

variable (l : Link)

def InFlight : Prop := l.completed < l.placed.length

instance : Decidable l.InFlight := inferInstanceAs (Decidable (_ < _))

def next : TxOp → Option Link
  | .consume frame =>
    let tx := l.tx.consume frame
    let found := if tx.availIdx = l.tx.availIdx then [] else
      [tx.packet.slice headerBytes (tx.descLen - headerBytes)]
    some ⟨tx, l.emitted ++ [frame.val], l.placed ++ found, l.completed⟩
  | .poll => some { l with tx := l.tx.reapTx }
  | .complete =>
    if l.InFlight then
      some { l with tx.usedIdx := (l.tx.usedIdx + 1) % 2 ^ 16, completed := l.completed + 1 }
    else none

/-- Every frame is in the queue, once and in order, and the buffer of one that the device has not
completed stays as it is. -/
structure Transmits (l' : Link) : Prop where
  placed : l'.placed = l'.emitted
  entries : l'.tx.availIdx = l'.placed.length % 2 ^ 16
  buffer : l.InFlight → l'.tx.packet = l.tx.packet ∧ l'.tx.descLen = l.tx.descLen

/-- A frame is emitted while the one before it is with the device. -/
def Overruns : TxOp → Prop
  | .consume _ => l.InFlight
  | _ => False

/-- A frame is with the device as long as it is outstanding and the used index has not moved. -/
structure Ok : Prop where
  initialized : l.tx.initialized = true
  placed : l.placed = l.emitted
  entries : l.tx.availIdx = l.placed.length % 2 ^ 16
  used : l.tx.usedIdx < 2 ^ 16
  idle : l.tx.outstanding = false → l.tx.usedIdx = l.tx.lastUsed
  flight : l.InFlight ↔ l.tx.outstanding = true ∧ l.tx.usedIdx = l.tx.lastUsed
  last : l.completed ≤ l.placed.length ∧ l.placed.length ≤ l.completed + 1

section Steps

variable {l} {l' : Link}

theorem of_ok (hflight : ¬l.InFlight) (h' : l'.Ok) :
    (l.Transmits l' ↔ ¬l.InFlight) ∧ (¬l.InFlight → l'.Ok) :=
  ⟨iff_of_true ⟨h'.placed, h'.entries, fun hf => absurd hf hflight⟩ hflight, fun _ => h'⟩

variable (h : l.Ok)

include h

theorem Ok.poll : ({ l with tx := l.tx.reapTx } : Link).Ok ∧
    l.tx.reapTx.usedIdx = l.tx.reapTx.lastUsed ∧ l.Transmits { l with tx := l.tx.reapTx } := by
  unfold reapTx
  split
  · rename_i hdone
    have hflight : ¬l.InFlight := fun hflight => hdone.2 (h.flight.mp hflight).2
    exact ⟨⟨h.initialized, h.placed, h.entries, h.used, fun _ => rfl,
      iff_of_false hflight (by simp), h.last⟩, rfl, h.placed, h.entries,
      fun _ => ⟨rfl, rfl⟩⟩
  · rename_i hsame
    refine ⟨h, ?_, h.placed, h.entries, fun _ => ⟨rfl, rfl⟩⟩
    cases hbusy : l.tx.outstanding with
    | false => exact h.idle hbusy
    | true => exact not_not.mp fun hne => hsame ⟨hbusy, hne⟩

theorem Ok.complete (hnext : l.next .complete = some l') : l'.Ok ∧ l.Transmits l' := by
  simp only [next] at hnext
  split at hnext
  · rename_i hflight
    cases hnext
    obtain ⟨hbusy, hused⟩ := h.flight.mp hflight
    have hlast := h.last
    have hbound := h.used
    have hdone : ¬l.completed + 1 < l.placed.length := by omega
    refine ⟨⟨h.initialized, h.placed, h.entries, Nat.mod_lt _ (by decide),
      fun hidle => absurd hidle (by simp [hbusy]), iff_of_false hdone fun hsame => ?_,
      ⟨hflight, Nat.le_succ_of_le h.last.2⟩⟩, h.placed, h.entries, fun _ => ⟨rfl, rfl⟩⟩
    have hmoved := hsame.2
    dsimp only at hmoved
    omega
  · cases hnext

theorem Ok.consume {frame : {frame : List UInt8 // 0 < frame.length ∧ frame.length ≤ maxFrame}}
    (hnext : l.next (.consume frame) = some l') :
    (l.Transmits l' ↔ ¬l.InFlight) ∧ (¬l.InFlight → l'.Ok) := by
  cases hnext
  obtain ⟨frame, hpos, hlen⟩ := frame
  obtain ⟨hok, hused, _⟩ := h.poll
  have hframe : frame ≠ [] := ne_nil_of_length_pos hpos
  simp only [consume, take_of_length_le hlen, transmit, hframe,
    not_lt.mpr hlen, h.initialized, Bool.true_eq_false, or_self, ↓reduceIte]
  have hsame : l.tx.reapTx.availIdx = l.tx.availIdx := hok.entries.trans h.entries.symm
  cases hbusy : l.tx.reapTx.outstanding with
  | true =>
    have hflight : l.InFlight := hok.flight.mpr ⟨hbusy, hused⟩
    refine ⟨iff_of_false (fun ht => ?_) (not_not.mpr hflight), fun hnot => absurd hflight hnot⟩
    have hlength := congrArg length ht.placed
    simp [hsame, h.placed] at hlength
  | false =>
    have hflight : ¬l.InFlight := fun hflight => by simpa [hbusy] using (hok.flight.mp hflight).1
    have hentries := h.entries
    have hmoved : (l.tx.reapTx.availIdx + 1) % 2 ^ 16 ≠ l.tx.availIdx := by omega
    have hdone : l.completed = l.placed.length := le_antisymm h.last.1 (not_lt.mp hflight)
    simp only [Bool.false_eq_true, ↓reduceIte, pushAvail, hmoved,
      Nat.add_sub_cancel_left]
    rw [Buffer.slice_write _ le_rfl (by simp only [headerBytes, packetBytes, maxFrame] at *; omega)]
    refine of_ok hflight ⟨hok.initialized, ?_, ?_, hok.used, by simp,
      iff_of_true ?_ ⟨rfl, hused⟩, ?_⟩
    · simp [h.placed]
    · simp only [length_append, length_singleton]
      omega
    · simp [InFlight, hdone]
    · simp [hdone]

end Steps

/-- Every frame that the stack emits is placed in the queue if and only if the device has always
completed the one before it. -/
theorem transmits_iff (queueSize : ℕ) (packet : Buffer packetBytes) (ops : List TxOp) :
    Always next (fun l _ l' => l.Transmits l') ⟨.new queueSize packet, [], [], 0⟩ ops ↔
      Always next (fun l op _ => ¬l.Overruns op) ⟨.new queueSize packet, [], [], 0⟩ ops := by
  have hstart : Ok ⟨.new queueSize packet, [], [], 0⟩ :=
    ⟨rfl, rfl, rfl, Nat.two_pow_pos 16, fun _ => rfl,
      iff_of_false (Nat.lt_irrefl 0) (by simp [new]), le_rfl, Nat.zero_le _⟩
  refine Always.congr hstart (fun l op l' h hnext => ?_) (fun l op l' h hnext htransmits => ?_) ops
  · cases op with
    | consume frame => exact (h.consume hnext).1
    | poll =>
      cases hnext
      exact iff_of_true h.poll.2.2 id
    | complete => exact iff_of_true (h.complete hnext).2 id
  · cases op with
    | consume frame =>
      have hiff := h.consume hnext
      exact hiff.2 (hiff.1.mp htransmits)
    | poll =>
      cases hnext
      exact h.poll.1
    | complete => exact (h.complete hnext).1

/-- The second of two frames is lost when the device has not completed the first. -/
theorem second_frame_lost : ¬Always next (fun l _ l' => l.Transmits l')
    ⟨.new 256 .zero, [], [], 0⟩ [.consume ⟨[1], by decide⟩, .consume ⟨[2], by decide⟩] := by
  intro h
  have hlength := congrArg length h.2.1.placed
  cases hlength

end Link

end WovenHat.VirtioNet
