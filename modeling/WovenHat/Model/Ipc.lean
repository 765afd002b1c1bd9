import WovenHat.Library.Buffer
import WovenHat.Library.Program

/-! # Messages between processes

The endpoint registry of `ipc.rs`, and the system call that takes a message out of it. -/

namespace WovenHat.Ipc

open Library

def maxMessageSize : ℕ := 256

def queueDepth : ℕ := 16

def maxEndpoints : ℕ := 32

abbrev Owner := ℕ

structure Message where
  sender : Owner
  length : ℕ
  bytes : Buffer maxMessageSize

namespace Message

def empty : Message := ⟨0, 0, Buffer.zero⟩

def payload (m : Message) : List UInt8 := m.bytes.slice 0 m.length

/-- The message that `State::send` puts together. -/
def ofPayload (sender : Owner) (payload : List UInt8) : Message where
  sender := sender
  length := payload.length
  bytes := (Buffer.zero : Buffer maxMessageSize).write 0 payload

end Message

inductive Error where
  | endpointExists
  | noEndpoint
  | registryFull
  | queueFull
  | queueEmpty
  | messageTooLarge
  deriving DecidableEq, Repr

structure Endpoint where
  owner : Owner
  messages : Fin queueDepth → Message
  length : ℕ

namespace Endpoint

/-- `Endpoint::EMPTY` with an owner. -/
def empty (owner : Owner) : Endpoint := ⟨owner, fun _ => .empty, 0⟩

def message (e : Endpoint) (i : ℕ) : Message :=
  if h : i < queueDepth then e.messages ⟨i, h⟩ else .empty

def enqueue (e : Endpoint) (message : Message) : Except Error Endpoint :=
  if e.length = queueDepth then .error .queueFull
  else .ok { e with
    messages := fun i => if i = e.length then message else e.messages i
    length := e.length + 1 }

def dequeue (e : Endpoint) : Except Error (Message × Endpoint) :=
  if e.length = 0 then .error .queueEmpty
  else
    -- `copy_within(1..length, 0)`, then the last place is cleared
    .ok (e.message 0, { e with
      messages := fun i =>
        if i = e.length - 1 then .empty
        else if i + 1 < e.length then e.message (i + 1)
        else e.messages i
      length := e.length - 1 })

end Endpoint

structure State where
  endpoints : Fin maxEndpoints → Option Endpoint

namespace State

def new : State := ⟨fun _ => none⟩

variable (s : State)

def set (slot : Fin maxEndpoints) (endpoint : Option Endpoint) : State :=
  ⟨Function.update s.endpoints slot endpoint⟩

def owned (owner : Owner) (slot : Fin maxEndpoints) : Option (Fin maxEndpoints × Endpoint) :=
  match s.endpoints slot with
  | some e => if e.owner = owner then some (slot, e) else none
  | none => none

/-- `State::endpoint` and `State::endpoint_mut`: the first endpoint of an owner. -/
def endpoint (owner : Owner) : Option (Fin maxEndpoints × Endpoint) :=
  (List.finRange maxEndpoints).findSome? (s.owned owner)

def register (owner : Owner) : Except Error State :=
  if (s.endpoint owner).isSome then .error .endpointExists
  else
    match (List.finRange maxEndpoints).find? fun slot => (s.endpoints slot).isNone with
    | some slot => .ok (s.set slot (some (.empty owner)))
    | none => .error .registryFull

def unregister (owner : Owner) : Except Error State :=
  match s.endpoint owner with
  | some (slot, _) => .ok (s.set slot none)
  | none => .error .noEndpoint

def send (sender receiver : Owner) (payload : List UInt8) : Except Error State :=
  if maxMessageSize < payload.length then .error .messageTooLarge
  else if (s.endpoint sender).isNone then .error .noEndpoint
  else
    match s.endpoint receiver with
    | none => .error .noEndpoint
    | some (slot, e) => do
        let e' ← e.enqueue (.ofPayload sender payload)
        return s.set slot (some e')

def receive (receiver : Owner) : Except Error (Message × State) :=
  match s.endpoint receiver with
  | none => .error .noEndpoint
  | some (slot, e) => do
      let (message, e') ← e.dequeue
      return (message, s.set slot (some e'))

def peek (receiver : Owner) : Except Error Message :=
  match s.endpoint receiver with
  | none => .error .noEndpoint
  | some (_, e) => if e.length = 0 then .error .queueEmpty else .ok (e.message 0)

end State

/-! ## Sequences of operations -/

inductive Op where
  | register (owner : Owner)
  | unregister (owner : Owner)
  | send (sender receiver : Owner) (payload : List UInt8)
  | receive (receiver : Owner)

/-- What an operation answers: the message, if it is one that receives. -/
abbrev Reply := Except Error (Option Message)

/-- An operation that gives the new state, or fails and leaves the state alone. -/
def State.attempt (s : State) : Except Error State → Reply × State
  | .ok s' => (.ok none, s')
  | .error e => (.error e, s)

def State.step (s : State) : Op → Reply × State
  | .register owner => s.attempt (s.register owner)
  | .unregister owner => s.attempt (s.unregister owner)
  | .send sender receiver payload => s.attempt (s.send sender receiver payload)
  | .receive receiver =>
    match s.receive receiver with
    | .ok (message, s') => (.ok (some message), s')
    | .error e => (.error e, s)

/-! ## Receiving from user space -/

def syscallError : ℕ := 2 ^ 64 - 1

/-- What `sys_message_receive` calls. -/
inductive Call where
  | currentHasIpc
  | peek (receiver : Owner)
  | copyToCurrentUser (start : ℕ) (source : List UInt8)
  | receive (receiver : Owner)

/-- The answer to a call; a copy says whether it succeeded. -/
abbrev Answer : Call → Type
  | .currentHasIpc => Bool
  | .peek _ => Except Error Message
  | .copyToCurrentUser _ _ => Bool
  | .receive _ => Except Error Message

def toLeBytes (value : ℕ) : List UInt8 :=
  (List.range 8).map fun i => UInt8.ofNat (value / 256 ^ i)

/-- `sys_message_receive`, called by the process `receiver`. -/
def sysMessageReceive (receiver : Owner) (userBuffer capacity userSender : ℕ) :
    Program Call Answer ℕ :=
  .call .currentHasIpc fun (granted : Bool) =>
    if granted = false then .done syscallError
    else .call (.peek receiver) fun
      | .error _ => .done syscallError
      | .ok message =>
        if capacity < message.payload.length then .done syscallError
        else .call (.copyToCurrentUser userBuffer message.payload) fun (copied : Bool) =>
          if copied = false then .done syscallError
          else .call (.copyToCurrentUser userSender (toLeBytes message.sender))
            fun (copied : Bool) =>
              if copied = false then .done syscallError
              else .call (.receive receiver) fun
                | .error _ => .done syscallError
                | .ok _ => .done message.payload.length

end WovenHat.Ipc
