import WovenHat.Library.Update
import WovenHat.Model.Ipc

/-! # Delivery of messages

The registry is a set of mailboxes, one for each registered process: what is sent to a process
is appended to its mailbox, and what it receives is taken from the front. -/

namespace WovenHat.Ipc

open Library Function List Option Endpoint State

/-- A message as its receiver sees it: the sender and the payload. -/
abbrev Letter := Owner × List UInt8

def Message.letter (m : Message) : Letter := (m.sender, m.payload)

theorem letter_ofPayload {payload : List UInt8} (h : payload.length ≤ maxMessageSize)
    (sender : Owner) : (Message.ofPayload sender payload).letter = (sender, payload) := by
  simp only [Message.letter, Message.payload, Message.ofPayload]
  rw [Buffer.slice_write _ le_rfl (by omega), take_length]

/-! ## The queue of an endpoint -/

namespace Endpoint

def letters (e : Endpoint) : List Letter :=
  (range e.length).map fun i => (e.message i).letter

/-- The queue and its messages are not too long. -/
structure Fits (e : Endpoint) : Prop where
  length_le : e.length ≤ queueDepth
  size_le : ∀ letter ∈ e.letters, letter.2.length ≤ maxMessageSize

theorem fits_empty (owner : Owner) : (empty owner).Fits :=
  ⟨Nat.zero_le _, by simp [letters, empty]⟩

variable {m : Message} {e e' : Endpoint}

theorem letters_enqueue (hlen : e.length ≤ queueDepth) (h : e.enqueue m = .ok e') :
    e'.owner = e.owner ∧ e'.length ≤ queueDepth ∧ e'.letters = e.letters ++ [m.letter] := by
  unfold enqueue at h
  split at h
  · cases h
  rename_i hroom
  cases h
  have hlt : e.length < queueDepth := by omega
  refine ⟨rfl, hlt, ?_⟩
  simp only [letters, range_succ, map_append, map_cons, map_nil]
  congr 1
  · refine map_congr_left fun i hi => ?_
    have hne : i ≠ e.length := (mem_range.mp hi).ne
    simp [message, hne]
  · simp [message, hlt]

theorem enqueue_spec (hfits : e.Fits)
    (hm : m.letter.2.length ≤ maxMessageSize) (h : e.enqueue m = .ok e') :
    e'.owner = e.owner ∧ e'.Fits ∧ e'.letters = e.letters ++ [m.letter] := by
  obtain ⟨howner, hlen, hletters⟩ := letters_enqueue hfits.length_le h
  refine ⟨howner, ⟨hlen, ?_⟩, hletters⟩
  rw [hletters]
  intro letter hletter
  rcases mem_append.mp hletter with hold | hnew
  · exact hfits.size_le letter hold
  · rw [mem_singleton.mp hnew]
    exact hm

theorem letters_dequeue (hlen : e.length ≤ queueDepth) (h : e.dequeue = .ok (m, e')) :
    e'.owner = e.owner ∧ e'.length ≤ queueDepth ∧ e.letters = m.letter :: e'.letters := by
  unfold dequeue at h
  split at h
  · cases h
  rename_i hne
  cases h
  obtain ⟨n, hn⟩ : ∃ n, e.length = n + 1 := ⟨e.length - 1, by omega⟩
  refine ⟨rfl, by simp only; omega, ?_⟩
  simp only [letters, hn, Nat.add_sub_cancel, List.range_succ_eq_map, List.map_cons, List.map_map]
  congr 1
  refine List.map_congr_left fun i hi => ?_
  have hi := List.mem_range.mp hi
  have hcell : i < queueDepth := by omega
  simp [message, hcell, hi, hi.ne]

theorem dequeue_spec (hfits : e.Fits) (h : e.dequeue = .ok (m, e')) :
    e'.owner = e.owner ∧ e'.Fits ∧ e.letters = m.letter :: e'.letters := by
  obtain ⟨howner, hlen, hletters⟩ := letters_dequeue hfits.length_le h
  refine ⟨howner, ⟨hlen, fun letter hletter => hfits.size_le letter ?_⟩, hletters⟩
  rw [hletters]
  exact mem_cons_of_mem _ hletter

variable {e : Endpoint}

/-- The message that `peek` shows is the oldest one. -/
theorem letters_of_ne_zero (h : e.length ≠ 0) :
    ∃ rest, e.letters = (e.message 0).letter :: rest := by
  obtain ⟨n, hn⟩ : ∃ n, e.length = n + 1 := ⟨e.length - 1, by omega⟩
  rw [letters, hn, range_succ_eq_map]
  exact ⟨_, rfl⟩

end Endpoint

/-! ## Mailboxes -/

abbrev Mailboxes := Owner → Option (List Letter)

namespace State

structure Valid (s : State) : Prop where
  fits : ∀ slot e, s.endpoints slot = some e → e.Fits
  unique : ∀ slot slot' e e', s.endpoints slot = some e → s.endpoints slot' = some e' →
    e.owner = e'.owner → slot = slot'

theorem valid_new : new.Valid :=
  ⟨fun _ _ h => absurd h (some_ne_none _).symm, fun _ _ _ _ h => absurd h (some_ne_none _).symm⟩

/-- The mailboxes that the registry implements. -/
def mailboxes (s : State) : Mailboxes :=
  fun owner => (s.endpoint owner).map fun found => found.2.letters

section Lookup

variable {s : State} {owner : Owner} {slot : Fin maxEndpoints} {e : Endpoint}

theorem owned_eq_some {slot' : Fin maxEndpoints} : s.owned owner slot' = some (slot, e) ↔
      slot' = slot ∧ s.endpoints slot = some e ∧ e.owner = owner := by
  unfold owned
  constructor
  · intro h
    split at h
    · rename_i e' hslot
      split at h
      · rename_i howner
        cases h
        exact ⟨rfl, hslot, howner⟩
      · cases h
    · cases h
  · rintro ⟨rfl, hslot, howner⟩
    simp only [hslot, howner, if_true]

theorem endpoint_eq_some (h : s.endpoint owner = some (slot, e)) :
    s.endpoints slot = some e ∧ e.owner = owner := by
  obtain ⟨slot', _, hslot⟩ := exists_of_findSome?_eq_some h
  exact (owned_eq_some.mp hslot).2

theorem endpoint_eq_none (h : s.endpoint owner = none) (hslot : s.endpoints slot = some e) :
    e.owner ≠ owner := by
  intro howner
  have hnone := findSome?_eq_none_iff.mp h slot (mem_finRange slot)
  rw [owned_eq_some.mpr ⟨rfl, hslot, howner⟩] at hnone
  cases hnone

theorem Valid.endpoint_eq (h : s.Valid) (hslot : s.endpoints slot = some e) :
    s.endpoint e.owner = some (slot, e) := by
  cases hfound : s.endpoint e.owner with
  | none => exact absurd rfl (endpoint_eq_none hfound hslot)
  | some found =>
    obtain ⟨slot', e'⟩ := found
    obtain ⟨hslot', howner⟩ := endpoint_eq_some hfound
    obtain rfl := h.unique slot' slot e' e hslot' hslot howner
    rw [hslot] at hslot'
    cases hslot'
    rfl

variable {queue : List Letter}

theorem Valid.mailboxes_eq_some (h : s.Valid) : s.mailboxes owner = some queue ↔
      ∃ slot e, s.endpoints slot = some e ∧ e.owner = owner ∧ e.letters = queue := by
  unfold mailboxes
  constructor
  · intro hbox
    obtain ⟨⟨slot, e⟩, hfound, hqueue⟩ := map_eq_some_iff.mp hbox
    obtain ⟨hslot, howner⟩ := endpoint_eq_some hfound
    exact ⟨slot, e, hslot, howner, hqueue⟩
  · rintro ⟨slot, e, hslot, rfl, rfl⟩
    rw [h.endpoint_eq hslot]
    rfl

end Lookup

theorem Valid.set {s : State} (h : s.Valid) {slot : Fin maxEndpoints} {owner : Owner}
    {o : Option Endpoint} (hnew : ∀ e, o = some e → e.Fits ∧ e.owner = owner)
    (hold : ∀ e, s.endpoints slot = some e → e.owner = owner)
    (hother : ∀ i e, s.endpoints i = some e → e.owner = owner → i = slot) : (s.set slot o).Valid ∧
      (s.set slot o).mailboxes = update s.mailboxes owner (o.map letters) := by
  have hcell : ∀ i e, (s.set slot o).endpoints i = some e ↔
      (i = slot ∧ o = some e) ∨ (i ≠ slot ∧ s.endpoints i = some e) := by
    intro i e
    by_cases hi : i = slot
    · simp [State.set, hi]
    · simp [State.set, hi]
  have hvalid : (s.set slot o).Valid := by
    refine ⟨fun i e hi => ?_, fun i j e e' hi hj heq => ?_⟩
    · rcases (hcell i e).mp hi with ⟨-, ho⟩ | ⟨-, hi⟩
      · exact (hnew e ho).1
      · exact h.fits i e hi
    · rcases (hcell i e).mp hi with ⟨rfl, ho⟩ | ⟨hne, hi'⟩ <;>
        rcases (hcell j e').mp hj with ⟨rfl, ho'⟩ | ⟨hne', hj'⟩
      · rfl
      · exact absurd (hother j e' hj' (heq.symm.trans (hnew e ho).2)) hne'
      · exact absurd (hother i e hi' (heq.trans (hnew e' ho').2)) hne
      · exact h.unique i j e e' hi' hj' heq
  refine ⟨hvalid, funext fun x => ext fun queue => ?_⟩
  rw [hvalid.mailboxes_eq_some]
  by_cases hx : x = owner
  · subst hx
    rw [update_self, map_eq_some_iff]
    constructor
    · rintro ⟨i, e, hi, hsame, hqueue⟩
      rcases (hcell i e).mp hi with ⟨-, ho⟩ | ⟨hne, hi⟩
      · exact ⟨e, ho, hqueue⟩
      · exact absurd (hother i e hi hsame) hne
    · rintro ⟨e, ho, hqueue⟩
      exact ⟨slot, e, (hcell slot e).mpr (.inl ⟨rfl, ho⟩), (hnew e ho).2, hqueue⟩
  · rw [update_of_ne hx, h.mailboxes_eq_some]
    refine exists_congr fun i => exists_congr fun e => and_congr_left fun ⟨hsame, _⟩ => ?_
    rw [hcell]
    constructor
    · rintro (⟨-, ho⟩ | ⟨-, hi⟩)
      · exact absurd (hsame.symm.trans (hnew e ho).2) hx
      · exact hi
    · intro hi
      refine .inr ⟨?_, hi⟩
      rintro rfl
      exact hx (hsame.symm.trans (hold e hi))

end State

/-! ## One operation -/

/-- What an operation does to the mailboxes. -/
inductive Outcome (box : Mailboxes) : Op → Reply → Mailboxes → Prop
  | failed (op : Op) (error : Error) : Outcome box op (.error error) box
  | registered (owner : Owner) (hfree : box owner = none) :
      Outcome box (.register owner) (.ok none) (update box owner (some []))
  | unregistered (owner : Owner) :
      Outcome box (.unregister owner) (.ok none) (update box owner none)
  | sent (sender receiver : Owner) (payload : List UInt8) (queue : List Letter)
      (hbox : box receiver = some queue) :
      Outcome box (.send sender receiver payload) (.ok none)
        (update box receiver (some (queue ++ [(sender, payload)])))
  | received (receiver : Owner) (message : Message) (queue : List Letter)
      (hbox : box receiver = some (message.letter :: queue)) :
      Outcome box (.receive receiver) (.ok (some message)) (update box receiver (some queue))

namespace State

theorem step_error {s : State} {op : Op} {error : Error} (h : (s.step op).1 = .error error) :
    (s.step op).2 = s := by
  have hattempt : ∀ result, (s.attempt result).1 = .error error → (s.attempt result).2 = s := by
    intro result hres
    cases result with
    | ok s' => cases hres
    | error e => rfl
  cases op with
  | register owner => exact hattempt _ h
  | unregister owner => exact hattempt _ h
  | send sender receiver payload => exact hattempt _ h
  | receive receiver =>
    simp only [step] at h ⊢
    split at h
    · cases h
    · rfl

variable {s : State}

/-- The registry stays valid and its mailboxes change as they should. -/
def Refines (s : State) (op : Op) (reply : Reply) (s' : State) : Prop :=
  s'.Valid ∧ Outcome s.mailboxes op reply s'.mailboxes

theorem Valid.refines_failed (h : s.Valid) (op : Op) (error : Error) :
    s.Refines op (.error error) s :=
  ⟨h, .failed op error⟩

variable {owner receiver : Owner} {slot : Fin maxEndpoints}

theorem mailboxes_of_endpoint (hfound : s.endpoint owner = some (slot, e)) :
    s.mailboxes owner = some e.letters := by
  rw [mailboxes, hfound]
  rfl

theorem Valid.replace (h : s.Valid) {o : Option Endpoint}
    (hfound : s.endpoint owner = some (slot, e))
    (hnew : ∀ e', o = some e' → e'.Fits ∧ e'.owner = e.owner) : (s.set slot o).Valid ∧
      (s.set slot o).mailboxes = update s.mailboxes owner (o.map letters) := by
  obtain ⟨hslot, rfl⟩ := endpoint_eq_some hfound
  refine h.set hnew (fun e' hold => ?_) fun i e' hi hsame => h.unique i slot e' e hi hslot hsame
  rw [some.inj (hold.symm.trans hslot)]

theorem Valid.refines_register (h : s.Valid) (owner : Owner) :
    s.Refines (.register owner) (s.attempt (s.register owner)).1
      (s.attempt (s.register owner)).2 := by
  unfold register
  split
  · exact h.refines_failed _ _
  rename_i hnew
  have hnone : s.endpoint owner = none := not_isSome_iff_eq_none.mp hnew
  split
  · rename_i slot hfree
    have hslot : s.endpoints slot = none := by
      simpa using find?_some hfree
    have hempty : ∀ e, some (empty owner) = some e → e.Fits ∧ e.owner = owner := by
      rintro _ ⟨⟩
      exact ⟨fits_empty owner, rfl⟩
    obtain ⟨hvalid, hbox⟩ : (s.set slot (some (.empty owner))).Valid ∧ _ :=
      h.set hempty (by simp [hslot]) fun i e hi hsame => absurd hsame (endpoint_eq_none hnone hi)
    refine ⟨hvalid, ?_⟩
    change Outcome _ _ _ (s.set slot (some (.empty owner))).mailboxes
    rw [hbox]
    exact .registered owner (by rw [mailboxes, hnone]; rfl)
  · exact h.refines_failed _ _

theorem Valid.refines_unregister (h : s.Valid) (owner : Owner) :
    s.Refines (.unregister owner) (s.attempt (s.unregister owner)).1
      (s.attempt (s.unregister owner)).2 := by
  unfold unregister
  split
  · rename_i slot e hfound
    obtain ⟨hvalid, hbox⟩ := h.replace hfound (o := none) nofun
    refine ⟨hvalid, ?_⟩
    change Outcome _ _ _ (s.set slot none).mailboxes
    rw [hbox]
    exact .unregistered owner
  · exact h.refines_failed _ _

theorem Valid.refines_send (h : s.Valid) (sender receiver : Owner) (payload : List UInt8) :
    s.Refines (.send sender receiver payload) (s.attempt (s.send sender receiver payload)).1
      (s.attempt (s.send sender receiver payload)).2 := by
  unfold send
  split
  · exact h.refines_failed _ _
  rename_i hsize
  split
  · exact h.refines_failed _ _
  split
  · exact h.refines_failed _ _
  rename_i slot e hfound
  cases henqueue : e.enqueue (.ofPayload sender payload) with
  | error error => exact h.refines_failed _ error
  | ok e' =>
    have hletter := letter_ofPayload (Nat.le_of_not_lt hsize) sender
    have hsmall : (Message.ofPayload sender payload).letter.2.length ≤ maxMessageSize := by
      rw [hletter]
      exact Nat.le_of_not_lt hsize
    obtain ⟨howner, hfits, hletters⟩ := enqueue_spec
      (h.fits slot e (endpoint_eq_some hfound).1) hsmall henqueue
    obtain ⟨hvalid, hbox⟩ := h.replace hfound (o := some e') (by
      rintro _ ⟨⟩
      exact ⟨hfits, howner⟩)
    refine ⟨hvalid, ?_⟩
    change Outcome _ _ _ (s.set slot (some e')).mailboxes
    rw [hbox, map_some, hletters, hletter]
    exact .sent sender receiver payload e.letters (mailboxes_of_endpoint hfound)

theorem Valid.refines_receive (h : s.Valid) (receiver : Owner) :
    s.Refines (.receive receiver) (s.step (.receive receiver)).1
      (s.step (.receive receiver)).2 := by
  simp only [step, receive]
  cases hfound : s.endpoint receiver with
  | none => exact h.refines_failed _ _
  | some found =>
    obtain ⟨slot, e⟩ := found
    cases hdequeue : e.dequeue with
    | error error =>
      simp only [hdequeue]
      exact h.refines_failed _ error
    | ok result =>
      obtain ⟨m, e'⟩ := result
      obtain ⟨howner, hfits, hletters⟩ := dequeue_spec
        (h.fits slot e (endpoint_eq_some hfound).1) hdequeue
      obtain ⟨hvalid, hbox⟩ := h.replace hfound (o := some e') (by
        rintro _ ⟨⟩
        exact ⟨hfits, howner⟩)
      simp only [hdequeue]
      refine ⟨hvalid, ?_⟩
      change Outcome _ _ _ (s.set slot (some e')).mailboxes
      rw [hbox]
      refine .received receiver m e'.letters ?_
      rw [mailboxes_of_endpoint hfound, hletters]

theorem Valid.step (h : s.Valid) (op : Op) : s.Refines op (s.step op).1 (s.step op).2 := by
  cases op with
  | register owner => exact h.refines_register owner
  | unregister owner => exact h.refines_unregister owner
  | send sender receiver payload => exact h.refines_send sender receiver payload
  | receive receiver => exact h.refines_receive receiver

variable {letter : Letter}

theorem Valid.receive_oldest (h : s.Valid) (hbox : s.mailboxes receiver = some (letter :: queue)) :
    ∃ m : Message, (s.step (.receive receiver)).1 = .ok (some m) ∧ m.letter = letter := by
  obtain ⟨slot, e, hslot, rfl, hletters⟩ := h.mailboxes_eq_some.mp hbox
  have hlen : e.length ≠ 0 := by
    intro hzero
    rw [letters, hzero] at hletters
    cases hletters
  obtain ⟨rest, hfirst⟩ := letters_of_ne_zero hlen
  rw [hletters] at hfirst
  cases hfirst
  refine ⟨e.message 0, ?_, rfl⟩
  simp only [State.step, receive, h.endpoint_eq hslot, dequeue, if_neg hlen]
  rfl

theorem Valid.peek_oldest (hvalid : s.Valid) {m : Message} (h : s.peek receiver = .ok m) :
    m.payload.length ≤ maxMessageSize ∧
      ∃ queue, s.mailboxes receiver = some (m.letter :: queue) := by
  unfold peek at h
  split at h
  · cases h
  rename_i slot e hfound
  split at h
  · cases h
  rename_i hlen
  cases h
  obtain ⟨rest, hletters⟩ := letters_of_ne_zero hlen
  have hfits := hvalid.fits slot e (endpoint_eq_some hfound).1
  refine ⟨hfits.size_le (e.message 0).letter ?_, rest, ?_⟩
  · rw [hletters]
    exact mem_cons_self
  · rw [mailboxes_of_endpoint hfound, hletters]

end State

/-! ## Sequences of operations -/

/-- The messages that were sent to a process and that it has received, since it registered. -/
structure Ledger where
  sent : Owner → List Letter
  received : Owner → List Letter

namespace Ledger

def new : Ledger := ⟨fun _ => [], fun _ => []⟩

def note (l : Ledger) : Op → Reply → Ledger
  | .register owner, .ok _ =>
    ⟨update l.sent owner [], update l.received owner []⟩
  | .send sender receiver payload, .ok _ =>
    { l with sent := update l.sent receiver (l.sent receiver ++ [(sender, payload)]) }
  | .receive receiver, .ok (some message) =>
    { l with
      received := update l.received receiver (l.received receiver ++ [message.letter]) }
  | _, _ => l

end Ledger

def run : State × Ledger → List Op → State × Ledger
  | s, [] => s
  | (s, l), op :: ops => run ((s.step op).2, l.note op (s.step op).1) ops

/-- The mailboxes hold exactly what was sent and not received yet. -/
structure Accounted (box : Mailboxes) (l : Ledger) : Prop where
  in_order : ∀ owner, l.received owner <+: l.sent owner
  rest : ∀ owner queue, box owner = some queue → l.sent owner = l.received owner ++ queue

theorem accounted_new : Accounted new.mailboxes .new := by
  have hbox : new.mailboxes = fun _ => none := by
    funext owner
    rfl
  rw [hbox]
  exact ⟨fun _ => prefix_rfl, fun _ _ h => absurd h (by simp)⟩

variable {box : Mailboxes} {l : Ledger}

theorem Accounted.update (h : Accounted box l) (owner : Owner) (sent received : List Letter)
    (hrest : sent = received ++ queue) : Accounted (update box owner (some queue))
      ⟨update l.sent owner sent, update l.received owner received⟩ := by
  refine ⟨fun o => ?_, fun o q hq => ?_⟩
  all_goals by_cases ho : o = owner
  · subst ho
    simp only [update_self]
    exact ⟨queue, hrest.symm⟩
  · simp only [update_of_ne ho]
    exact h.in_order o
  · subst ho
    simp only [update_self] at hq ⊢
    cases hq
    exact hrest
  · simp only [update_of_ne ho] at hq ⊢
    exact h.rest o q hq

variable {reply : Reply} {s : State} {receiver : Owner} {box' : Mailboxes}

theorem Outcome.accounted {op : Op} (h : Accounted box l) (hstep : Outcome box op reply box') :
    Accounted box' (l.note op reply) := by
  cases hstep with
  | failed op error =>
    cases op with
    | register owner => exact h
    | unregister owner => exact h
    | send sender receiver payload => exact h
    | receive receiver => exact h
  | registered owner hfree => exact h.update owner [] [] rfl
  | unregistered owner =>
    refine ⟨h.in_order, fun o q hq => ?_⟩
    obtain ⟨-, ⟨⟩⟩ | ⟨-, hq⟩ := Library.update_eq_iff.mp hq
    exact h.rest o q hq
  | sent sender receiver payload queue hbox =>
    have hrest : l.sent receiver ++ [(sender, payload)] =
        l.received receiver ++ (queue ++ [(sender, payload)]) := by
      rw [h.rest receiver queue hbox, append_assoc]
    have hnew := h.update receiver _ _ hrest
    rwa [update_eq_self] at hnew
  | received receiver message queue hbox =>
    have hrest : l.sent receiver = l.received receiver ++ [message.letter] ++ queue := by
      rw [h.rest receiver _ hbox, append_assoc, singleton_append]
    have hnew := h.update receiver _ _ hrest
    rwa [update_eq_self] at hnew

def Recorded (s : State × Ledger) : Prop :=
  s.1.Valid ∧ Accounted s.1.mailboxes s.2

theorem recorded_run {s : State × Ledger} (h : Recorded s) (ops : List Op) :
    Recorded (run s ops) := by
  induction ops generalizing s with
  | nil => exact h
  | cons op ops ih =>
    obtain ⟨hvalid, hstep⟩ := h.1.step op
    exact ih ⟨hvalid, hstep.accounted h.2⟩

/-! ## Receiving while others send -/

/-- The receiver during its system call. Before each of its calls the other processes do what
they want. -/
structure World where
  state : State
  others : ℕ → List Op
  answers : ℕ → Bool
  time : ℕ
  copies : List (ℕ × List UInt8)

def State.runOps (s : State) (ops : List Op) : State :=
  ops.foldl (fun s op => (s.step op).2) s

def World.turn (w : World) : World :=
  { w with state := w.state.runOps (w.others w.time), time := w.time + 1 }

instance : Program.Environment Call Answer World where
  handle
  | .currentHasIpc, w => (w.answers w.time, w.turn)
  | .peek receiver, w => (w.turn.state.peek receiver, w.turn)
  | .copyToCurrentUser start source, w =>
    (w.answers w.time,
      if w.answers w.time then { w.turn with copies := w.copies ++ [(start, source)] }
      else w.turn)
  | .receive receiver, w =>
    match w.turn.state.receive receiver with
    | .ok (message, s') => (.ok message, { w.turn with state := s' })
    | .error e => (.error e, w.turn)

/-- The operation does not take messages of the process away. -/
def Op.Leaves (receiver : Owner) : Op → Prop
  | .register owner => owner ≠ receiver
  | .unregister owner => owner ≠ receiver
  | .send _ _ _ => True
  | .receive owner => owner ≠ receiver

def Grows (receiver : Owner) (box box' : Mailboxes) : Prop :=
  ∃ new, box' receiver = (box receiver).map (· ++ new)

theorem Grows.refl (receiver : Owner) (box : Mailboxes) : Grows receiver box box :=
  ⟨[], by simp⟩

theorem Grows.trans {box'' : Mailboxes} (h : Grows receiver box box')
    (h' : Grows receiver box' box'') : Grows receiver box box'' := by
  obtain ⟨new, hnew⟩ := h
  obtain ⟨new', hnew'⟩ := h'
  refine ⟨new ++ new', ?_⟩
  rw [hnew', hnew, Option.map_map]
  congr 1
  funext queue
  exact List.append_assoc _ _ _

theorem Outcome.grows {op : Op}
    (h : Outcome box op reply box') (hop : op.Leaves receiver) : Grows receiver box box' := by
  have hother : ∀ (owner : Owner) (queue : Option (List Letter)), owner ≠ receiver →
      Grows receiver box (update box owner queue) := by
    intro owner queue hne
    refine ⟨[], ?_⟩
    rw [update_of_ne hne.symm]
    simp
  cases h with
  | failed op error => exact .refl receiver box
  | registered owner hfree => exact hother owner _ hop
  | unregistered owner => exact hother owner _ hop
  | sent sender owner payload queue hbox =>
    by_cases howner : owner = receiver
    · subst howner
      exact ⟨[(sender, payload)], by rw [update_self, hbox]; rfl⟩
    · exact hother owner _ howner
  | received owner message queue hbox => exact hother owner _ hop

theorem State.Valid.runOps (h : s.Valid) {ops : List Op} (hops : ∀ op ∈ ops, op.Leaves receiver) :
    (s.runOps ops).Valid ∧ Grows receiver s.mailboxes (s.runOps ops).mailboxes := by
  induction ops generalizing s with
  | nil => exact ⟨h, .refl receiver _⟩
  | cons op ops ih =>
    obtain ⟨hvalid, hstep⟩ := h.step op
    obtain ⟨hend, hgrows⟩ := ih hvalid fun op' hop' => hops op' (mem_cons_of_mem op hop')
    exact ⟨hend, (hstep.grows (hops op mem_cons_self)).trans hgrows⟩

variable {w : World}

theorem World.turn_spec (hvalid : w.state.Valid)
    (hothers : ∀ n, ∀ op ∈ w.others n, op.Leaves receiver) :
    w.turn.state.Valid ∧ Grows receiver w.state.mailboxes w.turn.state.mailboxes :=
  hvalid.runOps (hothers w.time)

/-- The result of a receiving system call: after a failure every message is still there, and
otherwise the oldest one has been copied out and removed. -/
def Received (receiver : Owner) (userBuffer userSender : ℕ) (w : World) (result : ℕ)
    (w' : World) : Prop :=
  if result = syscallError then Grows receiver w.state.mailboxes w'.state.mailboxes
  else ∃ letter new queue,
    (w.state.mailboxes receiver).map (· ++ new) = some (letter :: queue) ∧
    w'.state.mailboxes receiver = some queue ∧
    w'.copies = w.copies ++ [(userBuffer, letter.2), (userSender, toLeBytes letter.1)] ∧
    result = letter.2.length

variable {w' : World}

theorem received_error {userBuffer userSender : ℕ}
    (h : Grows receiver w.state.mailboxes w'.state.mailboxes) :
    Received receiver userBuffer userSender w syscallError w' := by
  rw [Received, if_pos rfl]
  exact h

theorem received_removed {userBuffer userSender : ℕ}
    (hs : s.Valid) (hsize : letter.2.length ≤ maxMessageSize)
    (hgrows : Grows receiver w.state.mailboxes s.mailboxes)
    (hfront : ∃ queue, s.mailboxes receiver = some (letter :: queue))
    (hstate : w'.state = (s.step (.receive receiver)).2)
    (hcopies : w'.copies = w.copies ++ [(userBuffer, letter.2), (userSender, toLeBytes letter.1)])
    {m : Message} (hreply : (s.step (.receive receiver)).1 = .ok (some m)) :
    Received receiver userBuffer userSender w letter.2.length w' := by
  have hne : letter.2.length ≠ syscallError := by
    have : maxMessageSize < syscallError := by decide
    omega
  rw [Received, if_neg hne]
  obtain ⟨queue, hbox⟩ := hfront
  obtain ⟨new, hnew⟩ := hgrows
  obtain ⟨-, hstep⟩ := hs.step (.receive receiver)
  rw [hreply] at hstep
  generalize hbox' : (s.step (.receive receiver)).2.mailboxes = box' at hstep
  cases hstep with
  | received _ message queue' hqueue' =>
    rw [hbox] at hqueue'
    cases hqueue'
    refine ⟨_, new, queue, ?_, ?_, hcopies, rfl⟩
    · rw [← hnew, hbox]
    · rw [hstate, hbox', update_self]

theorem Grows.front
    (h : Grows receiver box box') (hfront : ∃ queue, box receiver = some (letter :: queue)) :
    ∃ queue, box' receiver = some (letter :: queue) := by
  obtain ⟨new, hnew⟩ := h
  obtain ⟨queue, hbox⟩ := hfront
  exact ⟨queue ++ new, by rw [hnew, hbox]; rfl⟩

section Calls

variable (w : World)

theorem run_hasIpc (next : Bool → Program Call Answer ℕ) :
    (.call .currentHasIpc next : Program Call Answer ℕ).run w =
      (next (w.answers w.time)).run w.turn := rfl

theorem run_peek (receiver : Owner) (next : Except Error Message → Program Call Answer ℕ) :
    (.call (.peek receiver) next : Program Call Answer ℕ).run w =
      (next (w.turn.state.peek receiver)).run w.turn := rfl

def World.copy (w : World) (start : ℕ) (source : List UInt8) : World :=
  { w.turn with copies := w.copies ++ [(start, source)] }

theorem run_copy (start : ℕ) (source : List UInt8) (next : Bool → Program Call Answer ℕ) :
    (.call (.copyToCurrentUser start source) next : Program Call Answer ℕ).run w =
      if w.answers w.time then (next true).run (w.copy start source)
      else (next false).run w.turn := by
  change (next (w.answers w.time)).run (if w.answers w.time then w.copy start source else w.turn) =
    _
  cases w.answers w.time with
  | false => rfl
  | true => rfl

theorem run_receive (receiver : Owner) (next : Except Error Message → Program Call Answer ℕ) :
    (.call (.receive receiver) next : Program Call Answer ℕ).run w =
      match w.turn.state.receive receiver with
      | .ok (message, s') => (next (.ok message)).run { w.turn with state := s' }
      | .error e => (next (.error e)).run w.turn := by
  have hhandle : (Program.Environment.handle (Call.receive receiver) w :
      Answer (.receive receiver) × World) =
      match w.turn.state.receive receiver with
      | .ok (message, s') => (.ok message, { w.turn with state := s' })
      | .error e => (.error e, w.turn) := rfl
  rw [Program.run, hhandle]
  cases w.turn.state.receive receiver with
  | ok result => rfl
  | error e => rfl

end Calls

/-- Whatever the others do meanwhile, the system call removes no message if it fails and the
one that it has copied out otherwise. -/
theorem sysMessageReceive_spec (hvalid : w.state.Valid)
    (hothers : ∀ n, ∀ op ∈ w.others n, op.Leaves receiver) (userBuffer capacity userSender : ℕ) :
    Received receiver userBuffer userSender w
      ((sysMessageReceive receiver userBuffer capacity userSender).run w).1
      ((sysMessageReceive receiver userBuffer capacity userSender).run w).2 := by
  obtain ⟨hvalid₁, hgrows₁⟩ := World.turn_spec hvalid hothers
  rw [sysMessageReceive, run_hasIpc]
  split
  · exact received_error hgrows₁
  obtain ⟨hvalid₂, hgrows⟩ := World.turn_spec hvalid₁ hothers
  have hgrows₂ := hgrows₁.trans hgrows
  rw [run_peek]
  cases hpeek : w.turn.turn.state.peek receiver with
  | error e => exact received_error hgrows₂
  | ok m =>
    obtain ⟨hsize, hfront₂⟩ := hvalid₂.peek_oldest hpeek
    dsimp only
    split
    · exact received_error hgrows₂
    obtain ⟨hvalid₃, hgrows'⟩ := World.turn_spec hvalid₂ hothers
    have hgrows₃ := hgrows₂.trans hgrows'
    rw [run_copy]
    split
    swap
    · exact received_error hgrows₃
    obtain ⟨hvalid₄, hgrows''⟩ := World.turn_spec hvalid₃ hothers
    have hgrows₄ := hgrows₃.trans hgrows''
    simp only [Bool.true_eq_false, if_false]
    rw [run_copy]
    split
    swap
    · exact received_error hgrows₄
    obtain ⟨hvalid₅, hgrows₅⟩ := World.turn_spec hvalid₄ hothers
    have hgrows := hgrows₄.trans hgrows₅
    have hfront := (hgrows'.trans (hgrows''.trans hgrows₅)).front hfront₂
    simp only [Bool.true_eq_false, if_false]
    rw [run_receive]
    -- both copies leave the registry as the others have made it
    generalize hlast : ((w.turn.turn.copy userBuffer m.payload).copy userSender
      (toLeBytes m.sender)).turn = last
    have hstate : last.state = w.turn.turn.turn.turn.turn.state := by
      rw [← hlast]
      rfl
    have hcopies : last.copies =
        w.copies ++ [(userBuffer, m.payload), (userSender, toLeBytes m.sender)] := by
      rw [← hlast]
      exact append_assoc _ _ _
    rw [← hstate] at hvalid₅ hgrows hfront
    cases hreceive : last.state.receive receiver with
    | error e => exact received_error hgrows
    | ok result =>
      have hstep : last.state.step (.receive receiver) = (.ok (some result.1), result.2) := by
        simp only [step, hreceive]
      refine received_removed hvalid₅ hsize hgrows hfront ?_ hcopies (congrArg Prod.fst hstep)
      exact (congrArg Prod.snd hstep).symm

/-- After every sequence of operations, no process has two endpoints; what it has received is
the first part of what was sent to it, the rest is in its mailbox, and the next message that it
receives is the oldest one there; operations that fail change nothing; a process that registers
has an empty mailbox; and a receiving system call removes no message if it fails, and the one
that it has copied out otherwise, whatever others send, receive or register meanwhile. -/
theorem ipc_delivery (ops : List Op) :
    let (s, l) := run (.new, .new) ops
    (∀ slot slot' e e', s.endpoints slot = some e → s.endpoints slot' = some e' →
      e.owner = e'.owner → slot = slot') ∧
    (∀ owner, l.received owner <+: l.sent owner) ∧
    (∀ owner queue, s.mailboxes owner = some queue → l.sent owner = l.received owner ++ queue) ∧
    (∀ owner letter queue, s.mailboxes owner = some (letter :: queue) →
      ∃ m : Message, (s.step (.receive owner)).1 = .ok (some m) ∧ m.letter = letter) ∧
    (∀ op error, (s.step op).1 = .error error → (s.step op).2 = s) ∧
    (∀ owner reply, (s.step (.register owner)).1 = .ok reply →
      (s.step (.register owner)).2.mailboxes owner = some []) ∧
    ∀ (w : World) (receiver : Owner) (userBuffer capacity userSender : ℕ), w.state = s →
      (∀ n, ∀ op ∈ w.others n, op.Leaves receiver) →
      Received receiver userBuffer userSender w
        ((sysMessageReceive receiver userBuffer capacity userSender).run w).1
        ((sysMessageReceive receiver userBuffer capacity userSender).run w).2 := by
  obtain ⟨hvalid, hbooks⟩ := recorded_run (s := (.new, .new)) ⟨valid_new, accounted_new⟩ ops
  refine ⟨hvalid.unique, hbooks.in_order, hbooks.rest, fun owner letter queue hbox => ?_,
    fun op error => step_error, fun owner reply hreply => ?_, ?_⟩
  · exact hvalid.receive_oldest hbox
  · obtain ⟨-, hstep⟩ := hvalid.step (.register owner)
    rw [hreply] at hstep
    generalize ((run (.new, .new) ops).1.step (.register owner)).2.mailboxes = box at hstep
    cases hstep with
    | registered owner hfree => exact update_self _ _ _
  · intro w receiver userBuffer capacity userSender hstate hothers
    have hw : w.state.Valid := by
      rw [hstate]
      exact hvalid
    exact sysMessageReceive_spec hw hothers userBuffer capacity userSender

end WovenHat.Ipc
