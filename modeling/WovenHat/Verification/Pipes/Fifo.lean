import WovenHat.Library.Ring
import WovenHat.Model.Pipes

/-! # Pipes are queues

The bytes that come out of a pipe are those that went into it, in the same order, and what is
still inside is the content of its ring. -/

namespace WovenHat.Pipes

open Library Function Table List

/-! ## One pipe -/

namespace Pipe

/-- The bytes in the ring, oldest first. -/
def queue (p : Pipe) : List UInt8 :=
  ring pipeBuffer p.data.get p.head p.len

structure RingOk (p : Pipe) : Prop where
  len_le : p.len ≤ pipeBuffer
  head_lt : p.head < pipeBuffer
  tail_eq : p.tail = (p.head + p.len) % pipeBuffer

structure SameEnds (p p' : Pipe) : Prop where
  readers : p'.readers = p.readers
  writers : p'.writers = p.writers
  occupied : p'.occupied = p.occupied
  readWaiters : p'.readWaiters = p.readWaiters
  writeWaiters : p'.writeWaiters = p.writeWaiters

theorem SameEnds.refl (p : Pipe) : SameEnds p p :=
  ⟨rfl, rfl, rfl, rfl, rfl⟩

variable {p : Pipe}

theorem SameEnds.trans {p' p'' : Pipe} (h : SameEnds p p') (h' : SameEnds p' p'') :
    SameEnds p p'' :=
  ⟨h'.readers.trans h.readers, h'.writers.trans h.writers, h'.occupied.trans h.occupied,
    h'.readWaiters.trans h.readWaiters, h'.writeWaiters.trans h.writeWaiters⟩

theorem ringOk_empty : empty.RingOk :=
  ⟨by decide, by decide, rfl⟩

theorem put_spec (h : p.RingOk) (hroom : p.len < pipeBuffer) (byte : UInt8) :
    (p.put byte).RingOk ∧ (p.put byte).queue = p.queue ++ [byte] := by
  have htail : p.tail < pipeBuffer := by
    rw [h.tail_eq]
    exact Nat.mod_lt _ (by decide)
  have hdata : (p.data.set p.tail byte).get = update p.data.get p.tail byte := by
    funext i
    by_cases hi : i = p.tail
    · subst hi
      simp [htail]
    rw [update_of_ne hi, Buffer.get_set, if_neg hi]
    split
    · rfl
    · rename_i hle
      exact (Buffer.get_of_le _ (by omega)).symm
  refine ⟨⟨hroom, h.head_lt, ?_⟩, ?_⟩
  · change (p.tail + 1) % pipeBuffer = (p.head + (p.len + 1)) % pipeBuffer
    rw [h.tail_eq, Nat.mod_add_mod]
    rfl
  · change ring pipeBuffer (p.data.set p.tail byte).get p.head (p.len + 1) = _
    rw [hdata, h.tail_eq, ring_push hroom]
    rfl

theorem fill_spec (h : p.RingOk) (buf : List UInt8) :
    (p.fill buf).1.RingOk ∧ SameEnds p (p.fill buf).1 ∧
      (p.fill buf).2 = min buf.length (pipeBuffer - p.len) ∧
      (p.fill buf).1.queue = p.queue ++ buf.take (p.fill buf).2 := by
  induction buf generalizing p with
  | nil => exact ⟨h, .refl p, by simp [fill], by simp [fill]⟩
  | cons byte rest ih =>
    by_cases hroom : p.len < pipeBuffer
    · obtain ⟨hput, hqueue⟩ := put_spec h hroom byte
      obtain ⟨hok, hsame, hcount, hrest⟩ := ih hput
      have hfill : p.fill (byte :: rest) =
          (((p.put byte).fill rest).1, ((p.put byte).fill rest).2 + 1) := by
        rw [fill, if_pos hroom]
      rw [hfill]
      refine ⟨hok, (⟨rfl, rfl, rfl, rfl, rfl⟩ : SameEnds p (p.put byte)).trans hsame, ?_, ?_⟩
      · have hlen : (p.put byte).len = p.len + 1 := rfl
        rw [hcount, hlen, length_cons]
        omega
      · rw [hrest, hqueue, take_succ_cons, append_assoc]
        rfl
    · have hfill : p.fill (byte :: rest) = (p, 0) := by
        rw [fill, if_neg hroom]
      rw [hfill]
      exact ⟨h, .refl p, by omega, by simp⟩

theorem skip_spec (h : p.RingOk) (hlen : 0 < p.len) :
    p.skip.RingOk ∧ p.queue = p.data.get p.head :: p.skip.queue := by
  obtain ⟨k, hk⟩ : ∃ k, p.len = k + 1 := ⟨p.len - 1, by omega⟩
  have hle := h.len_le
  refine ⟨⟨?_, Nat.mod_lt _ (by decide), ?_⟩, ?_⟩
  · change p.len - 1 ≤ pipeBuffer
    omega
  · change p.tail = ((p.head + 1) % pipeBuffer + (p.len - 1)) % pipeBuffer
    rw [hk, Nat.add_sub_cancel, succ_mod_add, h.tail_eq, hk]
  change ring pipeBuffer p.data.get p.head p.len =
    _ :: ring pipeBuffer p.data.get ((p.head + 1) % pipeBuffer) (p.len - 1)
  rw [hk, ring_pop, Nat.mod_eq_of_lt h.head_lt, Nat.add_sub_cancel]

theorem drain_spec (h : p.RingOk) (room : ℕ) :
    (p.drain room).1.RingOk ∧ SameEnds p (p.drain room).1 ∧
      (p.drain room).2.length = min room p.len ∧
      p.queue = (p.drain room).2 ++ (p.drain room).1.queue := by
  induction room generalizing p with
  | zero => exact ⟨h, .refl p, by simp [drain], by simp [drain]⟩
  | succ room ih =>
    by_cases hlen : 0 < p.len
    · obtain ⟨hskip, hqueue⟩ := skip_spec h hlen
      obtain ⟨hok, hsame, hcount, hrest⟩ := ih hskip
      have hdrain : p.drain (room + 1) =
          ((p.skip.drain room).1, p.data.get p.head :: (p.skip.drain room).2) := by
        rw [drain, if_pos hlen]
      rw [hdrain]
      refine ⟨hok, (⟨rfl, rfl, rfl, rfl, rfl⟩ : SameEnds p p.skip).trans hsame, ?_, ?_⟩
      · have hskipped : p.skip.len = p.len - 1 := rfl
        rw [length_cons, hcount, hskipped]
        omega
      · rw [hqueue, hrest, cons_append]
    · have hdrain : p.drain (room + 1) = (p, []) := by
        rw [drain, if_neg hlen]
      rw [hdrain]
      exact ⟨h, .refl p, by simp; omega, by simp⟩

/-- A pipe of the table: its ring is in order, and it is in use while it has an end. -/
structure Valid (p : Pipe) : Prop where
  ring : p.RingOk
  reusable : p.occupied = false ↔ p.readers = 0 ∧ p.writers = 0

theorem valid_empty : empty.Valid :=
  ⟨ringOk_empty, by decide⟩

theorem valid_fresh : fresh.Valid :=
  ⟨⟨by decide, by decide, rfl⟩, by decide⟩

theorem Valid.of_sameEnds {p' : Pipe} (h : p.Valid) (hring : p'.RingOk) (hsame : SameEnds p p') :
    p'.Valid := by
  refine ⟨hring, ?_⟩
  rw [hsame.occupied, hsame.readers, hsame.writers]
  exact h.reusable

theorem valid_settle (hring : p.RingOk) (hocc : p.occupied = true) : (settle p).Valid := by
  unfold settle
  split
  · exact valid_empty
  rename_i hends
  refine ⟨hring, iff_of_false ?_ hends⟩
  rw [hocc]
  decide

end Pipe

/-! ## The bytes that go through a pipe -/

/-- What has happened to a pipe since it was created, by its number: the bytes that it has
accepted and delivered, and how many of its ends have been handed out and not closed. -/
structure Ledger where
  accepted : ℕ → List UInt8
  delivered : ℕ → List UInt8
  readers : ℕ → ℕ
  writers : ℕ → ℕ

namespace Ledger

def new : Ledger := ⟨fun _ => [], fun _ => [], fun _ => 0, fun _ => 0⟩

def note (l : Ledger) : Op → Reply → Ledger
  | .create, .created (.ok id) =>
    ⟨update l.accepted id [], update l.delivered id [], update l.readers id 1,
      update l.writers id 1⟩
  | .tryWrite id buf, .written (.ok (written, _)) =>
    { l with accepted := update l.accepted id (l.accepted id ++ buf.take written) }
  | .tryRead id _, .read (.ok (bytes, _, _)) =>
    { l with delivered := update l.delivered id (l.delivered id ++ bytes) }
  | .cloneReader id, .cloned (.ok ()) =>
    { l with readers := update l.readers id (l.readers id + 1) }
  | .cloneWriter id, .cloned (.ok ()) =>
    { l with writers := update l.writers id (l.writers id + 1) }
  | .closeReader id, _ => { l with readers := update l.readers id (l.readers id - 1) }
  | .closeWriter id, _ => { l with writers := update l.writers id (l.writers id - 1) }
  | _, _ => l

end Ledger

def run : Table × Ledger → List Op → Table × Ledger
  | s, [] => s
  | (t, l), op :: ops => run ((t.step op).2, l.note op (t.step op).1) ops

/-- What the books say about a pipe. -/
structure Booked (p : Pipe) (accepted delivered : List UInt8) : Prop where
  valid : p.Valid
  in_order : delivered <+: accepted
  rest : p.occupied = true → accepted = delivered ++ p.queue

def Recorded (s : Table × Ledger) : Prop :=
  ∀ slot : Fin maxPipes, Booked (s.1.pipes slot) (s.2.accepted slot) (s.2.delivered slot)

theorem recorded_new : Recorded (.new, .new) :=
  fun _ => ⟨Pipe.valid_empty, prefix_rfl, fun h => Bool.noConfusion h⟩

theorem Booked.of_rest {p : Pipe} {accepted delivered : List UInt8} (hvalid : p.Valid)
    (hrest : accepted = delivered ++ p.queue) : Booked p accepted delivered :=
  ⟨hvalid, ⟨p.queue, hrest.symm⟩, fun _ => hrest⟩

section Step

variable {t : Table} {l : Ledger} {slot : Fin maxPipes} {p : Pipe} (h : Recorded (t, l))

include h

theorem Recorded.set (hp : Booked p (l.accepted slot) (l.delivered slot)) :
    Recorded (t.set slot p, l) := by
  intro i
  by_cases hi : i = slot
  · subst hi
    simpa [Table.set] using hp
  · simpa [Table.set, hi] using h i

theorem Recorded.set_books (slot : Fin maxPipes) {accepted delivered : List UInt8}
    (hp : Booked p accepted delivered) (readers writers : ℕ → ℕ) : Recorded (t.set slot p,
      ⟨update l.accepted slot accepted, update l.delivered slot delivered, readers, writers⟩) := by
  intro i
  by_cases hi : i = slot
  · subst hi
    simpa [Table.set] using hp
  · have hval : (i : ℕ) ≠ slot := fun heq => hi (Fin.ext heq)
    simpa [Table.set, hi, hval] using h i

end Step

variable {t : Table}

theorem Table.find_eq_ok {id : ℕ} {slot : Fin maxPipes} (h : t.find id = .ok slot) :
    (slot : ℕ) = id ∧ (t.pipes slot).occupied = true := by
  unfold find slot? at h
  split at h
  · rename_i slot' hslot
    split at h
    · rename_i hocc
      cases h
      split at hslot
      · cases hslot
        exact ⟨rfl, hocc⟩
      · cases hslot
    · cases h
  · cases h

section Operations

variable {t : Table} {l : Ledger} (h : Recorded (t, l))

include h

theorem Recorded.alloc : Recorded (t.alloc.2, l.note .create (.created t.alloc.1)) := by
  unfold Table.alloc
  split
  · rename_i slot _
    have hfresh : Booked .fresh [] [] := .of_rest Pipe.valid_fresh rfl
    exact h.set_books slot hfresh _ _
  · exact h

theorem Recorded.tryWrite (id : ℕ) (buf : List UInt8) :
    Recorded ((t.tryWrite id buf).2, l.note (.tryWrite id buf) (.written (t.tryWrite id buf).1)) := by
  unfold Table.tryWrite
  cases hfind : t.find id with
  | error e => exact h
  | ok slot =>
    obtain ⟨rfl, hocc⟩ := find_eq_ok hfind
    have hslot := h slot
    obtain ⟨hring, hsame, _, hqueue⟩ := Pipe.fill_spec hslot.valid.ring buf
    dsimp only
    split
    · exact h
    have hbooked : Booked ((t.pipes slot).fill buf).1
        (l.accepted slot ++ buf.take ((t.pipes slot).fill buf).2) (l.delivered slot) := by
      refine .of_rest (hslot.valid.of_sameEnds hring hsame) ?_
      rw [hqueue, hslot.rest hocc, append_assoc]
    have hset := h.set_books slot hbooked l.readers l.writers
    rw [update_eq_self] at hset
    exact hset

theorem Recorded.tryRead (id room : ℕ) :
    Recorded ((t.tryRead id room).2, l.note (.tryRead id room) (.read (t.tryRead id room).1)) := by
  unfold Table.tryRead
  cases hfind : t.find id with
  | error e => exact h
  | ok slot =>
    obtain ⟨rfl, hocc⟩ := find_eq_ok hfind
    have hslot := h slot
    obtain ⟨hring, hsame, _, hqueue⟩ := Pipe.drain_spec hslot.valid.ring room
    dsimp only
    split
    · split
      · simpa [Ledger.note] using h
      · simpa [Ledger.note] using h
    have hbooked : Booked ((t.pipes slot).drain room).1 (l.accepted slot)
        (l.delivered slot ++ ((t.pipes slot).drain room).2) := by
      refine .of_rest (hslot.valid.of_sameEnds hring hsame) ?_
      rw [append_assoc, ← hqueue, hslot.rest hocc]
    have hset := h.set_books slot hbooked l.readers l.writers
    rw [update_eq_self] at hset
    exact hset

theorem Recorded.cloneEnd (id : ℕ) {change : Pipe → Pipe}
    (hvalid : ∀ p : Pipe, p.Valid → p.occupied = true → (change p).Valid)
    (hqueue : ∀ p : Pipe, (change p).queue = p.queue) : Recorded ((t.cloneEnd id change).2, l) := by
  unfold Table.cloneEnd
  cases hfind : t.find id with
  | error e => exact h
  | ok slot =>
    obtain ⟨_, hocc⟩ := find_eq_ok hfind
    have hslot := h slot
    refine h.set (.of_rest (hvalid _ hslot.valid hocc) ?_)
    rw [hqueue, hslot.rest hocc]

theorem Recorded.settle {slot : Fin maxPipes} {p : Pipe} (hring : p.RingOk)
    (hocc : p.occupied = true) (hold : (t.pipes slot).occupied = true)
    (hqueue : p.queue = (t.pipes slot).queue) : Recorded (t.set slot (Table.settle p), l) := by
  have hslot := h slot
  refine h.set ⟨Pipe.valid_settle hring hocc, hslot.in_order, fun hused => ?_⟩
  unfold Table.settle at hused ⊢
  split at hused
  · cases hused
  rename_i hends
  rw [if_neg hends, hqueue]
  exact hslot.rest hold

theorem Recorded.closeReader (id : ℕ) : Recorded ((t.closeReader id).2, l) := by
  unfold Table.closeReader
  cases hfind : t.find id with
  | error e => exact h
  | ok slot =>
    obtain ⟨_, hocc⟩ := find_eq_ok hfind
    obtain ⟨hlen, hhead, htail⟩ := (h slot).valid.ring
    exact h.settle ⟨hlen, hhead, htail⟩ hocc hocc rfl

theorem Recorded.closeWriter (id : ℕ) : Recorded ((t.closeWriter id).2, l) := by
  unfold Table.closeWriter
  cases hfind : t.find id with
  | error e => exact h
  | ok slot =>
    obtain ⟨_, hocc⟩ := find_eq_ok hfind
    obtain ⟨hlen, hhead, htail⟩ := (h slot).valid.ring
    exact h.settle ⟨hlen, hhead, htail⟩ hocc hocc rfl

theorem Recorded.step (op : Op) : Recorded ((t.step op).2, l.note op (t.step op).1) := by
  have hclone : ∀ (p : Pipe) (r w : ℕ), p.Valid → p.occupied = true → 0 < r ∨ 0 < w →
      ({ p with readers := r, writers := w } : Pipe).Valid := by
    intro p r w hp hocc hends
    obtain ⟨hlen, hhead, htail⟩ := hp.ring
    refine ⟨⟨hlen, hhead, htail⟩, iff_of_false ?_ ?_⟩
    · rw [hocc]
      decide
    · change ¬(r = 0 ∧ w = 0)
      omega
  have hmax : 0 < u32Max := by decide
  cases op with
  | create => exact h.alloc
  | tryWrite id buf => exact h.tryWrite id buf
  | tryRead id room => exact h.tryRead id room
  | cloneReader id =>
    have hcloned : Recorded ((t.cloneReader id).2, l) :=
      h.cloneEnd id (fun p hp hocc => hclone p _ _ hp hocc (.inl (by omega))) fun _ => rfl
    change Recorded ((t.cloneReader id).2, l.note _ (.cloned (t.cloneReader id).1))
    cases (t.cloneReader id).1 <;> exact hcloned
  | cloneWriter id =>
    have hcloned : Recorded ((t.cloneWriter id).2, l) :=
      h.cloneEnd id (fun p hp hocc => hclone p _ _ hp hocc (.inr (by omega))) fun _ => rfl
    change Recorded ((t.cloneWriter id).2, l.note _ (.cloned (t.cloneWriter id).1))
    cases (t.cloneWriter id).1 <;> exact hcloned
  | closeReader id => exact h.closeReader id
  | closeWriter id => exact h.closeWriter id

end Operations

theorem recorded_run {s : Table × Ledger} (h : Recorded s) (ops : List Op) :
    Recorded (run s ops) := by
  induction ops generalizing s with
  | nil => exact h
  | cons op ops ih => exact ih (h.step op)

/-! ## The ends of a pipe -/

def isClone : Op → Bool
  | .cloneReader _ | .cloneWriter _ => true
  | _ => false

/-- The counts of a pipe are the numbers of its ends, after so many clones. -/
structure Held (clones : ℕ) (p : Pipe) (r w : ℕ) : Prop where
  readers : p.readers = r
  writers : p.writers = w
  readers_le : r ≤ clones + 1
  writers_le : w ≤ clones + 1

def Owned (clones : ℕ) (t : Table) (l : Ledger) : Prop :=
  ∀ slot : Fin maxPipes, Held clones (t.pipes slot) (l.readers slot) (l.writers slot)

section Ends

variable {l : Ledger} {clones : ℕ} (h : Owned clones t l)

include h

theorem Owned.mono (k : ℕ) : Owned (clones + k) t l := by
  intro i
  obtain ⟨hr, hw, hr', hw'⟩ := h i
  exact ⟨hr, hw, by omega, by omega⟩

theorem Owned.set (slot : Fin maxPipes) {p : Pipe} {r w k : ℕ}
    (hp : Held (clones + k) p r w) (accepted delivered : ℕ → List UInt8) :
    Owned (clones + k) (t.set slot p)
      ⟨accepted, delivered, update l.readers slot r, update l.writers slot w⟩ := by
  intro i
  by_cases hi : i = slot
  · subst hi
    simpa [Table.set] using hp
  · have hval : (i : ℕ) ≠ slot := fun heq => hi (Fin.ext heq)
    simpa [Table.set, hi, hval] using h.mono k i

theorem Owned.set_same (slot : Fin maxPipes) {p : Pipe} (hsame : Pipe.SameEnds (t.pipes slot) p)
    (accepted delivered : ℕ → List UInt8) :
    Owned clones (t.set slot p) ⟨accepted, delivered, l.readers, l.writers⟩ := by
  obtain ⟨hr, hw, hr', hw'⟩ := h slot
  have hset := h.set slot (k := 0)
    ⟨hsame.readers.trans hr, hsame.writers.trans hw, hr', hw'⟩ accepted delivered
  rwa [update_eq_self, update_eq_self] at hset

/-- A pipe that is not in use has no end to close. -/
theorem Owned.unused (hrecorded : Recorded (t, l)) {id : ℕ} {e : Error}
    (hfind : t.find id = .error e) (slot : Fin maxPipes) :
    update l.readers id (l.readers id - 1) slot = l.readers slot ∧
      update l.writers id (l.writers id - 1) slot = l.writers slot := by
  by_cases hslot : (slot : ℕ) = id
  · subst hslot
    have hends := (hrecorded slot).valid.reusable
    rw [(h slot).readers, (h slot).writers] at hends
    cases hocc : (t.pipes slot).occupied with
    | true => simp [find, slot?, hocc] at hfind
    | false =>
      have hnone := hends.mp hocc
      simp [hnone]
  · simp [hslot]

theorem Owned.settle (slot : Fin maxPipes) {p : Pipe} {r w : ℕ} (hp : Held clones p r w) :
    Owned clones (t.set slot (settle p))
      { l with readers := update l.readers slot r, writers := update l.writers slot w } := by
  refine h.set slot (k := 0) ?_ _ _
  unfold Table.settle
  split
  · rename_i hends
    obtain ⟨rfl, rfl, hr', hw'⟩ := hp
    exact ⟨hends.1.symm, hends.2.symm, hr', hw'⟩
  · exact hp

theorem Owned.step (hrecorded : Recorded (t, l)) (op : Op)
    (hroom : clones + (isClone op).toNat < u32Max) :
    Owned (clones + (isClone op).toNat) (t.step op).2 (l.note op (t.step op).1) := by
  cases op with
  | create =>
    simp only [Table.step, Table.alloc]
    split
    · exact h.set _ (k := 0) ⟨rfl, rfl, Nat.le_add_left _ _, Nat.le_add_left _ _⟩ _ _
    · exact h
  | tryWrite id buf =>
    simp only [Table.step, Table.tryWrite]
    cases hfind : t.find id with
    | error e => exact h
    | ok slot =>
      dsimp only
      split
      · exact h
      · exact h.set_same slot (Pipe.fill_spec (hrecorded slot).valid.ring buf).2.1 _ _
  | tryRead id room =>
    simp only [Table.step, Table.tryRead]
    cases hfind : t.find id with
    | error e => exact h
    | ok slot =>
      dsimp only
      split
      · split <;> exact h
      · exact h.set_same slot (Pipe.drain_spec (hrecorded slot).valid.ring room).2.1 _ _
  | cloneReader id =>
    simp only [Table.step, Table.cloneReader, Table.cloneEnd]
    cases hfind : t.find id with
    | error e => exact h.mono 1
    | ok slot =>
      obtain ⟨rfl, -⟩ := find_eq_ok hfind
      obtain ⟨hr, hw, hr', hw'⟩ := h slot
      simp only [isClone, Bool.toNat_true] at hroom
      have hset := h.set slot (k := 1) (p := { t.pipes slot with
        readers := min ((t.pipes slot).readers + 1) u32Max }) (r := l.readers slot + 1)
        ⟨by simp only [hr]; omega, hw, by omega, by omega⟩ l.accepted l.delivered
      rwa [update_eq_self] at hset
  | cloneWriter id =>
    simp only [Table.step, Table.cloneWriter, Table.cloneEnd]
    cases hfind : t.find id with
    | error e => exact h.mono 1
    | ok slot =>
      obtain ⟨rfl, -⟩ := find_eq_ok hfind
      obtain ⟨hr, hw, hr', hw'⟩ := h slot
      simp only [isClone, Bool.toNat_true] at hroom
      have hset := h.set slot (k := 1) (p := { t.pipes slot with
        writers := min ((t.pipes slot).writers + 1) u32Max }) (w := l.writers slot + 1)
        ⟨hr, by simp only [hw]; omega, by omega, by omega⟩ l.accepted l.delivered
      rwa [update_eq_self] at hset
  | closeReader id =>
    simp only [Table.step, Table.closeReader]
    cases hfind : t.find id with
    | error e =>
      intro i
      simp only [Ledger.note, (h.unused hrecorded hfind i).1]
      exact h i
    | ok slot =>
      obtain ⟨rfl, -⟩ := find_eq_ok hfind
      obtain ⟨hr, hw, hr', hw'⟩ := h slot
      have hset := h.settle slot (p := { t.pipes slot with
        readers := (t.pipes slot).readers - 1, writeWaiters := noWaiters })
        (r := l.readers slot - 1) ⟨by simp only [hr], hw, by omega, hw'⟩
      rwa [update_eq_self] at hset
  | closeWriter id =>
    simp only [Table.step, Table.closeWriter]
    cases hfind : t.find id with
    | error e =>
      intro i
      simp only [Ledger.note, (h.unused hrecorded hfind i).2]
      exact h i
    | ok slot =>
      obtain ⟨rfl, -⟩ := find_eq_ok hfind
      obtain ⟨hr, hw, hr', hw'⟩ := h slot
      have hset := h.settle slot (p := { t.pipes slot with
        writers := (t.pipes slot).writers - 1, readWaiters := noWaiters })
        (w := l.writers slot - 1) ⟨hr, by simp only [hw], hr', by omega⟩
      rwa [update_eq_self] at hset

end Ends

/-- While fewer ends are cloned than a count can hold, the counts are exact. -/
theorem owned_run {t : Table} {l : Ledger} {clones : ℕ} (h : Owned clones t l)
    (hrecorded : Recorded (t, l)) {ops : List Op} (hroom : clones + ops.countP isClone < u32Max)
    (slot : Fin maxPipes) : ((run (t, l) ops).1.pipes slot).readers =
        (run (t, l) ops).2.readers slot ∧
      ((run (t, l) ops).1.pipes slot).writers = (run (t, l) ops).2.writers slot := by
  induction ops generalizing t l clones with
  | nil => exact ⟨(h slot).readers, (h slot).writers⟩
  | cons op ops ih =>
    have hcount : (op :: ops).countP isClone = (isClone op).toNat + ops.countP isClone := by
      cases hop : isClone op <;> simp [hop, Nat.add_comm]
    rw [hcount] at hroom
    exact ih (h.step hrecorded op (by omega)) (hrecorded.step op) (by omega)

/-- The end of the file is reported for an empty pipe without a writer only. -/
theorem Table.tryRead_eof {id room : ℕ} {bytes : List UInt8} {block : Bool}
    (h : (t.tryRead id room).1 = .ok (bytes, block, true)) :
    ∃ slot : Fin maxPipes, (slot : ℕ) = id ∧ (t.pipes slot).len = 0 ∧
      (t.pipes slot).writers = 0 := by
  unfold tryRead at h
  cases hfind : t.find id with
  | error e =>
    rw [hfind] at h
    cases h
  | ok slot =>
    rw [hfind] at h
    dsimp only at h
    split at h
    · rename_i hlen
      split at h
      · rename_i hwriters
        exact ⟨slot, (find_eq_ok hfind).1, hlen, hwriters⟩
      · cases h
    · cases h

/-- After every sequence of operations, the bytes that a pipe has delivered are the first ones
of those that it has accepted, and the others are in its ring. While the counts of ends cannot
overflow, the end of the file is reported for empty pipes without an open writer only, and
exactly the slots without an open end can be used again. -/
theorem pipes_fifo (ops : List Op) (slot : Fin maxPipes) :
    let (t, l) := run (.new, .new) ops
    l.delivered slot <+: l.accepted slot ∧
    ((t.pipes slot).occupied = true → l.accepted slot = l.delivered slot ++ (t.pipes slot).queue) ∧
    (t.pipes slot).len ≤ pipeBuffer ∧
    (t.pipes slot).tail = ((t.pipes slot).head + (t.pipes slot).len) % pipeBuffer ∧
    (ops.countP isClone < u32Max →
      (∀ room bytes block, (t.tryRead slot room).1 = .ok (bytes, block, true) →
        (t.pipes slot).len = 0 ∧ l.writers slot = 0) ∧
      ((t.pipes slot).occupied = false ↔ l.readers slot = 0 ∧ l.writers slot = 0)) := by
  have hslot := recorded_run recorded_new ops slot
  refine ⟨hslot.in_order, hslot.rest, hslot.valid.ring.len_le, hslot.valid.ring.tail_eq, ?_⟩
  intro hroom
  have hnew : Owned 0 .new .new := fun _ => ⟨rfl, rfl, Nat.zero_le _, Nat.zero_le _⟩
  rw [← Nat.zero_add (ops.countP isClone)] at hroom
  obtain ⟨hreaders, hwriters⟩ := owned_run hnew recorded_new hroom slot
  rw [← hreaders, ← hwriters]
  refine ⟨fun room bytes block heof => ?_, hslot.valid.reusable⟩
  obtain ⟨slot', hval, hempty⟩ := Table.tryRead_eof heof
  obtain rfl : slot' = slot := Fin.ext hval
  exact hempty

/-! A count stops at its largest value. -/

/-- An empty pipe with one reader, whose count of writers is `a` where `b` of them are open. -/
def Counts (slot : Fin maxPipes) (a b : ℕ) (s : Table × Ledger) : Prop :=
  s.1.pipes slot = { Pipe.fresh with writers := a } ∧ s.2.writers slot = b

theorem run_append (s : Table × Ledger) (ops ops' : List Op) :
    run s (ops ++ ops') = run (run s ops) ops' := by
  induction ops generalizing s with
  | nil => rfl
  | cons op ops ih => exact ih _

variable {slot : Fin maxPipes} {a b : ℕ} {s : Table × Ledger}

theorem Counts.clone (h : Counts slot a b s) (ha : a ≤ u32Max) (n : ℕ) :
    Counts slot (min (a + n) u32Max) (b + n) (run s (replicate n (.cloneWriter slot))) := by
  induction n generalizing s a b with
  | zero => simpa [ha, run] using h
  | succ n ih =>
    obtain ⟨t, l⟩ := s
    obtain ⟨hp, hl⟩ : t.pipes slot = { Pipe.fresh with writers := a } ∧ l.writers slot = b := h
    have hnext : Counts slot (min (a + 1) u32Max) (b + 1) ((t.step (.cloneWriter slot)).2,
        l.note (.cloneWriter slot) (t.step (.cloneWriter slot)).1) := by
      simp [Counts, Table.step, cloneWriter, cloneEnd, find, slot?, hp, hl, Table.set,
        Ledger.note, Pipe.fresh]
    have hrun := ih hnext (min_le_right _ _)
    rwa [show min (min (a + 1) u32Max + n) u32Max = min (a + (n + 1)) u32Max by omega,
      show b + 1 + n = b + (n + 1) by omega] at hrun

theorem Counts.close (h : Counts slot a b s) (n : ℕ) :
    Counts slot (a - n) (b - n) (run s (replicate n (.closeWriter slot))) := by
  induction n generalizing s a b with
  | zero => simpa [run] using h
  | succ n ih =>
    obtain ⟨t, l⟩ := s
    obtain ⟨hp, hl⟩ : t.pipes slot = { Pipe.fresh with writers := a } ∧ l.writers slot = b := h
    have hnext : Counts slot (a - 1) (b - 1) ((t.step (.closeWriter slot)).2,
        l.note (.closeWriter slot) (t.step (.closeWriter slot)).1) := by
      simp [Counts, Table.step, closeWriter, settle, find, slot?, hp, hl, Table.set,
        Ledger.note, Pipe.fresh, Pipe.empty]
      rfl
    have hrun := ih hnext
    rwa [show a - 1 - n = a - (n + 1) by omega, show b - 1 - n = b - (n + 1) by omega] at hrun

theorem Counts.eof (h : Counts slot 0 b s) : (s.1.tryRead slot 1).1 = .ok ([], false, true) := by
  simp [tryRead, find, slot?, h.1, Pipe.fresh, Pipe.empty]

/-- With `2 ^ 32` writers the count is one too low: after all but one of them are closed, the
reader is told that there are no more. -/
theorem saturated_count_ends_early : ∃ (ops : List Op) (slot : Fin maxPipes),
    ops.countP isClone < 2 ^ 32 ∧
      let (t, l) := run (.new, .new) ops
      l.writers slot = 1 ∧ (t.tryRead slot 1).1 = .ok ([], false, true) := by
  -- as a variable, so that nothing counts up to it
  obtain ⟨n, hn⟩ : ∃ n, n = u32Max := ⟨_, rfl⟩
  let slot : Fin maxPipes := ⟨0, by decide⟩
  refine ⟨[.create] ++ replicate n (.cloneWriter slot) ++ replicate n (.closeWriter slot), slot,
    ?_, ?_⟩
  · have hlt : n < 2 ^ 32 := by
      rw [hn, u32Max]
      omega
    simpa [countP_replicate, isClone] using hlt
  · have hcreated : Counts slot 1 1 (run (.new, .new) [.create]) := ⟨rfl, rfl⟩
    have hcounts := (hcreated.clone (by decide) n).close n
    rw [← run_append, ← run_append, hn, show min (1 + u32Max) u32Max - u32Max = 0 by omega,
      Nat.add_sub_cancel, ← hn] at hcounts
    exact ⟨hcounts.2, hcounts.eof⟩

end WovenHat.Pipes
