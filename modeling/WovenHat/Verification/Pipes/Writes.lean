import WovenHat.Verification.Pipes.Wakeups

/-! # What a write to a pipe transfers

`pipe::write` works in rounds, between which other tasks use the pipe. What it enqueues are the
first bytes of its buffer; but it fails when the last reader goes away between two rounds, and
what the earlier rounds have enqueued is not taken back. -/

namespace WovenHat.Pipes

open List Table Pipe

/-- The bytes that the rounds of a call append to the queue of its pipe. -/
def enqueued (id : Fin maxPipes) (rounds : List (Table × Table)) : List UInt8 :=
  rounds.flatMap fun (t, t') => (t'.pipes id).queue.drop (t.pipes id).queue.length

/-- The room for bytes that the operations of the other tasks leave in a pipe, if each round
fills it, until they have taken its last reader away; `none` if they do not. -/
def roomUntilClosed (id : Fin maxPipes) : Table → List (List Op) → Option ℕ
  | _, [] => none
  | t, ops :: others =>
    let t := ops.foldl (fun t op => (t.step op).2) t
    let p := t.pipes id
    if p.occupied = true ∧ 0 < p.readers then
      (roomUntilClosed id (t.set id { p with len := pipeBuffer }) others).map
        (pipeBuffer - p.len + ·)
    else some 0

/-! ## Tables that differ in the bytes only -/

structure Pipe.Alike (p q : Pipe) : Prop where
  len : p.len = q.len
  readers : p.readers = q.readers
  writers : p.writers = q.writers
  occupied : p.occupied = q.occupied

def Table.Alike (t u : Table) : Prop :=
  ∀ i, (t.pipes i).Alike (u.pipes i)

theorem Pipe.drain_len (p : Pipe) (room : ℕ) :
    (p.drain room).1.len = p.len - room ∧ (p.drain room).1.readers = p.readers ∧
      (p.drain room).1.writers = p.writers ∧ (p.drain room).1.occupied = p.occupied := by
  induction room generalizing p with
  | zero => simp [drain]
  | succ room ih =>
    by_cases hlen : 0 < p.len
    · obtain ⟨hdrain, hends⟩ := ih p.skip
      have hskip : p.skip.len = p.len - 1 := rfl
      rw [hskip] at hdrain
      rw [drain, if_pos hlen]
      refine ⟨?_, hends⟩
      simp only
      omega
    · rw [drain, if_neg hlen]
      refine ⟨?_, rfl, rfl, rfl⟩
      simp only
      omega

theorem Pipe.Alike.fill {p q : Pipe} (h : p.Alike q) (buf : List UInt8) :
    (p.fill buf).1.Alike (q.fill buf).1 := by
  obtain ⟨hlen, hreaders, hwriters, hocc⟩ := h
  have hp := p.fill_len buf
  have hq := q.fill_len buf
  exact ⟨by omega, by omega, by omega, hp.2.2.2.trans (hocc.trans hq.2.2.2.symm)⟩

theorem Pipe.Alike.drain {p q : Pipe} (h : p.Alike q) (room : ℕ) :
    (p.drain room).1.Alike (q.drain room).1 := by
  obtain ⟨hlen, hreaders, hwriters, hocc⟩ := h
  have hp := p.drain_len room
  have hq := q.drain_len room
  exact ⟨by omega, by omega, by omega, hp.2.2.2.trans (hocc.trans hq.2.2.2.symm)⟩

variable {t u : Table}

theorem Table.Alike.set (h : t.Alike u) {p q : Pipe} (hpq : p.Alike q) (i : Fin maxPipes) :
    (t.set i p).Alike (u.set i q) := by
  intro j
  rw [pipes_set, pipes_set]
  split
  · exact hpq
  · exact h j

theorem Table.Alike.find (h : t.Alike u) (id : ℕ) : t.find id = u.find id := by
  unfold Table.find
  split
  · rw [(h _).occupied]
  · rfl

theorem Pipe.Alike.settle {p q : Pipe} (h : p.Alike q) : (settle p).Alike (Table.settle q) := by
  unfold Table.settle
  rw [h.readers, h.writers]
  split
  · exact ⟨rfl, rfl, rfl, rfl⟩
  · exact h

theorem Table.Alike.step (h : t.Alike u) (op : Op) : (t.step op).2.Alike (u.step op).2 := by
  cases op with
  | create =>
    have hocc := fun i => (h i).occupied
    simp only [Table.step, alloc, hocc]
    split
    · exact h.set ⟨rfl, rfl, rfl, rfl⟩ _
    · exact h
  | tryWrite id buf =>
    simp only [Table.step, tryWrite, h.find]
    cases u.find id with
    | error e => exact h
    | ok slot =>
      simp only [(h slot).readers]
      split
      · exact h
      · exact h.set ((h slot).fill buf) slot
  | tryRead id room =>
    simp only [Table.step, tryRead, h.find]
    cases u.find id with
    | error e => exact h
    | ok slot =>
      simp only [(h slot).len, (h slot).writers]
      split
      · split <;> exact h
      · exact h.set ((h slot).drain room) slot
  | cloneReader id | cloneWriter id =>
    simp only [Table.step, cloneReader, cloneWriter, cloneEnd, h.find]
    cases u.find id with
    | error e => exact h
    | ok slot =>
      obtain ⟨hlen, hreaders, hwriters, hocc⟩ := h slot
      refine h.set ?_ slot
      exact ⟨hlen, by simp only [hreaders], by simp only [hwriters], hocc⟩
  | closeReader id | closeWriter id =>
    simp only [Table.step, closeReader, closeWriter, h.find]
    cases u.find id with
    | error e => exact h
    | ok slot =>
      obtain ⟨hlen, hreaders, hwriters, hocc⟩ := h slot
      refine h.set (Pipe.Alike.settle ?_) slot
      exact ⟨hlen, by simp only [hreaders], by simp only [hwriters], hocc⟩

theorem Table.Alike.foldl (h : t.Alike u) (ops : List Op) :
    (ops.foldl (fun t op => (t.step op).2) t).Alike (ops.foldl (fun t op => (t.step op).2) u) := by
  induction ops generalizing t u with
  | nil => exact h
  | cons op ops ih => exact ih (h.step op)

variable {id : Fin maxPipes} {buf : List UInt8} {t' : Table} {total : ℕ}

/-! ## The rounds of a call -/

/-- What the rounds after the first `total` bytes transfer. -/
structure Transfers (id : Fin maxPipes) (buf : List UInt8) (total : ℕ) (room : Option ℕ)
    (call : Option (Except Error ℕ) × List (Table × Table)) : Prop where
  ok : ∀ n, call.1 = some (.ok n) → buf.take total ++ enqueued id call.2 = buf.take n
  error : ∀ e, call.1 = some (.error e) → room = some (enqueued id call.2).length ∧
    total + (enqueued id call.2).length < buf.length
  fails : ∀ n ∈ room, total + n < buf.length → ∃ e, call.1 = some (.error e)

theorem Transfers.round {written : ℕ} {room : Option ℕ}
    {call : Option (Except Error ℕ) × List (Table × Table)}
    (h : Transfers id buf (total + written) room call)
    (hqueue : (t'.pipes id).queue = (t.pipes id).queue ++ (buf.drop total).take written)
    (hrest : total + written < buf.length) :
    Transfers id buf total (room.map (written + ·)) (call.1, (t, t') :: call.2) := by
  have hcons : enqueued id ((t, t') :: call.2) =
      (buf.drop total).take written ++ enqueued id call.2 := by
    simp [enqueued, hqueue]
  have hlen : (enqueued id ((t, t') :: call.2)).length =
      written + (enqueued id call.2).length := by
    rw [hcons, length_append, length_take, length_drop]
    omega
  refine ⟨fun n hn => ?_, fun e he => ?_, fun n hn hlt => ?_⟩
  · rw [hcons, ← append_assoc, ← take_add]
    exact h.ok n hn
  · obtain ⟨hroom, hlt⟩ := h.error e he
    rw [hroom, hlen]
    exact ⟨rfl, by omega⟩
  · obtain ⟨k, hk, rfl⟩ := Option.mem_map.mp hn
    exact h.fails k hk (by omega)

theorem Table.Valid.foldl (h : t.Valid) (ops : List Op) :
    (ops.foldl (fun t op => (t.step op).2) t).Valid := by
  induction ops generalizing t with
  | nil => exact h
  | cons op ops ih => exact ih (h.step op)

theorem Table.Valid.writeLoop (h : t.Valid) (hu : t.Alike u) (htotal : total < buf.length)
    (others : List (List Op)) :
    Transfers id buf total (roomUntilClosed id u others) (writeLoop id buf t total others) := by
  induction others generalizing t u total with
  | nil => exact ⟨nofun, nofun, nofun⟩
  | cons ops others ih =>
    have hops := h.foldl ops
    have halike := hu.foldl ops
    rw [writeLoop, roomUntilClosed]
    generalize ops.foldl (fun t op => (t.step op).2) t = t at *
    generalize ops.foldl (fun t op => (t.step op).2) u = u at *
    have hrest : buf.drop total ≠ [] := by simpa using htotal
    have hring := (hops id).ring
    obtain ⟨hlen, hreaders, hwriters, hocc⟩ := halike id
    dsimp only
    cases t.writeCase hops id hrest with
    | refused e hclosed hwrite =>
      rw [hwrite, if_neg fun hopen => hopen.2.ne' (hreaders ▸ hclosed (hocc.trans hopen.1))]
      exact ⟨nofun, fun _ _ => ⟨by simp [enqueued], by simpa [enqueued] using htotal⟩,
        fun _ _ _ => ⟨e, rfl⟩⟩
    | full hoccupied hfull hreader hwrite =>
      have hmax := hring.len_le.antisymm hfull
      rw [hwrite, if_pos ⟨hocc ▸ hoccupied, hreaders ▸ hreader⟩, ← hlen, hmax, Nat.sub_self]
      simp only [Nat.add_zero, htotal.ne, if_false, Bool.true_eq_false, false_and]
      refine Transfers.round (ih hops (fun j => ?_) htotal) (by simp) htotal
      rw [pipes_set]
      split
      · rename_i hj
        subst hj
        exact ⟨hmax, hreaders, hwriters, hocc⟩
      · exact halike j
    | room hoccupied hspace hreader hwritten hwrite =>
      obtain ⟨hring', hsame, hcount, hqueue⟩ := fill_spec hring (buf.drop total)
      obtain ⟨hfilled, -⟩ := (t.pipes id).fill_len (buf.drop total)
      rw [hwrite, if_pos ⟨hocc ▸ hoccupied, hreaders ▸ hreader⟩, ← hlen]
      generalize (t.pipes id).fill (buf.drop total) = filled at *
      have hset := t.pipes_set_self id filled.1
      rw [length_drop] at hcount hfilled
      dsimp only
      split
      · rename_i hdone
        refine ⟨fun n hn => ?_, nofun, fun n hn hlt => ?_⟩
        · cases hn
          simp [enqueued, hset, hqueue, take_add]
        · obtain ⟨k, -, rfl⟩ := Option.mem_map.mp hn
          omega
      · rename_i hmore
        have hwhole : pipeBuffer - (t.pipes id).len = filled.2 := by omega
        rw [if_neg fun hnone => hwritten.ne' hnone.2, hwhole]
        have hnext := halike.set (p := filled.1) (q := { u.pipes id with len := pipeBuffer })
          ⟨by simp only; omega, hsame.readers.trans hreaders, hsame.writers.trans hwriters,
            hsame.occupied.trans hocc⟩ id
        refine (ih (hops.set ((hops id).of_sameEnds hring' hsame)) hnext ?_).round ?_ ?_
        · omega
        · rw [hset, hqueue]
        · omega

/-- A call that fails has enqueued nothing, and one that returns `n` the first `n` bytes, if
and only if the other tasks do not take the last reader away after they have left room for some
bytes of the buffer, and not for all of them. -/
theorem failed_write_transfers_nothing_iff (before : List Op) (id : Fin maxPipes)
    (buf : List UInt8) (others : List (List Op)) :
    let t := (run (.new, .new) before).1
    let (result, rounds) := t.write id buf others
    ((∀ e, result = some (.error e) → enqueued id rounds = []) ∧
      ∀ n, result = some (.ok n) → enqueued id rounds = buf.take n) ↔
    ∀ n ∈ roomUntilClosed id t others, n = 0 ∨ buf.length ≤ n := by
  intro t
  have hcall : Transfers id buf 0 (roomUntilClosed id t others) (t.write id buf others) := by
    unfold write
    split
    · rename_i hbuf
      subst hbuf
      exact ⟨fun n hn => by cases hn; simp [enqueued], nofun, nofun⟩
    · rename_i hbuf
      have hvalid : t.Valid := fun slot => (recorded_run recorded_new before slot).valid
      exact hvalid.writeLoop (fun _ => ⟨rfl, rfl, rfl, rfl⟩) (length_pos_iff.mpr hbuf) others
  generalize t.write id buf others = call at *
  obtain ⟨hok, herror, hfails⟩ := hcall
  simp only [Nat.zero_add] at herror hfails
  constructor
  · intro hexact n hn
    by_contra hsome
    obtain ⟨e, he⟩ := hfails n hn (by omega)
    have hroom := (herror e he).1
    rw [hexact.1 e he] at hroom
    rw [hroom] at hn
    simp_all
  · refine fun hfits => ⟨fun e he => ?_, by simpa using hok⟩
    obtain ⟨hroom, hlt⟩ := herror e he
    have hfit := hfits _ hroom
    exact length_eq_zero_iff.mp (by omega)

/-- The last reader goes away after the first round. -/
theorem failed_write_has_transferred : ∃ id : Fin maxPipes,
      let buf := replicate (pipeBuffer + 1) 0
      let (result, rounds) := (run (.new, .new) [.create]).1.write id buf [[], [.closeReader id]]
      result = some (.error .closed) ∧ enqueued id rounds = buf.take pipeBuffer := by
  refine ⟨⟨0, by decide⟩, ?_⟩
  generalize hid : (⟨0, by decide⟩ : Fin maxPipes) = id
  have hpipe : (run (.new, .new) [.create]).1.pipes id = .fresh := hid ▸ rfl
  have hbuf : (replicate (pipeBuffer + 1) (0 : UInt8)).length = pipeBuffer + 1 := length_replicate
  generalize (run (.new, .new) [.create]).1 = t at *
  generalize replicate (pipeBuffer + 1) (0 : UInt8) = buf at *
  have hpos : pipeBuffer ≠ 0 := by decide
  obtain ⟨-, hsame, hcount, hqueue⟩ := fill_spec valid_fresh.ring buf
  have hwritten : (fresh.fill buf).2 = pipeBuffer := by
    rw [hcount, hbuf]
    rfl
  have hfirst : t.tryWrite id buf =
      (.ok (pipeBuffer, false), t.set id (fresh.fill buf).1) := by
    have hreaders : fresh.occupied = true ∧ fresh.readers = 1 := ⟨rfl, rfl⟩
    simp [tryWrite, find_slot, hpipe, hreaders, hwritten, hpos]
  rw [hwritten] at hqueue
  generalize (fresh.fill buf).1 = filled at *
  obtain ⟨last, hlast⟩ : ∃ last, last = ((t.set id filled).closeReader id).2 := ⟨_, rfl⟩
  have hsecond (rest : List UInt8) : last.tryWrite id rest = (.error .closed, last) := by
    rw [hlast]
    simp [tryWrite, closeReader, find_slot, pipes_set_self, settle,
      hsame.occupied, hsame.readers, hsame.writers, fresh]
  have hne : buf ≠ [] := length_pos_iff.mp (by omega)
  simp [write, hne, writeLoop, hfirst, step, ← hlast, hsecond, hbuf, hpos,
    enqueued, pipes_set_self, hpipe, hqueue]

end WovenHat.Pipes
