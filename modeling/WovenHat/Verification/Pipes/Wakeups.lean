import WovenHat.Library.Always
import WovenHat.Library.Update
import WovenHat.Model.PipeTasks
import WovenHat.Verification.Pipes.Fifo

/-! # Wakeups of pipe readers and writers

A task that blocks on a pipe must be in the list of those that the next change of the pipe
wakes. The lists have a fixed number of places, and a killed task keeps the one it has; a task
that finds no place blocks all the same. -/

namespace WovenHat.Pipes

open Library Function Table Pipe

/-! ## The lists of waiters -/

def HasPlace (slots : Waiters) (task : TaskId) : Prop :=
  ∃ i, slots i = none ∨ slots i = some task

variable {slots : Waiters} {id : Fin maxPipes} {t : Table} {p : Pipe} {status : Status}
  {task : TaskId}

theorem mem_listed : task ∈ listed slots ↔ ∃ i, slots i = some task := by
  simp [listed]

theorem pushWaiter_cases (slots : Waiters) (id : TaskId) :
    (∃ i, (slots i = none ∨ slots i = some id) ∧ pushWaiter slots id = update slots i (some id)) ∨
    ¬HasPlace slots id ∧ pushWaiter slots id = slots := by
  unfold pushWaiter
  split
  · rename_i i hfind
    exact .inl ⟨i, by simpa using List.find?_some hfind, rfl⟩
  rename_i hfind
  refine .inr ⟨fun ⟨i, hi⟩ => ?_, rfl⟩
  exact absurd hi (by simpa using List.find?_eq_none.mp hfind i (List.mem_finRange i))

/-- A task is listed after `push_waiter` if it was before, or if it has found a place. -/
theorem mem_listed_pushWaiter {id : TaskId} : task ∈ listed (pushWaiter slots id) ↔
      task ∈ listed slots ∨ task = id ∧ HasPlace slots id := by
  rw [mem_listed, mem_listed]
  obtain ⟨i, hplace, hpush⟩ | ⟨hfull, hpush⟩ := pushWaiter_cases slots id
  · rw [hpush]
    constructor
    · rintro ⟨j, hj⟩
      obtain ⟨rfl, hself⟩ | ⟨-, hj⟩ := update_eq_iff.mp hj
      · cases hself
        exact .inr ⟨rfl, j, hplace⟩
      · exact .inl ⟨j, hj⟩
    rintro (⟨j, hj⟩ | ⟨rfl, -⟩)
    · by_cases hji : j = i
      · subst hji
        refine ⟨j, ?_⟩
        rw [update_self]
        cases hplace with
        | inl hnone =>
          rw [hnone] at hj
          cases hj
        | inr hsome => exact hsome.symm.trans hj
      · exact ⟨j, by rw [update_of_ne hji, hj]⟩
    · exact ⟨i, update_self ..⟩
  · rw [hpush]
    constructor
    · exact .inl
    rintro (h | ⟨-, h⟩)
    · exact h
    · exact absurd h hfull

theorem self_mem_listed_pushWaiter :
    task ∈ listed (pushWaiter slots task) ↔ HasPlace slots task := by
  rw [mem_listed_pushWaiter]
  constructor
  · rintro (h | ⟨-, h⟩)
    · obtain ⟨i, hi⟩ := mem_listed.mp h
      exact ⟨i, .inr hi⟩
    · exact h
  · exact fun h => .inr ⟨rfl, h⟩

/-! ## Blocked tasks -/

/-- A reader may wait at this pipe: it is empty, has a writer, and knows the task. -/
structure Pipe.ReaderWaits (p : Pipe) (task : TaskId) : Prop where
  empty : p.len = 0
  writer : 0 < p.writers
  mem : task ∈ listed p.readWaiters

/-- A writer may wait at this pipe: it is full, has a reader, and knows the task. -/
structure Pipe.WriterWaits (p : Pipe) (task : TaskId) : Prop where
  full : pipeBuffer ≤ p.len
  reader : 0 < p.readers
  mem : task ∈ listed p.writeWaiters

/-- If the task is blocked, then for a reason that the table knows. -/
def Waits (t : Table) (task : TaskId) : Status → Prop
  | .reading id _ true => (t.pipes id).ReaderWaits task
  | .writing id _ true => (t.pipes id).WriterWaits task
  | _ => True

/-- If a reader must block at this pipe, then there is a place for it in the list. -/
def Pipe.ReaderFindsPlace (p : Pipe) (task : TaskId) : Prop :=
  p.len = 0 → 0 < p.writers → HasPlace p.readWaiters task

/-- If a writer must block at this pipe, since not all of its bytes fit, then there is a place for
it in the list. -/
def Pipe.WriterFindsPlace (p : Pipe) (task : TaskId) (rest : List UInt8) : Prop :=
  0 < p.readers → pipeBuffer < p.len + rest.length → HasPlace p.writeWaiters task

theorem waits_wake (t : Table) (task : TaskId) (status : Status) : Waits t task status.wake := by
  cases status <;> trivial

/-- A change of the table after which the tasks in `woken` are woken and the others may wait as
before. -/
def Table.Keeps (t t' : Table) (woken : List TaskId) : Prop :=
  ∀ task status, task ∉ woken → Waits t task status → Waits t' task status

theorem Table.Keeps.refl (t : Table) (woken : List TaskId) : t.Keeps t woken :=
  fun _ _ _ h => h

theorem Table.pipes_set (t : Table) (id i : Fin maxPipes) (p : Pipe) :
    (t.set id p).pipes i = if i = id then p else t.pipes i := by
  simp [set, update_apply]

theorem Table.Keeps.set {woken : List TaskId}
    (hreaders : ∀ task, task ∉ woken → (t.pipes id).ReaderWaits task → p.ReaderWaits task)
    (hwriters : ∀ task, task ∉ woken → (t.pipes id).WriterWaits task → p.WriterWaits task) :
    t.Keeps (t.set id p) woken := by
  intro task status hwoken h
  cases status with
  | idle => trivial
  | dead => trivial
  | reading i room blocked =>
    cases blocked with
    | false => trivial
    | true =>
      change ((t.set id p).pipes i).ReaderWaits task
      rw [pipes_set]
      split
      · rename_i hi
        subst hi
        exact hreaders task hwoken h
      · exact h
  | writing i rest blocked =>
    cases blocked with
    | false => trivial
    | true =>
      change ((t.set id p).pipes i).WriterWaits task
      rw [pipes_set]
      split
      · rename_i hi
        subst hi
        exact hwriters task hwoken h
      · exact h

def Table.Valid (t : Table) : Prop :=
  ∀ id, (t.pipes id).Valid

theorem Table.Valid.set (h : t.Valid) (hp : p.Valid) : (t.set id p).Valid := by
  intro i
  rw [pipes_set]
  split
  · exact hp
  · exact h i

theorem Table.Valid.step (h : t.Valid) (op : Op) : (t.step op).2.Valid := by
  have hrecorded : Recorded (t, ⟨fun id =>
      if hid : id < maxPipes then (t.pipes ⟨id, hid⟩).queue else [], fun _ => [], fun _ => 0, fun _ => 0⟩) := by
    intro slot
    refine .of_rest (h slot) ?_
    simp
  exact fun id => (hrecorded.step op id).valid

theorem Table.find_slot (t : Table) (id : Fin maxPipes) :
    t.find id = if (t.pipes id).occupied then .ok id else .error .invalid := by
  simp [find, slot?]

theorem Pipe.fill_len (p : Pipe) (buf : List UInt8) :
    (p.fill buf).1.len = p.len + min buf.length (pipeBuffer - p.len) ∧
      (p.fill buf).1.readers = p.readers ∧ (p.fill buf).1.writers = p.writers ∧
      (p.fill buf).1.occupied = p.occupied := by
  induction buf generalizing p with
  | nil => simp [fill]
  | cons byte rest ih =>
    by_cases hroom : p.len < pipeBuffer
    · obtain ⟨hlen, hends⟩ := ih (p.put byte)
      have hput : (p.put byte).len = p.len + 1 := rfl
      rw [hput] at hlen
      rw [fill, if_pos hroom]
      refine ⟨?_, hends⟩
      simp only [List.length_cons]
      omega
    · rw [fill, if_neg hroom]
      refine ⟨?_, rfl, rfl, rfl⟩
      simp only
      omega

inductive Table.ReadCase (t : Table) (id : Fin maxPipes) (room : ℕ) : Prop where
  | unused (e : Error) (hocc : (t.pipes id).occupied = false)
      (h : t.tryRead id room = (.error e, t))
  | ended (hwriters : (t.pipes id).writers = 0)
      (h : t.tryRead id room = (.ok ([], false, true), t))
  | empty (hocc : (t.pipes id).occupied = true) (hlen : (t.pipes id).len = 0)
      (hwriters : 0 < (t.pipes id).writers) (h : t.tryRead id room = (.ok ([], true, false), t))
  | data (hocc : (t.pipes id).occupied = true) (hlen : (t.pipes id).len ≠ 0)
      (h : t.tryRead id room = (.ok (((t.pipes id).drain room).2, false, false),
        t.set id ((t.pipes id).drain room).1))

theorem Table.readCase (t : Table) (id : Fin maxPipes) (room : ℕ) : t.ReadCase id room := by
  cases hocc : (t.pipes id).occupied with
  | false => exact .unused .invalid hocc (by simp [tryRead, find_slot, hocc])
  | true =>
    by_cases hlen : (t.pipes id).len = 0
    · by_cases hwriters : (t.pipes id).writers = 0
      · exact .ended hwriters (by simp [tryRead, find_slot, hocc, hlen, hwriters])
      · refine .empty hocc hlen (Nat.pos_of_ne_zero hwriters) ?_
        simp [tryRead, find_slot, hocc, hlen, hwriters]
    · exact .data hocc hlen (by simp [tryRead, find_slot, hocc, hlen])

inductive Table.WriteCase (t : Table) (id : Fin maxPipes) (buf : List UInt8) : Prop where
  | refused (e : Error) (hclosed : (t.pipes id).occupied = true → (t.pipes id).readers = 0)
      (h : t.tryWrite id buf = (.error e, t))
  | full (hocc : (t.pipes id).occupied = true) (hlen : pipeBuffer ≤ (t.pipes id).len)
      (hreaders : 0 < (t.pipes id).readers) (h : t.tryWrite id buf = (.ok (0, true), t))
  | room (hocc : (t.pipes id).occupied = true) (hlen : (t.pipes id).len < pipeBuffer)
      (hreaders : 0 < (t.pipes id).readers) (hwritten : 0 < ((t.pipes id).fill buf).2)
      (h : t.tryWrite id buf = (.ok (((t.pipes id).fill buf).2, false),
        t.set id ((t.pipes id).fill buf).1))

theorem Table.writeCase (hvalid : t.Valid) (id : Fin maxPipes) {buf : List UInt8}
    (hbuf : buf ≠ []) : t.WriteCase id buf := by
  cases hocc : (t.pipes id).occupied with
  | false => exact .refused .invalid (by simp [hocc]) (by simp [tryWrite, find_slot, hocc])
  | true =>
    by_cases hreaders : (t.pipes id).readers = 0
    · exact .refused .closed (fun _ => hreaders) (by simp [tryWrite, find_slot, hocc, hreaders])
    obtain ⟨_, hsame, hcount, _⟩ := fill_spec (hvalid id).ring buf
    have hpos : 0 < buf.length := List.length_pos_iff.mpr hbuf
    by_cases hlen : (t.pipes id).len < pipeBuffer
    · have hwritten : 0 < ((t.pipes id).fill buf).2 := by
        omega
      refine .room hocc hlen (Nat.pos_of_ne_zero hreaders) hwritten ?_
      simp [tryWrite, find_slot, hocc, hreaders, hwritten.ne']
    have hfill : (t.pipes id).fill buf = (t.pipes id, 0) := by
      cases buf with
      | nil => rfl
      | cons byte rest => rw [fill, if_neg hlen]
    refine .full hocc (Nat.not_lt.mp hlen) (Nat.pos_of_ne_zero hreaders) ?_
    simp [tryWrite, find_slot, hocc, hreaders, hfill, hpos, set,
      Nat.pos_of_ne_zero hreaders]

theorem Pipe.Valid.occupied_of_reader (h : p.Valid)
    (hwaits : p.ReaderWaits task) : p.occupied = true := by
  have hends := mt h.reusable.mp fun hends => hwaits.writer.ne' hends.2
  simpa using hends

theorem Pipe.Valid.occupied_of_writer (h : p.Valid)
    (hwaits : p.WriterWaits task) : p.occupied = true := by
  have hends := mt h.reusable.mp fun hends => hwaits.reader.ne' hends.1
  simpa using hends

/-! ## What the operations on the table do to waiting tasks -/

namespace Table

variable {t : Table}

theorem keeps_alloc (h : t.Valid) : t.Keeps t.alloc.2 [] := by
  unfold alloc
  split
  · rename_i id hfind
    have hfree : (t.pipes id).occupied = false := by
      simpa using List.find?_some hfind
    exact .set (fun task _ hwaits => nomatch hfree.symm.trans ((h id).occupied_of_reader hwaits))
      fun task _ hwaits => nomatch hfree.symm.trans ((h id).occupied_of_writer hwaits)
  · exact .refl t []

theorem keeps_cloneEnd (fd : PipeEnd) : t.Keeps (System.cloneEnd t fd).2 [] := by
  have hmax : 0 < u32Max := by decide
  cases fd with
  | pipeRead id =>
    simp only [System.cloneEnd, cloneReader, cloneEnd, find_slot]
    split
    · exact .refl t []
    rename_i slot hfind
    split at hfind
    · cases hfind
      refine .set (fun _ _ hwaits => ⟨hwaits.empty, hwaits.writer, hwaits.mem⟩)
        fun _ _ hwaits => ⟨hwaits.full, ?_, hwaits.mem⟩
      exact Nat.lt_min.mpr ⟨Nat.succ_pos _, hmax⟩
    · cases hfind
  | pipeWrite id =>
    simp only [System.cloneEnd, cloneWriter, cloneEnd, find_slot]
    split
    · exact .refl t []
    rename_i slot hfind
    split at hfind
    · cases hfind
      refine .set (fun _ _ hwaits => ⟨hwaits.empty, ?_, hwaits.mem⟩)
        fun _ _ hwaits => ⟨hwaits.full, hwaits.reader, hwaits.mem⟩
      exact Nat.lt_min.mpr ⟨Nat.succ_pos _, hmax⟩
    · cases hfind

theorem keeps_closeReader (id : Fin maxPipes) :
    t.Keeps (t.closeReader id).2 (t.closeReader id).1 := by
  unfold closeReader
  rw [find_slot]
  split
  · exact .refl t _
  rename_i slot hfind
  split at hfind
  · cases hfind
    refine .set (fun task _ hwaits => ?_) fun task hwoken hwaits => absurd hwaits.mem hwoken
    rw [settle, if_neg fun hends => hwaits.writer.ne' hends.2]
    exact ⟨hwaits.empty, hwaits.writer, hwaits.mem⟩
  · cases hfind

theorem keeps_closeWriter (id : Fin maxPipes) :
    t.Keeps (t.closeWriter id).2 (t.closeWriter id).1 := by
  unfold closeWriter
  rw [find_slot]
  split
  · exact .refl t _
  rename_i slot hfind
  split at hfind
  · cases hfind
    refine .set (fun task hwoken hwaits => absurd hwaits.mem hwoken) fun task _ hwaits => ?_
    rw [settle, if_neg fun hends => hwaits.reader.ne' hends.1]
    exact ⟨hwaits.full, hwaits.reader, hwaits.mem⟩
  · cases hfind

theorem keeps_pushReader (id : Fin maxPipes) (task : TaskId) :
    t.Keeps (t.pushReader id task) [] := by
  refine .set (fun other _ hwaits => ⟨hwaits.empty, hwaits.writer, ?_⟩)
    fun other _ hwaits => ⟨hwaits.full, hwaits.reader, hwaits.mem⟩
  exact mem_listed_pushWaiter.mpr (.inl hwaits.mem)

theorem keeps_pushWriter (id : Fin maxPipes) (task : TaskId) :
    t.Keeps (t.pushWriter id task) [] := by
  refine .set (fun other _ hwaits => ⟨hwaits.empty, hwaits.writer, hwaits.mem⟩)
    fun other _ hwaits => ⟨hwaits.full, hwaits.reader, ?_⟩
  exact mem_listed_pushWaiter.mpr (.inl hwaits.mem)

/-- Other waiters do not matter for a pipe to be in order. -/
theorem Valid.withWaiters (h : t.Valid) (id : Fin maxPipes) (readWaiters writeWaiters : Waiters) :
    (t.set id { t.pipes id with
      readWaiters := readWaiters, writeWaiters := writeWaiters }).Valid := by
  obtain ⟨⟨hlen, hhead, htail⟩, hreusable⟩ := h id
  exact h.set ⟨⟨hlen, hhead, htail⟩, hreusable⟩

variable {id : Fin maxPipes}

/-- Reading from a pipe with data and waking its writers: no reader waits there. -/
theorem keeps_drained (hlen : (t.pipes id).len ≠ 0) :
    t.Keeps (t.set id p) (listed (t.pipes id).writeWaiters) :=
  .set (fun _ _ hwaits => absurd hwaits.empty hlen) fun _ hwoken hwaits => absurd hwaits.mem hwoken

/-- Writing to a pipe that is not full and waking its readers: no writer waits there. -/
theorem keeps_filled (hlen : (t.pipes id).len < pipeBuffer) :
    t.Keeps (t.set id p) (listed (t.pipes id).readWaiters) :=
  .set (fun _ hwoken hwaits => absurd hwaits.mem hwoken)
    fun _ _ hwaits => absurd hwaits.full (Nat.not_le.mpr hlen)

theorem set_set (t : Table) (id : Fin maxPipes) (p p' : Pipe) :
    (t.set id p).set id p' = t.set id p' := by
  simp [set]

theorem set_self (t : Table) (id : Fin maxPipes) : t.set id (t.pipes id) = t := by
  simp [set]

theorem pipes_set_self (t : Table) (id : Fin maxPipes) (p : Pipe) : (t.set id p).pipes id = p := by
  rw [pipes_set, if_pos rfl]

end Table

/-! ## The state between calls -/

namespace System

/-- No task waits for a wakeup that it will not get. -/
def NoneLost (s : System) : Prop :=
  ∀ task, Waits s.table task (s.status task)

structure Live (s : System) : Prop where
  valid : s.table.Valid
  waits : s.NoneLost

variable {s s' : System} {status : Status} {id : Fin maxPipes} {task : TaskId} {P : Prop}

section Changes

variable {s : System} (h : s.Live)

include h

theorem Live.leave (task : TaskId) : (s.enter task .idle).Live := by
  refine ⟨h.valid, fun other => ?_⟩
  change Waits s.table other (update s.status task .idle other)
  rw [update_apply]
  split
  · trivial
  · exact h.waits other

/-- A change of the table that wakes the right tasks. -/
theorem Live.wakeList {table : Table} {woken : List TaskId} (files : TaskId → List PipeEnd)
    (hvalid : table.Valid) (hkeeps : s.table.Keeps table woken) :
    (wakeList { s with table := table, files := files } woken).Live := by
  refine ⟨hvalid, fun task => ?_⟩
  change Waits table task (if task ∈ woken then (s.status task).wake else s.status task)
  split
  · exact waits_wake ..
  · rename_i hmem
    exact hkeeps task _ hmem (h.waits task)

theorem Live.table {table : Table} (files : TaskId → List PipeEnd) (hvalid : table.Valid)
    (hkeeps : s.table.Keeps table []) : Live { s with table := table, files := files } :=
  ⟨hvalid, fun task => hkeeps task _ List.not_mem_nil (h.waits task)⟩

theorem Live.releaseFd (fd : PipeEnd) : (s.releaseFd fd).Live := by
  cases fd with
  | pipeRead id =>
    exact h.wakeList s.files (h.valid.step (.closeReader id)) (keeps_closeReader id)
  | pipeWrite id =>
    exact h.wakeList s.files (h.valid.step (.closeWriter id)) (keeps_closeWriter id)

theorem Live.releaseFileTable (ends : List PipeEnd) : (s.releaseFileTable ends).Live := by
  induction ends generalizing s with
  | nil => exact h
  | cons fd ends ih => exact ih (h.releaseFd fd)

theorem Live.markDead (targets : List TaskId) : (s.markDead targets).Live := by
  refine ⟨h.valid, fun task => ?_⟩
  change Waits s.table task (if task ∈ targets then .dead else s.status task)
  split
  · trivial
  · exact h.waits task

theorem Live.pipeCurrent (task : TaskId) : (s.pipeCurrent task).Live := by
  have hvalid := h.valid.step .create
  have hkeeps := keeps_alloc h.valid
  rw [Table.step] at hvalid
  unfold System.pipeCurrent
  generalize s.table.alloc = result at *
  obtain ⟨_ | id, table⟩ := result
  · exact h.table _ hvalid hkeeps
  dsimp only
  split
  · exact h.table _ hvalid hkeeps
  · exact h.table _ hvalid hkeeps

theorem Live.cloneEnd (fd : PipeEnd) : (System.cloneEnd s.table fd).2.Valid := by
  cases fd with
  | pipeRead id => exact h.valid.step (.cloneReader id)
  | pipeWrite id => exact h.valid.step (.cloneWriter id)

theorem Live.dupCurrent (task : TaskId) (fd : PipeEnd) : (s.dupCurrent task fd).Live := by
  have hvalid := h.cloneEnd fd
  have hkeeps := keeps_cloneEnd (t := s.table) fd
  unfold System.dupCurrent
  generalize System.cloneEnd s.table fd = result at *
  obtain ⟨_ | _, table⟩ := result
  · exact h.table _ hvalid hkeeps
  · exact h.table _ hvalid hkeeps

theorem Live.cloneFileTable (ends child : List PipeEnd) :
    (s.cloneFileTable ends child).2.Live := by
  induction ends generalizing s child with
  | nil => exact h
  | cons fd ends ih =>
    have hvalid := h.cloneEnd fd
    have hkeeps := keeps_cloneEnd (t := s.table) fd
    have hcloned := h.table s.files hvalid hkeeps
    rw [System.cloneFileTable]
    generalize System.cloneEnd s.table fd = result at *
    obtain ⟨_ | _, table⟩ := result
    · exact hcloned.releaseFileTable child
    · exact ih hcloned _

theorem Live.forkCurrent (task child : TaskId) : (s.forkCurrent task child).Live := by
  have hcloned := h.cloneFileTable (s.files task) []
  unfold System.forkCurrent
  generalize s.cloneFileTable (s.files task) [] = result at *
  obtain ⟨_ | ends, s'⟩ := result
  · exact hcloned
  · exact hcloned.table _ hcloned.valid (.refl _ _)

end Changes

/-! ## The loops of reading and writing -/

/-- The table is in order, and no wakeup is lost exactly under a condition. -/
def LosesNoneIff (s : System) (P : Prop) : Prop :=
  s.table.Valid ∧ (s.NoneLost ↔ P)

theorem Live.losesNone (h : s.Live) (hP : P) : s.LosesNoneIff P :=
  ⟨h.valid, iff_of_true h.waits hP⟩

/-- A task goes to sleep after a change of the table that wakes nobody. -/
theorem Live.block (h : s.Live) {table : Table}
    (hvalid : table.Valid) (hkeeps : s.table.Keeps table [])
    (hself : Waits table task status ↔ P) :
    LosesNoneIff ({ s with table := table }.enter task status) P := by
  refine ⟨hvalid, fun hnone => ?_, fun hP other => ?_⟩
  · have htask : Waits table task (update s.status task status task) := hnone task
    rw [update_self] at htask
    exact hself.mp htask
  · change Waits table other (update s.status task status other)
    by_cases hne : other = task
    · rw [hne, update_self]
      exact hself.mpr hP
    · rw [update_of_ne hne]
      exact (h.table s.files hvalid hkeeps).waits other

theorem Live.block_reading (h : s.Live) (room : ℕ) (hocc : (s.table.pipes id).occupied = true)
    (hlen : (s.table.pipes id).len = 0) (hwriters : 0 < (s.table.pipes id).writers) :
    LosesNoneIff ({ s with table := s.table.pushReader id task }.enter task
      (.reading id room ((s.table.pushReader id task).stillBlockRead id)))
      ((s.table.pipes id).ReaderFindsPlace task) := by
  have hstill : (s.table.pushReader id task).stillBlockRead id = true := by
    simp [stillBlockRead, pushReader, pipes_set_self, hocc, hlen, hwriters]
  rw [hstill]
  refine h.block (h.valid.withWaiters id _ _) (keeps_pushReader id task) ?_
  change Pipe.ReaderWaits _ task ↔ _
  rw [pushReader, pipes_set_self, ReaderFindsPlace, ← self_mem_listed_pushWaiter]
  exact ⟨fun hwaits _ _ => hwaits.mem, fun hmem => ⟨hlen, hwriters, hmem hlen hwriters⟩⟩

theorem Live.block_writing (h : s.Live) {rest : List UInt8} (hrest : rest ≠ [])
    (hocc : (s.table.pipes id).occupied = true)
    (hlen : pipeBuffer ≤ (s.table.pipes id).len) (hreaders : 0 < (s.table.pipes id).readers) :
    LosesNoneIff ({ s with table := s.table.pushWriter id task }.enter task
      (.writing id rest ((s.table.pushWriter id task).stillBlockWrite id)))
      ((s.table.pipes id).WriterFindsPlace task rest) := by
  have hstill : (s.table.pushWriter id task).stillBlockWrite id = true := by
    simp [stillBlockWrite, pushWriter, pipes_set_self, hocc, hlen, hreaders]
  have hmore : pipeBuffer < (s.table.pipes id).len + rest.length := by
    have := List.length_pos_iff.mpr hrest
    omega
  rw [hstill]
  refine h.block (h.valid.withWaiters id _ _) (keeps_pushWriter id task) ?_
  change Pipe.WriterWaits _ task ↔ _
  rw [pushWriter, pipes_set_self, WriterFindsPlace, ← self_mem_listed_pushWaiter]
  exact ⟨fun hwaits _ _ => hwaits.mem, fun hmem => ⟨hlen, hreaders, hmem hreaders hmore⟩⟩

theorem Live.readRound (h : s.Live) (task : TaskId) (id : Fin maxPipes) (room : ℕ) :
    (s.readRound task id room).LosesNoneIff ((s.table.pipes id).ReaderFindsPlace task) := by
  cases s.table.readCase id room with
  | unused e hocc hread =>
    rw [System.readRound, hread]
    refine (h.leave task).losesNone fun _ hwriters => ?_
    exact absurd ((h.valid id).reusable.mp hocc).2 hwriters.ne'
  | ended hwriters hread =>
    rw [System.readRound, hread]
    exact (h.leave task).losesNone fun _ hpos => absurd hwriters hpos.ne'
  | empty hocc hlen hwriters hread =>
    rw [System.readRound, hread]
    exact h.block_reading room hocc hlen hwriters
  | data hocc hlen hread =>
    have hfinds : (s.table.pipes id).ReaderFindsPlace task := fun hempty => absurd hempty hlen
    obtain ⟨hring, hsame, _⟩ := drain_spec (h.valid id).ring room
    rw [System.readRound, hread]
    by_cases hbytes : ((s.table.pipes id).drain room).2 = []
    · -- only a buffer without room takes nothing from a pipe with data
      cases room with
      | zero =>
        simp only [drain, set_self]
        exact (h.leave task).losesNone hfinds
      | succ room => simp [drain, Nat.pos_of_ne_zero hlen] at hbytes
    · have hdrained := (h.valid id).of_sameEnds hring hsame
      simp only [Bool.false_eq_true, if_false, ne_eq, hbytes, not_false_eq_true, if_true,
        takeWriters, pipes_set_self, set_set, hsame.writeWaiters]
      refine ((h.wakeList s.files (h.valid.set ?_) (keeps_drained hlen)).leave task).losesNone
        hfinds
      exact ⟨⟨hdrained.ring.len_le, hdrained.ring.head_lt, hdrained.ring.tail_eq⟩,
        hdrained.reusable⟩

theorem Live.fill (h : s.Live) (buf : List UInt8) (hlen : (s.table.pipes id).len < pipeBuffer) :
    Live ({ s with
      table := ((s.table.set id ((s.table.pipes id).fill buf).1).takeReaders id).2 }.wakeList
        ((s.table.set id ((s.table.pipes id).fill buf).1).takeReaders id).1) := by
  obtain ⟨hring, hsame, _⟩ := fill_spec (h.valid id).ring buf
  have hfilled := (h.valid id).of_sameEnds hring hsame
  simp only [takeReaders, pipes_set_self, set_set, hsame.readWaiters]
  refine h.wakeList s.files (h.valid.set ?_) (keeps_filled hlen)
  exact ⟨⟨hfilled.ring.len_le, hfilled.ring.head_lt, hfilled.ring.tail_eq⟩, hfilled.reusable⟩

/-- Writing a part of the bytes does not change whether the rest of them fits. -/
theorem writerFindsPlace_fill (task : TaskId) (hring : p.RingOk) (rest : List UInt8)
    (slots : Waiters) :
    { (p.fill rest).1 with readWaiters := slots }.WriterFindsPlace task
      (rest.drop (p.fill rest).2) ↔ p.WriterFindsPlace task rest := by
  obtain ⟨-, hsame, hcount, -⟩ := fill_spec hring rest
  have hlen := (p.fill_len rest).1
  have htotal : (p.fill rest).1.len + (rest.drop (p.fill rest).2).length = p.len + rest.length := by
    rw [List.length_drop]
    omega
  simp only [WriterFindsPlace, htotal, hsame.readers, hsame.writeWaiters]

/-- The loop ends idle, or asleep with the bytes that did not fit. As many rounds as bytes are
enough, since every round but the last one writes something. -/
theorem Live.writeLoop {rounds : ℕ} (h : s.Live) {rest : List UInt8} (hrest : rest = [] → rounds = 0)
    (hrounds : rest.length ≤ rounds) : (writeLoop task id rounds s rest).LosesNoneIff
      ((s.table.pipes id).WriterFindsPlace task rest) := by
  have hle := (h.valid id).ring.len_le
  induction rounds generalizing s rest with
  | zero =>
    refine (h.leave task).losesNone fun _ hmore => ?_
    omega
  | succ rounds ih =>
    have hbuf : rest ≠ [] := fun hnil => Nat.succ_ne_zero _ (hrest hnil)
    cases s.table.writeCase h.valid id hbuf with
    | refused e hclosed hwrite =>
      rw [System.writeLoop, hwrite]
      refine (h.leave task).losesNone fun hreaders => ?_
      have hocc : (s.table.pipes id).occupied = true := by
        by_contra hfree
        exact hreaders.ne' ((h.valid id).reusable.mp (by simpa using hfree)).1
      exact absurd (hclosed hocc) hreaders.ne'
    | full hocc hlen hreaders hwrite =>
      rw [System.writeLoop, hwrite]
      simp only [if_true, lt_self_iff_false, if_false, List.drop_zero, hbuf]
      exact h.block_writing hbuf hocc hlen hreaders
    | room _ hlen _ hwritten hwrite =>
      have hfill := h.fill rest hlen
      have hplace := writerFindsPlace_fill task (h.valid id).ring rest noWaiters
      rw [System.writeLoop, hwrite]
      simp only [Bool.false_eq_true, if_false, hwritten, if_true, hwritten.ne']
      have hleft : (rest.drop ((s.table.pipes id).fill rest).2).length ≤ rounds := by
        rw [List.length_drop]
        omega
      split
      · rename_i hdone
        refine (hfill.leave task).losesNone (hplace.mp fun _ hmore => ?_)
        rw [hdone] at hmore
        exact absurd hmore (Nat.not_lt.mpr (fill_spec (h.valid id).ring rest).1.len_le)
      · rename_i hmore
        have hnext := ih hfill (fun hnil => absurd hnil hmore) hleft (hfill.valid id).ring.len_le
        simp only [System.wakeList, takeReaders, pipes_set_self] at hnext ⊢
        rwa [hplace] at hnext

/-! ## Runs -/

/-- If the call blocks its task, then the task finds a place in the list of its pipe. -/
def FindsPlace (s : System) : Call → Prop
  | .read task id room => room ≠ 0 → (s.table.pipes id).ReaderFindsPlace task
  | .write task id buf => (s.table.pipes id).WriterFindsPlace task buf
  | .resume task =>
    match s.status task with
    | .reading id _ false => (s.table.pipes id).ReaderFindsPlace task
    | .writing id rest false => (s.table.pipes id).WriterFindsPlace task rest
    | _ => True
  | _ => True

/-- A call keeps the table in order, and loses no wakeup if and only if its task finds a place,
should it block. -/
theorem Live.step (h : s.Live) {call : Call} (hstep : s.step call = some s') :
    s'.LosesNoneIff (s.FindsPlace call) := by
  unfold System.step at hstep
  cases call with
  | pipe task =>
    dsimp only at hstep
    split at hstep
    · cases hstep
      exact (h.pipeCurrent task).losesNone trivial
    · cases hstep
  | dup task fd =>
    dsimp only at hstep
    split at hstep
    · cases hstep
      exact (h.dupCurrent task fd).losesNone trivial
    · cases hstep
  | fork task child =>
    dsimp only at hstep
    split at hstep
    · cases hstep
      exact (h.forkCurrent task child).losesNone trivial
    · cases hstep
  | close task fd =>
    dsimp only at hstep
    split at hstep
    · cases hstep
      exact ((h.table _ h.valid (.refl _ _)).releaseFd fd).losesNone trivial
    · cases hstep
  | read task id room =>
    dsimp only at hstep
    split at hstep
    · cases hstep
      by_cases hroom : room = 0
      · rw [if_pos hroom]
        exact h.losesNone fun hne => absurd hroom hne
      · rw [if_neg hroom]
        have hread := h.readRound task id room
        exact ⟨hread.1, hread.2.trans ⟨fun hplace _ => hplace, fun hplace => hplace hroom⟩⟩
    · cases hstep
  | write task id buf =>
    dsimp only at hstep
    split at hstep
    · cases hstep
      split
      · rename_i hnil
        refine h.losesNone fun _ hmore => ?_
        have := (h.valid id).ring.len_le
        rw [hnil, List.length_nil] at hmore
        omega
      · rename_i hbuf
        exact h.writeLoop (fun hnil => absurd hnil hbuf) (le_refl _)
    · cases hstep
  | resume task =>
    dsimp only at hstep
    split at hstep
    · rename_i id room htask
      cases hstep
      simp only [FindsPlace, htask]
      exact h.readRound task id room
    · rename_i id rest htask
      cases hstep
      simp only [FindsPlace, htask]
      exact h.writeLoop (fun hnil => by rw [hnil]; rfl) (le_refl _)
    · cases hstep
  | kill targets =>
    cases hstep
    exact ((h.releaseFileTable _).markDead targets).losesNone trivial

theorem live_new : Live .new :=
  ⟨fun _ => valid_empty, fun _ => trivial⟩

/-- In every state of a run the blocked tasks wait rightly, readers in the list of an empty pipe
with a writer and writers in the list of a full pipe with a reader, if and only if every task
that must block during the run finds a place in the list of its pipe. -/
theorem none_lost_iff (calls : List Call) : Always step (fun _ _ s' => s'.NoneLost) .new calls ↔
      Always step (fun s call _ => s.FindsPlace call) .new calls :=
  Always.congr live_new (fun _ _ _ h hstep => (h.step hstep).2)
    (fun _ _ _ h hstep hnone => ⟨(h.step hstep).1, hnone⟩) calls

/-! ## A reader that no writer wakes -/

def firstPipe : Fin maxPipes := ⟨0, by decide⟩

/-- A child of task 1 inherits the read end, blocks, and is killed. -/
def killedReader (task : TaskId) : List Call :=
  [.fork 1 task, .read task firstPipe 1, .kill [task]]

/-- Task 0 writes to task 1, whose children are killed while they wait for the pipe, as many as
the list has places. Then task 1 blocks itself, and task 0 writes a byte. -/
def forgottenReader : List Call :=
  [.pipe 0, .fork 0 1, .close 1 (.pipeWrite firstPipe)] ++
    ((List.range maxWaiters).map (· + 2)).flatMap killedReader ++
    [.read 1 firstPipe 1, .write 0 firstPipe [7]]

/-- Task 1 sleeps at a pipe with a byte in it, and is in no list. -/
theorem reader_forgotten : (runAll step .new forgottenReader).status 1 = .reading firstPipe 1 true ∧
    ((runAll step .new forgottenReader).table.pipes firstPipe).len = 1 ∧
    1 ∉ listed ((runAll step .new forgottenReader).table.pipes firstPipe).readWaiters := by
  decide +kernel

end System

end WovenHat.Pipes
