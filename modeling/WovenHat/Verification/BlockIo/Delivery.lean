import WovenHat.Library.Always
import WovenHat.Library.Update
import WovenHat.Model.BlockIo

/-! # Delivery of block requests

Every request that was submitted is in its slot, with its task waiting for it, until its result
has been collected; it is executed at most once, and its task gets what came out. -/

namespace WovenHat.BlockIo

open Library Block Function List Queue

/-! ## The queue -/

namespace Queue

variable {q q' : Queue} {slot : Fin maxRequests}

theorem entries_set (q : Queue) (slot : Fin maxRequests) (entry : Option Request)
    (i : Fin maxRequests) :
    (q.set slot entry).entries i = if i = slot then entry else q.entries i :=
  update_apply _ _ _ _

variable {id : ℕ} {r : Request}

theorem push_eq_some {operation : Operation} {lba : ℕ} {data : Sector}
    (h : q.push operation lba data = (some (slot, id), q')) :
    q.entries slot = none ∧ id = q.nextId ∧
      q' = { q.set slot (some (.pending q.nextId operation lba data)) with
        nextId := max ((q.nextId + 1) % 2 ^ 64) 1 } := by
  unfold push at h
  split at h
  · cases h
  rename_i slot' hfree
  cases h
  exact ⟨Option.isNone_iff_eq_none.mp (by simpa using find?_some hfree), rfl, rfl⟩

theorem takePending_eq_some {work : WorkItem} (h : q.takePending = (some work, q')) :
    ∃ r, q.entries work.slot = some r ∧ r.state = .pending ∧
      work.request = { r with state := .inProgress } ∧
      q' = q.set work.slot (some work.request) := by
  unfold takePending at h
  split at h
  · rename_i work' hfound
    cases h
    obtain ⟨slot, _, hslot⟩ := exists_of_findSome?_eq_some hfound
    unfold pendingAt at hslot
    split at hslot
    · rename_i r hr
      split at hslot
      · rename_i hpending
        cases hslot
        exact ⟨r, hr, hpending, rfl, rfl⟩
      · cases hslot
    · cases hslot
  · cases h

theorem takePending_of_pending (hslot : q.entries slot = some r) (hstate : r.state = .pending) :
    ∃ work, q.takePending = (some work, q.set work.slot (some work.request)) := by
  unfold takePending
  cases hfound : (finRange maxRequests).findSome? q.pendingAt with
  | some work => exact ⟨work, rfl⟩
  | none =>
    have hnone := findSome?_eq_none_iff.mp hfound slot (mem_finRange slot)
    simp [pendingAt, hslot, hstate] at hnone

theorem finish_eq (hslot : q.entries slot = some r) (hstate : r.state = .inProgress)
    (result : Except Error Unit) (data : Sector) : q.finish slot r.id result data =
      q.set slot (some { r with data, result, state := .complete }) := by
  simp only [finish, hslot, hstate, and_self, if_true]

theorem completeAt_eq_some {found : Fin maxRequests × Request} : q.completeAt id slot = some found ↔
      found.1 = slot ∧ q.entries slot = some found.2 ∧ found.2.id = id ∧
        found.2.state = .complete := by
  unfold completeAt
  constructor
  · intro h
    split at h
    · rename_i r hr
      split at h
      · cases h
      rename_i hmatch
      simp only [ne_eq, not_or, not_not] at hmatch
      cases h
      exact ⟨rfl, hr, hmatch.1, hmatch.2⟩
    · cases h
  · rintro ⟨rfl, hr, hid, hstate⟩
    simp [hr, hid, hstate]

def copied (result : Except Error Unit) (data : Sector) (output : Bool) : Option Sector :=
  match result with
  | .ok _ => if output then some data else none
  | .error _ => none

theorem takeResult_eq_some {output : Bool} {result : Except Error Unit}
    {data : Option Sector} (h : q.takeResult id output = (some (result, data), q')) :
    ∃ slot r, q.entries slot = some r ∧ r.id = id ∧ r.state = .complete ∧ result = r.result ∧
      data = copied r.result r.data output ∧ q' = q.set slot none := by
  unfold takeResult at h
  split at h
  · cases h
  rename_i slot r hfound
  cases h
  obtain ⟨slot', _, hslot⟩ := exists_of_findSome?_eq_some hfound
  obtain ⟨hsame, hr, hid, hstate⟩ := completeAt_eq_some.mp hslot
  cases hsame
  exact ⟨slot, r, hr, hid, hstate, rfl, rfl, rfl⟩

theorem takeResult_of_complete (hslot : q.entries slot = some r) (hstate : r.state = .complete)
    (output : Bool) : ∃ result data q', q.takeResult r.id output = (some (result, data), q') := by
  unfold takeResult
  cases hfound : (finRange maxRequests).findSome? (q.completeAt r.id) with
  | some found => exact ⟨_, _, _, rfl⟩
  | none =>
    have hnone := findSome?_eq_none_iff.mp hfound slot (mem_finRange slot)
    have hat : q.completeAt r.id slot = some (slot, r) :=
      completeAt_eq_some.mpr ⟨rfl, hslot, rfl, hstate⟩
    rw [hat] at hnone
    cases hnone

end Queue

/-! ## The invariant -/

namespace System

def executedIds (s : System) : List ℕ := s.executed.map Execution.id

def deliveredIds (s : System) : List ℕ := s.delivered.map Delivery.id

/-- The request of a slot is what its task has submitted, and its task waits for it. -/
structure Live (s : System) (slot : Fin maxRequests) (r : Request) (sub : Submission) : Prop where
  id_eq : sub.id = r.id
  slot_eq : sub.slot = slot
  operation_eq : sub.operation = r.operation
  lba_eq : sub.lba = r.lba
  waits : s.waiting sub.task = some (r.id, decide (sub.operation = .read))
  fresh : r.id ∉ s.deliveredIds
  data_eq : r.state ≠ .complete → r.data = sub.data
  pending : r.state = .pending → r.id ∉ s.executedIds
  inProgress : r.state = .inProgress → s.worker = .taken ⟨slot, r⟩ ∨
    ∃ result data, s.worker = .executed ⟨slot, r⟩ result data
  complete : r.state = .complete →
    (⟨r.id, r.operation, r.lba, sub.data, r.result, r.data⟩ : Execution) ∈ s.executed

/-- The worker has a copy of a request in progress. -/
def Holds (s : System) (work : WorkItem) : Prop :=
  s.queue.entries work.slot = some work.request ∧ work.request.state = .inProgress

/-- What came out of an execution is with the worker or in the slot of the request. -/
def HoldsResult (s : System) (x : Execution) : Prop :=
  (∃ work, s.worker = .executed work x.result x.output ∧ work.request.id = x.id) ∨
    ∃ slot r, s.queue.entries slot = some r ∧ r.id = x.id ∧ r.state = .complete ∧
      r.result = x.result ∧ r.data = x.output

/-- The result of an execution reaches the task that has submitted the request. -/
structure Answers (sub : Submission) (x : Execution) (d : Delivery) : Prop where
  task_eq : d.task = sub.task
  id_eq : d.id = sub.id
  executed_eq : d.id = x.id
  result_eq : d.result = x.result
  copied_eq : d.copied = Queue.copied x.result x.output (decide (sub.operation = .read))

structure Executes (sub : Submission) (x : Execution) : Prop where
  id_eq : x.id = sub.id
  operation_eq : x.operation = sub.operation
  lba_eq : x.lba = sub.lba
  data_eq : x.data = sub.data

structure Inv (s : System) : Prop where
  ids : s.submitted.map Submission.id = range' 1 s.submitted.length
  next : s.submitted.length + 1 < 2 ^ 64 → s.queue.nextId = s.submitted.length + 1
  live : ∀ slot r, s.queue.entries slot = some r → ∃ sub ∈ s.submitted, s.Live slot r sub
  kept : ∀ sub ∈ s.submitted, sub.id ∈ s.deliveredIds ∨
    ∃ r, s.queue.entries sub.slot = some r ∧ r.id = sub.id
  waiting : ∀ task id output, s.waiting task = some (id, output) →
    id ∉ s.deliveredIds ∧ ∃ sub ∈ s.submitted, sub.task = task ∧ sub.id = id ∧
      output = decide (sub.operation = .read)
  taken : ∀ work, s.worker = .taken work → s.Holds work ∧ work.request.id ∉ s.executedIds
  executing : ∀ work result data, s.worker = .executed work result data → s.Holds work ∧
    (⟨work.request.id, work.request.operation, work.request.lba, work.request.data, result,
      data⟩ : Execution) ∈ s.executed
  executed_once : s.executedIds.Nodup
  executed_from : ∀ x ∈ s.executed, ∃ sub ∈ s.submitted, Executes sub x
  held : ∀ x ∈ s.executed, x.id ∈ s.deliveredIds ∨ s.HoldsResult x
  delivered_once : s.deliveredIds.Nodup
  delivered_from : ∀ d ∈ s.delivered, ∃ sub ∈ s.submitted, ∃ x ∈ s.executed, Answers sub x d

theorem inv_new : new.Inv where
  ids := rfl
  next _ := rfl
  live _ _ h := absurd h (Option.some_ne_none _).symm
  kept _ h := absurd h not_mem_nil
  waiting _ _ _ h := absurd h (Option.some_ne_none _).symm
  taken _ h := Worker.noConfusion h
  executing _ _ _ h := Worker.noConfusion h
  executed_once := nodup_nil
  executed_from _ h := absurd h not_mem_nil
  held _ h := absurd h not_mem_nil
  delivered_once := nodup_nil
  delivered_from _ h := absurd h not_mem_nil

namespace Inv

variable {s : System} (h : s.Inv)

include h

theorem submission_unique {sub sub' : Submission} (hsub : sub ∈ s.submitted)
    (hsub' : sub' ∈ s.submitted) (hid : sub.id = sub'.id) : sub = sub' := by
  refine inj_on_of_nodup_map ?_ hsub hsub' hid
  rw [h.ids]
  exact nodup_range'

theorem slot_unique {i j : Fin maxRequests} {r r' : Request} (hi : s.queue.entries i = some r)
    (hj : s.queue.entries j = some r') (hid : r.id = r'.id) : i = j := by
  obtain ⟨sub, hsub, hlive⟩ := h.live i r hi
  obtain ⟨sub', hsub', hlive'⟩ := h.live j r' hj
  have heq := h.submission_unique hsub hsub' (by rw [hlive.id_eq, hlive'.id_eq, hid])
  rw [← hlive.slot_eq, ← hlive'.slot_eq, heq]

theorem id_le {sub : Submission} (hsub : sub ∈ s.submitted) : sub.id ≤ s.submitted.length := by
  have hmem : sub.id ∈ range' 1 s.submitted.length := by
    rw [← h.ids]
    exact mem_map_of_mem hsub
  have := mem_range'_1.mp hmem
  omega

theorem executed_le {id : ℕ} (hid : id ∈ s.executedIds) : id ≤ s.submitted.length := by
  obtain ⟨x, hx, rfl⟩ := mem_map.mp hid
  obtain ⟨sub, hsub, hexec⟩ := h.executed_from x hx
  rw [hexec.id_eq]
  exact h.id_le hsub

theorem delivered_le {id : ℕ} (hid : id ∈ s.deliveredIds) : id ≤ s.submitted.length := by
  obtain ⟨d, hd, rfl⟩ := mem_map.mp hid
  obtain ⟨sub, hsub, _, _, hanswers⟩ := h.delivered_from d hd
  rw [hanswers.id_eq]
  exact h.id_le hsub

end Inv

/-! ## One step -/

section Steps

variable {s : System} (h : s.Inv)

include h

theorem Inv.submit {task : ℕ} (hidle : s.waiting task = none) (operation : Operation) (lba : ℕ)
    (input : Option Sector) (hbound : (s.submit task operation lba input).submitted.length < 2 ^ 64)
    : (s.submit task operation lba input).Inv := by
  rcases hpush : s.queue.push operation lba (input.getD Buffer.zero) with ⟨_ | ⟨slot, id⟩, queue⟩
  · simp only [System.submit, hpush]
    exact h
  simp only [System.submit, hpush, length_append, length_singleton] at hbound ⊢
  obtain ⟨hfree, hid, hqueue⟩ := push_eq_some hpush
  have hnext := h.next hbound
  rw [hnext] at hid
  subst hid
  have hentries : ∀ i, queue.entries i = if i = slot
      then some (.pending (s.submitted.length + 1) operation lba (input.getD Buffer.zero))
      else s.queue.entries i := by
    intro i
    rw [hqueue, hnext]
    exact entries_set _ _ _ i
  have hother : ∀ {i r}, s.queue.entries i = some r → queue.entries i = some r := by
    intro i r hi
    have hne : i ≠ slot := by
      rintro rfl
      rw [hfree] at hi
      cases hi
    rw [hentries, if_neg hne]
    exact hi
  refine ⟨?_, ?_, ?_, ?_, ?_, ?_, ?_, h.executed_once, ?_, ?_, h.delivered_once, ?_⟩
  · rw [map_append, h.ids, length_append, length_singleton, range'_concat]
    simp [Nat.add_comm]
  · intro hlt
    simp only [length_append, length_singleton] at hlt ⊢
    rw [hqueue, hnext]
    change max ((s.submitted.length + 1 + 1) % 2 ^ 64) 1 = _
    rw [Nat.mod_eq_of_lt hlt]
    omega
  · intro i r hi
    rw [hentries] at hi
    split at hi
    · rename_i heq
      cases hi
      refine ⟨_, mem_append_right _ mem_cons_self, ⟨rfl, heq.symm, rfl, rfl, ?_, ?_,
        fun _ => rfl, fun _ => ?_, nofun,
        nofun⟩⟩
      · exact update_self _ _ _
      · intro hmem
        have := h.delivered_le hmem
        change s.submitted.length + 1 ≤ _ at this
        omega
      · intro hmem
        have := h.executed_le hmem
        change s.submitted.length + 1 ≤ _ at this
        omega
    · obtain ⟨sub, hsub, hlive⟩ := h.live i r hi
      refine ⟨sub, mem_append_left _ hsub, { hlive with waits := ?_ }⟩
      have hne : sub.task ≠ task := by
        rintro rfl
        rw [hlive.waits] at hidle
        cases hidle
      exact (update_of_ne hne _ _).trans hlive.waits
  · intro sub hsub
    rcases mem_append.mp hsub with hold | hnew
    · rcases h.kept sub hold with hdelivered | ⟨r, hr, hid⟩
      · exact .inl hdelivered
      · exact .inr ⟨r, hother hr, hid⟩
    · rw [mem_singleton.mp hnew]
      exact .inr ⟨_, by rw [hentries, if_pos rfl], rfl⟩
  · intro task' id output hwaiting
    obtain ⟨rfl, hself⟩ | ⟨-, hwaiting⟩ := Library.update_eq_iff.mp hwaiting
    · cases hself
      refine ⟨fun hmem => ?_, _, mem_append_right _ mem_cons_self, rfl, rfl, rfl⟩
      have := h.delivered_le hmem
      omega
    · obtain ⟨hfresh, sub, hsub, hrest⟩ := h.waiting task' id output hwaiting
      exact ⟨hfresh, sub, mem_append_left _ hsub, hrest⟩
  · intro work hworker
    obtain ⟨⟨hslot, hstate⟩, hnot⟩ := h.taken work hworker
    exact ⟨⟨hother hslot, hstate⟩, hnot⟩
  · intro work result data hworker
    obtain ⟨⟨hslot, hstate⟩, hmem⟩ := h.executing work result data hworker
    exact ⟨⟨hother hslot, hstate⟩, hmem⟩
  · intro x hx
    obtain ⟨sub, hsub, hexec⟩ := h.executed_from x hx
    exact ⟨sub, mem_append_left _ hsub, hexec⟩
  · intro x hx
    refine (h.held x hx).imp id (Or.imp id ?_)
    rintro ⟨i, r, hi, hrest⟩
    exact ⟨i, r, hother hi, hrest⟩
  · intro d hd
    obtain ⟨sub, hsub, rest⟩ := h.delivered_from d hd
    exact ⟨sub, mem_append_left _ hsub, rest⟩

theorem Inv.kept_set {slot : Fin maxRequests} {r : Request}
    (hslot : s.queue.entries slot = some r) (new : Request) (hid : new.id = r.id)
    (sub : Submission) (hsub : sub ∈ s.submitted) : sub.id ∈ s.deliveredIds ∨
      ∃ r', (s.queue.set slot (some new)).entries sub.slot = some r' ∧ r'.id = sub.id := by
  rcases h.kept sub hsub with hdelivered | ⟨r', hr', hid'⟩
  · exact .inl hdelivered
  refine .inr ?_
  rw [entries_set]
  split
  · rename_i heq
    rw [heq, hslot] at hr'
    cases hr'
    exact ⟨new, rfl, hid.trans hid'⟩
  · exact ⟨r', hr', hid'⟩

variable {work : WorkItem}

theorem Inv.take (hidle : s.worker = .idle) {queue : Queue}
    (htake : s.queue.takePending = (some work, queue)) :
    ({ s with queue, worker := .taken work } : System).Inv := by
  obtain ⟨r, hslot, hpending, hrequest, rfl⟩ := takePending_eq_some htake
  obtain ⟨slot, request⟩ := work
  obtain rfl : request = { r with state := .inProgress } := hrequest
  obtain ⟨sub, hsub, hlive⟩ := h.live slot r hslot
  have hentries := entries_set s.queue slot (some { r with state := .inProgress })
  -- an idle worker holds no request
  have hnone : ∀ i r', s.queue.entries i = some r' → r'.state ≠ .inProgress := by
    intro i r' hi hprogress
    obtain ⟨sub, -, hlive⟩ := h.live i r' hi
    rcases hlive.inProgress hprogress with hworker | ⟨result, data, hworker⟩
    · rw [hidle] at hworker
      cases hworker
    · rw [hidle] at hworker
      cases hworker
  refine ⟨h.ids, h.next, ?_, h.kept_set hslot _ rfl, h.waiting, ?_,
    nofun, h.executed_once, h.executed_from, ?_, h.delivered_once,
    h.delivered_from⟩
  · intro i r' hi
    rw [hentries] at hi
    split at hi
    · rename_i heq
      cases hi
      exact ⟨sub, hsub, ⟨hlive.id_eq, hlive.slot_eq.trans heq.symm, hlive.operation_eq,
        hlive.lba_eq, hlive.waits, hlive.fresh,
        fun _ => hlive.data_eq (by rw [hpending]; decide), nofun, fun _ => .inl (by rw [heq]),
        nofun⟩⟩
    · obtain ⟨sub, hsub, hlive⟩ := h.live i r' hi
      exact ⟨sub, hsub, { hlive with inProgress := fun hp => absurd hp (hnone i r' hi) }⟩
  · intro work' hworker
    cases hworker
    exact ⟨⟨by rw [hentries, if_pos rfl], rfl⟩, hlive.pending hpending⟩
  · intro x hx
    refine (h.held x hx).imp id ?_
    rintro (⟨work, hworker, -⟩ | ⟨i, r', hi, hid, hcomplete, hrest⟩)
    · rw [hidle] at hworker
      cases hworker
    refine .inr ⟨i, r', ?_, hid, hcomplete, hrest⟩
    rw [hentries, if_neg]
    · exact hi
    rintro rfl
    rw [hslot] at hi
    cases hi
    rw [hpending] at hcomplete
    cases hcomplete

theorem Inv.execute (hworker : s.worker = .taken work)
    (result : Except Error Unit) (read : Sector) : (s.execute work result read).Inv := by
  obtain ⟨⟨hslot, hstate⟩, hnot⟩ := h.taken work hworker
  obtain ⟨sub, hsub, hlive⟩ := h.live work.slot work.request hslot
  unfold System.execute
  refine ⟨h.ids, h.next, ?_, h.kept, h.waiting, nofun, ?_, ?_, ?_, ?_, h.delivered_once, ?_⟩
  · intro i r hi
    obtain ⟨sub', hsub', hlive'⟩ := h.live i r hi
    refine ⟨sub', hsub', { hlive' with
      pending := fun hp => ?_, inProgress := fun hp => ?_,
      complete := fun hc => mem_append_left _ (hlive'.complete hc) }⟩
    · -- a pending request is not the one that the worker has taken
      rw [executedIds, map_append, mem_append, not_or]
      refine ⟨hlive'.pending hp, fun hmem => ?_⟩
      have hid : r.id = work.request.id := mem_singleton.mp hmem
      obtain rfl := h.slot_unique hi hslot hid
      rw [hslot] at hi
      cases hi
      rw [hstate] at hp
      cases hp
    · rcases hlive'.inProgress hp with hw | ⟨result', data', hw⟩
      · rw [hworker] at hw
        cases hw
        exact .inr ⟨_, _, rfl⟩
      · rw [hworker] at hw
        cases hw
  · intro work' result' data' hw
    cases hw
    exact ⟨⟨hslot, hstate⟩, mem_append_right _ mem_cons_self⟩
  · rw [executedIds, map_append]
    refine h.executed_once.append (nodup_singleton _) ?_
    intro id hid hnew
    rw [mem_singleton.mp hnew] at hid
    exact hnot hid
  · intro x hx
    rcases mem_append.mp hx with hold | hnew
    · exact h.executed_from x hold
    rw [mem_singleton.mp hnew]
    exact ⟨sub, hsub, hlive.id_eq.symm, hlive.operation_eq.symm, hlive.lba_eq.symm,
      hlive.data_eq (by rw [hstate]; decide)⟩
  · intro x hx
    rcases mem_append.mp hx with hold | hnew
    · refine (h.held x hold).imp id ?_
      rintro (⟨work', hworker', -⟩ | hslot')
      · rw [hworker] at hworker'
        cases hworker'
      · exact .inr hslot'
    · rw [mem_singleton.mp hnew]
      exact .inr (.inl ⟨work, rfl, rfl⟩)
  · intro d hd
    obtain ⟨sub', hsub', x, hx, hanswers⟩ := h.delivered_from d hd
    exact ⟨sub', hsub', x, mem_append_left _ hx, hanswers⟩

theorem Inv.finish {result : Except Error Unit} {data : Sector}
    (hworker : s.worker = .executed work result data) :
    ({ s with queue := s.queue.finish work.slot work.request.id result data, worker := .idle } :
      System).Inv := by
  obtain ⟨⟨hslot, hstate⟩, hmem⟩ := h.executing work result data hworker
  obtain ⟨sub, hsub, hlive⟩ := h.live work.slot work.request hslot
  rw [finish_eq hslot hstate]
  generalize hdone : ({ work.request with data, result, state := .complete } : Request) = done
  have hid : done.id = work.request.id := by rw [← hdone]
  have hentries := entries_set s.queue work.slot (some done)
  refine ⟨h.ids, h.next, fun i r hi => ?_, h.kept_set hslot done hid, h.waiting,
    nofun, nofun, h.executed_once, h.executed_from, fun x hx => ?_,
    h.delivered_once, h.delivered_from⟩
  swap
  · refine (h.held x hx).imp id ?_
    rintro (⟨work', hworker', hx'⟩ | ⟨i, r, hi, hid', hcomplete, hrest⟩)
    · rw [hworker] at hworker'
      cases hworker'
      have hat := hentries work.slot
      rw [if_pos rfl] at hat
      exact .inr ⟨work.slot, done, hat, hid.trans hx', by rw [← hdone], by rw [← hdone],
        by rw [← hdone]⟩
    refine .inr ⟨i, r, ?_, hid', hcomplete, hrest⟩
    rw [hentries, if_neg]
    · exact hi
    rintro rfl
    rw [hslot] at hi
    cases hi
    rw [hstate] at hcomplete
    cases hcomplete
  rw [hentries] at hi
  split at hi
  · rename_i heq
    cases hi
    have hdata : sub.data = work.request.data := (hlive.data_eq (by rw [hstate]; decide)).symm
    subst hdone
    refine ⟨sub, hsub, ⟨hlive.id_eq, hlive.slot_eq.trans heq.symm, hlive.operation_eq,
      hlive.lba_eq, hlive.waits, hlive.fresh, fun hc => absurd rfl hc, nofun,
      nofun, fun _ => ?_⟩⟩
    rw [hdata]
    exact hmem
  · rename_i hne
    obtain ⟨sub', hsub', hlive'⟩ := h.live i r hi
    refine ⟨sub', hsub', { hlive' with inProgress := fun hp => ?_ }⟩
    -- the request that the worker holds is the only one in progress
    rcases hlive'.inProgress hp with hw | ⟨result', data', hw⟩
    · rw [hworker] at hw
      cases hw
    rw [hworker] at hw
    cases hw
    exact absurd rfl hne

theorem Inv.poll {task id : ℕ} {output : Bool} (hwaiting : s.waiting task = some (id, output)) :
    (s.poll task id output).Inv := by
  rcases htake : s.queue.takeResult id output with ⟨_ | ⟨result, copied⟩, queue⟩
  · simp only [System.poll, htake]
    exact h
  simp only [System.poll, htake]
  obtain ⟨slot, r, hslot, rfl, hcomplete, rfl, rfl, rfl⟩ := takeResult_eq_some htake
  obtain ⟨sub, hsub, hlive⟩ := h.live slot r hslot
  have hentries := entries_set s.queue slot none
  -- the task that collects the result is the one that has submitted the request
  obtain ⟨-, sub', hsub', htask, hid', houtput⟩ := h.waiting task r.id output hwaiting
  obtain rfl := h.submission_unique hsub hsub' (hlive.id_eq.trans hid'.symm)
  have hdelivered : ∀ id', id' ∈ s.deliveredIds ++ [r.id] ↔ id' ∈ s.deliveredIds ∨ id' = r.id := by
    intro id'
    rw [mem_append, mem_singleton]
  have hids : (s.delivered ++ [(⟨task, r.id, r.result, Queue.copied r.result r.data output⟩ :
      Delivery)]).map Delivery.id = s.deliveredIds ++ [r.id] := map_append
  have hstays : ∀ {i r'}, s.queue.entries i = some r' → r'.id ≠ r.id →
      (s.queue.set slot none).entries i = some r' := by
    intro i r' hi hne
    rw [hentries, if_neg]
    · exact hi
    rintro rfl
    rw [hslot] at hi
    cases hi
    exact hne rfl
  -- the worker holds another request
  have hholds : ∀ work, s.Holds work →
      (s.queue.set slot none).entries work.slot = some work.request := by
    rintro work ⟨hwork, hstate⟩
    refine hstays hwork fun heq => ?_
    obtain rfl := h.slot_unique hwork hslot heq
    rw [hslot] at hwork
    cases hwork
    rw [hcomplete] at hstate
    cases hstate
  refine ⟨h.ids, h.next, ?_, ?_, ?_, fun work hw => ?_, fun work result data hw => ?_,
    h.executed_once, h.executed_from, ?_, ?_, ?_⟩
  · intro i r' hi
    rw [hentries] at hi
    split at hi
    · cases hi
    rename_i hne
    obtain ⟨sub', hsub', hlive'⟩ := h.live i r' hi
    have hid : r'.id ≠ r.id := fun heq => hne (h.slot_unique hi hslot heq)
    refine ⟨sub', hsub', { hlive' with waits := ?_, fresh := ?_ }⟩
    · have hother : sub'.task ≠ task := by
        intro heq
        have hwaits := hlive'.waits
        rw [heq, hwaiting] at hwaits
        exact hid (congrArg Prod.fst (Option.some.inj hwaits)).symm
      exact (update_of_ne hother _ _).trans hlive'.waits
    · rw [deliveredIds, hids, hdelivered, not_or]
      exact ⟨hlive'.fresh, hid⟩
  · intro sub' hsub'
    rw [deliveredIds, hids, hdelivered]
    rcases h.kept sub' hsub' with hold | ⟨r', hr', hid⟩
    · exact .inl (.inl hold)
    by_cases heq : r'.id = r.id
    · exact .inl (.inr (hid.symm.trans heq))
    · exact .inr ⟨r', hstays hr' heq, hid⟩
  · intro task' id' output' hw
    obtain ⟨-, ⟨⟩⟩ | ⟨hne, hw⟩ := Library.update_eq_iff.mp hw
    obtain ⟨hfresh, sub', hsub', htask', hid, hout⟩ := h.waiting task' id' output' hw
    refine ⟨?_, sub', hsub', htask', hid, hout⟩
    rw [deliveredIds, hids, hdelivered, not_or]
    refine ⟨hfresh, fun heq => hne ?_⟩
    obtain rfl := h.submission_unique hsub hsub' (hlive.id_eq.trans (heq.symm.trans hid.symm))
    exact htask'.symm.trans htask
  · obtain ⟨hwork, hnot⟩ := h.taken work hw
    exact ⟨⟨hholds work hwork, hwork.2⟩, hnot⟩
  · obtain ⟨hwork, hmem⟩ := h.executing work result data hw
    exact ⟨⟨hholds work hwork, hwork.2⟩, hmem⟩
  · intro x hx
    rw [deliveredIds, hids, hdelivered]
    rcases h.held x hx with hold | hworker | ⟨i, r', hi, hid, hrest⟩
    · exact .inl (.inl hold)
    · exact .inr (.inl hworker)
    by_cases heq : r'.id = r.id
    · exact .inl (.inr (hid.symm.trans heq))
    · exact .inr (.inr ⟨i, r', hstays hi heq, hid, hrest⟩)
  · rw [deliveredIds, hids]
    refine h.delivered_once.append (nodup_singleton _) ?_
    intro id' hold hnew
    rw [mem_singleton.mp hnew] at hold
    exact hlive.fresh hold
  · intro d hd
    rcases mem_append.mp hd with hold | hnew
    · exact h.delivered_from d hold
    rw [mem_singleton.mp hnew]
    refine ⟨sub, hsub, _, hlive.complete hcomplete, ⟨htask.symm, hlive.id_eq.symm, rfl, rfl, ?_⟩⟩
    rw [houtput]

end Steps

/-! ## Runs -/

/-- A step submits at most one request and forgets none. -/
theorem submitted_step {s s' : System} {l : Step} (h : s.step l = some s') :
    s.submitted.length ≤ s'.submitted.length ∧ s'.submitted.length ≤ s.submitted.length +
      match l with
      | .submit _ _ _ _ => 1
      | _ => 0 := by
  cases l with simp only [step] at h
  | submit task operation lba input =>
    split at h
    · cases h
      unfold System.submit
      dsimp only
      split
      · omega
      · simp
    · cases h
  | take | execute result read | finish =>
    split at h
    · cases h
      exact ⟨le_rfl, le_rfl⟩
    · cases h
  | poll task =>
    split at h
    · rename_i id output _
      cases h
      have hsame : (s.poll task id output).submitted = s.submitted := by
        unfold System.poll
        split
        · rfl
        · rfl
      rw [hsame]
      exact ⟨le_rfl, le_rfl⟩
    · cases h

theorem Inv.step {s s' : System} (h : s.Inv) {l : Step} (hstep : s.step l = some s')
    (hbound : s'.submitted.length < 2 ^ 64) : s'.Inv := by
  cases l with simp only [System.step] at hstep
  | submit task operation lba input =>
    split at hstep
    · rename_i hidle
      cases hstep
      exact h.submit hidle operation lba input hbound
    · cases hstep
  | take =>
    split at hstep
    · rename_i work queue hidle htake
      cases hstep
      exact h.take hidle htake
    · cases hstep
  | execute result read =>
    split at hstep
    · rename_i work hworker
      cases hstep
      exact h.execute hworker result read
    · cases hstep
  | finish =>
    split at hstep
    · rename_i work result data hworker
      cases hstep
      exact h.finish hworker
    · cases hstep
  | poll task =>
    split at hstep
    · rename_i id output hwaiting
      cases hstep
      exact h.poll hwaiting
    · cases hstep

theorem inv_run (steps : List Step) (hbound : (runAll step new steps).submitted.length < 2 ^ 64) :
    (runAll step new steps).Inv := by
  have hkeep : ∀ s l s', (s.submitted.length < 2 ^ 64 → s.Inv) → step s l = some s' →
      s'.submitted.length < 2 ^ 64 → s'.Inv := by
    intro s l s' h hstep hlt
    exact (h ((submitted_step hstep).1.trans_lt hlt)).step hstep hlt
  exact runAll_induct (fun _ => inv_new) hkeep steps hbound

def isSubmit : Step → Bool
  | .submit _ _ _ _ => true
  | _ => false

def submissions (steps : List Step) : ℕ :=
  steps.countP isSubmit

theorem submitted_run (s : System) (steps : List Step) :
    (runAll step s steps).submitted.length ≤ s.submitted.length + submissions steps := by
  induction steps generalizing s with
  | nil => exact le_rfl
  | cons l steps ih =>
    rw [runAll]
    cases hstep : s.step l with
    | none => exact Nat.le_add_right _ _
    | some s' =>
      refine (ih s').trans ?_
      have hle := (submitted_step hstep).2
      cases l with
      | submit task operation lba input =>
        simp only [submissions, countP_cons, isSubmit, if_true] at hle ⊢
        omega
      | _ =>
        simp only [submissions, countP_cons] at hle ⊢
        omega

/-! ## Progress -/

/-- The stages that the request of a slot has before it. -/
def stages : Option Request → ℕ
  | none => 0
  | some r =>
    match r.state with
    | .pending => 4
    | .inProgress => 2
    | .complete => 1

/-- The stages that are left for all requests. The worker that has taken one has to execute it. -/
def remaining (s : System) : ℕ :=
  ∑ slot, stages (s.queue.entries slot) +
    match s.worker with
    | .taken _ => 1
    | _ => 0

theorem sum_stages_set (q : Queue) (slot : Fin maxRequests) (entry : Option Request) {k : ℕ}
    (hlt : stages entry + k = stages (q.entries slot)) :
    ∑ i, stages ((q.set slot entry).entries i) + k = ∑ i, stages (q.entries i) := by
  have hsum := fun q' : Queue =>
    Finset.add_sum_erase Finset.univ (fun i => stages (q'.entries i)) (Finset.mem_univ slot)
  have hother : ∑ i ∈ Finset.univ.erase slot, stages ((q.set slot entry).entries i) =
      ∑ i ∈ Finset.univ.erase slot, stages (q.entries i) :=
    Finset.sum_congr rfl fun i hi => by rw [entries_set, if_neg (Finset.ne_of_mem_erase hi)]
  have hnew := hsum (q.set slot entry)
  have hold := hsum q
  simp only [entries_set, if_true] at hnew
  simp only [entries_set] at hother ⊢
  omega

theorem step_take {s : System} {slot : Fin maxRequests} {r : Request}
    (hworker : s.worker = .idle) (hslot : s.queue.entries slot = some r)
    (hstate : r.state = .pending) : ∃ work s', s.step .take = some s' ∧ s'.worker = .taken work ∧
      s'.remaining < s.remaining := by
  obtain ⟨work, htake⟩ := takePending_of_pending hslot hstate
  obtain ⟨r', hr', hpending, hrequest, -⟩ := takePending_eq_some htake
  refine ⟨work,
    { s with queue := s.queue.set work.slot (some work.request), worker := .taken work },
    by simp only [System.step, hworker, htake], rfl, ?_⟩
  have hsum := sum_stages_set s.queue work.slot (some work.request) (k := 2)
    (by simp [hr', hrequest, hpending, stages])
  simp only [remaining, hworker]
  omega

theorem step_execute {s : System} {work : WorkItem} (hworker : s.worker = .taken work)
    (result : Except Error Unit) (read : Sector) :
    s.step (.execute result read) = some (s.execute work result read) ∧
      (s.execute work result read).remaining < s.remaining := by
  refine ⟨by simp only [System.step, hworker], ?_⟩
  simp only [remaining, System.execute, hworker]
  omega

variable {s : System} (h : s.Inv)

include h

theorem Inv.step_finish {work : WorkItem} {result : Except Error Unit} {data : Sector}
    (hworker : s.worker = .executed work result data) : ∃ s', s.step .finish = some s' ∧
      s'.queue.entries work.slot = some { work.request with data, result, state := .complete } ∧
      s'.remaining < s.remaining := by
  obtain ⟨⟨hslot, hstate⟩, -⟩ := h.executing work result data hworker
  refine ⟨
    { s with queue := s.queue.finish work.slot work.request.id result data, worker := .idle },
    by simp only [System.step, hworker], ?_, ?_⟩
  · rw [finish_eq hslot hstate, entries_set, if_pos rfl]
  · have hsum := sum_stages_set s.queue work.slot
      (some { work.request with data, result, state := .complete }) (k := 1)
      (by simp [hslot, hstate, stages])
    simp only [remaining, hworker, finish_eq hslot hstate] at hsum ⊢
    omega

theorem Inv.step_poll {slot : Fin maxRequests} {r : Request} (hslot : s.queue.entries slot = some r)
    (hstate : r.state = .complete) : ∃ sub ∈ s.submitted, sub.id = r.id ∧
      ∃ s', s.step (.poll sub.task) = some s' ∧ s'.waiting sub.task = none ∧
        s'.queue.entries slot = none ∧ s'.remaining < s.remaining ∧
        s'.delivered = s.delivered ++ [⟨sub.task, r.id, r.result,
          Queue.copied r.result r.data (decide (sub.operation = .read))⟩] := by
  obtain ⟨sub, hsub, hlive⟩ := h.live slot r hslot
  obtain ⟨result, data, queue, htake⟩ :=
    takeResult_of_complete hslot hstate (decide (sub.operation = .read))
  obtain ⟨slot', r', hslot', hid, hcomplete, rfl, rfl, rfl⟩ := takeResult_eq_some htake
  obtain rfl := h.slot_unique hslot' hslot hid
  rw [hslot] at hslot'
  cases hslot'
  refine ⟨sub, hsub, hlive.id_eq, s.poll sub.task r.id (decide (sub.operation = .read)), ?_⟩
  simp only [System.step, hlive.waits, System.poll, htake, update_self, entries_set, if_true,
    true_and, and_true]
  have hsum := sum_stages_set s.queue slot' none (k := 1)
    (by simp [hslot, hstate, stages])
  simp only [remaining]
  omega

/-- As long as a request is not delivered, the worker or a waiting task can go on. -/
theorem Inv.progress {sub : Submission} (hsub : sub ∈ s.submitted)
    (hopen : sub.id ∉ s.deliveredIds) :
    ∃ l s', isSubmit l = false ∧ s.step l = some s' ∧ s'.remaining < s.remaining := by
  cases hworker : s.worker with
  | taken work =>
    obtain ⟨hstep, hless⟩ := step_execute hworker (.ok ()) Buffer.zero
    exact ⟨_, _, rfl, hstep, hless⟩
  | executed work result data =>
    obtain ⟨s', hstep, -, hless⟩ := h.step_finish hworker
    exact ⟨_, s', rfl, hstep, hless⟩
  | idle =>
    obtain ⟨r, hr, -⟩ := (h.kept sub hsub).resolve_left hopen
    cases hstate : r.state with
    | pending =>
      obtain ⟨_, s', hstep, -, hless⟩ := step_take hworker hr hstate
      exact ⟨_, s', rfl, hstep, hless⟩
    | inProgress =>
      obtain ⟨_, -, hlive⟩ := h.live sub.slot r hr
      rcases hlive.inProgress hstate with htaken | ⟨_, _, hexecuted⟩
      · rw [hworker] at htaken
        cases htaken
      · rw [hworker] at hexecuted
        cases hexecuted
    | complete =>
      obtain ⟨_, -, -, s', hstep, -, -, hless, -⟩ := h.step_poll hr hstate
      exact ⟨_, s', rfl, hstep, hless⟩

omit h in
theorem submitted_of_isSubmit {s' : System} {l : Step} (hl : isSubmit l = false)
    (hstep : s.step l = some s') : s'.submitted = s.submitted := by
  cases l with simp only [System.step] at hstep
  | submit => cases hl
  | take | execute | finish =>
    split at hstep
    · cases hstep
      rfl
    · cases hstep
  | poll task =>
    split at hstep
    · cases hstep
      unfold System.poll
      split
      · rfl
      · rfl
    · cases hstep

/-- From every state on, the worker and the waiting tasks can deliver everything. -/
theorem Inv.drains (hbound : s.submitted.length < 2 ^ 64) : ∃ more : List Step,
    (∀ l ∈ more, isSubmit l = false) ∧
      ∀ sub ∈ s.submitted, sub.id ∈ (runAll System.step s more).deliveredIds := by
  induction hn : s.remaining using Nat.strong_induction_on generalizing s with
  | h n ih =>
    by_cases hall : ∀ sub ∈ s.submitted, sub.id ∈ s.deliveredIds
    · exact ⟨[], nofun, hall⟩
    simp only [not_forall] at hall
    obtain ⟨sub, hsub, hopen⟩ := hall
    obtain ⟨l, s', hl, hstep, hless⟩ := h.progress hsub hopen
    have hsame := submitted_of_isSubmit hl hstep
    have hbound' : s'.submitted.length < 2 ^ 64 := hsame ▸ hbound
    obtain ⟨more, hmore, hdelivered⟩ := ih _ (hn ▸ hless) (h.step hstep hbound') hbound' rfl
    refine ⟨l :: more, fun l' hl' => ?_, fun sub hsub => ?_⟩
    · rcases mem_cons.mp hl' with rfl | hl'
      · exact hl
      · exact hmore l' hl'
    · rw [runAll, hstep]
      exact hdelivered sub (hsame ▸ hsub)

omit h

/-- The state of the queue after a run: outstanding requests have different ids; no request is
executed twice, and only as it was submitted; no result is delivered twice, and each goes to the
task that has submitted the request, with what its execution gave; a request stays in its slot,
with its task waiting for it, until its result is taken. What came out of an execution is held
until it is delivered. An idle worker takes a request if one is pending, executes what it has
taken, whatever the device answers, and finishes what it has executed; the task gets the result
when it looks after that; and so everything can be delivered. -/
structure Delivers (s : System) : Prop where
  distinct : ∀ i j r r', s.queue.entries i = some r → s.queue.entries j = some r' →
    r.id = r'.id → i = j
  executed_once : (s.executed.map Execution.id).Nodup
  executed_from : ∀ x ∈ s.executed, ∃ sub ∈ s.submitted, Executes sub x
  delivered_once : (s.delivered.map Delivery.id).Nodup
  delivered_from : ∀ d ∈ s.delivered, ∃ sub ∈ s.submitted, ∃ x ∈ s.executed, Answers sub x d
  kept : ∀ sub ∈ s.submitted, sub.id ∈ s.delivered.map Delivery.id ∨
    ∃ r, s.queue.entries sub.slot = some r ∧ r.id = sub.id ∧
      s.waiting sub.task = some (sub.id, decide (sub.operation = .read))
  held : ∀ x ∈ s.executed, x.id ∈ s.delivered.map Delivery.id ∨ s.HoldsResult x
  taken : ∀ slot r, s.queue.entries slot = some r → r.state = .pending → s.worker = .idle →
    ∃ work s', s.step .take = some s' ∧ s'.worker = .taken work
  executes : ∀ work result read, s.worker = .taken work → ∃ s' x,
    s.step (.execute result read) = some s' ∧ s'.executed = s.executed ++ [x] ∧
      x.id = work.request.id ∧ x.result = result
  finishes : ∀ work result data, s.worker = .executed work result data → ∃ s',
    s.step .finish = some s' ∧ s'.queue.entries work.slot =
      some { work.request with data, result, state := .complete }
  collected : ∀ slot r, s.queue.entries slot = some r → r.state = .complete →
    ∃ sub ∈ s.submitted, sub.id = r.id ∧ ∃ s', s.step (.poll sub.task) = some s' ∧
      s'.waiting sub.task = none ∧ s'.queue.entries slot = none ∧
      s'.delivered = s.delivered ++ [⟨sub.task, r.id, r.result,
        Queue.copied r.result r.data (decide (sub.operation = .read))⟩]
  drains : ∃ more : List Step, (∀ l ∈ more, isSubmit l = false) ∧
    ∀ sub ∈ s.submitted, sub.id ∈ (runAll step s more).delivered.map Delivery.id

theorem Inv.delivers (h : s.Inv) (hbound : s.submitted.length < 2 ^ 64) : s.Delivers where
  distinct i j r r' := h.slot_unique
  executed_once := h.executed_once
  executed_from := h.executed_from
  delivered_once := h.delivered_once
  delivered_from := h.delivered_from
  kept sub hsub := by
    rcases h.kept sub hsub with hdelivered | ⟨r, hr, hid⟩
    · exact .inl hdelivered
    obtain ⟨sub', hsub', hlive⟩ := h.live sub.slot r hr
    obtain rfl := h.submission_unique hsub hsub' (hid.symm.trans hlive.id_eq.symm)
    refine .inr ⟨r, hr, hid, ?_⟩
    rw [← hid]
    exact hlive.waits
  held := h.held
  taken slot r hslot hstate hworker := by
    obtain ⟨work, s', hstep, htaken, -⟩ := step_take hworker hslot hstate
    exact ⟨work, s', hstep, htaken⟩
  executes work result read hworker :=
    ⟨_, _, (step_execute hworker result read).1, rfl, rfl, rfl⟩
  finishes work result data hworker := by
    obtain ⟨s', hstep, hdone, -⟩ := h.step_finish hworker
    exact ⟨s', hstep, hdone⟩
  collected slot r hslot hstate := by
    obtain ⟨sub, hsub, hid, s', hstep, hwaiting, hfree, -, hdelivered⟩ := h.step_poll hslot hstate
    exact ⟨sub, hsub, hid, s', hstep, hwaiting, hfree, hdelivered⟩
  drains := h.drains hbound

/-- Requests are delivered in every interleaving of tasks and worker with fewer than `2 ^ 64`
submissions. -/
theorem run_delivers (steps : List Step) (hbound : submissions steps < 2 ^ 64) :
    (runAll step new steps).Delivers := by
  have hle := submitted_run new steps
  have hnew : new.submitted.length = 0 := rfl
  exact (inv_run steps (by omega)).delivers (by omega)

def twoTasks : List Step :=
  [.submit 3 .flush 0 none, .submit 4 .read 7 none, .take, .execute (.ok ()) Buffer.zero, .finish,
    .poll 3, .take, .execute (.ok ()) (Buffer.fill 5)]

/-- A flush has been delivered, and the result of a read is with the worker. -/
theorem run_delivers_twoTasks : submissions twoTasks < 2 ^ 64 ∧
    (runAll step new twoTasks).delivered.map Delivery.id = [1] ∧
    (runAll step new twoTasks).executed.map Execution.id = [1, 2] ∧
    (runAll step new twoTasks).Delivers :=
  ⟨by decide, rfl, rfl, run_delivers _ (by decide)⟩

end System

end WovenHat.BlockIo
