import WovenHat.Verification.Task.Ownership

/-! # Priorities and round robin

`prepare_switch` takes a ready task of the highest priority, the first one after the slot that it
has taken last. The task that runs is not among those it chooses from, so one that gives up the
CPU can be followed by one of lower priority. -/

namespace WovenHat.Task

open Function List Option

namespace Scheduler

variable {s : Scheduler} {cpu : ℕ} {p : TaskPriority} {slot : Slot}

/-- A task of the CPU that is ready. -/
def Waiting (s : Scheduler) (cpu : ℕ) (slot : Slot) : Prop :=
  (s.tasks slot).state = .ready ∧ (s.tasks slot).cpu = cpu

theorem readyAt_iff : s.readyAt cpu p slot = true ↔
    s.Waiting cpu slot ∧ (s.tasks slot).priority = p := by
  simp [readyAt, Waiting, and_right_comm]

theorem any_readyAt : (finRange maxTasks).any (s.readyAt cpu p) = true ↔
    ∃ slot, s.Waiting cpu slot ∧ (s.tasks slot).priority = p := by
  simp [readyAt_iff]

theorem bestPriority_eq_some (h : s.bestPriority cpu = some p) :
    (∃ slot, s.Waiting cpu slot ∧ (s.tasks slot).priority = p) ∧
      ∀ slot, s.Waiting cpu slot → (s.tasks slot).priority.index ≤ p.index := by
  unfold bestPriority at h
  refine ⟨any_readyAt.mp (find?_some h :), fun slot hslot => ?_⟩
  have hany := any_readyAt.mpr ⟨slot, hslot, rfl⟩
  generalize (s.tasks slot).priority = q at hany ⊢
  cases q with
  | high =>
    rw [find?_cons, hany] at h
    cases h
    rfl
  | normal =>
    rw [find?_cons, find?_cons, hany] at h
    split at h <;> cases h <;> decide
  | low => exact Nat.zero_le _

theorem bestPriority_eq_none (h : s.bestPriority cpu = none) (slot : Slot) :
    ¬s.Waiting cpu slot := by
  intro hslot
  have hnone := find?_eq_none.mp h (s.tasks slot).priority
    (by cases (s.tasks slot).priority <;> simp)
  exact hnone (any_readyAt.mpr ⟨slot, hslot, rfl⟩)

/-- After how many others a slot comes up in the rotation. -/
def turn (start slot : Slot) : ℕ :=
  (slot.val + maxTasks - start.val - 1) % maxTasks

variable {start next x y : Slot}

theorem rotation_turn (start slot : Slot) :
    slot = ⟨(start.val + (turn start slot + 1)) % maxTasks, Nat.mod_lt _ (by decide)⟩ := by
  have hstart := start.isLt
  have hslot := slot.isLt
  apply Fin.ext
  simp only [turn, maxTasks] at *
  omega

theorem turn_rotation (start : Slot) {offset : ℕ} (h : offset < maxTasks) :
    turn start ⟨(start.val + (offset + 1)) % maxTasks, Nat.mod_lt _ (by decide)⟩ = offset := by
  have hstart := start.isLt
  simp only [turn, maxTasks] at *
  omega

theorem turn_lt_self (hne : y ≠ x) : turn x y < turn x x := by
  have hx := x.isLt
  have hy := y.isLt
  have hval : y.val ≠ x.val := fun heq => hne (Fin.ext heq)
  simp only [turn, maxTasks] at *
  omega

/-- A cursor that does not pass `y` stays before it on the way to `x`. -/
theorem turn_step (h : turn start y < turn start x) (hne : next ≠ y)
    (hle : turn start next ≤ turn start y) : turn next y < turn next x ∧ next ≠ x := by
  have hx := x.isLt
  have hy := y.isLt
  have hstart := start.isLt
  have hnext := next.isLt
  have hval : next.val ≠ y.val := fun heq => hne (Fin.ext heq)
  refine ⟨?_, ?_⟩
  · simp only [turn, maxTasks] at *
    omega
  · rintro rfl
    omega

theorem find?_rotation {q : Slot → Bool} (h : (rotation start).find? q = some next) (slot : Slot)
    (hq : q slot = true) : turn start next ≤ turn start slot := by
  rw [rotation, find?_map, map_eq_some_iff] at h
  obtain ⟨offset, hfind, rfl⟩ := h
  obtain ⟨-, hlt, hfirst⟩ := find?_range_eq_some.mp hfind
  have hturn := turn_rotation start (mem_range.mp hlt)
  by_contra hless
  have hnot := hfirst (turn start slot) (hturn ▸ not_le.mp hless)
  rw [comp_apply, ← rotation_turn, hq] at hnot
  cases hnot

theorem nextSlot_eq_none (h : s.nextSlot cpu = none) (slot : Slot) : ¬s.Waiting cpu slot := by
  unfold nextSlot at h
  split at h
  · exact bestPriority_eq_none ‹_› slot
  rename_i p hbest
  obtain ⟨first, hfirst⟩ := (bestPriority_eq_some hbest).1
  have hnone := find?_eq_none.mp (map_eq_none_iff.mp h) first
  refine absurd (readyAt_iff.mpr hfirst)
    (hnone (mem_map.mpr ⟨turn (s.lastSelected cpu p) first, ?_, ?_⟩))
  · exact mem_range.mpr (Nat.mod_lt _ (by decide))
  · exact (rotation_turn _ first).symm

/-- The selected task has the highest priority of all waiting ones, and is the first of these
after the one that was selected last. -/
theorem nextSlot_eq_some (h : s.nextSlot cpu = some (p, next)) : (s.tasks next).priority = p ∧
    (∀ slot, s.Waiting cpu slot → (s.tasks slot).priority.index ≤ p.index) ∧
      (rotation (s.lastSelected cpu p)).find? (s.readyAt cpu p) = some next := by
  unfold nextSlot at h
  split at h
  · cases h
  rename_i p' hbest
  obtain ⟨found, hfound, heq⟩ := map_eq_some_iff.mp h
  cases heq
  exact ⟨(readyAt_iff.mp (find?_some hfound)).2, (bestPriority_eq_some hbest).2, hfound⟩

theorem waiting_reapDead : (s.reapDead cpu).Waiting cpu slot ↔ s.Waiting cpu slot := by
  unfold Waiting reapDead
  dsimp only
  split
  · rename_i hdead
    rw [hdead.2.1]
    exact iff_of_false nofun nofun
  · rfl

theorem reapDead_waiting (h : s.Waiting cpu slot) : (s.reapDead cpu).tasks slot = s.tasks slot :=
  if_neg fun hdead => nomatch hdead.2.1.symm.trans h.1

theorem reapDead_current (s : Scheduler) (cpu : ℕ) :
    (s.reapDead cpu).tasks (s.currentSlot cpu) = s.current cpu :=
  if_neg (absurd rfl ·.1)

/-- After a switch the selected task runs, and the one that ran before waits with the others. -/
structure Switched (s s' : Scheduler) (cpu : ℕ) (p : TaskPriority) (next : Slot) : Prop where
  currentSlot : s'.currentSlot cpu = next
  running : (s'.tasks next).state = .running
  lastSelected : s'.lastSelected = update s.lastSelected cpu (update (s.lastSelected cpu) p next)
  priority : ∀ slot, (s'.tasks slot).priority = ((s.reapDead cpu).tasks slot).priority
  waiting : ∀ slot, s'.Waiting cpu slot ↔ slot ≠ next ∧ (s.Waiting cpu slot ∨
    slot = s.currentSlot cpu ∧ (s.current cpu).state = .running)

theorem switched (h : (s.reapDead cpu).nextSlot cpu = some (p, next))
    (hcpu : (s.current cpu).cpu = cpu) : Switched s (s.prepareSwitch cpu).2 cpu p next := by
  refine ⟨?_, ?_, ?_, fun slot => ?_, fun slot => ?_⟩
  · rw [prepareSwitch, h]
    exact update_self ..
  · rw [prepareSwitch_tasks h, if_pos rfl]
  · rw [prepareSwitch, h]
    rfl
  · rw [prepareSwitch_tasks h]
    split
    · rfl
    · split <;> rfl
  · rw [Waiting, prepareSwitch_tasks h, ← waiting_reapDead, Waiting]
    by_cases hnext : slot = next
    · simp [hnext]
    rw [if_neg hnext]
    by_cases hprev : slot = s.currentSlot cpu
    · rw [hprev, reapDead_current]
      by_cases hrunning : (s.current cpu).state = .running
      · simp [hprev ▸ hnext, hrunning, hcpu]
      · simp [hprev ▸ hnext, hrunning]
    · simp [hnext, hprev]

end Scheduler

namespace Cpus

open Scheduler

variable {c c' d : Cpus} {cpu : ℕ} {op : Op}

/-- No waiting task of the CPU has a higher priority than the running one. -/
def Respected (c : Cpus) (cpu : ℕ) : Prop :=
  ∀ slot other, (c.task slot).state = .running → (c.task slot).cpu = cpu →
    c.scheduler.Waiting cpu other → (c.task other).priority.index ≤ (c.task slot).priority.index

theorem respected_iff (howned : Owned c) (h : step c (cpu, op) = some c')
    (hd : c.deciding cpu op = some d) :
    c'.Respected cpu ↔ ((d.current cpu).state = .running → ∀ slot, d.scheduler.Waiting cpu slot →
      ∃ other, d.scheduler.Waiting cpu other ∧
        (d.current cpu).priority.index ≤ (d.task other).priority.index) := by
  obtain ⟨rfl, hcalm, hsettled, hup⟩ := step_deciding h hd
  have hdowned := howned.calm hcalm
  have hdup : d.online cpu = true := by rw [hcalm.online, hup]
  have hcur := hdowned.current cpu hdup
  have hnew := hdowned.prepareSwitch ((settled_calm hcalm).trans hsettled) hdup
  cases hnext : (d.scheduler.reapDead cpu).nextSlot cpu with
  | none =>
    have hnone (slot : Slot) : ¬d.scheduler.Waiting cpu slot :=
      fun hslot => nextSlot_eq_none hnext slot (waiting_reapDead.mpr hslot)
    refine iff_of_true (fun _ other _ _ hother => ?_) fun _ slot hslot => absurd hslot (hnone slot)
    refine absurd (waiting_reapDead.mp ?_) (hnone other)
    rwa [Cpus.prepareSwitch, Scheduler.prepareSwitch, hnext] at hother
  | some result =>
    obtain ⟨p, next⟩ := result
    have hswitched := switched hnext hcur.2
    obtain ⟨hp, hmax, -⟩ := nextSlot_eq_some hnext
    have hfirst : d.scheduler.Waiting cpu next := waiting_reapDead.mp (nextSlot_ready hnext)
    have hself : ((d.prepareSwitch cpu).task next).priority = p :=
      (hswitched.priority next).trans hp
    have hprev : ((d.prepareSwitch cpu).task (d.scheduler.currentSlot cpu)).priority =
        (d.current cpu).priority :=
      (hswitched.priority _).trans (congrArg _ (reapDead_current ..))
    constructor
    · intro hrespected hrunning _ _
      refine ⟨next, hfirst, ?_⟩
      have hne : d.scheduler.currentSlot cpu ≠ next := by
        rintro rfl
        cases hrunning.symm.trans hfirst.1
      have hle := hrespected next _ hswitched.running
        ((prepareSwitch_task d cpu next).2.1.trans (nextSlot_ready hnext).2)
        ((hswitched.waiting _).mpr ⟨hne, .inr ⟨rfl, hrunning⟩⟩)
      rwa [hself, hprev, ← hp, reapDead_waiting hfirst] at hle
    · intro hcond slot other hrunning hcpu hother
      obtain rfl : next = slot := by
        rw [← hswitched.currentSlot, ← (hnew.running slot hrunning).2, hcpu]
        rfl
      rw [hself]
      obtain ⟨-, hwaits | ⟨rfl, hran⟩⟩ := (hswitched.waiting other).mp hother
      · exact (congrArg _ (hswitched.priority other)).trans_le
          (hmax other (waiting_reapDead.mpr hwaits))
      · obtain ⟨best, hbest, hle⟩ := hcond hran next hfirst
        rw [hprev]
        have hbound := hmax best (waiting_reapDead.mpr hbest)
        rw [reapDead_waiting hbest] at hbound
        exact hle.trans hbound

/-- A scheduling decision respects the priorities if and only if a task that is still running is
not above all the tasks that wait: `prepare_switch` chooses among these only. -/
theorem priorities_respected_iff (ops : List (ℕ × Op)) (cpu : ℕ) (op : Op) (c' d : Cpus)
    (h : step (run ops) (cpu, op) = some c') (hd : (run ops).deciding cpu op = some d) :
    c'.Respected cpu ↔ ((d.current cpu).state = .running → ∀ slot, d.scheduler.Waiting cpu slot →
      ∃ other, d.scheduler.Waiting cpu other ∧
        (d.current cpu).priority.index ≤ (d.task other).priority.index) :=
  respected_iff (owned_run ops) h hd

/-- The kernel task yields to the idle task, of the lowest priority, and waits. -/
theorem yield_to_lower_priority : ∃ c', step (run []) (0, .yieldNow) = some c' ∧ ¬c'.Respected 0 :=
  ⟨_, rfl, fun h => absurd (h ⟨1, by decide⟩ ⟨0, by decide⟩ (by decide) (by decide)
    ⟨by decide, by decide⟩) (by decide)⟩

/-- Two tasks of one priority take turns. -/
theorem spawned_priorities_respected :
    ∃ c' d, step (run [(0, .spawn .high)]) (0, .yieldNow) = some c' ∧
      (run [(0, .spawn .high)]).deciding 0 .yieldNow = some d ∧ c'.Respected 0 := by
  refine ⟨_, _, rfl, rfl,
    (priorities_respected_iff [(0, .spawn .high)] 0 .yieldNow _ _ rfl rfl).mpr fun _ _ _ => ?_⟩
  exact ⟨⟨2, by decide⟩, ⟨by decide, by decide⟩, by decide⟩

/-! ## Round robin -/

/-- The CPU, the priority and the slot of the selection that a step makes. -/
def selection (c : Cpus) (l : ℕ × Op) : Option (ℕ × TaskPriority × Slot) :=
  if (step c l).isSome then
    (c.deciding l.1 l.2).bind fun d =>
      ((d.scheduler.reapDead l.1).nextSlot l.1).map fun selected => (l.1, selected)
  else none

variable {l : ℕ × Op} {p : TaskPriority} {next : Slot}

theorem switched_of_selection (howned : Owned c) (h : c.selection l = some (cpu, p, next)) :
    ∃ d, Calm c d ∧ (d.scheduler.reapDead cpu).nextSlot cpu = some (p, next) ∧
      Switched d.scheduler ((step c l).getD c).scheduler cpu p next := by
  obtain ⟨hsome, hbind⟩ := ite_none_right_eq_some.mp h
  obtain ⟨c', hstep⟩ := isSome_iff_exists.mp hsome
  obtain ⟨d, hd, hmap⟩ := bind_eq_some_iff.mp hbind
  obtain ⟨result, hnext, heq⟩ := map_eq_some_iff.mp hmap
  cases heq
  obtain ⟨rfl, hcalm, -, hup⟩ := step_deciding hstep hd
  have hcur := (howned.calm hcalm).current l.1 (by rw [hcalm.online, hup])
  refine ⟨d, hcalm, hnext, ?_⟩
  rw [hstep]
  exact switched hnext hcur.2

theorem lastSelected_of_none (h : c.selection l = none) :
    ((step c l).getD c).scheduler.lastSelected = c.scheduler.lastSelected := by
  cases hstep : step c l with
  | none => rfl
  | some c' =>
    change c'.scheduler.lastSelected = c.scheduler.lastSelected
    cases transition_of_step hstep with
    | calm h => exact h.lastSelected
    | @decision d hd hcalm =>
      have hnext : (d.scheduler.reapDead l.1).nextSlot l.1 = none := by
        simpa [selection, hstep, hd] using h
      rw [Cpus.prepareSwitch, Scheduler.prepareSwitch, hnext]
      exact hcalm.lastSelected
    | placed h => exact h.lastSelected
    | started h => exact h.lastSelected
    | reaped | switched => rfl
    | empowered _ h =>
      rcases h with h | ⟨slot, h⟩
      · exact h.lastSelected
      · exact h.lastSelected

variable {x y : Slot}

/-- While a slot waits, the cursor of its priority does not pass it. -/
theorem Owned.ahead_step (howned : Owned c)
    (hahead : turn (c.scheduler.lastSelected cpu p) y < turn (c.scheduler.lastSelected cpu p) x)
    (hbefore : c.scheduler.Waiting cpu y) (hafter : ((step c l).getD c).scheduler.Waiting cpu y)
    (hpriority : (((step c l).getD c).task y).priority = p) :
    turn (((step c l).getD c).scheduler.lastSelected cpu p) y <
      turn (((step c l).getD c).scheduler.lastSelected cpu p) x ∧
      c.selection l ≠ some (cpu, p, x) := by
  cases hselection : c.selection l with
  | none =>
    rw [lastSelected_of_none hselection]
    exact ⟨hahead, nofun⟩
  | some result =>
    obtain ⟨own, q, next⟩ := result
    obtain ⟨d, hcalm, hnext, hswitched⟩ := switched_of_selection howned hselection
    rw [hswitched.lastSelected, hcalm.lastSelected]
    by_cases hown : cpu = own
    · subst hown
      rw [update_self]
      by_cases hq : p = q
      · subst hq
        rw [update_self]
        obtain ⟨hother, hwaits | ⟨rfl, hran⟩⟩ := (hswitched.waiting y).mp hafter
        · have hready : (d.scheduler.reapDead cpu).readyAt cpu p y = true :=
            readyAt_iff.mpr ⟨waiting_reapDead.mpr hwaits,
              (hswitched.priority y).symm.trans hpriority⟩
          rw [← hcalm.lastSelected] at hahead
          have hturn := turn_step hahead (Ne.symm hother)
            (find?_rotation (nextSlot_eq_some hnext).2.2 y hready)
          exact ⟨hturn.1, fun heq => hturn.2 (by cases heq; rfl)⟩
        · exact nomatch hbefore.1.symm.trans ((hcalm.tasks _).running hran)
      · rw [update_of_ne hq]
        exact ⟨hahead, fun heq => hq (by cases heq; rfl)⟩
    · rw [update_of_ne hown]
      exact ⟨hahead, fun heq => hown (by cases heq; rfl)⟩

/-- The selection at a position of a run. -/
def selectedAt (ops : List (ℕ × Op)) (k : ℕ) : Option (ℕ × TaskPriority × Slot) :=
  ops[k]?.bind (run (ops.take k)).selection

theorem run_take_succ {ops : List (ℕ × Op)} {k : ℕ} (h : ops[k]? = some l) :
    run (ops.take (k + 1)) = (step (run (ops.take k)) l).getD (run (ops.take k)) := by
  rw [take_add_one, h]
  exact run_concat _ l

/-- Between two selections of a slot at a priority on a CPU, every other task of this priority
and CPU that is ready as long as it has not been selected is selected. The second decision may
block the task before it selects, so that the interval ends after it. -/
theorem round_robin (ops : List (ℕ × Op)) (cpu : ℕ) (p : TaskPriority) (x y : Slot) (i j : ℕ)
    (hi : selectedAt ops i = some (cpu, p, x)) (hj : selectedAt ops j = some (cpu, p, x))
    (hij : i < j) (hne : y ≠ x) (hready : ∀ k, i < k → k ≤ j + 1 →
      (∀ m, i < m → m < k → selectedAt ops m ≠ some (cpu, p, y)) →
      (run (ops.take k)).scheduler.Waiting cpu y ∧ ((run (ops.take k)).task y).priority = p) :
    ∃ m, i < m ∧ m < j ∧ selectedAt ops m = some (cpu, p, y) := by
  by_contra hnone
  push Not at hnone
  obtain ⟨first, hfirst, hselect⟩ := bind_eq_some_iff.mp hi
  obtain ⟨last, hlast, hagain⟩ := bind_eq_some_iff.mp hj
  have hwaits : ∀ k, i < k → k ≤ j + 1 → (run (ops.take k)).scheduler.Waiting cpu y ∧
      ((run (ops.take k)).task y).priority = p := by
    refine fun k hik hkj => hready k hik hkj fun m him hmk => ?_
    by_cases hmj : m = j
    · subst hmj
      rw [hj]
      exact fun heq => hne (by cases heq; rfl)
    · exact hnone m him (by omega)
  have hstep : ∀ k, i < k → k ≤ j →
      turn ((run (ops.take k)).scheduler.lastSelected cpu p) y <
        turn ((run (ops.take k)).scheduler.lastSelected cpu p) x := by
    intro k hk
    induction k, hk using Nat.le_induction with
    | base =>
      intro _
      obtain ⟨d, -, -, hswitched⟩ := switched_of_selection (owned_run _) hselect
      rw [run_take_succ hfirst, hswitched.lastSelected, update_self, update_self]
      exact turn_lt_self hne
    | succ k hk ih =>
      intro hkj
      obtain ⟨l, hl⟩ : ∃ l, ops[k]? = some l :=
        ⟨_, getElem?_eq_getElem (lt_trans hkj (List.getElem?_eq_some_iff.mp hlast).1)⟩
      obtain ⟨hwait, -⟩ := hwaits k hk (by omega)
      obtain ⟨hwait', hpriority⟩ := hwaits (k + 1) (by omega) (by omega)
      rw [run_take_succ hl] at hwait' hpriority ⊢
      exact ((owned_run _).ahead_step (ih (by omega)) hwait hwait' hpriority).1
  obtain ⟨hwait, -⟩ := hwaits j hij (by omega)
  obtain ⟨hwait', hpriority⟩ := hwaits (j + 1) (by omega) le_rfl
  rw [run_take_succ hlast] at hwait' hpriority
  exact ((owned_run _).ahead_step (hstep j hij le_rfl) hwait hwait' hpriority).2 hagain

/-- The spawned task and the kernel task alternate. -/
theorem round_robin_of_two :
    ∃ m, 1 < m ∧ m < 5 ∧ selectedAt [(0, .spawn .high), (0, .yieldNow), (0, .switchStacks),
      (0, .yieldNow), (0, .switchStacks), (0, .yieldNow)] m = some (0, .high, ⟨0, by decide⟩) := by
  refine round_robin _ 0 .high ⟨2, by decide⟩ _ 1 5 (by decide) (by decide) (by decide) (by decide)
    fun k hik hkj hnot => ?_
  have hk : k ≤ 3 := by
    by_contra hlt
    exact hnot 3 (by decide) (by omega) (by decide)
  obtain rfl | rfl : k = 2 ∨ k = 3 := by omega
  · exact ⟨⟨by decide, by decide⟩, by decide⟩
  · exact ⟨⟨by decide, by decide⟩, by decide⟩

end Cpus

end WovenHat.Task
