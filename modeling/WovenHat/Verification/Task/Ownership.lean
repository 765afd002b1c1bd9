import WovenHat.Model.Task.Cpus
import WovenHat.Verification.Task.TaskTable

/-! # Ownership of tasks and stacks

A task belongs to one CPU. Only that CPU runs it, and only that CPU clears its slot, which it
does not while it is on the stack of the task. -/

namespace WovenHat.Task.Cpus

open Scheduler TaskControlBlock Capabilities Function List Option

variable {c c' d : Cpus} {cpu : ℕ} {slot : Slot}

def task (c : Cpus) (slot : Slot) : TaskControlBlock := c.scheduler.tasks slot

/-- The slot holds a task of this CPU. -/
def Holds (c : Cpus) (slot : Slot) (cpu : ℕ) : Prop :=
  (c.task slot).state ≠ .empty ∧ (c.task slot).cpu = cpu

/-- A running task is the current one of its CPU, and every CPU that is up has a task of its
own as current task and another, or the same, whose stack it is on. -/
structure Owned (c : Cpus) : Prop where
  running : ∀ slot, (c.task slot).state = .running →
    c.online (c.task slot).cpu = true ∧ c.scheduler.currentSlot (c.task slot).cpu = slot
  current : ∀ cpu, c.online cpu = true → c.Holds (c.scheduler.currentSlot cpu) cpu
  stack : ∀ cpu, c.online cpu = true → c.Holds (c.stack cpu) cpu

/-- The same task is in the block, or there is none in one of the two. -/
def SameLife (t t' : TaskControlBlock) : Prop :=
  t.state ≠ .empty → t'.state ≠ .empty → t'.cpu = t.cpu ∧ t'.id = t.id

/-! ## Calm steps -/

structure CalmTask (t t' : TaskControlBlock) : Prop where
  id : t'.id = t.id
  cpu : t'.cpu = t.cpu
  occupied : t.state ≠ .empty → t'.state ≠ .empty
  running : t'.state = .running → t.state = .running

theorem CalmTask.refl (t : TaskControlBlock) : CalmTask t t :=
  ⟨rfl, rfl, fun h => h, fun h => h⟩

structure Calm (c c' : Cpus) : Prop where
  tasks : ∀ slot, CalmTask (c.task slot) (c'.task slot)
  currentSlot : c'.scheduler.currentSlot = c.scheduler.currentSlot
  lastSelected : c'.scheduler.lastSelected = c.scheduler.lastSelected
  online : c'.online = c.online
  stack : c'.stack = c.stack
  capabilities : c'.capabilities = c.capabilities
  forking : c'.forking = c.forking

theorem Calm.holds (h : Calm c c') (hholds : c.Holds slot cpu) : c'.Holds slot cpu :=
  ⟨(h.tasks slot).occupied hholds.1, (h.tasks slot).cpu.trans hholds.2⟩

theorem Owned.calm (howned : Owned c) (h : Calm c c') : Owned c' where
  running slot hrunning := by
    obtain ⟨hup, hcur⟩ := howned.running slot ((h.tasks slot).running hrunning)
    rw [(h.tasks slot).cpu, h.online, h.currentSlot]
    exact ⟨hup, hcur⟩
  current cpu hup := by
    rw [h.currentSlot]
    exact h.holds (howned.current cpu (by rwa [h.online] at hup))
  stack cpu hup := by
    rw [h.stack]
    exact h.holds (howned.stack cpu (by rwa [h.online] at hup))

theorem Calm.refl (c : Cpus) : Calm c c :=
  ⟨fun _ => .refl _, rfl, rfl, rfl, rfl, rfl, rfl⟩

variable {s : Scheduler} {t : TaskControlBlock} {owner : ℕ} {op : Op} {l : ℕ × Op}

/-- Only the scheduler changes, and of it only blocks. -/
theorem Calm.of_tasks (htasks : ∀ slot, CalmTask (c.task slot) (s.tasks slot))
    (hcur : s.currentSlot = c.scheduler.currentSlot)
    (hlast : s.lastSelected = c.scheduler.lastSelected) : Calm c { c with scheduler := s } :=
  ⟨htasks, hcur, hlast, rfl, rfl, rfl, rfl⟩

theorem calm_setTask (ht : CalmTask (s.tasks slot) t)
    (i : Slot) : CalmTask (s.tasks i) ((s.setTask slot t).tasks i) := by
  by_cases hi : i = slot
  · subst hi
    rw [setTask_self]
    exact ht
  · rw [setTask_of_ne s hi]
    exact .refl _

theorem calm_wakeSleeping (s : Scheduler) (now : ℕ) (slot : Slot) :
    CalmTask (s.tasks slot) ((s.wakeSleeping now).tasks slot) := by
  dsimp only [wakeSleeping]
  split
  · exact ⟨rfl, rfl, fun _ => nofun, nofun⟩
  · exact .refl _

theorem CalmTask.trans {t' t'' : TaskControlBlock} (h : CalmTask t t') (h' : CalmTask t' t'') :
    CalmTask t t'' :=
  ⟨h'.id.trans h.id, h'.cpu.trans h.cpu, fun ht => h'.occupied (h.occupied ht),
    fun ht => h.running (h'.running ht)⟩

theorem calm_tick (c : Cpus) (cpu now : ℕ) :
    Calm c { c with scheduler := (c.scheduler.tick cpu now).2 } := by
  have hwake := calm_wakeSleeping c.scheduler now
  unfold tick
  dsimp only
  split
  · exact .of_tasks hwake rfl rfl
  · split <;>
      refine .of_tasks (fun i => (hwake i).trans (calm_setTask ?_ i)) rfl rfl <;>
      exact ⟨rfl, rfl, fun h => h, fun h => h⟩

theorem calm_wakeTask (c : Cpus) (id : ℕ) :
    Calm c { c with scheduler := (c.scheduler.wakeTask id).2 } := by
  unfold wakeTask
  split
  · exact .refl c
  · exact .of_tasks (calm_setTask ⟨rfl, rfl, fun _ => nofun, nofun⟩) rfl rfl

theorem calm_killTasks (c : Cpus) (ids : List ℕ) : Calm c (c.killTasks ids) := by
  refine .of_tasks (fun slot => ?_) rfl rfl
  dsimp only [Cpus.killTasks, Scheduler.killTasks, task]
  split
  · exact ⟨rfl, rfl, fun _ => nofun, nofun⟩
  · exact .refl _

theorem calm_setCurrent (ht : CalmTask (c.current cpu) t) : Calm c (c.setCurrent cpu t) :=
  .of_tasks (calm_setTask ht) rfl rfl

theorem calm_endCurrent (c : Cpus) (cpu : ℕ) : Calm c (c.endCurrent cpu) :=
  have h : Calm c (c.setCurrent cpu { c.current cpu with state := .dead }) :=
    calm_setCurrent ⟨rfl, rfl, fun _ => nofun, nofun⟩
  .of_tasks h.tasks rfl rfl

/-! ## Reaping -/

theorem reapDead_task (c : Cpus) (cpu : ℕ) (slot : Slot) : (c.reapDead cpu).task slot =
      if c.reaps cpu slot then TaskControlBlock.empty else c.task slot := by
  simp only [reapDead, task, Scheduler.reapDead, reaps, Bool.and_eq_true, decide_eq_true_eq,
    beq_iff_eq, and_assoc, ne_eq]

/-- A CPU clears neither its current slot nor a slot of another CPU. -/
theorem Owned.not_reaps {other : ℕ} (howned : Owned c) (hsettled : c.settled cpu = true)
    (hup : c.online other = true) :
    c.reaps cpu (c.scheduler.currentSlot other) = false ∧ c.reaps cpu (c.stack other) = false := by
  have hslot : ∀ slot, c.Holds slot other → (other = cpu → slot = c.scheduler.currentSlot cpu) →
      c.reaps cpu slot = false := by
    intro slot hholds hself
    by_contra hreaps
    simp only [reaps, Bool.not_eq_false, Bool.and_eq_true, decide_eq_true_eq, beq_iff_eq] at hreaps
    exact hreaps.1.1 (hself (hholds.2.symm.trans hreaps.2))
  refine ⟨hslot _ (howned.current other hup) fun h => by rw [h],
    hslot _ (howned.stack other hup) fun h => ?_⟩
  rw [h]
  exact beq_iff_eq.mp hsettled

theorem holds_reapDead (h : c.Holds slot owner) (hkeep : c.reaps cpu slot = false) :
    (c.reapDead cpu).Holds slot owner := by
  unfold Holds
  rw [reapDead_task, hkeep]
  exact h

theorem Owned.reapDead (howned : Owned c) (hsettled : c.settled cpu = true) :
    Owned (c.reapDead cpu) where
  running slot hrunning := by
    rw [reapDead_task] at hrunning ⊢
    split at hrunning
    · cases hrunning
    rename_i hreaps
    rw [if_neg hreaps]
    exact howned.running slot hrunning
  current other hup := holds_reapDead (howned.current other hup) (howned.not_reaps hsettled hup).1
  stack other hup := holds_reapDead (howned.stack other hup) (howned.not_reaps hsettled hup).2

theorem sameLife_reapDead (c : Cpus) (cpu : ℕ) (slot : Slot) :
    SameLife (c.task slot) ((c.reapDead cpu).task slot) := by
  intro _ hocc
  rw [reapDead_task] at hocc ⊢
  split at hocc
  · exact absurd rfl hocc
  rename_i hreaps
  rw [if_neg hreaps]
  exact ⟨rfl, rfl⟩

/-! ## Switching -/

/-- What `prepare_switch` does after reaping: nothing, or a ready task of the CPU runs instead
of the current one. -/
theorem prepareSwitch_running (s : Scheduler) (cpu : ℕ) : (s.prepareSwitch cpu).2 = s.reapDead cpu ∨
      ∃ next, ((s.reapDead cpu).tasks next).state = .ready ∧
        ((s.reapDead cpu).tasks next).cpu = cpu ∧
        (s.prepareSwitch cpu).2.currentSlot = update s.currentSlot cpu next ∧
        ∀ slot, ((s.prepareSwitch cpu).2.tasks slot).state = .running →
          slot = next ∨ ((s.reapDead cpu).tasks slot).state = .running ∧
            slot ≠ s.currentSlot cpu := by
  cases h : (s.reapDead cpu).nextSlot cpu with
  | none =>
    rw [Scheduler.prepareSwitch, h]
    exact .inl rfl
  | some found =>
    obtain ⟨hready, hcpu⟩ := nextSlot_ready h
    refine .inr ⟨found.2, hready, hcpu, by rw [Scheduler.prepareSwitch, h]; rfl, fun slot => ?_⟩
    rw [prepareSwitch_tasks h]
    split
    · exact fun _ => .inl ‹_›
    split
    · rintro ⟨⟩
    · rename_i hprev
      exact fun hrunning => .inr ⟨hrunning, fun heq => hprev ⟨heq, hrunning⟩⟩

theorem prepareSwitch_task (c : Cpus) (cpu : ℕ) (slot : Slot) :
    ((c.reapDead cpu).task slot).Same ((c.prepareSwitch cpu).task slot) :=
  (prepareSwitch_same c.scheduler cpu).1 slot

theorem holds_prepareSwitch (h : (c.reapDead cpu).Holds slot owner) :
    (c.prepareSwitch cpu).Holds slot owner :=
  have hsame := prepareSwitch_task c cpu slot
  ⟨fun hempty => h.1 (hsame.empty_iff.mp hempty), hsame.2.1.trans h.2⟩

theorem Owned.prepareSwitch (howned : Owned c) (hsettled : c.settled cpu = true)
    (hup : c.online cpu = true) : Owned (c.prepareSwitch cpu) := by
  have hreap := howned.reapDead hsettled
  rcases prepareSwitch_running c.scheduler cpu with hsame | ⟨next, hready, hcpu, hcur, hrun⟩
  · -- no task is ready
    have heq : c.prepareSwitch cpu = c.reapDead cpu := by
      rw [Cpus.prepareSwitch, hsame]
      rfl
    rw [heq]
    exact hreap
  · have hslot : (c.prepareSwitch cpu).scheduler.currentSlot =
        update c.scheduler.currentSlot cpu next := hcur
    have hstate : ((c.reapDead cpu).task next).state = .ready := hready
    have hnext : (c.reapDead cpu).Holds next cpu := ⟨by rw [hstate]; nofun, hcpu⟩
    refine ⟨fun slot hrunning => ?_, fun other hother => ?_, fun other hother => ?_⟩
    · rw [hslot, (prepareSwitch_task c cpu slot).2.1]
      rcases hrun slot hrunning with rfl | ⟨hwas, hne⟩
      · rw [hnext.2]
        exact ⟨hup, update_self ..⟩
      obtain ⟨hother, howner⟩ := hreap.running slot hwas
      refine ⟨hother, ?_⟩
      rw [update_of_ne]
      · exact howner
      intro hself
      rw [hself] at howner
      exact hne howner.symm
    · rw [hslot]
      by_cases hself : other = cpu
      · subst hself
        rw [update_self]
        exact holds_prepareSwitch hnext
      · rw [update_of_ne hself]
        exact holds_prepareSwitch (hreap.current other hother)
    · exact holds_prepareSwitch (hreap.stack other hother)

theorem sameLife_prepareSwitch (c : Cpus) (cpu : ℕ) (slot : Slot) :
    SameLife (c.task slot) ((c.prepareSwitch cpu).task slot) := by
  intro hbefore hafter
  have hsame := prepareSwitch_task c cpu slot
  have hreap := sameLife_reapDead c cpu slot hbefore fun h => hafter (hsame.empty_iff.mpr h)
  exact ⟨hsame.2.1.trans hreap.1, hsame.1.trans hreap.2⟩

/-! ## New tasks -/

/-- A task appears in an empty slot. -/
structure Added (c : Cpus) (slot : Slot) (c' : Cpus) : Prop where
  empty : (c.task slot).state = .empty
  occupied : (c'.task slot).state ≠ .empty
  others : ∀ i, i ≠ slot → c'.task i = c.task i
  lastSelected : c'.scheduler.lastSelected = c.scheduler.lastSelected
  capabilities : c'.capabilities = c.capabilities
  forking : c'.forking = update c.forking slot none

structure Placed (c : Cpus) (slot : Slot) (c' : Cpus) : Prop extends Added c slot c' where
  ready : (c'.task slot).state = .ready
  currentSlot : c'.scheduler.currentSlot = c.scheduler.currentSlot
  online : c'.online = c.online
  stack : c'.stack = c.stack

theorem placed_of_place {priority : TaskPriority} (h : c.place priority = some (slot, c')) :
    Placed c slot c' := by
  unfold place Scheduler.spawn at h
  cases hfind : (finRange maxTasks).find? fun slot =>
      (c.scheduler.tasks slot).state == .empty with
  | none =>
    rw [hfind] at h
    cases h
  | some i =>
    rw [hfind] at h
    cases h
    have hempty := find?_some hfind
    refine ⟨⟨beq_iff_eq.mp hempty, ?_, fun j hj => ?_, rfl, rfl, rfl⟩, ?_, rfl, rfl, rfl⟩
    · simp only [task, setTask_self]
      nofun
    · simp only [task, setTask_of_ne _ hj]
    · simp only [task, setTask_self]

theorem Added.ne (h : Added c slot c') {i : Slot} (hi : (c.task i).state ≠ .empty) : i ≠ slot := by
  rintro rfl
  exact hi h.empty

theorem Added.holds (h : Added c slot c') {i : Slot} (hi : c.Holds i owner) : c'.Holds i owner := by
  unfold Holds
  rwa [h.others i (h.ne hi.1)]

theorem Added.sameLife (h : Added c slot c') (i : Slot) : SameLife (c.task i) (c'.task i) := by
  intro hbefore _
  rw [h.others i (h.ne hbefore)]
  exact ⟨rfl, rfl⟩

theorem Owned.place (howned : Owned c) (h : Placed c slot c') : Owned c' where
  running i hrunning := by
    by_cases hi : i = slot
    · rw [hi, h.ready] at hrunning
      cases hrunning
    rw [h.others i hi] at hrunning ⊢
    rw [h.online, h.currentSlot]
    exact howned.running i hrunning
  current cpu hup := by
    rw [h.currentSlot]
    exact h.holds (howned.current cpu (by rwa [h.online] at hup))
  stack cpu hup := by
    rw [h.stack]
    exact h.holds (howned.stack cpu (by rwa [h.online] at hup))

theorem placed_spawnOn (h : c.spawnOn cpu = some c') : ∃ slot, Placed c slot c' := by
  obtain ⟨⟨slot, c''⟩, hplace, heq⟩ := map_eq_some_iff.mp h
  cases heq
  have hplaced := placed_of_place hplace
  refine ⟨slot, { hplaced with occupied := ?_, others := fun i hi => ?_, ready := ?_ }⟩
  · simp only [task, setTask_self]
    exact hplaced.occupied
  · simp only [task, setTask_of_ne _ hi]
    exact hplaced.others i hi
  · simp only [task, setTask_self]
    exact hplaced.ready

structure Started (c : Cpus) (cpu : ℕ) (slot : Slot) (c' : Cpus) : Prop
    extends Added c slot c' where
  running : (c'.task slot).state = .running
  owner : (c'.task slot).cpu = cpu
  currentSlot : c'.scheduler.currentSlot = update c.scheduler.currentSlot cpu slot
  online : c'.online = update c.online cpu true
  stack : c'.stack = update c.stack cpu slot

theorem started_of_initAp (h : c.initAp cpu = some c') : ∃ slot, Started c cpu slot c' := by
  obtain ⟨⟨slot, c''⟩, hplace, heq⟩ := map_eq_some_iff.mp h
  have hplaced := placed_of_place hplace
  cases heq
  refine ⟨slot, { hplaced with occupied := ?_, others := fun i hi => ?_ }, ?_, ?_, ?_, ?_, ?_⟩
  · simp only [task, setTask_self]
    nofun
  · simp only [task, setTask_of_ne _ hi]
    exact hplaced.others i hi
  · simp only [task, setTask_self]
  · simp only [task, setTask_self]
  · rw [← hplaced.currentSlot]
  · rw [← hplaced.online]
  · rw [← hplaced.stack]

theorem Started.holds_update (h : Started c cpu slot c') {table : ℕ → Slot}
    (htable : ∀ other, c.online other = true → c.Holds (table other) other) (other : ℕ)
    (hup : c'.online other = true) : c'.Holds (update table cpu slot other) other := by
  by_cases hself : other = cpu
  · subst hself
    rw [update_self]
    exact ⟨h.occupied, h.owner⟩
  · rw [h.online, update_of_ne hself] at hup
    rw [update_of_ne hself]
    exact h.holds (htable other hup)

theorem Owned.start (howned : Owned c) (hdown : c.online cpu = false)
    (h : Started c cpu slot c') : Owned c' where
  running i hrunning := by
    by_cases hi : i = slot
    · subst hi
      rw [h.owner, h.online, h.currentSlot, update_self, update_self]
      exact ⟨rfl, rfl⟩
    rw [h.others i hi] at hrunning ⊢
    obtain ⟨hup, hcur⟩ := howned.running i hrunning
    have hne : (c.task i).cpu ≠ cpu := by
      intro hself
      rw [hself, hdown] at hup
      cases hup
    rw [h.online, h.currentSlot, update_of_ne hne, update_of_ne hne]
    exact ⟨hup, hcur⟩
  current := by
    rw [h.currentSlot]
    exact h.holds_update howned.current
  stack := by
    rw [h.stack]
    exact h.holds_update howned.stack

/-! ## Steps -/

structure Keeps (c c' : Cpus) : Prop where
  owned : Owned c → Owned c'
  sameLife : ∀ slot, SameLife (c.task slot) (c'.task slot)
  /-- The CPUs do not leave their stacks, or no block changes. -/
  stack : (∀ cpu, c.online cpu = true → c'.online cpu = true ∧ c'.stack cpu = c.stack cpu) ∨
    c'.task = c.task

theorem Calm.keeps (h : Calm c c') : Keeps c c' where
  owned howned := howned.calm h
  sameLife slot _ _ := ⟨(h.tasks slot).cpu, (h.tasks slot).id⟩
  stack := .inl fun cpu hup => ⟨by rw [h.online, hup], by rw [h.stack]⟩

theorem Placed.keeps (h : Placed c slot c') : Keeps c c' where
  owned howned := howned.place h
  sameLife := h.sameLife
  stack := .inl fun cpu hup => ⟨by rw [h.online, hup], by rw [h.stack]⟩

theorem Started.keeps (h : Started c cpu slot c') (hdown : c.online cpu = false) : Keeps c c' where
  owned howned := howned.start hdown h
  sameLife := h.sameLife
  stack := by
    refine .inl fun other hup => ?_
    have hne : other ≠ cpu := by
      rintro rfl
      rw [hdown] at hup
      cases hup
    rw [h.online, h.stack, update_of_ne hne, update_of_ne hne]
    exact ⟨hup, rfl⟩

theorem keeps_prepareSwitch (h : Calm c c') (hsettled : c'.settled cpu = true)
    (hup : c.online cpu = true) : Keeps c (c'.prepareSwitch cpu) where
  owned howned := (howned.calm h).prepareSwitch hsettled (by rw [h.online, hup])
  sameLife slot hbefore hafter := by
    have hswitch := sameLife_prepareSwitch c' cpu slot ((h.tasks slot).occupied hbefore) hafter
    exact ⟨hswitch.1.trans (h.tasks slot).cpu, hswitch.2.trans (h.tasks slot).id⟩
  stack := .inl fun other hother => ⟨by show c'.online other = true; rw [h.online, hother],
    by show c'.stack other = _; rw [h.stack]⟩

theorem Owned.switchStacks (howned : Owned c) (hup : c.online cpu = true) :
    Owned (c.switchStacks cpu) where
  running := howned.running
  current := howned.current
  stack other hother := by
    show c.Holds (update c.stack cpu (c.scheduler.currentSlot cpu) other) other
    by_cases hself : other = cpu
    · subst hself
      rw [update_self]
      exact howned.current other hup
    · rw [update_of_ne hself]
      exact howned.stack other hother

theorem settled_calm (h : Calm c c') : c'.settled cpu = c.settled cpu := by
  unfold settled
  rw [h.stack, h.currentSlot]

theorem settled_of_mayLeave (h : c.mayLeave cpu = true) : c.settled cpu = true :=
  ((Bool.and_eq_true _ _).mp h).1

theorem Keeps.switchStacks (hup : c.online cpu = true) : Keeps c (c.switchStacks cpu) where
  owned howned := howned.switchStacks hup
  sameLife _ _ _ := ⟨rfl, rfl⟩
  stack := .inr rfl

theorem perform_of_step (h : step c l = some c') :
    c.online l.1 = (l.2 != .initAp) ∧ c.perform l.1 l.2 = some c' := by
  unfold step at h
  split at h
  · rename_i hup
    exact ⟨hup, h⟩
  · cases h

/-- The state in which a scheduling decision calls `prepare_switch`. -/
def deciding (c : Cpus) (cpu : ℕ) : Op → Option Cpus
  | .yieldNow => some c
  | .preempt now => some { c with scheduler := c.scheduler.wakeSleeping now }
  | .blockCurrent => some (c.setCurrent cpu { c.current cpu with state := .blocked })
  | .sleepCurrent now ticks => some (c.setCurrent cpu { c.current cpu with
      wakeTick := min (now + max ticks 1) (2 ^ 64 - 1), state := .sleeping })
  | .exitTask => some (c.endCurrent cpu)
  | _ => none

theorem step_deciding (h : step c (cpu, op) = some c') (hd : c.deciding cpu op = some d) :
    c' = d.prepareSwitch cpu ∧ Calm c d ∧ c.settled cpu = true ∧ c.online cpu = true := by
  obtain ⟨hup, hperform⟩ := perform_of_step h
  cases op with
  | yieldNow =>
    obtain ⟨hsettled, heq⟩ := ite_none_right_eq_some.mp hperform
    cases heq
    cases hd
    exact ⟨rfl, .refl c, hsettled, hup⟩
  | preempt now =>
    obtain ⟨hsettled, heq⟩ := ite_none_right_eq_some.mp hperform
    cases heq
    cases hd
    exact ⟨rfl, .of_tasks (calm_wakeSleeping c.scheduler now) rfl rfl, hsettled, hup⟩
  | blockCurrent | sleepCurrent now ticks =>
    obtain ⟨hleave, heq⟩ := ite_none_right_eq_some.mp hperform
    cases heq
    cases hd
    exact ⟨rfl, calm_setCurrent ⟨rfl, rfl, fun _ => nofun, nofun⟩, settled_of_mayLeave hleave, hup⟩
  | exitTask =>
    obtain ⟨hleave, heq⟩ := ite_none_right_eq_some.mp hperform
    cases heq
    cases hd
    exact ⟨rfl, calm_endCurrent c cpu, settled_of_mayLeave hleave, hup⟩
  | _ => cases hd

/-- The calls that write capabilities. -/
def Empowers : Op → Prop
  | .spawnUser | .forkBegin | .forkCurrent | .grant .. | .revoke .. => True
  | _ => False

/-- What a call can do. -/
inductive Transition (c : Cpus) (cpu : ℕ) (op : Op) : Cpus → Prop
  | calm {c' : Cpus} (h : Calm c c') : Transition c cpu op c'
  | decision {d : Cpus} (hd : c.deciding cpu op = some d) (h : Calm c d)
      (hsettled : c.settled cpu = true) (hup : c.online cpu = true) :
      Transition c cpu op (d.prepareSwitch cpu)
  | placed {c' : Cpus} {slot : Slot} (h : Placed c slot c') : Transition c cpu op c'
  | started {c' : Cpus} {slot : Slot} (h : Started c cpu slot c')
      (hdown : c.online cpu = false) : Transition c cpu op c'
  | reaped (hsettled : c.settled cpu = true) : Transition c cpu op (c.reapDead cpu)
  | switched (hup : c.online cpu = true) : Transition c cpu op (c.switchStacks cpu)
  | empowered {c' : Cpus} (hop : Empowers op) (h : Calm c c' ∨ ∃ slot, Placed c slot c')
      (capabilities : Slot → CapabilitySet) (forking : Slot → Option CapabilitySet) :
      Transition c cpu op { c' with capabilities, forking }

theorem transition_of_step (h : step c (cpu, op) = some c') : Transition c cpu op c' := by
  obtain ⟨hup, hperform⟩ := perform_of_step h
  cases op with
  | yieldNow | preempt | blockCurrent | sleepCurrent | exitTask =>
    obtain ⟨rfl, hcalm, hsettled, hup⟩ := step_deciding h rfl
    exact .decision rfl hcalm hsettled hup
  | tick now =>
    cases hperform
    exact .calm (calm_tick c cpu now)
  | wakeTask id =>
    cases hperform
    exact .calm (calm_wakeTask c id)
  | exitInPlace =>
    cases (ite_none_right_eq_some.mp hperform).2
    exact .calm (calm_endCurrent c cpu)
  | kill ids =>
    cases hperform
    exact .calm (calm_killTasks c ids)
  | spawn priority =>
    obtain ⟨⟨slot, c''⟩, hplace, rfl⟩ := map_eq_some_iff.mp hperform
    exact .placed (placed_of_place hplace)
  | spawnOn cpu' =>
    obtain ⟨_, hspawn⟩ := ite_none_right_eq_some.mp hperform
    obtain ⟨slot, hplaced⟩ := placed_spawnOn hspawn
    exact .placed hplaced
  | initAp =>
    obtain ⟨slot, hstarted⟩ := started_of_initAp hperform
    exact .started hstarted hup
  | reapDead =>
    obtain ⟨hsettled, heq⟩ := ite_none_right_eq_some.mp hperform
    cases heq
    exact .reaped hsettled
  | spawnUser =>
    obtain ⟨⟨slot, c''⟩, hplace, rfl⟩ := map_eq_some_iff.mp hperform
    exact .empowered (by trivial) (.inr ⟨slot, placed_of_place hplace⟩) _ _
  | forkBegin =>
    cases (ite_none_right_eq_some.mp hperform).2
    exact .empowered (by trivial) (.inl (.refl c)) _ _
  | forkCurrent =>
    obtain ⟨_, hfork⟩ := ite_none_right_eq_some.mp hperform
    unfold forkCurrent at hfork
    split at hfork
    · cases hfork
    · obtain ⟨⟨slot, c''⟩, hplace, rfl⟩ := map_eq_some_iff.mp hfork
      exact .empowered (by trivial) (.inr ⟨slot, placed_of_place hplace⟩) _ _
  | execCurrent =>
    cases hperform
    exact .calm (.refl c)
  | takeId =>
    cases hperform
    exact .calm (.of_tasks (fun _ => .refl _) rfl rfl)
  | grant | revoke =>
    obtain ⟨_, hgrant⟩ := ite_none_left_eq_some.mp hperform
    obtain ⟨slot, _, rfl⟩ := map_eq_some_iff.mp hgrant
    exact .empowered (by trivial) (.inl (.refl c)) _ _
  | switchStacks =>
    cases hperform
    exact .switched hup

theorem Keeps.empowered (h : Keeps c c') (capabilities : Slot → CapabilitySet)
    (forking : Slot → Option CapabilitySet) : Keeps c { c' with capabilities, forking } where
  owned howned := ⟨(h.owned howned).running, (h.owned howned).current, (h.owned howned).stack⟩
  sameLife := h.sameLife
  stack := h.stack

theorem keeps_step (hstep : step c l = some c') : Keeps c c' := by
  cases transition_of_step hstep with
  | calm h => exact h.keeps
  | decision _ h hsettled hup => exact keeps_prepareSwitch h ((settled_calm h).trans hsettled) hup
  | placed h => exact h.keeps
  | started h hdown => exact h.keeps hdown
  | reaped hsettled =>
    exact ⟨fun howned => howned.reapDead hsettled, sameLife_reapDead c l.1,
      .inl fun _ hother => ⟨hother, rfl⟩⟩
  | switched hup => exact .switchStacks hup
  | empowered _ h capabilities forking =>
    rcases h with h | ⟨slot, h⟩
    · exact h.keeps.empowered capabilities forking
    · exact h.keeps.empowered capabilities forking

/-! ## Runs -/

theorem owned_boot : Owned boot where
  running slot hrunning := by
    revert hrunning
    revert slot
    decide
  current cpu hup := by
    have hzero : cpu = 0 := by simpa [boot] using hup
    subst hzero
    exact ⟨by decide, by decide⟩
  stack cpu hup := by
    have hzero : cpu = 0 := by simpa [boot] using hup
    subst hzero
    exact ⟨by decide, by decide⟩

theorem run_concat (ops : List (ℕ × Op)) (l : ℕ × Op) :
    run (ops ++ [l]) = (step (run ops) l).getD (run ops) := by
  simp [run]

theorem Keeps.next (c : Cpus) (l : ℕ × Op) : Keeps c ((step c l).getD c) := by
  cases hstep : step c l with
  | none => exact (Calm.refl c).keeps
  | some c' => exact keeps_step hstep

theorem owned_run (ops : List (ℕ × Op)) : Owned (run ops) := by
  induction ops using reverseRecOn with
  | nil => exact owned_boot
  | append_singleton ops l ih =>
    rw [run_concat]
    exact (Keeps.next _ l).owned ih

theorem sameLife_run (ops more : List (ℕ × Op)) (slot : Slot)
    (h : ∀ k, ((run (ops ++ more.take k)).task slot).state ≠ .empty) :
    ((run (ops ++ more)).task slot).cpu = ((run ops).task slot).cpu ∧
      ((run (ops ++ more)).task slot).id = ((run ops).task slot).id := by
  induction more using reverseRecOn with
  | nil =>
    rw [append_nil]
    exact ⟨rfl, rfl⟩
  | append_singleton more l ih =>
    have hbefore : ∀ k, ((run (ops ++ more.take k)).task slot).state ≠ .empty := by
      intro k
      have hk := h (min k more.length)
      rwa [take_append_of_le_length (Nat.min_le_right _ _), ← take_eq_take_min] at hk
    have hafter := h (more ++ [l]).length
    obtain ⟨hcpu, hid⟩ := ih hbefore
    have hlast := hbefore more.length
    rw [take_length] at hafter hlast
    rw [← append_assoc, run_concat] at hafter ⊢
    obtain ⟨hcpu', hid'⟩ := (Keeps.next _ l).sameLife slot hlast hafter
    exact ⟨hcpu'.trans hcpu, hid'.trans hid⟩

theorem stack_step (howned : Owned c) (l : ℕ × Op) (hup : c.online cpu = true) :
    (((step c l).getD c).task (c.stack cpu)).state ≠ .empty ∧
      (((step c l).getD c).task (c.stack cpu)).id = (c.task (c.stack cpu)).id := by
  have hkeeps := Keeps.next c l
  have hbefore := (howned.stack cpu hup).1
  have hafter : (((step c l).getD c).task (c.stack cpu)).state ≠ .empty := by
    rcases hkeeps.stack with hstack | htask
    · obtain ⟨hup', hsame⟩ := hstack cpu hup
      have hholds := (hkeeps.owned howned).stack cpu hup'
      rw [hsame] at hholds
      exact hholds.1
    · rw [htask]
      exact hbefore
  exact ⟨hafter, (hkeeps.sameLife _ hbefore hafter).2⟩

/-- In every interleaving, a running task is the current one of the CPU it is pinned to, so
that there is at most one on each CPU; a task keeps its CPU as long as it has its slot; and no
step empties or reinitialises the slot on whose stack a CPU executes. -/
theorem scheduler_ownership (ops : List (ℕ × Op)) :
    (∀ slot, ((run ops).task slot).state = .running →
      (run ops).online ((run ops).task slot).cpu = true ∧
        (run ops).scheduler.currentSlot ((run ops).task slot).cpu = slot) ∧
    (∀ slot slot', ((run ops).task slot).state = .running →
      ((run ops).task slot').state = .running →
      ((run ops).task slot).cpu = ((run ops).task slot').cpu → slot = slot') ∧
    (∀ more slot, (∀ k, ((run (ops ++ more.take k)).task slot).state ≠ .empty) →
      ((run (ops ++ more)).task slot).cpu = ((run ops).task slot).cpu ∧
        ((run (ops ++ more)).task slot).id = ((run ops).task slot).id) ∧
    ∀ l cpu, (run ops).online cpu = true →
      ((run (ops ++ [l])).task ((run ops).stack cpu)).state ≠ .empty ∧
        ((run (ops ++ [l])).task ((run ops).stack cpu)).id =
          ((run ops).task ((run ops).stack cpu)).id := by
  have howned := owned_run ops
  refine ⟨howned.running, fun slot slot' hslot hslot' hcpu => ?_, sameLife_run ops,
    fun l cpu hup => ?_⟩
  · rw [← (howned.running slot hslot).2, hcpu, (howned.running slot' hslot').2]
  · rw [run_concat]
    exact stack_step howned l hup

end WovenHat.Task.Cpus
