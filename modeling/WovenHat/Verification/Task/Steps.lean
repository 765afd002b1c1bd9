import WovenHat.Verification.Task.TaskTable

/-! # Steps of the process table

What one step of a CPU can do to tasks and processes. -/

namespace WovenHat.Task

open Option

namespace System

open Scheduler TaskControlBlock Function

variable {s s' : System} {cpu : ℕ} {op : Op} {l : ℕ × Op}

/-! ## What a call ends -/

def ending : Op → Bool
  | .exitTask | .exitProcess _ | .kill _ _ => true
  | _ => false

def creating : Op → Bool
  | .spawnUser _ _ | .fork _ _ _ => true
  | _ => false

def reaping : Op → Bool
  | .wait _ => true
  | _ => false

def signalling : Op → Bool
  | .kill _ _ | .syscallReturn _ _ => true
  | _ => false

def endsProcess (s : System) : ℕ × Op → ProcessSlot → Bool
  | (cpu, .exitProcess _), i => s.processOf (s.scheduler.current cpu).id == some i
  | (cpu, .kill pid sig), i => sig ≤ 31 && s.killed cpu pid sig i
  | _, _ => false

def endsTask (s : System) : ℕ × Op → Slot → Bool
  | (cpu, .exitTask), slot => slot == s.scheduler.currentSlot cpu
  | (cpu, .exitProcess _), slot => slot == s.scheduler.currentSlot cpu
  | (cpu, .kill pid sig), slot =>
    sig ≤ 31 && (s.killsTask cpu pid sig (s.scheduler.tasks slot).id &&
      (s.scheduler.tasks slot).state ≠ .dead)
  | _, _ => false

theorem endsProcess_of_not (h : ending l.2 = false) (i : ProcessSlot) :
    s.endsProcess l i = false := by
  obtain ⟨cpu, op⟩ := l
  cases op <;> first | rfl | cases h

/-- What no call changes in a process. -/
structure Process.Lasts (p p' : Process) : Prop where
  id : p'.id = p.id
  taskId : p'.taskId = p.taskId
  parent : p'.parent = p.parent
  nine : p'.signalActions 9 = p.signalActions 9

theorem Process.Lasts.refl (p : Process) : p.Lasts p :=
  ⟨rfl, rfl, rfl, rfl⟩

/-- A new process takes the next ids, and its signal actions are the default ones or those of
its parent. -/
structure Process.Created (p : Process) (s s' : System) : Prop where
  state : p.state = .ready
  id : p.id = s.nextProcessId
  taskId : p.taskId = s.scheduler.nextTaskId
  nextId : s'.nextProcessId = s.nextProcessId + 1
  nextTaskId : s'.scheduler.nextTaskId = s.scheduler.nextTaskId + 1
  nine : p.signalActions 9 = 0 ∨ ∃ i, ∃ q ∈ s.processes i, p.signalActions 9 = q.signalActions 9

/-- What a call does to one entry of the process table. -/
inductive EntryStep (op : Op) (ends : Bool) (s s' : System) :
    Option Process → Option Process → Prop
  | free : EntryStep op ends s s' none none
  | kept {p p' : Process} (hlasts : p.Lasts p')
      (hstate : p'.state = .exited ↔ p.state = .exited ∨ ends)
      (hpending : signalling op = false → p'.pendingSignal = p.pendingSignal) :
      EntryStep op ends s s' (some p) (some p')
  | created {p' : Process} (hop : creating op) (hcreated : p'.Created s s') :
      EntryStep op ends s s' none (some p')
  | reaped {p : Process} (hop : reaping op) (hstate : p.state = .exited) :
      EntryStep op ends s s' (some p) none

theorem EntryStep.same {ends : Bool} (h : ends = false) (s s' : System) (o : Option Process) :
    EntryStep op ends s s' o o := by
  cases o with
  | none => exact .free
  | some p => exact .kept (.refl p) (by simp [h]) fun _ => rfl

/-- At most one entry is new. -/
def OneBirth (s s' : System) : Prop :=
  ∀ i j p q, s.processes i = none → s'.processes i = some p → s.processes j = none →
    s'.processes j = some q → i = j

theorem OneBirth.of_none (h : ∀ i, s.processes i = none → s'.processes i = none) :
    OneBirth s s' := by
  intro i j p q hi hp
  rw [h i hi] at hp
  cases hp

theorem OneBirth.of_entries {ends : ProcessSlot → Bool} (hop : creating op = false)
    (h : ∀ i, EntryStep op (ends i) s s' (s.processes i) (s'.processes i)) : OneBirth s s' := by
  refine .of_none fun i hi => ?_
  have hstep := h i
  rw [hi] at hstep
  generalize s'.processes i = o at hstep
  cases hstep with
  | free => rfl
  | created hcreating =>
    rw [hop] at hcreating
    cases hcreating

structure Follows (s : System) (l : ℕ × Op) (s' : System) : Prop where
  tasks : Tracks (fun slot => s.endsTask l slot) s.scheduler s'.scheduler
  ended : ending l.2 → ∀ slot, (s'.scheduler.tasks slot).Alive →
    (s.scheduler.tasks slot).Alive ∧ ¬s.endsTask l slot ∧
      (s'.scheduler.tasks slot).id = (s.scheduler.tasks slot).id
  next : s'.scheduler.nextTaskId ≤ s.scheduler.nextTaskId + 1
  online : ∀ cpu, s'.online cpu = true → s.online cpu = true ∨ s'.scheduler.Occupied cpu
  nextProcess : s.nextProcessId ≤ s'.nextProcessId
  births : OneBirth s s'
  processes : ∀ i, EntryStep l.2 (s.endsProcess l i) s s' (s.processes i) (s'.processes i)

/-- What is known of a process. Nobody can catch or ignore signal 9. -/
structure Process.Sane (s : System) (p : Process) : Prop where
  low : 2 ≤ p.taskId
  high : p.taskId < s.scheduler.nextTaskId
  pos : 0 < p.id
  lt : p.id < s.nextProcessId
  nine : p.signalActions 9 = 0

structure Sane (s : System) : Prop where
  ids : s.scheduler.IdsOk
  first : 2 ≤ s.scheduler.nextTaskId
  occupied : ∀ cpu, s.online cpu = true → s.scheduler.Occupied cpu
  nextProcess : 0 < s.nextProcessId
  processes : ∀ i p, s.processes i = some p → p.Sane s
  unique : ∀ i j p q, s.processes i = some p → s.processes j = some q → p.id = q.id → i = j

theorem sane_boot : Sane boot where
  ids := by
    refine ⟨by decide, fun slot => ?_⟩
    revert slot
    decide
  first := by decide
  occupied cpu hcpu := by
    have hzero : cpu = 0 := by simpa [boot] using hcpu
    subst hzero
    exact ⟨rfl, by decide⟩
  nextProcess := by decide
  processes i p h := by cases h
  unique i j p q h := by cases h

theorem Sane.follow (h : s.Sane) (hf : s.Follows l s')
    (hroom : s.scheduler.nextTaskId < 2 ^ 64 - 2) : s'.Sane where
  ids := by
    have hnext := hf.next
    exact hf.tasks.idsOk h.ids (by unfold emptyId; omega)
  first := le_trans h.first hf.tasks.next
  occupied cpu hcpu := by
    rcases hf.online cpu hcpu with hbefore | hnow
    · exact hf.tasks.occupied cpu (h.occupied cpu hbefore)
    · exact hnow
  nextProcess := h.nextProcess.trans_le hf.nextProcess
  processes i p' hp' := by
    have hmono := hf.tasks.next
    have hmono' := hf.nextProcess
    have hstep := hf.processes i
    rw [hp'] at hstep
    generalize hbefore : s.processes i = o at hstep
    cases hstep with
    | kept hlasts hstate hpending =>
      obtain ⟨hlow, hhigh, hpos, hlt, hnine⟩ := h.processes i _ hbefore
      obtain ⟨hid, htask, -, hnine'⟩ := hlasts
      exact ⟨by omega, by omega, by omega, by omega, hnine'.trans hnine⟩
    | created hop hcreated =>
      have hfirst := h.first
      have hfirst' := h.nextProcess
      obtain ⟨-, hid, htask, hnext, hnext', hnine⟩ := hcreated
      refine ⟨by omega, by omega, by omega, by omega, ?_⟩
      rcases hnine with hzero | ⟨j, q, hq, heq⟩
      · exact hzero
      · exact heq.trans (h.processes j q hq).nine
  unique i j p' q' hp' hq' heq := by
    have hi := hf.processes i
    have hj := hf.processes j
    rw [hp'] at hi
    rw [hq'] at hj
    generalize hbefore : s.processes i = o at hi
    generalize hbefore' : s.processes j = o' at hj
    cases hi with
    | kept hlasts =>
      have hlt := (h.processes i _ hbefore).lt
      cases hj with
      | kept hlasts' =>
        exact h.unique i j _ _ hbefore hbefore' (hlasts.id.symm.trans (heq.trans hlasts'.id))
      | created _ hcreated =>
        have hid := hlasts.id
        have hid' := hcreated.id
        omega
    | created _ hcreated =>
      cases hj with
      | kept hlasts' =>
        have hlt := (h.processes j _ hbefore').lt
        have hid := hlasts'.id
        have hid' := hcreated.id
        omega
      | created => exact hf.births i j p' q' hbefore hp' hbefore' hq'

/-! ## Calls that end nothing -/

theorem Follows.of_calm (hop : ending l.2 = false)
    (htasks : Tracks noneEnds s.scheduler s'.scheduler)
    (hnext : s'.scheduler.nextTaskId ≤ s.scheduler.nextTaskId + 1)
    (honline : ∀ cpu, s'.online cpu = true → s.online cpu = true ∨ s'.scheduler.Occupied cpu)
    (hnextProcess : s.nextProcessId ≤ s'.nextProcessId) (hbirths : OneBirth s s')
    (hprocs : ∀ i, EntryStep l.2 false s s' (s.processes i) (s'.processes i)) :
    s.Follows l s' where
  tasks := ⟨htasks.next, htasks.idsOk, htasks.occupied, fun slot _ => htasks.alive slot id⟩
  ended hends := by
    rw [hop] at hends
    cases hends
  next := hnext
  online := honline
  nextProcess := hnextProcess
  births := hbirths
  processes i := by
    rw [endsProcess_of_not hop]
    exact hprocs i

theorem Follows.of_scheduler {r : Scheduler} (hop : ending l.2 = false)
    (htasks : Tracks noneEnds s.scheduler r) (hnext : r.nextTaskId ≤ s.scheduler.nextTaskId + 1) :
    s.Follows l { s with scheduler := r } :=
  .of_calm hop htasks hnext (fun _ hcpu => .inl hcpu) (le_refl _) (.of_none fun _ h => h)
    fun _ => .same rfl _ _ _

theorem Follows.refl (hop : ending l.2 = false) (s : System) : s.Follows l s :=
  .of_scheduler hop (Evolves.refl _).toTracks (Nat.le_succ _)

@[simp]
theorem setProcess_self (s : System) (i : ProcessSlot) (p : Option Process) :
    (s.setProcess i p).processes i = p :=
  update_self _ _ _

variable {i : ProcessSlot}

theorem setProcess_of_ne (s : System) {j : ProcessSlot} (h : j ≠ i) (p : Option Process) :
    (s.setProcess i p).processes j = s.processes j :=
  update_of_ne h _ _

theorem OneBirth.setProcess {r : System} (h : r.processes = s.processes) (o : Option Process) :
    OneBirth s (r.setProcess i o) := by
  have hborn : ∀ j q, s.processes j = none → (r.setProcess i o).processes j = some q → j = i := by
    intro j q hj hq
    by_contra hne
    rw [setProcess_of_ne _ hne, h, hj] at hq
    cases hq
  intro j k p q hj hp hk hq
  exact (hborn j p hj hp).trans (hborn k q hk hq).symm

theorem Follows.of_setProcess {o : Option Process} (hop : ending l.2 = false)
    (h : EntryStep l.2 false s (s.setProcess i o) (s.processes i) o) :
    s.Follows l (s.setProcess i o) := by
  refine .of_calm hop (Evolves.refl _).toTracks (Nat.le_succ _) (fun _ hcpu => .inl hcpu)
    (le_refl _) (.setProcess rfl o) fun j => ?_
  by_cases hj : j = i
  · subst hj
    rwa [setProcess_self]
  · rw [setProcess_of_ne _ hj]
    exact .same rfl _ _ _

theorem EntryStep.of_map {f : Process → Process} (s s' : System) (o : Option Process)
    (hf : ∀ p, p.Lasts (f p) ∧ (f p).state = p.state ∧
      (f p).pendingSignal = p.pendingSignal) :
    EntryStep op false s s' o (o.map f) := by
  cases o with
  | none => exact .free
  | some p =>
    have hp := hf p
    exact .kept hp.1 (by simp [hp.2.1]) fun _ => hp.2.2

theorem follows_sigactionCurrent (s : System) (cpu sig handler : ℕ) :
    s.Follows (cpu, .sigaction sig handler) (s.sigactionCurrent cpu sig handler) := by
  unfold sigactionCurrent
  split
  · exact .refl rfl s
  rename_i hsig
  split
  · exact .refl rfl s
  · refine .of_setProcess rfl (.of_map _ _ _ fun p => ⟨⟨rfl, rfl, rfl, ?_⟩, rfl, rfl⟩)
    exact update_of_ne (by omega) _ _

theorem Process.prepareSignalDelivery_spec (p : Process) (frame : Option UserFrame)
    (copied : Bool) : (p.prepareSignalDelivery frame copied).2 = p ∨
      (p.prepareSignalDelivery frame copied).2 = { p with pendingSignal := 0 } := by
  unfold Process.prepareSignalDelivery takePendingSignal
  by_cases hidle : p.pendingSignal = 0 ∨ p.pendingSignal > 31 ∨
      p.signalActions p.pendingSignal ≤ 1
  · rw [if_pos hidle]
    exact .inl rfl
  · rw [if_neg hidle]
    cases frame with
    | none => exact .inr rfl
    | some f =>
      dsimp only
      split <;> exact .inr rfl

theorem follows_prepareSignalDelivery (s : System) (cpu : ℕ) (frame : Option UserFrame)
    (copied : Bool) : s.Follows (cpu, .syscallReturn frame copied)
      (s.prepareSignalDelivery cpu frame copied).2 := by
  unfold prepareSignalDelivery
  split
  · exact .refl rfl s
  split
  · exact .refl rfl s
  rename_i p hp
  refine .of_setProcess rfl ?_
  rw [hp]
  rcases p.prepareSignalDelivery_spec frame copied with heq | heq
  · rw [heq]
    exact .same rfl _ _ _
  · rw [heq]
    exact .kept ⟨rfl, rfl, rfl, rfl⟩ (by simp) nofun

theorem follows_setProcessGroup (hop : ending l.2 = false) (s : System) (cpu pid pgid : ℕ) :
    s.Follows l (s.setProcessGroup cpu pid pgid) := by
  unfold setProcessGroup
  dsimp only
  generalize (if pid = 0 then s.currentProcessId cpu else pid) = target
  split
  · exact .refl hop s
  split
  · exact .refl hop s
  · refine .of_setProcess hop (.of_map _ _ _ fun p => ?_)
    exact ⟨⟨rfl, rfl, rfl, rfl⟩, rfl, rfl⟩

theorem follows_waitProcess (hop : ending l.2 = false) (hreap : reaping l.2) (s : System)
    (cpu child : ℕ) : s.Follows l (s.waitProcess cpu child) := by
  unfold waitProcess
  dsimp only
  split
  · exact .refl hop s
  rename_i i _
  split
  · rename_i hexited
    obtain ⟨p, hp, hstate⟩ := (any_eq_true _ _).mp hexited
    refine .of_setProcess hop ?_
    rw [hp]
    exact .reaped hreap (beq_iff_eq.mp hstate)
  · exact .refl hop s

/-! ## Calls that create tasks -/

variable {slot : Slot}

theorem freeTask_empty (h : s.freeTask = some slot) : (s.scheduler.tasks slot).state = .empty := by
  have hfound := List.find?_some h
  exact beq_iff_eq.mp hfound

theorem freeProcess_none (h : s.freeProcess = some i) : s.processes i = none := by
  have hfound := List.find?_some h
  exact isNone_iff_eq_none.mp hfound

theorem evolves_spawnOn (s : System) (cpu : ℕ) (priority : TaskPriority) :
    Evolves noneEnds s.scheduler (s.spawnOn cpu priority).scheduler := by
  unfold spawnOn
  split
  · exact .refl _
  · rename_i slot hfree
    exact .create_next (freeTask_empty hfree) (by simp [Alive]) rfl rfl rfl rfl fun _ => .inl rfl

theorem follows_spawnOn (hop : ending l.2 = false) (s : System) (cpu : ℕ)
    (priority : TaskPriority) : s.Follows l (s.spawnOn cpu priority) := by
  have hrest : (s.spawnOn cpu priority).processes = s.processes ∧
      (s.spawnOn cpu priority).nextProcessId = s.nextProcessId ∧
      (s.spawnOn cpu priority).online = s.online := by
    unfold spawnOn
    split <;> exact ⟨rfl, rfl, rfl⟩
  obtain ⟨hprocesses, hnext, honline⟩ := hrest
  refine .of_calm hop (evolves_spawnOn s cpu priority).toTracks ?_ (fun c hc => .inl ?_) hnext.ge
    (.of_none fun i hi => ?_) fun i => ?_
  · unfold spawnOn
    split
    · exact Nat.le_succ _
    · exact le_refl _
  · rwa [honline] at hc
  · rwa [hprocesses]
  · rw [hprocesses]
    exact .same rfl _ _ _

theorem initAp_occupied (h : s.initAp cpu = some s') : s'.scheduler.Occupied cpu ∧
      ∀ c, c ≠ cpu → s'.scheduler.currentSlot c = s.scheduler.currentSlot c ∧
        s'.online c = s.online c := by
  unfold initAp at h
  split at h
  · cases h
  cases h
  refine ⟨?_, fun c hc => ⟨update_of_ne hc _ _, update_of_ne hc _ _⟩⟩
  simp [Occupied, current]

theorem evolves_initAp (h : s.initAp cpu = some s') :
    Evolves noneEnds s.scheduler s'.scheduler := by
  have hcur : ∀ c, s'.scheduler.currentSlot c = s.scheduler.currentSlot c ∨
      s'.scheduler.Occupied c := by
    intro c
    by_cases hc : c = cpu
    · subst hc
      exact .inr (initAp_occupied h).1
    · exact .inl ((initAp_occupied h).2 c hc).1
  unfold initAp at h
  split at h
  · cases h
  rename_i slot hfree
  cases h
  exact .create_next (freeTask_empty hfree) (by simp [Alive]) rfl rfl rfl rfl hcur

theorem follows_initAp (hop : ending l.2 = false) (h : s.initAp cpu = some s') :
    s.Follows l s' := by
  have hrest : s'.processes = s.processes ∧ s'.nextProcessId = s.nextProcessId ∧
      s'.scheduler.nextTaskId = s.scheduler.nextTaskId + 1 := by
    unfold initAp at h
    split at h
    · cases h
    · cases h
      exact ⟨rfl, rfl, rfl⟩
  obtain ⟨hprocesses, hnext, htask⟩ := hrest
  refine .of_calm hop (evolves_initAp h).toTracks htask.le (fun c hc => ?_) hnext.ge
    (.of_none fun i hi => ?_) fun i => ?_
  · by_cases hcpu : c = cpu
    · subst hcpu
      exact .inr (initAp_occupied h).1
    · rw [((initAp_occupied h).2 c hcpu).2] at hc
      exact .inl hc
  · rwa [hprocesses]
  · rw [hprocesses]
    exact .same rfl _ _ _

/-- The outcomes of creating a process: nothing changes, only the ids are taken, or there is
a new process with a task of its own. -/
inductive Births (r : System) : System → Prop
  | refused : Births r r
  | ids : Births r r.takeIds
  | born {slot : Slot} {i : ProcessSlot} {p : Process}
      (hempty : (r.scheduler.tasks slot).state = .empty) (hfree : r.processes i = none)
      (hcreated : p.Created r r.takeIds) :
      Births r ((r.takeIds.placeTask slot p.taskId).setProcess i (some p))

theorem births_spawnUserProcess (s : System) (cpu addressSpace : ℕ) (registered : Bool) :
    Births (s.reapDead cpu) (s.spawnUserProcess cpu addressSpace registered) := by
  unfold spawnUserProcess
  dsimp only
  generalize s.reapDead cpu = r
  split
  · exact .refused
  rename_i slot hslot
  split
  · rename_i i hi
    split
    · exact .born (freeTask_empty hslot) (freeProcess_none hi)
        ⟨rfl, rfl, rfl, rfl, rfl, .inl rfl⟩
    · exact .ids
  · exact .ids

theorem births_forkCurrent (s : System) (cpu addressSpace : ℕ) (cloned registered : Bool) :
    s.forkCurrent cpu addressSpace cloned registered = s ∨
      Births (s.reapDead cpu) (s.forkCurrent cpu addressSpace cloned registered) := by
  unfold forkCurrent
  split
  · exact .inl rfl
  rename_i parent hparent
  split
  · exact .inl rfl
  right
  obtain ⟨j, -, hj⟩ := bind_eq_some_iff.mp hparent
  have hold : (s.reapDead cpu).processes j = some parent := hj
  dsimp only
  generalize s.reapDead cpu = r at hold ⊢
  split
  · rename_i slot i hslot hi
    split
    · exact .born (freeTask_empty hslot) (freeProcess_none hi)
        ⟨rfl, rfl, rfl, rfl, rfl, .inr ⟨j, parent, hold, rfl⟩⟩
    · exact .ids
  · exact .refused

variable {r : System}

theorem Births.evolves (h : Births r s') : Evolves noneEnds r.scheduler s'.scheduler := by
  cases h with
  | refused => exact .refl _
  | ids => exact .of_same (fun _ => .refl _) rfl (Nat.le_succ _) fun _ => .inl rfl
  | born hempty hfree hcreated =>
    exact .create_next hempty (by simp [Alive]) hcreated.taskId rfl rfl rfl fun _ => .inl rfl

theorem Births.follows (hids : s.scheduler.IdsOk) (h : Births (s.reapDead cpu) s')
    (hop : ending l.2 = false) (hcreate : creating l.2) : s.Follows l s' := by
  have hreap := (evolves_reapDead hids cpu).toTracks
  have htracks := hreap.trans h.evolves.toTracks
  cases h with
  | refused =>
    exact .of_calm hop htracks (Nat.le_succ _) (fun _ hc => .inl hc) (le_refl _)
      (.of_none fun _ h => h) fun _ => .same rfl _ _ _
  | ids =>
    exact .of_calm hop htracks (le_refl _) (fun _ hc => .inl hc) (Nat.le_succ _)
      (.of_none fun _ h => h) fun _ => .same rfl _ _ _
  | @born slot i p hempty hfree hcreated =>
    refine .of_calm hop htracks (le_refl _) (fun _ hc => .inl hc) (Nat.le_succ _)
      (.setProcess rfl _) fun j => ?_
    by_cases hj : j = i
    · subst hj
      rw [setProcess_self, show s.processes j = none from hfree]
      obtain ⟨hstate, hid, htask, hnext, hnext', hnine⟩ := hcreated
      exact .created hcreate ⟨hstate, hid, htask, hnext, hnext', hnine⟩
    · rw [setProcess_of_ne _ hj]
      exact .same rfl _ _ _

/-! ## Calls that end tasks -/

/-- The scheduler after a call that ends the running task. -/
def Ends (s : System) (cpu : ℕ) (r : Scheduler) : Prop :=
  r = (s.killCurrentTask cpu).scheduler ∨
    r = ((s.killCurrentTask cpu).scheduler.prepareSwitch cpu).2

theorem ends_exitCurrent (s : System) (cpu : ℕ) : s.Ends cpu (s.scheduler.exitCurrent cpu).2 :=
  .inr rfl

theorem ends_exitCurrentProcess (s : System) (cpu : ℕ) (exitCode : ℤ) :
    s.Ends cpu (s.exitCurrentProcess cpu exitCode).scheduler := by
  unfold exitCurrentProcess
  split
  · exact .inl rfl
  split
  · exact .inl rfl
  split
  · exact .inr rfl
  · exact .inl rfl

theorem killCurrentTask_tasks (s : System) (cpu : ℕ) : (s.killCurrentTask cpu).scheduler.tasks =
      killAll s.scheduler.tasks (· == s.scheduler.currentSlot cpu) :=
  (killAll_single _ _).symm

theorem Sane.tracks_killCurrentTask (h : s.Sane) (hcpu : s.online cpu = true) :
    Tracks (fun slot => slot == s.scheduler.currentSlot cpu) s.scheduler
      (s.killCurrentTask cpu).scheduler := by
  refine .of_killAll (fun slot hslot => ?_) (killCurrentTask_tasks s cpu) rfl rfl
  rw [beq_iff_eq.mp hslot]
  exact (h.occupied cpu hcpu).2

theorem Sane.tracks_of_ends (h : s.Sane) (hcpu : s.online cpu = true) {r : Scheduler}
    (hr : s.Ends cpu r) :
    Tracks (fun slot => slot == s.scheduler.currentSlot cpu) s.scheduler r := by
  have hkill := h.tracks_killCurrentTask hcpu
  rcases hr with rfl | rfl
  · exact hkill
  · exact hkill.trans (evolves_prepareSwitch (hkill.idsOk h.ids h.ids.1) cpu).toTracks

theorem Ends.alive {r : Scheduler} (hr : s.Ends cpu r) (h : (r.tasks slot).Alive) :
    (s.scheduler.tasks slot).Alive ∧ ¬(slot == s.scheduler.currentSlot cpu) ∧
      (r.tasks slot).id = (s.scheduler.tasks slot).id := by
  have hkilled : ((s.killCurrentTask cpu).scheduler.tasks slot).Alive ∧
      (r.tasks slot).id = ((s.killCurrentTask cpu).scheduler.tasks slot).id := by
    rcases hr with rfl | rfl
    · exact ⟨h, rfl⟩
    · rw [prepareSwitch_alive_iff] at h
      exact ⟨h, prepareSwitch_id h⟩
  rw [killCurrentTask_tasks, killAll_id] at hkilled
  have hbefore := alive_of_killAll hkilled.1
  exact ⟨hbefore.1, hbefore.2, hkilled.2⟩

theorem Ends.nextTaskId {r : Scheduler} (hr : s.Ends cpu r) :
    r.nextTaskId = s.scheduler.nextTaskId := by
  rcases hr with rfl | rfl
  · rfl
  · exact prepareSwitch_nextTaskId _ _

theorem Sane.follows_exitTask (h : s.Sane) (hcpu : s.online cpu = true) :
    s.Follows (cpu, .exitTask) (s.schedule (s.scheduler.exitCurrent cpu)) where
  tasks := h.tracks_of_ends hcpu (ends_exitCurrent s cpu)
  ended _ _ halive := (ends_exitCurrent s cpu).alive halive
  next := (ends_exitCurrent s cpu).nextTaskId.trans_le (Nat.le_succ _)
  online _ hc := .inl hc
  nextProcess := le_refl _
  births := .of_none fun _ h => h
  processes _ := .same rfl _ _ _

theorem exitCurrentProcess_rest (s : System) (cpu : ℕ) (exitCode : ℤ) :
    (s.exitCurrentProcess cpu exitCode).online = s.online ∧
      (s.exitCurrentProcess cpu exitCode).nextProcessId = s.nextProcessId := by
  unfold exitCurrentProcess
  split
  · exact ⟨rfl, rfl⟩
  split
  · exact ⟨rfl, rfl⟩
  · split <;> exact ⟨rfl, rfl⟩

theorem exitCurrentProcess_entry (s : System) (cpu : ℕ) (exitCode : ℤ) (r r' : System)
    (i : ProcessSlot) :
    EntryStep (.exitProcess exitCode) (s.endsProcess (cpu, .exitProcess exitCode) i) r r'
      (s.processes i) ((s.exitCurrentProcess cpu exitCode).processes i) := by
  have hends : s.endsProcess (cpu, .exitProcess exitCode) i =
      (s.processOf (s.scheduler.current cpu).id == some i) := rfl
  rw [hends]
  unfold exitCurrentProcess
  split
  · rename_i hnone
    rw [hnone]
    exact .same rfl _ _ _
  rename_i j hj
  rw [hj]
  split
  · rename_i hfree
    by_cases hi : i = j
    · subst hi
      have hentry : (s.killCurrentTask cpu).processes i = none := hfree
      rw [hentry, hfree]
      exact .free
    · exact .same (by simpa using Ne.symm hi) _ _ _
  · rename_i p hp
    generalize hset : s.setProcess j (some { p with
      state := .exited, exitCode, addressSpace := none }) = marked
    have hentry : EntryStep (.exitProcess exitCode) (some j == some i) r r'
        (s.processes i) (marked.processes i) := by
      by_cases hi : i = j
      · subst hi
        rw [← hset, setProcess_self, hp]
        exact .kept ⟨rfl, rfl, rfl, rfl⟩ (by simp) fun _ => rfl
      · rw [← hset, setProcess_of_ne _ hi]
        exact .same (by simpa using Ne.symm hi) _ _ _
    split <;> exact hentry

theorem Sane.follows_exitProcess (h : s.Sane) (hcpu : s.online cpu = true) (exitCode : ℤ) :
    s.Follows (cpu, .exitProcess exitCode) (s.exitCurrentProcess cpu exitCode) where
  tasks := h.tracks_of_ends hcpu (ends_exitCurrentProcess s cpu exitCode)
  ended _ _ halive := (ends_exitCurrentProcess s cpu exitCode).alive halive
  next := (ends_exitCurrentProcess s cpu exitCode).nextTaskId.trans_le (Nat.le_succ _)
  online c hc := by
    rw [(exitCurrentProcess_rest s cpu exitCode).1] at hc
    exact .inl hc
  nextProcess := (exitCurrentProcess_rest s cpu exitCode).2.ge
  births := .of_entries rfl (exitCurrentProcess_entry s cpu exitCode _ _)
  processes i := exitCurrentProcess_entry s cpu exitCode _ _ i

/-- A task that `kill_process` ends belongs to a process. -/
theorem Sane.killsTask_bounds (h : s.Sane) {pid sig id : ℕ}
    (hkills : s.killsTask cpu pid sig id) : 2 ≤ id ∧ id < s.scheduler.nextTaskId := by
  obtain ⟨i, _, hi⟩ := List.any_eq_true.mp hkills
  obtain ⟨p, hp, htask⟩ := (any_eq_true _ _).mp (Bool.and_eq_true_iff.mp hi).2
  rw [← beq_iff_eq.mp htask]
  exact ⟨(h.processes i p hp).low, (h.processes i p hp).high⟩

theorem Sane.alive_of_endsTask (h : s.Sane) {pid sig : ℕ}
    (hslot : s.endsTask (cpu, .kill pid sig) slot) : (s.scheduler.tasks slot).Alive := by
  simp only [endsTask, Bool.and_eq_true, decide_eq_true_eq] at hslot
  have hbounds := h.killsTask_bounds hslot.2.1
  have hle := h.ids.1
  rcases h.ids.2 slot with ⟨_, hempty⟩ | ⟨hstate, _⟩
  · omega
  · exact ⟨hstate, hslot.2.2⟩

theorem endsTask_kill_of_lt {sig : ℕ} (h : 31 < sig) (pid : ℕ) (slot : Slot) :
    ¬s.endsTask (cpu, .kill pid sig) slot := by
  simp [endsTask, h]

theorem killProcess_tasks (s : System) (cpu pid sig : ℕ) :
    (s.killProcess cpu pid sig).scheduler.tasks =
      killAll s.scheduler.tasks (s.endsTask (cpu, .kill pid sig)) := by
  unfold killProcess
  split
  · rename_i hsig
    funext slot
    exact (killAll_of_not (endsTask_kill_of_lt hsig pid slot) _).symm
  · rename_i hsig
    have hle : decide (sig ≤ 31) = true := decide_eq_true (by omega)
    funext slot
    rw [killAll, endsTask, hle, Bool.true_and]
    rfl

theorem killProcess_rest (s : System) (cpu pid sig : ℕ) :
    (s.killProcess cpu pid sig).scheduler.nextTaskId = s.scheduler.nextTaskId ∧
      (s.killProcess cpu pid sig).scheduler.currentSlot = s.scheduler.currentSlot ∧
      (s.killProcess cpu pid sig).online = s.online ∧
      (s.killProcess cpu pid sig).nextProcessId = s.nextProcessId := by
  unfold killProcess
  split <;> exact ⟨rfl, rfl, rfl, rfl⟩

theorem signalProcess_entry (pid sig : ℕ) (r r' : System) (selected : Bool) (p : Process) :
    EntryStep (.kill pid sig) (selected && terminates sig p) r r' (some p)
      (some (if selected then signalProcess sig p else p)) := by
  cases selected with
  | false => exact .same rfl _ _ _
  | true =>
    rw [if_pos rfl, Bool.true_and]
    unfold signalProcess
    split
    · rename_i hignored
      refine .same ?_ _ _ _
      rcases hignored with h | h <;> simp [terminates, h]
    · split
      · rename_i hends
        exact .kept ⟨rfl, rfl, rfl, rfl⟩ (by simp [hends]) nofun
      · rename_i hends
        exact .kept ⟨rfl, rfl, rfl, rfl⟩ (by simp [hends]) nofun

theorem killProcess_entry (s : System) (cpu pid sig : ℕ) (r r' : System) (i : ProcessSlot) :
    EntryStep (.kill pid sig) (s.endsProcess (cpu, .kill pid sig) i) r r' (s.processes i)
      ((s.killProcess cpu pid sig).processes i) := by
  unfold killProcess
  rw [endsProcess]
  split
  · rename_i hsig
    exact .same (by simp [hsig]) _ _ _
  rename_i hsig
  have hle : decide (sig ≤ 31) = true := decide_eq_true (by omega)
  rw [hle, Bool.true_and, killed]
  dsimp only
  cases s.processes i with
  | none => exact .free
  | some p => exact signalProcess_entry pid sig r r' (s.selected cpu pid p) p

theorem Sane.follows_kill (h : s.Sane) (cpu pid sig : ℕ) :
    s.Follows (cpu, .kill pid sig) (s.killProcess cpu pid sig) := by
  have htasks := killProcess_tasks s cpu pid sig
  obtain ⟨hnext, hcur, honline, hnextProcess⟩ := killProcess_rest s cpu pid sig
  refine ⟨?_, fun _ slot ha => ?_, hnext.trans_le (Nat.le_succ _), fun c hc => .inl ?_,
    hnextProcess.ge, .of_entries rfl (killProcess_entry s cpu pid sig _ _),
    killProcess_entry s cpu pid sig _ _⟩
  · exact .of_killAll (fun slot hslot => (h.alive_of_endsTask hslot).1) htasks hnext hcur
  · rw [htasks] at ha ⊢
    have hbefore := alive_of_killAll ha
    exact ⟨hbefore.1, hbefore.2, killAll_id _ _ _⟩
  · rwa [honline] at hc

/-! ## Every step -/

theorem step_enabled (h : step s (cpu, op) = some s') :
    s.online cpu = true ∧ s.scheduler.nextTaskId < 2 ^ 64 - 2 := by
  unfold step at h
  dsimp only at h
  split at h
  · cases h
  rename_i henabled
  rw [not_or, Bool.not_eq_false, not_le] at henabled
  exact henabled

theorem Sane.follows (h : s.Sane) (hstep : step s l = some s') : s.Follows l s' := by
  obtain ⟨cpu, op⟩ := l
  have hcpu := (step_enabled hstep).1
  have hcur := (h.occupied cpu hcpu).2
  unfold step at hstep
  dsimp only at hstep
  split at hstep
  · cases hstep
  cases op with
  | yieldNow =>
    cases hstep
    exact .of_scheduler rfl (evolves_prepareSwitch h.ids cpu).toTracks (by simp)
  | tick now =>
    cases hstep
    exact .of_scheduler rfl (evolves_tick h.ids cpu now).toTracks (by simp)
  | preempt now =>
    cases hstep
    have hwake := evolves_wakeSleeping s.scheduler now
    have hswitch := evolves_prepareSwitch (hwake.idsOk h.ids h.ids.1) cpu
    exact .of_scheduler rfl (hwake.trans hswitch h.ids).toTracks (by simp)
  | blockCurrent =>
    cases (ite_none_left_eq_some.mp hstep).2
    exact .of_scheduler rfl (tracks_leave h.ids hcur rfl rfl (by simp [Alive]))
      (by simp [blockCurrent, setTask])
  | sleepCurrent now ticks =>
    cases (ite_none_left_eq_some.mp hstep).2
    exact .of_scheduler rfl (tracks_leave h.ids hcur rfl rfl (by simp [Alive]))
      (by simp [sleepCurrent, setTask])
  | wakeTask id =>
    cases hstep
    exact .of_scheduler rfl (evolves_wakeTask s.scheduler id).toTracks (by simp)
  | exitTask =>
    cases (ite_none_left_eq_some.mp hstep).2
    exact h.follows_exitTask hcpu
  | spawn priority =>
    cases hstep
    exact .of_scheduler rfl (evolves_spawn s.scheduler priority).toTracks (spawn_nextTaskId_le _ _)
  | spawnOn cpu' =>
    cases (ite_none_right_eq_some.mp hstep).2
    exact follows_spawnOn rfl s cpu' .normal
  | initAp cpu' =>
    simp only [ite_none_left_eq_some] at hstep
    exact follows_initAp rfl hstep.2
  | spawnUser addressSpace registered =>
    cases hstep
    exact (births_spawnUserProcess s cpu addressSpace registered).follows h.ids rfl rfl
  | fork addressSpace cloned registered =>
    cases hstep
    rcases births_forkCurrent s cpu addressSpace cloned registered with heq | hbirths
    · rw [heq]
      exact .refl rfl s
    · exact hbirths.follows h.ids rfl rfl
  | exitProcess exitCode =>
    cases (ite_none_left_eq_some.mp hstep).2
    exact h.follows_exitProcess hcpu exitCode
  | kill pid sig =>
    cases hstep
    exact h.follows_kill cpu pid sig
  | wait child =>
    cases hstep
    exact follows_waitProcess rfl rfl s cpu child
  | sigaction sig handler =>
    cases hstep
    exact follows_sigactionCurrent s cpu sig handler
  | setGroup pid pgid =>
    cases hstep
    exact follows_setProcessGroup rfl s cpu pid pgid
  | syscallReturn frame copied =>
    cases hstep
    exact follows_prepareSignalDelivery s cpu frame copied

theorem Sane.of_step (h : s.Sane) (hstep : step s l = some s') : s'.Sane :=
  h.follow (h.follows hstep) (step_enabled hstep).2

end System

end WovenHat.Task
