import WovenHat.Verification.Task.LockInvariant

/-! # Runs that keep the lock discipline -/

namespace WovenHat.Task.Machine

open Option List Code Safe

variable {m m' : Machine} {rest : List Item}

/-- A switch that `yield_now`, `sleep_current` or `block_current` makes while the task
holds nothing. -/
theorem Inv.switchAway (inv : m.Inv) (hfree : ¬Holds (m.code m.current))
    (hrest : ¬Holds rest) (hwell : ∀ item ∈ rest, item.WellLocked) (scheduler : Scheduler) :
    (m.switchAway rest scheduler).Inv := by
  refine inv.update_free hfree m.current (.restoreInterrupts m.interrupts :: rest) ?_ ?_ rfl rfl
  · simpa [holds_cons] using hrest
  · simpa [Item.WellLocked] using hwell

variable {choice : Bool}

section Inv

variable (inv : m.Inv)

include inv

/-- One construct of well-locked code keeps the invariant. Only taking a lock and waiting
for a request need the discipline. -/
theorem Inv.execCode {code : Code} (hcode : m.code m.current = .run code :: rest)
    (hlock : ∀ lock body, code = .withLock lock body → m.interrupts = false ∨ m.fileIoDepth ≠ 0)
    (hsubmit : code = .submit → m.Holding → m.shouldQueue = false)
    (hexec : m.execCode choice rest code = some m') : m'.Inv := by
  have hsafe := inv.safe
  rw [hcode] at hsafe
  obtain ⟨hguard, hquiet, hrest⟩ := hsafe.of_run
  have hitems := inv.wellLocked m.current
  rw [hcode] at hitems
  have hwell : code.wellLocked = true := hitems _ (mem_cons_self ..)
  have hwellRest : ∀ item ∈ rest, item.WellLocked :=
    fun item hmem => hitems item (mem_cons_of_mem _ hmem)
  have hholds : Holds (m.code m.current) ↔ Holds rest := by simp [hcode, holds_cons]
  cases code with
  | skip | clearPreemption | setInWorker value =>
    cases hexec
    exact inv.proceed rfl rfl rfl (by simp [hcode]) hwellRest hrest
  | seq first second =>
    cases hexec
    simp only [Code.quiet, Code.wellLocked, Bool.and_eq_true] at hquiet hwell
    refine inv.proceed rfl rfl rfl (by simp [hcode]) ?_ ?_
    · simpa [Item.WellLocked] using ⟨hwell.1, hwell.2, hwellRest⟩
    have hsecond := run hguard (fun h => (hquiet h).2) hrest
    exact run (fun h => hguard (by simpa [holds_cons] using h))
      (fun h => (hquiet (by simpa [holds_cons] using h)).1) hsecond
  | choose left right =>
    cases hexec
    simp only [Code.quiet, Code.wellLocked, Bool.and_eq_true] at hquiet hwell
    refine inv.proceed rfl rfl rfl (by simp [hcode]) ?_ (run hguard ?_ hrest)
    · cases choice
      · simpa [Item.WellLocked] using ⟨hwell.2, hwellRest⟩
      · simpa [Item.WellLocked] using ⟨hwell.1, hwellRest⟩
    · intro h
      cases choice
      · exact (hquiet h).2
      · exact (hquiet h).1
  | loop body =>
    cases hexec
    cases choice with
    | false => exact inv.proceed rfl rfl rfl (by simp [hcode]) hwellRest hrest
    | true =>
      refine inv.proceed rfl rfl rfl (by simp [hcode]) ?_ ?_
      · simpa [Item.WellLocked] using ⟨hwell, hwell, hwellRest⟩
      · exact run (fun h => hguard (by simpa [holds_cons] using h))
          (fun h => hquiet (by simpa [holds_cons] using h)) hsafe
  | withLock lock body =>
    have hblocked := hlock lock body rfl
    simp only [Machine.execCode] at hexec
    split at hexec
    · cases hexec
    rename_i hnone
    cases hexec
    simp only [Code.wellLocked, Bool.and_eq_true] at hwell
    refine inv.continue rfl rfl ?_ ?_ ?_ ?_
    · intro other slot hne
      by_cases h : other = lock
      · simp [h, hnone, Ne.symm hne]
      · simp [h]
    · intro other
      have hcount := inv.owned other m.current
      rw [hcode] at hcount
      by_cases h : other = lock
      · subst h
        simpa [hnone] using hcount
      · simpa [h, Ne.symm h] using hcount
    · simpa [Item.WellLocked] using ⟨hwell.2, hwellRest⟩
    · exact run (fun _ => hblocked) (fun _ => hwell.1) ⟨fun _ => hblocked, hrest⟩
  | fileFaultIo body =>
    cases hexec
    refine inv.proceed rfl rfl rfl (by simp [hcode]) ?_ ?_
    · simpa [Item.WellLocked] using ⟨hwell, hwellRest⟩
    exact run (fun _ => .inr (Nat.succ_ne_zero _))
      (fun h => hquiet (by simpa [holds_cons] using h))
      ⟨fun _ => .inr (Nat.succ_ne_zero _), hrest⟩
  | submit =>
    simp only [Machine.execCode] at hexec
    split at hexec
    · rename_i hqueue
      -- a queued request waits, so the task must hold nothing
      have hfree : ¬Holds rest := by
        intro h
        have := hsubmit rfl (inv.holding_of_holds (hholds.mpr h))
        simp [this] at hqueue
      split at hexec <;> cases hexec
      · refine inv.update_free (by rwa [hholds]) m.current (.awaitResult :: rest) ?_ ?_ ?_ ?_
        · simpa [holds_cons] using hfree
        · simpa [Item.WellLocked] using hwellRest
        · simp [setCode]
        · simp [setCode]
      · exact inv.proceed rfl rfl rfl (by simp [hcode]) hwellRest hrest
    · cases hexec
      refine inv.proceed rfl rfl rfl (by simp [hcode]) ?_ (run hguard (fun _ => rfl) hrest)
      simpa [Item.WellLocked] using
        (⟨rfl, hwellRest⟩ : withPrimaryMaster.wellLocked = true ∧ _)
  | yieldNow =>
    cases hexec
    have hfree : ¬Holds rest := fun h => by simpa [quiet] using hquiet h
    exact inv.switchAway (by rwa [hholds]) hfree hwellRest _
  | sleepCurrent ticks | blockCurrent =>
    have hfree : ¬Holds rest := fun h => by simpa [quiet] using hquiet h
    simp only [Machine.execCode] at hexec
    split at hexec
    · cases hexec
    · cases hexec
      exact inv.switchAway (by rwa [hholds]) hfree hwellRest _

theorem Inv.exec (hdisc : m.Disciplined (.exec choice))
    (hexec : m.exec choice = some m') : m'.Inv := by
  have hsafe := inv.safe
  have hitems := inv.wellLocked m.current
  cases hcode : m.code m.current with
  | nil => simp [Machine.exec, hcode] at hexec
  | cons item rest =>
    rw [hcode] at hsafe hitems
    have hwellRest : ∀ item ∈ rest, item.WellLocked :=
      fun item hmem => hitems item (mem_cons_of_mem _ hmem)
    simp only [Machine.exec, hcode] at hexec
    simp only [Disciplined, hcode] at hdisc
    cases item with
    | run code =>
      refine inv.execCode hcode ?_ ?_ hexec
      · rintro lock body rfl
        exact hdisc
      · rintro rfl
        exact hdisc
    | unlock lock =>
      cases hexec
      have hown : m.owner lock = some m.current := (inv.owner_iff lock _).mpr (by simp [hcode])
      refine inv.continue rfl rfl ?_ ?_ hwellRest hsafe.2
      · intro other slot hne
        by_cases h : other = lock
        · simp [h, hown, Ne.symm hne]
        · simp [h]
      intro other
      have hcount := inv.owned other m.current
      rw [hcode] at hcount
      by_cases h : other = lock
      · subst h
        simpa [hown] using hcount
      · simpa [h, Ne.symm h] using hcount
    | endFileIo enabled | restoreInterrupts enabled =>
      cases hexec
      exact inv.proceed rfl rfl rfl (by simp [hcode]) hwellRest hsafe.2
    | awaitResult =>
      cases hexec
      cases choice with
      | true => exact inv.proceed rfl rfl rfl (by simp [hcode]) hwellRest hsafe.2.2
      | false =>
        have hfree : ¬Holds (.awaitResult :: rest) := by
          simpa [holds_cons] using hsafe.2.1
        exact inv.switchAway (by rwa [hcode]) hfree hitems _

/-- A change of the bookkeeping that leaves the locks, the code, the running task and the
flags alone. -/
theorem Inv.bookkeeping (hcur : m'.current = m.current) (hcode : m'.code = m.code)
    (howner : m'.owner = m.owner) (hdepth : m'.fileIoDepth = m.fileIoDepth)
    (hflag : m'.interrupts = m.interrupts) : m'.Inv where
  owned := by simpa [hcode, howner] using inv.owned
  wellLocked := by simpa [hcode] using inv.wellLocked
  suspended := by simpa [hcode, hcur] using inv.suspended
  safe := by simpa [hcode, hcur, hdepth, hflag] using inv.safe

/-- Preemption finds a task that holds nothing, or does nothing. -/
theorem Inv.preemptFromInterrupt (henabled : m.interrupts = true) : m.preemptFromInterrupt.Inv := by
  unfold Machine.preemptFromInterrupt
  split
  · exact inv
  rename_i hdepth
  have hsafe := inv.safe
  rw [not_not.mp hdepth, henabled] at hsafe
  have hfree := hsafe.not_holds
  split
  · exact inv
  dsimp only
  split
  · refine inv.update_free hfree m.current (.restoreInterrupts true :: m.code m.current)
      ?_ ?_ rfl rfl
    · simpa [holds_cons] using hfree
    · simpa [Item.WellLocked] using inv.wellLocked m.current
  · exact inv.reschedule hfree rfl rfl

theorem Inv.timer (htimer : m.timer = some m') : m'.Inv := by
  unfold Machine.timer at htimer
  split at htimer
  · cases htimer
  rename_i henabled
  cases htimer
  refine Inv.preemptFromInterrupt ?_ (by simpa using henabled)
  exact inv.bookkeeping (by simp [current]) rfl rfl rfl rfl

theorem Inv.spawn (hfree : ¬Holds (m.code m.current)) (reap : Bool)
    (priority : TaskPriority) : (m.spawn reap priority).2.Inv := by
  simp only [Machine.spawn]
  split
  · exact inv.reschedule hfree rfl rfl
  rename_i slot id s _
  refine inv.update_free hfree slot [.restoreInterrupts true] ?_ ?_ rfl rfl
  · simp [holds_cons]
  · simp [Item.WellLocked]

theorem Inv.startWorker (hfree : ¬Holds (m.code m.current)) : m.startWorker.Inv := by
  have hspawn := inv.spawn hfree false .normal
  unfold Machine.startWorker
  split
  · exact inv
  · split <;> rename_i heq <;> rw [heq] at hspawn
    · exact hspawn
    · exact hspawn.bookkeeping rfl rfl rfl rfl rfl

end Inv

/-- The code of kernel calls holds nothing before it starts and is well locked. -/
theorem calls_spec (calls : List KernelCall) (tail : List Item) (htail : ¬Holds tail)
    (hwell : ∀ item ∈ tail, item.WellLocked) :
    ¬Holds (calls.map (fun call => Item.run call.code) ++ tail) ∧
      ∀ item ∈ calls.map (fun call => Item.run call.code) ++ tail, item.WellLocked := by
  induction calls with
  | nil => exact ⟨htail, hwell⟩
  | cons call calls ih =>
    constructor
    · simpa [holds_cons] using ih.1
    intro item hmem
    rcases mem_cons.mp hmem with rfl | hmem
    · exact call.wellLocked_code
    · exact ih.2 item hmem

theorem Inv.step (inv : m.Inv) {action : Action} (hdisc : m.Disciplined action)
    (hstep : m.step action = some m') : m'.Inv := by
  have hidle : m.AtTop → ¬Holds (m.code m.current) := fun h => by simp [h.1]
  cases action with
  | exec choice => exact inv.exec hdisc hstep
  | timer => exact inv.timer hstep
  | call calls =>
    simp only [Machine.step, ite_none_right_eq_some, some.injEq] at hstep
    obtain ⟨htop, rfl⟩ := hstep
    have hcalls := calls_spec calls [] not_holds_nil (by simp)
    rw [append_nil] at hcalls
    exact inv.update_free (hidle htop) m.current _ hcalls.1 hcalls.2 rfl rfl
  | syscall calls =>
    simp only [Machine.step, ite_none_right_eq_some, some.injEq] at hstep
    obtain ⟨htop, rfl⟩ := hstep
    have hcalls := calls_spec calls [.restoreInterrupts m.interrupts]
      (by simp [holds_cons]) (by simp [Item.WellLocked])
    exact inv.update_free (hidle htop) m.current _ hcalls.1 hcalls.2 rfl rfl
  | spawn reap priority =>
    simp only [Machine.step, ite_none_right_eq_some, some.injEq] at hstep
    obtain ⟨htop, rfl⟩ := hstep
    exact inv.spawn (hidle htop) reap priority
  | startWorker =>
    simp only [Machine.step, ite_none_right_eq_some, some.injEq] at hstep
    obtain ⟨htop, rfl⟩ := hstep
    exact inv.startWorker (hidle htop)
  | exit =>
    simp only [Machine.step, ite_none_right_eq_some, some.injEq] at hstep
    obtain ⟨⟨htop, _⟩, rfl⟩ := hstep
    exact inv.reschedule (hidle htop) rfl rfl
  | kill ids =>
    simp only [Machine.step, ite_none_right_eq_some, some.injEq] at hstep
    obtain ⟨htop, rfl⟩ := hstep
    exact inv.reschedule (hidle htop) rfl rfl

theorem inv_boot : boot.Inv := by
  refine .of_free (fun _ => rfl) ?_ ?_ <;> intro slot <;> simp only [boot] <;> split
  · simp [holds_cons]
  · simp
  · simp [Item.WellLocked]
  · simp

/-- One step that keeps the discipline. -/
def DisciplinedStep (m m' : Machine) : Prop :=
  ∃ action, m.Disciplined action ∧ m.step action = some m'

/-- In every run whose steps all keep the discipline, no task that holds a lock has been
switched away from. -/
theorem holdersRun_of_disciplined {m : Machine}
    (hrun : Relation.ReflTransGen DisciplinedStep boot m) : m.HoldersRun := by
  have hinv : m.Inv := by
    induction hrun with
    | refl => exact inv_boot
    | tail _ hstep ih =>
      obtain ⟨action, hdisc, hstep⟩ := hstep
      exact ih.step hdisc hstep
  exact hinv.holdersRun

/-- A system call that looks a path up keeps the discipline: it takes the registry lock
with interrupts disabled. -/
theorem holdersRun_registryCall :
    ∃ m, Relation.ReflTransGen DisciplinedStep boot m ∧ m.Holding ∧ m.HoldersRun := by
  have hcall : DisciplinedStep boot
      { boot.setCode [.run .registryCall, .restoreInterrupts true] with interrupts := false } :=
    ⟨.syscall [.registryCall], trivial, rfl⟩
  have hlock := Relation.ReflTransGen.tail (.single hcall) ⟨.exec true, .inl rfl, rfl⟩
  exact ⟨_, hlock, ⟨.registry, rfl⟩, holdersRun_of_disciplined hlock⟩

/-- The worker starts and sleeps, then a user task writes to a file that is still on
disk. `vfs::write` holds both VFS locks, `file_fault_io` enables interrupts, and the first
sector read under the page-cache lock is queued. -/
def writeDiskFile : List Action :=
  [.startWorker, .spawn true .normal, .call [.yieldNow], .exec true,
    -- the worker finds no request
    .exec true, .call [.workerStep], .exec false, .exec true,
    -- the kernel task yields to the user task
    .exec true, .call [.yieldNow], .exec true,
    .exec true, .syscall [.materializingCall]] ++
  replicate 16 (.exec true) ++
  -- the request is not complete yet
  [.exec false]

/-- The user task (slot 3) is switched away from in `wait_for_completion` while it holds
three of the locks, and the kernel task (slot 0) runs. -/
theorem writeDiskFile_switches_holder :
    ∃ m, boot.steps writeDiskFile = some m ∧ m.current = ⟨0, by decide⟩ ∧
      m.owner .openFiles = some ⟨3, by decide⟩ ∧ m.owner .registry = some ⟨3, by decide⟩ ∧
      m.owner .filePages = some ⟨3, by decide⟩ ∧ ¬m.HoldersRun := by
  have hrun : (boot.steps writeDiskFile).map
      (fun m => (m.current, m.owner .openFiles, m.owner .registry, m.owner .filePages)) =
      some (⟨0, by decide⟩, some ⟨3, by decide⟩, some ⟨3, by decide⟩, some ⟨3, by decide⟩) := by
    decide +kernel
  obtain ⟨m, hsteps, hstate⟩ := Option.map_eq_some_iff.mp hrun
  simp only [Prod.mk.injEq] at hstate
  obtain ⟨hcurrent, hfiles, hregistry, hpages⟩ := hstate
  refine ⟨m, hsteps, hcurrent, hfiles, hregistry, hpages, fun hrun => ?_⟩
  have hslot := hrun _ _ hfiles
  rw [hcurrent] at hslot
  exact absurd hslot (by decide)

end WovenHat.Task.Machine
