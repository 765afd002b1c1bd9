import WovenHat.Library.Always
import WovenHat.Library.TableSum
import WovenHat.Model.Task.Teardown

/-! # Termination and the books of the kernel

The books are balanced when every count is the number of times that the processes in the table
hold the resource, and sockets and the foreground belong to processes in the table. A process
that exits gives back what it holds. A process that is killed gives back its files only, so the
rest is lost when it is reaped. What is lost is told from what a process held when the signal
reached it. -/

namespace WovenHat.Teardown

open Library Function Option
open Task.System (maxProcesses ProcessSlot)

/-! ## Operations of a process -/

namespace Process

variable {p : Process} {m : Mapping} {r : Resource}

theorem count_map_erase {l : List ℕ} {a : ℕ} (f : ℕ → Resource) (h : a ∈ l) (r : Resource) :
    ((l.erase a).map f).count r + [f a].count r = (l.map f).count r := by
  rw [((List.perm_cons_erase h).map f).count_eq r, List.map_cons, List.count_cons,
    List.count_cons, List.count_nil, Nat.zero_add]

theorem count_mapped (h : m ∈ p.mappings) (r : Resource) : p.mapped.count r =
    m.resources.count r + ((p.mappings.erase m).flatMap (·.resources)).count r := by
  rw [mapped, ((List.perm_cons_erase h).flatMap_right _).count_eq r, List.flatMap_cons,
    List.count_append]

theorem count_replaceMapping (h : m ∈ p.mappings) (new : Mapping) (r : Resource) :
    (p.replaceMapping m new).resources.count r + m.resources.count r =
      p.resources.count r + new.resources.count r := by
  have hmapped := count_mapped h r
  have hnew : (p.replaceMapping m new).mapped.count r =
      new.resources.count r + ((p.mappings.erase m).flatMap (·.resources)).count r := by
    rw [mapped, replaceMapping, List.flatMap_cons, List.count_append]
  simp only [resources, elsewhere, List.count_append, hmapped, hnew]
  simp only [replaceMapping]
  omega

/-- What an operation takes is held afterwards, and what it gives back was held before. -/
theorem act_spec {action : Action} {c : Change} (h : p.act action = some c) :
    c.process.id = p.id ∧ c.process.exited = p.exited ∧ ∀ r,
      c.process.resources.count r + c.given.count r = p.resources.count r + c.taken.count r := by
  unfold act at h
  cases action with
  | openFile id =>
    cases h
    refine ⟨rfl, rfl, fun r => ?_⟩
    simp only [resources, elsewhere, mapped, List.map_cons, List.count_append, List.count_cons,
      List.count_nil]
    omega
  | closeFile id =>
    obtain ⟨hmem, h⟩ := ite_none_right_eq_some.mp h
    cases h
    refine ⟨rfl, rfl, fun r => ?_⟩
    have hcount := count_map_erase .file hmem r
    simp only [resources, elsewhere, mapped, List.count_append, List.count_nil]
    omega
  | mapAnonymous frames =>
    cases h
    refine ⟨rfl, rfl, fun r => ?_⟩
    simp [resources, elsewhere, mapped, Mapping.resources, List.count_append]
    omega
  | mapFile id =>
    cases h
    refine ⟨rfl, rfl, fun r => ?_⟩
    simp [resources, elsewhere, mapped, Mapping.resources, List.count_append, List.count_cons]
    omega
  | populate m frame swapped =>
    obtain ⟨⟨hmem, hslot⟩, h⟩ := ite_none_right_eq_some.mp h
    cases h
    refine ⟨rfl, rfl, fun r => ?_⟩
    have hcount := count_replaceMapping hmem
      ⟨frame :: m.pages, m.file, m.swapSlots.diff swapped.toList⟩ r
    cases swapped with
    | none =>
      simp [Mapping.resources, List.count_append, List.count_cons] at hcount ⊢
      omega
    | some slot =>
      have hswap := count_map_erase .swap (hslot slot rfl) r
      simp [Mapping.resources, List.count_append, List.count_cons] at hcount hswap ⊢
      omega
  | evict m frame swapped =>
    obtain ⟨⟨hmem, hframe⟩, h⟩ := ite_none_right_eq_some.mp h
    cases h
    refine ⟨rfl, rfl, fun r => ?_⟩
    have hcount := count_replaceMapping hmem
      ⟨m.pages.erase frame, m.file, swapped.toList ++ m.swapSlots⟩ r
    have hpages := count_map_erase .frame hframe r
    simp only [Mapping.resources, List.count_append, List.map_append] at hcount ⊢
    omega
  | unmap m =>
    obtain ⟨hmem, h⟩ := ite_none_right_eq_some.mp h
    cases h
    refine ⟨rfl, rfl, fun r => ?_⟩
    have hcount := count_mapped hmem r
    simp only [resources, elsewhere, List.count_append, List.count_nil, hcount]
    simp only [mapped]
    omega
  | copyPage frame copy =>
    dsimp only at h
    split at h
    · cases h
    rename_i space hspace
    obtain ⟨hframe, h⟩ := ite_none_right_eq_some.mp h
    cases h
    refine ⟨rfl, rfl, fun r => ?_⟩
    have hcount := count_map_erase .frame hframe r
    simp [resources, elsewhere, mapped, hspace, List.count_append, List.count_cons] at hcount ⊢
    omega
  | exec space =>
    dsimp only at h
    split at h
    · cases h
    rename_i old hspace
    cases h
    refine ⟨rfl, rfl, fun r => ?_⟩
    simp [resources, elsewhere, mapped, hspace, List.count_append]
    omega
  | submit slot =>
    obtain ⟨hnone, h⟩ := ite_none_right_eq_some.mp h
    cases h
    refine ⟨rfl, rfl, fun r => ?_⟩
    simp [resources, elsewhere, mapped, hnone, List.count_append, List.count_cons]
    omega
  | takeResult =>
    dsimp only at h
    split at h
    · cases h
    rename_i slot hslot
    cases h
    refine ⟨rfl, rfl, fun r => ?_⟩
    simp [resources, elsewhere, mapped, hslot, List.count_append, List.count_cons]
    omega
  | enterFileIo =>
    cases h
    refine ⟨rfl, rfl, fun r => ?_⟩
    simp only [resources, elsewhere, mapped, List.count_append, List.replicate_succ,
      List.count_cons, List.count_nil]
    omega
  | leaveFileIo =>
    obtain ⟨hpos, h⟩ := ite_none_left_eq_some.mp h
    cases h
    refine ⟨rfl, rfl, fun r => ?_⟩
    obtain ⟨n, hn⟩ := Nat.exists_eq_succ_of_ne_zero hpos
    simp only [resources, elsewhere, mapped, List.count_append, hn, Nat.succ_eq_add_one,
      Nat.add_sub_cancel, List.replicate_succ, List.count_cons, List.count_nil]
    omega

end Process

def heldIn (o : Option Process) (r : Resource) : ℕ :=
  o.elim 0 (·.resources.count r)

namespace Kernel

variable {k k' : Kernel} {slot : ProcessSlot} {p q : Process} {r : Resource} {pid : ℕ}

def total (k : Kernel) (r : Resource) : ℕ :=
  ∑ i, heldIn (k.processes i) r

def HasProcess (k : Kernel) (pid : ℕ) : Prop :=
  ∃ i p, k.processes i = some p ∧ p.id = pid

/-- Every resource that is in use belongs to a process in the table. -/
structure Balanced (k : Kernel) : Prop where
  count : ∀ r, k.count r = k.total r
  sockets : ∀ i owner, k.sockets i = some owner → k.HasProcess owner
  foreground : ∀ owner, k.foreground = some owner → k.HasProcess owner

structure Numbered (k : Kernel) : Prop where
  distinct : ∀ i j p q, k.processes i = some p → k.processes j = some q → p.id = q.id → i = j
  fresh : ∀ i p, k.processes i = some p → p.id < k.nextId

/-- The process holds something besides its open files that only it can give back. -/
def Holds (k : Kernel) (p : Process) : Prop :=
  p.elsewhere ≠ [] ∨ ∃ i, k.sockets i = some p.id

/-! ## Sums over the table -/

theorem total_update (k : Kernel) (slot : ProcessSlot) (o : Option Process) (r : Resource) :
    ∑ i, heldIn (update k.processes slot o i) r + heldIn (k.processes slot) r =
      k.total r + heldIn o r :=
  sum_update (heldIn · r) k.processes slot o

/-- One process is changed, and the counts with it. -/
theorem Balanced.count_iff (h : k.Balanced) {o : Option Process}
    (hprocs : k'.processes = update k.processes slot o) (r : Resource) :
    k'.count r = k'.total r ↔
      k'.count r + heldIn (k.processes slot) r = k.count r + heldIn o r := by
  have hsum := total_update k slot o r
  rw [total, hprocs, h.count r]
  omega

theorem Balanced.held_le (h : k.Balanced) (hp : k.processes slot = some p) (r : Resource) :
    p.resources.count r ≤ k.count r := by
  have hsum := total_update k slot none r
  rw [hp, ← h.count] at hsum
  change _ + p.resources.count r = _ + 0 at hsum
  omega

theorem running_eq (h : k.running slot = some p) :
    k.processes slot = some p ∧ p.exited = false := by
  obtain ⟨hp, hexited⟩ := filter_eq_some_iff.mp h
  exact ⟨hp, by simpa using hexited⟩

/-! ## Steps of one process -/

/-- A step that changes the process `p` into `q` and leaves what belongs to others. -/
structure Changed (k k' : Kernel) (slot : ProcessSlot) (p q : Process) : Prop where
  before : k.processes slot = some p
  sameId : q.id = p.id
  processes : k'.processes = update k.processes slot (some q)
  nextId : k'.nextId = k.nextId
  sockets : ∀ i owner, owner ≠ p.id → (k'.sockets i = some owner ↔ k.sockets i = some owner)
  foreground : ∀ owner, owner ≠ p.id → k'.foreground = some owner → k.foreground = some owner

theorem cases_of_update (h : k'.processes = update k.processes slot (some q)) {i : ProcessSlot}
    {p' : Process} (hi : k'.processes i = some p') :
    i = slot ∧ p' = q ∨ i ≠ slot ∧ k.processes i = some p' := by
  rw [h] at hi
  exact (update_eq_iff.mp hi).imp_left (And.imp_right fun heq => (some.inj heq).symm)

theorem Changed.numbered (h : Changed k k' slot p q) (hn : k.Numbered) : k'.Numbered := by
  have hback : ∀ i p', k'.processes i = some p' →
      ∃ p'', k.processes i = some p'' ∧ p''.id = p'.id := by
    intro i p' hi
    obtain ⟨rfl, rfl⟩ | ⟨-, hi⟩ := cases_of_update h.processes hi
    · exact ⟨p, h.before, h.sameId.symm⟩
    · exact ⟨p', hi, rfl⟩
  refine ⟨fun i j p' q' hi hj heq => ?_, fun i p' hi => ?_⟩
  · obtain ⟨p₁, hi, hp₁⟩ := hback i p' hi
    obtain ⟨q₁, hj, hq₁⟩ := hback j q' hj
    exact hn.distinct i j p₁ q₁ hi hj (by omega)
  · obtain ⟨p₁, hi, hp₁⟩ := hback i p' hi
    have hlt := hn.fresh i p₁ hi
    rw [h.nextId]
    omega

theorem Changed.hasProcess (h : Changed k k' slot p q) :
    (pid ≠ p.id → k.HasProcess pid) → k'.HasProcess pid := by
  intro hother
  by_cases hself : pid = p.id
  · exact ⟨slot, q, by rw [h.processes, update_self], h.sameId.trans hself.symm⟩
  obtain ⟨i, p', hi, rfl⟩ := hother hself
  have hne : i ≠ slot := by
    rintro rfl
    exact hself (congrArg Process.id (some.inj (hi.symm.trans h.before)))
  exact ⟨i, p', by rw [h.processes, update_of_ne hne, hi], rfl⟩

/-- The process opens or closes a socket. -/
theorem Changed.socket (hp : k.processes slot = some p) (index : Fin maxUserSockets)
    (o : Option ℕ) (hsame : ∀ owner, owner ≠ p.id → (o = some owner ↔ k.sockets index = some owner)) :
    Changed k { k with sockets := update k.sockets index o } slot p p := by
  refine ⟨hp, rfl, by rw [← hp, update_eq_self], rfl, fun i owner hne => ?_, fun _ _ => id⟩
  by_cases hindex : i = index
  · simpa [hindex] using hsame owner hne
  · simp [hindex]

theorem Changed.balanced_iff (h : Changed k k' slot p q) (hb : k.Balanced) : k'.Balanced ↔
    ∀ r, k'.count r + p.resources.count r = k.count r + q.resources.count r := by
  have hcount (r : Resource) := hb.count_iff h.processes r
  rw [h.before] at hcount
  refine ⟨fun hb' r => (hcount r).mp (hb'.count r), fun heq => ⟨fun r => (hcount r).mpr (heq r),
    fun i owner howner => h.hasProcess fun hne => ?_,
    fun owner howner => h.hasProcess fun hne => ?_⟩⟩
  · exact hb.sockets i owner ((h.sockets i owner hne).mp howner)
  · exact hb.foreground owner (h.foreground owner hne howner)

/-! ## What ended processes have left -/

/-- The processes that ended while they held something, and the ended ones that were given the
foreground or left with it. -/
structure History where
  stuck : ℕ → Prop
  terminal : ℕ → Prop

/-- What a step adds, from the state before it. A process is stuck that holds something when
the signal reaches it, or exits with mappings and no address space. -/
def History.after (h : History) (k : Kernel) : Op → History
  | .kill slot =>
    ⟨fun id => h.stuck id ∨ ∃ p, k.running slot = some p ∧ p.id = id ∧ k.Holds p,
      fun id => h.terminal id ∨ ∃ p, k.running slot = some p ∧ p.id = id ∧ k.foreground = some id⟩
  | .exit slot _ =>
    ⟨fun id => h.stuck id ∨ ∃ p, k.running slot = some p ∧ p.id = id ∧ p.space = none ∧
      p.mapped ≠ [], h.terminal⟩
  | .setForeground slot =>
    ⟨h.stuck, fun id => ∃ p, k.processes slot = some p ∧ p.exited = true ∧ p.id = id⟩
  | _ => h

variable {h h' : History}

/-- The history tells what a process in the table holds after its end. -/
structure Recorded (k : Kernel) (h : History) (p : Process) : Prop where
  ended : p.exited = true →
    (k.Holds p ↔ h.stuck p.id) ∧ (k.foreground = some p.id ↔ h.terminal p.id)
  running : p.exited = false → ¬h.stuck p.id ∧ ¬h.terminal p.id

theorem Recorded.congr (hr : k.Recorded h p) (hsockets : k'.sockets = k.sockets)
    (hforeground : k'.foreground = k.foreground) : k'.Recorded h p := by
  obtain ⟨hended, hrunning⟩ := hr
  unfold Holds at hended
  rw [← hsockets, ← hforeground] at hended
  exact ⟨hended, hrunning⟩

structure Tracked (k : Kernel) (h : History) : Prop where
  recorded : ∀ i p, k.processes i = some p → k.Recorded h p
  old : ∀ id, h.stuck id ∨ h.terminal id → id < k.nextId

theorem Changed.tracked (hc : Changed k k' slot p q) (hn : k.Numbered) (ht : k.Tracked h)
    (hself : k'.Recorded h' q) (hstuck : ∀ id, id ≠ p.id → (h'.stuck id ↔ h.stuck id))
    (hterminal : ∀ id, id ≠ p.id → (h'.terminal id → h.terminal id) ∧
      ((k.foreground = some id ↔ h.terminal id) → (k'.foreground = some id ↔ h'.terminal id))) :
    k'.Tracked h' := by
  refine ⟨fun i p' hi => ?_, fun id hid => ?_⟩
  · obtain ⟨-, rfl⟩ | ⟨hne, hi⟩ := cases_of_update hc.processes hi
    · exact hself
    have hother : p'.id ≠ p.id := fun heq => hne (hn.distinct i slot p' p hi hc.before heq)
    obtain ⟨hended, hrunning⟩ := ht.recorded i p' hi
    have hholds : k'.Holds p' ↔ k.Holds p' :=
      or_congr Iff.rfl (exists_congr fun i => hc.sockets i _ hother)
    refine ⟨fun hexited => ⟨?_, (hterminal _ hother).2 (hended hexited).2⟩, fun hexited =>
      (hrunning hexited).imp (mt (hstuck _ hother).mp) (mt (hterminal _ hother).1)⟩
    rw [hholds, hstuck _ hother]
    exact (hended hexited).1
  · rw [hc.nextId]
    by_cases heq : id = p.id
    · exact heq ▸ hn.fresh slot p hc.before
    · exact ht.old id (hid.imp (hstuck id heq).mp (hterminal id heq).1)

/-- A step after which the process runs as before. -/
theorem Changed.tracked_running (hc : Changed k k' slot p q) (hn : k.Numbered)
    (ht : k.Tracked h) (hp : p.exited = false) (hq : q.exited = false)
    (hforeground : k'.foreground = k.foreground) : k'.Tracked h := by
  refine hc.tracked hn ht ?_ (fun _ _ => Iff.rfl) fun _ _ => ⟨id, hforeground ▸ id⟩
  refine ⟨fun hexited => ?_, fun _ => hc.sameId ▸ (ht.recorded slot p hc.before).running hp⟩
  cases hq.symm.trans hexited

/-! ## Killing -/

theorem killProcess_changed (hp : k.running slot = some p) :
    Changed k (k.killProcess slot p) slot p { p with exited := true, files := [] } :=
  ⟨(running_eq hp).1, rfl, rfl, rfl, fun _ _ _ => Iff.rfl, fun _ _ => id⟩

/-- A process that is killed loses its files and keeps the rest. -/
theorem killProcess_balanced (hb : k.Balanced) (hp : k.running slot = some p) :
    (k.killProcess slot p).Balanced := by
  refine ((killProcess_changed hp).balanced_iff hb).mpr fun r => ?_
  have hle := hb.held_le (running_eq hp).1 r
  change k.count r - (p.files.map .file).count r + _ = _
  simp only [Process.resources, List.count_append, List.map_nil, List.nil_append] at hle ⊢
  simp only [Process.elsewhere, Process.mapped] at hle ⊢
  omega

theorem killProcess_tracked (hn : k.Numbered) (ht : k.Tracked h)
    (hp : k.running slot = some p) : (k.killProcess slot p).Tracked (h.after k (.kill slot)) := by
  have hself {P : Process → Prop} {id : ℕ} (hne : id ≠ p.id) :
      ¬∃ p', k.running slot = some p' ∧ p'.id = id ∧ P p' := by
    rintro ⟨p', hp', rfl, -⟩
    exact hne (congrArg Process.id (some.inj (hp'.symm.trans hp)))
  refine (killProcess_changed hp).tracked hn ht ?_ (fun id hne => or_iff_left (hself hne))
    fun id hne => ?_
  · obtain ⟨hslot, hrunning⟩ := running_eq hp
    obtain ⟨hstuck, hterminal⟩ := (ht.recorded slot p hslot).running hrunning
    refine ⟨fun _ => ⟨⟨fun hholds => .inr ⟨p, hp, rfl, hholds⟩, fun hafter => ?_⟩,
      fun hfore => .inr ⟨p, hp, rfl, hfore⟩, fun hafter => ?_⟩, nofun⟩
    · obtain ⟨p', hp', -, hholds⟩ := hafter.resolve_left hstuck
      exact some.inj (hp'.symm.trans hp) ▸ hholds
    · obtain ⟨-, -, -, hfore⟩ := hafter.resolve_left hterminal
      exact hfore
  · have hsame : (h.after k (.kill slot)).terminal id ↔ h.terminal id :=
      or_iff_left (hself (P := fun _ => k.foreground = some id) hne)
    exact ⟨hsame.mp, fun hiff => hiff.trans hsame.symm⟩

/-! ## Exiting -/

theorem unmapAll_eq (mappings : List Mapping) (k : Kernel) :
    mappings.foldl unmapAnonymous k = k.release (mappings.flatMap (·.resources)) := by
  induction mappings generalizing k with
  | nil => rfl
  | cons m mappings ih =>
    rw [List.foldl_cons, ih]
    simp only [unmapAnonymous, release, List.flatMap_cons, List.count_append, Nat.sub_sub]

/-- The process that `exit_current_process` leaves in the table. -/
def exited (p : Process) : Process :=
  { p with exited := true, files := [], space := none,
           mappings := if p.space.isSome then [] else p.mappings }

theorem elsewhere_exited (hplace : p.request = none ∧ p.guards = 0) :
    (exited p).elsewhere = if p.space.isSome then [] else p.mapped := by
  unfold exited Process.elsewhere Process.mapped
  rw [hplace.1, hplace.2]
  cases p.space <;> simp

/-- What `exit_current_process` leaves. -/
theorem exitCurrentProcess_spec (slot : ProcessSlot) (p : Process) (switch : Bool) :
    (k.exitCurrentProcess slot p switch).processes = update k.processes slot (some (exited p)) ∧
      (k.exitCurrentProcess slot p switch).nextId = k.nextId ∧
      (k.exitCurrentProcess slot p switch).sockets =
        (k.closeProcessSockets p.id).sockets ∧
      (k.exitCurrentProcess slot p switch).foreground = (k.releaseForeground p.id).foreground ∧
      ∀ r, (k.exitCurrentProcess slot p switch).count r = k.count r - (p.files.map .file).count r -
        if switch = true then p.space.elim 0 fun space =>
          p.mapped.count r + (space.map Resource.frame).count r else 0 := by
  have hcount : (k.releaseForeground p.id).count = k.count := by
    unfold releaseForeground
    split <;> rfl
  have hother : (k.releaseForeground p.id).processes = k.processes ∧
      (k.releaseForeground p.id).nextId = k.nextId ∧
      (k.releaseForeground p.id).sockets = k.sockets := by
    unfold releaseForeground
    split <;> exact ⟨rfl, rfl, rfl⟩
  obtain ⟨hprocs, hnext, hsockets⟩ := hother
  unfold exitCurrentProcess exited
  cases hspace : p.space with
  | none =>
    simp [setProcess, releaseFileTable, release, closeProcessSockets, hprocs, hnext, hsockets,
      hcount]
  | some space =>
    cases switch <;>
    simp [setProcess, releaseFileTable, release, closeProcessSockets, hprocs, hnext, hsockets,
      hcount, unmapAll_eq, destroy, Process.mapped, Nat.sub_sub, Nat.add_assoc]

theorem exitCurrentProcess_changed (hp : k.running slot = some p) (switch : Bool) :
    Changed k (k.exitCurrentProcess slot p switch) slot p (exited p) := by
  obtain ⟨hprocs, hnext, hsockets, hforeground, -⟩ := exitCurrentProcess_spec (k := k) slot p switch
  refine ⟨(running_eq hp).1, rfl, hprocs, hnext, fun i owner hne => ?_, fun owner hne hfore => ?_⟩
  · rw [hsockets]
    simp only [closeProcessSockets]
    split
    · rename_i hself
      rw [hself, some_inj]
      exact iff_of_false nofun hne.symm
    · exact Iff.rfl
  · rw [hforeground, releaseForeground] at hfore
    split at hfore
    · cases hfore
    · exact hfore

theorem exit_holds_iff (hplace : p.request = none ∧ p.guards = 0) (switch : Bool) :
    (k.exitCurrentProcess slot p switch).Holds (exited p) ↔ p.space = none ∧ p.mapped ≠ [] := by
  obtain ⟨-, -, hsockets, -, -⟩ := exitCurrentProcess_spec (k := k) slot p switch
  have hclosed : ¬∃ i, (k.closeProcessSockets p.id).sockets i = some p.id := by
    rintro ⟨i, hi⟩
    obtain ⟨hne, hi⟩ := ite_none_left_eq_some.mp hi
    exact hne hi
  unfold Holds
  rw [hsockets]
  refine (or_iff_left hclosed).trans ?_
  rw [elsewhere_exited hplace]
  cases p.space <;> simp

theorem exit_foreground (switch : Bool) :
    (k.exitCurrentProcess slot p switch).foreground ≠ some p.id := by
  rw [(exitCurrentProcess_spec slot p switch).2.2.2.1, releaseForeground]
  split
  · exact nofun
  · assumption

/-- The books are balanced after an exit, unless an address space is dropped. -/
theorem exit_balanced_iff (hb : k.Balanced) (hp : k.running slot = some p)
    (hplace : p.request = none ∧ p.guards = 0) (switch : Bool) :
    (k.exitCurrentProcess slot p switch).Balanced ↔
      ¬(switch = false ∧ p.space.isSome ∧ p.elsewhere ≠ []) := by
  rw [(exitCurrentProcess_changed hp switch).balanced_iff hb]
  have hcount := (exitCurrentProcess_spec (k := k) slot p switch).2.2.2.2
  have hafter : (exited p).resources = (exited p).elsewhere := List.nil_append _
  have hle := hb.held_le (running_eq hp).1
  simp only [hafter, elsewhere_exited hplace, hcount]
  have helse : ∀ r, p.elsewhere.count r =
      ((p.space.getD []).map Resource.frame).count r + p.mapped.count r := by
    intro r
    rw [Process.elsewhere, hplace.1, hplace.2]
    simp
  simp only [Process.resources, List.count_append, helse] at hle ⊢
  cases hspace : p.space with
  | none =>
    simp only [hspace, getD_none, List.map_nil, List.count_nil, elim_none, isSome_none,
      Bool.false_eq_true, if_false, false_and, and_false, not_false_eq_true, iff_true] at hle ⊢
    intro r
    have hle := hle r
    split <;> omega
  | some space =>
    simp only [hspace, getD_some, elim_some, isSome_some, if_true, List.count_nil, true_and]
      at hle helse ⊢
    cases switch with
    | true =>
      refine iff_of_true (fun r => ?_) nofun
      have hle := hle r
      rw [if_pos rfl]
      omega
    | false =>
      simp only [true_and, not_not, Bool.false_eq_true, if_false, Nat.sub_zero]
      refine ⟨fun heq => List.eq_nil_iff_forall_not_mem.mpr fun r hr => ?_, fun hnil r => ?_⟩
      · have hpos := List.count_pos_iff.mpr hr
        have hle := hle r
        have heq := heq r
        have helse := helse r
        omega
      · have helse := helse r
        have hle := hle r
        rw [hnil, List.count_nil] at helse
        omega

theorem exit_tracked (hn : k.Numbered) (ht : k.Tracked h) (hp : k.running slot = some p)
    (hplace : p.request = none ∧ p.guards = 0) (switch : Bool) :
    (k.exitCurrentProcess slot p switch).Tracked (h.after k (.exit slot switch)) := by
  obtain ⟨hslot, hrunning⟩ := running_eq hp
  obtain ⟨hstuck, hterminal⟩ := (ht.recorded slot p hslot).running hrunning
  have hself (id : ℕ) : (∃ p', k.running slot = some p' ∧ p'.id = id ∧ p'.space = none ∧
      p'.mapped ≠ []) ↔ p.id = id ∧ p.space = none ∧ p.mapped ≠ [] := by
    rw [hp]
    simp
  refine (exitCurrentProcess_changed hp switch).tracked hn ht ⟨fun _ => ⟨?_, ?_⟩, nofun⟩
    (fun id hne => ?_) fun id hne => ⟨fun hterminal => hterminal, fun hiff => ?_⟩
  · rw [exit_holds_iff hplace]
    change _ ↔ h.stuck p.id ∨ _
    rw [hself, or_iff_right hstuck]
    exact (and_iff_right rfl).symm
  · exact iff_of_false (exit_foreground switch) hterminal
  · change h.stuck id ∨ _ ↔ _
    rw [hself]
    exact or_iff_left fun hown => hne hown.1.symm
  · rw [(exitCurrentProcess_spec slot p switch).2.2.2.1, releaseForeground]
    split
    · rename_i hown
      refine iff_of_false nofun fun hterminal => hne ?_
      exact some.inj ((hiff.mpr hterminal).symm.trans hown)
    · exact hiff

/-- A process that exits with its address space, while there is a task to switch to, has given
back everything. -/
theorem exit_releases (hb : k.Balanced) (hp : k.running slot = some p)
    (hplace : p.request = none ∧ p.guards = 0) (hspace : p.space.isSome) :
    (k.exitCurrentProcess slot p true).Balanced ∧ (exited p).resources = [] ∧
      ¬(k.exitCurrentProcess slot p true).Holds (exited p) ∧
      (k.exitCurrentProcess slot p true).foreground ≠ some p.id := by
  refine ⟨(exit_balanced_iff hb hp hplace true).mpr nofun, ?_, fun hholds => ?_,
    exit_foreground true⟩
  · change [] ++ (exited p).elsewhere = []
    rw [elsewhere_exited hplace, if_pos hspace]
    rfl
  · rw [((exit_holds_iff hplace true).mp hholds).1] at hspace
    cases hspace

/-! ## Reaping -/

theorem childSlot_some {parent child : ℕ} (h : k.childSlot parent child = some slot) :
    ∃ p, k.processes slot = some p := by
  have hfound := List.find?_some h
  cases hp : k.processes slot with
  | none => simp [hp] at hfound
  | some p => exact ⟨p, rfl⟩

/-- The process `p` is taken out of the table. -/
def reaped (k : Kernel) (slot : ProcessSlot) (p : Process) : Kernel :=
  (k.releaseFileTable p.files).setProcess slot none

theorem reaped_processes (hn : k.Numbered) (hp : k.processes slot = some p) {i : ProcessSlot} :
    (k.reaped slot p).processes i = some q ↔ k.processes i = some q ∧ q.id ≠ p.id := by
  change update k.processes slot none i = some q ↔ _
  by_cases heq : i = slot
  · subst heq
    rw [update_self]
    refine iff_of_false nofun fun hq => hq.2 ?_
    rw [some.inj (hq.1.symm.trans hp)]
  · rw [update_of_ne heq]
    exact (and_iff_left_of_imp fun hq hid => heq (hn.distinct i slot q p hq hp hid)).symm

theorem reaped_hasProcess (hn : k.Numbered) (hp : k.processes slot = some p) :
    (k.reaped slot p).HasProcess pid ↔ k.HasProcess pid ∧ pid ≠ p.id := by
  simp only [HasProcess, reaped_processes hn hp]
  constructor
  · rintro ⟨i, q, ⟨hq, hne⟩, rfl⟩
    exact ⟨⟨i, q, hq, rfl⟩, hne⟩
  · rintro ⟨⟨i, q, hq, rfl⟩, hne⟩
    exact ⟨i, q, ⟨hq, hne⟩, rfl⟩

/-- After a process is reaped the books are balanced exactly if it held only files. -/
theorem reaped_balanced_iff (hb : k.Balanced) (hn : k.Numbered)
    (hp : k.processes slot = some p) :
    (k.reaped slot p).Balanced ↔ ¬(k.Holds p ∨ k.foreground = some p.id) := by
  have hcount : ∀ r, (k.reaped slot p).count r = (k.reaped slot p).total r ↔
      p.elsewhere.count r = 0 := by
    intro r
    have hle := hb.held_le hp r
    rw [hb.count_iff rfl r, hp]
    change k.count r - (p.files.map .file).count r + p.resources.count r = k.count r + 0 ↔ _
    simp only [Process.resources, List.count_append] at hle ⊢
    omega
  constructor
  · rintro hafter ((hnil | ⟨i, hi⟩) | hfore)
    · exact hnil (List.eq_nil_iff_forall_not_mem.mpr fun r =>
        List.count_eq_zero.mp ((hcount r).mp (hafter.count r)))
    · exact ((reaped_hasProcess hn hp).mp (hafter.sockets i p.id hi)).2 rfl
    · exact ((reaped_hasProcess hn hp).mp (hafter.foreground p.id hfore)).2 rfl
  · intro hholds
    obtain ⟨hheld, hfore⟩ := not_or.mp hholds
    obtain ⟨hnil, hsockets⟩ := not_or.mp hheld
    refine ⟨fun r => (hcount r).mpr (by rw [not_not.mp hnil, List.count_nil]),
      fun i owner howner => (reaped_hasProcess hn hp).mpr ⟨hb.sockets i owner howner, ?_⟩,
      fun owner howner => (reaped_hasProcess hn hp).mpr ⟨hb.foreground owner howner, ?_⟩⟩
    · rintro rfl
      exact hsockets ⟨i, howner⟩
    · rintro rfl
      exact hfore howner

theorem reaped_numbered (hn : k.Numbered) (hp : k.processes slot = some p) :
    (k.reaped slot p).Numbered := by
  have hback {i : ProcessSlot} {q : Process} (hq : (k.reaped slot p).processes i = some q) :=
    ((reaped_processes hn hp).mp hq).1
  exact ⟨fun i j q q' hi hj => hn.distinct i j q q' (hback hi) (hback hj),
    fun i q hi => hn.fresh i q (hback hi)⟩

theorem reaped_tracked (hn : k.Numbered) (ht : k.Tracked h) (hp : k.processes slot = some p) :
    (k.reaped slot p).Tracked h :=
  ⟨fun i q hi => (ht.recorded i q ((reaped_processes hn hp).mp hi).1).congr rfl rfl, ht.old⟩

/-! ## Runs -/

/-- A process is reaped that ended while it held something or was left with the foreground, or
one exits with an address space and no task to switch to. -/
def Leaks (k : Kernel) (h : History) : Op → Prop
  | .wait parent child => ∃ slot p, k.childSlot parent child = some slot ∧
      k.processes slot = some p ∧ p.exited = true ∧ (h.stuck p.id ∨ h.terminal p.id)
  | .exit slot switch => ∃ p, k.running slot = some p ∧
      switch = false ∧ p.space.isSome ∧ p.elsewhere ≠ []
  | _ => False

/-- The kernel, and what the ended processes have left. -/
def record (s : Kernel × History) (op : Op) : Option (Kernel × History) :=
  (s.1.step op).map fun k => (k, s.2.after s.1 op)

structure Inv (k : Kernel) (h : History) : Prop where
  numbered : k.Numbered
  tracked : k.Tracked h

theorem Inv.spawn (hi : Inv k h) (hb : k.Balanced) (hfree : k.processes slot = none)
    (hid : p.id = k.nextId) (hp : p.exited = false)
    (hstep : k' = { k with
      processes := update k.processes slot (some p)
      nextId := k.nextId + 1
      count := fun r => k.count r + p.resources.count r }) : Inv k' h ∧ k'.Balanced := by
  have hprocs : k'.processes = update k.processes slot (some p) := by rw [hstep]
  have hnext : k'.nextId = k.nextId + 1 := by rw [hstep]
  have hkeep : ∀ pid, k.HasProcess pid → k'.HasProcess pid := by
    rintro pid ⟨i, q, hi, rfl⟩
    have heq : i ≠ slot := by
      rintro rfl
      rw [hfree] at hi
      cases hi
    exact ⟨i, q, by rw [hprocs, update_of_ne heq, hi], rfl⟩
  refine ⟨⟨⟨fun i j q q' hi' hj' heq => ?_, fun i q hi' => ?_⟩, fun i q hi' => ?_,
    fun id hold => ?_⟩, fun r => (hb.count_iff hprocs r).mpr ?_, fun i owner howner => ?_,
    fun owner howner => ?_⟩
  · obtain ⟨rfl, rfl⟩ | ⟨-, hi'⟩ := cases_of_update hprocs hi'
    · obtain ⟨rfl, -⟩ | ⟨-, hj'⟩ := cases_of_update hprocs hj'
      · rfl
      · have hlt := hi.numbered.fresh j q' hj'
        omega
    · obtain ⟨rfl, rfl⟩ | ⟨-, hj'⟩ := cases_of_update hprocs hj'
      · have hlt := hi.numbered.fresh i q hi'
        omega
      · exact hi.numbered.distinct i j q q' hi' hj' heq
  · rw [hnext]
    obtain ⟨-, rfl⟩ | ⟨-, hi'⟩ := cases_of_update hprocs hi'
    · omega
    · have hlt := hi.numbered.fresh i q hi'
      omega
  · obtain ⟨-, rfl⟩ | ⟨-, hi'⟩ := cases_of_update hprocs hi'
    · have hnew (hold : h.stuck q.id ∨ h.terminal q.id) : False := by
        have hlt := hi.tracked.old q.id hold
        omega
      refine ⟨fun hexited => ?_, fun _ => not_or.mp hnew⟩
      cases hp.symm.trans hexited
    · exact (hi.tracked.recorded i q hi').congr (by rw [hstep]) (by rw [hstep])
  · rw [hnext]
    have hlt := hi.tracked.old id hold
    omega
  · rw [hfree, hstep]
    rfl
  · rw [hstep] at howner
    exact hkeep owner (hb.sockets i owner howner)
  · rw [hstep] at howner
    exact hkeep owner (hb.foreground owner howner)

theorem Inv.wait (hi : Inv k h) (hb : k.Balanced) (parent child : ℕ) :
    Inv (k.waitProcess parent child) h ∧
      ((k.waitProcess parent child).Balanced ↔ ¬k.Leaks h (.wait parent child)) := by
  have hsame (hnone : ∀ slot p, k.childSlot parent child = some slot →
      k.processes slot = some p → p.exited ≠ true) : ¬k.Leaks h (.wait parent child) := by
    rintro ⟨slot, p, hslot, hp, hexited, -⟩
    exact hnone slot p hslot hp hexited
  unfold waitProcess
  cases hslot : k.childSlot parent child with
  | none =>
    refine ⟨hi, iff_of_true hb (hsame fun slot p hslot' => ?_)⟩
    cases hslot.symm.trans hslot'
  | some slot =>
    obtain ⟨p, hp⟩ := childSlot_some hslot
    have hunique {slot' : ProcessSlot} {p' : Process}
        (hslot' : k.childSlot parent child = some slot') (hp' : k.processes slot' = some p') :
        p' = p := by
      cases hslot.symm.trans hslot'
      exact some.inj (hp'.symm.trans hp)
    dsimp only
    rw [hp]
    dsimp only
    split
    · rename_i hexited
      refine ⟨⟨reaped_numbered hi.numbered hp, reaped_tracked hi.numbered hi.tracked hp⟩,
        (reaped_balanced_iff hb hi.numbered hp).trans (not_congr ?_)⟩
      obtain ⟨hstuck, hterminal⟩ := (hi.tracked.recorded slot p hp).ended hexited
      rw [hstuck, hterminal]
      refine ⟨fun hleft => ⟨slot, p, hslot, hp, hexited, hleft⟩, ?_⟩
      rintro ⟨slot', p', hslot', hp', -, hleft⟩
      exact hunique hslot' hp' ▸ hleft
    · rename_i hrunning
      exact ⟨hi, iff_of_true hb (hsame fun _ _ hslot' hp' => hunique hslot' hp' ▸ hrunning)⟩

/-- What a step of one process leaves, when nothing is lost. -/
theorem Changed.inv (hc : Changed k k' slot p q) (hi : Inv k h) (hb : k.Balanced)
    (ht : k'.Tracked h')
    (hcount : ∀ r, k'.count r + p.resources.count r = k.count r + q.resources.count r) :
    Inv k' h' ∧ (k'.Balanced ↔ ¬False) :=
  ⟨⟨hc.numbered hi.numbered, ht⟩, iff_of_true ((hc.balanced_iff hb).mpr hcount) id⟩

theorem Inv.step_iff (hi : Inv k h) (hb : k.Balanced) {op : Op} (hstep : k.step op = some k') :
    Inv k' (h.after k op) ∧ (k'.Balanced ↔ ¬k.Leaks h op) := by
  unfold step at hstep
  cases op with
  | spawn slot p =>
    obtain ⟨⟨hfree, hid, hp⟩, hstep⟩ := ite_none_right_eq_some.mp hstep
    exact And.imp_right (fun hb' => iff_of_true hb' id)
      (hi.spawn hb hfree hid hp (some.inj hstep).symm)
  | act slot action =>
    obtain ⟨p, hp, hstep⟩ := bind_eq_some_iff.mp hstep
    obtain ⟨c, hact, hstep⟩ := bind_eq_some_iff.mp hstep
    cases hstep
    obtain ⟨hslot, hrunning⟩ := running_eq hp
    obtain ⟨hid, hexited, hcount⟩ := Process.act_spec hact
    have hc : Changed k (({ k with count := fun r => k.count r + c.taken.count r }.release
        c.given).setProcess slot (some c.process)) slot p c.process :=
      ⟨hslot, hid, rfl, rfl, fun _ _ _ => Iff.rfl, fun _ _ => id⟩
    refine hc.inv hi hb (hc.tracked_running hi.numbered hi.tracked hrunning
      (hexited.trans hrunning) rfl) fun r => ?_
    have hle := hb.held_le hslot r
    have hcount := hcount r
    change k.count r + c.taken.count r - c.given.count r + _ = _
    omega
  | openSocket slot index =>
    obtain ⟨p, hp, hstep⟩ := bind_eq_some_iff.mp hstep
    obtain ⟨hfree, hstep⟩ := ite_none_right_eq_some.mp hstep
    cases hstep
    obtain ⟨hslot, hrunning⟩ := running_eq hp
    have hc := Changed.socket hslot index (some p.id) fun owner hne => by
      simp [hfree, Ne.symm hne]
    exact hc.inv hi hb (hc.tracked_running hi.numbered hi.tracked hrunning hrunning rfl)
      fun _ => rfl
  | closeSocket slot index =>
    obtain ⟨p, hp, hstep⟩ := bind_eq_some_iff.mp hstep
    obtain ⟨hown, hstep⟩ := ite_none_right_eq_some.mp hstep
    cases hstep
    obtain ⟨hslot, hrunning⟩ := running_eq hp
    have hc := Changed.socket hslot index none fun owner hne => by simp [hown, Ne.symm hne]
    exact hc.inv hi hb (hc.tracked_running hi.numbered hi.tracked hrunning hrunning rfl)
      fun _ => rfl
  | setForeground slot =>
    obtain ⟨p, hslot, hstep⟩ := bind_eq_some_iff.mp hstep
    cases hstep
    have hc : Changed k { k with foreground := some p.id } slot p p :=
      ⟨hslot, rfl, by rw [← hslot, update_eq_self], rfl, fun _ _ _ => Iff.rfl,
        fun owner hne hfore => absurd (some.inj hfore).symm hne⟩
    have hself (id : ℕ) : (h.after k (.setForeground slot)).terminal id ↔
        p.exited = true ∧ p.id = id := by
      change (∃ p', k.processes slot = some p' ∧ _) ↔ _
      rw [hslot]
      simp
    obtain ⟨hended, hrunning⟩ := hi.tracked.recorded slot p hslot
    refine hc.inv hi hb (hc.tracked hi.numbered hi.tracked ⟨fun hexited => ?_, fun hexited => ?_⟩
      (fun _ _ => Iff.rfl) fun id hne => ?_) fun _ => rfl
    · exact ⟨(hended hexited).1, iff_of_true rfl ((hself p.id).mpr ⟨hexited, rfl⟩)⟩
    · refine ⟨(hrunning hexited).1, fun hterminal => ?_⟩
      cases hexited.symm.trans ((hself p.id).mp hterminal).1
    · have hnot : ¬(h.after k (.setForeground slot)).terminal id := fun hterminal =>
        hne ((hself id).mp hterminal).2.symm
      exact ⟨fun hterminal => absurd hterminal hnot,
        fun _ => iff_of_false (fun hfore => hne (some.inj hfore).symm) hnot⟩
  | exit slot switch =>
    obtain ⟨p, hp, hstep⟩ := bind_eq_some_iff.mp hstep
    obtain ⟨hplace, hstep⟩ := ite_none_right_eq_some.mp hstep
    cases hstep
    refine ⟨⟨(exitCurrentProcess_changed hp switch).numbered hi.numbered,
      exit_tracked hi.numbered hi.tracked hp hplace switch⟩,
      (exit_balanced_iff hb hp hplace switch).trans (not_congr ?_)⟩
    change _ ↔ ∃ p, k.running slot = some p ∧ _
    rw [hp]
    simp
  | kill slot =>
    obtain ⟨p, hp, hstep⟩ := bind_eq_some_iff.mp hstep
    cases hstep
    exact ⟨⟨(killProcess_changed hp).numbered hi.numbered,
      killProcess_tracked hi.numbered hi.tracked hp⟩, iff_of_true (killProcess_balanced hb hp) id⟩
  | wait parent child =>
    cases hstep
    exact hi.wait hb parent child

theorem balanced_boot : boot.Balanced where
  count _ := (Finset.sum_eq_zero fun _ _ => rfl).symm
  sockets := nofun
  foreground := nofun

/-- At boot no process has ended. -/
def History.empty : History :=
  ⟨fun _ => False, fun _ => False⟩

theorem inv_boot : Inv boot .empty :=
  ⟨⟨nofun, nofun⟩, nofun, fun _ hold => hold.elim nofun nofun⟩

/-- A child with a page, a mapped file, a swapped page, a socket and the foreground, inside a
read of the disk. -/
def child : Process :=
  ⟨1, 0, false, [4], some [10], [⟨[11], some 5, [6]⟩], none, 0⟩

def reading : List Op :=
  [.spawn ⟨0, by decide⟩ child, .openSocket ⟨0, by decide⟩ ⟨3, by decide⟩,
    .setForeground ⟨0, by decide⟩, .act ⟨0, by decide⟩ .enterFileIo,
    .act ⟨0, by decide⟩ (.submit 2)]

end Kernel

end WovenHat.Teardown
