import WovenHat.Verification.Task.Open
import WovenHat.Verification.Task.ReferenceCounts

/-! # Calls that fail

`dup2_current` fails before it changes anything. `open_current`, `dup_current` and
`pipe_current` first count a reference and then look for a free descriptor; without one they
fail and keep what they have counted. -/

namespace WovenHat.Descriptors

open WovenHat.Vfs WovenHat.Task Function Result
open WovenHat.Task.System (ProcessSlot maxProcesses)

/-- The calls that make descriptors. -/
inductive Call where
  | openFile (checks : Except FileError Unit) (write : Bool) (path : Str)
  | dup (descriptor : ℕ)
  | dup2 (old new : ℕ)
  | pipe

def Result.failed {α : Type} : Result α → Bool × System
  | (.ok _, s) => (false, s)
  | (.error _, s) => (true, s)

def Call.perform (s : System) (slot : ProcessSlot) : Call → Bool × System
  | .openFile checks write path => failed (s.openCurrent slot checks write path)
  | .dup descriptor => failed (s.dupCurrent slot descriptor)
  | .dup2 old new => failed (s.dup2Current slot old new)
  | .pipe => failed (s.pipeCurrent slot)

/-- The descriptors, the counts of the open files, and the pipes with their ends are those of
before. -/
structure Unaffected (s s' : System) : Prop where
  processes : s'.processes = s.processes
  openFiles : SameOpenFiles s.vfs.openFiles s'.vfs.openFiles
  pipes : SamePipes s.pipes s'.pipes

theorem Unaffected.refl (s : System) : Unaffected s s :=
  ⟨rfl, fun _ => ⟨rfl, rfl⟩, fun _ => ⟨rfl, rfl, rfl⟩⟩

/-- `vfs::open` finds the file. -/
def Existing (s : System) (path : Str) : Prop :=
  validateAbsolutePath path = .ok () ∧
    ∃ i, (s.vfs.registry.position fun n => n.matchesPath path && n.kind == .file) = some i

/-! ## Free descriptors -/

def Free (p : Process) (d : Fin maxFileDescriptors) : Prop :=
  3 ≤ d.val ∧ p.files d = none

section

variable {p : Process} {d r : Fin maxFileDescriptors}

theorem freeDescriptor_some (h : System.freeDescriptor p = some d) : Free p d := by
  have hlowest := lowest_of_freeDescriptor h
  exact ⟨hlowest.from_three, hlowest.free⟩

theorem freeDescriptor_none : System.freeDescriptor p = none ↔ ∀ d, ¬Free p d := by
  unfold System.freeDescriptor Free
  rw [List.find?_eq_none]
  simp only [List.mem_finRange, forall_true_left, Bool.and_eq_true, decide_eq_true_eq,
    Option.isNone_iff_eq_none]

/-- A descriptor that is taken is not free, and the others are as before. -/
theorem free_update {fd : FdKind} :
    Free { p with files := update p.files r (some fd) } d ↔ d ≠ r ∧ Free p d := by
  unfold Free
  by_cases hd : d = r
  · subst hd
    simp
  · simp [hd]

end

/-! ## What a failing call keeps -/

/-- The count is at its limit, where a further end of a pipe does not show. -/
def Saturated (s : System) : FdKind → Prop
  | .file _ => False
  | .pipeRead id => s.count (.pipeRead id) = Pipes.u32Max
  | .pipeWrite id => s.count (.pipeWrite id) = Pipes.u32Max

/-- The call counts a reference and finds no place for it. -/
def Call.Leaks (s : System) (slot : ProcessSlot) : Call → Prop
  | .openFile checks _ _ => checks = .ok () ∧ ¬s.vfs.openFiles.Full ∧
      ¬∃ p d, s.processes slot = some p ∧ Free p d
  | .dup descriptor => ∃ p fd s', s.processes slot = some p ∧
      System.descriptor? p descriptor = some fd ∧ s.cloneFd fd = (.ok (), s') ∧
      ¬Saturated s fd ∧ ∀ d, ¬Free p d
  | .dup2 _ _ => False
  | .pipe => (∃ i, (s.pipes.pipes i).occupied = false) ∧
      ¬∃ p r w, s.processes slot = some p ∧ r ≠ w ∧ Free p r ∧ Free p w

variable {s s' : System} {slot : ProcessSlot} {fd : FdKind} {e : FileError}

theorem cloneFd_error (h : s.cloneFd fd = (.error e, s')) : s' = s := by
  obtain ⟨e', heq⟩ | ⟨s₁, heq, -⟩ := s.cloneFd_cases fd
  · rw [heq] at h
    cases h
    rfl
  · rw [heq] at h
    cases h

theorem unaffected_setPipe {i : Fin Pipes.maxPipes} {pipe : Pipes.Pipe} :
    Unaffected s { s with pipes := s.pipes.set i pipe } ↔
      pipe.occupied = (s.pipes.pipes i).occupied ∧ pipe.readers = (s.pipes.pipes i).readers ∧
        pipe.writers = (s.pipes.pipes i).writers := by
  constructor
  · intro hsame
    have hi := hsame.pipes i
    simp only [Pipes.Table.set, update_self] at hi
    exact hi
  intro hpipe
  refine ⟨rfl, fun _ => ⟨rfl, rfl⟩, fun j => ?_⟩
  by_cases hj : j = i
  · subst hj
    simpa only [Pipes.Table.set, update_self] using hpipe
  · simp only [Pipes.Table.set, update_of_ne hj, and_self]

/-- A clone that succeeds shows in the counts, unless these are at their limit. -/
theorem cloneFd_affects (h : s.cloneFd fd = (.ok (), s')) : Unaffected s s' ↔ Saturated s fd := by
  cases System.cloned_of_ok h with
  | file i hused =>
    refine iff_of_false (fun hsame => ?_) id
    have hcount := (hsame.openFiles i).2
    simp [System.moreOpen] at hcount
  | pipeRead i hused =>
    rw [unaffected_setPipe]
    simp only [Saturated, System.count, i.isLt, dif_pos, Fin.eta, true_and, and_true]
    omega
  | pipeWrite i hused =>
    rw [unaffected_setPipe]
    simp only [Saturated, System.count, i.isLt, dif_pos, Fin.eta, true_and]
    omega

/-! ## The calls -/

/-- Without a description `vfs::open` fails, also after the write of an empty file. -/
theorem openOrCreate_full (write : Bool) (path : Str) (hfull : s.vfs.openFiles.Full) :
    ∃ vfs, s.openOrCreate write path = (.error .notFound, { s with vfs }) ∧
      SameOpenFiles s.vfs.openFiles vfs.openFiles := by
  unfold System.openOrCreate
  obtain ⟨e, hopen⟩ := openPath_of_full path hfull
  rw [hopen]
  cases write with
  | false => exact ⟨s.vfs, rfl, fun _ => ⟨rfl, rfl⟩⟩
  | true =>
    have hsame := System.sameOpenFiles_writeFile s.vfs path []
    cases hwrite : s.vfs.writeFile path [] with
    | mk result vfs =>
      rw [hwrite] at hsame
      cases result with
      | error e => exact ⟨vfs, rfl, hsame⟩
      | ok done =>
        have hfull' : vfs.openFiles.Full := fun i => (hsame i).1.trans (hfull i)
        obtain ⟨e, hagain⟩ := openPath_of_full path hfull'
        simp only [Bool.not_true, Bool.false_eq_true, if_false, hagain]
        exact ⟨vfs, rfl, hsame⟩

variable {path : Str}

/-- Otherwise an existing file is opened, and the description shows. -/
theorem openOrCreate_existing (write : Bool) (hpath : Existing s path)
    (hfull : ¬s.vfs.openFiles.Full) :
    ∃ id vfs, s.openOrCreate write path = (.ok id, { s with vfs }) ∧
      ¬SameOpenFiles s.vfs.openFiles vfs.openFiles := by
  obtain ⟨hvalid, node, hpos⟩ := hpath
  obtain ⟨id, t, halloc⟩ := alloc_of_not_full hfull node (s.vfs.registry.generations node)
  have hopen : s.vfs.openPath path = (.ok id, { s.vfs with openFiles := t }) := by
    unfold State.openPath
    simp only [hvalid, hpos, halloc]
  refine ⟨id, _, by rw [System.openOrCreate, hopen], fun hsame => ?_⟩
  obtain ⟨e, heq⟩ | ⟨i, n, -, -, hfree, heq⟩ := s.vfs.openPath_cases path
  · rw [heq] at hopen
    cases hopen
  rw [heq] at hopen
  cases hopen
  have hused := (hsame i).1
  simp only [update_self, hfree] at hused
  cases hused

theorem openCurrent_iff {checks : Except FileError Unit} {write : Bool} (hpath : Existing s path) :
    ((Call.perform s slot (.openFile checks write path)).1 = true →
      Unaffected s (Call.perform s slot (.openFile checks write path)).2) ↔
      ¬Call.Leaks s slot (.openFile checks write path) := by
  simp only [Call.perform, System.openCurrent, Call.Leaks]
  cases checks with
  | error e => exact iff_of_true (fun _ => .refl s) fun h => by cases h.1
  | ok done =>
    by_cases hfull : s.vfs.openFiles.Full
    · obtain ⟨vfs, hopen, hsame⟩ := openOrCreate_full write path hfull
      simp only [hopen]
      exact iff_of_true (fun _ => ⟨rfl, hsame, fun _ => ⟨rfl, rfl, rfl⟩⟩) fun h => h.2.1 hfull
    obtain ⟨id, vfs, hopen, hdiff⟩ := openOrCreate_existing write hpath hfull
    simp only [hopen, System.installDescriptor]
    cases hp : s.processes slot with
    | none =>
      refine iff_of_false (fun h => hdiff (h rfl).openFiles) (not_not.mpr ⟨trivial, hfull, ?_⟩)
      rintro ⟨p, d, hsome, -⟩
      cases hsome
    | some p =>
      cases hd : System.freeDescriptor p with
      | none =>
        simp only [hd]
        refine iff_of_false (fun h => hdiff (h rfl).openFiles) (not_not.mpr ⟨trivial, hfull, ?_⟩)
        rintro ⟨q, d, hsome, hfree⟩
        cases hsome
        exact freeDescriptor_none.mp hd d hfree
      | some d =>
        simp only [hd]
        exact iff_of_true (fun h => by cases h)
          fun h => h.2.2 ⟨p, d, rfl, freeDescriptor_some hd⟩

theorem dupCurrent_iff (descriptor : ℕ) : ((Call.perform s slot (.dup descriptor)).1 = true →
      Unaffected s (Call.perform s slot (.dup descriptor)).2) ↔
      ¬Call.Leaks s slot (.dup descriptor) := by
  simp only [Call.perform, System.dupCurrent, Call.Leaks]
  cases hp : s.processes slot with
  | none => exact iff_of_true (fun _ => .refl s) (by simp)
  | some p =>
    cases hfd : System.descriptor? p descriptor with
    | none =>
      simp only [hfd]
      exact iff_of_true (fun _ => .refl s) (by simp [hfd])
    | some fd =>
      simp only [hfd]
      cases hclone : s.cloneFd fd with
      | mk result s' =>
        cases result with
        | error e =>
          exact iff_of_true (fun _ => cloneFd_error hclone ▸ .refl s) (by simp [hfd, hclone])
        | ok done =>
          cases hd : System.freeDescriptor p with
          | none =>
            -- the reference is counted and has no descriptor
            have hfree := freeDescriptor_none.mp hd
            simp only [failed, forall_true_left, cloneFd_affects hclone]
            simp [hfd, hclone, hfree]
          | some d =>
            have hfree := freeDescriptor_some hd
            refine iff_of_true nofun ?_
            rintro ⟨q, _, _, hsome, _, _, _, hnone⟩
            cases hsome
            exact hnone d hfree

theorem dup2Current_error {old new : ℕ}
    (h : s.dup2Current slot old new = (.error e, s')) : s' = s := by
  unfold System.dup2Current at h
  split at h
  · split at h
    · cases h
    split at h
    · cases h
      rfl
    split at h
    · cases h
      rfl
    split at h
    · rename_i hclone
      cases h
      exact cloneFd_error hclone
    split at h <;> cases h
  · cases h
    rfl

theorem dup2Current_unaffected (old new : ℕ) : (Call.perform s slot (.dup2 old new)).1 = true →
      Unaffected s (Call.perform s slot (.dup2 old new)).2 := by
  simp only [Call.perform]
  cases hcall : s.dup2Current slot old new with
  | mk result s' =>
    cases result with
    | ok d => exact nofun
    | error e => exact fun _ => dup2Current_error hcall ▸ .refl s

theorem alloc_error {t t' : Pipes.Table} {e : Pipes.Error} (h : t.alloc = (.error e, t')) :
    t' = t ∧ ∀ i, (t.pipes i).occupied = true := by
  unfold Pipes.Table.alloc at h
  split at h
  · cases h
  rename_i hfind
  cases h
  rw [List.find?_eq_none] at hfind
  exact ⟨rfl, fun i => by simpa using hfind i (List.mem_finRange i)⟩

theorem pipeCurrent_iff :
    ((Call.perform s slot .pipe).1 = true → Unaffected s (Call.perform s slot .pipe).2) ↔
      ¬Call.Leaks s slot .pipe := by
  simp only [Call.perform, System.pipeCurrent, Call.Leaks]
  cases halloc : s.pipes.alloc with
  | mk result pipes =>
    cases result with
    | error e =>
      obtain ⟨rfl, hfull⟩ := alloc_error halloc
      refine iff_of_true (fun _ => .refl s) ?_
      rintro ⟨⟨i, hfree⟩, -⟩
      rw [hfull i] at hfree
      cases hfree
    | ok id =>
      obtain ⟨i, rfl, hfree, rfl⟩ := System.alloc_ok halloc
      have hdiff : ¬SamePipes s.pipes (s.pipes.set i .fresh) := by
        intro hsame
        have hused := (hsame i).1
        simp only [Pipes.Table.set, update_self, hfree] at hused
        cases hused
      cases hp : s.processes slot with
      | none =>
        exact iff_of_false (fun h => hdiff (h rfl).pipes) (not_not.mpr ⟨⟨i, hfree⟩, by simp⟩)
      | some p =>
        cases hr : System.freeDescriptor p with
        | none =>
          simp only [hr]
          refine iff_of_false (fun h => hdiff (h rfl).pipes) (not_not.mpr ⟨⟨i, hfree⟩, ?_⟩)
          rintro ⟨q, r, w, hsome, -, hread, -⟩
          cases hsome
          exact freeDescriptor_none.mp hr r hread
        | some r =>
          simp only [hr]
          cases hw : System.freeDescriptor
              { p with files := update p.files r (some (.pipeRead i)) } with
          | none =>
            -- the read end is in place, and both ends are counted
            refine iff_of_false (fun h => hdiff (h rfl).pipes) (not_not.mpr ⟨⟨i, hfree⟩, ?_⟩)
            rintro ⟨q, r', w', hsome, hne, hread, hwrite⟩
            cases hsome
            have hnone := freeDescriptor_none.mp hw
            by_cases hr' : r' = r
            · exact hnone w' (free_update.mpr ⟨fun h => hne (hr'.trans h.symm), hwrite⟩)
            · exact hnone r' (free_update.mpr ⟨hr', hread⟩)
          | some w =>
            obtain ⟨hne, hwrite⟩ := free_update.mp (freeDescriptor_some hw)
            exact iff_of_true (by rintro ⟨⟩) fun h =>
              h.2 ⟨p, r, w, rfl, hne.symm, freeDescriptor_some hr, hwrite⟩

/-- A call that fails has no effect, unless it counts a reference and finds no free descriptor
for it. -/
theorem failed_call_unaffected_iff (s : System) (slot : ProcessSlot) (call : Call)
    (hexisting : ∀ checks write path, call = .openFile checks write path → Existing s path) :
    ((call.perform s slot).1 = true → Unaffected s (call.perform s slot).2) ↔
      ¬call.Leaks s slot := by
  cases call with
  | openFile checks write path => exact openCurrent_iff (hexisting checks write path rfl)
  | dup descriptor => exact dupCurrent_iff descriptor
  | dup2 old new => exact iff_of_true (dup2Current_unaffected old new) id
  | pipe => exact pipeCurrent_iff

instance : NeZero maxProcesses := ⟨by decide⟩

/-- A process that has made six pipes and then one more read end: all its descriptors are in
use. -/
def busy : System :=
  Library.runAll step (System.boot fun _ => .zero)
    [.spawn 0, .pipe 0, .pipe 0, .pipe 0, .pipe 0, .pipe 0, .pipe 0, .dup 0 3]

/-- The failing `dup_current` leaves a third reader, and the failing `pipe_current` a seventh
pipe. -/
theorem failed_dup_counts : ((Call.dup 3).perform busy 0).1 = true ∧
      ¬Unaffected busy ((Call.dup 3).perform busy 0).2 ∧
      busy.count (.pipeRead 0) = 2 ∧
      ((Call.dup 3).perform busy 0).2.count (.pipeRead 0) = 3 ∧
      (Call.pipe.perform busy 0).1 = true ∧
      busy.count (.pipeRead 6) = 0 ∧
      (Call.pipe.perform busy 0).2.count (.pipeRead 6) = 1 := by
  refine ⟨by decide +kernel, fun hsame => ?_, by decide +kernel⟩
  have hpipes : ¬SamePipes busy.pipes ((Call.dup 3).perform busy 0).2.pipes := by
    decide +kernel
  exact hpipes hsame.pipes

/-- `open_current` of `/etc/motd` fails there too, and its description stays. -/
theorem failed_call_unaffected_motd : Existing busy motd ∧
      ¬(((Call.openFile (.ok ()) false motd).perform busy 0).1 = true →
        Unaffected busy ((Call.openFile (.ok ()) false motd).perform busy 0).2) := by
  have hexisting : Existing busy motd := ⟨by decide +kernel, ⟨5, by decide⟩, by decide +kernel⟩
  have hprocess : ∃ p, busy.processes 0 = some p ∧ System.freeDescriptor p = none := by
    refine ⟨_, rfl, by decide +kernel⟩
  obtain ⟨p, hp, hnone⟩ := hprocess
  refine ⟨hexisting, fun h => ?_⟩
  refine (failed_call_unaffected_iff busy 0 (.openFile (.ok ()) false motd) ?_).mp h ?_
  · rintro _ _ _ ⟨⟩
    exact hexisting
  refine ⟨rfl, by decide +kernel, ?_⟩
  rintro ⟨q, d, hq, hfree⟩
  cases hp.symm.trans hq
  exact freeDescriptor_none.mp hnone d hfree

end WovenHat.Descriptors
