import WovenHat.Verification.Task.DescriptorTable

/-! # Reference counts over runs

Every successful call leaves the counts balanced: it stores each reference that it has
counted, and drops each reference that it has taken out. -/

namespace WovenHat.Descriptors

open Library WovenHat.Vfs WovenHat.Task Function List Option Result
open WovenHat.Task.System (ProcessSlot)

namespace System

variable {s s' : System} {extra : List FdKind} {slot : ProcessSlot} {p : Process}

/-! ## The calls -/

variable {m : Fin maxAnonymousMappings} {descriptor : ℕ}

theorem freeMapping_free (h : freeMapping p = some m) : p.memoryMappings m = none := by
  have hfree := find?_some h
  simpa using hfree

theorem sameOpenFiles_writeFile (v : State) (path : Str) (data : List UInt8) :
    SameOpenFiles v.openFiles (v.writeFile path data).2.openFiles := by
  have heffect : State.Effect v (.writeFile path data) _ := .writeFile path data
  exact heffect.references nofun nofun nofun

theorem Balanced.openOrCreate (h : Balanced extra s) {write : Bool} {path : Str} {id : OpenFileId}
    (hopen : s.openOrCreate write path = (.ok id, s')) : Balanced (.file id :: extra) s' := by
  unfold System.openOrCreate at hopen
  split at hopen
  · rename_i hpath
    cases hopen
    exact h.openPath hpath
  split at hopen
  · cases hopen
  split at hopen
  · cases hopen
  rename_i vfs hwrite
  split at hopen
  · cases hopen
  rename_i hpath
  cases hopen
  have hsame := sameOpenFiles_writeFile s.vfs path []
  rw [hwrite] at hsame
  exact (h.setVfs hsame).openPath hpath

section Calls

variable (h : Balanced [] s)

include h

theorem Balanced.follows {call : TableCall} {reply : List ℕ} (hcall : Follows s slot call reply s') :
    Balanced [] s' := by
  obtain ⟨p, t, files, hp, hposix, hsame, rfl⟩ := hcall
  have hp' : t.processes slot = some p := by rw [hsame, hp]
  cases hposix with
  | openFile hopen hd => exact (h.openOrCreate hopen).install hp' hd.free
  | dup _ hclone hd => exact (h.clone (Nat.zero_le _) hclone).install hp' hd.free
  | @dup2 _ new _ t _ _ hclone =>
    have hp' : t.processes slot = some p := by rw [(cloned_of_ok hclone).processes, hp]
    have hcloned := h.clone (Nat.zero_le _) hclone
    cases hnew : p.files new with
    | none => exact hcloned.install hp' hnew
    | some prev =>
      have htaken := (hcloned.take hp' hnew).release
      rw [setFile, setProcess_releaseFd] at htaken
      have hinstalled := htaken.install (update_self slot _ _) (update_self _ _ _)
      rw [setFile, setProcess_setProcess, update_idem] at hinstalled
      exact hinstalled
  | same =>
    rw [System.setProcess, ← hp, update_eq_self]
    exact h
  | pipe halloc hr hw =>
    have hread := (h.create halloc).install hp hr.free
    have hwrite := hread.install (update_self slot _ _) hw.free
    rw [setFile, setFile, setProcess_setProcess] at hwrite
    exact hwrite
  | close _ hfd =>
    rw [← setProcess_releaseFd]
    exact (h.take hp hfd).release

theorem Balanced.mmapCurrent (hmap : s.mmapCurrent slot = some s') : Balanced [] s' := by
  unfold System.mmapCurrent at hmap
  split at hmap
  · cases hmap
  rename_i p hp
  obtain ⟨m, hm, rfl⟩ := map_eq_some_iff.mp hmap
  refine h.setMapping hp fun ref => ?_
  rw [freeMapping_free hm]
  rfl

theorem Balanced.mmapFileLazy
    (hmap : s.mmapFileLazy slot descriptor = some s') : Balanced [] s' := by
  unfold System.mmapFileLazy at hmap
  split at hmap
  · cases hmap
  rename_i p hp
  split at hmap
  · rename_i file hfile
    split at hmap
    · cases hmap
    rename_i m hm
    split at hmap
    · cases hmap
    rename_i s₁ hclone
    cases hmap
    have hp' : s₁.processes slot = some p := by rw [(cloned_of_ok hclone).processes, hp]
    refine (h.clone (Nat.zero_le _) hclone).setMapping hp' fun ref => ?_
    rw [freeMapping_free hm]
    exact (congrArg (· + 0) (one_some ref (.file file))).trans (Nat.zero_add _).symm
  · cases hmap

theorem Balanced.munmapCurrent (hunmap : s.munmapCurrent slot m = some s') : Balanced [] s' := by
  unfold System.munmapCurrent at hunmap
  split at hunmap
  · cases hunmap
  rename_i p hp
  split at hunmap
  · cases hunmap
  rename_i mapping hmapping
  obtain ⟨s₁, hclosed, rfl⟩ := map_eq_some_iff.mp hunmap
  -- The entry is cleared after the file is closed; the order makes no difference.
  have htaken : Balanced (backing [mapping] ++ []) (s.setMapping slot p m none) := by
    refine h.setMapping hp fun ref => ?_
    rw [hmapping, append_nil]
    cases hlazy : mapping.lazy with
    | none => simp [mappingRef, backing, hlazy]
    | some file => simp [mappingRef, backing, hlazy, one_some]
  refine htaken.unmapAll ?_
  unfold System.unmapAll
  rw [foldlM_cons]
  unfold unmapAnonymous at hclosed ⊢
  cases hlazy : mapping.lazy with
  | none =>
    rw [hlazy] at hclosed
    cases hclosed
    rfl
  | some file =>
    simp only [hlazy] at hclosed ⊢
    cases hclose : s.vfs.closeOpenFile file with
    | mk result vfs =>
      have hclose' : (s.setMapping slot p m none).vfs.closeOpenFile file = (result, vfs) := hclose
      rw [hclose] at hclosed
      rw [hclose']
      cases result with
      | error e => cases hclosed
      | ok _ =>
        cases hclosed
        rfl

theorem Balanced.forkCurrent (hfork : s.forkCurrent slot = some s') : Balanced [] s' := by
  unfold System.forkCurrent at hfork
  split at hfork
  · cases hfork
  rename_i p hp
  simp only [Option.bind_eq_bind, Option.bind_eq_some_iff, Option.pure_def,
    Option.some.injEq] at hfork
  obtain ⟨child, hchild, s₁, hmappings, s₂, hfiles, rfl⟩ := hfork
  have hlen := length_backing_le p
  have hlen' := length_fileList_le p
  have hbacking : s.cloneAll (backing (mappingList p)) = some s₁ := hmappings
  obtain ⟨hone, hprocs⟩ := h.cloneAll (by rw [length_nil]; omega) hbacking
  rw [append_nil] at hone
  obtain ⟨htwo, hprocs'⟩ := hone.cloneAll (by omega) hfiles
  refine htwo.setProcess fun ref => ?_
  have hfree : s₂.processes child = none := by
    have hfound := find?_some hchild
    simp only [Bool.and_eq_true, isNone_iff_eq_none] at hfound
    rw [hprocs', hprocs, hfound.1]
  rw [hfree]
  have hrefs := refs_eq_count p ref
  simp only [entryRefs, elim_some, elim_none, count_nil]
  omega

theorem Balanced.execCurrent (hexec : s.execCurrent slot = some s') : Balanced [] s' := by
  unfold System.execCurrent at hexec
  split at hexec
  · cases hexec
  rename_i p hp
  refine Balanced.unmapAll (h.setProcess fun ref => ?_) hexec
  rw [hp]
  have hrefs := refs_eq_count p ref
  have hcleared := refs_eq_count { p with memoryMappings := fun _ => none } ref
  have hnone : mappingList { p with memoryMappings := fun _ => none } = [] := filterMap_none _
  rw [hnone] at hcleared
  rw [append_nil]
  simp only [entryRefs, elim_some]
  rw [hrefs, hcleared, count_append, count_append]
  rfl

end Calls

/-- No count is about the processes that have exited. -/
theorem Balanced.setZombies (h : Balanced extra s) (zombies : ProcessSlot → Bool) :
    Balanced extra { s with zombies } := by
  refine ⟨fun ref => ?_, h.files, h.pipes⟩
  have hcount : count { s with zombies } ref = s.count ref := by cases ref <;> rfl
  rw [hcount]
  exact h.counts ref

theorem Balanced.exitCurrentProcess (h : Balanced [] s)
    (hexit : s.exitCurrentProcess slot = some s') : Balanced [] s' := by
  unfold System.exitCurrentProcess at hexit
  split at hexit
  · cases hexit
  rename_i p hp
  have hcleared : Balanced (fileList p ++ (backing (mappingList p) ++ []))
      ({ s with zombies := update s.zombies slot true }.setProcess slot none) := by
    refine (h.setZombies _).setProcess fun ref => ?_
    rw [show _ = some p from hp, append_nil]
    have hrefs := refs_eq_count p ref
    simp only [entryRefs, elim_some, elim_none, count_nil]
    omega
  exact hcleared.releaseAll.unmapAll hexit

end System

/-! ## Runs -/

theorem Result.of_state {α : Type} {r : Result α} {s : System} (h : r.state = some s) :
    ∃ a, r = (.ok a, s) := by
  obtain ⟨result, s₁⟩ := r
  cases result with
  | error e => cases h
  | ok a =>
    cases h
    exact ⟨a, rfl⟩

theorem balanced_step {s s' : System} {op : Op} (h : s.Balanced [])
    (hstep : step s op = some s') : s'.Balanced [] := by
  cases op with
  | spawn slot =>
    rw [step] at hstep
    split at hstep
    · rename_i hfree
      cases hstep
      simp only [Bool.and_eq_true, isNone_iff_eq_none] at hfree
      refine h.setProcess fun ref => ?_
      rw [hfree.1]
      exact congrArg (· + 0) (Process.refs_new ref)
    · cases hstep
  | openFile slot write path =>
    obtain ⟨d, hcall⟩ := of_state hstep
    exact h.follows (openCurrent_follows hcall)
  | dup slot descriptor =>
    obtain ⟨d, hcall⟩ := of_state hstep
    exact h.follows (dupCurrent_follows hcall)
  | dup2 slot old new =>
    obtain ⟨d, hcall⟩ := of_state hstep
    by_cases hne : old = new
    · subst hne
      exact (dup2Current_self hcall).1 ▸ h
    · exact h.follows (dup2Current_follows hne hcall)
  | pipe slot =>
    obtain ⟨fds, hcall⟩ := of_state hstep
    exact h.follows (pipeCurrent_follows hcall)
  | close slot descriptor =>
    obtain ⟨_, hcall⟩ := of_state hstep
    exact h.follows (closeCurrent_follows hcall)
  | mmap slot => exact h.mmapCurrent hstep
  | mmapFileLazy slot descriptor => exact h.mmapFileLazy hstep
  | munmap slot m => exact h.munmapCurrent hstep
  | fork slot => exact h.forkCurrent hstep
  | exec slot => exact h.execCurrent hstep
  | exit slot => exact h.exitCurrentProcess hstep
  | wait slot =>
    rw [step] at hstep
    split at hstep
    · cases hstep
      exact h.setZombies _
    · cases hstep
  | other vfs pipes =>
    rw [step] at hstep
    split at hstep
    · rename_i hsame
      cases hstep
      exact (h.setVfs hsame.1).setPipes hsame.2
    · cases hstep

theorem balanced_run (page : ℕ → Buffer 4096) (ops : List Op) :
    (runAll step (System.boot page) ops).Balanced [] :=
  runAll_induct (System.balanced_boot page) (fun _ _ _ h hstep => balanced_step h hstep) ops

/-- The descriptors of all processes that are a reference. -/
def System.descriptorCount (s : System) (ref : FdKind) : ℕ :=
  ∑ slot, (s.processes slot).elim 0 fun p => p.descriptors ref

/-- The lazy mappings of all processes that have a reference. -/
def System.mappingCount (s : System) (ref : FdKind) : ℕ :=
  ∑ slot, (s.processes slot).elim 0 fun p => p.mappings ref

theorem System.held_eq (s : System) (ref : FdKind) :
    s.held ref = s.descriptorCount ref + s.mappingCount ref := by
  rw [held, descriptorCount, mappingCount, ← Finset.sum_add_distrib]
  refine Finset.sum_congr rfl fun slot _ => ?_
  cases s.processes slot <;> rfl

variable {ref : FdKind}

theorem one_mappingRef_eq_zero (h : ∀ id, ref ≠ .file id) (m : Option Mapping) :
    one ref (mappingRef m) = 0 := by
  unfold one mappingRef
  rw [if_neg]
  intro heq
  obtain ⟨mapping, _, hmapping⟩ := bind_eq_some_iff.mp heq
  obtain ⟨id, _, hid⟩ := map_eq_some_iff.mp hmapping
  exact h id hid.symm

theorem System.mappingCount_eq_zero (s : System)
    (h : ∀ id, ref ≠ .file id) : s.mappingCount ref = 0 := by
  have hprocess : ∀ p : Process, p.mappings ref = 0 := fun p => by
    exact Finset.sum_eq_zero fun m _ => one_mappingRef_eq_zero h _
  refine Finset.sum_eq_zero fun slot _ => ?_
  cases s.processes slot with
  | none => rfl
  | some p => exact hprocess p

namespace System.Balanced

variable {s : System} (h : s.Balanced [])

include h

theorem count_eq (ref : FdKind) : s.count ref = s.descriptorCount ref + s.mappingCount ref := by
  rw [h.counts ref, s.held_eq, count_nil, Nat.add_zero]

theorem refcount_eq (i : Fin maxOpenFiles) : (s.vfs.openFiles i).refcount =
    s.descriptorCount (.file i) + s.mappingCount (.file i) := by
  have hcount := h.count_eq (.file i)
  simp only [count, i.isLt, dif_pos, Fin.eta] at hcount
  exact hcount

/-- No mapping refers to a pipe. -/
theorem count_eq_descriptors (ref : FdKind) (hpipe : ∀ id, ref ≠ .file id) :
    s.count ref = s.descriptorCount ref := by
  rw [h.count_eq, s.mappingCount_eq_zero hpipe, Nat.add_zero]

theorem ends_eq (i : Fin Pipes.maxPipes) :
    (s.pipes.pipes i).readers = s.descriptorCount (.pipeRead i) ∧
      (s.pipes.pipes i).writers = s.descriptorCount (.pipeWrite i) := by
  have hread := h.count_eq_descriptors (.pipeRead i) nofun
  have hwrite := h.count_eq_descriptors (.pipeWrite i) nofun
  simp only [count, i.isLt, dif_pos, Fin.eta] at hread hwrite
  exact ⟨hread, hwrite⟩

end System.Balanced

/-- After any successful calls of any processes, the count of every open file is the number of
descriptors and lazy mappings that refer to it, and the counts of every pipe are the numbers
of descriptors that refer to its ends. -/
theorem reference_counts_exact (page : ℕ → Buffer 4096) (ops : List Op) :
    let s := runAll step (System.boot page) ops
    (∀ i : Fin maxOpenFiles, (s.vfs.openFiles i).refcount =
      s.descriptorCount (.file i) + s.mappingCount (.file i)) ∧
    ∀ i : Fin Pipes.maxPipes, (s.pipes.pipes i).readers = s.descriptorCount (.pipeRead i) ∧
      (s.pipes.pipes i).writers = s.descriptorCount (.pipeWrite i) := by
  have h := balanced_run page ops
  exact ⟨h.refcount_eq, h.ends_eq⟩

end WovenHat.Descriptors
