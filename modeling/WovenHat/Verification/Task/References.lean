import WovenHat.Library.Always
import WovenHat.Library.TableSum
import WovenHat.Model.Task.Descriptors
import WovenHat.Verification.Pipes.Fifo
import WovenHat.Verification.Vfs.Calls

/-! # References to open files and pipes

The count of every open file is the number of descriptors and lazy mappings that refer to it,
and the counts of every pipe are the numbers of its descriptors. While a call is under way it
holds references of its own, which it has counted and not stored yet, or taken out of a table
and not dropped yet. -/

namespace WovenHat.Descriptors

open Library WovenHat.Vfs WovenHat.Task Function List Finset Pipes.Table Pipes OpenFileDescription
open WovenHat.Task.System (ProcessSlot)

/-! ## Counting -/

def mappingRef (m : Option Mapping) : Option FdKind :=
  m.bind fun m => m.lazy.map .file

def one (ref : FdKind) (entry : Option FdKind) : ℕ :=
  if entry = some ref then 1 else 0

@[simp] theorem one_none (ref : FdKind) : one ref none = 0 := rfl

theorem one_some (ref fd : FdKind) : one ref (some fd) = [fd].count ref := by
  rw [one, count_singleton]
  by_cases h : fd = ref <;> simp [h]

namespace Process

variable (p : Process) (ref : FdKind)

def descriptors : ℕ :=
  ∑ d, one ref (p.files d)

/-- The lazy mappings that have the reference. -/
def mappings : ℕ :=
  ∑ m, one ref (mappingRef (p.memoryMappings m))

def refs : ℕ :=
  p.descriptors ref + p.mappings ref

theorem refs_setFile (d : Fin maxFileDescriptors) (fd : Option FdKind) :
    refs { p with files := update p.files d fd } ref + one ref (p.files d) =
      p.refs ref + one ref fd := by
  have h := sum_update (one ref) p.files d fd
  simp only [refs, descriptors, mappings]
  omega

theorem refs_setMapping (m : Fin maxAnonymousMappings) (mapping : Option Mapping) :
    refs { p with memoryMappings := update p.memoryMappings m mapping } ref +
        one ref (mappingRef (p.memoryMappings m)) =
      p.refs ref + one ref (mappingRef mapping) := by
  have h := sum_update (fun m => one ref (mappingRef m)) p.memoryMappings m mapping
  simp only [refs, descriptors, mappings]
  omega

theorem refs_le : p.refs ref ≤ 32 := by
  have hone : ∀ entry, one ref entry ≤ 1 := fun entry => by
    unfold one
    split <;> omega
  have hfiles : p.descriptors ref ≤ 16 :=
    (sum_le_card_nsmul univ _ 1 fun d _ => hone _).trans (by decide)
  have hmappings : p.mappings ref ≤ 16 :=
    (sum_le_card_nsmul univ _ 1 fun m _ => hone _).trans (by decide)
  exact Nat.add_le_add hfiles hmappings

@[simp] theorem refs_new : Process.new.refs ref = 0 := by
  simp [refs, descriptors, mappings, Process.new, mappingRef]

end Process

def entryRefs (ref : FdKind) (p : Option Process) : ℕ :=
  p.elim 0 fun p => p.refs ref

namespace System

variable {s s' : System} {extra extra' : List FdKind} {ref : FdKind} {slot : ProcessSlot}
  {p : Process}

/-- How often the processes have a reference. -/
def held (s : System) (ref : FdKind) : ℕ :=
  ∑ slot, entryRefs ref (s.processes slot)

/-- How often the tables count a reference. -/
def count (s : System) : FdKind → ℕ
  | .file id => if h : id < maxOpenFiles then (s.vfs.openFiles ⟨id, h⟩).refcount else 0
  | .pipeRead id => if h : id < maxPipes then (s.pipes.pipes ⟨id, h⟩).readers else 0
  | .pipeWrite id => if h : id < maxPipes then (s.pipes.pipes ⟨id, h⟩).writers else 0

theorem held_le (s : System) (ref : FdKind) : s.held ref ≤ 1024 := by
  have hentry : ∀ p, entryRefs ref p ≤ 32 := fun p => by
    cases p with
    | none => exact Nat.zero_le _
    | some p => exact p.refs_le ref
  exact (sum_le_card_nsmul univ _ 32 fun slot _ => hentry _).trans (by decide)

theorem held_setProcess (s : System) (slot : ProcessSlot) (p : Option Process) (ref : FdKind) :
    (s.setProcess slot p).held ref + entryRefs ref (s.processes slot) =
      s.held ref + entryRefs ref p :=
  sum_update (entryRefs ref) s.processes slot p

/-! ## The invariant -/

/-- Every count is the number of references in the processes and in the hands of the running
call, and an entry is in use exactly if it is counted. -/
structure Balanced (extra : List FdKind) (s : System) : Prop where
  counts : ∀ ref, s.count ref = s.held ref + extra.count ref
  files : ∀ i, (s.vfs.openFiles i).occupied = true ↔ 0 < (s.vfs.openFiles i).refcount
  pipes : ∀ i, (s.pipes.pipes i).occupied = true ↔
    0 < (s.pipes.pipes i).readers + (s.pipes.pipes i).writers

theorem balanced_boot (page : ℕ → Buffer 4096) : Balanced [] (boot page) where
  counts ref := by
    have hheld : (boot page).held ref = 0 := sum_eq_zero fun _ _ => rfl
    rw [hheld]
    cases ref <;> simp [count, boot, State.boot, empty, new,
      Pipes.Pipe.empty]
  files i := by simp [boot, State.boot, empty]
  pipes i := by simp [boot, new, Pipes.Pipe.empty]

theorem Balanced.perm (h : Balanced extra s) (hperm : extra.Perm extra') : Balanced extra' s :=
  ⟨fun ref => (h.counts ref).trans (by rw [hperm.count_eq]), h.files, h.pipes⟩

theorem Balanced.setProcess (h : Balanced extra s) {q : Option Process}
    (hq : ∀ ref, entryRefs ref q + extra'.count ref =
      entryRefs ref (s.processes slot) + extra.count ref) :
    Balanced extra' (s.setProcess slot q) := by
  refine ⟨fun ref => ?_, h.files, h.pipes⟩
  have hcount : (s.setProcess slot q).count ref = s.count ref := by cases ref <;> rfl
  have hheld := s.held_setProcess slot q ref
  have hbalance := h.counts ref
  have hchange := hq ref
  omega

variable {d : Fin maxFileDescriptors} {i : Fin maxOpenFiles} {id : OpenFileId} {vfs : State}
  {pipes : Pipes.Table} {fds : List FdKind}

theorem Balanced.install (h : Balanced (ref :: extra) s) (hp : s.processes slot = some p)
    (hfree : p.files d = none) : Balanced extra (s.setFile slot p d (some ref)) := by
  refine h.setProcess fun ref' => ?_
  have hrefs := p.refs_setFile ref' d (some ref)
  rw [hfree, one_none, one_some] at hrefs
  rw [hp, ← singleton_append, count_append]
  simp only [entryRefs, Option.elim_some]
  omega

theorem Balanced.take (h : Balanced extra s) (hp : s.processes slot = some p)
    (hfile : p.files d = some ref) : Balanced (ref :: extra) (s.setFile slot p d none) := by
  refine h.setProcess fun ref' => ?_
  have hrefs := p.refs_setFile ref' d none
  rw [hfile, one_none, one_some] at hrefs
  rw [hp, ← singleton_append, count_append]
  simp only [entryRefs, Option.elim_some]
  omega

theorem Balanced.setMapping (h : Balanced extra s) (hp : s.processes slot = some p)
    {m : Fin maxAnonymousMappings} {mapping : Option Mapping}
    (hextra : ∀ ref, one ref (mappingRef mapping) + extra'.count ref =
      one ref (mappingRef (p.memoryMappings m)) + extra.count ref) :
    Balanced extra' (s.setMapping slot p m mapping) := by
  refine h.setProcess fun ref => ?_
  have hrefs := p.refs_setMapping ref m mapping
  have hchange := hextra ref
  rw [hp]
  simp only [entryRefs, Option.elim_some]
  omega

/-! ## Counting up and down -/

theorem Balanced.setOpenFile (h : Balanced extra s) {e : OpenFileDescription}
    (hopen : s'.vfs.openFiles = update s.vfs.openFiles i e) (hpipes : s'.pipes = s.pipes)
    (hprocs : s'.processes = s.processes) (hused : e.occupied = true ↔ 0 < e.refcount)
    (hcount : e.refcount + extra.count (.file i) =
      (s.vfs.openFiles i).refcount + extra'.count (.file i))
    (hother : ∀ ref, ref ≠ .file i → extra'.count ref = extra.count ref) : Balanced extra' s' := by
  have hheld : ∀ ref, s'.held ref = s.held ref := fun ref => by rw [held, held, hprocs]
  have hget : ∀ j, s'.vfs.openFiles j = if j = i then e else s.vfs.openFiles j := fun j => by
    rw [hopen, update_apply]
  refine ⟨fun ref => ?_, fun j => ?_, fun j => ?_⟩
  · have hbalance := h.counts ref
    rw [hheld]
    by_cases href : ref = .file i
    · subst href
      simp only [count, i.isLt, dif_pos, Fin.eta, hget, if_true] at hbalance ⊢
      omega
    have hsame : s'.count ref = s.count ref := by
      cases ref with
      | file id =>
        simp only [count]
        split
        · rename_i hid
          rw [hget, if_neg fun heq => href (by rw [← heq])]
        · rfl
      | pipeRead id => simp only [count, hpipes]
      | pipeWrite id => simp only [count, hpipes]
    rw [hsame, hbalance, hother ref href]
  · rw [hget]
    split
    · exact hused
    · exact h.files j
  · rw [hpipes]
    exact h.pipes j

theorem Balanced.setPipe (h : Balanced extra s) {i : Fin maxPipes} {pipe : Pipes.Pipe}
    (hopen : s'.vfs.openFiles = s.vfs.openFiles) (hpipes : s'.pipes = s.pipes.set i pipe)
    (hprocs : s'.processes = s.processes)
    (hused : pipe.occupied = true ↔ 0 < pipe.readers + pipe.writers)
    (hreaders : pipe.readers + extra.count (.pipeRead i) =
      (s.pipes.pipes i).readers + extra'.count (.pipeRead i))
    (hwriters : pipe.writers + extra.count (.pipeWrite i) =
      (s.pipes.pipes i).writers + extra'.count (.pipeWrite i))
    (hother : ∀ ref, ref ≠ .pipeRead i → ref ≠ .pipeWrite i →
      extra'.count ref = extra.count ref) : Balanced extra' s' := by
  have hheld : ∀ ref, s'.held ref = s.held ref := fun ref => by rw [held, held, hprocs]
  have hget : ∀ j, s'.pipes.pipes j = if j = i then pipe else s.pipes.pipes j := fun j => by
    rw [hpipes]
    exact update_apply s.pipes.pipes i pipe j
  refine ⟨fun ref => ?_, fun j => ?_, fun j => ?_⟩
  · have hbalance := h.counts ref
    rw [hheld]
    by_cases hread : ref = .pipeRead i
    · subst hread
      simp only [count, i.isLt, dif_pos, Fin.eta, hget, if_true] at hbalance ⊢
      omega
    by_cases hwrite : ref = .pipeWrite i
    · subst hwrite
      simp only [count, i.isLt, dif_pos, Fin.eta, hget, if_true] at hbalance ⊢
      omega
    have hsame : s'.count ref = s.count ref := by
      cases ref with
      | file id => simp only [count, hopen]
      | pipeRead id =>
        simp only [count]
        split
        · rw [hget, if_neg fun heq => hread (by rw [← heq])]
        · rfl
      | pipeWrite id =>
        simp only [count]
        split
        · rw [hget, if_neg fun heq => hwrite (by rw [← heq])]
        · rfl
    rw [hsame, hbalance, hother ref hread hwrite]
  · rw [hopen]
    exact h.files j
  · rw [hget]
    split
    · exact hused
    · exact h.pipes j

theorem count_cons_of_ne {fd : FdKind} (h : fd ≠ ref) (extra : List FdKind) :
    (ref :: extra).count fd = extra.count fd :=
  List.count_cons_of_ne h.symm

def moreOpen (e : OpenFileDescription) : OpenFileDescription :=
  { e with refcount := e.refcount + 1 }

inductive Cloned (s : System) : FdKind → System → Prop
  | file (i : Fin maxOpenFiles) (used : (s.vfs.openFiles i).occupied = true) :
      Cloned s (.file i) { s with
        vfs.openFiles := update s.vfs.openFiles i (moreOpen (s.vfs.openFiles i)) }
  | pipeRead (i : Fin maxPipes) (used : (s.pipes.pipes i).occupied = true) :
      Cloned s (.pipeRead i) { s with
        pipes := s.pipes.set i
          { s.pipes.pipes i with readers := min ((s.pipes.pipes i).readers + 1) u32Max } }
  | pipeWrite (i : Fin maxPipes) (used : (s.pipes.pipes i).occupied = true) :
      Cloned s (.pipeWrite i) { s with
        pipes := s.pipes.set i
          { s.pipes.pipes i with writers := min ((s.pipes.pipes i).writers + 1) u32Max } }

/-- A reference is counted once more, or nothing has changed. -/
theorem cloneFd_cases (s : System) (ref : FdKind) : (∃ e, s.cloneFd ref = (.error e, s)) ∨
    ∃ s', s.cloneFd ref = (.ok (), s') ∧ Cloned s ref s' := by
  cases ref with
  | file id =>
    simp only [cloneFd, State.cloneOpenFile_eq, State.withOpenFile]
    cases hget : s.vfs.openFiles.getMut id with
    | error e => exact .inl ⟨_, rfl⟩
    | ok i =>
      obtain ⟨rfl, hused, -⟩ := State.getMut_ok hget
      by_cases hroom : (s.vfs.openFiles i).refcount + 1 < 2 ^ 32
      · simp only [if_pos hroom]
        exact .inr ⟨_, rfl, .file i hused⟩
      · simp only [if_neg hroom]
        exact .inl ⟨_, rfl⟩
  | pipeRead id =>
    simp only [cloneFd, cloneReader, cloneEnd]
    cases hfind : s.pipes.find id with
    | error e => exact .inl ⟨_, rfl⟩
    | ok i =>
      obtain ⟨rfl, hused⟩ := find_eq_ok hfind
      exact .inr ⟨_, rfl, .pipeRead i hused⟩
  | pipeWrite id =>
    simp only [cloneFd, cloneWriter, cloneEnd]
    cases hfind : s.pipes.find id with
    | error e => exact .inl ⟨_, rfl⟩
    | ok i =>
      obtain ⟨rfl, hused⟩ := find_eq_ok hfind
      exact .inr ⟨_, rfl, .pipeWrite i hused⟩

theorem cloned_of_ok (h : s.cloneFd ref = (.ok (), s')) : Cloned s ref s' := by
  obtain ⟨e, heq⟩ | ⟨s₁, heq, hcloned⟩ := s.cloneFd_cases ref
  · rw [heq] at h
    cases h
  rw [heq] at h
  cases h
  exact hcloned

theorem Cloned.processes (h : Cloned s ref s') : s'.processes = s.processes := by
  cases h <;> rfl

theorem Balanced.clone (h : Balanced extra s) (hextra : extra.length ≤ 64)
    (hclone : s.cloneFd ref = (.ok (), s')) : Balanced (ref :: extra) s' := by
  have hlow : s.count ref + 1 < 2 ^ 32 := by
    have hheld := s.held_le ref
    have hcount : extra.count ref ≤ extra.length := count_le_length
    rw [h.counts ref]
    omega
  cases cloned_of_ok hclone with
  | file i hused =>
    refine h.setOpenFile rfl rfl rfl (iff_of_true hused (Nat.succ_pos _)) ?_ ?_
    · rw [count_cons_self]
      show _ + 1 + _ = _
      omega
    · exact fun fd hfd => count_cons_of_ne hfd extra
  | pipeRead i hused =>
    simp only [count, i.isLt, dif_pos, Fin.eta] at hlow
    refine h.setPipe rfl rfl rfl (iff_of_true hused ?_) ?_ ?_
      fun fd hread _ => count_cons_of_ne hread extra
    · simp only [u32Max]
      omega
    · simp only [count_cons_self, u32Max]
      omega
    · simp
  | pipeWrite i hused =>
    simp only [count, i.isLt, dif_pos, Fin.eta] at hlow
    refine h.setPipe rfl rfl rfl (iff_of_true hused ?_) ?_ ?_
      fun fd _ hwrite => count_cons_of_ne hwrite extra
    · simp only [u32Max]
      omega
    · simp
    · simp only [count_cons_self, u32Max]
      omega

theorem closeOpenFile_openFiles {v : State} (h : v.openFiles.getMut id = .ok i) :
    (v.closeOpenFile id).2.openFiles = v.openFiles.dropId i := by
  simp only [State.closeOpenFile, State.withOpenFile, h]
  split
  · split <;> rfl
  · rfl

/-- What dropping a reference leaves of a description. -/
theorem dropId_entry (e : OpenFileDescription) (hused : e.occupied = true) :
    let e' := if e.refcount - 1 = 0 then empty
      else { e with refcount := e.refcount - 1 }
    (e'.occupied = true ↔ 0 < e'.refcount) ∧ e'.refcount = e.refcount - 1 := by
  intro e'
  by_cases hlast : e.refcount - 1 = 0
  · have he' : e' = empty := if_pos hlast
    rw [he', hlast]
    exact ⟨iff_of_false nofun (lt_irrefl 0), rfl⟩
  · have he' : e' = { e with refcount := e.refcount - 1 } := if_neg hlast
    rw [he']
    exact ⟨iff_of_true hused (Nat.pos_of_ne_zero hlast), rfl⟩

/-- A pipe that has lost its last end is given back. -/
theorem settle_ends (pipe : Pipes.Pipe) (hused : pipe.occupied = true) :
    ((settle pipe).occupied = true ↔
      0 < (settle pipe).readers + (settle pipe).writers) ∧
    (settle pipe).readers = pipe.readers ∧
    (settle pipe).writers = pipe.writers := by
  unfold settle
  split
  · rename_i hnone
    exact ⟨iff_of_false nofun (lt_irrefl 0), hnone.1.symm, hnone.2.symm⟩
  · rename_i hsome
    exact ⟨iff_of_true hused (by omega), rfl, rfl⟩

theorem releaseFd_processes (s : System) (ref : FdKind) :
    (s.releaseFd ref).processes = s.processes := by
  cases ref <;> rfl

theorem Balanced.closeEnd (h : Balanced (ref :: extra) s) (change : Pipes.Pipe → Pipes.Pipe)
    {id : ℕ} (href : ref = .pipeRead id ∨ ref = .pipeWrite id)
    (hclose : ∀ i, s.pipes.find id = .ok i →
      s' = { s with pipes := s.pipes.set i (settle (change (s.pipes.pipes i))) })
    (hocc : ∀ pipe, (change pipe).occupied = pipe.occupied)
    (hchange : ∀ pipe, (change pipe).readers = pipe.readers - [ref].count (.pipeRead id) ∧
      (change pipe).writers = pipe.writers - [ref].count (.pipeWrite id)) : Balanced extra s' := by
  have hcounted : 0 < s.count ref := by
    rw [h.counts ref, count_cons_self]
    omega
  have hid : id < maxPipes := by
    by_contra hid
    rcases href with rfl | rfl <;> simp [count, hid] at hcounted
  obtain ⟨i, rfl⟩ : ∃ i : Fin maxPipes, (i : ℕ) = id := ⟨⟨id, hid⟩, rfl⟩
  have hends : [ref].count (.pipeRead i) ≤ (s.pipes.pipes i).readers ∧
      [ref].count (.pipeWrite i) ≤ (s.pipes.pipes i).writers ∧
      0 < (s.pipes.pipes i).readers + (s.pipes.pipes i).writers := by
    rcases href with rfl | rfl <;> simp [count] at hcounted ⊢ <;> omega
  have hused := (h.pipes i).mpr hends.2.2
  have hfind : s.pipes.find i = .ok i := by
    simp only [find, slot?, dif_pos hid, hused, if_true]
  obtain ⟨hiff, hreaders, hwriters⟩ := settle_ends (change (s.pipes.pipes i)) ((hocc _).trans hused)
  have hcons : ∀ fd, (ref :: extra).count fd = [ref].count fd + extra.count fd := fun _ =>
    (singleton_append ▸ count_append)
  rw [hclose i hfind]
  refine h.setPipe rfl rfl rfl hiff ?_ ?_ fun fd hread hwrite => ?_
  · rw [hreaders, (hchange _).1, hcons]
    omega
  · rw [hwriters, (hchange _).2, hcons]
    omega
  refine (count_cons_of_ne ?_ extra).symm
  rcases href with rfl | rfl
  · exact hread
  · exact hwrite

theorem Balanced.release (h : Balanced (ref :: extra) s) : Balanced extra (s.releaseFd ref) := by
  cases ref with
  | file id =>
    have hcounted := h.counts (.file id)
    rw [count_cons_self] at hcounted
    simp only [count] at hcounted
    split at hcounted
    · rename_i hid
      have hpos : 0 < (s.vfs.openFiles ⟨id, hid⟩).refcount := by omega
      have hused := (h.files ⟨id, hid⟩).mpr hpos
      have hget : s.vfs.openFiles.getMut id = .ok ⟨id, hid⟩ := by
        rw [OpenFileTable.getMut, dif_pos hid, if_pos ⟨hused, hpos⟩]
      obtain ⟨hiff, hcount⟩ := dropId_entry _ hused
      refine h.setOpenFile (closeOpenFile_openFiles hget) rfl rfl hiff ?_ ?_
      · rw [hcount, count_cons_self]
        omega
      · exact fun fd hfd => (count_cons_of_ne hfd extra).symm
    · omega
  | pipeRead id =>
    refine h.closeEnd (fun pipe => { pipe with
      readers := pipe.readers - 1
      writeWaiters := noWaiters }) (.inl rfl) (fun i hfind => ?_) (fun _ => rfl) fun _ => ?_
    · simp only [releaseFd, closeReader, hfind]
    · simp
  | pipeWrite id =>
    refine h.closeEnd (fun pipe => { pipe with
      writers := pipe.writers - 1
      readWaiters := noWaiters }) (.inr rfl) (fun i hfind => ?_) (fun _ => rfl) fun _ => ?_
    · simp only [releaseFd, closeWriter, hfind]
    · simp

/-! ## Making new ones -/

variable {path : Str}

theorem Balanced.openPath (h : Balanced extra s) (hopen : s.vfs.openPath path = (.ok id, vfs)) :
    Balanced (.file id :: extra) { s with vfs } := by
  obtain ⟨e, heq⟩ | ⟨i, n, -, -, hfree, heq⟩ := s.vfs.openPath_cases path
  · rw [heq] at hopen
    cases hopen
  rw [heq] at hopen
  cases hopen
  have hzero : (s.vfs.openFiles i).refcount = 0 := by
    have hiff := h.files i
    rw [hfree] at hiff
    exact Nat.eq_zero_of_not_pos fun hpos => nomatch hiff.mpr hpos
  refine h.setOpenFile rfl rfl rfl (iff_of_true rfl Nat.one_pos) ?_ ?_
  · rw [hzero, count_cons_self]
    show 1 + _ = _
    omega
  · exact fun fd hfd => count_cons_of_ne hfd extra

theorem Balanced.setVfs (h : Balanced extra s)
    (hsame : SameOpenFiles s.vfs.openFiles vfs.openFiles) : Balanced extra { s with vfs } := by
  refine ⟨fun ref => ?_, fun i => ?_, h.pipes⟩
  · have hcount : count { s with vfs } ref = s.count ref := by
      cases ref <;> simp only [count, (hsame _).2]
    rw [hcount]
    exact h.counts ref
  · rw [(hsame i).1, (hsame i).2]
    exact h.files i

theorem Balanced.setPipes (h : Balanced extra s)
    (hsame : SamePipes s.pipes pipes) : Balanced extra { s with pipes } := by
  refine ⟨fun ref => ?_, h.files, fun i => ?_⟩
  · have hcount : count { s with pipes } ref = s.count ref := by
      cases ref <;> simp only [count, (hsame _).2.1, (hsame _).2.2]
    rw [hcount]
    exact h.counts ref
  · rw [(hsame i).1, (hsame i).2.1, (hsame i).2.2]
    exact h.pipes i

theorem alloc_ok {t t' : Pipes.Table} {id : ℕ} (h : t.alloc = (.ok id, t')) :
    ∃ i : Fin maxPipes, id = i ∧ (t.pipes i).occupied = false ∧
      t' = t.set i Pipes.Pipe.fresh := by
  unfold alloc at h
  split at h
  · rename_i i hfind
    cases h
    have hfree := find?_some hfind
    exact ⟨i, rfl, by simpa using hfree, rfl⟩
  · cases h

theorem Balanced.create (h : Balanced extra s) {id : ℕ} (halloc : s.pipes.alloc = (.ok id, pipes)) :
    Balanced (.pipeRead id :: .pipeWrite id :: extra) { s with pipes } := by
  obtain ⟨i, rfl, hfree, hpipes⟩ := alloc_ok halloc
  have hzero : (s.pipes.pipes i).readers + (s.pipes.pipes i).writers = 0 := by
    have hiff := h.pipes i
    rw [hfree] at hiff
    exact Nat.eq_zero_of_not_pos fun hpos => nomatch hiff.mpr hpos
  have hne : FdKind.pipeWrite i ≠ .pipeRead i := nofun
  refine h.setPipe rfl hpipes rfl (iff_of_true rfl Nat.two_pos) ?_ ?_ ?_
  · rw [count_cons_self, count_cons_of_ne hne.symm]
    show 1 + _ = _
    omega
  · rw [count_cons_of_ne hne, count_cons_self]
    show 1 + _ = _
    omega
  · exact fun fd hread hwrite =>
      (count_cons_of_ne hread _).trans (count_cons_of_ne hwrite extra)

/-! ## Lists of references -/

/-- The files behind some mappings. -/
def backing (mappings : List Mapping) : List FdKind :=
  mappings.filterMap fun m => m.lazy.map .file

theorem refs_eq_count (p : Process) (ref : FdKind) :
    p.refs ref = (fileList p ++ backing (mappingList p)).count ref := by
  rw [count_append, fileList, backing, mappingList, filterMap_filterMap,
    count_filterMap_finRange, count_filterMap_finRange]
  rfl

theorem length_fileList_le (p : Process) : (fileList p).length ≤ 16 :=
  (length_filterMap_le _ _).trans (by rw [length_finRange]; decide)

theorem length_backing_le (p : Process) : (backing (mappingList p)).length ≤ 16 :=
  (length_filterMap_le _ _).trans
    ((length_filterMap_le _ _).trans (by rw [length_finRange]; decide))

theorem Balanced.cloneAll (h : Balanced extra s)
    (hlen : fds.length + extra.length ≤ 65) (hclone : s.cloneAll fds = some s') :
    Balanced (fds ++ extra) s' ∧ s'.processes = s.processes := by
  induction fds generalizing s extra with
  | nil =>
    cases hclone
    exact ⟨h, rfl⟩
  | cons fd fds ih =>
    rw [System.cloneAll, foldlM_cons] at hclone
    rw [length_cons] at hlen
    cases hfd : s.cloneFd fd with
    | mk result s₁ =>
      cases result with
      | error e =>
        rw [hfd] at hclone
        cases hclone
      | ok _ =>
        rw [hfd] at hclone
        have hone := h.clone (by omega) hfd
        obtain ⟨hall, hprocs⟩ := ih hone (by rw [length_cons]; omega) hclone
        exact ⟨hall.perm perm_middle, hprocs.trans (cloned_of_ok hfd).processes⟩

theorem Balanced.releaseAll (h : Balanced (fds ++ extra) s) :
    Balanced extra (fds.foldl releaseFd s) := by
  induction fds generalizing s with
  | nil => exact h
  | cons fd fds ih => exact ih h.release

theorem Balanced.unmapAll {mappings : List Mapping} (h : Balanced (backing mappings ++ extra) s)
    (hunmap : s.unmapAll mappings = some s') : Balanced extra s' := by
  induction mappings generalizing s with
  | nil =>
    cases hunmap
    exact h
  | cons m mappings ih =>
    rw [System.unmapAll, foldlM_cons, unmapAnonymous] at hunmap
    cases hlazy : m.lazy with
    | none =>
      rw [hlazy] at hunmap
      have hbacking : backing (m :: mappings) = backing mappings := by simp [backing, hlazy]
      rw [hbacking] at h
      exact ih h hunmap
    | some file =>
      rw [hlazy] at hunmap
      have hbacking : backing (m :: mappings) = .file file :: backing mappings := by
        simp [backing, hlazy]
      rw [hbacking] at h
      have hreleased := h.release
      rw [releaseFd] at hreleased
      cases hclose : s.vfs.closeOpenFile file with
      | mk result vfs =>
        rw [hclose] at hreleased
        simp only [hclose] at hunmap
        cases result with
        | error e => cases hunmap
        | ok _ => exact ih hreleased hunmap

end System

end WovenHat.Descriptors
