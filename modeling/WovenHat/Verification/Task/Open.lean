import WovenHat.Model.Task.Descriptors
import WovenHat.Verification.Vfs.Invariant

/-! # Opening an existing file

`open_current` falls back to writing an empty file whenever `vfs::open` fails, not only
when the file is missing. The file survives unless the open-file table is exhausted
and the task may write it. -/

namespace WovenHat.Vfs

open Library Registry State List

/-- A state that some sequence of VFS calls reaches from boot. -/
def State.Reachable (v : State) : Prop :=
  ∃ page calls, v = (boot page).performAll calls

variable {v : State} {t : OpenFileTable}

theorem State.Reachable.consistent (h : v.Reachable) : Consistent v.registry := by
  obtain ⟨page, calls, rfl⟩ := h
  have hboot : Consistent (boot page).registry := consistent_boot
  exact performAll_consistent hboot calls

/-- The bytes of a file as a read of the whole file returns them, given what the disk
holds under each backing path. -/
def State.fileBytes (disk : Str → List UInt8) (v : State) (i : NodeId) : List UInt8 :=
  let node := v.registry.nodes i
  let bytes :=
    match node.backing with
    | none => node.data.slice 0 node.length
    | some backing => (disk backing).take node.length
  v.frames.overlay i (v.registry.generations i) 0 bytes

/-- A node has the same length and the same bytes in both states. -/
structure SameFile (v v' : State) (i : NodeId) : Prop where
  length : (v'.registry.nodes i).length = (v.registry.nodes i).length
  bytes : ∀ disk, v'.fileBytes disk i = v.fileBytes disk i

theorem sameFile_of_eq {v' : State} (hreg : v'.registry = v.registry)
    (hframes : v'.frames = v.frames) (i : NodeId) : SameFile v v' i := by
  refine ⟨by rw [hreg], fun disk => ?_⟩
  simp only [fileBytes, hreg, hframes]

theorem overlay_nil (f : FileFrames) (node : NodeId) (generation : ℕ) :
    f.overlay node generation 0 [] = [] := by
  unfold FileFrames.overlay
  induction f.sharedEntries node generation with
  | nil => rfl
  | cons e es ih =>
    have hentry : f.overlayEntry 0 [] e = [] := by simp [FileFrames.overlayEntry]
    rw [foldl_cons, hentry, ih]

theorem fileBytes_of_length_zero {i : NodeId} (disk : Str → List UInt8)
    (h : (v.registry.nodes i).length = 0) : v.fileBytes disk i = [] := by
  have hbytes : (match (v.registry.nodes i).backing with
      | none => (v.registry.nodes i).data.slice 0 (v.registry.nodes i).length
      | some backing => (disk backing).take (v.registry.nodes i).length) = [] := by
    rw [h]
    cases (v.registry.nodes i).backing with
    | none => exact length_eq_zero_iff.mp (Buffer.length_slice _ _ _)
    | some backing => rfl
  simp only [fileBytes, hbytes, overlay_nil]

def OpenFileTable.Full (t : OpenFileTable) : Prop :=
  ∀ slot, (t slot).occupied = true

instance (t : OpenFileTable) : Decidable t.Full :=
  inferInstanceAs (Decidable (∀ _, _))

theorem alloc_of_not_full (h : ¬ t.Full) (node : NodeId) (generation : ℕ) :
    ∃ id t', t.alloc node generation = .ok (id, t') := by
  unfold OpenFileTable.alloc
  cases hfind : (finRange maxOpenFiles).find? fun i => !(t i).occupied with
  | none =>
    rw [find?_eq_none] at hfind
    exact (h fun slot => by simpa using hfind slot (mem_finRange slot)).elim
  | some slot => exact ⟨_, _, rfl⟩

section

variable {v : State} {path : Str} {i : NodeId}

theorem position_of_matches (h : Consistent v.registry)
    (hvalid : validateAbsolutePath path = .ok ())
    (hi : (v.registry.nodes i).matchesPath path = true) {test : Node → Bool}
    (htest : test (v.registry.nodes i) = true)
    (hsub : ∀ n, test n = true → n.matchesPath path = true) :
    v.registry.position test = some i := by
  cases hfind : v.registry.position test with
  | none =>
    rw [position_none.mp hfind i] at htest
    simp at htest
  | some j =>
    obtain ⟨hoi, hpi⟩ := matchesPath_iff.mp hi
    obtain ⟨hoj, hpj⟩ := matchesPath_iff.mp (hsub _ (position_some hfind))
    have hne : path ≠ [] := by
      rintro rfl
      simp [validateAbsolutePath] at hvalid
    rw [h.path_inj ⟨hoj, hpj ▸ hne⟩ ⟨hoi, hpi ▸ hne⟩ (hpj.trans hpi.symm)]

theorem valid_of_matches (h : Consistent v.registry) (hne : path ≠ [])
    (hi : (v.registry.nodes i).matchesPath path = true) : validateAbsolutePath path = .ok () := by
  obtain ⟨hocc, hpath⟩ := matchesPath_iff.mp hi
  have hvalid := h.canonical i ⟨hocc, hpath ▸ hne⟩
  rwa [hpath] at hvalid

theorem openPath_of_full (path : Str) (hfull : v.openFiles.Full) :
    ∃ e, v.openPath path = (.error e, v) := by
  obtain herror | ⟨slot, -, -, -, hfree, -⟩ := v.openPath_cases path
  · exact herror
  · exact absurd (hfull slot) (by simp [hfree])

theorem openPath_existing (h : Consistent v.registry) (hvalid : validateAbsolutePath path = .ok ())
    (hi : (v.registry.nodes i).matchesPath path = true) (hfile : (v.registry.nodes i).kind = .file)
    : ¬ v.openFiles.Full → ∃ id openFiles, v.openPath path = (.ok id, { v with openFiles }) := by
  have hpos : (v.registry.position fun n => n.matchesPath path && n.kind == .file) = some i :=
    position_of_matches h hvalid hi (by simp [hi, hfile]) fun n hn => (Bool.and_eq_true _ _ ▸ hn).1
  unfold openPath
  simp only [hvalid, hpos]
  intro hfree
  obtain ⟨id, t, halloc⟩ := alloc_of_not_full hfree i (v.registry.generations i)
  exact ⟨id, t, by simp [halloc]⟩

theorem writeFile_empty (h : Consistent v.registry) (hvalid : validateAbsolutePath path = .ok ())
    (hi : (v.registry.nodes i).matchesPath path = true) (hfile : (v.registry.nodes i).kind = .file)
    : ((v.registry.nodes i).writable = false → v.writeFile path [] = (.error .readOnly, v)) ∧
      ((v.registry.nodes i).writable = true → (v.writeFile path []).1 = .ok () ∧
        ((v.writeFile path []).2.registry.nodes i).length = 0 ∧
        (v.writeFile path []).2.openFiles = v.openFiles) := by
  have hpos : (v.registry.position fun n => n.matchesPath path) = some i :=
    position_of_matches h hvalid hi hi fun n hn => hn
  unfold writeFile
  simp only [hvalid, hpos, hfile]
  constructor
  · intro hro
    simp [hro]
  · intro hw
    simp [hw, State.setNode, State.bumpVersion, Registry.setNode]

end

end WovenHat.Vfs

namespace WovenHat.Task.Kernel

open Library Vfs

/-- The current task may read and write files, the path is not on an unmounted `/mnt`,
no open-file description is free, and the file is writable and not empty. -/
structure Truncates (k : Kernel) (path : Str) (i : NodeId) : Prop where
  read : k.currentHas .fileRead = true
  write : k.currentHas .fileWrite = true
  mounted : touchesMnt path = true → k.mntMounted = true
  full : k.vfs.openFiles.Full
  writable : (k.vfs.registry.nodes i).writable = true
  nonempty : (k.vfs.registry.nodes i).length ≠ 0

theorem installDescriptor_vfs (k : Kernel) (file : OpenFileId) :
    (k.installDescriptor file).2.vfs = k.vfs := by
  unfold installDescriptor
  split
  · rfl
  split
  · rfl
  split <;> rfl

theorem markMntDirty_vfs (k : Kernel) : k.markMntDirty.vfs = k.vfs := by
  unfold markMntDirty
  split <;> rfl

section

variable {k : Kernel} {path : Str} {i : NodeId}

theorem prepareOpen_existing (disk : DiskImport) (h : Consistent k.vfs.registry)
    (hvalid : validateAbsolutePath path = .ok ())
    (hi : (k.vfs.registry.nodes i).matchesPath path = true)
    (hfile : (k.vfs.registry.nodes i).kind = .file) : k.prepareOpen disk path =
      (if touchesMnt path = true ∧ k.mntMounted = false then .error .notFound else .ok (), k) := by
  have hpos : (k.vfs.registry.position fun n => n.matchesPath path) = some i :=
    position_of_matches h hvalid hi hi fun n hn => hn
  have hstat : statKind k.vfs path = .ok .file := by
    simp [statKind, hvalid, hpos, hfile, bind, Except.bind, pure, Except.pure]
  unfold prepareOpen
  cases hmnt : touchesMnt path with
  | false => simp
  | true =>
    cases hmounted : k.mntMounted with
    | false => simp
    | true => simp [ensurePath, hmnt, hmounted, hstat]

/-- With a free description the open succeeds and changes no node. -/
theorem openOrCreate_free (h : Consistent k.vfs.registry)
    (hvalid : validateAbsolutePath path = .ok ())
    (hi : (k.vfs.registry.nodes i).matchesPath path = true)
    (hfile : (k.vfs.registry.nodes i).kind = .file) (hfree : ¬ k.vfs.openFiles.Full) :
    ∃ id openFiles, k.openOrCreate path = (.ok id, { k with vfs := { k.vfs with openFiles } }) := by
  obtain ⟨id, openFiles, hopen⟩ := openPath_existing h hvalid hi hfile hfree
  exact ⟨id, openFiles, by simp [openOrCreate, hopen]⟩

/-- Without one, a task that may write the file truncates it before the call fails. -/
theorem openOrCreate_full (h : Consistent k.vfs.registry)
    (hvalid : validateAbsolutePath path = .ok ())
    (hi : (k.vfs.registry.nodes i).matchesPath path = true)
    (hfile : (k.vfs.registry.nodes i).kind = .file) (hfull : k.vfs.openFiles.Full) :
    (k.openOrCreate path).1 = .error .notFound ∧
      (if k.currentHas .fileWrite = true ∧ (k.vfs.registry.nodes i).writable = true then
        ((k.openOrCreate path).2.vfs.registry.nodes i).length = 0
      else (k.openOrCreate path).2 = k) := by
  obtain ⟨e, hopen⟩ := openPath_of_full path hfull
  obtain ⟨hro, hrw⟩ := writeFile_empty h hvalid hi hfile
  cases hcap : k.currentHas .fileWrite with
  | false => simp [openOrCreate, hopen, hcap]
  | true =>
    cases hwritable : (k.vfs.registry.nodes i).writable with
    | false => simp [openOrCreate, hopen, hcap, hro hwritable]
    | true =>
      obtain ⟨hok, hlen, htable⟩ := hrw hwritable
      cases hwrite : k.vfs.writeFile path [] with
      | mk result vfs =>
        simp only [hwrite] at hok hlen htable
        obtain ⟨e', hagain⟩ : ∃ e', vfs.openPath path = (.error e', vfs) :=
          openPath_of_full path (htable ▸ hfull)
        have hdirty : (if isMntChild path = true then markMntDirty { k with vfs }
            else { k with vfs }).vfs = vfs := by
          split
          · rw [markMntDirty_vfs]
          · rfl
        simp only [openOrCreate, hopen, hcap, hwrite, hok, hdirty, hagain]
        simpa using hlen

omit k i in
theorem normalizeAbsolute_ne_nil {out : Str} (h : normalizeAbsolute path = .ok out) : out ≠ [] := by
  simp only [normalizeAbsolute, Result.throw_bind, Result.bind_eq_ok, Result.check_eq_ok] at h
  obtain ⟨-, stack, -, h⟩ := h
  split at h
  · rw [Result.pure_eq_ok] at h
    simp [← h, rootPath]
  · simp only [Result.check_eq_ok, Result.pure_eq_ok] at h
    simp [← h.2]

variable {resolved : Str}

theorem resolved_ne_nil (h : k.resolvePathForCurrent path = .ok resolved) : resolved ≠ [] := by
  unfold resolvePathForCurrent resolvePathWithCwd at h
  split at h
  · simp at h
  split at h
  · exact normalizeAbsolute_ne_nil h
  split at h
  · exact normalizeAbsolute_ne_nil h
  · exact normalizeAbsolute_ne_nil h

/-- What `open_current` leaves of the VFS when the path resolves to an existing file. -/
theorem openCurrent_vfs (disk : DiskImport) (hread : k.currentHas .fileRead = true)
    (hresolve : k.resolvePathForCurrent path = .ok resolved) (h : Consistent k.vfs.registry)
    (hvalid : validateAbsolutePath resolved = .ok ())
    (hi : (k.vfs.registry.nodes i).matchesPath resolved = true)
    (hfile : (k.vfs.registry.nodes i).kind = .file) : (k.openCurrent disk path).2.vfs =
      if touchesMnt resolved = true ∧ k.mntMounted = false then k.vfs
      else (k.openOrCreate resolved).2.vfs := by
  simp only [openCurrent, openChecks, hread, Bool.not_true, Bool.false_eq_true, if_false, hresolve,
    prepareOpen_existing disk h hvalid hi hfile]
  by_cases hmnt : touchesMnt resolved = true ∧ k.mntMounted = false
  · simp [hmnt]
  simp only [hmnt, if_false]
  cases hopen : k.openOrCreate resolved with
  | mk result k' =>
    cases result with
    | error e => rfl
    | ok file => exact installDescriptor_vfs k' file

/-- Opening an existing file keeps its length and bytes exactly when it is not
truncated for want of a free description. -/
theorem openCurrent_preserves_iff (disk : DiskImport) (k : Kernel) (hreach : k.vfs.Reachable)
    (path resolved : Str) (hresolve : k.resolvePathForCurrent path = .ok resolved) (i : NodeId)
    (hi : (k.vfs.registry.nodes i).matchesPath resolved = true)
    (hfile : (k.vfs.registry.nodes i).kind = .file) :
    SameFile k.vfs (k.openCurrent disk path).2.vfs i ↔ ¬ Truncates k resolved i := by
  have h := hreach.consistent
  have hvalid := valid_of_matches h (resolved_ne_nil hresolve) hi
  have hsame : SameFile k.vfs k.vfs i := sameFile_of_eq rfl rfl i
  by_cases hread : k.currentHas .fileRead = true
  · rw [openCurrent_vfs disk hread hresolve h hvalid hi hfile]
    by_cases hmnt : touchesMnt resolved = true ∧ k.mntMounted = false
    · rw [if_pos hmnt]
      refine ⟨fun _ ht => ?_, fun _ => hsame⟩
      have hmounted := ht.mounted hmnt.1
      simp [hmnt.2] at hmounted
    rw [if_neg hmnt]
    by_cases hfull : k.vfs.openFiles.Full
    · obtain ⟨-, hleft⟩ := openOrCreate_full h hvalid hi hfile hfull
      split at hleft
      · rename_i hwrite
        -- the file is now empty: it is the same file only if it was empty before
        constructor
        · intro hkept ht
          exact ht.nonempty (hkept.length.symm.trans hleft)
        intro hnot
        have hzero : (k.vfs.registry.nodes i).length = 0 := by
          by_contra hnonempty
          refine hnot ⟨hread, hwrite.1, ?_, hfull, hwrite.2, hnonempty⟩
          intro htouch
          by_contra hmounted
          exact hmnt ⟨htouch, by simpa using hmounted⟩
        exact ⟨hleft.trans hzero.symm, fun disk => by
          rw [fileBytes_of_length_zero disk hleft, fileBytes_of_length_zero disk hzero]⟩
      · rename_i hwrite
        rw [hleft]
        exact ⟨fun _ ht => hwrite ⟨ht.write, ht.writable⟩, fun _ => hsame⟩
    · obtain ⟨id, openFiles, hopen⟩ := openOrCreate_free h hvalid hi hfile hfull
      have hkept : SameFile k.vfs { k.vfs with openFiles } i := by
        apply sameFile_of_eq <;> rfl
      rw [hopen]
      exact ⟨fun _ ht => hfull ht.full, fun _ => hkept⟩
  · have hcall : (k.openCurrent disk path).2 = k := by simp [openCurrent, openChecks, hread]
    rw [hcall]
    exact ⟨fun _ ht => hread ht.read, fun _ => hsame⟩

end

/-! ## The descriptor tables -/

section Tables

variable {k : Kernel} {s : Descriptors.System} {slot : System.ProcessSlot}

/-- The descriptor tables have the files of this kernel and of its running process. -/
structure Shown (k : Kernel) (s : Descriptors.System) (slot : System.ProcessSlot) : Prop where
  vfs : s.vfs = k.vfs
  files : (s.processes slot).map (·.files) = k.currentProcess.map (·.files)

theorem find?_currentProcess (test : Process → Bool) (l : List (Option Process)) :
    (l.findIdx? (·.any test) = none ∧ (l.filterMap id).find? test = none) ∨
      ∃ i p, l.findIdx? (·.any test) = some i ∧ l.getD i none = some p ∧
        (l.filterMap id).find? test = some p ∧ test p ∧ ∀ q, test q →
          ((l.set i (some q)).filterMap id).find? test = some q := by
  induction l with
  | nil => exact .inl ⟨rfl, rfl⟩
  | cons o l ih =>
    cases hfirst : o.any test with
    | true =>
      obtain ⟨p, rfl, hp⟩ := (Option.any_eq_true ..).mp hfirst
      exact .inr ⟨0, p, by simp [List.findIdx?_cons, hp], rfl, by simp [hp], hp,
        fun q hq => by simp [hq]⟩
    | false =>
      have hskip (l : List (Option Process)) :
          ((o :: l).filterMap id).find? test = (l.filterMap id).find? test := by
        cases o with
        | none => rfl
        | some p => exact List.find?_cons_of_neg (by simpa using hfirst)
      rw [List.findIdx?_cons, hfirst, hskip]
      refine ih.imp (And.imp_left fun h => by simp [h]) ?_
      rintro ⟨i, p, hi, hp, hrest⟩
      exact ⟨i + 1, p, by simp [hi], hp, hrest.1, hrest.2.1, fun q hq =>
        (hskip _).trans (hrest.2.2 q hq)⟩

theorem Shown.openOrCreate (h : k.Shown s slot) (path : Str) :
    (s.openOrCreate (k.currentHas .fileWrite) path).1 = (k.openOrCreate path).1 ∧
      (k.openOrCreate path).2.Shown (s.openOrCreate (k.currentHas .fileWrite) path).2 slot := by
  obtain ⟨hvfs, hfiles⟩ := h
  have hdirty (vfs : State) : ∃ mntDirty, (if isMntChild path then markMntDirty { k with vfs }
      else { k with vfs }) = { k with vfs, mntDirty } := by
    unfold markMntDirty
    split
    · split <;> exact ⟨_, rfl⟩
    · exact ⟨_, rfl⟩
  simp only [Descriptors.System.openOrCreate, Kernel.openOrCreate, hvfs]
  rcases k.vfs.openPath path with ⟨e | file, v⟩
  · cases k.currentHas .fileWrite with
    | false => exact ⟨rfl, hvfs, hfiles⟩
    | true =>
      rcases k.vfs.writeFile path [] with ⟨e | _, v⟩
      · exact ⟨rfl, rfl, hfiles⟩
      obtain ⟨mntDirty, hmarked⟩ := hdirty v
      simp only [Bool.not_true, Bool.false_eq_true, if_false, hmarked]
      rcases v.openPath path with ⟨e | file, v⟩ <;> exact ⟨rfl, rfl, hfiles⟩
  · exact ⟨rfl, rfl, hfiles⟩

theorem Shown.installDescriptor (h : k.Shown s slot) (file : OpenFileId) :
    (s.installDescriptor slot file).1 = (k.installDescriptor file).1 ∧
      (k.installDescriptor file).2.Shown (s.installDescriptor slot file).2 slot := by
  obtain ⟨hvfs, hfiles⟩ := h
  unfold Descriptors.System.installDescriptor Kernel.installDescriptor
  obtain ⟨hnone, hfind⟩ | ⟨i, p, hi, hp, hfind, htask, hset⟩ :=
    find?_currentProcess (fun p => p.taskId == k.currentTask) k.processes
  · rw [currentProcess, hfind, Option.map_none, Option.map_eq_none_iff] at hfiles
    rw [hnone, hfiles]
    exact ⟨rfl, hvfs, by simp [currentProcess, hfind, hfiles]⟩
  · rw [currentProcess, hfind] at hfiles
    obtain ⟨q, hq, hsame⟩ := Option.map_eq_some_iff.mp hfiles
    have hfree : Descriptors.System.freeDescriptor q = freeDescriptor p := by
      rw [Descriptors.System.freeDescriptor, freeDescriptor, hsame]
    simp only [hi, hp, hq, hfree]
    cases freeDescriptor p with
    | none => exact ⟨rfl, hvfs, by simp [currentProcess, hfind, hq, hsame]⟩
    | some d =>
      refine ⟨rfl, hvfs, ?_⟩
      have hafter := hset { p with files := Function.update p.files d (some (.file file)) } htask
      simp [currentProcess, hafter, Descriptors.System.setFile, Descriptors.System.setProcess, hsame]

/-- `Descriptors.System.openCurrent` does on the descriptor tables what `open_current` does from
`vfs::open` on. -/
theorem openCurrent_refines (disk : DiskImport) (k : Kernel) (path : Str)
    (h : (k.openChecks disk path).2.Shown s slot) :
    let checks := k.openChecks disk path
    let r := s.openCurrent slot (checks.1.map fun _ => ()) (checks.2.currentHas .fileWrite)
      (checks.1.toOption.getD [])
    r.1 = (k.openCurrent disk path).1 ∧ (k.openCurrent disk path).2.Shown r.2 slot := by
  unfold openCurrent
  generalize k.openChecks disk path = checks at h
  obtain ⟨e | resolved, k⟩ := checks
  · exact ⟨rfl, h⟩
  have hopen : _ ∧ _ := h.openOrCreate resolved
  simp only [Descriptors.System.openCurrent, Except.map, Except.toOption, Option.getD_some]
  generalize s.openOrCreate (k.currentHas .fileWrite) resolved = opened at hopen ⊢
  generalize k.openOrCreate resolved = opened' at hopen ⊢
  obtain ⟨_, s⟩ := opened
  obtain ⟨e | file, k⟩ := opened'
  · obtain ⟨rfl, hshown⟩ := hopen
    exact ⟨rfl, hshown⟩
  · obtain ⟨rfl, hshown⟩ := hopen
    exact hshown.installDescriptor file

end Tables

/-- A task with every capability and one process entry, working in `/`. -/
def shellKernel (vfs : State) : Kernel :=
  ⟨vfs, [some ⟨0, fun _ => none, rootPath⟩], .unmounted, false, 0, fun _ => true⟩

/-- A file of one byte keeps it when it is opened. -/
theorem openCurrent_preserves_written :
    let calls : List (DiskReader × State.Op) :=
      [(fun _ _ _ => (.error (), []), .writeFile sparePath [1])]
    let v := (State.boot fun _ => Buffer.zero).performAll calls
    (v.registry.nodes ⟨7, by decide⟩).length = 1 ∧ SameFile v
      ((shellKernel v).openCurrent (fun _ v => (.ok (), v)) sparePath).2.vfs ⟨7, by decide⟩ := by
  intro calls v
  have hreachable : v.Reachable := ⟨_, calls, rfl⟩
  refine ⟨by decide +kernel, (openCurrent_preserves_iff (fun _ v => (.ok (), v)) (shellKernel v)
    hreachable sparePath sparePath (by decide +kernel) ⟨7, by decide⟩ (by decide +kernel)
    (by decide +kernel)).mpr fun ht => ?_⟩
  exact absurd (ht.full ⟨0, by decide⟩) (by decide +kernel)

/-- One byte is written to a file, and 64 opens exhaust the open-file table. -/
def exhaustingCalls : List (DiskReader × State.Op) :=
  (fun _ _ _ => (.error (), []), .writeFile sparePath [1]) ::
    List.replicate 64 (fun _ _ _ => (.error (), []), .openPath sparePath)

/-- The next open of the file fails, and the file is empty. -/
theorem openCurrent_truncates :
    let v := (State.boot fun _ => Buffer.zero).performAll exhaustingCalls
    let k := shellKernel v
    v.Reachable ∧ k.resolvePathForCurrent sparePath = .ok sparePath ∧
      (v.registry.nodes ⟨7, by decide⟩).matchesPath sparePath = true ∧
      (v.registry.nodes ⟨7, by decide⟩).kind = .file ∧
      ¬ SameFile v (k.openCurrent (fun _ v => (.ok (), v)) sparePath).2.vfs ⟨7, by decide⟩ := by
  refine ⟨⟨_, exhaustingCalls, rfl⟩, by decide +kernel, by decide +kernel, by decide +kernel, ?_⟩
  intro hsame
  exact absurd hsame.length (by decide +kernel)

end WovenHat.Task.Kernel
