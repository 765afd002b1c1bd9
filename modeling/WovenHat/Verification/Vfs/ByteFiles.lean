import WovenHat.Verification.Vfs.OpenFiles

/-! # Descriptors of byte files

Through its descriptors, a writable file without disk backing is an array of bytes; every open
description has an offset, which its clones share. -/

namespace WovenHat.Vfs.ByteFiles

open Library List Buffer

/-! ## Byte files -/

structure Description where
  file : NodeId
  offset : ℕ
  refs : ℕ

/-- Files as arrays of bytes, and the open descriptions. An unlinked file has no name any
more. -/
structure Files where
  names : Str → Except Error NodeId
  unlinked : NodeId → Bool
  bytes : NodeId → List UInt8
  opened : OpenFileId → Option Description

/-- A call through a path or a descriptor. -/
inductive Call where
  | openPath (path : Str)
  | clone (id : OpenFileId)
  | close (id : OpenFileId)
  | read (id : OpenFileId) (buffer : List UInt8)
  | readAt (id : OpenFileId) (position : ℕ) (buffer : List UInt8)
  | write (id : OpenFileId) (buffer : List UInt8)
  | seek (id : OpenFileId) (offset : ℕ)

inductive Reply where
  | opened (result : Except Error OpenFileId)
  | closed (result : Except Error Unit)
  | bytes (result : Except Error (List UInt8))
  | count (result : Except Error ℕ)

namespace Files

variable (a : Files)

def set (id : OpenFileId) (d : Option Description) : Files :=
  { a with opened := Function.update a.opened id d }

/-- The first id that is not in use, if fewer than `maxOpenFiles` are. -/
def openPath (path : Str) : Except Error OpenFileId × Files :=
  match a.names path with
  | .error e => (.error e, a)
  | .ok file =>
    match (range maxOpenFiles).find? fun id => (a.opened id).isNone with
    | none => (.error .full, a)
    | some id => (.ok id, a.set id (some ⟨file, 0, 1⟩))

/-- Apply a function to an open description. -/
def through {α : Type} (id : OpenFileId) (f : Description → Except Error α × Files) :
    Except Error α × Files :=
  match a.opened id with
  | none => (.error .invalidDescriptor, a)
  | some d => f d

def clone (id : OpenFileId) : Except Error OpenFileId × Files :=
  a.through id fun d =>
    if d.refs + 1 < 2 ^ 32 then (.ok id, a.set id (some { d with refs := d.refs + 1 }))
    else (.error .full, a)

/-- An unlinked file is gone when no description of it is open. -/
def forget (file : NodeId) : Files :=
  if a.unlinked file && (range maxOpenFiles).all fun id => (a.opened id).all (·.file != file) then
    { a with bytes := Function.update a.bytes file [] }
  else a

def close (id : OpenFileId) : Except Error Unit × Files :=
  a.through id fun d =>
    (.ok (), (a.set id
      (if d.refs - 1 = 0 then none else some { d with refs := d.refs - 1 })).forget d.file)

/-- The bytes from the offset on, which moves behind them. -/
def read (id : OpenFileId) (count : ℕ) : Except Error (List UInt8) × Files :=
  a.through id fun d =>
    let out := ((a.bytes d.file).drop d.offset).take count
    (.ok out, a.set id (some { d with offset := d.offset + out.length }))

/-- A position behind the end is an error. -/
def readAt (id : OpenFileId) (position count : ℕ) : Except Error (List UInt8) × Files :=
  a.through id fun d =>
    if (a.bytes d.file).length < position then (.error .invalidDescriptor, a)
    else (.ok (((a.bytes d.file).drop position).take count), a)

/-- Overwrite the bytes from the offset on, and extend the array if they reach behind its end. -/
def write (id : OpenFileId) (buffer : List UInt8) : Except Error ℕ × Files :=
  a.through id fun d =>
    let old := a.bytes d.file
    let new := old.take d.offset ++ buffer ++ old.drop (d.offset + buffer.length)
    (.ok buffer.length,
      { a.set id (some { d with offset := d.offset + buffer.length }) with
        bytes := Function.update a.bytes d.file new })

/-- Seek, but not behind the end. -/
def seek (id : OpenFileId) (offset : ℕ) : Except Error ℕ × Files :=
  a.through id fun d =>
    let position := min offset (a.bytes d.file).length
    (.ok position, a.set id (some { d with offset := position }))

def step : Call → Reply × Files
  | .openPath path => ((a.openPath path).map .opened id)
  | .clone i => ((a.clone i).map .opened id)
  | .close i => ((a.close i).map .closed id)
  | .read i buffer => ((a.read i buffer.length).map .bytes id)
  | .readAt i position buffer => ((a.readAt i position buffer.length).map .bytes id)
  | .write i buffer => ((a.write i buffer).map .count id)
  | .seek i offset => ((a.seek i offset).map .count id)

def results : Files → List Call → List Reply
  | _, [] => []
  | a, call :: calls => (a.step call).1 :: (a.step call).2.results calls

/-- The descriptor is closed, or one of the given files. -/
def Of (F : NodeId → Prop) (id : OpenFileId) : Prop :=
  ∀ d ∈ a.opened id, F d.file

/-- The call is not about a descriptor of another file and writes within the capacity of a
node. -/
def Within (F : NodeId → Prop) : Call → Prop
  | .openPath _ => True
  | .write id buffer => a.Of F id ∧ ∀ d ∈ a.opened id, d.offset + buffer.length ≤ nodeCapacity
  | .clone id | .close id | .read id _ | .readAt id _ _ | .seek id _ => a.Of F id

/-- Every call of a sequence is such a call when it is made. -/
def AllWithin (F : NodeId → Prop) : Files → List Call → Prop
  | _, [] => True
  | a, call :: calls => a.Within F call ∧ (a.step call).2.AllWithin F calls

variable (F : NodeId → Prop) [DecidablePred F]

instance (id : OpenFileId) : Decidable (a.Of F id) :=
  inferInstanceAs (Decidable (∀ d ∈ a.opened id, F d.file))

instance : (call : Call) → Decidable (a.Within F call)
  | .openPath _ => isTrue trivial
  | .write _ _ => inferInstanceAs (Decidable (_ ∧ _))
  | .clone id | .close id | .read id _ | .readAt id _ _ | .seek id _ =>
    inferInstanceAs (Decidable (a.Of F id))

instance decidableAllWithin : (a : Files) → (calls : List Call) → Decidable (a.AllWithin F calls)
  | _, [] => isTrue trivial
  | a, call :: calls =>
    have := decidableAllWithin (a.step call).2 calls
    inferInstanceAs (Decidable (a.Within F call ∧ (a.step call).2.AllWithin F calls))

end Files

end WovenHat.Vfs.ByteFiles

namespace WovenHat.Vfs.State

open Library ByteFiles Function

/-! ## The abstraction -/

def fileNamed (v : State) (path : Str) : Except Error NodeId :=
  match validateAbsolutePath path with
  | .error e => .error e
  | .ok () =>
    match v.registry.position fun n => n.matchesPath path && n.kind == .file with
    | none => .error .notFound
    | some n => .ok n

def description (entry : OpenFileDescription) : Option Description :=
  if entry.occupied then some ⟨entry.node, entry.offset, entry.refcount⟩ else none

/-- The byte files that a state implements. -/
def files (v : State) : Files where
  names := v.fileNamed
  unlinked n := (v.registry.nodes n).path = []
  bytes n := (v.registry.nodes n).data.slice 0 (v.registry.nodes n).length
  opened id := if h : id < maxOpenFiles then description (v.openFiles ⟨id, h⟩) else none

def call (disk : DiskReader) (v : State) : Call → Reply × State
  | .openPath path => ((v.openPath path).map .opened id)
  | .clone i => ((v.cloneOpenFile i).map .opened id)
  | .close i => ((v.closeOpenFile i).map .closed id)
  | .read i buffer => ((v.readFrom disk i none buffer none).map .bytes id)
  | .readAt i position buffer => ((v.readFrom disk i (some position) buffer none).map .bytes id)
  | .write i buffer => ((v.write disk i buffer).map .count id)
  | .seek i offset => ((v.seek i offset).map .count id)

def results : State → List (DiskReader × Call) → List Reply
  | _, [] => []
  | v, (disk, c) :: calls => (v.call disk c).1 :: (v.call disk c).2.results calls

/-- The file has a name or an open description. -/
def Reached (v : State) (n : NodeId) : Prop :=
  (v.registry.nodes n).path ≠ [] ∨ ∃ i, (v.openFiles i).occupied = true ∧ (v.openFiles i).node = n

/-- A writable file in memory. An unlinked one can still be freed. -/
structure MemoryFile (v : State) (n : NodeId) : Prop where
  occupied : (v.registry.nodes n).occupied = true
  writable : (v.registry.nodes n).writable = true
  backing : (v.registry.nodes n).backing = none
  length_le : (v.registry.nodes n).length ≤ nodeCapacity
  generation : (v.registry.nodes n).path = [] → v.registry.generations n + 1 < 2 ^ 64

/-- The files of `F` are writable and in memory, as long as they have a name or are open, and
no shared mapping has pages of them. Nothing is said of other files. -/
structure InMemory (F : NodeId → Prop) (v : State) : Prop where
  file : ∀ n, F n → v.Reached n → v.MemoryFile n
  unshared : ∀ i e, v.frames.cache i = some e → e.key.shared = true → ¬F e.key.node
  opened : ∀ i, (v.openFiles i).occupied = true → F (v.openFiles i).node →
    (v.openFiles i).offset ≤ (v.registry.nodes (v.openFiles i).node).length ∧
    0 < (v.openFiles i).refcount

/-- A call gives the same result as on byte files, and leaves a state that implements them. -/
def Refines {α : Type} (F : NodeId → Prop) (r : Except Error α × State)
    (r' : Except Error α × Files) : Prop :=
  r.1 = r'.1 ∧ r.2.files = r'.2 ∧ r.2.InMemory F

section Lookup

variable {F : NodeId → Prop} {v : State}

theorem InMemory.refl (h : v.InMemory F) {α : Type} (result : Except Error α) :
    Refines F (result, v) (result, v.files) :=
  ⟨rfl, rfl, h⟩

theorem opened_slot (v : State) (slot : Fin maxOpenFiles) :
    v.files.opened slot = description (v.openFiles slot) :=
  dif_pos slot.isLt

theorem length_bytes (v : State) (n : NodeId) :
    (v.files.bytes n).length = (v.registry.nodes n).length :=
  Buffer.length_slice _ _ _

/-- What is known of an open description of a file of `F`. -/
structure OpenIn (F : NodeId → Prop) (v : State) (slot : Fin maxOpenFiles) : Prop where
  occupied : (v.openFiles slot).occupied = true
  mem : F (v.openFiles slot).node
  reached : v.Reached (v.openFiles slot).node
  file : v.MemoryFile (v.openFiles slot).node
  inside : (v.openFiles slot).offset ≤ (v.registry.nodes (v.openFiles slot).node).length
  refs : 0 < (v.openFiles slot).refcount

/-- A descriptor of a file of `F` is accepted exactly if it is open. -/
theorem InMemory.through (h : v.InMemory F) {α : Type} {id : OpenFileId} (hid : v.files.Of F id)
    {f : Fin maxOpenFiles → Except Error α × State} {g : Description → Except Error α × Files}
    (hstep : ∀ slot : Fin maxOpenFiles, (slot : ℕ) = id → v.OpenIn F slot →
      Refines F (f slot) (g ⟨(v.openFiles slot).node, (v.openFiles slot).offset,
        (v.openFiles slot).refcount⟩)) :
    Refines F (v.withOpenFile id f) (v.files.through id g) := by
  unfold withOpenFile OpenFileTable.getMut Files.through
  by_cases hlt : id < maxOpenFiles
  · have hopened : v.files.opened id = description (v.openFiles ⟨id, hlt⟩) := dif_pos hlt
    rw [Files.Of, hopened] at hid
    rw [dif_pos hlt, hopened]
    unfold description at hid ⊢
    by_cases hocc : (v.openFiles ⟨id, hlt⟩).occupied = true
    · rw [if_pos hocc] at hid ⊢
      have hF := hid _ rfl
      obtain ⟨hoff, hrefs⟩ := h.opened _ hocc hF
      have hreached : v.Reached (v.openFiles ⟨id, hlt⟩).node := .inr ⟨_, hocc, rfl⟩
      rw [if_pos ⟨hocc, hrefs⟩]
      exact hstep ⟨id, hlt⟩ rfl ⟨hocc, hF, hreached, h.file _ hF hreached, hoff, hrefs⟩
    · rw [if_neg fun hused => hocc hused.1, if_neg hocc]
      exact h.refl _
  · have hopened : v.files.opened id = none := dif_neg hlt
    rw [dif_neg hlt, hopened]
    exact h.refl _

end Lookup

/-! ## The open-file table -/

section Table

variable {F : NodeId → Prop} {v : State}

theorem files_setEntry (v : State) (slot : Fin maxOpenFiles) (entry : OpenFileDescription) :
    ({ v with openFiles := update v.openFiles slot entry } : State).files =
      v.files.set slot (description entry) := by
  simp only [files, Files.set]
  congr 1
  funext id
  by_cases hid : id = slot
  · subst hid
    rw [update_self, dif_pos slot.isLt, update_self]
  rw [update_of_ne hid]
  by_cases hlt : id < maxOpenFiles
  · have hne : (⟨id, hlt⟩ : Fin maxOpenFiles) ≠ slot := fun heq => hid (congrArg Fin.val heq)
    rw [dif_pos hlt, dif_pos hlt, update_of_ne hne]
  · rw [dif_neg hlt, dif_neg hlt]

theorem reached_setEntry {slot : Fin maxOpenFiles} {entry : OpenFileDescription}
    (hentry : entry.occupied = true → v.Reached entry.node) {n : NodeId}
    (hn : ({ v with openFiles := update v.openFiles slot entry } : State).Reached n) :
    v.Reached n := by
  rcases hn with hpath | ⟨i, hi, hnode⟩
  · exact .inl hpath
  dsimp only at hi hnode
  by_cases hslot : i = slot
  · subst hslot
    rw [update_self] at hi hnode
    exact hnode ▸ hentry hi
  · rw [update_of_ne hslot] at hi hnode
    exact .inr ⟨i, hi, hnode⟩

theorem InMemory.setEntry (h : v.InMemory F) {slot : Fin maxOpenFiles} {entry : OpenFileDescription}
    (hentry : entry.occupied = true → v.Reached entry.node ∧
      entry.offset ≤ (v.registry.nodes entry.node).length ∧ 0 < entry.refcount) :
    ({ v with openFiles := update v.openFiles slot entry } : State).InMemory F := by
  refine ⟨fun n hn hr => ?_, h.unshared, fun i hi hF => ?_⟩
  · obtain ⟨hocc, hwrite, hback, hlen, hgen⟩ :=
      h.file n hn (reached_setEntry (fun hocc => (hentry hocc).1) hr)
    exact ⟨hocc, hwrite, hback, hlen, hgen⟩
  dsimp only at hi hF ⊢
  by_cases hslot : i = slot
  · subst hslot
    rw [update_self] at hi ⊢
    exact (hentry hi).2
  · rw [update_of_ne hslot] at hi hF ⊢
    exact h.opened i hi hF

theorem InMemory.openPath (h : v.InMemory F) (path : Str) :
    Refines F (v.openPath path) (v.files.openPath path) := by
  unfold State.openPath Files.openPath
  change Refines F _ (match v.fileNamed path with | .error e => _ | .ok file => _)
  unfold fileNamed
  cases hvalid : validateAbsolutePath path with
  | error e => exact h.refl _
  | ok u =>
    cases hfound : v.registry.position fun n => n.matchesPath path && n.kind == .file with
    | none => exact h.refl _
    | some n =>
      have hnamed : v.Reached n := by
        have hmatch := Registry.position_some hfound
        rw [Bool.and_eq_true, Registry.matchesPath_iff] at hmatch
        refine .inl fun hempty => ?_
        rw [← hmatch.1.2, hempty] at hvalid
        cases hvalid
      -- the first entry that is not occupied has the first id that is not in use
      have hfree : ((List.range maxOpenFiles).find? fun id => (v.files.opened id).isNone) =
          ((List.finRange maxOpenFiles).find? fun i => !(v.openFiles i).occupied).map Fin.val := by
        rw [← List.map_coe_finRange_eq_range, List.find?_map]
        congr 2
        funext i
        simp only [comp_apply, opened_slot, description]
        cases (v.openFiles i).occupied <;> rfl
      rw [hfree]
      unfold OpenFileTable.alloc
      cases (List.finRange maxOpenFiles).find? fun i => !(v.openFiles i).occupied with
      | none => exact h.refl _
      | some slot =>
        refine ⟨rfl, files_setEntry v slot _, h.setEntry fun _ => ?_⟩
        exact ⟨hnamed, Nat.zero_le _, Nat.one_pos⟩

theorem InMemory.clone (h : v.InMemory F) {id : OpenFileId} (hid : v.files.Of F id) :
    Refines F (v.cloneOpenFile id) (v.files.clone id) := by
  rw [cloneOpenFile_eq]
  refine h.through hid fun slot hslot ho => ?_
  split
  · refine ⟨rfl, ?_, h.setEntry fun _ => ⟨ho.reached, ho.inside, Nat.succ_pos _⟩⟩
    rw [files_setEntry, ← hslot, description, if_pos ho.occupied]
  · exact h.refl _

/-- A change of a node that keeps its name. -/
theorem files_setNode (v : State) (n : NodeId) (node : Node)
    (hpath : node.path = (v.registry.nodes n).path) (hkind : node.kind = (v.registry.nodes n).kind)
    (hocc : node.path ≠ [] → node.occupied = (v.registry.nodes n).occupied) :
    (v.setNode n node).files =
      { v.files with bytes := update v.files.bytes n (node.data.slice 0 node.length) } := by
  have hnode : ∀ m, (v.setNode n node).registry.nodes m =
      if m = n then node else v.registry.nodes m := fun m => update_apply _ _ _ _
  simp only [files, Files.mk.injEq, hnode]
  refine ⟨funext fun path => ?_, funext fun m => ?_, funext fun m => ?_, rfl⟩
  · unfold fileNamed
    cases hvalid : validateAbsolutePath path with
    | error e => rfl
    | ok u =>
      have hpos : ((v.setNode n node).registry.position
          fun m => m.matchesPath path && m.kind == .file) =
            v.registry.position fun m => m.matchesPath path && m.kind == .file := by
        unfold Registry.position
        congr 1
        funext m
        rw [hnode]
        split
        · rename_i heq
          subst heq
          by_cases hempty : node.path = []
          · have hne : path ≠ [] := by
              rintro rfl
              cases hvalid
            have hfalse : (([] : Str) == path) = false := by simpa using hne.symm
            simp only [Node.matchesPath, ← hpath, hempty, hfalse, Bool.and_false, Bool.false_and]
          · simp only [Node.matchesPath, hocc hempty, hpath, hkind]
        · rfl
      rw [hpos]
  · split
    · rename_i heq
      rw [hpath, heq]
    · rfl
  · by_cases heq : m = n
    · rw [heq, if_pos rfl, update_self]
    · rw [if_neg heq, update_of_ne heq]

/-- A file without a name or a description is not reached, whatever becomes of it. -/
theorem InMemory.freed (h : v.InMemory F) {n : NodeId} {node : Node} {generations : NodeId → ℕ}
    (hclosed : v.openFiles.refersTo n = false) (hpath : node.path = [])
    (hgen : ∀ m, m ≠ n → generations m = v.registry.generations m) :
    ({ v with registry := { v.registry.setNode n node with generations } } :
      State).InMemory F := by
  have hother : ∀ m, m ≠ n → (v.registry.setNode n node).nodes m = v.registry.nodes m :=
    fun m hm => update_of_ne hm _ _
  have hunused : ∀ i, (v.openFiles i).occupied = true → (v.openFiles i).node ≠ n := by
    intro i hi heq
    rw [Bool.eq_false_iff, ne_eq, refersTo_iff] at hclosed
    exact hclosed ⟨i, hi, heq⟩
  refine ⟨fun m hm hr => ?_, h.unshared, fun i hi hF => ?_⟩
  · have hne : m ≠ n := by
      rintro rfl
      rcases hr with hr | ⟨i, hi, hnode⟩
      · exact hr (by simp [Registry.setNode, hpath])
      · exact hunused i hi hnode
    have hreached : v.Reached m := by
      rcases hr with hr | hopen
      · exact .inl (by simpa only [hother m hne] using hr)
      · exact .inr hopen
    obtain ⟨hocc, hwrite, hback, hlen, hgeneration⟩ := h.file m hm hreached
    rw [← hother m hne] at hocc hwrite hback hlen hgeneration
    refine ⟨hocc, hwrite, hback, hlen, fun hempty => ?_⟩
    change generations m + 1 < 2 ^ 64
    rw [hgen m hne]
    exact hgeneration hempty
  · change (v.openFiles i).offset ≤
      ((v.registry.setNode n node).nodes (v.openFiles i).node).length ∧ _
    rw [hother _ (hunused i hi)]
    exact h.opened i hi hF

theorem refersTo_files (v : State) (n : NodeId) :
    ((List.range maxOpenFiles).all fun id => (v.files.opened id).all (·.file != n)) =
      !v.openFiles.refersTo n := by
  rw [← List.map_coe_finRange_eq_range, List.all_map, OpenFileTable.refersTo,
    List.not_any_eq_all_not]
  congr 1
  funext i
  simp only [comp_apply, opened_slot, description]
  cases (v.openFiles i).occupied <;> simp [bne]

/-- The end of `close_open_file`, when the description has been dropped. -/
theorem InMemory.forget (h : v.InMemory F) {n : NodeId} (hfile : v.MemoryFile n) :
    Refines F
      (if !v.openFiles.refersTo n ∧ (v.registry.nodes n).occupied ∧
          (v.registry.nodes n).path = [] then
        match Registry.checkedIncrement (v.registry.generations n) with
        | none => (.error .full, v)
        | some generation =>
          (.ok (), { v with registry :=
            { v.registry.setNode n
                { v.registry.nodes n with
                  occupied := false, length := 0, backing := none, data := Buffer.zero } with
              generations := Function.update v.registry.generations n generation } })
      else (.ok (), v)) (.ok (), v.files.forget n) := by
  rw [Files.forget, refersTo_files]
  by_cases hlast : v.openFiles.refersTo n = false ∧ (v.registry.nodes n).path = []
  · rw [if_pos ⟨by simp [hlast.1], hfile.occupied, hlast.2⟩,
      if_pos (by simp [files, hlast.1, hlast.2]), Registry.checkedIncrement,
      if_pos (hfile.generation hlast.2)]
    refine ⟨rfl, ?_, h.freed hlast.1 hlast.2 fun m hm => update_of_ne hm _ _⟩
    exact files_setNode v n { v.registry.nodes n with
      occupied := false, length := 0, backing := none, data := Buffer.zero } rfl rfl
      fun hne => absurd hlast.2 hne
  · rw [if_neg fun hfree => hlast ⟨by simpa using hfree.1, hfree.2.2⟩,
      if_neg fun hfree => hlast (by simpa [files, and_comm] using hfree)]
    exact h.refl _

theorem InMemory.close (h : v.InMemory F) {id : OpenFileId} (hid : v.files.Of F id) :
    Refines F (v.closeOpenFile id) (v.files.close id) := by
  refine h.through hid fun slot hslot ho => ?_
  have hfiles : ({ v with openFiles := v.openFiles.dropId slot } : State).files =
      v.files.set id (if (v.openFiles slot).refcount - 1 = 0 then none else
        some ⟨(v.openFiles slot).node, (v.openFiles slot).offset,
          (v.openFiles slot).refcount - 1⟩) := by
    unfold OpenFileTable.dropId
    rw [files_setEntry, ← hslot]
    split
    · rfl
    · rw [description, if_pos ho.occupied]
  have hmemory : ({ v with openFiles := v.openFiles.dropId slot } : State).InMemory F := by
    refine h.setEntry fun hleft => ?_
    split at hleft
    · cases hleft
    rename_i hmore
    rw [if_neg hmore]
    exact ⟨ho.reached, ho.inside, by simp only; omega⟩
  dsimp only
  rw [← hfiles]
  obtain ⟨hocc, hwrite, hback, hlen, hgen⟩ := ho.file
  exact hmemory.forget ⟨hocc, hwrite, hback, hlen, hgen⟩

end Table

/-! ## Reading and writing -/

section Bytes

variable {n : ℕ}

/-- Reading from a buffer of which the first `length` bytes are in use. -/
theorem slice_drop_take (data : Buffer n) {length offset : ℕ} (count : ℕ) (hoff : offset ≤ length) :
    data.slice offset (min (length - offset) count) =
      ((data.slice 0 length).drop offset).take count := by
  apply List.ext_getElem
  · simp only [Buffer.length_slice, List.length_take, List.length_drop]
    omega
  intro i hi _
  rw [Buffer.length_slice] at hi
  simp [Buffer.slice]

/-- Writing to a buffer of which the first `length` bytes are in use. -/
theorem slice_write_max (data : Buffer n) {length offset : ℕ} {bytes : List UInt8}
    (hoff : offset ≤ length) (hroom : offset + bytes.length ≤ n) :
    (data.write offset bytes).slice 0 (max length (offset + bytes.length)) =
      (data.slice 0 length).take offset ++ bytes ++
        (data.slice 0 length).drop (offset + bytes.length) := by
  apply List.ext_getElem
  · simp only [Buffer.length_slice, List.length_append, List.length_take, List.length_drop]
    omega
  intro i hi _
  rw [Buffer.length_slice] at hi
  simp only [Buffer.slice, List.getElem_map, List.getElem_range, Nat.zero_add, Buffer.get_write]
  by_cases hbefore : i < offset
  · rw [if_neg (by omega), List.getElem_append_left (by simp; omega),
      List.getElem_append_left (by simp; omega)]
    simp
  by_cases hinside : i < offset + bytes.length
  · rw [if_pos (by omega), List.getElem_append_left (by simp; omega),
      List.getElem_append_right (by simp; omega)]
    rw [List.getD_eq_getElem _ _ (by omega)]
    congr 1
    simp
    omega
  · rw [if_neg (by omega), List.getElem_append_right (by simp; omega)]
    simp only [List.getElem_drop, List.getElem_map, List.getElem_range]
    congr 1
    simp
    omega

end Bytes

section Frames

variable {F : NodeId → Prop} {f : FileFrames} {n : NodeId}

theorem overlay_of_unshared (h : ∀ i e, f.cache i = some e → e.key.shared = true → e.key.node ≠ n)
    (generation offset : ℕ) (bytes : List UInt8) : f.overlay n generation offset bytes = bytes := by
  have hnone : f.sharedEntries n generation = [] := by
    refine List.filter_eq_nil_iff.mpr fun e he hshared => ?_
    obtain ⟨i, -, hi⟩ := List.mem_filterMap.mp he
    simp only [Bool.and_eq_true, beq_iff_eq] at hshared
    exact h i e hi hshared.1.1 hshared.1.2
  rw [FileFrames.overlay, hnone]
  rfl

theorem update_of_unshared (h : ∀ i e, f.cache i = some e → e.key.shared = true → e.key.node ≠ n)
    (generation offset : ℕ) (bytes : List UInt8) : f.update n generation offset bytes = f := by
  unfold FileFrames.update FileFrames.mapShared
  induction List.finRange 64 with
  | nil => rfl
  | cons i rest ih =>
    rw [List.foldl_cons]
    cases hi : f.cache i with
    | none => exact ih
    | some e =>
      dsimp only
      rw [if_neg]
      · exact ih
      · simp only [Bool.and_eq_true, beq_iff_eq]
        exact fun hshared => h i e hi hshared.1.1 hshared.1.2

end Frames

section Access

variable {F : NodeId → Prop} {v : State}

theorem InMemory.readFrom (h : v.InMemory F) (disk : DiskReader) {id : OpenFileId}
    (hid : v.files.Of F id) (position : Option ℕ) (buffer : List UInt8) :
    Refines F (v.readFrom disk id position buffer none) (v.files.through id fun d =>
      if (v.files.bytes d.file).length < position.getD d.offset then
        (.error .invalidDescriptor, v.files)
      else
        let out := ((v.files.bytes d.file).drop (position.getD d.offset)).take buffer.length
        (.ok out, if position.isNone then
          v.files.set id (some { d with offset := position.getD d.offset + out.length })
        else v.files)) := by
  refine h.through hid fun slot hslot ho => ?_
  have hlen := length_bytes v (v.openFiles slot).node
  simp only [Option.any_none, Bool.false_eq_true, if_false, ho.file.occupied, Bool.not_true,
    hlen, ho.file.backing]
  generalize hpos : position.getD (v.openFiles slot).offset = offset
  by_cases hend : (v.registry.nodes (v.openFiles slot).node).length < offset
  · rw [if_pos hend, if_pos hend]
    exact h.refl _
  rw [if_neg hend, if_neg hend]
  have hread := slice_drop_take (v.registry.nodes (v.openFiles slot).node).data buffer.length
    (not_lt.mp hend)
  rw [overlay_of_unshared fun i e hi hshared heq => h.unshared i e hi hshared (heq ▸ ho.mem), hread]
  change Refines F (.ok (((v.files.bytes (v.openFiles slot).node).drop offset).take
    buffer.length), _) _
  have hcount : (((v.files.bytes (v.openFiles slot).node).drop offset).take buffer.length).length =
      min ((v.registry.nodes (v.openFiles slot).node).length - offset) buffer.length := by
    rw [List.length_take, List.length_drop, hlen, Nat.min_comm]
  rw [hcount]
  split
  · refine ⟨rfl, ?_, h.setEntry fun _ => ⟨ho.reached, ?_, ho.refs⟩⟩
    · rw [setOffset, files_setEntry, ← hslot, description, if_pos ho.occupied]
    · simp only
      omega
  · exact h.refl _

theorem InMemory.seek (h : v.InMemory F) {id : OpenFileId} (hid : v.files.Of F id) (offset : ℕ) :
    Refines F (v.seek id offset) (v.files.seek id offset) := by
  refine h.through hid fun slot hslot ho => ?_
  have hlen := length_bytes v (v.openFiles slot).node
  dsimp only
  rw [ho.file.occupied, hlen]
  refine ⟨rfl, ?_, h.setEntry fun _ => ⟨ho.reached, Nat.min_le_right _ _, ho.refs⟩⟩
  change (v.setOffset slot _).files = _
  rw [setOffset, files_setEntry, ← hslot, description, if_pos ho.occupied]

theorem InMemory.read (h : v.InMemory F) (disk : DiskReader) {id : OpenFileId}
    (hid : v.files.Of F id) (buffer : List UInt8) :
    Refines F (v.readFrom disk id none buffer none) (v.files.read id buffer.length) := by
  convert h.readFrom disk hid none buffer using 1
  unfold Files.read Files.through
  cases hopened : v.files.opened id with
  | none => rfl
  | some d =>
    -- an offset is never behind the end
    have hoff : d.offset ≤ (v.files.bytes d.file).length := by
      have hF := hid d hopened
      simp only [files] at hopened
      split at hopened
      · unfold description at hopened
        split at hopened
        · rename_i hocc
          cases hopened
          exact (h.opened _ hocc hF).1.trans_eq (length_bytes v _).symm
        · cases hopened
      · cases hopened
    simp only [Option.getD_none, if_neg (not_lt.mpr hoff), Option.isNone_none, if_true]

theorem InMemory.readAt (h : v.InMemory F) (disk : DiskReader) {id : OpenFileId}
    (hid : v.files.Of F id) (position : ℕ) (buffer : List UInt8) :
    Refines F (v.readFrom disk id (some position) buffer none)
      (v.files.readAt id position buffer.length) :=
  h.readFrom disk hid (some position) buffer

theorem InMemory.setBytes (h : v.InMemory F) {n : NodeId} {data : Buffer nodeCapacity}
    {length : ℕ} (hgrows : (v.registry.nodes n).length ≤ length) (hlen : length ≤ nodeCapacity) :
    (v.setNode n { v.registry.nodes n with data, length }).InMemory F := by
  have hnode : ∀ m, ∃ data' length', (v.registry.nodes m).length ≤ length' ∧
      (length' ≤ (v.registry.nodes m).length ∨ length' ≤ nodeCapacity) ∧
      (v.setNode n { v.registry.nodes n with data, length }).registry.nodes m =
        { v.registry.nodes m with data := data', length := length' } := by
    intro m
    by_cases hm : m = n
    · subst hm
      exact ⟨data, length, hgrows, .inr hlen, update_self _ _ _⟩
    · exact ⟨_, _, le_rfl, .inl le_rfl, update_of_ne hm _ _⟩
  refine ⟨fun m hm hr => ?_, h.unshared, fun i hi hF => ?_⟩
  · obtain ⟨_, length', -, hle, heq⟩ := hnode m
    have hreached : v.Reached m := hr.imp (fun hpath => by rwa [heq] at hpath) id
    obtain ⟨hocc, hwrite, hback, hold, hgen⟩ := h.file m hm hreached
    refine ⟨?_, ?_, ?_, ?_, ?_⟩ <;> rw [heq]
    · exact hocc
    · exact hwrite
    · exact hback
    · change length' ≤ nodeCapacity
      omega
    · exact hgen
  · obtain ⟨hoff, hrefs⟩ := h.opened i hi hF
    obtain ⟨_, length', hle, -, heq⟩ := hnode (v.openFiles i).node
    refine ⟨?_, hrefs⟩
    change (v.openFiles i).offset ≤ ((v.setNode n _).registry.nodes (v.openFiles i).node).length
    rw [heq]
    exact hoff.trans hle

theorem InMemory.write (h : v.InMemory F) (disk : DiskReader) {id : OpenFileId}
    (hid : v.files.Of F id) {buffer : List UInt8}
    (hroom : ∀ d ∈ v.files.opened id, d.offset + buffer.length ≤ nodeCapacity) :
    Refines F (v.write disk id buffer) (v.files.write id buffer) := by
  refine h.through hid fun slot hslot ho => ?_
  obtain ⟨hocc, hF, -, hfile, hoff, hrefs⟩ := ho
  have hopened : v.files.opened id = some ⟨(v.openFiles slot).node, (v.openFiles slot).offset,
      (v.openFiles slot).refcount⟩ := by
    rw [← hslot, opened_slot, description, if_pos hocc]
  have hfits := hroom _ hopened
  dsimp only at hfits ⊢
  have hmaterialize := materialize_memory disk hfile.backing
  have hsame : v.setNode (v.openFiles slot).node (v.registry.nodes (v.openFiles slot).node) =
      v := by
    simp only [setNode, Registry.setNode, update_eq_self]
  have hcount : min buffer.length (nodeCapacity - (v.openFiles slot).offset) = buffer.length := by
    omega
  rw [if_neg (by rw [hfile.occupied]; decide), if_neg (by rw [hfile.writable]; decide)]
  simp only [withMaterialized, hmaterialize, hsame, if_neg (not_lt.mpr hoff), hcount, lt_irrefl,
    if_false, List.take_length]
  generalize hnode : (v.openFiles slot).node = n at *
  generalize hold : (v.openFiles slot).offset = offset at *
  generalize hdata : (v.registry.nodes n).data.write offset buffer = data
  generalize hlen : max (v.registry.nodes n).length (offset + buffer.length) = length
  have hle := hfile.length_le
  have hbytes : (v.setNode n { v.registry.nodes n with data, length }).InMemory F :=
    h.setBytes (by omega) (by omega)
  have hfiles := files_setNode v n { v.registry.nodes n with data, length } rfl rfl
    fun _ => rfl
  -- only the bytes of the file and its version have changed so far
  generalize hv : v.setNode n { v.registry.nodes n with data, length } = v₁ at *
  have htable : v₁.openFiles = v.openFiles := by rw [← hv]; rfl
  have hlonger : (v₁.registry.nodes n).length = length := by
    rw [← hv]
    simp only [setNode, Registry.setNode, update_self]
  have hbumped : (v₁.bumpVersion n).InMemory F := by
    refine ⟨fun m hm hr => ?_, hbytes.unshared, hbytes.opened⟩
    obtain ⟨hocc, hwrite, hback, hlen, hgen⟩ := hbytes.file m hm hr
    exact ⟨hocc, hwrite, hback, hlen, hgen⟩
  have hframes : ∀ generation, (v₁.bumpVersion n).frames.update n generation offset buffer =
      (v₁.bumpVersion n).frames := fun generation =>
    update_of_unshared (fun i e hi hshared heq => hbytes.unshared i e hi hshared (heq ▸ hF)) _ _ _
  rw [hframes]
  refine ⟨rfl, ?_, hbumped.setEntry fun _ => ⟨?_, ?_, ?_⟩⟩
  · have hentry : (v₁.bumpVersion n).openFiles slot = v.openFiles slot := congrFun htable slot
    rw [setOffset, files_setEntry, hentry, description, if_pos hocc]
    change v₁.files.set slot _ = _
    rw [hfiles, ← hslot, hnode, ← hlen, ← hdata, slice_write_max _ hoff hfits]
    rfl
  · exact .inr ⟨slot, by rw [← hocc, ← htable]; rfl, rfl⟩
  · change offset + buffer.length ≤ (v₁.registry.nodes (v₁.openFiles slot).node).length
    rw [htable, hnode, hlonger]
    omega
  · change 0 < (v₁.openFiles slot).refcount
    rw [htable]
    exact hrefs

/-- Every call gives the result that it gives on byte files. -/
theorem InMemory.call (h : v.InMemory F) (disk : DiskReader) {c : Call} (hc : v.files.Within F c) :
    (v.call disk c).1 = (v.files.step c).1 ∧ (v.call disk c).2.files = (v.files.step c).2 ∧
      (v.call disk c).2.InMemory F := by
  have hlift : ∀ {α : Type} {r : Except Error α × State} {r' : Except Error α × Files}
      (f : Except Error α → Reply), Refines F r r' →
      (r.map f id).1 = (r'.map f id).1 ∧ (r.map f id).2.files = (r'.map f id).2 ∧
        (r.map f id).2.InMemory F := by
    rintro α r r' f ⟨hres, hfiles, hmemory⟩
    exact ⟨congrArg f hres, hfiles, hmemory⟩
  cases c with
  | openPath path => exact hlift .opened (h.openPath path)
  | clone id => exact hlift .opened (h.clone hc)
  | close id => exact hlift .closed (h.close hc)
  | read id buffer => exact hlift .bytes (h.read disk hc buffer)
  | readAt id position buffer => exact hlift .bytes (h.readAt disk hc position buffer)
  | write id buffer => exact hlift .count (h.write disk hc.1 hc.2)
  | seek id offset => exact hlift .count (h.seek hc offset)

end Access

/-- Descriptors of writable files in memory behave as descriptors of byte files: every result of
every sequence of calls is the same, if no write exceeds the capacity of a node. -/
theorem byteFiles_results {F : NodeId → Prop} {v : State} (h : v.InMemory F)
    (calls : List (DiskReader × Call)) (hcalls : v.files.AllWithin F (calls.map Prod.snd)) :
    v.results calls = v.files.results (calls.map Prod.snd) := by
  induction calls generalizing v with
  | nil => rfl
  | cons head calls ih =>
    obtain ⟨disk, c⟩ := head
    obtain ⟨hc, hrest⟩ := hcalls
    obtain ⟨hresult, hfiles, hmemory⟩ := h.call disk hc
    rw [List.map_cons, results, Files.results, hresult, ← hfiles]
    exact congrArg _ (ih hmemory (hfiles ▸ hrest))

/-- `/etc/motd` and the spare file are open, and the spare file is removed. -/
def spareUnlinked : State :=
  (boot fun _ => Buffer.zero).performAll
    [(noDisk, .openPath motd), (noDisk, .openPath sparePath), (noDisk, .remove sparePath)]

theorem inMemory_spareUnlinked : spareUnlinked.InMemory (· = spare) := by
  have hnode : (spareUnlinked.registry.nodes spare).occupied = true ∧
      (spareUnlinked.registry.nodes spare).writable = true ∧
      (spareUnlinked.registry.nodes spare).backing = none ∧
      (spareUnlinked.registry.nodes spare).length ≤ nodeCapacity ∧
      spareUnlinked.registry.generations spare + 1 < 2 ^ 64 := by
    decide +kernel
  have hopened : ∀ i, (spareUnlinked.openFiles i).occupied = true →
      (spareUnlinked.openFiles i).offset = 0 ∧ 0 < (spareUnlinked.openFiles i).refcount := by
    decide +kernel
  have hcache : ∀ i, spareUnlinked.frames.cache i = none := by
    decide +kernel
  obtain ⟨hocc, hwrite, hback, hlen, hgen⟩ := hnode
  refine ⟨fun n hn _ => hn ▸ ⟨hocc, hwrite, hback, hlen, fun _ => hgen⟩, fun i e hi => ?_,
    fun i hi _ => ⟨?_, (hopened i hi).2⟩⟩
  · rw [hcache] at hi
    cases hi
  · rw [(hopened i hi).1]
    exact Nat.zero_le _

def spareCalls : List Call :=
  [.openPath sparePath, .openPath motd, .write 1 [97, 98, 99], .clone 1, .seek 1 1, .close 1,
    .read 1 [0, 0], .readAt 1 0 [0], .close 1, .read 1 [0]]

/-- The removed file is written, cloned, read and closed, while `/etc/motd` is open, too. -/
theorem byteFiles_results_spare :
    spareUnlinked.results (spareCalls.map (noDisk, ·)) =
      [.opened (.error .notFound), .opened (.ok 2), .count (.ok 3), .opened (.ok 1),
        .count (.ok 1), .closed (.ok ()), .bytes (.ok [98, 99]), .bytes (.ok [97]),
        .closed (.ok ()), .bytes (.error .invalidDescriptor)] := by
  rw [byteFiles_results inMemory_spareUnlinked]
  · rfl
  · decide +kernel

end WovenHat.Vfs.State
