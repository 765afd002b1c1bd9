import WovenHat.Model.Vfs.Operations
import WovenHat.Verification.Vfs.Registry

/-! # What a VFS call does to the state

One inversion lemma for all calls. A call changes contents only, or it takes one of a few
steps on a name or on a reference. What every call keeps is proved over these cases. -/

namespace WovenHat.Vfs

open Library Function Registry State OpenFileTable

/-- Reading a node's bytes in from disk keeps everything but its data and backing. -/
structure MaterializeSpec (node node' : Node) (result : Except Error Unit) : Prop where
  path : node'.path = node.path
  occupied : node'.occupied = node.occupied
  kind : node'.kind = node.kind
  writable : node'.writable = node.writable
  length : node'.length = node.length
  backing : node'.backing = none ∨ node'.backing = node.backing
  done : result = .ok () → node'.backing = none

theorem materializeDiskNode_spec (disk : DiskReader) (node : Node) :
    MaterializeSpec node (materializeDiskNode disk node).2 (materializeDiskNode disk node).1 := by
  unfold materializeDiskNode
  cases hback : node.backing with
  | none => exact ⟨rfl, rfl, rfl, rfl, rfl, .inl hback, fun _ => hback⟩
  | some backing =>
    simp only
    split
    · exact ⟨rfl, rfl, rfl, rfl, rfl, .inr hback.symm, fun h => by simp at h⟩
    split
    · exact ⟨rfl, rfl, rfl, rfl, rfl, .inr hback.symm, fun h => by simp at h⟩
    · exact ⟨rfl, rfl, rfl, rfl, rfl, .inl rfl, fun _ => rfl⟩

variable {node : Node}

theorem materialize_memory (disk : DiskReader) (h : node.backing = none) :
    materializeDiskNode disk node = (.ok (), node) := by
  rw [materializeDiskNode, h]

theorem materializeDiskNode_error {disk : DiskReader} {node node' : Node} {e : Error}
    (h : materializeDiskNode disk node = (.error e, node')) :
    e = .io ∧ node.backing ≠ none ∧ node'.backing = node.backing := by
  unfold materializeDiskNode at h
  cases hback : node.backing with
  | none => simp [hback] at h
  | some backing =>
    simp only [hback] at h
    split at h
    · cases h
      exact ⟨rfl, nofun, rfl⟩
    split at h
    · cases h
      exact ⟨rfl, nofun, rfl⟩
    · cases h

namespace State

variable {v v' v'' : State} {n : NodeId}

/-- A node is read in from disk, or that fails with an I/O error and it stays on disk. -/
theorem withMaterialized_cases {α : Type} (v : State) (disk : DiskReader) (n : NodeId)
    (step : State → Except Error α × State) :
    ∃ node result, MaterializeSpec (v.registry.nodes n) node result ∧
      (result = .ok () ∧ v.withMaterialized disk n step = step (v.setNode n node) ∧
        ((v.registry.nodes n).backing = none → node = v.registry.nodes n) ∨
      v.withMaterialized disk n step = (.error .io, v.setNode n node) ∧
        node.backing = (v.registry.nodes n).backing ∧ node.backing ≠ none) := by
  refine ⟨_, _, materializeDiskNode_spec disk (v.registry.nodes n), ?_⟩
  unfold withMaterialized
  cases hm : materializeDiskNode disk (v.registry.nodes n) with
  | mk result node =>
    cases result with
    | ok _ =>
      refine .inl ⟨rfl, rfl, fun hnone => ?_⟩
      rw [materialize_memory disk hnone] at hm
      cases hm
      rfl
    | error e =>
      obtain ⟨rfl, hback, hsame⟩ := materializeDiskNode_error hm
      exact .inr ⟨rfl, hsame, hsame ▸ hback⟩

/-- A description on a file that is still on disk has its offset inside of the file. -/
def Inside (v : State) (i : Fin maxOpenFiles) : Prop :=
  (v.registry.nodes (v.openFiles i).node).backing = none ∨
    (v.openFiles i).offset ≤ (v.registry.nodes (v.openFiles i).node).length

/-- Contents, offsets and pages change; names and references do not. -/
structure Touches (v v' : State) : Prop where
  file : ∀ i, (v'.openFiles i).occupied = (v.openFiles i).occupied ∧
    (v'.openFiles i).node = (v.openFiles i).node ∧
    (v'.openFiles i).generation = (v.openFiles i).generation ∧
    (v'.openFiles i).refcount = (v.openFiles i).refcount
  node : ∀ n, (v'.registry.nodes n).occupied = (v.registry.nodes n).occupied ∧
    (v'.registry.nodes n).kind = (v.registry.nodes n).kind ∧
    (v'.registry.nodes n).path = (v.registry.nodes n).path ∧
    ((v'.registry.nodes n).backing = none ∨
      (v'.registry.nodes n).backing = (v.registry.nodes n).backing)
  generation : v'.registry.generations = v.registry.generations
  inside : ∀ i, v.Inside i → v'.Inside i

theorem setOffset_file (v : State) (slot : Fin maxOpenFiles) (offset : ℕ) (i : Fin maxOpenFiles) :
    let v' := v.setOffset slot offset
    (v'.openFiles i).occupied = (v.openFiles i).occupied ∧
      (v'.openFiles i).node = (v.openFiles i).node ∧
      (v'.openFiles i).generation = (v.openFiles i).generation ∧
      (v'.openFiles i).refcount = (v.openFiles i).refcount := by
  by_cases hi : i = slot
  · subst hi
    simp [setOffset]
  · simp [setOffset, update_of_ne hi]

namespace Touches

theorem refl (v : State) : Touches v v :=
  ⟨fun _ => ⟨rfl, rfl, rfl, rfl⟩, fun _ => ⟨rfl, rfl, rfl, .inr rfl⟩, rfl, fun _ h => h⟩

theorem trans (h : Touches v v') (h' : Touches v' v'') : Touches v v'' where
  file i := by
    obtain ⟨ho, hn, hg, hr⟩ := h.file i
    obtain ⟨ho', hn', hg', hr'⟩ := h'.file i
    exact ⟨ho'.trans ho, hn'.trans hn, hg'.trans hg, hr'.trans hr⟩
  node n := by
    obtain ⟨ho, hk, hp, hb⟩ := h.node n
    obtain ⟨ho', hk', hp', hb'⟩ := h'.node n
    refine ⟨ho'.trans ho, hk'.trans hk, hp'.trans hp, hb'.elim .inl fun hb' => ?_⟩
    rw [hb']
    exact hb
  generation := h'.generation.trans h.generation
  inside i hi := h'.inside i (h.inside i hi)

section Changes

variable (v : State)

theorem setNode (hocc : node.occupied = (v.registry.nodes n).occupied)
    (hkind : node.kind = (v.registry.nodes n).kind) (hpath : node.path = (v.registry.nodes n).path)
    (hback : node.backing = none ∨ node.backing = (v.registry.nodes n).backing ∧
      node.length = (v.registry.nodes n).length) : Touches v (v.setNode n node) where
  file _ := ⟨rfl, rfl, rfl, rfl⟩
  node m := by
    by_cases hm : m = n
    · subst hm
      rw [State.setNode, setNode_self]
      exact ⟨hocc, hkind, hpath, hback.imp_right And.left⟩
    · rw [State.setNode, setNode_of_ne _ _ hm]
      exact ⟨rfl, rfl, rfl, .inr rfl⟩
  generation := rfl
  inside i hi := by
    unfold Inside State.setNode at *
    by_cases hm : (v.openFiles i).node = n
    · dsimp only
      rw [hm] at hi
      rw [hm, setNode_self]
      rcases hback with hnone | ⟨hsame, hlen⟩
      · exact .inl hnone
      · rw [hsame, hlen]
        exact hi
    · rw [setNode_of_ne _ _ hm]
      exact hi

theorem bumpVersion (n : NodeId) : Touches v (v.bumpVersion n) :=
  ⟨fun _ => ⟨rfl, rfl, rfl, rfl⟩, fun _ => ⟨rfl, rfl, rfl, .inr rfl⟩, rfl, fun _ h => h⟩

theorem setFrames (frames : FileFrames) : Touches v { v with frames } :=
  ⟨fun _ => ⟨rfl, rfl, rfl, rfl⟩, fun _ => ⟨rfl, rfl, rfl, .inr rfl⟩, rfl, fun _ h => h⟩

/-- New contents of a node, with its version and the shared pages. -/
theorem store (hocc : node.occupied = (v.registry.nodes n).occupied)
    (hkind : node.kind = (v.registry.nodes n).kind) (hpath : node.path = (v.registry.nodes n).path)
    (hback : node.backing = none ∨ node.backing = (v.registry.nodes n).backing ∧
      node.length = (v.registry.nodes n).length) (frames : FileFrames) :
    Touches v { (v.setNode n node).bumpVersion n with frames } :=
  (setNode v hocc hkind hpath hback).trans ((bumpVersion _ _).trans (setFrames _ _))

variable {slot : Fin maxOpenFiles}

theorem setOffset {offset : ℕ} (hoff : offset ≤ (v.registry.nodes (v.openFiles slot).node).length) :
    Touches v (v.setOffset slot offset) where
  file := setOffset_file v slot offset
  node _ := ⟨rfl, rfl, rfl, .inr rfl⟩
  generation := rfl
  inside i hi := by
    unfold Inside State.setOffset at *
    by_cases hslot : i = slot
    · subst hslot
      simpa using .inr hoff
    · simpa [update_of_ne hslot] using hi

theorem withOpenFile {α : Type} (id : OpenFileId) {step : Fin maxOpenFiles → Except Error α × State}
    (hstep : ∀ slot, Touches v (step slot).2) : Touches v (v.withOpenFile id step).2 := by
  unfold State.withOpenFile
  split
  · exact .refl v
  · exact hstep _

theorem materialized {result : Except Error Unit}
    (h : MaterializeSpec (v.registry.nodes n) node result) : Touches v (v.setNode n node) :=
  .setNode v h.occupied h.kind h.path (h.backing.imp_right fun hback => ⟨hback, h.length⟩)

theorem withMaterialized {α : Type} (disk : DiskReader) (n : NodeId)
    {step : State → Except Error α × State}
    (hstep : ∀ node, MaterializeSpec (v.registry.nodes n) node (.ok ()) →
      Touches (v.setNode n node) (step (v.setNode n node)).2) :
    Touches v (v.withMaterialized disk n step).2 := by
  obtain ⟨node, result, hspec, ⟨rfl, hm, -⟩ | ⟨hm, -⟩⟩ := withMaterialized_cases v disk n step
  · rw [hm]
    exact (materialized v hspec).trans (hstep node hspec)
  · rw [hm]
    exact .materialized v hspec

theorem prepareRemove (disk : DiskReader) (path : Str) :
    Touches v (v.prepareRemove disk path).2 := by
  unfold State.prepareRemove
  split
  · exact .refl v
  split
  · exact .refl v
  split
  · exact .refl v
  split
  · exact .withMaterialized v disk _ fun node _ => .refl _
  · exact .refl v

theorem prepareSharedFile (disk : DiskReader) (id : OpenFileId) :
    Touches v (v.prepareSharedFile disk id).2 := by
  refine .withOpenFile v id fun slot => ?_
  dsimp only
  split
  · exact .refl v
  split
  · exact .refl v
  split
  · exact .refl v
  exact .withMaterialized v disk _ fun node _ => .setNode _ rfl rfl rfl (.inr ⟨rfl, rfl⟩)

theorem writeMappingAt (id : OpenFileId) (offset : ℕ) (bytes : List UInt8) :
    Touches v (v.writeMappingAt id offset bytes).2 := by
  refine .withOpenFile v id fun slot => ?_
  dsimp only
  split
  · exact .refl v
  split
  · exact .refl v
  refine .store v ?_ ?_ ?_ (.inr ⟨?_, ?_⟩) _
  all_goals rfl

theorem readFrom (disk : DiskReader) (id : OpenFileId) (position : Option ℕ) (buffer : List UInt8)
    (generation : Option ℕ) : Touches v (v.readFrom disk id position buffer generation).2 := by
  refine .withOpenFile v id fun slot => ?_
  dsimp only
  split
  · exact .refl v
  split
  · exact .refl v
  split
  · exact .refl v
  split
  · exact .refl v
  split
  · exact .setOffset v (by omega)
  · exact .refl v

theorem seek (id : OpenFileId) (offset : ℕ) : Touches v (v.seek id offset).2 := by
  refine .withOpenFile v id fun slot => ?_
  dsimp only
  split
  · exact .refl v
  · exact .setOffset v (min_le_right _ _)

theorem write (disk : DiskReader) (id : OpenFileId) (buffer : List UInt8) :
    Touches v (v.write disk id buffer).2 := by
  refine .withOpenFile v id fun slot => ?_
  dsimp only
  split
  · exact .refl v
  split
  · exact .refl v
  refine .withMaterialized v disk _ fun node hspec => ?_
  split
  · exact .refl _
  refine .trans (.store _ ?_ ?_ ?_ (.inl ?_) _) (.setOffset _ ?_)
  · rfl
  · rfl
  · rfl
  · dsimp only
    rw [State.setNode, setNode_self]
    exact hspec.done rfl
  · simp [State.setNode, State.bumpVersion]

end Changes

end Touches

/-! ## Calls on names and references -/

/-- What a call does: it touches contents, or it takes one step on a name or a reference. -/
inductive Effect (v : State) : Op → State → Prop where
  | touched {op : Op} {v' : State} (h : Touches v v') : Effect v op v'
  | placed {op : Op} {n : NodeId} {node : Node} {path : Str}
      (hfree : (v.registry.nodes n).occupied = false) (hvalid : validateAbsolutePath path = .ok ())
      (hfresh : ∀ i, (v.registry.nodes i).matchesPath path = false)
      (hparent : path ≠ rootPath → v.registry.checkParent path = .ok ())
      (hocc : node.occupied = true) (hpath : node.path = path)
      (hback : ∀ p ∈ node.backing, p = path ∨ (v.registry.nodes n).backing = some p) :
      Effect v op (v.setNode n node)
  | renamed {old new : Str} {r : Registry} (h : v.registry.rename old new = .ok r) :
      Effect v (.rename old new) { v with registry := r }
  | unnamed {path : Str} {n : NodeId} {node : Node} (hvalid : validateAbsolutePath path = .ok ())
      (hmatch : (v.registry.nodes n).matchesPath path = true)
      (hfile : (v.registry.nodes n).kind = .file) (hopen : v.openFiles.refersTo n = true)
      (hocc : node.occupied = true) (hkind : node.kind = .file) (hpath : node.path = [])
      (hback : node.backing = none) : Effect v (.remove path) (v.setNode n node)
  | removed {path : Str} {n : NodeId} {r : Registry} (hn : v.registry.removableIndex path = .ok n)
      (hclosed : ¬((v.registry.nodes n).kind = .file ∧ v.openFiles.refersTo n = true))
      (h : v.registry.remove path = .ok r) : Effect v (.remove path) { v with registry := r }
  | opened {path : Str} {n : NodeId} {slot : Fin maxOpenFiles}
      (hocc : (v.registry.nodes n).occupied = true) (hfile : (v.registry.nodes n).kind = .file)
      (hslot : (v.openFiles slot).occupied = false) :
      Effect v (.openPath path)
        { v with
          openFiles := update v.openFiles slot ⟨n, v.registry.generations n, 0, 1, true⟩ }
  | cloned {slot : Fin maxOpenFiles} (hslot : (v.openFiles slot).occupied = true) :
      Effect v (.cloneOpenFile slot)
        { v with
          openFiles := update v.openFiles slot
            { v.openFiles slot with refcount := (v.openFiles slot).refcount + 1 } }
  | closed {slot : Fin maxOpenFiles} (hslot : (v.openFiles slot).occupied = true)
      (hkept : (v.registry.nodes (v.openFiles slot).node).occupied = true →
        (v.registry.nodes (v.openFiles slot).node).path = [] →
        (v.openFiles.dropId slot).refersTo (v.openFiles slot).node = false →
        checkedIncrement (v.registry.generations (v.openFiles slot).node) = none) :
      Effect v (.closeOpenFile slot) { v with openFiles := v.openFiles.dropId slot }
  | freed {slot : Fin maxOpenFiles} {generation : ℕ} {node : Node}
      (hslot : (v.openFiles slot).occupied = true)
      (hpath : (v.registry.nodes (v.openFiles slot).node).path = [])
      (hlast : (v.openFiles.dropId slot).refersTo (v.openFiles slot).node = false)
      (hgen : checkedIncrement (v.registry.generations (v.openFiles slot).node) =
        some generation) (hfree : node.occupied = false) (hback : node.backing = none) :
      Effect v (.closeOpenFile slot)
        { v with
          openFiles := v.openFiles.dropId slot
          registry := { v.registry.setNode (v.openFiles slot).node node with
            generations := update v.registry.generations (v.openFiles slot).node generation } }

namespace Effect

variable {op : Op} {path : Str} {data : List UInt8} {writable : Bool}

theorem same (v : State) (op : Op) : Effect v op v :=
  .touched (.refl v)

theorem withRegistry {α : Type} (x : Except Error α) {f : α → Unit × Registry}
    (h : ∀ a, x = .ok a → Effect v op { v with registry := (f a).2 }) :
    Effect v op (v.withRegistry (x.map f)).2 := by
  cases x with
  | error e => exact .same v op
  | ok a => exact h a rfl

theorem insert {r : Registry} (h : v.registry.insert path data writable = .ok (n, r)) :
    Effect v op { v with registry := r } := by
  obtain ⟨hvalid, -, hfresh, hparent, hfree, rfl⟩ := insert_ok h
  exact .placed hfree hvalid hfresh hparent rfl rfl fun _ hp => .inr hp

theorem createDiskFile (path : Str) (length : ℕ) (writable : Bool) :
    Effect v op (v.createDiskFileWithWritable path length writable).2 := by
  unfold createDiskFileWithWritable
  split
  · exact .same v op
  refine .withRegistry _ fun a h => ?_
  obtain ⟨hvalid, -, hfresh, hparent, hfree, hr⟩ := insert_ok h
  have hset : a.2.setNode a.1 { a.2.nodes a.1 with backing := some path, length } =
      v.registry.setNode a.1
        { a.2.nodes a.1 with backing := some path, length } := by
    rw [hr]
    simp [Registry.setNode]
  dsimp only
  rw [hset]
  refine .placed hfree hvalid hfresh hparent ?_ ?_ fun _ hp => .inl (Option.some.inj hp).symm
  · simp [hr, insertedNode]
  · simp [hr, Registry.insertedNode]

theorem writeFile (path : Str) (data : List UInt8) : Effect v op (v.writeFile path data).2 := by
  unfold State.writeFile
  split
  · exact .same v op
  split
  · exact .same v op
  split
  · dsimp only
    split
    · exact .same v op
    split
    · exact .same v op
    · refine .touched (.store v ?_ ?_ ?_ (.inl ?_) _)
      all_goals rfl
  · exact .withRegistry _ fun _ h => .insert h

theorem remove (disk : DiskReader) (path : Str) : Effect v (.remove path) (v.remove disk path).2 := by
  unfold State.remove
  cases hvalid : validateAbsolutePath path with
  | error e => exact .same v _
  | ok _ =>
    cases hindex : v.registry.position (·.matchesPath path) with
    | none => exact .same v _
    | some n =>
      dsimp only
      split
      · rename_i hopen
        have hmatch := position_some hindex
        obtain ⟨node, result, hspec, ⟨rfl, hm, -⟩ | ⟨hm, -⟩⟩ := withMaterialized_cases v disk n
          fun v => (.ok (), v.setNode n { v.registry.nodes n with path := [] })
        · rw [hm]
          simp only [setNode, Registry.setNode, update_self, update_idem]
          exact .unnamed hvalid hmatch hopen.1 hopen.2
            (hspec.occupied.trans (matchesPath_iff.mp hmatch).1)
            (hspec.kind.trans hopen.1) rfl (hspec.done rfl)
        · rw [hm]
          exact .touched (.materialized v hspec)
      · rename_i hclosed
        refine .withRegistry _ fun r h => ?_
        obtain ⟨m, generation, hm, -⟩ := remove_ok h
        -- the node that is removed is the one found above
        have hmn : m = n := by
          simp only [removableIndex, hindex, Result.throw_bind, Result.bind_eq_ok,
            Result.check_eq_ok, Result.pure_eq_ok] at hm
          obtain ⟨-, -, -, -, hm⟩ := hm
          exact hm.symm
        subst hmn
        exact .removed hm hclosed h

end Effect

theorem openPath_cases (v : State) (path : Str) : (∃ e, v.openPath path = (.error e, v)) ∨
    ∃ (slot : Fin maxOpenFiles) (n : NodeId), (v.registry.nodes n).occupied = true ∧
      (v.registry.nodes n).kind = .file ∧ (v.openFiles slot).occupied = false ∧
      v.openPath path = (.ok slot, { v with
        openFiles := update v.openFiles slot ⟨n, v.registry.generations n, 0, 1, true⟩ }) := by
  unfold openPath
  split
  · exact .inl ⟨_, rfl⟩
  split
  · exact .inl ⟨_, rfl⟩
  rename_i n hn
  obtain ⟨hmatch, hkind⟩ := Bool.and_eq_true_iff.mp (position_some hn)
  unfold alloc
  cases hfree : (List.finRange maxOpenFiles).find? fun i => !(v.openFiles i).occupied with
  | none => exact .inl ⟨_, rfl⟩
  | some slot =>
    exact .inr ⟨slot, n, (matchesPath_iff.mp hmatch).1, beq_iff_eq.mp hkind,
      by simpa using List.find?_some hfree, rfl⟩

theorem getMut_ok {t : OpenFileTable} {id : OpenFileId} (h : t.getMut id = .ok slot) :
    (slot : ℕ) = id ∧ (t slot).occupied = true ∧ 0 < (t slot).refcount := by
  unfold getMut at h
  split at h
  · split at h
    · rename_i hslot
      cases h
      exact ⟨rfl, hslot⟩
    · cases h
  · cases h

theorem cloneOpenFile_eq (v : State) (id : OpenFileId) :
    v.cloneOpenFile id = v.withOpenFile id fun slot =>
      if (v.openFiles slot).refcount + 1 < 2 ^ 32 then
        (.ok id, { v with
          openFiles := update v.openFiles slot
            { v.openFiles slot with refcount := (v.openFiles slot).refcount + 1 } })
      else (.error .full, v) := by
  unfold cloneOpenFile cloneId withOpenFile
  cases v.openFiles.getMut id with
  | error e => rfl
  | ok slot =>
    dsimp only
    split
    · rename_i heq
      split at heq
      · cases heq
      · cases heq
        rw [if_neg (by assumption)]
    · rename_i heq
      split at heq
      · cases heq
        rw [if_pos (by assumption)]
      · cases heq

namespace Effect

theorem openPath (path : Str) : Effect v (.openPath path) (v.openPath path).2 := by
  obtain ⟨e, heq⟩ | ⟨slot, n, hocc, hfile, hslot, heq⟩ := v.openPath_cases path
  · rw [heq]
    exact .same v _
  · rw [heq]
    exact .opened hocc hfile hslot

theorem cloneOpenFile (id : OpenFileId) : Effect v (.cloneOpenFile id) (v.cloneOpenFile id).2 := by
  rw [cloneOpenFile_eq, withOpenFile]
  split
  · exact .same v _
  rename_i slot hget
  obtain ⟨rfl, hslot, -⟩ := getMut_ok hget
  split
  · exact .cloned hslot
  · exact .same v _

theorem closeOpenFile (id : OpenFileId) : Effect v (.closeOpenFile id) (v.closeOpenFile id).2 := by
  unfold State.closeOpenFile withOpenFile
  split
  · exact .same v _
  rename_i slot hget
  obtain ⟨rfl, hslot, -⟩ := getMut_ok hget
  dsimp only
  split
  · rename_i hlast
    rw [Bool.not_eq_true'] at hlast
    split
    · rename_i hgen
      exact .closed hslot fun _ _ _ => hgen
    · rename_i generation hgen
      exact .freed hslot hlast.2.2 hlast.1 hgen rfl rfl
  · rename_i hlast
    exact .closed hslot fun hocc hpath hrefers => (hlast ⟨by simp [hrefers], hocc, hpath⟩).elim

theorem perform (disk : DiskReader) (op : Op) : Effect v op (v.perform disk op) := by
  cases op with
  | createReadOnly path data => exact .withRegistry _ fun _ h => .insert h
  | createDiskFile path length writable => exact .createDiskFile path length writable
  | writeFile path data => exact .writeFile path data
  | prepareRemove path => exact .touched (.prepareRemove v disk path)
  | remove path => exact .remove disk path
  | rename old new => exact .withRegistry _ fun _ h => .renamed h
  | mkdir path =>
    refine .withRegistry _ fun a h => ?_
    obtain ⟨hvalid, -, hfresh, hparent, hfree, hr⟩ := mkdir_ok h
    rw [hr]
    exact .placed hfree hvalid hfresh (fun _ => hparent) rfl rfl nofun
  | openPath path => exact .openPath path
  | cloneOpenFile id => exact .cloneOpenFile id
  | closeOpenFile id => exact .closeOpenFile id
  | prepareSharedFile id => exact .touched (.prepareSharedFile v disk id)
  | writeMappingAt id offset bytes => exact .touched (.writeMappingAt v id offset bytes)
  | readFrom id position buffer generation =>
    exact .touched (.readFrom v disk id position buffer generation)
  | seek id offset => exact .touched (.seek v id offset)
  | write id buffer => exact .touched (.write v disk id buffer)

/-- Only opening, cloning and closing count references. -/
theorem references (h : Effect v op v') (hopen : ∀ path, op ≠ .openPath path)
    (hclone : ∀ id, op ≠ .cloneOpenFile id) (hclose : ∀ id, op ≠ .closeOpenFile id)
    (slot : Fin maxOpenFiles) : (v'.openFiles slot).occupied = (v.openFiles slot).occupied ∧
      (v'.openFiles slot).refcount = (v.openFiles slot).refcount := by
  cases h with
  | touched ht => exact ⟨(ht.file slot).1, (ht.file slot).2.2.2⟩
  | opened => exact absurd rfl (hopen _)
  | cloned => exact absurd rfl (hclone _)
  | closed => exact absurd rfl (hclose _)
  | freed => exact absurd rfl (hclose _)
  | _ => exact ⟨rfl, rfl⟩

end Effect

end State

end WovenHat.Vfs
