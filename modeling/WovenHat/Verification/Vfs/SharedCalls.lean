import WovenHat.Model.Vfs.Sharing
import WovenHat.Verification.Vfs.OpenFiles
import WovenHat.Verification.Vfs.SharedPages

/-! # Calls and the pages of a file

What each call of the VFS does to a file in memory and to its pages in the cache. -/

namespace WovenHat.Vfs

open Library Function List Option Buffer FileFrames Registry

namespace State

variable {v v' v'' : State} {n : NodeId} {g : ℕ} {used : ℕ → Prop}

/-! ## A file in memory and the calls of the VFS -/

def Current (v : State) : Prop :=
  ∀ i, (v.openFiles i).occupied = true →
    v.registry.generations (v.openFiles i).node = (v.openFiles i).generation

def FilesKept (v v' : State) : Prop :=
  ∀ i, (v'.openFiles i).occupied = true → (v.openFiles i).occupied = true ∧
    (v'.openFiles i).node = (v.openFiles i).node ∧
    (v'.openFiles i).generation = (v.openFiles i).generation

/-- The node holds a file in memory, in this generation. -/
structure Ram (v : State) (n : NodeId) (g : ℕ) : Prop where
  occupied : (v.registry.nodes n).occupied = true
  generation : v.registry.generations n = g
  memory : (v.registry.nodes n).backing = none

def GapOk (v : State) (n : NodeId) (g : ℕ) : Prop :=
  v.frames.GapOk n g (v.registry.nodes n).data (v.registry.nodes n).length

/-- What every call does to a file in memory: it keeps it, or frees it for good. Pages that are
in use stay in the cache, and nothing appears in them behind the end of the file. -/
structure Evolves (used : ℕ → Prop) (v v' : State) (n : NodeId) (g : ℕ) : Prop where
  files : FilesKept v v'
  current : v'.Current
  ok : v'.frames.Ok
  held : ∀ c e, v.frames.cache c = some e → used e.frame →
    ∃ e', v'.frames.cache c = some e' ∧ FileFrames.SamePage e e'
  gone : g < v.registry.generations n → g < v'.registry.generations n
  ram : v.Ram n g → v'.Ram n g ∨ g < v'.registry.generations n
  tail : v.Ram n g → v'.Ram n g → v.frames.TailKept v'.frames n g (v.registry.nodes n).length
    (v'.registry.nodes n).length

/-- Such a call that keeps the pages in agreement with the file, too. -/
structure Steady (used : ℕ → Prop) (v v' : State) (n : NodeId) (g : ℕ) : Prop
    extends Evolves used v v' n g where
  gap : v.Ram n g → v'.Ram n g → v.GapOk n g → v'.GapOk n g

theorem Ram.not_gone (h : v.Ram n g) : ¬g < v.registry.generations n := by
  rw [h.generation]
  exact lt_irrefl g

theorem FilesKept.refl (v : State) : FilesKept v v :=
  fun _ hi => ⟨hi, rfl, rfl⟩

theorem FilesKept.setOffset {slot : Fin maxOpenFiles} {offset : ℕ}
    (h : v'.openFiles = (v.setOffset slot offset).openFiles) : FilesKept v v' := by
  intro i hi
  obtain ⟨hoccupied, hnode, hgeneration, -⟩ := setOffset_file v slot offset i
  rw [h] at hi ⊢
  exact ⟨hoccupied ▸ hi, hnode, hgeneration⟩

theorem FilesKept.current (hfiles : FilesKept v v') (h : v.Current)
    (hgeneration : v'.registry.generations = v.registry.generations) : v'.Current := by
  intro i hi
  obtain ⟨hoccupied, hnode, hgen⟩ := hfiles i hi
  rw [hnode, hgen, hgeneration]
  exact h i hoccupied

theorem Steady.refl (hcur : v.Current) (hok : v.frames.Ok) : Steady used v v n g where
  files := .refl v
  current := hcur
  ok := hok
  held := fun _ e he _ => ⟨e, he, .refl e⟩
  gone := id
  ram := .inl
  gap := fun _ _ => id
  tail := fun _ _ _ e he _ _ _ hlength => .inr ⟨hlength, e, he, .refl e, rfl⟩

/-- A file that is there at the end was there in between. -/
theorem Evolves.ram_between (h : Evolves used v v' n g) (h' : Evolves used v' v'' n g)
    (hram : v.Ram n g) (hram'' : v''.Ram n g) : v'.Ram n g := by
  obtain hram' | hgone := h.ram hram
  · exact hram'
  · exact absurd (h'.gone hgone) hram''.not_gone

theorem Evolves.trans (h : Evolves used v v' n g) (h' : Evolves used v' v'' n g) :
    Evolves used v v'' n g := by
  refine ⟨fun i hi => ?_, h'.current, h'.ok, fun c e he hused => ?_,
    fun hgone => h'.gone (h.gone hgone), fun hram => ?_,
    fun hram hram'' c e'' he'' hshared q hq hlength => ?_⟩
  · obtain ⟨hi', hnode', hgen'⟩ := h'.files i hi
    obtain ⟨hi, hnode, hgen⟩ := h.files i hi'
    exact ⟨hi, hnode'.trans hnode, hgen'.trans hgen⟩
  · obtain ⟨e', he', hsame⟩ := h.held c e he hused
    obtain ⟨e'', he'', hsame'⟩ := h'.held c e' he' (hsame.frame ▸ hused)
    exact ⟨e'', he'', hsame.trans hsame'⟩
  · obtain hram' | hgone := h.ram hram
    · exact h'.ram hram'
    · exact .inr (h'.gone hgone)
  have hram' := h.ram_between h' hram hram''
  obtain hzero | ⟨hlength', e', he', hsame', hbyte'⟩ :=
    h'.tail hram' hram'' c e'' he'' hshared q hq hlength
  · exact .inl hzero
  rw [hsame'.offset] at hlength' ⊢
  obtain hzero | ⟨hlength, e, he, hsame, hbyte⟩ := h.tail hram hram' c e' he'
    (hsame'.shared_iff.mp hshared) q hq hlength'
  · exact .inl (hbyte'.symm.trans hzero)
  · exact .inr ⟨hlength, e, he, hsame.trans hsame', hbyte.trans hbyte'⟩

theorem Steady.trans (h : Steady used v v' n g) (h' : Steady used v' v'' n g) :
    Steady used v v'' n g := by
  refine ⟨h.toEvolves.trans h'.toEvolves, fun hram hram'' hgap => ?_⟩
  have hram' := h.ram_between h'.toEvolves hram hram''
  exact h'.gap hram' hram'' (h.gap hram hram' hgap)

/-- A call that leaves the cache alone, and the file unless it frees it. -/
theorem Steady.of_frames (hok : v.frames.Ok) (hfiles : FilesKept v v') (hcur : v'.Current)
    (hframes : v'.frames = v.frames)
    (hgone : g < v.registry.generations n → g < v'.registry.generations n)
    (hnode : v.Ram n g → (v'.registry.generations n = g ∧
      (v'.registry.nodes n).occupied = true ∧ (v'.registry.nodes n).backing = none ∧
      (v'.registry.nodes n).data = (v.registry.nodes n).data ∧
      (v'.registry.nodes n).length = (v.registry.nodes n).length) ∨
        g < v'.registry.generations n) : Steady used v v' n g := by
  have hsame : v.Ram n g → v'.Ram n g → (v'.registry.nodes n).data = (v.registry.nodes n).data ∧
      (v'.registry.nodes n).length = (v.registry.nodes n).length := by
    intro hram hram'
    obtain ⟨-, -, -, hdata, hlength⟩ | hfreed := hnode hram
    · exact ⟨hdata, hlength⟩
    · exact absurd hfreed hram'.not_gone
  refine ⟨⟨hfiles, hcur, hframes ▸ hok, fun c e he _ => ⟨e, hframes ▸ he, .refl e⟩, hgone,
    fun hram => ?_, fun hram hram' c e he _ _ _ hlength => ?_⟩, fun hram hram' hgap => ?_⟩
  · obtain ⟨hgeneration, hoccupied, hbacking, -⟩ | hfreed := hnode hram
    · exact .inl ⟨hoccupied, hgeneration, hbacking⟩
    · exact .inr hfreed
  · rw [(hsame hram hram').2] at hlength
    rw [hframes] at he ⊢
    exact .inr ⟨hlength, e, he, .refl e, rfl⟩
  · obtain ⟨hdata, hlength⟩ := hsame hram hram'
    rw [GapOk, hframes, hdata, hlength]
    exact hgap

/-- A call that leaves the nodes and changes only cached pages. -/
theorem Evolves.of_registry (hfiles : FilesKept v v') (hcur : v.Current)
    (hreg : v'.registry = v.registry) (hok : v'.frames.Ok)
    (hheld : ∀ c e, v.frames.cache c = some e → used e.frame →
      ∃ e', v'.frames.cache c = some e' ∧ FileFrames.SamePage e e')
    (htail : v.Ram n g → v.frames.TailKept v'.frames n g (v.registry.nodes n).length
      (v.registry.nodes n).length) : Evolves used v v' n g where
  files := hfiles
  current := hfiles.current hcur (by rw [hreg])
  ok := hok
  held := hheld
  gone := by
    rw [hreg]
    exact id
  ram := fun hram => .inl ⟨by rw [hreg, hram.occupied], by rw [hreg, hram.generation],
    by rw [hreg, hram.memory]⟩
  tail := by
    intro hram _
    rw [hreg]
    exact htail hram

theorem nodes_setNode (v : State) (index m : NodeId) (node : Node) :
    (v.setNode index node).registry.nodes m = if m = index then node else v.registry.nodes m :=
  update_apply _ _ _ _

theorem mappedSize_aligned {fileSize offset length size : ℕ}
    (h : mappedSize fileSize offset length = some size) : 4096 ∣ offset := by
  unfold mappedSize at h
  split at h
  · cases h
  · omega

section Calls

variable (hok : v.frames.Ok) (hcur : v.Current)

include hok hcur

/-- A call that leaves the cache and the node of the file alone. -/
theorem Steady.of_node (hfiles : FilesKept v v') (hframes : v'.frames = v.frames)
    (hgeneration : v'.registry.generations = v.registry.generations)
    (hnode : v.Ram n g → v'.registry.nodes n = v.registry.nodes n) : Steady used v v' n g := by
  refine .of_frames hok hfiles (hfiles.current hcur hgeneration) hframes
    (fun hgone => hgeneration ▸ hgone) fun hram => .inl ?_
  rw [hgeneration, hnode hram]
  exact ⟨hram.generation, hram.occupied, hram.memory, rfl, rfl⟩

/-- A call that changes a file and its pages together, this one or another. -/
theorem Steady.of_changed (hfiles : FilesKept v v') {index : NodeId}
    {change : FrameEntry → Buffer 4096 → ℕ × Buffer 4096}
    (hchanged : FileFrames.Changed v.frames v'.frames index (v.registry.generations index) change
      (finRange 64)) (hcount : ∀ e page, e.key.count ≤ 4096 → (change e page).1 ≤ 4096)
    (hgeneration : v'.registry.generations = v.registry.generations)
    (hothers : ∀ m, m ≠ index → v'.registry.nodes m = v.registry.nodes m)
    (hself : v.Ram index g → v'.Ram index g ∧ FileFrames.Step v.frames v'.frames index g
      (v.registry.nodes index).data (v'.registry.nodes index).data
      (v.registry.nodes index).length (v'.registry.nodes index).length) : Steady used v v' n g := by
  have hstep : v.Ram n g → v'.Ram n g ∧ FileFrames.Step v.frames v'.frames n g
      (v.registry.nodes n).data (v'.registry.nodes n).data (v.registry.nodes n).length
      (v'.registry.nodes n).length := by
    intro hram
    by_cases hn : n = index
    · subst hn
      exact hself hram
    have hnodes := hothers n hn
    refine ⟨⟨by rw [hnodes, hram.occupied], by rw [hgeneration, hram.generation],
      by rw [hnodes, hram.memory]⟩, ?_⟩
    rw [hnodes]
    exact hchanged.step_other hok (fun heq => hn heq.1.symm) _ _
  exact ⟨⟨hfiles, hfiles.current hcur hgeneration, hchanged.ok hok hcount,
    fun c e he _ => hchanged.held c e he, fun hgone => hgeneration ▸ hgone,
    fun hram => .inl (hstep hram).1, fun hram _ => (hstep hram).2.tail⟩,
    fun hram _ => (hstep hram).2.gap⟩

theorem Steady.of_update (index : NodeId) (offset : ℕ) (bytes : List UInt8)
    (hfiles : FilesKept v v') (hgeneration : v'.registry.generations = v.registry.generations)
    (hframes : v'.frames = v.frames.update index (v.registry.generations index) offset bytes)
    (hothers : ∀ m, m ≠ index → v'.registry.nodes m = v.registry.nodes m)
    (hnode : (v.registry.nodes index).backing = none →
      (v'.registry.nodes index).occupied = (v.registry.nodes index).occupied ∧
      (v'.registry.nodes index).backing = none ∧
      (v'.registry.nodes index).data = (v.registry.nodes index).data.write offset bytes ∧
      (v'.registry.nodes index).length =
        max (v.registry.nodes index).length (offset + bytes.length) ∧
      offset ≤ (v.registry.nodes index).length) : Steady used v v' n g := by
  have hchanged := update_changed hok.distinct index (v.registry.generations index) offset bytes
  rw [← hframes] at hchanged
  refine .of_changed hok hcur hfiles hchanged updateChange_count hgeneration hothers fun hram => ?_
  obtain ⟨hoccupied, hbacking, hdata, hlength, hoff⟩ := hnode hram.memory
  refine ⟨⟨hoccupied.trans hram.occupied, by rw [hgeneration, hram.generation], hbacking⟩, ?_⟩
  rw [hframes, hram.generation, hdata, hlength]
  exact hok.step_update _ bytes hoff

/-- A node is read in from disk; one in memory is left alone. -/
theorem steady_withMaterialized {α : Type} (disk : DiskReader) (index : NodeId)
    {step : State → Except Error α × State}
    (hstep : ∀ node, ((v.registry.nodes index).backing = none → node = v.registry.nodes index) →
      Steady used v (step (v.setNode index node)).2 n g) :
    Steady used v (v.withMaterialized disk index step).2 n g := by
  obtain ⟨node, -, -, ⟨-, hm, hmemory⟩ | ⟨hm, hback, hdisk⟩⟩ :=
    withMaterialized_cases v disk index step
  · rw [hm]
    exact hstep node hmemory
  rw [hm]
  refine .of_node hok hcur (fun _ hi => ⟨hi, rfl, rfl⟩) rfl rfl fun hram => ?_
  refine setNode_of_ne _ _ ?_
  rintro rfl
  exact hdisk (hback.trans hram.memory)

theorem steady_withOpenFile {α : Type} {id : OpenFileId}
    {step : Fin maxOpenFiles → Except Error α × State}
    (hstep : ∀ slot, v.openFiles.getMut id = .ok slot → Steady used v (step slot).2 n g) :
    Steady used v (v.withOpenFile id step).2 n g := by
  unfold withOpenFile
  split
  · exact .refl hcur hok
  · exact hstep _ ‹_›

theorem steady_seek (id : OpenFileId) (offset : ℕ) : Steady used v (v.seek id offset).2 n g := by
  refine steady_withOpenFile hok hcur fun slot _ => ?_
  dsimp only
  split
  · exact .refl hcur hok
  · exact .of_node hok hcur (.setOffset rfl) rfl rfl fun _ => rfl

theorem steady_writeMappingAt (id : OpenFileId) (offset : ℕ) (bytes : List UInt8) :
    Steady used v (v.writeMappingAt id offset bytes).2 n g := by
  refine steady_withOpenFile hok hcur fun slot hget => ?_
  dsimp only
  split
  · exact .refl hcur hok
  split
  · exact .refl hcur hok
  refine .of_update hok hcur (v.openFiles slot).node offset bytes
    (fun _ hi => ⟨hi, rfl, rfl⟩) rfl
    (by simp only [bumpVersion, setNode, hcur slot (getMut_ok hget).2.1]) (fun m hm => ?_)
    fun hmemory => ?_
  · exact (nodes_setNode ..).trans (if_neg hm)
  · simp only [bumpVersion, nodes_setNode, if_true]
    refine ⟨trivial, hmemory, trivial, ?_, ?_⟩ <;> omega

theorem steady_write (disk : DiskReader) (id : OpenFileId) (buffer : List UInt8) :
    Steady used v (v.write disk id buffer).2 n g := by
  refine steady_withOpenFile hok hcur fun slot hget => ?_
  dsimp only
  split
  · exact .refl hcur hok
  split
  · exact .refl hcur hok
  refine steady_withMaterialized hok hcur disk _ fun node hmemory => ?_
  split
  · refine .of_node hok hcur (fun _ hi => ⟨hi, rfl, rfl⟩) rfl rfl fun hram => ?_
    rw [nodes_setNode]
    split
    · rename_i hn
      subst hn
      exact hmemory hram.memory
    · rfl
  · rename_i hbehind
    rw [nodes_setNode, if_pos rfl] at hbehind ⊢
    refine Steady.of_update hok hcur (v.openFiles slot).node (v.openFiles slot).offset
      (buffer.take (min buffer.length (nodeCapacity - (v.openFiles slot).offset)))
      (.setOffset rfl) rfl
      (by simp only [setOffset, bumpVersion, setNode, hcur slot (getMut_ok hget).2.1])
      (fun m hm => ?_) fun hnone => ?_
    · have hfirst := (nodes_setNode v (v.openFiles slot).node m node).trans (if_neg hm)
      exact (nodes_setNode ..).trans ((if_neg hm).trans hfirst)
    obtain rfl := hmemory hnone
    have hlen : (buffer.take (min buffer.length
        (nodeCapacity - (v.openFiles slot).offset))).length =
        min buffer.length (nodeCapacity - (v.openFiles slot).offset) := by
      rw [length_take]
      omega
    simp only [setOffset, bumpVersion, nodes_setNode, if_true, hlen]
    exact ⟨trivial, hnone, trivial, trivial, Nat.not_lt.mp hbehind⟩

theorem steady_replace {index : NodeId} {bytes : List UInt8} (hfiles : FilesKept v v')
    (hgeneration : v'.registry.generations = v.registry.generations)
    (hframes : v'.frames = v.frames.replace index (v.registry.generations index) bytes)
    (hothers : ∀ m, m ≠ index → v'.registry.nodes m = v.registry.nodes m)
    (hoccupied : (v'.registry.nodes index).occupied = (v.registry.nodes index).occupied)
    (hbacking : (v'.registry.nodes index).backing = none)
    (hlength : (v'.registry.nodes index).length = bytes.length) : Steady used v v' n g ∧
      (v.Ram index g → v'.frames.ZeroFrom index g (v'.registry.nodes index).length) := by
  have hchanged := replace_changed hok index (v.registry.generations index) bytes
  rw [← hframes] at hchanged
  have hreplace : v.Ram index g → FileFrames.Step v.frames v'.frames index g
      (v.registry.nodes index).data (v'.registry.nodes index).data
      (v.registry.nodes index).length (v'.registry.nodes index).length ∧
      v'.frames.ZeroFrom index g (v'.registry.nodes index).length := by
    intro hram
    rw [hframes, hram.generation, hlength]
    exact hok.step_replace _ _ _ bytes
  refine ⟨.of_changed hok hcur hfiles hchanged (fun _ _ _ => Nat.min_le_right _ _) hgeneration
    hothers fun hram => ⟨?_, (hreplace hram).1⟩, fun hram => (hreplace hram).2⟩
  exact ⟨hoccupied.trans hram.occupied, by rw [hgeneration, hram.generation], hbacking⟩

/-- `write_file` replaces a file that exists, and leaves zeros behind its end in the pages. -/
theorem steady_writeFile (path : Str) (bytes : List UInt8) :
    Steady used v (v.writeFile path bytes).2 n g ∧ (v.Ram n g →
      v.registry.position (·.matchesPath path) = some n → (v.writeFile path bytes).1 = .ok () →
        (v.writeFile path bytes).2.frames.ZeroFrom n g
          ((v.writeFile path bytes).2.registry.nodes n).length) := by
  have hrefl : Steady used v v n g := .refl hcur hok
  unfold writeFile
  split
  · exact ⟨hrefl, nofun⟩
  split
  · exact ⟨hrefl, nofun⟩
  split
  · rename_i index hpos
    dsimp only
    split
    · exact ⟨hrefl, nofun⟩
    split
    · exact ⟨hrefl, nofun⟩
    obtain ⟨hsteady, hzero⟩ : Steady used v { (v.setNode index { v.registry.nodes index with
      backing := none, data := zero.write 0 bytes,
      length := bytes.length }).bumpVersion index with
        frames := v.frames.replace index (v.registry.generations index) bytes } n g ∧ _ :=
      steady_replace hok hcur (fun _ hi => ⟨hi, rfl, rfl⟩) rfl rfl
      (fun m hm => (nodes_setNode ..).trans (if_neg hm))
      (by simp only [bumpVersion, nodes_setNode, if_true])
      (by simp only [bumpVersion, nodes_setNode, if_true])
      (by simp only [bumpVersion, nodes_setNode, if_true])
    refine ⟨hsteady, fun hram hn _ => ?_⟩
    obtain rfl : n = index := some.inj (hn.symm.trans hpos)
    exact hzero hram
  · rename_i hpos
    refine ⟨?_, fun _ hn => by rw [hpos] at hn; cases hn⟩
    cases hinsert : v.registry.insert path bytes true with
    | error e => exact hrefl
    | ok result =>
      obtain ⟨index, r⟩ := result
      obtain ⟨-, -, -, -, hfree, rfl⟩ := insert_ok hinsert
      refine .of_node hok hcur (fun _ hi => ⟨hi, rfl, rfl⟩) rfl rfl fun hram => ?_
      -- the node was free, so it is not the one of the file
      have hn : n ≠ index := by
        rintro rfl
        rw [hram.occupied] at hfree
        cases hfree
      exact update_of_ne hn ..

theorem steady_prepareSharedFile (disk : DiskReader) (id : OpenFileId) :
    Steady used v (v.prepareSharedFile disk id).2 n g := by
  refine steady_withOpenFile hok hcur fun slot _ => ?_
  dsimp only
  split
  · exact .refl hcur hok
  split
  · exact .refl hcur hok
  split
  · exact .refl hcur hok
  rename_i hbacking
  refine steady_withMaterialized hok hcur disk _ fun node _ => ?_
  refine .of_node hok hcur (fun _ hi => ⟨hi, rfl, rfl⟩) rfl rfl fun hram => ?_
  have hn : n ≠ (v.openFiles slot).node := by
    rintro rfl
    rw [hram.memory] at hbacking
    exact hbacking rfl
  simp only [nodes_setNode, if_neg hn]

theorem steady_cloneOpenFile (id : OpenFileId) : Steady used v (v.cloneOpenFile id).2 n g := by
  rw [cloneOpenFile_eq]
  refine steady_withOpenFile hok hcur fun slot _ => ?_
  split
  · refine .of_node hok hcur (fun i hi => ?_) rfl rfl fun _ => rfl
    obtain ⟨hocc, hnode, hgen, -⟩ := refcount_update v.openFiles slot i
    exact ⟨hocc ▸ hi, hnode, hgen⟩
  · exact .refl hcur hok

theorem steady_closeOpenFile (id : OpenFileId) : Steady used v (v.closeOpenFile id).2 n g := by
  unfold closeOpenFile withOpenFile
  cases hget : v.openFiles.getMut id with
  | error e => exact .refl hcur hok
  | ok slot =>
    dsimp only
    have hfiles : FilesKept v { v with openFiles := v.openFiles.dropId slot } := by
      intro i hi
      obtain ⟨hocc, hnode, hgen, -⟩ := dropId_occupied hi
      exact ⟨hocc, hnode, hgen⟩
    have hdrop : Steady used v { v with openFiles := v.openFiles.dropId slot } n g :=
      .of_node hok hcur hfiles rfl rfl fun _ => rfl
    split
    · rename_i hlast
      split
      · exact hdrop
      rename_i generation hgeneration
      have hnext := checkedIncrement_some hgeneration
      -- no description refers to the node any more
      have hunused : ∀ i, (v.openFiles.dropId slot i).occupied = true →
          (v.openFiles.dropId slot i).node ≠ (v.openFiles slot).node := by
        intro i hi hnode
        have hrefers := refersTo_iff.mpr ⟨i, hi, hnode⟩
        simp [hrefers] at hlast
      refine .of_frames hok hfiles (fun i hi => ?_) rfl (fun hgone => ?_) fun hram => ?_
      · exact (update_of_ne (hunused i hi) ..).trans (hdrop.current i hi)
      · simp only [update_apply]
        split
        · rename_i hn
          subst hn
          omega
        · exact hgone
      · by_cases hn : n = (v.openFiles slot).node
        · subst hn
          refine .inr ?_
          simp only [update_self, hnext, hram.generation]
          exact Nat.lt_succ_self g
        · refine .inl ?_
          simp only [update_of_ne hn, setNode_of_ne _ _ hn]
          exact ⟨hram.generation, hram.occupied, hram.memory, trivial, trivial⟩
    · exact hdrop

variable (mapping : SharedMapping)

theorem steady_writeBack (index frame count : ℕ) :
    Steady used v (v.writeBack mapping index frame count).2 n g := by
  unfold writeBack
  split
  · exact .refl hcur hok
  have hwrite : Steady used v _ n g := steady_writeMappingAt hok hcur mapping.file
    (mapping.offset + index * 4096) ((v.frames.page frame).slice 0 count)
  split
  · rename_i heq
    rwa [heq] at hwrite
  · rename_i heq
    rwa [heq] at hwrite

theorem steady_syncPages (length : ℕ) (mapping : SharedMapping) (pages : List ℕ) :
    Steady used v (syncPages length mapping v pages).2 n g := by
  induction pages generalizing v with
  | nil => exact .refl hcur hok
  | cons index pages ih =>
    unfold syncPages
    cases hframe : mapping.frame index with
    | none => exact ih hok hcur
    | some frame =>
      dsimp only
      have hback : Steady used v _ n g := steady_writeBack hok hcur mapping index frame
        (min (min (length - (mapping.offset + index * 4096)) (mapping.length - index * 4096)) 4096)
      split
      · rename_i heq
        rwa [heq] at hback
      rename_i heq
      rw [heq] at hback
      exact hback.trans (ih hback.ok hback.current)

theorem steady_syncFileMapping : Steady used v (v.syncFileMapping mapping).2 n g := by
  unfold syncFileMapping
  split
  · exact .refl hcur hok
  · exact steady_syncPages hok hcur _ mapping _

theorem steady_reclaimUnused (unused : ℕ → Bool) :
    Steady (unused · = false) v { v with frames := v.frames.reclaimUnused unused } n g := by
  have hrenewed : FileFrames.Renewed v.frames (v.frames.reclaimUnused unused) unused
      fun _ => False := hok.reclaimUnused
  exact ⟨.of_registry (.refl v) hcur rfl hrenewed.ok hrenewed.held
    fun _ => hrenewed.tail fun _ hnew => hnew.elim,
    fun _ _ hgap => hrenewed.gap hgap fun _ _ _ hnew => hnew.elim⟩

/-! ## Mapping and unmapping -/

theorem steady_mapFileShared (disk : DiskReader) (file : OpenFileId) (offset length : ℕ) :
    Steady used v (v.mapFileShared disk file offset length).2 n g ∧
      ∀ m, (v.mapFileShared disk file offset length).1 = some m →
        4096 ∣ m.offset ∧ ∀ j, m.frame j = none := by
  have hrefl : Steady used v v n g := .refl hcur hok
  unfold mapFileShared
  split
  · exact ⟨hrefl, nofun⟩
  split
  · exact ⟨hrefl, nofun⟩
  split
  · exact ⟨hrefl, nofun⟩
  have hprepare : Steady used v _ n g := steady_prepareSharedFile hok hcur disk file
  split
  · rename_i v₁ heq
    rw [heq] at hprepare
    exact ⟨hprepare, nofun⟩
  rename_i v₁ heq
  rw [heq] at hprepare
  have hclone : Steady used v₁ _ n g := steady_cloneOpenFile hprepare.ok hprepare.current file
  unfold mapFileLazy
  split
  · exact ⟨hprepare, nofun⟩
  split
  · exact ⟨hprepare, nofun⟩
  rename_i size hsize
  split
  · exact ⟨hprepare, nofun⟩
  split
  · rename_i v₂ heq'
    rw [heq'] at hclone
    exact ⟨hprepare.trans hclone, nofun⟩
  · rename_i v₂ heq'
    rw [heq'] at hclone
    refine ⟨hprepare.trans hclone, fun m hm => ?_⟩
    cases hm
    exact ⟨mappedSize_aligned hsize, fun _ => rfl⟩

theorem steady_unmapAnonymous (unused : ℕ → Bool) :
    Steady (unused · = false) v (v.unmapAnonymous mapping unused).2 n g := by
  have hsync : Steady (unused · = false) v _ n g := steady_syncFileMapping hok hcur mapping
  unfold unmapAnonymous
  split
  · rename_i v₁ heq
    rwa [heq] at hsync
  rename_i v₁ heq
  rw [heq] at hsync
  have hclose : Steady (unused · = false) v₁ _ n g :=
    steady_closeOpenFile hsync.ok hsync.current mapping.file
  exact (hsync.trans hclose).trans (steady_reclaimUnused hclose.ok hclose.current unused)

/-- `evict_file_page` takes the page out of the mapping, or fails and leaves the mapping. -/
theorem steady_evictFilePage (index : ℕ) (unused : ℕ → Bool) :
    ((v.evictFilePage mapping index unused).2.1 =
        { mapping with frame := update mapping.frame index none } ∧
      Steady (unused · = false) v (v.evictFilePage mapping index unused).2.2 n g) ∨
    ((v.evictFilePage mapping index unused).2.1 = mapping ∧
      Steady (fun _ => True) v (v.evictFilePage mapping index unused).2.2 n g) := by
  unfold evictFilePage
  split
  · exact .inr ⟨rfl, .refl hcur hok⟩
  rename_i frame hframe
  split
  · rename_i v₁ heq
    have hback : Steady (fun _ => True) v _ n g := steady_writeBack hok hcur mapping index
      frame (min (mapping.length - index * 4096) 4096)
    rw [heq] at hback
    exact .inr ⟨rfl, hback⟩
  · rename_i v₁ heq
    have hback : Steady (unused · = false) v _ n g := steady_writeBack hok hcur mapping index
      frame (min (mapping.length - index * 4096) 4096)
    rw [heq] at hback
    exact .inl ⟨rfl, hback.trans (steady_reclaimUnused hback.ok hback.current unused)⟩

end Calls

/-! ## Faults -/

theorem length_overlay (f : FileFrames) (node : NodeId) (generation offset : ℕ)
    (bytes : List UInt8) : (f.overlay node generation offset bytes).length = bytes.length := by
  unfold overlay
  induction f.sharedEntries node generation generalizing bytes with
  | nil => rfl
  | cons e entries ih =>
    rw [foldl_cons, ih]
    unfold overlayEntry
    dsimp only
    split
    · simp only [length_append, length_take, length_slice, length_drop]
      omega
    · rfl

/-- Reading at a position changes nothing, and returns bytes of the file only. -/
theorem readFrom_at (disk : DiskReader) (id : OpenFileId) (offset : ℕ) (buffer : List UInt8)
    (generation : Option ℕ) : (v.readFrom disk id (some offset) buffer generation).2 = v ∧
      ∀ slot bytes, v.openFiles.getMut id = .ok slot →
        (v.readFrom disk id (some offset) buffer generation).1 = .ok bytes →
        (v.registry.nodes (v.openFiles slot).node).backing = none →
          offset ≤ (v.registry.nodes (v.openFiles slot).node).length ∧
          bytes.length = min ((v.registry.nodes (v.openFiles slot).node).length - offset)
            buffer.length := by
  unfold readFrom withOpenFile
  cases hget : v.openFiles.getMut id with
  | error e => exact ⟨rfl, nofun⟩
  | ok slot =>
    dsimp only [getD_some]
    split
    · exact ⟨rfl, nofun⟩
    split
    · exact ⟨rfl, nofun⟩
    split
    · exact ⟨rfl, nofun⟩
    rename_i hbehind
    constructor
    · split <;> rfl
    rintro slot' bytes ⟨⟩ hread hbacking
    rw [hbacking] at hread
    obtain rfl := Except.ok.inj hread
    rw [length_overlay, length_slice]
    exact ⟨Nat.not_lt.mp hbehind, rfl⟩

/-- `file_frames::map` is about to load a page of a file in memory: the description has this file,
the page is not in the cache and lies in the file, and there is a slot and a frame for it. -/
structure Loads (v : State) (n : NodeId) (g : ℕ) (file : OpenFileId)
    (generation offset count : ℕ) (fresh : Option ℕ) (unused : ℕ → Bool) : Prop where
  file : ∃ slot, v.openFiles.getMut file = .ok slot ∧ (v.openFiles slot).node = n ∧
    (v.openFiles slot).generation = g
  generation : generation = g
  absent : ∀ c e, v.frames.cache c = some e → Shared n g e → e.key.offset ≠ offset
  inside : offset + count ≤ (v.registry.nodes n).length
  room : ∃ c, ∀ e, v.frames.cache c = some e → unused e.frame = true
  fresh : fresh.isSome

/-- A page that `file_frames::map` has loaded: its bytes come from the file, and it is zero behind
them. -/
structure Loaded (v v' : State) (position size : ℕ) (fresh : Option ℕ)
    (loads : NodeId → ℕ → Prop) (e : FrameEntry) : Prop where
  frame : fresh = some e.frame
  offset : e.key.offset = position
  count : e.key.count = size
  zero : ∀ q, size ≤ q → (v'.frames.page e.frame).get q = 0
  inside : (v.registry.nodes e.key.node).backing = none →
    position + size ≤ (v.registry.nodes e.key.node).length
  loads : ∀ n g, v.Ram n g → Shared n g e → loads n g

def PageOf (v : State) (file : OpenFileId) (generation offset frame : ℕ) : Prop :=
  ∃ c e, v.frames.cache c = some e ∧ e.frame = frame ∧ e.key.generation = generation ∧
    e.key.offset = offset ∧ ∀ slot : Fin maxOpenFiles, slot.val = file →
      (v.openFiles slot).occupied = true → e.key.node = (v.openFiles slot).node

theorem get_ofList_of_le {bytes : List UInt8} {q : ℕ} (h : bytes.length ≤ q) :
    (Buffer.ofList bytes : Buffer 4096).get q = 0 := by
  rw [Buffer.ofList, Buffer.get_ofFn]
  split
  · rw [List.getD_eq_default _ _ h]
  · rfl

/-- What `file_frames::map` does: the new state differs in the cache only. -/
structure Faulted (v : State) (file : OpenFileId) (generation offset count : ℕ)
    (fresh : Option ℕ) (unused : ℕ → Bool) (loads : NodeId → ℕ → Prop) (r : Option ℕ × State) :
    Prop where
  registry : r.2.registry = v.registry
  openFiles : r.2.openFiles = v.openFiles
  renewed : FileFrames.Renewed v.frames r.2.frames unused (Loaded v r.2 offset count fresh loads)
  mapped : ∀ frame, r.1 = some frame → PageOf r.2 file generation offset frame

variable {generation offset : ℕ} {fresh : Option ℕ}

theorem mapFrame_spec (hok : v.frames.Ok) (disk : DiskReader) (file : OpenFileId)
    {count : ℕ} (unused : ℕ → Bool) (haligned : 4096 ∣ offset) (hshort : count ≤ 4096)
    (hfresh : ∀ c e, v.frames.cache c = some e → fresh ≠ some e.frame) :
    Faulted v file generation offset count fresh unused
      (fun n g => v.Loads n g file generation offset count fresh unused)
      (v.mapFrame disk file generation offset count fresh unused) := by
  have hrefl : ∀ new, FileFrames.Renewed v.frames v.frames unused new := fun new =>
    hok.renewed (fun c e he _ => ⟨e, he, .refl e⟩) fun c e he => ⟨e, he, rfl, rfl, rfl⟩
  unfold mapFrame
  split
  · exact ⟨rfl, rfl, hrefl _, nofun⟩
  rename_i slot hget
  lift_lets
  intro entry
  split
  · exact ⟨rfl, rfl, hrefl _, nofun⟩
  rename_i hgen
  intro key src aged v₁ found src₁
  have haged : ∀ new, FileFrames.Renewed v.frames aged unused new := fun new =>
    hok.setAges fun e => min (e.age + 1) (2 ^ 64 - 1)
  have hokAged : aged.Ok := (haged fun _ => False).ok
  have hfresh' : ∀ c e, aged.cache c = some e → fresh ≠ some e.frame := by
    intro c e he
    obtain ⟨e₀, he₀, hstays⟩ | hnew := (haged fun _ => False).entry c e he
    · rw [hstays.frame]
      exact hfresh c e₀ he₀
    · exact hnew.elim
  split
  · -- the page is there
    rename_i i e hfound
    obtain ⟨i', hi', hmap⟩ := bind_eq_some_iff.mp hfound
    obtain ⟨e', he', heq⟩ := map_eq_some_iff.mp hmap
    obtain ⟨rfl, rfl⟩ := Prod.mk.inj heq
    have hmatch := find?_some hi'
    simp only [he', any_some, Bool.and_eq_true, beq_iff_eq] at hmatch
    refine ⟨rfl, rfl, (haged fun _ => False).trans (hokAged.setAge he' 0), fun frame hframe => ?_⟩
    cases hframe
    refine ⟨i', _, update_self .., rfl, hmatch.1.1.1.1.2, hmatch.1.1.2, fun slot' hslot' _ => ?_⟩
    obtain rfl : slot' = slot := Fin.ext (hslot'.trans (getMut_ok hget).1.symm)
    exact hmatch.1.1.1.1.1
  · rename_i hfound
    have hread := readFrom_at (v := v₁) disk file offset (replicate count 0) (some generation)
    split
    · rename_i e v₂ hres
      rw [hres] at hread
      obtain rfl := hread.1
      exact ⟨rfl, rfl, haged _, nofun⟩
    rename_i bytes v₂ hres
    rw [hres] at hread
    obtain rfl := hread.1
    split
    · exact ⟨rfl, rfl, haged _, nofun⟩
    rename_i hlength
    split
    · exact ⟨rfl, rfl, haged _, nofun⟩
    rename_i i hslot
    have hunused := slotFor_unused hslot
    split
    · exact ⟨rfl, rfl, (haged fun _ => False).trans (hokAged.drop hunused),
        nofun⟩
    rename_i frame
    -- no entry has the page, also after one has made room
    have hnone : ∀ c e, aged.cache c = some e → e.key.shared = true →
        e.key.node = entry.node → e.key.generation = generation → e.key.offset ≠ offset := by
      intro c e he hshared hnode hgeneration hoff
      obtain ⟨hversion, hsnapshot⟩ := hokAged.plain c e he hshared
      cases hcase : found with
      | none =>
        have hno := find?_eq_none.mp hcase c (mem_finRange c)
        refine hno ?_
        have hcache : v₁.frames.cache c = some e := he
        simp [hcache, hshared, hversion, hsnapshot, hnode, hgeneration, hoff, key]
      | some i' =>
        have hsome := List.find?_some hcase
        obtain ⟨e', he', -⟩ := (Option.any_eq_true ..).mp hsome
        rw [hcase] at hfound
        simp [he'] at hfound
    have hdrop : FileFrames.Renewed aged
        { aged with cache := update aged.cache i none } unused fun _ => False :=
      hokAged.drop hunused
    have hold : ∀ c e, update aged.cache i none c = some e → aged.cache c = some e := by
      intro c e he
      by_cases hc : c = i
      · subst hc
        cases he.symm.trans (update_self ..)
      · exact (update_of_ne hc ..).symm.trans he
    have hload : FileFrames.Renewed { aged with cache := update aged.cache i none }
        ⟨update (update aged.cache i none) i (some ⟨key, frame, 0⟩),
          update aged.page frame (ofList bytes)⟩ unused (· = ⟨key, frame, 0⟩) :=
      hdrop.ok.load (ofList bytes) (update_self ..)
        (fun c e he heq => hfresh' c e (hold c e he) (congrArg some heq.symm)) haligned hshort
        ⟨rfl, rfl⟩ fun c e he => hnone c e (hold c e he)
    refine ⟨rfl, rfl, (haged fun _ => False).trans (hdrop.trans (hload.mono ?_)), ?_⟩
    · rintro e rfl
      have hlen : bytes.length = count := not_not.mp hlength
      have hinside : (v.registry.nodes entry.node).backing = none →
          offset + count ≤ (v.registry.nodes entry.node).length := by
        intro hbacking
        have hbytes := hread.2 slot bytes hget rfl hbacking
        change offset ≤ (v.registry.nodes entry.node).length ∧
          bytes.length = min ((v.registry.nodes entry.node).length - offset) _ at hbytes
        omega
      refine ⟨rfl, rfl, rfl, fun q hq => ?_, hinside, fun n g hram hshared => ?_⟩
      · have hpage : update v₁.frames.page frame (ofList bytes) frame =
            ofList bytes := update_self ..
        simp only [hpage]
        exact get_ofList_of_le (hlen ▸ hq)
      simp only [Shared, key, Bool.and_eq_true, beq_iff_eq, true_and] at hshared
      obtain ⟨rfl, rfl⟩ := hshared
      have hcached : ∀ c e, v.frames.cache c = some e →
          ∃ e', aged.cache c = some e' ∧ e'.key = e.key ∧ e'.frame = e.frame :=
        fun c e he => ⟨_, map_eq_some_iff.mpr ⟨e, he, rfl⟩, rfl, rfl⟩
      refine ⟨⟨slot, hget, rfl, ?_⟩, rfl, fun c e he hshared => ?_, hinside hram.memory,
        ⟨i, fun e he => ?_⟩, rfl⟩
      · have hok := not_not.mp hgen
        simp only [fileGeneration, hget] at hok
        split at hok
        · cases hok
        · exact Except.ok.inj hok
      · obtain ⟨e', he', hkey, -⟩ := hcached c e he
        simp only [Shared, Bool.and_eq_true, beq_iff_eq, ← hkey] at hshared
        exact hkey ▸ hnone c e' he' hshared.1.1 hshared.1.2 hshared.2
      · obtain ⟨e', he', -, hframe⟩ := hcached i e he
        exact hframe ▸ hunused e' he'
    · intro frame' hframe'
      cases hframe'
      refine ⟨i, _, update_self .., rfl, rfl, rfl, fun slot' hslot' _ => ?_⟩
      obtain rfl : slot' = slot := Fin.ext (hslot'.trans (getMut_ok hget).1.symm)
      rfl

variable {file : OpenFileId} {unused : ℕ → Bool}

/-- The page is in the cache afterwards. -/
theorem Loads.mapFrame {count : ℕ}
    (h : v.Loads n g file generation offset count fresh unused) (hram : v.Ram n g)
    (disk : DiskReader) : ∃ c e,
      (v.mapFrame disk file generation offset count fresh unused).2.frames.cache c = some e ∧
        Shared n g e ∧ fresh = some e.frame := by
  obtain ⟨⟨slot, hget, rfl, rfl⟩, rfl, habsent, hinside, ⟨c, hc⟩, hfresh⟩ := h
  obtain ⟨frame, rfl⟩ := isSome_iff_exists.mp hfresh
  have hgen : v.fileGeneration file = .ok (v.openFiles slot).generation := by
    simp [fileGeneration, hget, hram.occupied, hram.generation]
  unfold State.mapFrame
  rw [hget]
  dsimp only
  rw [if_neg (not_not.mpr hgen)]
  generalize haged : ({ v.frames with cache := fun i => (v.frames.cache i).map fun e =>
    { e with age := min (e.age + 1) (2 ^ 64 - 1) } } : FileFrames) = aged
  rw [find?_eq_none.mpr fun i _ hi => ?_]
  · have hread := readFrom_at (v := { v with frames := aged }) disk file offset
      (replicate count 0) (some (v.openFiles slot).generation)
    have hle : ¬offset > (v.registry.nodes (v.openFiles slot).node).length := by omega
    have hok : ∃ bytes, (readFrom disk { v with frames := aged } file (some offset)
        (replicate count 0) (some (v.openFiles slot).generation)).1 = .ok bytes := by
      simp [readFrom, withOpenFile, hget, hram.generation, hram.occupied, hram.memory, hle]
    obtain ⟨bytes, hbytes⟩ := hok
    have hlen := (hread.2 slot bytes hget hbytes hram.memory).2
    rw [length_replicate, min_eq_right (Nat.le_sub_of_add_le' hinside)] at hlen
    have hslot : ∀ e, aged.cache c = some e → unused e.frame = true := by
      rw [← haged]
      intro e he
      obtain ⟨e₀, he₀, rfl⟩ := map_eq_some_iff.mp he
      exact hc e₀ he₀
    obtain ⟨i, hi⟩ := isSome_iff_exists.mp (slotFor_isSome hslot)
    generalize readFrom disk { v with frames := aged } file _ _ _ = result at hread hbytes
    obtain ⟨_, v₁⟩ := result
    obtain rfl := hread.1
    obtain rfl := hbytes
    simp only [bind_none, hlen, not_true, if_false, hi, ne_eq]
    exact ⟨i, _, update_self .., by simp [Shared], rfl⟩
  · obtain ⟨e, he, hmatch⟩ := (Option.any_eq_true ..).mp hi
    obtain ⟨e₀, he₀, rfl⟩ := map_eq_some_iff.mp he
    simp only [Bool.and_eq_true, beq_iff_eq] at hmatch
    refine habsent i e₀ he₀ ?_ hmatch.1.1.2
    simp [Shared, hmatch.1.2, hmatch.1.1.1.1.1, hmatch.1.1.1.1.2]

theorem Faulted.evolves {count : ℕ} {loads : NodeId → ℕ → Prop} {r : Option ℕ × State}
    (h : Faulted v file generation offset count fresh unused loads r) (hcur : v.Current) :
    Evolves (unused · = false) v r.2 n g := by
  refine .of_registry (fun i hi => ?_) hcur h.registry h.renewed.ok h.renewed.held
    fun hram => h.renewed.tail fun e hloaded hshared q hq hlength => hloaded.zero q ?_
  · rw [h.openFiles] at hi ⊢
    exact ⟨hi, rfl, rfl⟩
  -- the bytes that are loaded lie in the file
  simp only [FileFrames.Shared, Bool.and_eq_true, beq_iff_eq] at hshared
  have hinside := hloaded.inside
  rw [hshared.1.2] at hinside
  have hend := hinside hram.memory
  rw [hloaded.offset] at hlength
  omega

/-- A fault is about to load a page of a file in memory. -/
structure FaultLoads (v : State) (n : NodeId) (g : ℕ) (m : SharedMapping) (index : ℕ)
    (fresh : Option ℕ) (unused : ℕ → Bool) : Prop where
  page : index * 4096 < m.size
  absent : m.frame index = none
  loads : v.Loads n g m.file m.generation (m.offset + index * 4096)
    (min (m.length - index * 4096) 4096) fresh unused

/-- `populate_file_page` calls `file_frames::map`, and adds its frame to the mapping. -/
theorem populateFilePage_spec (hok : v.frames.Ok) (disk : DiskReader) (m : SharedMapping)
    (haligned : 4096 ∣ m.offset) (index : ℕ) (unused : ℕ → Bool)
    (hfresh : ∀ c e, v.frames.cache c = some e → fresh ≠ some e.frame) :
    ∃ r, Faulted v m.file m.generation (m.offset + index * 4096)
        (min (m.length - index * 4096) 4096) fresh unused
        (fun n g => v.FaultLoads n g m index fresh unused) r ∧
      (v.populateFilePage disk m index fresh unused).2.2 = r.2 ∧
      ((v.populateFilePage disk m index fresh unused).2.1 = m ∨
        ∃ frame, r.1 = some frame ∧ index ∈ m.pages ∧
          (v.populateFilePage disk m index fresh unused).2.1 =
            { m with frame := update m.frame index (some frame) }) := by
  unfold populateFilePage
  split
  · refine ⟨(none, v), ⟨rfl, rfl, ?_, nofun⟩, rfl, .inl rfl⟩
    exact hok.renewed (fun c e he _ => ⟨e, he, .refl e⟩) fun c e he => ⟨e, he, rfl, rfl, rfl⟩
  rename_i hpage
  have hspec : Faulted v m.file m.generation (m.offset + index * 4096)
      (min (m.length - index * 4096) 4096) fresh unused _ _ :=
    mapFrame_spec hok disk m.file unused (by omega) (Nat.min_le_right _ _) hfresh
  have habsent : m.frame index = none := by simpa using fun hsome => hpage (.inr hsome)
  refine ⟨_, { hspec with renewed := hspec.renewed.mono fun e hloaded => { hloaded with
    loads := fun n g hram hshared => ⟨by omega, habsent, hloaded.loads n g hram hshared⟩ } }, ?_⟩
  dsimp only
  split
  · rename_i v₁ heq
    exact ⟨by rw [heq], .inl rfl⟩
  rename_i frame v₁ heq
  refine ⟨by rw [heq], .inr ⟨frame, by rw [heq], ?_, rfl⟩⟩
  rw [SharedMapping.pages, mem_range]
  omega

theorem FaultLoads.populateFilePage {m : SharedMapping} {index : ℕ}
    (h : v.FaultLoads n g m index fresh unused) (hram : v.Ram n g) (disk : DiskReader) :
    ∃ c e, (v.populateFilePage disk m index fresh unused).2.2.frames.cache c = some e ∧
      Shared n g e ∧ fresh = some e.frame := by
  have hpage := h.page
  have hcond : ¬(index * 4096 ≥ m.size ∨ (m.frame index).isSome) := by simp [h.absent, hpage]
  have hmapped := h.loads.mapFrame hram disk
  unfold State.populateFilePage
  rw [if_neg hcond]
  dsimp only
  split <;> rename_i heq <;> rwa [heq] at hmapped

theorem PageOf.evolves {frame : ℕ}
    (h : PageOf v file generation offset frame) (hevolves : Evolves used v v' n g)
    (hused : used frame) : PageOf v' file generation offset frame := by
  obtain ⟨c, e, he, rfl, hgeneration, hoff, hnode⟩ := h
  obtain ⟨e', he', hsame⟩ := hevolves.held c e he hused
  refine ⟨c, e', he', hsame.frame, hsame.generation.trans hgeneration, hsame.offset.trans hoff,
    fun slot hslot hoccupied => ?_⟩
  obtain ⟨hoccupied, hnode', -⟩ := hevolves.files slot hoccupied
  rw [hsame.node, hnode', hnode slot hslot hoccupied]

/-! ## What `read_at` returns -/

/-- Every page of the file in the cache shows the bytes that `read_at` returns through a
description of the file, open already or not. -/
def Coherent (v : State) (n : NodeId) (g : ℕ) : Prop :=
  ∀ (openFiles : OpenFileTable) (reader : Fin maxOpenFiles),
    Reads { v with openFiles } reader n g → ∀ disk c e, v.frames.cache c = some e →
      FileFrames.Shared n g e → ∀ q, q < 4096 → e.key.offset + q < (v.registry.nodes n).length →
        readAt disk { v with openFiles } reader (e.key.offset + q) 1 =
          .ok [(v.frames.page e.frame).get q]

theorem readAt_byte {reader : Fin maxOpenFiles} (hram : v.Ram n g) (hreads : Reads v reader n g)
    (disk : DiskReader) {p : ℕ} (hp : p < (v.registry.nodes n).length) :
    v.readAt disk reader p 1 = .ok [v.frames.byteAt n g (v.registry.nodes n).data p] := by
  have hcount : min ((v.registry.nodes n).length - p) 1 = 1 := by omega
  have hsingle : ∀ l : List UInt8, l.length = 1 → l = [l.getD 0 0] := by
    intro l hl
    obtain ⟨b, rfl⟩ := length_eq_one_iff.mp hl
    rfl
  have hslice : (v.registry.nodes n).data.slice p 1 = [(v.registry.nodes n).data.get p] := rfl
  unfold readAt readFrom withOpenFile
  rw [hreads.getMut]
  simp only [hreads.node, hreads.generation, getD_some, any_none, hram.occupied,
    hram.memory, length_replicate, hcount, hslice, Bool.not_true, Bool.false_eq_true, if_false,
    show ¬p > (v.registry.nodes n).length by omega]
  rw [byteAt, ← hsingle _ (length_overlay ..)]

theorem coherent_iff (hok : v.frames.Ok) (hram : v.Ram n g) : v.Coherent n g ↔ v.GapOk n g := by
  rw [GapOk, ← hok.coherent_iff]
  constructor
  · intro h c e he hshared q hq hlength
    -- any table with one description of the file will do
    have hreads : Reads { v with openFiles := fun _ => ⟨n, g, 0, 1, true⟩ } ⟨0, by decide⟩ n g :=
      ⟨rfl, Nat.one_pos, rfl, rfl⟩
    have hbyte := h _ _ hreads (fun _ _ bytes => (.ok 0, bytes)) c e he hshared q hq hlength
    have hram' : Ram { v with openFiles := fun _ => ⟨n, g, 0, 1, true⟩ } n g :=
      ⟨hram.occupied, hram.generation, hram.memory⟩
    rw [readAt_byte hram' hreads _ hlength] at hbyte
    exact (cons.inj (Except.ok.inj hbyte)).1
  · intro h openFiles reader hreads disk c e he hshared q hq hlength
    have hram' : Ram { v with openFiles } n g := ⟨hram.occupied, hram.generation, hram.memory⟩
    rw [readAt_byte hram' hreads disk hlength, h c e he hshared q hq hlength]

/-- The byte at a position behind the end of the file is zero in the pages. -/
def ZeroAt (v : State) (n : NodeId) (g p : ℕ) : Prop :=
  ∀ c e, v.frames.cache c = some e → FileFrames.Shared n g e → ∀ q, q < 4096 →
    e.key.offset + q = p → (v.registry.nodes n).length ≤ p → (v.frames.page e.frame).get q = 0

theorem ZeroAt.evolves {p : ℕ} (h : v.ZeroAt n g p) (hevolves : Evolves used v v' n g)
    (hram : v.Ram n g) (hram' : v'.Ram n g) : v'.ZeroAt n g p := by
  intro c e' he' hshared q hq hp hlength
  rw [← hp] at hlength
  obtain hzero | ⟨hbehind, e, he, hsame, hbyte⟩ :=
    hevolves.tail hram hram' c e' he' hshared q hq hlength
  · exact hzero
  rw [← hbyte]
  refine h c e he (hsame.shared_iff.mp hshared) q hq ?_ (hp ▸ hbehind)
  rw [← hsame.offset, hp]

end State

end WovenHat.Vfs
