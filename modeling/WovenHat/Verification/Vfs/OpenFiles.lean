import WovenHat.Verification.Vfs.Invariant

/-! # The identity of open files

An open description keeps its node, under the generation it was opened with, until the
last reference to it is closed. -/

namespace WovenHat.Vfs

open Library Function List Registry OpenFileTable OpenFileDescription Buffer

namespace State

variable {v v' v'' : State}

/-- The description in slot `i` refers to a file that is still the one it was opened on. -/
def Refers (v : State) (i : Fin maxOpenFiles) : Prop :=
  let node := v.registry.nodes (v.openFiles i).node
  node.occupied = true ∧ node.kind = .file ∧
    v.registry.generations (v.openFiles i).node = (v.openFiles i).generation

/-- Descriptions and nodes agree. -/
structure FilesOk (v : State) : Prop where
  count : ∀ i, (v.openFiles i).occupied = true ↔ 0 < (v.openFiles i).refcount
  live : ∀ i, (v.openFiles i).occupied = true → v.Refers i
  unnamed : ∀ n, (v.registry.nodes n).occupied = true → (v.registry.nodes n).path = [] →
    v.openFiles.refersTo n = true

/-- A description that stays open stays on its node. -/
def Holds (v v' : State) : Prop :=
  ∀ i, (v.openFiles i).occupied = true → (v'.openFiles i).occupied = true →
    (v'.openFiles i).node = (v.openFiles i).node ∧
      (v'.openFiles i).generation = (v.openFiles i).generation

/-- Every open description has a reference and a file, and its offset is inside of a file that
is still on disk. -/
structure Live (v : State) : Prop where
  count : ∀ i, (v.openFiles i).occupied = true ↔ 0 < (v.openFiles i).refcount
  live : ∀ i, (v.openFiles i).occupied = true → v.Refers i
  inside : ∀ i, (v.openFiles i).occupied = true → v.Inside i

variable {t : OpenFileTable} {n : NodeId} {slot : Fin maxOpenFiles} {op : Op} {path : Str}

theorem refersTo_iff : t.refersTo n = true ↔ ∃ i, (t i).occupied = true ∧ (t i).node = n := by
  simp [refersTo]

variable {i : Fin maxOpenFiles}

theorem dropId_of_ne (t : OpenFileTable) (h : i ≠ slot) : t.dropId slot i = t i :=
  update_of_ne h _ _

theorem dropId_occupied (h : (t.dropId slot i).occupied = true) :
    (t i).occupied = true ∧ (t.dropId slot i).node = (t i).node ∧
      (t.dropId slot i).generation = (t i).generation ∧
      (t.dropId slot i).offset = (t i).offset := by
  by_cases hi : i = slot
  · subst hi
    simp only [dropId, update_self] at h ⊢
    split
    · rename_i hzero
      rw [if_pos hzero] at h
      cases h
    · rename_i hzero
      rw [if_neg hzero] at h
      exact ⟨h, rfl, rfl, rfl⟩
  · rw [dropId_of_ne t hi] at h ⊢
    exact ⟨h, rfl, rfl, rfl⟩

theorem dropId_count (hslot : (t slot).occupied = true)
    (h : (t i).occupied = true ↔ 0 < (t i).refcount) :
    (t.dropId slot i).occupied = true ↔ 0 < (t.dropId slot i).refcount := by
  by_cases hi : i = slot
  · subst hi
    simp only [dropId, update_self]
    split
    · simp [empty]
    · simp only [hslot, true_iff]
      omega
  · rw [dropId_of_ne t hi]
    exact h

theorem refcount_update (t : OpenFileTable) (slot i : Fin maxOpenFiles) {count : ℕ} :
    let t' := update t slot { t slot with refcount := count }
    (t' i).occupied = (t i).occupied ∧ (t' i).node = (t i).node ∧
      (t' i).generation = (t i).generation ∧ (t' i).offset = (t i).offset := by
  by_cases hi : i = slot
  · subst hi
    simp
  · simp [update_of_ne hi]

/-! ## Names -/

theorem ne_nil_of_valid (h : validateAbsolutePath path = .ok ()) : path ≠ [] := by
  obtain ⟨cs, -, rfl, -⟩ := (validateAbsolutePath_iff path).mp h
  obtain ⟨rest, hrest⟩ := SeparatedPath.head_render slash cs
  simp [hrest]

/-- Renaming gives no node a name and takes none away. -/
theorem rename_node {old new : Str} {r : Registry} (h : v.registry.rename old new = .ok r) :
    r.generations = v.registry.generations ∧
      ∀ n, (r.nodes n).occupied = (v.registry.nodes n).occupied ∧
        (r.nodes n).kind = (v.registry.nodes n).kind ∧
        (r.nodes n).length = (v.registry.nodes n).length ∧
        ((r.nodes n).path = [] ↔ (v.registry.nodes n).path = []) ∧
        ((v.registry.nodes n).backing = none → (r.nodes n).backing = none) := by
  obtain ⟨hvalid, ⟨-, rfl⟩ | ⟨hne, index, hindex, rfl⟩⟩ := rename_ok h
  · exact ⟨rfl, fun _ => ⟨rfl, rfl, rfl, Iff.rfl, id⟩⟩
  obtain ⟨hold, hnew, -⟩ := validateRename_ok hvalid hne
  refine ⟨rfl, fun n => ?_⟩
  simp only [renameNodes, renameNode]
  split
  · refine ⟨rfl, rfl, rfl, ⟨fun hpath => ?_, fun hpath => ?_⟩, fun hnone => by simp [hnone]⟩
    · unfold renamePath at hpath
      split at hpath
      · exact absurd (append_eq_nil_iff.mp hpath).1 (ne_nil_of_valid hnew)
      · exact hpath
    · dsimp only
      rw [hpath]
      exact renamePath_nil (ne_nil_of_valid hold)
  · exact ⟨rfl, rfl, rfl, Iff.rfl, id⟩

/-! ## One call -/

/-- A description that is open after a call was open before, or it has just been opened. -/
theorem Effect.file (h : Effect v op v') (hi : (v'.openFiles i).occupied = true) :
    ((v.openFiles i).occupied = true ∧ (v'.openFiles i).node = (v.openFiles i).node ∧
      (v'.openFiles i).generation = (v.openFiles i).generation) ∨
    ((v.openFiles i).occupied = false ∧ v'.Refers i ∧ (v'.openFiles i).offset = 0) := by
  cases h with
  | touched ht =>
    obtain ⟨hocc, hnode, hgen, -⟩ := ht.file i
    exact .inl ⟨hocc ▸ hi, hnode, hgen⟩
  | @opened _ _ slot hocc hfile hslot =>
    by_cases his : i = slot
    · subst his
      refine .inr ⟨hslot, ?_⟩
      simp only [Refers, update_self]
      exact ⟨⟨hocc, hfile, trivial⟩, trivial⟩
    · dsimp only at hi ⊢
      rw [update_of_ne his] at hi ⊢
      exact .inl ⟨hi, rfl, rfl⟩
  | cloned =>
    obtain ⟨hocc, hnode, hgen, -⟩ := refcount_update v.openFiles _ i
    exact .inl ⟨hocc ▸ hi, hnode, hgen⟩
  | closed | freed =>
    obtain ⟨hocc, hnode, hgen, -⟩ := dropId_occupied hi
    exact .inl ⟨hocc, hnode, hgen⟩
  | _ => exact .inl ⟨hi, rfl, rfl⟩

theorem Live.keeps (h : v.Live) (hi : (v.openFiles i).occupied = true)
    (hfile : (v'.openFiles i).node = (v.openFiles i).node ∧
      (v'.openFiles i).generation = (v.openFiles i).generation ∧
      (v'.openFiles i).offset = (v.openFiles i).offset)
    (hgen : v'.registry.generations (v.openFiles i).node =
      v.registry.generations (v.openFiles i).node)
    (hnode : v'.registry.nodes (v.openFiles i).node = v.registry.nodes (v.openFiles i).node) :
    v'.Refers i ∧ v'.Inside i := by
  obtain ⟨hn, hg, ho⟩ := hfile
  simp only [Refers, Inside, hn, hg, ho, hgen, hnode]
  exact ⟨h.live i hi, h.inside i hi⟩

theorem Live.ne_of_free (h : v.Live) (hi : (v.openFiles i).occupied = true)
    (hfree : (v.registry.nodes n).occupied = false) : (v.openFiles i).node ≠ n := by
  rintro rfl
  rw [(h.live i hi).1] at hfree
  cases hfree

theorem Effect.keeps (h : Effect v op v') (hv : v.Live) (hi : (v.openFiles i).occupied = true)
    (hi' : (v'.openFiles i).occupied = true) : v'.Refers i ∧ v'.Inside i := by
  cases h with
  | touched ht =>
    obtain ⟨-, hn, hg, -⟩ := ht.file i
    refine ⟨?_, ht.inside i (hv.inside i hi)⟩
    rw [Refers, hn, hg, ht.generation, (ht.node _).1, (ht.node _).2.1]
    exact hv.live i hi
  | placed hfree =>
    exact hv.keeps hi ⟨rfl, rfl, rfl⟩ rfl (setNode_of_ne _ _ (hv.ne_of_free hi hfree))
  | renamed hok =>
    obtain ⟨hgen, hnode⟩ := rename_node hok
    obtain ⟨hocc, hkind, hlen, -, hback⟩ := hnode (v.openFiles i).node
    simp only [Refers, Inside, hgen, hocc, hkind, hlen]
    exact ⟨hv.live i hi, (hv.inside i hi).imp_left hback⟩
  | @unnamed _ n _ _ _ _ _ hocc hkind _ hback =>
    by_cases hn : (v.openFiles i).node = n
    · simp only [Refers, Inside, setNode, hn, setNode_self]
      exact ⟨⟨hocc, hkind, hn ▸ (hv.live i hi).2.2⟩, .inl hback⟩
    · exact hv.keeps hi ⟨rfl, rfl, rfl⟩ rfl (setNode_of_ne _ _ hn)
  | @removed _ n _ hn hclosed hok =>
    obtain ⟨m, generation, hm, -, rfl⟩ := remove_ok hok
    cases hn.symm.trans hm
    have hne : (v.openFiles i).node ≠ n := by
      rintro rfl
      exact hclosed ⟨(hv.live i hi).2.1, refersTo_iff.mpr ⟨i, hi, rfl⟩⟩
    exact hv.keeps hi ⟨rfl, rfl, rfl⟩ (update_of_ne hne _ _) (setNode_of_ne _ _ hne)
  | @opened _ _ slot _ _ hslot =>
    have his : i ≠ slot := by
      rintro rfl
      rw [hslot] at hi
      cases hi
    refine hv.keeps hi ?_ rfl rfl
    simp only [update_of_ne his, and_self]
  | cloned => exact hv.keeps hi (refcount_update v.openFiles _ _).2 rfl rfl
  | closed => exact hv.keeps hi (dropId_occupied hi').2 rfl rfl
  | @freed slot _ _ _ _ hlast =>
    have hne : (v.openFiles i).node ≠ (v.openFiles slot).node := by
      intro heq
      rw [← (dropId_occupied hi').2.1] at heq
      rw [refersTo_iff.mpr ⟨i, hi', heq⟩] at hlast
      cases hlast
    exact hv.keeps hi (dropId_occupied hi').2 (update_of_ne hne _ _) (setNode_of_ne _ _ hne)

theorem Effect.count (h : Effect v op v') (hv : v.Live) (i : Fin maxOpenFiles) :
    (v'.openFiles i).occupied = true ↔ 0 < (v'.openFiles i).refcount := by
  cases h with
  | touched ht =>
    rw [(ht.file i).1, (ht.file i).2.2.2]
    exact hv.count i
  | @opened _ _ slot =>
    by_cases his : i = slot
    · subst his
      simp
    · simp only [update_of_ne his]
      exact hv.count i
  | @cloned slot hslot =>
    by_cases his : i = slot
    · subst his
      simp [hslot]
    · simp only [update_of_ne his]
      exact hv.count i
  | closed hslot => exact dropId_count hslot (hv.count i)
  | freed hslot => exact dropId_count hslot (hv.count i)
  | _ => exact hv.count i

theorem Effect.live (h : Effect v op v') (hv : v.Live) : v'.Live := by
  have hkeeps : ∀ i, (v'.openFiles i).occupied = true → v'.Refers i ∧ v'.Inside i := by
    intro i hi
    rcases h.file hi with ⟨hbefore, -⟩ | ⟨-, hrefers, hoff⟩
    · exact h.keeps hv hbefore hi
    refine ⟨hrefers, .inr ?_⟩
    rw [hoff]
    exact Nat.zero_le _
  exact ⟨h.count hv, fun i hi => (hkeeps i hi).1, fun i hi => (hkeeps i hi).2⟩

theorem refersTo_of_kept {t' : OpenFileTable} (h : t.refersTo n = true)
    (hkept : ∀ i, (t i).occupied = true → (t i).node = n →
      (t' i).occupied = true ∧ (t' i).node = n) : t'.refersTo n = true := by
  obtain ⟨i, hi, hnode⟩ := refersTo_iff.mp h
  exact refersTo_iff.mpr ⟨i, hkept i hi hnode⟩

theorem refersTo_dropId (h : t.refersTo n = true) (hne : n ≠ (t slot).node) :
    (t.dropId slot).refersTo n = true := by
  refine refersTo_of_kept h fun i hi hnode => ?_
  rw [dropId_of_ne t (by rintro rfl; exact hne hnode.symm)]
  exact ⟨hi, hnode⟩

/-- As long as generations are left, no call strands a node without a name. -/
theorem Effect.refersTo (h : Effect v op v') (hgen : ∀ n, v.registry.generations n + 1 < 2 ^ 64)
    (hv : ∀ n, (v.registry.nodes n).occupied = true → (v.registry.nodes n).path = [] →
      v.openFiles.refersTo n = true) (hocc : (v'.registry.nodes n).occupied = true)
    (hpath : (v'.registry.nodes n).path = []) : v'.openFiles.refersTo n = true := by
  cases h with
  | touched ht =>
    obtain ⟨ho, -, hp, -⟩ := ht.node n
    refine refersTo_of_kept (hv n (ho ▸ hocc) (hp ▸ hpath)) fun i hi hnode => ?_
    exact ⟨(ht.file i).1.trans hi, (ht.file i).2.1.trans hnode⟩
  | @placed _ m _ _ _ hvalid _ _ _ hnew =>
    by_cases hn : n = m
    · subst hn
      rw [setNode, setNode_self, hnew] at hpath
      exact absurd hpath (ne_nil_of_valid hvalid)
    · rw [setNode, setNode_of_ne _ _ hn] at hocc hpath
      exact hv n hocc hpath
  | renamed hok =>
    obtain ⟨ho, -, -, hp, -⟩ := (rename_node hok).2 n
    exact hv n (ho ▸ hocc) (hp.mp hpath)
  | @unnamed _ m _ _ _ _ hopen =>
    by_cases hn : n = m
    · exact hn ▸ hopen
    · rw [setNode, setNode_of_ne _ _ hn] at hocc hpath
      exact hv n hocc hpath
  | removed _ _ hok =>
    obtain ⟨m, generation, -, -, rfl⟩ := remove_ok hok
    by_cases hn : n = m
    · subst hn
      rw [setNode_self] at hocc
      cases hocc
    · rw [setNode_of_ne _ _ hn] at hocc hpath
      exact hv n hocc hpath
  | @opened _ _ slot _ _ hslot =>
    refine refersTo_of_kept (hv n hocc hpath) fun i hi hnode => ?_
    have his : i ≠ slot := by
      rintro rfl
      rw [hslot] at hi
      cases hi
    dsimp only
    rw [update_of_ne his]
    exact ⟨hi, hnode⟩
  | cloned =>
    refine refersTo_of_kept (hv n hocc hpath) fun i hi hnode => ?_
    obtain ⟨ho, hn, -⟩ := refcount_update v.openFiles _ i
    exact ⟨ho.trans hi, hn.trans hnode⟩
  | @closed slot _ hkept =>
    by_cases hn : n = (v.openFiles slot).node
    · subst hn
      by_contra hnone
      have hfull := hkept hocc hpath (Bool.eq_false_iff.mpr hnone)
      rw [checkedIncrement, if_pos (hgen _)] at hfull
      cases hfull
    · exact refersTo_dropId (hv n hocc hpath) hn
  | @freed slot _ _ _ _ _ _ hfree =>
    by_cases hn : n = (v.openFiles slot).node
    · subst hn
      rw [setNode_self, hfree] at hocc
      cases hocc
    · rw [setNode_of_ne _ _ hn] at hocc hpath
      exact refersTo_dropId (hv n hocc hpath) hn

theorem generation_freed {generation : ℕ} {generations : NodeId → ℕ} {m : NodeId}
    (h : checkedIncrement (generations m) = some generation) :
    update generations m generation n ≤ generations n + 1 := by
  by_cases hn : n = m
  · subst hn
    rw [update_self, checkedIncrement_some h]
  · rw [update_of_ne hn]
    exact Nat.le_succ _

theorem Effect.generation (h : Effect v op v') (n : NodeId) :
    v'.registry.generations n ≤ v.registry.generations n + 1 := by
  cases h with
  | touched ht => exact ht.generation ▸ Nat.le_succ _
  | renamed hok => exact (rename_node hok).1 ▸ Nat.le_succ _
  | removed _ _ hok =>
    obtain ⟨m, generation, -, hgen, rfl⟩ := remove_ok hok
    exact generation_freed hgen
  | freed _ _ _ hgen => exact generation_freed hgen
  | _ => exact Nat.le_succ _

/-! ## Whole runs -/

theorem Effect.holds (h : Effect v op v') : v.Holds v' := by
  intro i hi hi'
  rcases h.file hi' with ⟨-, hsame⟩ | ⟨hfree, -⟩
  · exact hsame
  · rw [hfree] at hi
    cases hi

theorem Effect.filesOk (h : Effect v op v') (hv : v.Live) (hok : v.FilesOk)
    (hgen : ∀ n, v.registry.generations n + 1 < 2 ^ 64) : v'.FilesOk :=
  ⟨(h.live hv).count, (h.live hv).live, fun _ => h.refersTo hgen hok.unnamed⟩

theorem Live.performAll (h : v.Live) (calls : List (DiskReader × Op)) :
    (v.performAll calls).Live := by
  induction calls generalizing v with
  | nil => exact h
  | cons call rest ih => exact ih ((Effect.perform call.1 call.2).live h)

/-- Each call raises a generation by one at most, so it takes as many calls to use them up. -/
theorem FilesOk.performAll (hok : v.FilesOk) (hv : v.Live) (bound : ℕ)
    (hgen : ∀ n, v.registry.generations n ≤ bound) (calls : List (DiskReader × Op))
    (hroom : bound + calls.length < 2 ^ 64) : (v.performAll calls).FilesOk ∧
      ∀ n, (v.performAll calls).registry.generations n ≤ bound + calls.length := by
  induction calls generalizing v bound with
  | nil => exact ⟨hok, hgen⟩
  | cons call rest ih =>
    rw [length_cons] at hroom
    have heffect := Effect.perform (v := v) call.1 call.2
    have hstep := heffect.filesOk hv hok fun n => by have := hgen n; omega
    have hnext := ih hstep (heffect.live hv) (bound + 1)
      (fun n => by have := hgen n; have := heffect.generation n; omega) (by omega)
    refine ⟨hnext.1, fun n => ?_⟩
    have hle := hnext.2 n
    rw [length_cons]
    change ((v.perform call.1 call.2).performAll rest).registry.generations n ≤ _
    omega

theorem live_boot (page : ℕ → Buffer 4096) : (boot page).Live :=
  ⟨fun i => by simp [boot, empty], nofun, nofun⟩

theorem filesOk_boot (page : ℕ → Buffer 4096) : (boot page).FilesOk where
  count := (live_boot page).count
  live := (live_boot page).live
  unnamed n hocc hempty := by
    have hnamed : ∀ n : NodeId, (Registry.boot.nodes n).occupied = true →
        (Registry.boot.nodes n).path ≠ [] := by decide +kernel
    exact absurd hempty (hnamed n hocc)

/-- After any calls from boot every description has a reference and a live node, and a further
call leaves every description that stays open on its node. Before `2 ^ 64` calls every node
without a name has a description. -/
theorem open_file_identity (page : ℕ → Buffer 4096) (calls : List (DiskReader × Op))
    (call : DiskReader × Op) :
    let v := (boot page).performAll calls
    let v' := v.perform call.1 call.2
    v.Live ∧ v.Holds v' ∧ v'.Live ∧ (calls.length + 1 < 2 ^ 64 → v.FilesOk ∧ v'.FilesOk) := by
  intro v v'
  have hlive : v.Live := (live_boot page).performAll calls
  have hstep : Effect v call.2 v' := Effect.perform call.1 call.2
  refine ⟨hlive, hstep.holds, hstep.live hlive, fun hcalls => ?_⟩
  have hrun := (filesOk_boot page).performAll (live_boot page) 0 (fun _ => le_refl _) calls
    (by omega)
  refine ⟨hrun.1, hstep.filesOk hlive hrun.1 fun n => ?_⟩
  have hle : v.registry.generations n ≤ 0 + calls.length := hrun.2 n
  omega

/-- A disk that answers every read with an error. -/
def noDisk : DiskReader := fun _ _ bytes => (.error (), bytes)

/-- A file is created, written and unlinked while it is open. -/
theorem open_file_identity_unlinked :
    let path := ascii ['/', 't', 'm', 'p', '/', 'x']
    let calls := [(noDisk, Op.writeFile path [1]), (noDisk, .openPath path), (noDisk, .remove path)]
    ((boot fun _ => zero).performAll calls).FilesOk :=
  ((open_file_identity _ _ (noDisk, .seek 0 0)).2.2.2 (by decide)).1

/-! ## Exhausted generations -/

def spare : NodeId := ⟨7, by decide⟩

/-- The state at boot after the spare node has been freed `g` times. -/
def reused (g : ℕ) : State :=
  { boot (fun _ => zero) with
    registry := { Registry.boot with generations := Function.update (fun _ => 0) spare g } }

theorem boot_eq_reused : boot (fun _ => zero) = reused 0 := by
  simp only [reused, update_eq_self_iff.mpr]
  rfl

def reopened (g : ℕ) : State :=
  { reused g with
    openFiles := update (fun _ => empty) ⟨0, by decide⟩ ⟨spare, g, 0, 1, true⟩ }

def unlinked (g : ℕ) : State :=
  (reopened g).setNode spare { Registry.boot.nodes spare with path := [] }

theorem valid_sparePath : validateAbsolutePath sparePath = .ok () := by
  decide +kernel

theorem openPath_reused (g : ℕ) : (reused g).perform noDisk (.openPath sparePath) = reopened g := by
  have hboot : Registry.boot.position
      (fun n => n.matchesPath sparePath && n.kind == .file) = some spare := by decide +kernel
  have hfind : (reused g).registry.position
      (fun n => n.matchesPath sparePath && n.kind == .file) = some spare := hboot
  have hempty : (finRange maxOpenFiles).find?
      (fun _ => !empty.occupied) = some ⟨0, by decide⟩ := by decide +kernel
  have hslot : (finRange maxOpenFiles).find?
      (fun i => !((reused g).openFiles i).occupied) = some ⟨0, by decide⟩ := hempty
  simp only [perform, openPath, valid_sparePath, hfind, OpenFileTable.alloc, hslot]
  simp [reopened, reused, boot]

theorem remove_reopened (g : ℕ) : (reopened g).perform noDisk (.remove sparePath) = unlinked g := by
  have hboot : Registry.boot.position (·.matchesPath sparePath) = some spare := by decide +kernel
  have hfind : (reopened g).registry.position (·.matchesPath sparePath) = some spare := hboot
  have hnode : (reopened g).registry.nodes spare = Registry.boot.nodes spare := rfl
  have hopen : (Registry.boot.nodes spare).kind = .file ∧ (reopened g).openFiles.refersTo spare :=
    ⟨rfl, refersTo_iff.mpr ⟨⟨0, by decide⟩, rfl, rfl⟩⟩
  have hdisk : materializeDiskNode noDisk (Registry.boot.nodes spare) =
      (.ok (), Registry.boot.nodes spare) := rfl
  have hsame : (reopened g).setNode spare (Registry.boot.nodes spare) = reopened g := by
    rw [← hnode]
    simp [setNode, Registry.setNode]
  simp only [perform, remove, valid_sparePath, hfind, hnode, if_pos hopen, withMaterialized, hdisk,
    hsame]
  rfl

/-- The spare node is occupied, without a name and without a description. -/
def stranded (g : ℕ) : State :=
  (reused g).setNode spare { Registry.boot.nodes spare with path := [] }

def freed (g : ℕ) : State :=
  (reused g).setNode spare { Registry.boot.nodes spare with
    path := [], occupied := false, length := 0, backing := none, data := zero }

theorem closeOpenFile_unlinked (g : ℕ) : (unlinked g).perform noDisk (.closeOpenFile 0) =
      if g + 1 < 2 ^ 64 then freed (g + 1) else stranded g := by
  have hget : (unlinked g).openFiles.getMut 0 = .ok ⟨0, by decide⟩ := rfl
  have hnode : ((unlinked g).openFiles ⟨0, by decide⟩).node = spare := rfl
  have hdrop : (unlinked g).openFiles.dropId ⟨0, by decide⟩ = fun _ => empty := by
    funext i
    by_cases hi : i = ⟨0, by decide⟩
    · subst hi
      rfl
    · rw [dropId_of_ne _ hi]
      simp [unlinked, reopened, setNode, update_of_ne hi]
  have hkept : (unlinked g).registry.nodes spare = { Registry.boot.nodes spare with path := [] } := by
    simp [unlinked, setNode]
  have hgen : (unlinked g).registry.generations spare = g := by
    simp [unlinked, reopened, reused, setNode, Registry.setNode]
  have hclosed : !refersTo (fun _ => empty) spare := by
    decide +kernel
  simp only [perform, closeOpenFile, withOpenFile, hget, hnode, hdrop, hkept, hgen]
  rw [if_pos ⟨hclosed, rfl, trivial⟩]
  by_cases hg : g + 1 < 2 ^ 64
  · rw [if_pos hg, Registry.checkedIncrement, if_pos hg]
    simp only [unlinked, reopened, freed, reused, setNode, Registry.setNode, update_idem]
    rfl
  · rw [if_neg hg, Registry.checkedIncrement, if_neg hg]
    rfl

theorem writeFile_freed (g : ℕ) : (freed g).perform noDisk (.writeFile sparePath []) = reused g := by
  have hnone : (freed 0).registry.position (·.matchesPath sparePath) = none := by decide +kernel
  have hfind : (freed g).registry.position (·.matchesPath sparePath) = none := hnone
  have hfresh : (freed 0).registry.any (·.matchesPath sparePath) = false := by decide +kernel
  have hany : (freed g).registry.any (·.matchesPath sparePath) = false := hfresh
  have hparent : (freed 0).registry.checkParent sparePath = .ok () := by decide +kernel
  have habove : (freed g).registry.checkParent sparePath = .ok () := hparent
  have hfree : (freed 0).registry.position (!·.occupied) = some spare := by decide +kernel
  have hplace : (freed g).registry.position (!·.occupied) = some spare := hfree
  have hroot : sparePath ≠ rootPath := by decide +kernel
  have hinsert : (freed g).registry.insert sparePath [] true =
      .ok (spare, (freed g).registry.setNode spare
        (Registry.insertedNode ((freed g).registry.nodes spare) sparePath [] true)) := by
    simp [Registry.insert, valid_sparePath, hany, hroot, habove, hplace]
    rfl
  have hnode : Registry.insertedNode ((freed g).registry.nodes spare) sparePath [] true =
      Registry.boot.nodes spare := by
    rfl
  simp only [perform, writeFile, valid_sparePath, length_nil, hfind, hinsert, hnode,
    withRegistry, Except.map]
  simp [freed, reused, setNode, Registry.setNode]

/-- Opening, unlinking, closing and creating the spare file again. -/
def reuse : List (DiskReader × Op) :=
  [(noDisk, .openPath sparePath), (noDisk, .remove sparePath), (noDisk, .closeOpenFile 0),
    (noDisk, .writeFile sparePath [])]

theorem performAll_reuse {g : ℕ} (hg : g + 1 < 2 ^ 64) :
    (reused g).performAll reuse = reused (g + 1) := by
  simp only [performAll, reuse, foldl_cons, foldl_nil, openPath_reused, remove_reopened,
    closeOpenFile_unlinked, if_pos hg, writeFile_freed]

theorem performAll_reuses (k : ℕ) {g : ℕ} (hg : g + k < 2 ^ 64) :
    (reused g).performAll (replicate k reuse).flatten = reused (g + k) := by
  induction k generalizing g with
  | zero => rfl
  | succ k ih =>
    rw [replicate_succ, flatten_cons, performAll, foldl_append]
    change ((reused g).performAll reuse).performAll _ = _
    rw [performAll_reuse (by omega), ih (by omega)]
    congr 1
    omega

/-- When the generation of a node is exhausted, its last close strands it: occupied, without
a name and without a description. -/
theorem exhausted_generation_strands_node :
    ∃ calls : List (DiskReader × Op), ¬((boot fun _ => zero).performAll calls).FilesOk := by
  refine ⟨(replicate (2 ^ 64 - 1) reuse).flatten ++ reuse.take 3, fun hok => ?_⟩
  have hend : (boot fun _ => zero).performAll
      ((replicate (2 ^ 64 - 1) reuse).flatten ++ reuse.take 3) = stranded (2 ^ 64 - 1) := by
    rw [boot_eq_reused, performAll, foldl_append]
    change ((reused 0).performAll _).performAll _ = _
    rw [performAll_reuses _ (by omega)]
    simp only [performAll, reuse, take_succ_cons, take_zero, foldl_cons,
      foldl_nil, openPath_reused, remove_reopened, closeOpenFile_unlinked]
    rw [if_neg (by omega), Nat.zero_add]
  rw [hend] at hok
  have hrefers := hok.unnamed spare
    (by simp only [stranded, setNode, Registry.setNode_self]; rfl)
    (by simp only [stranded, setNode, Registry.setNode_self])
  obtain ⟨i, hi, -⟩ := refersTo_iff.mp hrefers
  cases hi

end State

end WovenHat.Vfs
