import WovenHat.Verification.Fat32.CountedMutations
import WovenHat.Verification.Fat32.Reserve

/-! # Running out of space

Only `allocate_cluster` reports that there is no space, before it has changed anything; what
was allocated before is given back. -/

namespace WovenHat.Fat32

open Library Block Fallible View Volume Volume.Chain Buffer

variable {v : Volume} {d d' : Device} {w w' : View} {α : Type}

/-! ## Where there is space -/

/-- Whatever the device answers, the computation does not report that there is no space. -/
abbrev Spares (p : Fs α) : Prop :=
  Within (fun _ => True) (· ≠ .noSpace) p

instance : AllowsReads fun _ => True := ⟨trivial, fun _ => trivial⟩
instance : AllowsRecords v fun _ => True := ⟨fun _ _ => trivial⟩

variable {p : Fs α}

theorem Spares.onError (h : Spares p) (cleanup : Fs Unit) : Spares (p.onError cleanup) :=
  Meets.onError h (Calls.any cleanup)

theorem Spares.post (h : Spares p) {Q : Prop} (hfull : (p.exec d).1 = .error .noSpace) : Q :=
  absurd rfl (h.outcome (Prod.ext hfull rfl))

theorem spares_of_stores (h : Within v.Stores (· ≠ .noSpace) p) : Spares p :=
  h.imp fun _ _ => trivial

theorem spares_modifySector (lba : ℕ) (f : Sector → Sector) : Spares (modifySector lba f) :=
  (calls_readSector lba).bind fun _ _ => calls_writeSector trivial

/-! ## What a rollback restores -/

/-- The same clusters are free, the same links exist and the clusters in use hold the same
data; the values of end markers may differ. -/
structure Restored (v : Volume) (w w' : View) : Prop where
  free : ∀ c, w'.fat c = 0 ↔ w.fat c = 0
  link : ∀ c, v.linkOf w'.fat c = v.linkOf w.fat c
  data : ∀ c, w.fat c ≠ 0 → w'.data c = w.data c

theorem Restored.refl (v : Volume) (w : View) : Restored v w w :=
  ⟨fun _ => .rfl, fun _ => rfl, fun _ _ => rfl⟩

theorem Restored.chain (h : Restored v w w') (start : ℕ) (clusters : List ℕ) :
    v.Chain w' start clusters ↔ v.Chain w start clusters := by
  have hlink : v.linkOf w'.fat = v.linkOf w.fat := funext h.link
  rw [Volume.Chain, Volume.Chain, hlink]

variable {clusters : List ℕ} {first : ℕ} {start : ℕ} {slot : DirectorySlotReservation}

theorem Restored.bytes (h : Restored v w w')
    (hchain : v.Chain w start clusters) : v.bytesOf w' clusters = v.bytesOf w clusters :=
  bytesOf_congr fun c hc => h.data c (mem hchain hc).2

structure Extended (v : Volume) (w w' : View) (last new : ℕ) : Prop where
  last_range : v.isAllocatable last
  last_end : v.linkOf w.fat last = some none
  range : v.isAllocatable new
  free : w.fat new = 0
  fat : w'.fat = ((w.setFat new fat32EndMin).setFat last new).fat
  data : ∀ c ≠ new, w'.data c = w.data c

theorem Quiet.exec_freeClusterChain (h : Quiet v d)
    (hchain : v.Chain (v.view d.disk) start clusters) :
    ∃ t, (freeClusterChain v start).exec d = (.ok (), t) ∧ Quiet v t ∧
      v.view t.disk = (v.view d.disk).clear clusters := by
  have hfreed := post_freeClusterChain_of_chain h.mounted hchain
  have hevolves := evolves_exec (freeClusterChain v start) d
  rw [Post] at hfreed
  generalize (freeClusterChain v start).exec d = outcome at hfreed hevolves
  obtain ⟨r, t⟩ := outcome
  obtain rfl : r = .ok () := hfreed.succeeds h.writable h.fault
  exact ⟨t, rfl, h.evolves hevolves, hfreed.all rfl⟩

theorem Extended.rollback {last new lba offset : ℕ} {existing : Option DirectoryEntry}
    (h : Extended v w (v.view d.disk) last new) (hq : Quiet v d) :
    Restored v w (v.view ((rollbackReservedSlot v ⟨lba, offset, existing, some ⟨last, new⟩⟩).exec
      d).2.disk) := by
  have hne : new ≠ last := by
    rintro rfl
    exact linkOf_ne_zero h.last_end h.free
  obtain ⟨t, hexec, ht, hview⟩ := hq.exec_writeFatEntry h.last_range fat32EndMin
  have hend : fat32EndMin % entryModulus = fat32EndMin := rfl
  rw [hend] at hview
  have hnew : (v.view t.disk).fat new = fat32EndMin := by
    rw [hview, setFat_fat_of_ne _ hne, h.fat, setFat_fat_of_ne _ hne, setFat_fat_self]
  have hchain : v.Chain (v.view t.disk) new [new] := .last (linkOf_eq_last h.range hnew)
  obtain ⟨u, hfree, _, hview'⟩ := ht.exec_freeClusterChain hchain
  have hrun : ((rollbackReservedSlot v ⟨lba, offset, existing, some ⟨last, new⟩⟩).exec d).2 = u := by
    rw [rollbackReservedSlot]
    rw [exec_ignore, rollbackDirectoryExtension, exec_bind_ok hexec, hfree]
  -- the entries after the rollback
  have hfat : ∀ c, (v.view u.disk).fat c =
      if c = last then fat32EndMin else w.fat c := by
    intro c
    rw [hview']
    by_cases hcnew : c = new
    · rw [clear_fat_of_mem _ (by simp [hcnew]), if_neg (hcnew ▸ hne), hcnew, h.free]
    rw [clear_fat_of_not_mem _ (by simpa using hcnew), hview]
    split
    · rename_i hclast
      rw [hclast, setFat_fat_self]
    rename_i hclast
    rw [setFat_fat_of_ne _ hclast, h.fat, setFat_fat_of_ne _ hclast, setFat_fat_of_ne _ hcnew]
  rw [hrun]
  refine ⟨fun c => ?_, fun c => ?_, fun c hc => ?_⟩
  · rw [hfat]
    split
    · rename_i hclast
      subst hclast
      exact ⟨fun hzero => absurd hzero (by decide),
        fun hzero => absurd hzero (linkOf_ne_zero h.last_end)⟩
    · rfl
  · by_cases hclast : c = last
    · subst hclast
      rw [h.last_end, linkOf_eq_last h.last_range (by rw [hfat, if_pos rfl])]
    · exact linkOf_congr (by rw [hfat, if_neg hclast])
  · rw [hview', clear_data, hview, setFat_data]
    refine h.data c ?_
    rintro rfl
    exact hc h.free

/-! ## Chains -/

theorem Grown.undo (h : Grown v w (v.view d.disk) first clusters) (hq : Quiet v d) :
    Quiet v ((runIf (2 ≤ first) (freeClusterChain v first)).exec d).2 ∧
      v.view ((runIf (2 ≤ first) (freeClusterChain v first)).exec d).2.disk = w := by
  have hcleared : (v.view d.disk).clear clusters = w := by
    apply View.ext
    · funext c
      by_cases hc : c ∈ clusters
      · rw [View.clear_fat_of_mem _ hc, h.free c hc]
      · rw [View.clear_fat_of_not_mem _ hc, h.fat_eq c hc]
    · exact h.data_eq
  rcases h.chain with ⟨rfl, rfl⟩ | hchain
  · rw [clear_nil] at hcleared
    exact ⟨hq, hcleared⟩
  have hlow : 2 ≤ first := (mem hchain hchain.head_mem).1.1
  obtain ⟨t, hexec, ht, hview⟩ := hq.exec_freeClusterChain hchain
  rw [runIf, if_pos hlow, hexec]
  exact ⟨ht, hview.trans hcleared⟩

theorem Grown.eq_nil (h : Grown v w w' 0 clusters) : clusters = [] := by
  rcases h.chain with ⟨hnil, _⟩ | hchain
  · exact hnil
  · exact absurd (mem hchain hchain.head_mem).1.1 (by decide)

/-- When there is no cluster left, the clusters of the new chain are given back. -/
theorem noSpace_allocateChainLoop (count : ℕ) {previous : ℕ}
    (hq : Quiet v d) (h : Grown v w (v.view d.disk) first clusters)
    (hlast : ∀ z, clusters.getLast? = some z → z = previous) :
    (allocateChainLoop v count first previous).Post d fun r t =>
      r = .error .noSpace → Quiet v t ∧ v.view t.disk = w := by
  induction count generalizing d first previous clusters with
  | zero => exact .of_exec rfl (by rintro ⟨⟩)
  | succ count ih =>
    have halloc := post_allocateCluster hq.mounted
    have hevolves := evolves_exec (allocateCluster v) d
    rw [Post] at halloc
    rcases hexec : (allocateCluster v).exec d with ⟨r, t⟩
    rw [hexec] at halloc hevolves
    cases halloc with
    | full =>
      rw [allocateChainLoop, Post, exec_bind_error (exec_onError_error hexec)]
      exact fun _ => h.undo hq
    | missed view | torn _ _ view =>
      rw [allocateChainLoop, Post, exec_bind_error (exec_onError_error hexec)]
      rintro ⟨⟩
    | @done c _ hc hfree hview =>
      have ht := hq.evolves hevolves
      rw [allocateChainLoop]
      refine Post.step (exec_onError_ok hexec) ?_
      split
      · rename_i hfirst
        subst hfirst
        obtain rfl := h.eq_nil
        have hgrown : Grown v w (v.view t.disk) c [c] := by
          rw [hview]
          exact h.start hc hfree
        exact ih ht hgrown (by simp [eq_comm])
      · rename_i hfirst
        have hchain : v.Chain (v.view d.disk) first clusters :=
          h.chain.resolve_left fun hnil => hfirst hnil.2
        obtain ⟨z, hz⟩ := Option.isSome_iff_exists.mp (List.getLast?_isSome.mpr hchain.ne_nil)
        obtain rfl := hlast z hz
        have hprev := (mem hchain (List.mem_of_getLast? hz)).1
        obtain ⟨u, hlink, hu, hview'⟩ := ht.exec_writeFatEntry hprev c
        rw [hq.mounted.mod_eq hc, hview] at hview'
        have hgrown : Grown v w (v.view u.disk) first (clusters ++ [c]) := by
          rw [hview']
          exact h.append hq.mounted hz hc hfree
        exact Post.step (exec_onError_ok hlink) (ih hu hgrown (by simp [eq_comm]))

/-! ## Slots -/

theorem noSpace_extendDirectoryChain (hq : Quiet v d) {last : ℕ}
    (hlast : v.linkOf (v.view d.disk).fat last = some none) :
    (extendDirectoryChain v last).Post d fun r t =>
      (r = .error .noSpace → v.view t.disk = v.view d.disk) ∧
      ∀ slot, r = .ok slot → slot.existing = none ∧
        ∃ new, slot.extension = some ⟨last, new⟩ ∧
          Extended v (v.view d.disk) (v.view t.disk) last new := by
  have hrange := linkOf_allocatable hlast
  refine ⟨?_, ?_⟩
  · have halloc := post_allocateCluster hq.mounted
    rw [Post] at halloc
    rcases hexec : (allocateCluster v).exec d with ⟨r, t⟩
    rw [hexec] at halloc
    cases halloc with
    | full =>
      rw [extendDirectoryChain, exec_bind_error hexec]
      exact fun _ => rfl
    | missed _ | torn _ _ _ =>
      rw [extendDirectoryChain, exec_bind_error hexec]
      rintro ⟨⟩
    | @done new _ hnew hfree hview =>
      -- the steps after the allocation never report that there is no space
      rw [extendDirectoryChain, exec_bind_ok hexec]
      refine Spares.post ?_
      refine (Spares.onError (spares_of_stores (stores_zeroCluster new)) _).bind fun _ _ => ?_
      refine (Spares.onError (calls_writeFatEntry last new) _).bind fun _ _ => ?_
      exact (calls_clusterLba new).bind fun _ _ => .pure trivial
  · have hextend := post_extendDirectoryChain hq.mounted hrange (linkOf_ne_zero hlast)
    rw [Post] at hextend
    generalize (extendDirectoryChain v last).exec d = outcome at hextend
    obtain ⟨r, t⟩ := outcome
    cases hextend with
    | @done new _ range free fat data _ _ =>
      rintro _ ⟨⟩
      exact ⟨rfl, new, rfl, hrange, hlast, range, free, fat, data⟩
    | failed _ _ => rintro _ ⟨⟩
    | torn _ _ _ _ _ _ => rintro _ ⟨⟩

/-- A slot found without growing the directory, or in the cluster it has grown by. -/
def DirectorySlotReservation.From (v : Volume) (w w' : View) (slot : DirectorySlotReservation) :
    Prop :=
  slot.extension = none ∧ w' = w ∨
    slot.existing = none ∧ ∃ last new, slot.extension = some ⟨last, new⟩ ∧ Extended v w w' last new

theorem noSpace_findDirectorySlot (hq : Quiet v d) (cluster : ℕ) (short : List UInt8) :
    (findDirectorySlot v cluster short).Post d fun r t =>
      (r = .error .noSpace → v.view t.disk = v.view d.disk) ∧
      ∀ slot, r = .ok slot → slot.From v (v.view d.disk) (v.view t.disk) := by
  refine post_walkDirectory hq.mounted (slotStep_finds short) ?_
    (fun _ => ⟨fun _ => rfl, nofun⟩) ?_ _ _ _ _
  · intro slot hnone
    refine ⟨nofun, ?_⟩
    rintro _ ⟨⟩
    exact .inl ⟨hnone, rfl⟩
  intro deleted last hlast
  cases deleted with
  | none =>
    refine (noSpace_extendDirectoryChain hq hlast).mono fun r t ht => ⟨ht.1, fun slot hok => ?_⟩
    obtain ⟨hexisting, new, hextension, hextended⟩ := ht.2 slot hok
    exact .inr ⟨hexisting, last, new, hextension, hextended⟩
  | some place =>
    refine .of_exec rfl ⟨nofun, ?_⟩
    rintro _ ⟨⟩
    exact .inl ⟨rfl, rfl⟩

theorem DirectorySlotReservation.From.rollback (h : slot.From v w (v.view d.disk)) (hq : Quiet v d)
    : Restored v w (v.view ((rollbackReservedSlot v slot).exec d).2.disk) := by
  obtain ⟨lba, offset, existing, extension⟩ := slot
  rcases h with ⟨rfl, hsame⟩ | ⟨_, last, new, rfl, hextended⟩
  · change Restored v w (v.view d.disk)
    rw [hsame]
    exact .refl v w
  · exact hextended.rollback hq

/-! ## Creating -/

/-- What is known of a call that has reported that there is no space. -/
abbrev RestoredIfFull (v : Volume) (d : Device) (r : Except Error α) (t : Device) : Prop :=
  r = .error .noSpace → Restored v (v.view d.disk) (v.view t.disk)

theorem RestoredIfFull.error {β : Type} {e : Error} {t : Device}
    (h : RestoredIfFull v d (.error e : Except Error α) t) :
    RestoredIfFull v d (.error e : Except Error β) t := by
  rintro ⟨⟩
  exact h rfl

theorem restoredIfFull_allocate {p : Fs α} {d₀ : Device}
    (hslot : slot.From v (v.view d₀.disk) (v.view d.disk))
    (hp : p.Post d fun r t => r = .error .noSpace → Quiet v t ∧ v.view t.disk = v.view d.disk) :
    (p.onError (rollbackReservedSlot v slot)).Post d (RestoredIfFull v d₀) := by
  refine hp.onError (fun _ _ _ => nofun) fun e t ht => ?_
  rintro ⟨⟩
  obtain ⟨hq, hview⟩ := ht rfl
  exact DirectorySlotReservation.From.rollback (hview ▸ hslot) hq

/-- Steps that have to do with the device only never report that there is no space. -/
theorem Spares.restoredIfFull (h : Spares p) (d d₀ : Device) : p.Post d (RestoredIfFull v d₀) :=
  Spares.post h

theorem post_unchanged {p : Fs α} (h : Moves Unchanged p) (d : Device) :
    p.Post d fun _ t => t = d :=
  h d

theorem noSpace_createFileInDirectory (hq : Quiet v d) (dir : ℕ) (name data : List UInt8) :
    (createFileInDirectory v dir name data).Post d (RestoredIfFull v d) := by
  have hsame : ∀ {β : Type} (e : Error) (t : Device), t = d →
      RestoredIfFull v d (.error e : Except Error β) t := by
    rintro β e t rfl _
    exact .refl v _
  refine (post_unchanged (moves_okOr _ _) d).bind ?_ hsame
  rintro short d rfl
  refine (post_unchanged (moves_rejectIf _ _) d).bind ?_ hsame
  rintro _ d rfl
  refine post_bind (noSpace_findDirectorySlot hq dir short) ?_ ?_
  · rintro slot t hevolves ⟨_, hslot⟩
    have ht := hq.evolves hevolves
    have hfrom := hslot slot rfl
    have hexisting : (checkExisting v slot.existing).Post t fun r u =>
        u = t ∧ r ≠ .error .noSpace :=
      ⟨moves_of_reads (R := Unchanged) (calls_checkExisting _) t,
        Spares.post (calls_checkExisting _)⟩
    refine hexisting.bind ?_ ?_
    · rintro existing t ⟨rfl, _⟩
      refine (restoredIfFull_allocate hfrom
        (noSpace_allocateChainLoop _ ht (.refl v _) nofun)).bind ?_ fun _ _ h => h.error
      intro first u _
      refine Spares.restoredIfFull ?_ u d
      refine (Spares.onError (spares_of_stores (stores_writeFileDataChain first data)) _).bind
        fun _ _ => ?_
      exact (Spares.onError (spares_modifySector _ _) _).bind fun _ _ =>
        (calls_freeClusterChain _).runIf
    · rintro e u ⟨_, hne⟩ ⟨⟩
      exact absurd rfl hne
  · rintro e t _ ⟨hfull, _⟩ ⟨⟩
    rw [hfull rfl]
    exact .refl v _

theorem noSpace_createDirectoryIn (hq : Quiet v d) (parent : ℕ) (name : List UInt8) :
    (createDirectoryIn v parent name).Post d (RestoredIfFull v d) := by
  refine (post_unchanged (moves_okOr _ _) d).bind ?_ ?_
  · rintro short d rfl
    refine post_bind (noSpace_findDirectorySlot hq parent short) ?_ ?_
    · rintro slot t hevolves ⟨_, hslot⟩
      have ht := hq.evolves hevolves
      have hfrom := hslot slot rfl
      split
      · exact Spares.restoredIfFull (.ite (fun _ => .pure trivial) fun _ => .throw (by simp)) t d
      have halloc : (allocateCluster v).Post t fun r u =>
          r = .error .noSpace → Quiet v u ∧ v.view u.disk = v.view t.disk := by
        refine (post_allocateCluster ht.mounted).mono fun r u hu => ?_
        cases hu with
        | full => exact fun _ => ⟨ht, rfl⟩
        | done _ _ _ => exact nofun
        | missed _ => exact nofun
        | torn _ _ _ => exact nofun
      refine (restoredIfFull_allocate hfrom halloc).bind ?_ fun _ _ h => h
      intro cluster u _
      refine Spares.restoredIfFull ?_ u d
      refine (Spares.onError (spares_of_stores (stores_zeroCluster cluster)) _).bind fun _ _ => ?_
      refine ((calls_clusterLba cluster).onError (Calls.any _)).bind fun _ _ => ?_
      refine (Spares.onError (calls_writeSector trivial) _).bind fun _ _ => ?_
      exact (Spares.onError (spares_modifySector _ _) _).bind fun _ _ => .pure trivial
    · rintro e t _ ⟨hfull, _⟩ ⟨⟩
      rw [hfull rfl]
      exact .refl v _
  · rintro e t rfl _
    exact .refl v _

/-- A creation that reports no space leaves the free clusters, the links and the data of the
clusters in use as they were, so that every chain has the bytes it had; and an exact free
count stays exact. -/
theorem noSpace_restores (hmount : d.Mounts v) (hfault : d.fault = none) {dir : ℕ}
    {name data : List UInt8}
    (h : (createFileInDirectory v dir name data).exec d = (.error .noSpace, d') ∨
      (createDirectoryIn v dir name).exec d = (.error .noSpace, d')) :
    Restored v (v.view d.disk) (v.view d'.disk) ∧
      (∀ start clusters, v.Chain (v.view d'.disk) start clusters ↔
        v.Chain (v.view d.disk) start clusters) ∧
      (∀ start clusters, v.Chain (v.view d.disk) start clusters →
        v.bytesOf (v.view d'.disk) clusters = v.bytesOf (v.view d.disk) clusters) ∧
      ∀ info, v.fsInfoSector = some info → fsInfoSignaturesValid (d.disk info) →
        (d.disk info).readU32 488 = (v.freeClusters (v.view d.disk).fat).card →
        fsInfoSignaturesValid (d'.disk info) ∧
          (d'.disk info).readU32 488 = (v.freeClusters (v.view d'.disk).fat).card := by
  cases hro : d.readOnly with
  | true =>
    have hsame : d' = d := by
      rcases h with h | h
      · rw [← exec_of_readOnly (createFileInDirectory v dir name data) hro, h]
      · rw [← exec_of_readOnly (createDirectoryIn v dir name) hro, h]
    subst hsame
    exact ⟨.refl v _, fun _ _ => .rfl, fun _ _ _ => rfl, fun _ _ hvalid hexact => ⟨hvalid, hexact⟩⟩
  | false =>
    have hq : Quiet v d := ⟨hmount.mounted, hfault, hro⟩
    have hrestored : Restored v (v.view d.disk) (v.view d'.disk) := by
      rcases h with h | h
      · have hpost := noSpace_createFileInDirectory hq dir name data
        rw [Post, h] at hpost
        exact hpost rfl
      · have hpost := noSpace_createDirectoryIn hq dir name
        rw [Post, h] at hpost
        exact hpost rfl
    refine ⟨hrestored, hrestored.chain, fun _ _ => hrestored.bytes, ?_⟩
    intro info hinfo hvalid hexact
    have hd : Counted v info d := ⟨hmount.mounted, hinfo, hfault, hro, _, ⟨hvalid, hexact⟩, rfl⟩
    have hd' : Counted v info d' := by
      rcases h with h | h
      · obtain rfl : ((createFileInDirectory v dir name data).exec d).2 = d' := by rw [h]
        exact countKept_createFileInDirectory dir name data d hd
      · obtain rfl : ((createDirectoryIn v dir name).exec d).2 = d' := by rw [h]
        exact countKept_createDirectoryIn dir name d hd
    obtain ⟨n, hn, hcard⟩ := hd'.exact
    exact ⟨hn.valid, hn.count.trans hcard.symm⟩

/-! A volume with one free cluster. -/

theorem exec_allocateInRange_full (hm : v.Mounted d.sectors)
    (hfull : ∀ c, v.isAllocatable c → (v.view d.disk).fat c ≠ 0) {count : ℕ}
    (hlow : 2 ≤ first) (hhigh : first + count ≤ v.clusterCount + 2) :
    (allocateInRange v first count).exec d = (.error .noSpace, d) := by
  induction count generalizing first with
  | zero => rfl
  | succ count ih =>
    have hc : v.isAllocatable first := hm.allocatable_iff.mpr (by omega)
    have hread := exec_readFatEntry hm first
    rw [if_pos hc] at hread
    rw [allocateInRange, exec_bind_ok hread, if_neg (hfull first hc)]
    exact ih (by omega) (by omega)

/-- Only cluster 3 is free. -/
def oneFreeDevice : Device where
  sectors := 66550
  disk lba :=
    if lba = 0 then sampleBoot
    else if lba < 1025 then
      ofFn fun i => if 128 * ((lba - 1) % 512) + i / 4 = 3 then 0 else 0xff
    else zero
  readOnly := false
  fault := none

theorem mounts_oneFreeDevice : oneFreeDevice.Mounts sampleVolume :=
  ⟨⟨sampleDevice [] [], rfl, mount_sampleDevice⟩, show 66550 ≤ 2 ^ 28 by decide, by decide⟩

theorem fat_oneFreeDevice {c : ℕ} (hc : sampleVolume.isAllocatable c) (hne : c ≠ 3) :
    (sampleVolume.view oneFreeDevice.disk).fat c ≠ 0 := by
  have hhigh : c < 65527 := hc.2
  have hplace : sampleVolume.fatSector c = 1 + c * 4 / 512 := rfl
  have hoff : fatOffset c = c * 4 % 512 := rfl
  have hget : ∀ k < 4, (oneFreeDevice.disk (sampleVolume.fatSector c)).get (fatOffset c + k) =
      0xff := by
    intro k hk
    simp only [oneFreeDevice]
    rw [if_neg (by omega), if_pos (by omega), get_ofFn, sectorSize,
      if_pos (by omega), if_neg (by omega)]
  simp only [view, if_pos hc, readU32]
  rw [hget 1 (by decide), hget 2 (by decide), hget 3 (by decide),
    show fatOffset c = fatOffset c + 0 from rfl, hget 0 (by decide)]
  decide

/-- The first of two clusters is allocated, the second is not. -/
theorem exec_allocateFileChain_oneFreeDevice :
    ((allocateFileChain sampleVolume 2).exec oneFreeDevice).1 = .error .noSpace := by
  have hok : ((allocateCluster sampleVolume).exec oneFreeDevice).1 = .ok 3 := by decide +kernel
  have hpost := post_allocateCluster mounts_oneFreeDevice.mounted
  have hsectors := (evolves_exec (allocateCluster sampleVolume) oneFreeDevice).sectors
  rw [Post] at hpost
  rcases hexec : (allocateCluster sampleVolume).exec oneFreeDevice with ⟨r, t⟩
  rw [hexec] at hok hpost hsectors
  subst hok
  cases hpost with
  | done hrange hfree hview =>
    have hfull : ∀ c, sampleVolume.isAllocatable c → (sampleVolume.view t.disk).fat c ≠ 0 := by
      intro c hc
      rw [hview]
      by_cases heq : c = 3
      · subst heq
        decide
      · simpa [setFat, heq] using fat_oneFreeDevice hc heq
    have hrange := exec_allocateInRange_full (hsectors ▸ mounts_oneFreeDevice.mounted) hfull
      (le_refl 2) (show 2 + 65525 ≤ sampleVolume.clusterCount + 2 from le_refl _)
    have hnone : (allocateCluster sampleVolume).exec t = (.error .noSpace, t) := by
      have hhint : (fsInfoNextFreeHint sampleVolume).exec t = (.ok 2, t) := rfl
      rw [allocateCluster, exec_bind_ok (exec_rejectIf_of_not (by decide) t),
        exec_bind_ok hhint, ite_self, exec_bind_ok (exec_attempt _ t),
        show sampleVolume.clusterCount + 2 - 2 = 65525 from rfl, hrange]
      rfl
    rw [allocateFileChain, allocateChainLoop, exec_bind_ok (exec_onError_ok hexec), if_pos rfl,
      allocateChainLoop, exec_bind_error (exec_onError_error hnone)]

/-- A file of 513 bytes needs two clusters: the one that it gets is free again. -/
theorem noSpace_restores_sample :
    ((allocateCluster sampleVolume).exec oneFreeDevice).1 = .ok 3 ∧
    ((createFileInDirectory sampleVolume 2 [0x41] (.replicate 513 1)).exec oneFreeDevice).1 =
      .error .noSpace ∧
      Restored sampleVolume (sampleVolume.view oneFreeDevice.disk) (sampleVolume.view
        ((createFileInDirectory sampleVolume 2 [0x41] (.replicate 513 1)).exec
          oneFreeDevice).2.disk) := by
  have hname : (okOr (encodeShortName [0x41]) .nameTooLong : Fs (List UInt8)).exec oneFreeDevice =
      (.ok (padded 11 [0x41]), oneFreeDevice) := rfl
  have hslot : (findDirectorySlot sampleVolume 2 (padded 11 [0x41])).exec oneFreeDevice =
      (.ok ⟨1025, 0, none, none⟩, oneFreeDevice) := rfl
  have hfull : ((createFileInDirectory sampleVolume 2 [0x41] (.replicate 513 1)).exec
      oneFreeDevice).1 = .error .noSpace := by
    have hsize : (List.replicate 513 (1 : UInt8)).length = 513 := List.length_replicate
    rw [createFileInDirectory, exec_bind_ok hname, hsize,
      exec_bind_ok (exec_rejectIf_of_not (by decide) oneFreeDevice), exec_bind_ok hslot]
    rcases hexec : (allocateFileChain sampleVolume 2).exec oneFreeDevice with ⟨r, t⟩
    have hchain := exec_allocateFileChain_oneFreeDevice
    rw [hexec] at hchain
    subst hchain
    have hchecked : (checkExisting sampleVolume none).exec oneFreeDevice = (.ok 0, oneFreeDevice) :=
      rfl
    rw [exec_bind_ok hchecked, show (513 + sampleVolume.bytesPerCluster - 1) /
      sampleVolume.bytesPerCluster = 2 from rfl, exec_bind_error (exec_onError_error hexec)]
  refine ⟨by decide +kernel, hfull, ?_⟩
  rcases hexec : (createFileInDirectory sampleVolume 2 [0x41] (.replicate 513 1)).exec
    oneFreeDevice with ⟨r, t⟩
  rw [hexec] at hfull
  obtain rfl : r = .error .noSpace := hfull
  exact (noSpace_restores mounts_oneFreeDevice rfl (.inl hexec)).1

end WovenHat.Fat32
