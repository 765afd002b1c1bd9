import WovenHat.Verification.Fat32.Allocation

/-! # The free count of the FSInfo sector

On a device without faults every mutation keeps the free count of the FSInfo sector equal
to the number of free clusters. Nothing else is asked of the volume: whether a link is
written over an entry in use is decided by the code that writes it. -/

namespace WovenHat.Fat32

open Library Block Fallible Buffer Finset Volume.Chain

variable {v : Volume} {d d' : Device} {w w' : View} {info c : ℕ} {α : Type}

/-! ## Free clusters -/

def Volume.freeClusters (v : Volume) (fat : ℕ → ℕ) : Finset ℕ :=
  (Finset.Ico 2 (v.clusterCount + 2)).filter fun c => fat c = 0

theorem Volume.card_freeClusters_le (v : Volume) (fat : ℕ → ℕ) :
    (v.freeClusters fat).card ≤ v.clusterCount := by
  refine (card_filter_le _ _).trans ?_
  simp

variable {sectors n : ℕ} {t : Device}

theorem Volume.Mounted.mem_freeClusters (hm : v.Mounted sectors) {fat : ℕ → ℕ} :
    c ∈ v.freeClusters fat ↔ v.isAllocatable c ∧ fat c = 0 := by
  rw [freeClusters, mem_filter, mem_Ico, hm.allocatable_iff]

variable {value lba : ℕ}

theorem Volume.Mounted.freeClusters_take (hm : v.Mounted sectors) (hvalue : value ≠ 0) :
    v.freeClusters (w.setFat c value).fat = (v.freeClusters w.fat).erase c := by
  ext x
  rw [mem_erase, hm.mem_freeClusters, hm.mem_freeClusters]
  by_cases hx : x = c
  · subst hx
    simp [hvalue]
  · simp [View.setFat_fat_of_ne w hx, hx]

theorem Volume.Mounted.freeClusters_relink (hm : v.Mounted sectors) (hused : w.fat c ≠ 0)
    (hvalue : value ≠ 0) : v.freeClusters (w.setFat c value).fat = v.freeClusters w.fat := by
  rw [hm.freeClusters_take hvalue, erase_eq_of_notMem]
  rw [hm.mem_freeClusters]
  exact fun h => hused h.2

theorem Volume.Mounted.freeClusters_free (hm : v.Mounted sectors)
    (hc : v.isAllocatable c) (hused : w.fat c ≠ 0) :
    (v.freeClusters (w.setFat c 0).fat).card = (v.freeClusters w.fat).card + 1 := by
  have hinsert : v.freeClusters (w.setFat c 0).fat = insert c (v.freeClusters w.fat) := by
    ext x
    rw [mem_insert, hm.mem_freeClusters, hm.mem_freeClusters]
    by_cases hx : x = c
    · subst hx
      simp [hc]
    · simp [View.setFat_fat_of_ne w hx, hx]
  rw [hinsert, card_insert_of_notMem]
  rw [hm.mem_freeClusters]
  exact fun h => hused h.2

/-! ## The FSInfo sector -/

structure InfoIs (info n : ℕ) (d : Device) : Prop where
  valid : fsInfoSignaturesValid (d.disk info)
  count : (d.disk info).readU32 488 = n

theorem fat_eq_of_stores {p : Fs α} {Q : α → Prop} (h : Calls v.Stores p Q)
    (hm : v.Mounted d.sectors) : (v.view (p.exec d).2.disk).fat = (v.view d.disk).fat := by
  funext cluster
  simp only [Volume.view]
  split
  · rename_i hc
    rw [disk_eq_of_calls h fun _ => ?_]
    rintro ⟨c, index, _, _, heq⟩
    have hbelow := hm.fatSector_lt_firstData hc
    simp only [Volume.lbaOf] at heq
    omega
  · rfl

theorem not_inCluster_of_lt (hm : v.Mounted sectors)
    (h : lba < v.firstFatSector) : ¬v.InCluster lba := by
  rintro ⟨cluster, index, _, _, rfl⟩
  have := hm.firstData
  have : 0 ≤ v.fatCount * v.fatSize := Nat.zero_le _
  simp only [Volume.lbaOf] at h
  omega

theorem Volume.Mounted.reserved_lt (hm : v.Mounted sectors)
    (h : lba < v.firstFatSector) : lba < sectors := by
  have := hm.firstData
  have := hm.room
  have : 0 ≤ v.fatCount * v.fatSize := Nat.zero_le _
  omega

theorem fsInfo_written {sector : Sector} (h : fsInfoSignaturesValid sector) (x : FsInfo) :
    fsInfoSignaturesValid ((sector.writeU32 488 x.freeCount).writeU32 492 x.nextFree) ∧
      ((sector.writeU32 488 x.freeCount).writeU32 492 x.nextFree).readU32 488 =
        x.freeCount % 2 ^ 32 := by
  obtain ⟨h₀, h₁, h₂⟩ := h
  refine ⟨⟨?_, ?_, ?_⟩, ?_⟩
  · rwa [readU32_writeU32_of_disjoint _ _ _ _ (by omega),
      readU32_writeU32_of_disjoint _ _ _ _ (by omega)]
  · rwa [readU32_writeU32_of_disjoint _ _ _ _ (by omega),
      readU32_writeU32_of_disjoint _ _ _ _ (by omega)]
  · rwa [readU32_writeU32_of_disjoint _ _ _ _ (by omega),
      readU32_writeU32_of_disjoint _ _ _ _ (by omega)]
  rw [readU32_writeU32_of_disjoint _ _ _ _ (by omega), readU32_writeU32 _ _ _ (by decide)]
  rfl

theorem exec_writeSector_quiet (hfault : d.fault = none) (hro : d.readOnly = false)
    (hlba : lba < d.sectors) (sector : Sector) : (Fs.writeSector lba sector).exec d =
      (.ok (), { d with disk := Function.update d.disk lba sector }) := by
  have hwrite : d.write lba sector =
      (.ok (), { d with disk := Function.update d.disk lba sector }) := by
    simp [Device.write, hro, hfault, not_le.mpr hlba]
  rw [exec_writeSector, hwrite]
  rfl

/-- Writing one copy stores the count there, or leaves the FSInfo sector as it is. -/
theorem infoIs_writeFsInfoCopy (hfault : d.fault = none) (hro : d.readOnly = false)
    {copy : ℕ} (hcopy : copy < d.sectors) (h : InfoIs info n d) (x : FsInfo) :
    (writeFsInfoCopy (some copy) x).Post d fun r d' =>
      r = .ok () ∧ d.Evolves d' ∧
        InfoIs info (if copy = info then x.freeCount % 2 ^ 32 else n) d' := by
  refine Post.step (exec_readSector_of_lt hcopy) ?_
  split
  · refine .of_exec (exec_writeSector_quiet hfault hro hcopy _) ⟨rfl, ⟨rfl, rfl, id⟩, ?_⟩
    rename_i hvalid
    by_cases heq : copy = info
    · subst heq
      have hwritten := fsInfo_written hvalid x
      rw [if_pos rfl]
      exact ⟨by simpa using hwritten.1, by simpa using hwritten.2⟩
    · rw [if_neg heq]
      exact ⟨by simpa [Ne.symm heq] using h.valid, by simpa [Ne.symm heq] using h.count⟩
  · refine .of_exec rfl ⟨rfl, ⟨rfl, rfl, id⟩, ?_⟩
    rename_i hvalid
    by_cases heq : copy = info
    · subst heq
      exact absurd h.valid hvalid
    · rwa [if_neg heq]

theorem infoIs_writeFsInfo (hm : v.Mounted d.sectors) (hinfo : v.fsInfoSector = some info)
    (hfault : d.fault = none) (hro : d.readOnly = false) (h : InfoIs info n d)
    {x : FsInfo} (hx : x.freeCount < 2 ^ 32) :
    (writeFsInfo v x).Post d fun _ d' => InfoIs info x.freeCount d' := by
  rw [writeFsInfo, hinfo]
  refine (infoIs_writeFsInfoCopy hfault hro (hm.reserved_lt (hm.fsInfo _ hinfo)) h x).bind ?_ ?_
  · rintro _ t ⟨_, hevolves, ht⟩
    rw [if_pos rfl, Nat.mod_eq_of_lt hx] at ht
    cases hbackup : v.backupFsInfoSector with
    | none => exact .of_exec rfl ht
    | some copy =>
      have hcopy : copy < t.sectors := hevolves.sectors ▸ hm.reserved_lt (hm.backup _ hbackup)
      refine (infoIs_writeFsInfoCopy (hevolves.fault hfault) (hevolves.readOnly.trans hro) hcopy
        ht x).mono fun _ u hu => ?_
      have hcount := hu.2.2
      rwa [Nat.mod_eq_of_lt hx, ite_self] at hcount
  · rintro e t ⟨h, _⟩
    cases h

theorem exec_readFsInfo (hm : v.Mounted d.sectors) (hinfo : v.fsInfoSector = some info)
    (h : InfoIs info n d) (hn : n ≤ v.clusterCount) :
    ∃ next, (readFsInfo v).exec d = (.ok (some ⟨n, next⟩), d) := by
  have hlba := hm.reserved_lt (hm.fsInfo _ hinfo)
  unfold readFsInfo
  rw [hinfo]
  rw [exec_bind_ok (exec_readSector_of_lt hlba), if_pos h.valid, h.count, sanitizeFsInfoValue,
    if_pos (.inr hn)]
  exact ⟨_, rfl⟩

/-! ## Devices without faults -/

structure Quiet (v : Volume) (d : Device) : Prop where
  mounted : v.Mounted d.sectors
  fault : d.fault = none
  writable : d.readOnly = false

theorem Quiet.evolves (h : Quiet v d) (he : d.Evolves d') : Quiet v d' :=
  ⟨he.sectors ▸ h.mounted, he.fault h.fault, he.readOnly.trans h.writable⟩

theorem Quiet.exec_writeFatEntry (h : Quiet v d) (hc : v.isAllocatable c) (value : ℕ) :
    ∃ t, (writeFatEntry v c value).exec d = (.ok (), t) ∧ Quiet v t ∧
      v.view t.disk = (v.view d.disk).setFat c (value % entryModulus) := by
  have hwrite := post_writeFatEntry h.mounted hc value
  have hevolves := evolves_exec (writeFatEntry v c value) d
  rw [Post] at hwrite
  generalize (writeFatEntry v c value).exec d = outcome at hwrite hevolves
  obtain ⟨r, t⟩ := outcome
  cases hwrite with
  | done _ _ _ view => exact ⟨t, rfl, h.evolves hevolves, view⟩
  | missed _ struck => cases h.fault.symm.trans (struck h.writable).1
  | torn _ _ struck => cases h.fault.symm.trans struck

/-! ## Counted volumes -/

/-- The stored count is the number of free clusters, less those freed but not counted yet. -/
structure CountedBut (v : Volume) (info freed : ℕ) (d : Device) : Prop where
  mounted : v.Mounted d.sectors
  sector : v.fsInfoSector = some info
  fault : d.fault = none
  writable : d.readOnly = false
  exact : ∃ n, InfoIs info n d ∧ (v.freeClusters (v.view d.disk).fat).card = n + freed

abbrev Counted (v : Volume) (info : ℕ) (d : Device) : Prop :=
  CountedBut v info 0 d

def CountKept (v : Volume) (info : ℕ) (d d' : Device) : Prop :=
  Counted v info d → Counted v info d'

instance : IsPreorder Device (CountKept v info) where
  refl _ h := h
  trans _ _ _ h h' hd := h' (h hd)

variable {freed : ℕ}

theorem CountedBut.of_run {p : Fs α} {freed' : ℕ} (h : CountedBut v info freed d)
    (hdisk : (p.exec d).2.disk info = d.disk info)
    (hcard : (v.freeClusters (v.view (p.exec d).2.disk).fat).card + freed =
      (v.freeClusters (v.view d.disk).fat).card + freed') :
    CountedBut v info freed' (p.exec d).2 where
  mounted := by
    rw [exec_sectors]
    exact h.mounted
  sector := h.sector
  fault := (evolves_exec p d).fault h.fault
  writable := (evolves_exec p d).readOnly.trans h.writable
  exact := by
    obtain ⟨n, ⟨hvalid, hcount⟩, hfree⟩ := h.exact
    exact ⟨n, ⟨by rwa [hdisk], by rwa [hdisk]⟩, by omega⟩

/-- Writing to clusters only does not touch the count. -/
theorem countedBut_of_stores {p : Fs α} {Q : α → Prop} (hp : Calls v.Stores p Q)
    (h : CountedBut v info freed d) : CountedBut v info freed (p.exec d).2 := by
  have hlow := h.mounted.fsInfo _ h.sector
  have hfat := fat_eq_of_stores hp h.mounted
  exact h.of_run (disk_eq_of_calls hp (fun _ => not_inCluster_of_lt h.mounted hlow) d)
    (by rw [hfat])

/-! ## FAT entries -/

section Counted

variable (h : CountedBut v info freed d)

include h

theorem CountedBut.quiet : Quiet v d :=
  ⟨h.mounted, h.fault, h.writable⟩

theorem exec_writeFatEntry_quiet (hc : v.isAllocatable c) (value : ℕ) :
    ∃ t, (writeFatEntry v c value).exec d = (.ok (), t) ∧ t.disk info = d.disk info ∧
      v.view t.disk = (v.view d.disk).setFat c (value % entryModulus) := by
  obtain ⟨t, hexec, _, hview⟩ := h.quiet.exec_writeFatEntry hc value
  have hlow := h.mounted.fsInfo _ h.sector
  have hdisk : ((writeFatEntry v c value).exec d).2.disk info = d.disk info :=
    disk_eq_of_calls (links_writeFatEntry c value)
      (fun _ hlink => absurd hlink.1 (not_le.mpr hlow)) d
  rw [hexec] at hdisk
  exact ⟨t, hexec, hdisk, hview⟩

theorem CountedBut.of_writeFatEntry {freed' : ℕ}
    (hexec : (writeFatEntry v c value).exec d = (.ok (), t))
    (hdisk : t.disk info = d.disk info) (hcard : (v.freeClusters (v.view t.disk).fat).card + freed =
      (v.freeClusters (v.view d.disk).fat).card + freed') : CountedBut v info freed' t := by
  obtain rfl : ((writeFatEntry v c value).exec d).2 = t := by rw [hexec]
  exact h.of_run hdisk hcard

theorem countedBut_relink (hc : v.isAllocatable c)
    (hused : (v.view d.disk).fat c ≠ 0) (hvalue : value % entryModulus ≠ 0) :
    ∃ t, (writeFatEntry v c value).exec d = (.ok (), t) ∧ CountedBut v info freed t ∧
      v.view t.disk = (v.view d.disk).setFat c (value % entryModulus) := by
  obtain ⟨t, hexec, hdisk, hview⟩ := exec_writeFatEntry_quiet h hc value
  refine ⟨t, hexec, h.of_writeFatEntry hexec hdisk ?_, hview⟩
  rw [hview, h.mounted.freeClusters_relink hused hvalue]

/-- The stored count is never the value for an unknown one. -/
theorem CountedBut.le (hn : (v.freeClusters (v.view d.disk).fat).card = n + freed) :
    n ≤ v.clusterCount ∧ n ≠ fsInfoUnknown ∧ v.clusterCount < 2 ^ 32 := by
  have hcard := v.card_freeClusters_le (v.view d.disk).fat
  have hsmall := h.mounted.clusters_lt
  simp only [fat32BadCluster] at hsmall
  simp only [fsInfoUnknown]
  omega

end Counted

theorem counted_updateFsInfoAfterAlloc (h : Counted v info d)
    (hevolves : d.Evolves t) (hn : InfoIs info n t)
    (hcard : (v.freeClusters (v.view t.disk).fat).card + 1 = n) (hle : n ≤ v.clusterCount)
    (allocated : ℕ) : Counted v info ((updateFsInfoAfterAlloc v allocated).exec t).2 := by
  have hm : v.Mounted t.sectors := hevolves.sectors ▸ h.mounted
  have hfault := hevolves.fault h.fault
  have hro := hevolves.readOnly.trans h.writable
  have hsmall := hm.clusters_lt
  simp only [fat32BadCluster] at hsmall
  have hknown : n ≠ fsInfoUnknown := by
    simp only [fsInfoUnknown]
    omega
  have hview := moves_updateFsInfoAfterAlloc hm allocated t
  obtain ⟨next, hread⟩ := exec_readFsInfo hm h.sector hn hle
  have hstored : InfoIs info (n - 1) ((updateFsInfoAfterAlloc v allocated).exec t).2 := by
    rw [updateFsInfoAfterAlloc, exec_bind_ok hread]
    have hwrite := infoIs_writeFsInfo hm h.sector hfault hro hn
      (x := ⟨n - 1, nextClusterHint v allocated⟩) (by dsimp only; omega)
    rw [Post] at hwrite
    simpa only [hknown, ↓reduceIte] using hwrite
  refine ⟨by rwa [exec_sectors], h.sector, (evolves_exec _ t).fault hfault,
    (evolves_exec _ t).readOnly.trans hro, n - 1, hstored, ?_⟩
  rw [show v.view _ = _ from hview]
  omega

theorem counted_updateFsInfoAfterFree (h : CountedBut v info freed d) (first : ℕ) :
    Counted v info ((updateFsInfoAfterFree v freed first).exec d).2 := by
  obtain ⟨n, hn, hcard⟩ := h.exact
  obtain ⟨hle, hknown, hsmall⟩ := h.le hcard
  have hfree := v.card_freeClusters_le (v.view d.disk).fat
  have hview := moves_updateFsInfoAfterFree h.mounted freed first d
  obtain ⟨next, hread⟩ := exec_readFsInfo h.mounted h.sector hn hle
  have hsum : min (saturatingAdd32 n freed) v.clusterCount = n + freed := by
    simp only [saturatingAdd32, fsInfoUnknown]
    omega
  have hstored : InfoIs info (n + freed) ((updateFsInfoAfterFree v freed first).exec d).2 := by
    rw [updateFsInfoAfterFree, exec_bind_ok hread]
    have hwrite := infoIs_writeFsInfo h.mounted h.sector h.fault h.writable hn
      (x := ⟨n + freed, if v.isAllocatable first then first else next⟩) (by dsimp only; omega)
    rw [Post] at hwrite
    simpa only [hknown, ↓reduceIte, hsum] using hwrite
  refine ⟨by rw [exec_sectors]; exact h.mounted, h.sector, (evolves_exec _ d).fault h.fault,
    (evolves_exec _ d).readOnly.trans h.writable, n + freed, hstored, ?_⟩
  rw [show v.view _ = _ from hview, hcard, Nat.add_zero]

/-! ## Allocating and freeing -/

theorem counted_take (h : Counted v info d) (hc : v.isAllocatable c)
    (hfree : (v.view d.disk).fat c = 0) : Counted v info ((do
      writeFatEntry v c fat32EndMin
      (updateFsInfoAfterAlloc v c).ignore
      pure c : Fs ℕ).exec d).2 := by
  obtain ⟨t, hexec, hdisk, hview⟩ := exec_writeFatEntry_quiet h hc fat32EndMin
  obtain ⟨n, hn, hcard⟩ := h.exact
  have hevolves := evolves_exec (writeFatEntry v c fat32EndMin) d
  rw [hexec] at hevolves
  have hmem : c ∈ v.freeClusters (v.view d.disk).fat := h.mounted.mem_freeClusters.mpr ⟨hc, hfree⟩
  have hpos : 0 < (v.freeClusters (v.view d.disk).fat).card := card_pos.mpr ⟨c, hmem⟩
  rw [exec_bind_ok hexec, exec_bind_ok (exec_ignore _ t)]
  refine counted_updateFsInfoAfterAlloc (n := n) h hevolves
    ⟨by rw [hdisk]; exact hn.valid, by rw [hdisk]; exact hn.count⟩ ?_ (h.le hcard).1 c
  rw [hview, h.mounted.freeClusters_take (by decide), card_erase_of_mem hmem]
  omega

theorem countKept_allocateInRange (first count : ℕ) :
    Moves (CountKept v info) (allocateInRange v first count) := by
  induction count generalizing first with
  | zero => exact .throw _
  | succ count ih =>
    intro d hd
    have hread := exec_readFatEntry hd.mounted first
    by_cases hc : v.isAllocatable first
    · rw [if_pos hc] at hread
      rw [allocateInRange, exec_bind_ok hread]
      split
      · exact counted_take hd hc ‹_›
      · exact ih (first + 1) d hd
    · rw [if_neg hc] at hread
      rw [allocateInRange, exec_bind_error hread]
      exact hd

theorem countKept_allocateCluster : Moves (CountKept v info) (allocateCluster v) := by
  refine (moves_rejectIf _ _).bind fun _ => ?_
  have hhint : Moves (CountKept v info) (fsInfoNextFreeHint v) := by
    refine moves_readFsInfo.attempt.bind fun found => ?_
    rcases found with _ | _ | found <;> exact .pure _
  refine hhint.bind fun hint => (countKept_allocateInRange _ _).attempt.bind fun result => ?_
  cases result with
  | ok cluster => exact .pure cluster
  | error e => exact .ite (countKept_allocateInRange _ _) (.throw e)

theorem counted_freeLoop (first : ℕ) {fuel start : ℕ} {clusters : List ℕ}
    (h : CountedBut v info freed d) (hfuel : clusters.length ≤ fuel)
    (hchain : v.Chain (v.view d.disk) start clusters) :
    Counted v info ((freeLoop v first fuel start freed).exec d).2 := by
  induction fuel generalizing d start clusters freed with
  | zero => exact absurd (List.length_pos_of_ne_nil hchain.ne_nil) (by omega)
  | succ fuel ih =>
    obtain ⟨hc, hused⟩ := mem hchain hchain.head_mem
    obtain ⟨t, hexec, hdisk, hview⟩ := exec_writeFatEntry_quiet h hc 0
    have ht : CountedBut v info (freed + 1) t := by
      refine h.of_writeFatEntry hexec hdisk ?_
      rw [hview, show 0 % entryModulus = 0 from rfl, h.mounted.freeClusters_free hc hused]
      omega
    rcases exec_nextCluster_of_chain h.mounted hchain with
      ⟨hnext, rfl⟩ | ⟨next, rest, hnext, rfl, hrest⟩
    · rw [freeLoop, exec_bind_ok hnext, exec_bind_ok hexec]
      rw [exec_ignore]
      exact counted_updateFsInfoAfterFree ht first
    rw [freeLoop, exec_bind_ok hnext, exec_bind_ok hexec]
    have hnotin : start ∉ rest := (List.nodup_cons.mp hchain.nodup).1
    have hrest' : v.Chain (v.view t.disk) next rest := by
      refine of_fat_eq hrest fun c hmem => ?_
      rw [hview, View.setFat_fat_of_ne]
      rintro rfl
      exact hnotin hmem
    rw [List.length_cons] at hfuel
    exact ih ht (by omega) hrest'

/-- Freeing keeps the count, from any start: what is no sound chain is not freed. -/
theorem countKept_freeClusterChain (start : ℕ) :
    Moves (CountKept v info) (freeClusterChain v start) := by
  intro d hd
  unfold freeClusterChain
  split
  · exact hd
  obtain ⟨hsame, hiff⟩ := post_validateClusterChain hd.mounted start
  rcases hvalid : (validateClusterChain v start).exec d with ⟨e | ⟨⟩, t⟩
  · rw [hvalid] at hsame
    rw [exec_bind_error hvalid, show t = d from hsame]
    exact hd
  · rw [hvalid] at hsame hiff
    obtain rfl : t = d := hsame
    obtain ⟨clusters, hchain⟩ := hiff.mp rfl
    rw [exec_bind_ok hvalid]
    exact counted_freeLoop start hd (length_le hd.mounted hchain) hchain

end WovenHat.Fat32
