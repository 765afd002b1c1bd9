import WovenHat.Verification.Fat32.FatEntries
import WovenHat.Verification.Fat32.FreeCount

/-! # Free space

`allocate_cluster` finds a free cluster whenever there is one, and `space_info` counts them
without reading a FAT sector twice. -/

namespace WovenHat.Fat32

open Library Block Fallible

variable {v : Volume} {d d' : Device} {c first sectors : ℕ}

/-! ## Allocation -/

/-- In every FAT copy the entry of the cluster ends a chain, and no other entry has changed. -/
def EntryTaken (v : Volume) (c : ℕ) (d d' : Device) : Prop :=
  ∀ copy < v.fatCount, ∀ entry, entry * 4 / sectorSize < v.fatSize →
    v.rawEntry d'.disk copy entry =
      if entry = c then storedEntry (v.rawEntry d.disk copy entry) fat32EndMin
      else v.rawEntry d.disk copy entry

/-- The entries of a FAT copy are at different places. -/
theorem copySector_inj {copy copy' entry entry' : ℕ} (hentry : entry * 4 / sectorSize < v.fatSize)
    (hentry' : entry' * 4 / sectorSize < v.fatSize)
    (hsector : v.copySector copy entry = v.copySector copy' entry')
    (hoff : fatOffset entry = fatOffset entry') : entry = entry' := by
  have hindex : entry * 4 / sectorSize = entry' * 4 / sectorSize := by
    simp only [Volume.copySector] at hsector
    have hmod := congrArg (· % v.fatSize) (show copy * v.fatSize + entry * 4 / sectorSize =
      copy' * v.fatSize + entry' * 4 / sectorSize by omega)
    simpa [Nat.mul_add_mod_self_right, Nat.mod_eq_of_lt hentry, Nat.mod_eq_of_lt hentry'] using hmod
  simp only [fatOffset, sectorSize] at *
  omega

theorem rawEntry_stores {value entry copy : ℕ} (hc : c * 4 / sectorSize < v.fatSize)
    (hentry : entry * 4 / sectorSize < v.fatSize) (hne : entry ≠ c) (copies : List ℕ)
    (disk : ℕ → Sector) :
    v.rawEntry (copies.foldl (fun disk copy => storeEntry disk (v.copySector copy c) c value) disk)
      copy entry = v.rawEntry disk copy entry := by
  induction copies generalizing disk with
  | nil => rfl
  | cons other copies ih =>
    rw [List.foldl_cons, ih]
    exact storeEntry_other fun heq => hne (copySector_inj hentry hc heq.1 heq.2)

theorem Quiet.entryTaken (h : Quiet v d) (hc : v.isAllocatable c) : ∃ d', (do
      writeFatEntry v c fat32EndMin
      (updateFsInfoAfterAlloc v c).ignore
      pure c : Fs ℕ).exec d = (.ok c, d') ∧ EntryTaken v c d d' := by
  obtain ⟨t, hwrite, _, _⟩ := h.exec_writeFatEntry hc fat32EndMin
  refine ⟨_, (exec_bind_ok hwrite).trans (exec_bind_ok (exec_ignore _ t)), ?_⟩
  obtain ⟨hindex, _, _, hdisk⟩ := writeFatEntry_ok h.mounted.fatCount h.mounted.firstData
    h.fault hwrite
  have hcopied : Copied v c fat32EndMin d.disk t.disk :=
    hdisk ▸ copied_range h.mounted.fatCount (Nat.zero_lt_of_lt hindex)
  intro copy hcopy entry hentry
  have hkept : v.rawEntry ((updateFsInfoAfterAlloc v c).exec t).2.disk copy entry =
      v.rawEntry t.disk copy entry := by
    refine congrArg (Buffer.readU32 · (fatOffset entry)) ?_
    exact disk_eq_of_infos h.mounted (calls_updateFsInfoAfterAlloc c)
      (Nat.le_add_right_of_le (Nat.le_add_right _ _)) t
  refine hkept.trans ?_
  split
  · rename_i heq
    subst heq
    exact hcopied.stored copy hcopy
  · rename_i hne
    rw [hdisk]
    exact rawEntry_stores hindex hentry hne _ _

theorem Quiet.exec_allocateInRange (h : Quiet v d) {count : ℕ} (hlow : 2 ≤ first)
    (hhigh : first + count ≤ v.clusterCount + 2) :
    ((allocateInRange v first count).exec d = (.error .noSpace, d) ∧
      ∀ c, first ≤ c → c < first + count → (v.view d.disk).fat c ≠ 0) ∨
    ∃ c d', (allocateInRange v first count).exec d = (.ok c, d') ∧ v.isAllocatable c ∧
      (v.view d.disk).fat c = 0 ∧ EntryTaken v c d d' := by
  induction count generalizing first with
  | zero => exact .inl ⟨rfl, fun c _ _ => by omega⟩
  | succ count ih =>
    have hc : v.isAllocatable first := h.mounted.allocatable_iff.mpr ⟨hlow, by omega⟩
    have hread := exec_readFatEntry h.mounted first
    rw [if_pos hc] at hread
    rw [allocateInRange, exec_bind_ok hread]
    split
    · rename_i hfree
      obtain ⟨t, hexec, htaken⟩ := h.entryTaken hc
      exact .inr ⟨first, t, hexec, hc, hfree, htaken⟩
    · rename_i hused
      refine (ih (by omega) (by omega)).imp_left fun hfull => ⟨hfull.1, fun c hlow hhigh => ?_⟩
      by_cases heq : c = first
      · rwa [heq]
      · exact hfull.2 c (by omega) (by omega)

/-- On a device without faults `allocate_cluster` takes a free cluster in all FAT copies, and
fails if and only if there is none, whatever the FSInfo sector holds. -/
theorem allocateCluster_complete (h : d.Mounts v) (hfault : d.fault = none)
    (hwritable : d.readOnly = false) : ((allocateCluster v).exec d = (.error .noSpace, d) ∧
      ∀ c, 2 ≤ c → c < v.clusterCount + 2 → ((readFatEntry v c).exec d).1 ≠ .ok 0) ∨
    ∃ c d', (allocateCluster v).exec d = (.ok c, d') ∧ 2 ≤ c ∧ c < v.clusterCount + 2 ∧
      ((readFatEntry v c).exec d).1 = .ok 0 ∧ EntryTaken v c d d' := by
  have hm := h.mounted
  have hquiet : Quiet v d := ⟨hm, hfault, hwritable⟩
  have hentry : ∀ c, 2 ≤ c → c < v.clusterCount + 2 →
      ((readFatEntry v c).exec d).1 = .ok ((v.view d.disk).fat c) := by
    intro c hlow hhigh
    rw [exec_readFatEntry hm, if_pos (hm.allocatable_iff.mpr ⟨hlow, hhigh⟩)]
  have hfound : ∀ {c : ℕ} {d' : Device}, v.isAllocatable c ∧ (v.view d.disk).fat c = 0 ∧
      EntryTaken v c d d' → 2 ≤ c ∧ c < v.clusterCount + 2 ∧
        ((readFatEntry v c).exec d).1 = .ok 0 ∧ EntryTaken v c d d' := by
    rintro c d' ⟨hc, hfree, htaken⟩
    obtain ⟨hlow, hhigh⟩ := hm.allocatable_iff.mp hc
    exact ⟨hlow, hhigh, hfree ▸ hentry c hlow hhigh, htaken⟩
  have hsmall : ¬2 ^ 32 ≤ v.clusterCount + 2 := by
    have := hm.clusters_lt
    simp only [fat32BadCluster] at this
    omega
  obtain ⟨hint, hhint⟩ := exec_fsInfoNextFreeHint v d
  rw [allocateCluster, exec_bind_ok (exec_rejectIf_of_not hsmall d), exec_bind_ok hhint]
  generalize hstart : (if v.isAllocatable hint then hint else 2) = start
  have hrange : 2 ≤ start ∧ start ≤ v.clusterCount + 2 := by
    rw [← hstart]
    split
    · have := hm.allocatable_iff.mp ‹_›
      omega
    · omega
  rw [exec_bind_ok (exec_attempt _ d)]
  rcases hquiet.exec_allocateInRange hrange.1 (Nat.add_sub_cancel' hrange.2).le with
    ⟨hexec, hlater⟩ | ⟨c, t, hexec, hc⟩
  · rw [hexec]
    by_cases hwrap : 2 < start
    · simp only [hwrap, and_self, ↓reduceIte]
      rcases hquiet.exec_allocateInRange (le_refl 2) (show 2 + (start - 2) ≤ _ by omega) with
        ⟨hexec', hbefore⟩ | ⟨c, t, hexec', hc⟩
      · refine .inl ⟨hexec', fun c hlow hhigh hzero => ?_⟩
        rw [hentry c hlow hhigh] at hzero
        by_cases hc : c < start
        · exact hbefore c hlow (by omega) (Except.ok.inj hzero)
        · exact hlater c (by omega) (by omega) (Except.ok.inj hzero)
      · exact .inr ⟨c, t, hexec', hfound hc⟩
    · simp only [hwrap, and_false, ↓reduceIte]
      refine .inl ⟨rfl, fun c hlow hhigh hzero => ?_⟩
      rw [hentry c hlow hhigh] at hzero
      exact hlater c (by omega) (by omega) (Except.ok.inj hzero)
  · rw [hexec]
    exact .inr ⟨c, t, rfl, hfound hc⟩

theorem allocateCluster_complete_sample : ∃ c, ((allocateCluster sampleVolume).exec
    (sampleDevice [(2, 0x0fffffff)] [])).1 = .ok c := by
  rcases allocateCluster_complete (mounts_sampleDevice [(2, 0x0fffffff)] []) rfl rfl with
    ⟨_, hfull⟩ | ⟨c, _, hexec, _⟩
  · exact absurd (by decide +kernel) (hfull 3 (by decide) (by decide))
  · exact ⟨c, congrArg Prod.fst hexec⟩

/-! ## The count of `space_info` -/

theorem countFree_eq (sector : Sector) (p : ℕ → Prop) [DecidablePred p]
    (limit sectorFirst count index : ℕ) (hlimit : limit ≤ fsInfoUnknown)
    (hentry : ∀ i, index ≤ i → i < index + count → sectorFirst + i < limit →
      (sector.readU32 (i * 4) % entryModulus = 0 ↔ p (sectorFirst + i)))
    (hindex : sectorFirst + index ≤ limit) :
    countFree sector sectorFirst limit count index (Nat.count p (sectorFirst + index)) =
      Nat.count p (min limit (sectorFirst + index + count)) := by
  induction count generalizing index with
  | zero => rw [countFree, Nat.add_zero, min_eq_right hindex]
  | succ count ih =>
    rw [countFree]
    split
    · rename_i hlast
      rw [min_eq_left (by omega), le_antisymm hlast hindex]
    · rename_i hmore
      have hle := Nat.count_le (p := p) (n := sectorFirst + index)
      have hnext : (if sector.readU32 (index * 4) % entryModulus = 0 then
          saturatingAdd32 (Nat.count p (sectorFirst + index)) 1
          else Nat.count p (sectorFirst + index)) = Nat.count p (sectorFirst + (index + 1)) := by
        rw [← Nat.add_assoc, Nat.count_succ]
        simp only [hentry index le_rfl (by omega) (by omega), saturatingAdd32]
        split <;> omega
      rw [hnext, ih (index + 1) (fun i hle hi => hentry i (by omega) (by omega)) (by omega)]
      congr 1
      omega

/-- The sectors that a run reads. -/
def Fs.reads {α : Type} (p : Fs α) (d : Device) : List ℕ :=
  (p.run.calls d).filterMap fun
    | .read lba => some lba
    | _ => none

theorem reads_bind {α β : Type} {p : Fs α} {f : α → Fs β} {a : α} (h : p.exec d = (.ok a, d')) :
    Fs.reads (p >>= f) d = Fs.reads p d ++ Fs.reads (f a) d' := by
  refine (congrArg _ (Program.calls_bind p.run (ExceptT.bindCont f) d)).trans ?_
  rw [show Program.run p.run d = (.ok a, d') from h, List.filterMap_append]
  rfl

theorem reads_pure {α : Type} (a : α) (d : Device) : Fs.reads (pure a) d = [] :=
  rfl

theorem reads_clusterLba (v : Volume) (c : ℕ) (d : Device) : Fs.reads (v.clusterLba c) d = [] := by
  unfold Volume.clusterLba
  split
  · split <;> rfl
  · rfl

theorem reads_rejectIf (q : Prop) [Decidable q] (e : Error) (d : Device) :
    Fs.reads (rejectIf q e) d = [] := by
  unfold rejectIf
  split <;> rfl

/-- The clusters that `space_info` looks for. -/
def Volume.IsFree (v : Volume) (disk : ℕ → Sector) (c : ℕ) : Prop :=
  2 ≤ c ∧ (v.view disk).fat c = 0

instance (v : Volume) (disk : ℕ → Sector) : DecidablePred (v.IsFree disk) :=
  fun _ => inferInstanceAs (Decidable (_ ∧ _))

/-- The entries of the sector of a cluster, from this cluster on. -/
theorem countFree_sector (hm : v.Mounted sectors) {cluster : ℕ} (hlow : 2 ≤ cluster)
    (hhigh : cluster < v.clusterCount + 2) (disk : ℕ → Sector) :
    countFree (disk (v.fatSector cluster)) (cluster / 128 * 128) (v.clusterCount + 2)
        (128 - cluster % 128) (cluster % 128) (Nat.count (v.IsFree disk) cluster) =
      Nat.count (v.IsFree disk) (min (v.clusterCount + 2) (cluster / 128 * 128 + 128)) := by
  have hsmall := hm.clusters_lt
  simp only [fat32BadCluster] at hsmall
  have hcount := countFree_eq (disk (v.fatSector cluster)) (v.IsFree disk) (v.clusterCount + 2)
    (cluster / 128 * 128) (128 - cluster % 128) (cluster % 128)
    (by simp only [fsInfoUnknown]; omega) ?_ (by omega)
  · rw [Nat.div_add_mod' cluster 128] at hcount
    rw [hcount]
    congr 2
    omega
  · intro i hle hi hlt
    have hc : v.isAllocatable (cluster / 128 * 128 + i) := hm.allocatable_iff.mpr ⟨by omega, hlt⟩
    have hsector : v.fatSector (cluster / 128 * 128 + i) = v.fatSector cluster := by
      simp only [Volume.fatSector, sectorSize]
      omega
    have hoffset : fatOffset (cluster / 128 * 128 + i) = i * 4 := by
      simp only [fatOffset, sectorSize]
      omega
    simp only [Volume.IsFree, Volume.view, hc, hc.1, ↓reduceIte, hsector, hoffset, true_and]

theorem spaceLoop_round (hm : v.Mounted d.sectors) {cluster : ℕ} (hlow : 2 ≤ cluster)
    (hhigh : cluster < v.clusterCount + 2) (fuel free : ℕ) :
    let round := spaceLoop v (v.clusterCount + 2) (fuel + 1) cluster free
    let rest := spaceLoop v (v.clusterCount + 2) fuel (cluster / 128 * 128 + 128)
      (countFree (d.disk (v.fatSector cluster)) (cluster / 128 * 128) (v.clusterCount + 2)
        (128 - cluster % 128) (cluster % 128) free)
    round.exec d = rest.exec d ∧ Fs.reads round d = v.fatSector cluster :: Fs.reads rest d := by
  intro round rest
  have hsmall := hm.clusters_lt
  simp only [fat32BadCluster] at hsmall
  have hc : v.isAllocatable cluster := hm.allocatable_iff.mpr ⟨hlow, hhigh⟩
  have hlba := exec_clusterLba hm cluster d
  rw [if_pos hc] at hlba
  have hbelow := hm.fatSector_lt_firstData hc
  have hread := exec_readSector_of_lt (hbelow.trans_le hm.firstData_le)
  have hreject : ∀ {q : Prop} [Decidable q], ¬q →
      (rejectIf q .corruptChain : Fs Unit).exec d = (.ok (), d) :=
    fun hq => exec_rejectIf_of_not hq d
  have hfirst : (v.fatSector cluster - v.firstFatSector) * entriesPerSector % 2 ^ 32 =
      cluster / 128 * 128 := by
    simp only [Volume.fatSector, entriesPerSector, sectorSize]
    omega
  have hindex : cluster - cluster / 128 * 128 = cluster % 128 := by omega
  have hnext : saturatingAdd32 (cluster / 128 * 128) entriesPerSector =
      cluster / 128 * 128 + 128 := by
    simp only [saturatingAdd32, fsInfoUnknown, entriesPerSector, sectorSize]
    omega
  have hgrows : ¬cluster / 128 * 128 + 128 ≤ cluster := by omega
  simp only [round, spaceLoop, if_neg (not_le.mpr hhigh)]
  constructor
  · rw [exec_bind_ok hlba, exec_bind_ok (hreject (not_le.mpr hbelow)), exec_bind_ok hread, hfirst,
      hnext, hindex, exec_bind_ok (hreject hgrows)]
    rfl
  · rw [reads_bind hlba, reads_clusterLba, reads_bind (hreject (not_le.mpr hbelow)),
      reads_rejectIf, reads_bind hread, hfirst, hnext, hindex, reads_bind (hreject hgrows),
      reads_rejectIf]
    rfl

/-- No round reads a sector that an earlier one has read. -/
theorem exec_spaceLoop (hm : v.Mounted d.sectors) {fuel cluster : ℕ} (hlow : 2 ≤ cluster)
    (hfuel : v.clusterCount + 2 ≤ cluster + fuel) :
    let run := spaceLoop v (v.clusterCount + 2) fuel cluster
      (Nat.count (v.IsFree d.disk) (min (v.clusterCount + 2) cluster))
    run.exec d = (.ok (Nat.count (v.IsFree d.disk) (v.clusterCount + 2)), d) ∧
      (Fs.reads run d).Pairwise (· < ·) ∧ ∀ lba ∈ Fs.reads run d, v.fatSector cluster ≤ lba := by
  induction fuel generalizing cluster with
  | zero =>
    rw [min_eq_left (by omega)]
    exact ⟨rfl, .nil, fun _ hmem => nomatch hmem⟩
  | succ fuel ih =>
    intro run
    by_cases hend : v.clusterCount + 2 ≤ cluster
    · have hrun : run = pure (Nat.count (v.IsFree d.disk) (v.clusterCount + 2)) := by
        simp only [run, spaceLoop, hend, ↓reduceIte, min_eq_left]
      rw [hrun]
      exact ⟨rfl, .nil, fun _ hmem => nomatch hmem⟩
    · have hhigh := not_le.mp hend
      obtain ⟨hexec, hreads⟩ := spaceLoop_round hm hlow hhigh fuel
        (Nat.count (v.IsFree d.disk) cluster)
      rw [countFree_sector hm hlow hhigh] at hexec hreads
      obtain ⟨hrest, hsorted, hbound⟩ := ih (show 2 ≤ cluster / 128 * 128 + 128 by omega)
        (by omega)
      simp only [run, min_eq_right hhigh.le]
      rw [hexec, hreads]
      have hnext : v.fatSector cluster < v.fatSector (cluster / 128 * 128 + 128) := by
        simp only [Volume.fatSector, sectorSize]
        omega
      exact ⟨hrest, .cons (fun lba hlba => hnext.trans_le (hbound lba hlba)) hsorted,
        List.forall_mem_cons.mpr ⟨le_rfl, fun lba hlba => hnext.le.trans (hbound lba hlba)⟩⟩

theorem exec_readFsInfo_reads (hm : v.Mounted d.sectors) :
    (∃ info, (readFsInfo v).exec d = (.ok info, d)) ∧
      ∀ lba ∈ Fs.reads (readFsInfo v) d, lba < v.firstFatSector := by
  unfold readFsInfo
  split
  · exact ⟨⟨_, rfl⟩, fun lba hlba => nomatch hlba⟩
  · rename_i info hinfo
    have hlow := hm.fsInfo info hinfo
    have hread := exec_readSector_of_lt (hm.reserved_lt hlow)
    rw [exec_bind_ok hread, reads_bind hread]
    split
    · exact ⟨⟨_, rfl⟩, fun lba hlba => List.mem_singleton.mp hlba ▸ hlow⟩
    · exact ⟨⟨_, rfl⟩, fun lba hlba => List.mem_singleton.mp hlba ▸ hlow⟩

/-- `space_info` counts the clusters whose entry `read_fat_entry` finds to be zero, and reads no
FAT sector twice. -/
theorem spaceInfo_exact (h : d.Mounts v) :
    ∃ info, (spaceInfo v).exec d = (.ok info, d) ∧
      info.freeClusters = ((Finset.Ico 2 (v.clusterCount + 2)).filter
        fun c => ((readFatEntry v c).exec d).1 = .ok 0).card ∧
      ((Fs.reads (spaceInfo v) d).filter (v.firstFatSector ≤ ·)).Nodup := by
  have hm := h.mounted
  have hsmall : ¬2 ^ 32 ≤ v.clusterCount + 2 := by
    have := hm.clusters_lt
    simp only [fat32BadCluster] at this
    omega
  have hzero : Nat.count (v.IsFree d.disk) (min (v.clusterCount + 2) 2) = 0 := by
    rw [min_eq_right (by omega)]
    simp [Nat.count_succ, Volume.IsFree]
  have hloop := exec_spaceLoop hm le_rfl (Nat.le_add_left (v.clusterCount + 2) 2)
  rw [hzero] at hloop
  obtain ⟨hexec, hsorted, _⟩ := hloop
  obtain ⟨⟨info, hinfo⟩, hlow⟩ := exec_readFsInfo_reads hm
  have hchecked : (rejectIf (2 ^ 32 ≤ v.clusterCount + 2) .unsupportedGeometry : Fs Unit).exec d =
      (.ok (), d) := exec_rejectIf_of_not hsmall d
  refine ⟨_, (exec_bind_ok hchecked).trans ((exec_bind_ok hexec).trans (exec_bind_ok hinfo)),
    ?_, ?_⟩
  · refine (Nat.count_eq_card_filter_range _ _).trans (congrArg Finset.card ?_)
    ext c
    rw [Finset.mem_filter, Finset.mem_filter, Finset.mem_range, Finset.mem_Ico, Volume.IsFree,
      exec_readFatEntry hm]
    by_cases hc : 2 ≤ c ∧ c < v.clusterCount + 2
    · simp [hm.allocatable_iff, hc]
    · simp only [hc, false_and, iff_false]
      omega
  · have hnone : (Fs.reads (readFsInfo v) d).filter (v.firstFatSector ≤ ·) = [] :=
      List.filter_eq_nil_iff.mpr fun lba hlba => by simpa using hlow lba hlba
    rw [spaceInfo, reads_bind hchecked, reads_rejectIf, reads_bind hexec, reads_bind hinfo,
      reads_pure, List.append_nil, List.nil_append, List.filter_append, hnone, List.append_nil]
    exact (hsorted.imp fun h => h.ne).filter _

theorem spaceInfo_exact_sample :
    ∃ info, ((spaceInfo sampleVolume).exec (sampleDevice [(2, 0x0fffffff)] [])).1 = .ok info := by
  obtain ⟨info, hexec, _⟩ := spaceInfo_exact (mounts_sampleDevice [(2, 0x0fffffff)] [])
  exact ⟨info, congrArg Prod.fst hexec⟩

end WovenHat.Fat32
