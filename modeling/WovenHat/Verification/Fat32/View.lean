import WovenHat.Verification.Fat32.Geometry

/-! # The abstract volume

What the file system means by a disk: the value of each cluster's FAT entry, as the first
copy has it, and the sectors of each cluster. Everything else on the disk (further FAT
copies, FSInfo, the boot sector) does not decide what a volume contains. -/

namespace WovenHat.Fat32

open Library Block Fallible Function

@[ext]
structure View where
  fat : ℕ → ℕ
  data : ℕ → ℕ → Sector

namespace View

def setFat (w : View) (cluster value : ℕ) : View :=
  { w with fat := Function.update w.fat cluster value }

def setData (w : View) (cluster index : ℕ) (sector : Sector) : View :=
  { w with data := Function.update w.data cluster (Function.update (w.data cluster) index sector) }

@[simp] theorem setFat_data (w : View) (c x : ℕ) : (w.setFat c x).data = w.data := rfl

@[simp] theorem setData_fat (w : View) (c i : ℕ) (s : Sector) : (w.setData c i s).fat = w.fat := rfl

@[simp] theorem setFat_fat_self (w : View) (c x : ℕ) : (w.setFat c x).fat c = x := by
  simp [setFat]

variable {c : ℕ} {cs : List ℕ}

theorem setFat_fat_of_ne (w : View) {c' : ℕ} (h : c' ≠ c) (x : ℕ) :
    (w.setFat c x).fat c' = w.fat c' := by
  simp [setFat, h]

theorem setData_data_of_ne (w : View) {c' : ℕ} (h : c' ≠ c) (i : ℕ) (s : Sector) :
    (w.setData c i s).data c' = w.data c' := by
  simp [setData, h]

def clear (w : View) (clusters : List ℕ) : View :=
  { w with fat := fun c => if c ∈ clusters then 0 else w.fat c }

@[simp] theorem clear_data (w : View) (cs : List ℕ) : (w.clear cs).data = w.data := rfl

@[simp] theorem clear_nil (w : View) : w.clear [] = w := by
  simp [clear]

theorem clear_fat_of_mem (w : View) (h : c ∈ cs) : (w.clear cs).fat c = 0 := by
  simp [clear, h]

theorem clear_fat_of_not_mem (w : View) (h : c ∉ cs) : (w.clear cs).fat c = w.fat c := by
  simp [clear, h]

theorem setFat_zero_clear (w : View) (c : ℕ) (cs : List ℕ) :
    (w.setFat c 0).clear cs = w.clear (c :: cs) := by
  apply View.ext
  · funext x
    by_cases hx : x = c
    · simp [clear, setFat, hx]
    · simp [clear, setFat, hx]
  · rfl

end View

namespace Volume

/-- The view of a disk. Outside the volume's clusters it is zero. -/
def view (v : Volume) (disk : ℕ → Sector) : View where
  fat cluster :=
    if v.isAllocatable cluster then
      (disk (v.fatSector cluster)).readU32 (fatOffset cluster) % entryModulus
    else 0
  data cluster index :=
    if v.isAllocatable cluster ∧ index < v.sectorsPerCluster then
      disk (v.lbaOf cluster + index)
    else Buffer.zero

def linkOf (v : Volume) (fat : ℕ → ℕ) (cluster : ℕ) : Option (Option ℕ) :=
  if ¬v.isAllocatable cluster then none
  else if fat32EndMin ≤ fat cluster then some none
  else if v.isAllocatable (fat cluster) ∧ fat cluster ≠ fat32BadCluster then
    some (some (fat cluster))
  else none

abbrev Chain (v : Volume) (w : View) (start : ℕ) (clusters : List ℕ) : Prop :=
  Linked (v.linkOf w.fat) start clusters

variable {v : Volume} {w : View} {sectors cluster : ℕ}
  {link : Option ℕ} {fat : ℕ → ℕ} {clusters : List ℕ} {disk : ℕ → Sector}

theorem linkOf_allocatable (h : v.linkOf fat cluster = some link) : v.isAllocatable cluster := by
  by_contra hc
  simp [linkOf, hc] at h

theorem linkOf_ne_zero (h : v.linkOf fat cluster = some link) : fat cluster ≠ 0 := by
  intro hzero
  simp [linkOf, hzero, isAllocatable, fat32EndMin] at h

variable {start next : ℕ}

theorem Chain.mem (h : v.Chain w start clusters)
    (hmem : cluster ∈ clusters) : v.isAllocatable cluster ∧ w.fat cluster ≠ 0 := by
  rcases h.link_mem hmem with hlink | ⟨_, _, hlink⟩ <;>
    exact ⟨linkOf_allocatable hlink, linkOf_ne_zero hlink⟩

theorem Chain.length_le (hm : v.Mounted sectors)
    (h : v.Chain w start clusters) : clusters.length ≤ v.clusterCount := by
  have hsub : clusters ⊆ List.range' 2 v.clusterCount := by
    intro c hc
    have := hm.allocatable_iff.mp (h.mem hc).1
    rw [List.mem_range'_1]
    omega
  simpa using (List.subperm_of_subset h.nodup hsub).length_le

theorem linkOf_eq_last (hc : v.isAllocatable cluster) (h : fat cluster = fat32EndMin) :
    v.linkOf fat cluster = some none := by
  simp [linkOf, hc, h]

theorem linkOf_eq_next (hm : v.Mounted sectors)
    (hc : v.isAllocatable cluster) (hn : v.isAllocatable next) (h : fat cluster = next) :
    v.linkOf fat cluster = some (some next) := by
  have hlt := (hm.allocatable_iff.mp hn).2
  have hbad := hm.clusters_lt
  simp only [fat32BadCluster] at hbad
  have hend : ¬fat32EndMin ≤ next := by
    simp only [fat32EndMin]
    omega
  have hne : next ≠ fat32BadCluster := by
    simp only [fat32BadCluster]
    omega
  simp [linkOf, hc, h, hend, hn, hne]

theorem linkOf_congr {fat' : ℕ → ℕ} (h : fat' cluster = fat cluster) :
    v.linkOf fat' cluster = v.linkOf fat cluster := by
  simp [linkOf, h]

theorem linkOf_update_next (hm : v.Mounted sectors) (hc : v.isAllocatable cluster)
    (hn : v.isAllocatable next) : v.linkOf (update fat cluster next) =
      update (v.linkOf fat) cluster (some (some next)) := by
  funext c
  by_cases h : c = cluster
  · subst h
    rw [update_self]
    exact linkOf_eq_next hm hc hn (update_self ..)
  · rw [update_of_ne h]
    exact linkOf_congr (update_of_ne h _ _)

theorem Chain.of_fat_eq {w' : View} (h : v.Chain w start clusters)
    (heq : ∀ c ∈ clusters, w'.fat c = w.fat c) : v.Chain w' start clusters :=
  h.congr fun c hc => linkOf_congr (heq c hc)

theorem Chain.extend (hm : v.Mounted sectors) {last new : ℕ} (h : v.Chain w start clusters)
    (hlast : clusters.getLast? = some last) (hnew : v.isAllocatable new) (hfree : w.fat new = 0) :
    v.Chain ((w.setFat new fat32EndMin).setFat last new) start (clusters ++ [new]) := by
  have hmem := List.mem_of_getLast? hlast
  have hnotin : new ∉ clusters := fun hin => (Chain.mem h hin).2 hfree
  have hold : v.Chain (w.setFat new fat32EndMin) start clusters := by
    refine Chain.of_fat_eq h fun x hx => View.setFat_fat_of_ne _ ?_ _
    rintro rfl
    exact hnotin hx
  have hone : v.Chain (w.setFat new fat32EndMin) new [new] :=
    .last (linkOf_eq_last hnew (View.setFat_fat_self ..))
  have hne : last ≠ new := fun heq => hnotin (heq ▸ hmem)
  have hjoin := hold.join hone hlast (by simpa using hne)
  rwa [← linkOf_update_next hm (Chain.mem h hmem).1 hnew] at hjoin

/-! ## Writes -/

theorem view_write_copy (hm : v.Mounted sectors) {copy : ℕ} (hc : v.isAllocatable cluster)
    (hpos : 0 < copy) (hcopy : copy < v.fatCount) (sector : Sector) : v.view (update disk
      (v.firstFatSector + copy * v.fatSize + cluster * 4 / sectorSize) sector) = v.view disk := by
  have hlt := hm.fatCopy_lt hc hcopy
  have hsize : v.fatSize ≤ copy * v.fatSize := Nat.le_mul_of_pos_left _ hpos
  apply View.ext <;> funext c
  · by_cases hc' : v.isAllocatable c
    · have : v.fatSector c ≠ v.firstFatSector + copy * v.fatSize + cluster * 4 / sectorSize := by
        have := hm.fatSector_lt hc'
        simp only [sectorSize]
        omega
      simp [view, hc', this]
    · simp [view, hc']
  · funext i
    have : v.lbaOf c + i ≠ v.firstFatSector + copy * v.fatSize + cluster * 4 / sectorSize := by
      have := Mounted.firstData_le_lba v c i
      omega
    simp [view, this]

theorem view_write_fat (hm : v.Mounted sectors) (disk : ℕ → Sector) (hc : v.isAllocatable cluster)
    (value : ℕ) : v.view (update disk (v.fatSector cluster)
        ((disk (v.fatSector cluster)).writeU32 (fatOffset cluster) value)) =
      (v.view disk).setFat cluster (value % entryModulus) := by
  have hoff : ∀ c, fatOffset c + 4 ≤ sectorSize := by
    intro c
    simp only [fatOffset, sectorSize]
    omega
  apply View.ext <;> funext c
  · by_cases hsame : c = cluster
    · subst hsame
      rw [View.setFat_fat_self]
      simp only [view, hc, ↓reduceIte, update_self]
      rw [Buffer.readU32_writeU32 _ _ _ (hoff c)]
      simp only [entryModulus]
      omega
    · rw [View.setFat_fat_of_ne _ hsame]
      by_cases hc' : v.isAllocatable c
      · simp only [view, hc', ↓reduceIte]
        by_cases hsector : v.fatSector c = v.fatSector cluster
        · rw [hsector, update_self, Buffer.readU32_writeU32_of_disjoint]
          simp only [fatSector, sectorSize] at hsector
          simp only [fatOffset, sectorSize]
          omega
        · rw [update_of_ne hsector]
      · simp [view, hc']
  · funext i
    have : v.lbaOf c + i ≠ v.fatSector cluster := by
      have := Mounted.firstData_le_lba v c i
      have := hm.fatSector_lt_firstData hc
      omega
    simp [view, this]

theorem view_write_data (hm : v.Mounted sectors) (disk : ℕ → Sector) (hc : v.isAllocatable cluster)
    {index : ℕ} (hindex : index < v.sectorsPerCluster) (sector : Sector) :
    v.view (update disk (v.lbaOf cluster + index) sector) =
      (v.view disk).setData cluster index sector := by
  apply View.ext <;> funext c
  · by_cases hc' : v.isAllocatable c
    · have : v.fatSector c ≠ v.lbaOf cluster + index := by
        have := Mounted.firstData_le_lba v cluster index
        have := hm.fatSector_lt_firstData hc'
        omega
      simp [view, hc', this]
    · simp [view, hc']
  · funext i
    by_cases hsame : c = cluster
    · subst hsame
      by_cases hi : i = index
      · subst hi
        simp [view, View.setData, hc, hindex]
      · simp [view, View.setData, hi]
    · rw [View.setData_data_of_ne _ hsame]
      by_cases hin : v.isAllocatable c ∧ i < v.sectorsPerCluster
      · have : v.lbaOf c + i ≠ v.lbaOf cluster + index := fun heq =>
          hsame (hm.lba_inj hin.1 hc hin.2 hindex heq).1
        simp [view, hin, this]
      · simp [view, hin]

end Volume

end WovenHat.Fat32
