import WovenHat.Verification.Fat32.Confinement
import WovenHat.Verification.Fat32.View

/-! # Reading and writing FAT entries -/

namespace WovenHat.Fat32

open Library Block Fallible Volume

/-! ## Devices over time -/

/-- What no sector program changes: the size and the write protection, and that a device
without a pending fault has none later. -/
structure Device.Evolves (d d' : Device) : Prop where
  sectors : d'.sectors = d.sectors
  readOnly : d'.readOnly = d.readOnly
  fault : d.fault = none → d'.fault = none

theorem Device.evolves_write (d : Device) (lba : ℕ) (sector : Sector) :
    d.Evolves (d.write lba sector).2 := by
  unfold write
  split
  · exact ⟨rfl, rfl, id⟩
  split
  · exact ⟨rfl, rfl, id⟩
  split
  · exact ⟨rfl, rfl, id⟩
  · exact ⟨rfl, rfl, fun _ => rfl⟩
  · rename_i hfault
    exact ⟨rfl, rfl, fun h => by rw [h] at hfault; cases hfault⟩

variable {α : Type} {R : Device → Device → Prop} {sectors : ℕ}

theorem evolves_exec (p : Fs α) (d : Device) : d.Evolves (p.exec d).2 := by
  refine Program.run_rel (fun _ => ⟨rfl, rfl, id⟩) ?_ ?_ _ d
  · intro s t u hst htu
    exact ⟨htu.sectors.trans hst.sectors, htu.readOnly.trans hst.readOnly,
      fun h => htu.fault (hst.fault h)⟩
  · intro op s
    cases op with
    | sectorCount => exact ⟨rfl, rfl, id⟩
    | read lba => exact ⟨rfl, rfl, id⟩
    | write lba sector => exact s.evolves_write lba sector

@[simp] theorem exec_sectors (p : Fs α) (d : Device) : (p.exec d).2.sectors = d.sectors :=
  (evolves_exec p d).sectors

theorem post_bind {β : Type} {p : Fs α} {f : α → Fs β} {d : Device}
    {P : Except Error α → Device → Prop} {Q : Except Error β → Device → Prop} (h : p.Post d P)
    (hok : ∀ a t, d.Evolves t → P (.ok a) t → (f a).Post t Q)
    (herror : ∀ e t, d.Evolves t → P (.error e) t → Q (.error e) t) : (p >>= f).Post d Q := by
  have hboth : p.Post d fun r t => d.Evolves t ∧ P r t := ⟨evolves_exec p d, h⟩
  exact hboth.bind (fun a t ht => hok a t ht.1 ht.2) (fun e t ht => herror e t ht.1 ht.2)

theorem post_onError {p : Fs α} {cleanup : Fs Unit} {d : Device}
    {P Q : Except Error α → Device → Prop} (h : p.Post d P)
    (hok : ∀ a t, d.Evolves t → P (.ok a) t → Q (.ok a) t)
    (herror : ∀ e t, d.Evolves t → P (.error e) t →
      cleanup.Post t fun _ u => t.Evolves u → Q (.error e) u) : (p.onError cleanup).Post d Q := by
  have hboth : p.Post d fun r t => d.Evolves t ∧ P r t := ⟨evolves_exec p d, h⟩
  refine hboth.onError (fun a t ht => hok a t ht.1 ht.2) (fun e t ht => ?_)
  exact herror e t ht.1 ht.2 (evolves_exec cleanup t)

variable {lba : ℕ}

/-- A write in range takes effect, or it fails and changes nothing but the fault. -/
theorem Device.write_cases {d : Device} (h : lba < d.sectors) (sector : Sector) :
    ((d.write lba sector).1 = .ok () ∧ d.readOnly = false ∧ d.fault ≠ some 0 ∧
        (d.write lba sector).2 =
          { d with disk := Function.update d.disk lba sector, fault := d.fault.map (· - 1) }) ∨
      (∃ e, (d.write lba sector).1 = .error e) ∧ (d.write lba sector).2.disk = d.disk ∧
        (d.readOnly = false → d.fault = some 0 ∧ (d.write lba sector).2.fault = none) := by
  unfold write
  cases hro : d.readOnly with
  | true => simp
  | false =>
    simp only [Bool.false_eq_true, ↓reduceIte, Nat.not_le.mpr h]
    rcases hfault : d.fault with _ | _ | k
    · simp
    · simp
    · simp

variable {v : Volume} {d d' : Device} {cluster : ℕ}

/-! ## Reading -/

theorem exec_readFatEntry (hm : v.Mounted d.sectors) (cluster : ℕ) :
    (readFatEntry v cluster).exec d =
      (if v.isAllocatable cluster then .ok ((v.view d.disk).fat cluster)
        else .error .corruptChain, d) := by
  by_cases hc : v.isAllocatable cluster
  · have hlba := exec_clusterLba hm cluster d
    have hsector := hm.fatSector_lt_firstData hc
    have hrange : v.fatSector cluster < d.sectors := by
      have := hm.firstData_le
      omega
    have hread := exec_readSector_of_lt hrange
    rw [if_pos hc] at hlba ⊢
    rw [readFatEntry, exec_bind_ok hlba,
      exec_bind_ok (exec_rejectIf_of_not (Nat.not_le.mpr hsector) d), exec_bind_ok hread,
      exec_pure]
    simp [view, hc]
  · have hlba := exec_clusterLba hm cluster d
    rw [if_neg hc] at hlba ⊢
    rw [readFatEntry, exec_bind_error hlba]

def linkResult : Option (Option ℕ) → Except Error ClusterLink
  | none => .error .corruptChain
  | some none => .ok .last
  | some (some next) => .ok (.next next)

theorem exec_nextCluster (hm : v.Mounted d.sectors) (cluster : ℕ) :
    (nextCluster v cluster).exec d = (linkResult (v.linkOf (v.view d.disk).fat cluster), d) := by
  have hread := exec_readFatEntry hm cluster
  by_cases hc : v.isAllocatable cluster
  · rw [if_pos hc] at hread
    rw [nextCluster, exec_bind_ok hread]
    generalize (v.view d.disk).fat = fat
    by_cases hend : fat32EndMin ≤ fat cluster
    · simp [linkOf, hc, hend, linkResult]
    by_cases hlow : fat cluster < 2 ∨ fat cluster = fat32BadCluster
    · have hlink : v.linkOf fat cluster = none := by
        have : ¬(v.isAllocatable (fat cluster) ∧ fat cluster ≠ fat32BadCluster) := by
          rintro ⟨⟨hge, _⟩, hne⟩
          rcases hlow with h | h
          · omega
          · exact hne h
        simp [linkOf, hc, hend, this]
      rw [if_neg hend, if_pos hlow, hlink]
      rfl
    · have hlba := exec_clusterLba hm (fat cluster) d
      simp only [not_or] at hlow
      by_cases hn : v.isAllocatable (fat cluster)
      · rw [if_pos hn] at hlba
        have hlink : v.linkOf fat cluster = some (some (fat cluster)) := by
          simp [linkOf, hc, hend, hn, hlow.2]
        rw [if_neg hend, if_neg (by simpa using hlow), exec_bind_ok hlba, hlink]
        rfl
      · rw [if_neg hn] at hlba
        have hlink : v.linkOf fat cluster = none := by
          simp [linkOf, hc, hend, hn]
        rw [if_neg hend, if_neg (by simpa using hlow), exec_bind_error hlba, hlink]
        rfl
  · rw [if_neg hc] at hread
    rw [nextCluster, exec_bind_error hread]
    simp [linkOf, hc, linkResult]

/-! ## Writing -/

/-- The value that `write_fat_entry` stores has the new value in its low bits. -/
theorem stored_mod (existing value : ℕ) :
    (existing / entryModulus * entryModulus + value % entryModulus) % entryModulus =
      value % entryModulus := by
  simp only [entryModulus]
  omega

/-- One FAT copy: the first one decides the view, the others do not show in it. -/
theorem post_writeFatCopy (hm : v.Mounted d.sectors) (hc : v.isAllocatable cluster) (value : ℕ)
    {copy : ℕ} (hcopy : copy < v.fatCount) : (writeFatCopy v cluster value copy).Post d fun r d' =>
      (r = .ok () ∧ d.readOnly = false ∧ d.fault ≠ some 0 ∧ d'.fault = d.fault.map (· - 1) ∧
        v.view d'.disk = if copy = 0 then (v.view d.disk).setFat cluster (value % entryModulus)
          else v.view d.disk) ∨
      ((∃ b, r = .error (.block b)) ∧ v.view d'.disk = v.view d.disk ∧
        (d.readOnly = false → d.fault = some 0 ∧ d'.fault = none)) := by
  have hlt := hm.fatCopy_lt hc hcopy
  have hrange : v.firstFatSector + copy * v.fatSize + cluster * 4 / sectorSize < d.sectors := by
    have := hm.firstData_le
    omega
  rw [Post, writeFatCopy, exec_bind_ok (exec_rejectIf_of_not (Nat.not_le.mpr hlt) d),
    exec_bind_ok (exec_readSector_of_lt hrange), exec_writeSector]
  rcases Device.write_cases hrange _ with ⟨hok, hro, hfault, hstate⟩ | ⟨⟨e, herror⟩, hdisk, hfault⟩
  · left
    rw [hok, hstate]
    refine ⟨rfl, hro, hfault, rfl, ?_⟩
    split
    · rename_i hzero
      subst hzero
      rw [Nat.zero_mul, Nat.add_zero]
      exact (view_write_fat hm d.disk hc _).trans (by rw [stored_mod])
    · rename_i hpos
      exact view_write_copy hm hc (Nat.pos_of_ne_zero hpos) hcopy _
  · right
    rw [herror]
    exact ⟨⟨_, rfl⟩, by rw [hdisk], hfault⟩

/-- What `write_fat_entry` can do. It sets the entry; or it fails before the first copy is
written; or the fault hits the second copy after the first one was written. -/
inductive FatWrite (v : Volume) (cluster value : ℕ) (d : Device) :
    Except Error Unit → Device → Prop where
  | done {d' : Device} (writable : d.readOnly = false) (first : d.fault ≠ some 0)
      (second : v.fatCount = 2 → d.fault ≠ some 1)
      (view : v.view d'.disk = (v.view d.disk).setFat cluster (value % entryModulus)) :
      FatWrite v cluster value d (.ok ()) d'
  | missed {b : Block.Error} {d' : Device} (view : v.view d'.disk = v.view d.disk)
      (struck : d.readOnly = false → d.fault = some 0 ∧ d'.fault = none) :
      FatWrite v cluster value d (.error (.block b)) d'
  | torn {b : Block.Error} {d' : Device} (copies : v.fatCount = 2) (writable : d.readOnly = false)
      (struck : d.fault = some 1) (spent : d'.fault = none)
      (view : v.view d'.disk = (v.view d.disk).setFat cluster (value % entryModulus)) :
      FatWrite v cluster value d (.error (.block b)) d'

theorem post_writeFatEntry (hm : v.Mounted d.sectors) (hc : v.isAllocatable cluster)
    (value : ℕ) : (writeFatEntry v cluster value).Post d (FatWrite v cluster value d) := by
  have hlba := exec_clusterLba hm cluster d
  rw [if_pos hc] at hlba
  have hcopies : 0 < v.fatCount := by rcases hm.fatCount with h | h <;> omega
  have hfirst := post_writeFatCopy hm hc value hcopies
  refine Post.step hlba ?_
  rcases hm.fatCount with hone | htwo
  · have hlist : List.range v.fatCount = [0] := by rw [hone]; rfl
    rw [hlist, forM_cons]
    refine post_bind hfirst ?_ ?_
    · rintro _ t _ (⟨_, hro, hfault, _, hview⟩ | ⟨⟨_, h⟩, _⟩)
      · exact .of_exec rfl (.done hro hfault (by omega) hview)
      · cases h
    · rintro e t _ (⟨h, _⟩ | ⟨⟨b, hb⟩, hview, hstruck⟩)
      · cases h
      · cases hb
        exact .missed hview hstruck
  · have hlist : List.range v.fatCount = [0, 1] := by rw [htwo]; rfl
    rw [hlist, forM_cons]
    refine post_bind hfirst ?_ ?_
    · rintro _ t ht (⟨_, hro, hfault, hfault', hview⟩ | ⟨⟨_, h⟩, _⟩)
      · rw [if_pos rfl] at hview
        have hsecond := post_writeFatCopy (ht.sectors ▸ hm) hc value (show 1 < v.fatCount by omega)
        rw [forM_cons]
        refine post_bind hsecond ?_ ?_
        · rintro _ u _ (⟨_, _, hlater, _, hview'⟩ | ⟨⟨_, h⟩, _⟩)
          · refine .of_exec rfl (.done hro hfault (fun _ hf => ?_) ?_)
            · rw [hfault', hf] at hlater
              exact hlater rfl
            · simpa [hview] using hview'
          · cases h
        · rintro e u _ (⟨h, _⟩ | ⟨⟨b, hb⟩, hview', hstruck⟩)
          · cases h
          cases hb
          -- the first copy is written, so the fault was the second write
          obtain ⟨hzero, hnone⟩ := hstruck (ht.readOnly.trans hro)
          rw [hfault'] at hzero
          refine .torn htwo hro ?_ hnone (hview'.trans hview)
          rcases hf : d.fault with _ | _ | _ | k <;> simp_all
      · cases h
    · rintro e t _ (⟨h, _⟩ | ⟨⟨b, hb⟩, hview, hstruck⟩)
      · cases h
      · cases hb
        exact .missed hview hstruck

/-! ## FSInfo -/

def SameView (v : Volume) (d d' : Device) : Prop :=
  v.view d'.disk = v.view d.disk

instance : IsPreorder Device (SameView v) where
  refl _ := rfl
  trans _ _ _ h h' := h'.trans h

variable {p : Fs α} {Q : α → Prop}

theorem disk_eq_of_calls {P : SectorOp → Prop}
    (h : Calls P p Q) (hlba : ∀ sector, ¬P (.write lba sector)) (d : Device) :
    (p.exec d).2.disk lba = d.disk lba := by
  refine Program.Ensures.run_keeps (I := fun t : Device => t.disk lba = d.disk lba) h ?_ rfl
  intro op t hop ht
  cases op with
  | sectorCount => exact ht
  | read _ => exact ht
  | write lba' sector =>
    have hne : lba ≠ lba' := by
      rintro rfl
      exact hlba sector hop
    change (t.write lba' sector).2.disk lba = _
    unfold Device.write
    split
    · exact ht
    split
    · exact ht
    split
    · simpa [hne] using ht
    · exact ht
    · simpa [hne] using ht

theorem disk_eq_of_infos (hm : v.Mounted sectors) (h : Calls v.Infos p Q)
    (hlba : v.firstFatSector ≤ lba) (d : Device) : (p.exec d).2.disk lba = d.disk lba := by
  refine disk_eq_of_calls h (fun sector hinfo => ?_) d
  rcases hinfo with hinfo | hinfo
  · exact absurd (hm.fsInfo lba hinfo) (not_lt.mpr hlba)
  · exact absurd (hm.backup lba hinfo) (not_lt.mpr hlba)

theorem moves_of_infos (hm : v.Mounted sectors) (h : Calls v.Infos p Q) : Moves (SameView v) p := by
  intro d
  have hfirst : v.firstFatSector ≤ v.firstDataSector := hm.firstData ▸ Nat.le_add_right _ _
  refine View.ext (funext fun c => ?_) (funext fun c => funext fun index => ?_)
  · simp only [view, disk_eq_of_infos hm h (Nat.le_add_right _ _) d, fatSector]
  have hdisk := disk_eq_of_infos hm h (hfirst.trans (Volume.Mounted.firstData_le_lba v c index)) d
  simp only [view, hdisk]

theorem moves_readFsInfo [IsPreorder Device R] : Moves R (readFsInfo v) :=
  moves_of_reads calls_readFsInfo

theorem moves_updateFsInfoAfterAlloc (hm : v.Mounted sectors) (allocated : ℕ) :
    Moves (SameView v) (updateFsInfoAfterAlloc v allocated) :=
  moves_of_infos hm (calls_updateFsInfoAfterAlloc allocated)

theorem moves_updateFsInfoAfterFree (hm : v.Mounted sectors)
    (freed first : ℕ) : Moves (SameView v) (updateFsInfoAfterFree v freed first) :=
  moves_of_infos hm (calls_updateFsInfoAfterFree freed first)

end WovenHat.Fat32
