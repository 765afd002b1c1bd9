import WovenHat.Verification.Fat32.Allocation

/-! # File contents

The bytes of a chain are the bytes of its clusters, sector after sector. `read_file_at`
returns pieces of them and `write_file_data_chain` replaces their beginning. -/

namespace WovenHat.Fat32

open Library Block Fallible List Buffer View Volume Volume.Chain

variable {v : Volume} {d d' : Device} {w w' : View} {U : Set ℕ} {c : ℕ}

def View.sectorBytes (w : View) (cluster index count : ℕ) : List UInt8 :=
  (range' index count).flatMap fun i => (w.data cluster i).toList

def Volume.bytesOf (v : Volume) (w : View) (clusters : List ℕ) : List UInt8 :=
  clusters.flatMap fun c => w.sectorBytes c 0 v.sectorsPerCluster

@[simp] theorem View.length_sectorBytes (w : View) (cluster index count : ℕ) :
    (w.sectorBytes cluster index count).length = count * sectorSize := by
  induction count generalizing index with
  | zero => simp [sectorBytes]
  | succ count ih =>
    have htail : ((range' (index + 1) count).flatMap fun i =>
        (w.data cluster i).toList).length = count * sectorSize := ih (index + 1)
    rw [sectorBytes, range'_succ, flatMap_cons, length_append, htail, length_toList]
    ring

theorem View.sectorBytes_succ (w : View) (cluster index count : ℕ) :
    w.sectorBytes cluster index (count + 1) =
      (w.data cluster index).toList ++ w.sectorBytes cluster (index + 1) count := by
  simp [sectorBytes, range'_succ]

@[simp] theorem Volume.length_bytesOf (v : Volume) (w : View) (clusters : List ℕ) :
    (v.bytesOf w clusters).length = clusters.length * v.bytesPerCluster := by
  induction clusters with
  | nil => simp [bytesOf]
  | cons c clusters ih =>
    rw [bytesOf, flatMap_cons, length_append, length_sectorBytes]
    rw [bytesOf] at ih
    rw [ih, length_cons, bytesPerCluster]
    ring

theorem Volume.bytesOf_cons (v : Volume) (w : View) (c : ℕ) (clusters : List ℕ) :
    v.bytesOf w (c :: clusters) =
      w.sectorBytes c 0 v.sectorsPerCluster ++ v.bytesOf w clusters := by
  simp [bytesOf]

variable {clusters : List ℕ} {first sectors : ℕ} {data : List UInt8}

theorem Volume.bytesOf_congr (h : ∀ c ∈ clusters, w'.data c = w.data c) :
    v.bytesOf w' clusters = v.bytesOf w clusters := by
  induction clusters with
  | nil => simp [bytesOf]
  | cons c clusters ih =>
    rw [bytesOf_cons, bytesOf_cons, ih fun x hx => h x (mem_cons_of_mem _ hx)]
    simp only [sectorBytes, h c mem_cons_self]

/-! ## Reading -/

theorem exec_readSector_data (hm : v.Mounted d.sectors) (hc : v.isAllocatable c) {i : ℕ}
    (hi : i < v.sectorsPerCluster) :
    (Fs.readSector (v.lbaOf c + i)).exec d = (.ok ((v.view d.disk).data c i), d) := by
  rw [exec_readSector_of_lt (hm.lba_lt hc hi)]
  simp [view, hc, hi]

/-- Reading the sectors of a cluster: the bytes copied are the window of what lies before
the position. -/
theorem exec_readClusterData (hm : v.Mounted d.sectors) (hc : v.isAllocatable c) (offset target : ℕ)
    {index count : ℕ} (hcount : index + count ≤ v.sectorsPerCluster) (before : List UInt8) :
    ∃ position, (readClusterData offset target (v.lbaOf c + index) count before.length
        (window offset target before)).exec d =
      (.ok (position, window offset target
        (before ++ (v.view d.disk).sectorBytes c index count)), d) ∧
      ((window offset target (before ++ (v.view d.disk).sectorBytes c index count)).length =
          target ∨ position = before.length + count * sectorSize) := by
  induction count generalizing index before with
  | zero => exact ⟨before.length, by simp [readClusterData, sectorBytes]⟩
  | succ count ih =>
    have hsector := exec_readSector_data hm hc (show index < v.sectorsPerCluster by omega)
    generalize hbytes : (v.view d.disk).data c index = sector at hsector
    obtain ⟨position, hexec, hend⟩ := ih (show index + 1 + count ≤ _ by omega)
      (before ++ sector.toList)
    rw [append_assoc, ← hbytes, ← sectorBytes_succ, hbytes] at hexec hend
    rw [length_append, length_toList] at hexec hend
    by_cases hfull : (window offset target before).length = target
    · -- the loop stops as soon as the window is filled
      rw [window_append_of_full hfull]
      exact ⟨before.length, by rw [readClusterData, if_pos hfull]; rfl, .inl hfull⟩
    have hlt : (window offset target before).length < target := by
      rw [length_window] at hfull ⊢
      omega
    have hwindow := window_append_of_lt hlt sector.toList
    refine ⟨position, ?_, hend.imp_right (by intro h; rw [h]; ring)⟩
    rw [← hexec, readClusterData, if_neg hfull]
    split
    · rename_i hopen
      have hslice := sector.slice_min (show offset - before.length ≤ sectorSize by omega)
        (target - (window offset target before).length)
      rw [exec_bind_ok hsector, hwindow, ← hslice]
      rfl
    · rename_i hclosed
      rw [hwindow, drop_eq_nil_of_le (by rw [length_toList]; omega), take_nil, append_nil]
      rfl

/-- Reading along a chain: the bytes that were asked for, or an error when there are not as
many. -/
theorem exec_readLoop (hm : v.Mounted d.sectors) (offset target : ℕ) {fuel start : ℕ}
    {g : ChainCycleGuard} (before : List UInt8) (hchain : v.Chain (v.view d.disk) start clusters)
    (hfuel : clusters.length ≤ fuel) (hg : g.Ahead v (v.view d.disk)) :
    (readLoop v offset target fuel start g before.length (window offset target before)).exec d =
      (if (window offset target (before ++ v.bytesOf (v.view d.disk) clusters)).length = target
        then .ok (window offset target (before ++ v.bytesOf (v.view d.disk) clusters))
        else .error .truncatedFile, d) := by
  induction fuel generalizing start clusters before g with
  | zero => exact absurd (length_pos_of_ne_nil hchain.ne_nil) (by omega)
  | succ fuel ih =>
    have hc : v.isAllocatable start := (mem hchain hchain.head_mem).1
    have hlba := exec_clusterLba hm start d
    rw [if_pos hc] at hlba
    obtain ⟨position, hread, hend⟩ := exec_readClusterData hm hc offset target
      (show 0 + v.sectorsPerCluster ≤ _ by omega) before
    rw [Nat.add_zero] at hread
    rw [readLoop, exec_bind_ok hlba, exec_bind_ok hread]
    by_cases hfull : (window offset target
        (before ++ (v.view d.disk).sectorBytes start 0 v.sectorsPerCluster)).length = target
    · have hall : window offset target (before ++ v.bytesOf (v.view d.disk) clusters) =
          window offset target
            (before ++ (v.view d.disk).sectorBytes start 0 v.sectorsPerCluster) := by
        cases hchain with
        | last _ => rw [bytesOf_cons]; simp [bytesOf]
        | cons _ _ =>
          rw [bytesOf_cons, ← append_assoc, window_append_of_full hfull]
      rw [hall]
      simp only [hfull, ↓reduceIte, exec_pure]
    · have hposition := hend.resolve_left hfull
      simp only [hfull, ↓reduceIte]
      rcases exec_nextCluster_of_chain hm hchain with
        ⟨hexec, rfl⟩ | ⟨next, rest, hexec, rfl, hrest⟩
      · have hall : v.bytesOf (v.view d.disk) [start] =
            (v.view d.disk).sectorBytes start 0 v.sectorsPerCluster := by
          simp [bytesOf]
        rw [exec_bind_ok hexec, hall, if_neg hfull]
        rfl
      obtain ⟨g', hadvance, hg'⟩ := ChainCycleGuard.exec_advance hm hg
      rw [exec_bind_ok hexec, bytesOf_cons, ← append_assoc]
      rw [exec_bind_ok hadvance]
      have hlen : position =
          (before ++ (v.view d.disk).sectorBytes start 0 v.sectorsPerCluster).length := by
        rw [hposition, length_append, length_sectorBytes]
      rw [hlen]
      rw [length_cons] at hfuel
      exact ih _ hrest (by omega) hg'

variable {entry : DirectoryEntry}

theorem exec_readFileAt_chain (hm : v.Mounted d.sectors)
    (hchain : v.Chain (v.view d.disk) entry.firstCluster clusters) (offset length : ℕ) :
    (readFileAt v entry offset length).exec d =
      (if (window offset (min (entry.size - offset) length)
          (v.bytesOf (v.view d.disk) clusters)).length = min (entry.size - offset) length
        then .ok (window offset (min (entry.size - offset) length)
          (v.bytesOf (v.view d.disk) clusters))
        else .error .truncatedFile, d) := by
  rw [readFileAt]
  split
  · rename_i hzero
    simp [hzero, window]
  have hloop := exec_readLoop hm offset (min (entry.size - offset) length) [] hchain
    (length_le hm hchain) (ChainCycleGuard.ahead_new hm hchain)
  simpa [window] using hloop

theorem exec_readFileAt (hm : v.Mounted d.sectors)
    (hchain : v.Chain (v.view d.disk) entry.firstCluster clusters)
    (hsize : entry.size ≤ clusters.length * v.bytesPerCluster) (offset length : ℕ) :
    (readFileAt v entry offset length).exec d =
      (.ok (window offset length ((v.bytesOf (v.view d.disk) clusters).take entry.size)), d) := by
  have hwindow : window offset length ((v.bytesOf (v.view d.disk) clusters).take entry.size) =
      window offset (min (entry.size - offset) length) (v.bytesOf (v.view d.disk) clusters) := by
    rw [window, window, drop_take, take_take, Nat.min_comm]
  have hlength : (window offset (min (entry.size - offset) length)
      (v.bytesOf (v.view d.disk) clusters)).length = min (entry.size - offset) length := by
    rw [length_window, length_bytesOf]
    omega
  rw [hwindow, exec_readFileAt_chain hm hchain, if_pos hlength]

/-- `read_file_at` fills as much of the buffer as the size of the file allows, with the bytes
of the chain from the offset on; it fails exactly if the chain ends before. -/
theorem readFileAt_exact (h : d.Mounts v)
    (hchain : v.Chain (v.view d.disk) entry.firstCluster clusters) (offset length : ℕ) :
    let target := min (entry.size - offset) length
    let bytes := ((v.bytesOf (v.view d.disk) clusters).drop offset).take target
    (readFileAt v entry offset length).exec d =
        (if target = 0 ∨ offset + target ≤ clusters.length * v.bytesPerCluster then .ok bytes
          else .error .truncatedFile, d) ∧
      (target = 0 ∨ offset + target ≤ clusters.length * v.bytesPerCluster →
        bytes.length = target) := by
  intro target bytes
  have hlength : bytes.length = target ↔
      target = 0 ∨ offset + target ≤ clusters.length * v.bytesPerCluster := by
    rw [length_take, length_drop, Volume.length_bytesOf]
    omega
  refine ⟨?_, hlength.mpr⟩
  rw [exec_readFileAt_chain h.mounted hchain]
  exact congrArg (·, d) (if_congr hlength rfl rfl)

theorem readFileAt_exact_sample : ((readFileAt sampleVolume ⟨[], 3, 700, 0x20⟩ 510 4).exec
      (sampleDevice [(3, 4), (4, 0x0fffffff)] [(3, Buffer.fill 7), (4, Buffer.fill 8)])).1 =
      .ok [7, 7, 8, 8] := by
  have hchain : sampleVolume.Chain (sampleVolume.view (sampleDevice [(3, 4), (4, 0x0fffffff)]
      [(3, Buffer.fill 7), (4, Buffer.fill 8)]).disk) 3 [3, 4] :=
    .cons (by decide +kernel) (.last (by decide +kernel))
  rw [(@readFileAt_exact _ _ _ ⟨[], 3, 700, 0x20⟩ (mounts_sampleDevice _ _) hchain 510 4).1]
  decide +kernel

/-! ## Writing -/

structure Overwritten (U : Set ℕ) (w w' : View) : Prop where
  fat_eq : w'.fat = w.fat
  data_eq : ∀ c ∉ U, w'.data c = w.data c

namespace Overwritten

theorem refl (U : Set ℕ) (w : View) : Overwritten U w w :=
  ⟨rfl, fun _ _ => rfl⟩

theorem trans {w'' : View} (h : Overwritten U w w') (h' : Overwritten U w' w'') :
    Overwritten U w w'' :=
  ⟨h'.fat_eq.trans h.fat_eq, fun c hc => (h'.data_eq c hc).trans (h.data_eq c hc)⟩

theorem mono {U' : Set ℕ} (h : Overwritten U w w') (hsub : U ⊆ U') : Overwritten U' w w' :=
  ⟨h.fat_eq, fun c hc => h.data_eq c fun hmem => hc (hsub hmem)⟩

theorem setData (w : View) (hc : c ∈ U) (i : ℕ) (sector : Sector) :
    Overwritten U w (w.setData c i sector) :=
  ⟨rfl, fun _ hc' => setData_data_of_ne w (by rintro rfl; exact hc' hc) i sector⟩

theorem chain {start : ℕ} (h : Overwritten U w w')
    (hchain : v.Chain w start clusters) : v.Chain w' start clusters := by
  rw [Volume.Chain, h.fat_eq]
  exact hchain

theorem scratch {w₀ : View} (h : Overwritten U w w') (hscratch : Scratch v U w₀ w) :
    Scratch v U w₀ w' where
  fat_eq c hc := by rw [h.fat_eq, hscratch.fat_eq c hc]
  data_eq c hc := by rw [h.data_eq c hc, hscratch.data_eq c hc]
  closed c hc next hlink := hscratch.closed c hc next (by rwa [h.fat_eq] at hlink)

end Overwritten

theorem post_writeSector_data (hm : v.Mounted d.sectors) (hc : v.isAllocatable c) {i : ℕ}
    (hi : i < v.sectorsPerCluster) (sector : Sector) :
    (Fs.writeSector (v.lbaOf c + i) sector).Post d fun r d' =>
      (r = .ok () → v.view d'.disk = (v.view d.disk).setData c i sector) ∧
        (r ≠ .ok () → v.view d'.disk = v.view d.disk) := by
  rw [Post, exec_writeSector]
  rcases Device.write_cases (hm.lba_lt hc hi) sector with ⟨hok, _, _, hstate⟩ | ⟨⟨e, he⟩, hdisk, _⟩
  · rw [hok, hstate]
    exact ⟨fun _ => view_write_data hm d.disk hc hi sector, fun h => absurd rfl h⟩
  · rw [he, hdisk]
    exact ⟨by rintro ⟨⟩, fun _ => rfl⟩

/-- The bytes of one sector, padded with zeros, go on with those of the next ones. -/
theorem padded_append (bytes : List UInt8) (size rest : ℕ) :
    bytes.take size ++ replicate (size - bytes.length) 0 ++
        ((bytes.drop size).take rest ++ replicate (rest - (bytes.drop size).length) 0) =
      bytes.take (size + rest) ++ replicate (size + rest - bytes.length) 0 := by
  by_cases h : bytes.length ≤ size
  · rw [drop_eq_nil_of_le h, take_nil, take_of_length_le h,
      take_of_length_le (by omega), nil_append, append_assoc,
      replicate_append_replicate, length_nil]
    congr 2
    omega
  · rw [Nat.sub_eq_zero_of_le (by omega), replicate_zero, append_nil,
      ← append_assoc, take_add, length_drop]
    congr 2
    omega

section Clusters

variable (hm : v.Mounted d.sectors)

include hm

theorem post_writeClusterData (hc : v.isAllocatable c)
    {index count : ℕ} (hcount : index + count ≤ v.sectorsPerCluster) (remaining : List UInt8) :
    (writeClusterData (v.lbaOf c) index count remaining).Post d fun r d' =>
      Overwritten {c} (v.view d.disk) (v.view d'.disk) ∧
      (∀ i < index, (v.view d'.disk).data c i = (v.view d.disk).data c i) ∧
      ∀ rest, r = .ok rest → rest = remaining.drop (count * sectorSize) ∧
        (v.view d'.disk).sectorBytes c index count =
          remaining.take (count * sectorSize) ++
            replicate (count * sectorSize - remaining.length) 0 := by
  induction count generalizing d index remaining with
  | zero =>
    refine .of_exec rfl ⟨.refl _ _, fun _ _ => rfl, ?_⟩
    rintro _ ⟨⟩
    simp [sectorBytes]
  | succ count ih =>
    have hwrite := post_writeSector_data hm hc (show index < v.sectorsPerCluster by omega)
      (ofList (remaining.take sectorSize))
    refine post_bind hwrite ?_ ?_
    · intro _ t hevolves ht
      have hview := ht.1 rfl
      have hfirst : Overwritten {c} (v.view d.disk) (v.view t.disk) := by
        rw [hview]
        exact .setData _ (Set.mem_singleton c) index _
      refine (ih (hevolves.sectors ▸ hm) (show index + 1 + count ≤ _ by omega) _).mono ?_
      rintro r u ⟨hover, hkept, hok⟩
      refine ⟨hfirst.trans hover, ?_, ?_⟩
      · intro i hi
        rw [hkept i (by omega), hview]
        simp [setData, Nat.ne_of_lt hi]
      intro rest hr
      obtain ⟨hrest, hbytes⟩ := hok rest hr
      have hhead : (v.view u.disk).data c index = ofList (remaining.take sectorSize) := by
        rw [hkept index (by omega), hview]
        simp [setData]
      have hpad := toList_ofList (n := sectorSize) (length_take_le sectorSize remaining)
      rw [length_take] at hpad
      refine ⟨?_, ?_⟩
      · rw [hrest, drop_drop, Nat.add_mul, Nat.one_mul, Nat.add_comm]
      rw [sectorBytes_succ, hhead, hbytes, hpad,
        show sectorSize - min sectorSize remaining.length =
          sectorSize - remaining.length by omega, padded_append,
        Nat.add_mul, Nat.one_mul, Nat.add_comm sectorSize]
    · intro e t _ ht
      have hview := ht.2 (by simp)
      exact ⟨by rw [hview]; exact .refl _ _, fun i _ => by rw [hview], by rintro _ ⟨⟩⟩

theorem post_writeDataLoop {fuel start : ℕ} (hchain : v.Chain (v.view d.disk) start clusters)
    (hfuel : clusters.length ≤ fuel) (remaining : List UInt8) :
    (writeDataLoop v fuel start remaining).Post d fun r d' =>
      Overwritten {c | c ∈ clusters} (v.view d.disk) (v.view d'.disk) ∧
        (r = .ok () → remaining <+: v.bytesOf (v.view d'.disk) clusters) := by
  induction fuel generalizing d start clusters remaining with
  | zero => exact absurd (length_pos_of_ne_nil hchain.ne_nil) (by omega)
  | succ fuel ih =>
    have hc : v.isAllocatable start := (mem hchain hchain.head_mem).1
    have hlba := exec_clusterLba hm start d
    rw [if_pos hc] at hlba
    have hsub : ({start} : Set ℕ) ⊆ {c | c ∈ clusters} :=
      Set.singleton_subset_iff.mpr hchain.head_mem
    have hwrite := post_writeClusterData hm hc (show 0 + v.sectorsPerCluster ≤ _ by omega) remaining
    refine Post.step hlba (post_bind hwrite ?_ ?_)
    · rintro rest t hevolves ⟨hover, _, hok⟩
      have hmt : v.Mounted t.sectors := hevolves.sectors ▸ hm
      obtain ⟨hrest, hbytes⟩ := hok rest rfl
      have hchain' := hover.chain hchain
      split
      · rename_i hempty
        refine .of_exec rfl ⟨hover.mono hsub, fun _ => ?_⟩
        have hshort : remaining.length ≤ v.sectorsPerCluster * sectorSize := by
          rw [hrest, List.isEmpty_iff, List.drop_eq_nil_iff] at hempty
          exact hempty
        rw [List.take_of_length_le hshort] at hbytes
        cases hchain with
        | last _ | cons _ _ =>
          rw [bytesOf_cons, hbytes, append_assoc]
          exact prefix_append _ _
      · rename_i hmore
        rcases exec_nextCluster_of_chain hmt hchain' with
          ⟨hexec, _⟩ | ⟨next, tail, hexec, rfl, htail⟩
        · exact Post.step hexec (.of_exec rfl ⟨hover.mono hsub, nofun⟩)
        refine Post.step hexec ?_
        rw [length_cons] at hfuel
        refine (ih hmt htail (by omega) rest).mono fun r u hu => ⟨?_, fun hr => ?_⟩
        · exact (hover.mono hsub).trans (hu.1.mono fun x hx => mem_cons_of_mem _ hx)
        have hnotin : start ∉ tail := (nodup_cons.mp hchain.nodup).1
        have hlong : v.sectorsPerCluster * sectorSize ≤ remaining.length := by
          rw [hrest, List.isEmpty_iff, List.drop_eq_nil_iff] at hmore
          omega
        have hkept : (v.view u.disk).sectorBytes start 0 v.sectorsPerCluster =
            remaining.take (v.sectorsPerCluster * sectorSize) := by
          rw [sectorBytes, hu.1.data_eq start hnotin, ← sectorBytes, hbytes,
            Nat.sub_eq_zero_of_le hlong, replicate_zero, append_nil]
        have hprefix := hu.2 hr
        rw [hrest] at hprefix
        rw [bytesOf_cons, hkept]
        nth_rewrite 1 [← take_append_drop (v.sectorsPerCluster * sectorSize) remaining]
        exact (prefix_append_right_inj _).mpr hprefix
    · rintro e t _ ⟨hover, _, _⟩
      exact ⟨hover.mono hsub, nofun⟩

theorem post_writeFileDataChain
    (hchain : clusters = [] ∧ data = [] ∨ v.Chain (v.view d.disk) first clusters) :
    (writeFileDataChain v first data).Post d fun r d' =>
      Overwritten {c | c ∈ clusters} (v.view d.disk) (v.view d'.disk) ∧
        (r = .ok () → data <+: v.bytesOf (v.view d'.disk) clusters) := by
  unfold writeFileDataChain
  split
  · rename_i hempty
    refine .of_exec rfl ⟨.refl _ _, fun _ => ?_⟩
    rw [List.isEmpty_iff.mp hempty]
    exact List.nil_prefix
  rename_i hdata
  rw [List.isEmpty_iff] at hdata
  have hchain := hchain.resolve_left fun h => hdata h.2
  have hlow := (mem hchain hchain.head_mem).1.1
  rw [if_neg (by omega)]
  exact post_writeDataLoop hm hchain (length_le hm hchain) data

/-- The sectors that `zero_cluster` has written stay zero. -/
theorem post_zeroSectors (hc : v.isAllocatable c) {indices : List ℕ}
    (hindices : ∀ i ∈ indices, i < v.sectorsPerCluster) :
    (indices.forM fun i => Fs.writeSector (v.lbaOf c + i) zero).Post d fun r d' =>
      Overwritten {c} (v.view d.disk) (v.view d'.disk) ∧
      (∀ i, (v.view d.disk).data c i = zero → (v.view d'.disk).data c i = zero) ∧
      (r = .ok () → ∀ i ∈ indices, (v.view d'.disk).data c i = zero) := by
  induction indices generalizing d with
  | nil => exact .of_exec rfl ⟨.refl _ _, fun _ h => h, by simp⟩
  | cons i indices ih =>
    have hwrite := post_writeSector_data hm hc (hindices i mem_cons_self) zero
    rw [forM_cons]
    refine post_bind hwrite ?_ ?_
    · intro _ t hevolves ht
      have hview := ht.1 rfl
      have hzero : (v.view t.disk).data c i = zero := by
        rw [hview]
        simp [setData]
      have hkeep : ∀ j, (v.view d.disk).data c j = zero → (v.view t.disk).data c j = zero := by
        intro j hj
        by_cases hij : j = i
        · rw [hij, hzero]
        · rw [hview]
          simpa [setData, hij] using hj
      refine (ih (hevolves.sectors ▸ hm) fun j hj => hindices j (mem_cons_of_mem _ hj)).mono ?_
      rintro r u ⟨hover, hstays, hok⟩
      refine ⟨?_, fun j hj => hstays j (hkeep j hj), ?_⟩
      · refine .trans ?_ hover
        rw [hview]
        exact .setData _ (Set.mem_singleton c) i _
      · intro hr j hj
        rcases mem_cons.mp hj with rfl | hj
        · exact hstays j hzero
        · exact hok hr j hj
    · intro e t _ ht
      have hview := ht.2 (by simp)
      exact ⟨by rw [hview]; exact .refl _ _, fun j hj => by rw [hview, hj], by rintro ⟨⟩⟩

theorem post_zeroCluster (hc : v.isAllocatable c) : (zeroCluster v c).Post d fun r d' =>
      Overwritten {c} (v.view d.disk) (v.view d'.disk) ∧
        (r = .ok () → ∀ i < v.sectorsPerCluster, (v.view d'.disk).data c i = zero) := by
  have hlba := exec_clusterLba hm c d
  rw [if_pos hc] at hlba
  refine Post.step hlba ((post_zeroSectors hm hc ?_).mono ?_)
  · intro i hi
    exact mem_range.mp hi
  · rintro r t ⟨hover, _, hok⟩
    exact ⟨hover, fun hr i hi => hok hr i (mem_range.mpr hi)⟩

end Clusters

/-! ## Round trip -/

/-- A chain of the length that `create_file_in_directory` asks for holds the data. -/
theorem Volume.Mounted.length_le_needed (hm : v.Mounted sectors) (length : ℕ) :
    length ≤ (length + v.bytesPerCluster - 1) / v.bytesPerCluster * v.bytesPerCluster := by
  have hpos : 0 < v.bytesPerCluster := Nat.mul_pos hm.cluster_pos (by decide)
  have hmod := Nat.div_add_mod (length + v.bytesPerCluster - 1) v.bytesPerCluster
  have hlt := Nat.mod_lt (length + v.bytesPerCluster - 1) hpos
  rw [Nat.mul_comm] at hmod
  omega

theorem Volume.Mounted.needed_eq_zero (hm : v.Mounted sectors) {length : ℕ} :
    (length + v.bytesPerCluster - 1) / v.bytesPerCluster = 0 ↔ length = 0 := by
  have hpos : 0 < v.bytesPerCluster := Nat.mul_pos hm.cluster_pos (by decide)
  rw [Nat.div_eq_zero_iff]
  omega

/-- A new file: its clusters were free, they hold its bytes, and nothing else has changed. -/
structure NewFile (v : Volume) (w w' : View) (first : ℕ) (data : List UInt8)
    (clusters : List ℕ) : Prop where
  free : ∀ c ∈ clusters, w.fat c = 0
  chain : clusters = [] ∧ first = 0 ∧ data = [] ∨ v.Chain w' first clusters
  length : clusters.length = (data.length + v.bytesPerCluster - 1) / v.bytesPerCluster
  bytes : data <+: v.bytesOf w' clusters
  fat_eq : ∀ c ∉ clusters, w'.fat c = w.fat c
  data_eq : ∀ c ∉ clusters, w'.data c = w.data c

theorem NewFile.exec_readFileAt
    (h : NewFile v w (v.view d.disk) first data clusters) (hm : v.Mounted d.sectors)
    (hfirst : entry.firstCluster = first) (hsize : entry.size = data.length) (offset length : ℕ) :
    (readFileAt v entry offset length).exec d = (.ok (window offset length data), d) := by
  rcases h.chain with ⟨_, _, rfl⟩ | hchain
  · simp [readFileAt, hsize, window]
  subst hfirst
  have hroom := hm.length_le_needed data.length
  rw [Fat32.exec_readFileAt hm hchain (by rw [hsize, h.length]; exact hroom) offset length, hsize,
    ← prefix_iff_eq_take.mp h.bytes]

/-- Allocating a chain for some data and writing the data into it, whatever happens: a
success makes a new file, and a failure leaves scratch clusters behind at most. -/
theorem post_writeNewFile (hm : v.Mounted d.sectors) (data : List UInt8)
    (h : Grown v w (v.view d.disk) first clusters)
    (hlength : clusters.length = (data.length + v.bytesPerCluster - 1) / v.bytesPerCluster) :
    (writeFileDataChain v first data).Post d fun r d' =>
      Scratch v {c | w.fat c = 0} w (v.view d'.disk) ∧
        (r = .ok () → NewFile v w (v.view d'.disk) first data clusters) := by
  have hchain : clusters = [] ∧ data = [] ∨ v.Chain (v.view d.disk) first clusters := by
    rcases h.chain with ⟨hnil, _⟩ | hchain
    · rw [hnil, length_nil] at hlength
      exact .inl ⟨hnil, length_eq_zero_iff.mp (hm.needed_eq_zero.mp hlength.symm)⟩
    · exact .inr hchain
  refine (post_writeFileDataChain hm hchain).mono fun r t ⟨hover, hok⟩ => ⟨?_, fun hr => ?_⟩
  · exact (hover.mono fun c hc => h.free c hc).scratch h.scratch
  refine ⟨h.free, ?_, hlength, hok hr, ?_, ?_⟩
  · rcases h.chain with ⟨hnil, hfirst⟩ | hchain'
    · rw [hnil, length_nil] at hlength
      refine .inl ⟨hnil, hfirst, ?_⟩
      exact length_eq_zero_iff.mp (hm.needed_eq_zero.mp hlength.symm)
    · exact .inr (hover.chain hchain')
  · intro c hc
    rw [hover.fat_eq, h.fat_eq c hc]
  · intro c hc
    rw [hover.data_eq c hc, h.data_eq]

/-- The data of a new file can be read back, in any piece; its clusters were free and are
pairwise different, and all other clusters keep their FAT entries and their data. -/
theorem readFileAt_writeFileDataChain (hmount : d.Mounts v) (data : List UInt8) {first : ℕ}
    {d₁ d₂ : Device} (hallocate : (allocateFileChain v
      ((data.length + v.bytesPerCluster - 1) / v.bytesPerCluster)).exec d = (.ok first, d₁))
    (hwrite : (writeFileDataChain v first data).exec d₁ = (.ok (), d₂)) :
    (∀ (entry : DirectoryEntry) (offset length : ℕ), entry.firstCluster = first →
      entry.size = data.length →
      (readFileAt v entry offset length).exec d₂ = (.ok (window offset length data), d₂)) ∧
    ∃ clusters, clusters.length = (data.length + v.bytesPerCluster - 1) / v.bytesPerCluster ∧
      (clusters = [] ∧ first = 0 ∨ v.Chain (v.view d₂.disk) first clusters) ∧
      clusters.Nodup ∧ (∀ c ∈ clusters, v.isAllocatable c ∧ (v.view d.disk).fat c = 0) ∧
      ∀ c ∉ clusters, (v.view d₂.disk).fat c = (v.view d.disk).fat c ∧
        (v.view d₂.disk).data c = (v.view d.disk).data c := by
  have hm := hmount.mounted
  have hchain := (post_allocateFileChain hm
    ((data.length + v.bytesPerCluster - 1) / v.bytesPerCluster)).2
  have hm₁ : v.Mounted d₁.sectors := by
    have := exec_sectors (allocateFileChain v
      ((data.length + v.bytesPerCluster - 1) / v.bytesPerCluster)) d
    rw [hallocate] at this
    rwa [this]
  rw [hallocate] at hchain
  obtain ⟨clusters, hlength, hgrown⟩ := hchain first rfl
  have hfile := (post_writeNewFile hm₁ data hgrown hlength).2
  have hm₂ : v.Mounted d₂.sectors := by
    have := exec_sectors (writeFileDataChain v first data) d₁
    rw [hwrite] at this
    rwa [this]
  rw [hwrite] at hfile
  have hnew := hfile rfl
  refine ⟨fun entry offset length hfirst hsize => ?_, clusters, hlength, ?_, ?_, ?_, ?_⟩
  · exact hnew.exec_readFileAt hm₂ hfirst hsize offset length
  · exact hnew.chain.imp_left fun h => ⟨h.1, h.2.1⟩
  · rcases hnew.chain with ⟨hnil, _⟩ | h
    · rw [hnil]
      exact nodup_nil
    · exact h.nodup
  · intro c hc
    refine ⟨?_, hnew.free c hc⟩
    rcases hnew.chain with ⟨hnil, _⟩ | h
    · rw [hnil] at hc
      cases hc
    · exact (mem h hc).1
  · exact fun c hc => ⟨hnew.fat_eq c hc, hnew.data_eq c hc⟩

def twoClusters : List UInt8 :=
  replicate 512 1 ++ [2, 3]

/-- Two clusters on an empty volume, read back across their boundary. -/
theorem readFileAt_writeFileDataChain_sample : ∃ d₁ d₂,
    (allocateFileChain sampleVolume 2).exec (sampleDevice [(2, fat32EndMin)] []) = (.ok 3, d₁) ∧
    (writeFileDataChain sampleVolume 3 twoClusters).exec d₁ = (.ok (), d₂) ∧
    (readFileAt sampleVolume ⟨[], 3, 514, 0x20⟩ 511 9).exec d₂ = (.ok [1, 2, 3], d₂) := by
  have hallocate : ((allocateFileChain sampleVolume 2).exec
      (sampleDevice [(2, fat32EndMin)] [])).1 = .ok 3 := by
    decide +kernel
  have hwrite : ((writeFileDataChain sampleVolume 3 twoClusters).exec
      ((allocateFileChain sampleVolume 2).exec
        (sampleDevice [(2, fat32EndMin)] [])).2).1 = .ok () := by
    decide +kernel
  have hlength : twoClusters.length = 514 := by
    rw [twoClusters, length_append, length_replicate]
    rfl
  have hwindow : window 511 9 twoClusters = [1, 2, 3] := by decide +kernel
  generalize hfirst : (allocateFileChain sampleVolume 2).exec (sampleDevice _ _) = allocated
    at hallocate hwrite
  generalize hsecond : (writeFileDataChain sampleVolume 3 twoClusters).exec allocated.2 = written
    at hwrite
  obtain ⟨_, d₁⟩ := allocated
  obtain ⟨_, d₂⟩ := written
  obtain rfl := hallocate
  obtain rfl := hwrite
  refine ⟨d₁, d₂, rfl, hsecond, ?_⟩
  rw [← hwindow]
  exact (readFileAt_writeFileDataChain (mounts_sampleDevice _ _) twoClusters
    (by rw [hlength]; exact hfirst) hsecond).1 ⟨[], 3, 514, 0x20⟩ 511 9 rfl hlength.symm

end WovenHat.Fat32
