import WovenHat.Verification.Fat32.Slots

/-! # Listing and lookup -/

namespace WovenHat.Fat32

open Library Block Fallible List Volume

variable {v : Volume} {d : Device} {w : View} {σ : Type}

/-! ## Lookup -/

def View.lookup (w : View) (ps : List Place) (short : List UInt8) : Option Place :=
  (w.live ps).find? fun p => (w.entry p).shortName = short

variable {ps : List Place} {ρ : Type} {clusters : List ℕ}

theorem View.lookup_some {short : List UInt8} {p : Place}
    (h : w.lookup ps short = some p) : p ∈ w.live ps ∧ (w.entry p).shortName = short :=
  ⟨mem_of_find?_eq_some h, by simpa using find?_some h⟩

/-- What `scan_directory_sector` returns for the entry it has found. -/
def checkedEntry (e : DirectoryEntry) : Except Error DirectoryEntry :=
  if e.firstCluster < 2 ∧ e.size ≠ 0 then .error .corruptDirectory else .ok e

theorem checkedEntry_map_stop (e : DirectoryEntry) : (checkedEntry e).map (Step.stop (σ := Unit)) =
      if e.firstCluster < 2 ∧ e.size ≠ 0 then .error .corruptDirectory else .ok (.stop e) := by
  unfold checkedEntry
  split <;> rfl

theorem scansEntries_findStep (v : Volume) (w : View) (short : List UInt8) :
    ScansEntries v w (findStep short) (fun _ => .error .notFound) fun _ p =>
      if (w.entry p).shortName = short then (checkedEntry (w.entry p)).map .stop
      else .ok (.next ()) := by
  intro s p
  refine (slot_ite w p _ _ _).trans (if_congr Iff.rfl rfl (if_congr Iff.rfl ?_ rfl))
  rw [ite_not]
  exact if_congr Iff.rfl (checkedEntry_map_stop (w.entry p)).symm rfl

theorem scansEntries_existingStep (v : Volume) (w : View) (short : List UInt8) :
    ScansEntries v w (existingStep short) (fun _ => .error .notFound) fun _ p =>
      if (w.entry p).shortName = short then
        (directoryEntryFromSector (w.sectorAt p) p.offset).map fun e =>
          .stop ⟨p.lba v, p.offset, e, (w.sectorAt p).slice p.offset directoryEntrySize⟩
      else .ok (.next ()) := by
  intro s p
  refine (slot_ite w p _ _ _).trans (if_congr Iff.rfl rfl (if_congr Iff.rfl ?_ rfl))
  rw [ite_not]
  refine if_congr Iff.rfl ?_ rfl
  rcases directoryEntryFromSector (w.sectorAt p) p.offset with e | e <;> rfl

theorem scansEntries_visitStep (v : Volume) (w : View)
    (visitor : σ → DirectoryEntry → Except Error σ) :
    ScansEntries v w (visitStep visitor) .ok fun s p =>
      directoryEntryFromSector (w.sectorAt p) p.offset >>= fun e =>
        visitor s e >>= fun s => pure (.next s) := by
  intro s p
  exact (slot_ite w p _ _ _).trans (if_congr Iff.rfl rfl (if_congr Iff.rfl rfl rfl))

theorem scansEntries_emptyStep (v : Volume) (w : View) :
    ScansEntries v w emptyStep (fun _ => .ok true) fun _ p =>
      if (w.entry p).shortName = dotName ∨ (w.entry p).shortName = dotdotName then .ok (.next ())
      else .ok (.stop false) := by
  intro s p
  exact (slot_ite w p _ _ _).trans (if_congr Iff.rfl rfl (if_congr Iff.rfl rfl rfl))

theorem foldEntries_find (short : List UInt8) (found : Place → Except Error ρ) (ps : List Place) :
    foldEntries (fun (_ : Unit) p =>
        if (w.entry p).shortName = short then (found p).map .stop else .ok (.next ())) ps () =
      match ps.find? fun p => (w.entry p).shortName = short with
      | some p => (found p).map .stop
      | none => .ok (.next ()) := by
  induction ps with
  | nil => rfl
  | cons p ps ih =>
    rw [foldEntries]
    by_cases hname : (w.entry p).shortName = short
    · rw [if_pos hname, find?_cons_of_pos (by simpa using hname)]
      dsimp only
      rcases found p with e | r <;> rfl
    · rw [if_neg hname, find?_cons_of_neg (by simpa using hname)]
      exact ih

/-- The slots that a scanner visits. -/
def Volume.visible (v : Volume) (clusters : List ℕ) : List Place :=
  v.places (clusters.take maxDirectoryClusters)

theorem Volume.visible_of_le (h : clusters.length ≤ maxDirectoryClusters) :
    v.visible clusters = v.places clusters := by
  rw [visible, take_of_length_le h]

def notFoundError (w : View) (v : Volume) (clusters : List ℕ) : Error :=
  if w.Ends (v.visible clusters) ∨ clusters.length ≤ maxDirectoryClusters then .notFound
  else .chainTooLong

variable {start : ℕ}

theorem exec_find (hm : v.Mounted d.sectors) {step : SlotStep Unit ρ}
    (hchain : v.Chain (v.view d.disk) start clusters) (short : List UInt8)
    {found : Place → Except Error ρ}
    (hstep : ScansEntries v (v.view d.disk) step (fun _ => .error .notFound) fun _ p =>
      if ((v.view d.disk).entry p).shortName = short then (found p).map .stop
      else .ok (.next ())) : (scanDirectory v step (fun _ _ => throw .notFound) start ()).exec d =
      (match (v.view d.disk).lookup (v.visible clusters) short with
        | some p => found p
        | none => .error (notFoundError (v.view d.disk) v clusters), d) := by
  rw [exec_scanDirectory hm _ hchain, hstep.foldPlaces_eq, foldEntries_find, View.lookup,
    visible]
  rcases ((v.view d.disk).live (v.places (clusters.take maxDirectoryClusters))).find?
    fun p => ((v.view d.disk).entry p).shortName = short with _ | p
  · by_cases hends : (v.view d.disk).Ends (v.places (clusters.take maxDirectoryClusters))
    · simp [scanResult, hends, notFoundError, visible, Except.map]
    by_cases hlen : clusters.length ≤ maxDirectoryClusters
    · simp [scanResult, hends, notFoundError, visible, hlen]
    · simp [scanResult, hends, notFoundError, visible, hlen]
  · dsimp only
    rcases found p with e | e <;> rfl

theorem exec_findInDirectory (hm : v.Mounted d.sectors)
    (hchain : v.Chain (v.view d.disk) start clusters) (short : List UInt8) :
    (findInDirectory v start short).exec d =
      (match (v.view d.disk).lookup (v.visible clusters) short with
        | some p => checkedEntry ((v.view d.disk).entry p)
        | none => .error (notFoundError (v.view d.disk) v clusters), d) :=
  exec_find hm hchain short (scansEntries_findStep v (v.view d.disk) short)

/-! ## Listing -/

theorem foldEntries_next (f : σ → Place → Except Error σ) (ps : List Place) (s : σ) :
    foldEntries (ρ := ρ) (fun s p => (f s p).map .next) ps s = (ps.foldlM f s).map .next := by
  induction ps generalizing s with
  | nil => rfl
  | cons p ps ih =>
    rw [foldEntries, foldlM_cons]
    rcases f s p with e | s'
    · rfl
    · exact ih s'

theorem directoryEntryFromSector_eq (w : View) (p : Place) :
    directoryEntryFromSector (w.sectorAt p) p.offset =
      if (w.entry p).firstCluster < 2 ∧ ((w.entry p).size ≠ 0 ∨ (w.entry p).isDirectory) then
        .error .corruptDirectory
      else .ok (w.entry p) := rfl

theorem exec_forEachDirectoryEntry (hm : v.Mounted d.sectors)
    (hchain : v.Chain (v.view d.disk) start clusters)
    (hlen : clusters.length ≤ maxDirectoryClusters) (visitor : σ → DirectoryEntry → Except Error σ)
    (s : σ) : (forEachDirectoryEntry v start visitor s).exec d =
      (((v.view d.disk).live (v.places clusters)).foldlM (fun s p =>
        directoryEntryFromSector ((v.view d.disk).sectorAt p) p.offset >>= visitor s) s, d) := by
  have hstep := scansEntries_visitStep v (v.view d.disk) visitor
  have hnext : (fun s p => directoryEntryFromSector ((v.view d.disk).sectorAt p) p.offset >>=
      fun e => visitor s e >>= fun s => pure (Step.next (ρ := σ) s)) = fun s p =>
      (directoryEntryFromSector ((v.view d.disk).sectorAt p) p.offset >>= visitor s).map .next := by
    funext s p
    rcases directoryEntryFromSector ((v.view d.disk).sectorAt p) p.offset with e | e
    · rfl
    · rcases visitor s e with e' | s' <;> rfl
  rw [hnext] at hstep
  rw [forEachDirectoryEntry, exec_scanDirectory hm _ hchain, hstep.foldPlaces_eq, foldEntries_next,
    take_of_length_le hlen]
  rcases ((v.view d.disk).live (v.places clusters)).foldlM (fun s p =>
    directoryEntryFromSector ((v.view d.disk).sectorAt p) p.offset >>= visitor s) s with e | s'
  · rfl
  by_cases hends : (v.view d.disk).Ends (v.places clusters)
  · simp [scanResult, hends, Except.map]
  · simp [scanResult, hends, hlen, Except.map]

def Volume.entries (v : Volume) (w : View) (clusters : List ℕ) : List DirectoryEntry :=
  (w.live (v.places clusters)).map w.entry

/-- Collecting the entries of some slots succeeds when each of them is accepted. -/
theorem collect_eq_ok (seen : List DirectoryEntry) :
    (ps.foldlM (fun seen p => directoryEntryFromSector (w.sectorAt p) p.offset >>=
        fun e => Except.ok (seen ++ [e])) seen = .ok (seen ++ ps.map w.entry)) ↔
      ∀ p ∈ ps, directoryEntryFromSector (w.sectorAt p) p.offset = .ok (w.entry p) := by
  induction ps generalizing seen with
  | nil => simp [pure, Except.pure]
  | cons p ps ih =>
    rw [foldlM_cons, forall_mem_cons, ← ih (seen ++ [w.entry p]), map_cons, ← append_cons]
    by_cases hp : directoryEntryFromSector (w.sectorAt p) p.offset = .ok (w.entry p)
    · rw [hp]
      exact (and_iff_right rfl).symm
    have herror : directoryEntryFromSector (w.sectorAt p) p.offset = .error .corruptDirectory := by
      rw [directoryEntryFromSector_eq] at hp ⊢
      exact if_pos (by_contra fun h => hp (if_neg h))
    rw [herror]
    exact ⟨nofun, fun h => nomatch h.1⟩

/-- On a directory of at most `MAX_DIRECTORY_CLUSTERS` clusters whose entries have bytes only
if they have clusters, the listing visits exactly the entries, and lookup finds the first
one of each name, if and only if no directory entry is without a cluster. -/
theorem listing_agrees_iff (hmount : d.Mounts v) {start : ℕ} {clusters : List ℕ}
    (hchain : v.Chain (v.view d.disk) start clusters)
    (hlength : clusters.length ≤ maxDirectoryClusters)
    (hwell : ∀ e ∈ v.entries (v.view d.disk) clusters, e.firstCluster < 2 → e.size = 0) :
    ((forEachDirectoryEntry v start (fun seen e => .ok (seen ++ [e])) []).exec d =
        (.ok (v.entries (v.view d.disk) clusters), d) ∧
      ∀ short, (findInDirectory v start short).exec d =
        (match (v.entries (v.view d.disk) clusters).find? (·.shortName = short) with
          | some e => .ok e
          | none => .error .notFound, d)) ↔
      ∀ e ∈ v.entries (v.view d.disk) clusters, e.isDirectory → 2 ≤ e.firstCluster := by
  have hm := hmount.mounted
  have hlist := exec_forEachDirectoryEntry hm hchain hlength (fun seen e => .ok (seen ++ [e])) []
  generalize hw : v.view d.disk = w at hlist hwell ⊢
  have hwell' : ∀ p ∈ w.live (v.places clusters), (w.entry p).firstCluster < 2 →
      (w.entry p).size = 0 := fun p hp => hwell _ (List.mem_map_of_mem hp)
  have hfind : ∀ short, (findInDirectory v start short).exec d =
      (match (v.entries w clusters).find? (·.shortName = short) with
        | some e => .ok e
        | none => .error .notFound, d) := by
    intro short
    rw [exec_findInDirectory hm hchain, hw, visible_of_le hlength, entries,
      List.find?_map, View.lookup]
    rcases hp : (w.live (v.places clusters)).find?
      ((fun e => decide (e.shortName = short)) ∘ w.entry) with _ | p
    · rw [show (fun p => decide ((w.entry p).shortName = short)) =
        (fun e => decide (e.shortName = short)) ∘ w.entry from rfl, hp]
      simp [notFoundError, hlength]
    · rw [show (fun p => decide ((w.entry p).shortName = short)) =
        (fun e => decide (e.shortName = short)) ∘ w.entry from rfl, hp]
      have hsize := hwell' p (List.mem_of_find?_eq_some hp)
      simpa [checkedEntry] using hsize
  have hcollect : (forEachDirectoryEntry v start (fun seen e => .ok (seen ++ [e])) []).exec d =
      (.ok (v.entries w clusters), d) ↔
      ∀ p ∈ w.live (v.places clusters),
        directoryEntryFromSector (w.sectorAt p) p.offset = .ok (w.entry p) := by
    rw [hlist, Prod.mk.injEq, and_iff_left rfl]
    exact collect_eq_ok []
  rw [and_iff_left hfind, hcollect]
  constructor
  · intro haccepted e he hdirectory
    obtain ⟨p, hp, rfl⟩ := List.mem_map.mp he
    by_contra hlow
    have hp' := haccepted p hp
    rw [directoryEntryFromSector_eq, if_pos ⟨by omega, .inr hdirectory⟩] at hp'
    cases hp'
  · intro hclusters p hp
    rw [directoryEntryFromSector_eq, if_neg]
    rintro ⟨hlow, hsize | hdirectory⟩
    · exact hsize (hwell' p hp hlow)
    · have := hclusters _ (List.mem_map_of_mem hp) hdirectory
      omega

/-- A directory of the first level on a standard volume: its `..` entry has the cluster
number zero. -/
def firstLevelDevice : Device :=
  sampleDevice [(2, fat32EndMin), (3, fat32EndMin)] [(3, newDirectorySector 3 0)]

/-- Listing such a directory fails, although its entries are as the FAT specification has
them. -/
theorem listing_firstLevelDevice : firstLevelDevice.Mounts sampleVolume ∧
    sampleVolume.Chain (sampleVolume.view firstLevelDevice.disk) 3 [3] ∧
    (∀ e ∈ sampleVolume.entries (sampleVolume.view firstLevelDevice.disk) [3],
      e.firstCluster < 2 → e.size = 0) ∧ ((forEachDirectoryEntry sampleVolume 3
      (fun seen e => .ok (seen ++ [e])) []).exec firstLevelDevice).1 =
        .error .corruptDirectory := by
  refine ⟨mounts_sampleDevice _ _, .last ?_, ?_, ?_⟩
  · decide +kernel
  · decide +kernel
  · decide +kernel

/-- Where the kernel has made the directory, `..` has the cluster of the root directory. -/
theorem listing_agrees_sample :
    let d := sampleDevice [(2, fat32EndMin), (3, fat32EndMin)] [(3, newDirectorySector 3 2)]
    (forEachDirectoryEntry sampleVolume 3 (fun seen e => .ok (seen ++ [e])) []).exec d =
      (.ok (sampleVolume.entries (sampleVolume.view d.disk) [3]), d) := by
  refine ((listing_agrees_iff (mounts_sampleDevice _ _) (.last ?_) ?_ ?_).mpr ?_).1
  · decide +kernel
  · decide
  · decide +kernel
  · decide +kernel

end WovenHat.Fat32
