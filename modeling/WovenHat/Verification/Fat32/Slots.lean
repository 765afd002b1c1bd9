import WovenHat.Verification.Fat32.Data

/-! # Directory slots

A directory is the list of its slots, cluster after cluster. All scanners of the source
fold over that list; this module gives the fold for each of them in terms of the entries
that are live. -/

namespace WovenHat.Fat32

open Library Block Fallible List View

/-- A slot of a directory: the cluster, the sector in it and the slot in that. -/
structure Place where
  cluster : ℕ
  index : ℕ
  slot : ℕ
  deriving DecidableEq

/-- The sector of a slot on the disk. -/
def Place.lba (v : Volume) (p : Place) : ℕ :=
  v.lbaOf p.cluster + p.index

def Place.offset (p : Place) : ℕ :=
  p.slot * directoryEntrySize

namespace View

def sectorAt (w : View) (p : Place) : Sector :=
  w.data p.cluster p.index

def marker (w : View) (p : Place) : UInt8 :=
  (w.sectorAt p).get p.offset

def entry (w : View) (p : Place) : DirectoryEntry :=
  entryAt (w.sectorAt p) p.offset

end View

def sectorPlaces (cluster index first count : ℕ) : List Place :=
  (range' first count).map fun slot => ⟨cluster, index, slot⟩

def clusterPlaces (cluster first count : ℕ) : List Place :=
  (range' first count).flatMap fun index => sectorPlaces cluster index 0 16

def Volume.places (v : Volume) (clusters : List ℕ) : List Place :=
  clusters.flatMap fun c => clusterPlaces c 0 v.sectorsPerCluster

theorem sectorPlaces_succ (cluster index first count : ℕ) :
    sectorPlaces cluster index first (count + 1) =
      ⟨cluster, index, first⟩ :: sectorPlaces cluster index (first + 1) count := by
  simp [sectorPlaces, range'_succ]

theorem clusterPlaces_succ (cluster first count : ℕ) : clusterPlaces cluster first (count + 1) =
      sectorPlaces cluster first 0 16 ++ clusterPlaces cluster (first + 1) count := by
  simp [clusterPlaces, range'_succ]

theorem Volume.places_cons (v : Volume) (c : ℕ) (clusters : List ℕ) :
    v.places (c :: clusters) = clusterPlaces c 0 v.sectorsPerCluster ++ v.places clusters := by
  simp [places]

theorem Volume.places_append (v : Volume) (l l' : List ℕ) :
    v.places (l ++ l') = v.places l ++ v.places l' := by
  simp [places]

theorem Volume.mem_places {v : Volume} {clusters : List ℕ} {p : Place} : p ∈ v.places clusters ↔
      p.cluster ∈ clusters ∧ p.index < v.sectorsPerCluster ∧ p.slot < 16 := by
  obtain ⟨c, i, k⟩ := p
  simp [places, clusterPlaces, sectorPlaces]

/-! ## Folding over slots -/

section Fold

variable {v : Volume} {d : Device} {w : View} {σ ρ : Type} {step : SlotStep σ ρ}

def foldPlaces (v : Volume) (w : View) (step : SlotStep σ ρ) :
    List Place → σ → Except Error (Step σ ρ)
  | [], s => .ok (.next s)
  | p :: ps, s =>
    match step s (p.lba v) (w.sectorAt p) p.offset with
    | .error e => .error e
    | .ok (.stop r) => .ok (.stop r)
    | .ok (.next s) => foldPlaces v w step ps s

theorem foldPlaces_append (ps ps' : List Place) (s : σ) : foldPlaces v w step (ps ++ ps') s =
      match foldPlaces v w step ps s with
      | .error e => .error e
      | .ok (.stop r) => .ok (.stop r)
      | .ok (.next s) => foldPlaces v w step ps' s := by
  induction ps generalizing s with
  | nil => rfl
  | cons p ps ih =>
    simp only [cons_append, foldPlaces]
    rcases step s (p.lba v) (w.sectorAt p) p.offset with e | (s' | r)
    · rfl
    · exact ih s'
    · rfl

theorem scanSector_eq (c i first count : ℕ) (s : σ) :
    scanSector step (v.lbaOf c + i) (w.data c i) first count s =
      foldPlaces v w step (sectorPlaces c i first count) s := by
  induction count generalizing first s with
  | zero => rfl
  | succ count ih =>
    rw [sectorPlaces_succ]
    simp only [scanSector, foldPlaces, Place.lba, Place.offset, sectorAt]
    rcases step s (v.lbaOf c + i) (w.data c i) (first * directoryEntrySize) with e | (s' | r)
    · rfl
    · exact ih (first + 1) s'
    · rfl

theorem exec_scanCluster (hm : v.Mounted d.sectors) {c : ℕ} (hc : v.isAllocatable c)
    {first count : ℕ} (hcount : first + count ≤ v.sectorsPerCluster) (s : σ) :
    (scanCluster step (v.lbaOf c + first) count s).exec d =
      (foldPlaces v (v.view d.disk) step (clusterPlaces c first count) s, d) := by
  induction count generalizing first s with
  | zero => rfl
  | succ count ih =>
    have hread := exec_readSector_data hm hc (show first < v.sectorsPerCluster by omega)
    rw [clusterPlaces_succ, foldPlaces_append, scanCluster, exec_bind_ok hread, scanSector_eq]
    rcases foldPlaces v (v.view d.disk) step (sectorPlaces c first 0 16) s with e | (s' | r)
    · rfl
    · exact ih (show first + 1 + count ≤ _ by omega) s'
    · rfl

/-- What a scanner returns when the fold over the slots has a given result. -/
def scanResult (d : Device) (finish : σ → Fs ρ) (ends : Bool) :
    Except Error (Step σ ρ) → Except Error ρ × Device
  | .error e => (.error e, d)
  | .ok (.stop r) => (.ok r, d)
  | .ok (.next s) => if ends then (finish s).exec d else (.error .chainTooLong, d)

variable (hm : v.Mounted d.sectors) (finish : σ → ℕ → Fs ρ) {visited clusters : List ℕ}
  {fuel start : ℕ}

include hm

/-- The scan of one cluster folds over its slots and goes on with the next cluster. -/
theorem exec_walkDirectory_succ {c : ℕ} (hc : v.isAllocatable c) (hvisited : c ∉ visited) (s : σ) :
    (walkDirectory v step finish (fuel + 1) visited c s).exec d =
      scanResult d (fun s => nextCluster v c >>= fun
        | .next next => walkDirectory v step finish fuel (c :: visited) next s
        | .last => finish s c) true
        (foldPlaces v (v.view d.disk) step (clusterPlaces c 0 v.sectorsPerCluster) s) := by
  have hlba := exec_clusterLba hm c d
  rw [if_pos hc] at hlba
  have hscan : (scanCluster step (v.lbaOf c + 0) v.sectorsPerCluster s).exec d = _ :=
    exec_scanCluster hm hc (show 0 + v.sectorsPerCluster ≤ _ by omega) s
  rw [Nat.add_zero] at hscan
  rw [walkDirectory, exec_bind_ok (exec_rejectIf_of_not hvisited d), exec_bind_ok hlba]
  rcases hfold : foldPlaces v (v.view d.disk) step
    (clusterPlaces c 0 v.sectorsPerCluster) s with e | (s' | r) <;> rw [hfold] at hscan
  · exact exec_bind_error hscan
  · exact exec_bind_ok hscan
  · exact exec_bind_ok hscan

/-- A scan along a sound chain folds over the slots of the clusters it may visit. -/
theorem exec_walkDirectory (hchain : v.Chain (v.view d.disk) start clusters)
    (hvisited : ∀ c ∈ clusters, c ∉ visited) (s : σ) :
    (walkDirectory v step finish fuel visited start s).exec d =
      scanResult d (finish · (clusters.getLastD 0)) (clusters.length ≤ fuel)
        (foldPlaces v (v.view d.disk) step (v.places (clusters.take fuel)) s) := by
  induction fuel generalizing start clusters visited s with
  | zero =>
    have hpos := length_pos_of_ne_nil hchain.ne_nil
    simp [walkDirectory, scanResult, foldPlaces, Volume.places, Nat.pos_iff_ne_zero.mp hpos]
  | succ fuel ih =>
    rw [exec_walkDirectory_succ hm finish (Volume.Chain.mem hchain hchain.head_mem).1
      (hvisited _ hchain.head_mem)]
    rcases exec_nextCluster_of_chain hm hchain with ⟨hexec, rfl⟩ | ⟨next, rest, hexec, rfl, hrest⟩
    · simp only [take_succ_cons, take_nil, Volume.places_cons, foldPlaces_append]
      rcases foldPlaces v (v.view d.disk) step (clusterPlaces start 0 v.sectorsPerCluster) s with
        e | (s' | r)
      · rfl
      · refine (exec_bind_ok hexec).trans ?_
        simp [scanResult, foldPlaces, Volume.places]
      · rfl
    · simp only [take_succ_cons, Volume.places_cons, foldPlaces_append]
      rcases foldPlaces v (v.view d.disk) step (clusterPlaces start 0 v.sectorsPerCluster) s with
        e | (s' | r)
      · rfl
      · refine (exec_bind_ok hexec).trans ((ih hrest ?_ s').trans ?_)
        · intro c hmem
          simp only [mem_cons, not_or]
          refine ⟨?_, hvisited c (mem_cons_of_mem _ hmem)⟩
          rintro rfl
          exact (nodup_cons.mp hchain.nodup).1 hmem
        · cases rest with
          | nil => exact absurd rfl hrest.ne_nil
          | cons x xs => simp
      · rfl

theorem exec_scanDirectory (hchain : v.Chain (v.view d.disk) start clusters) (s : σ) :
    (scanDirectory v step finish start s).exec d =
      scanResult d (finish · (clusters.getLastD 0)) (clusters.length ≤ maxDirectoryClusters)
        (foldPlaces v (v.view d.disk) step (v.places (clusters.take maxDirectoryClusters)) s) :=
  exec_walkDirectory hm finish hchain (by simp) s

end Fold

/-! ## Live entries -/

namespace View

def isEntry (w : View) (p : Place) : Prop :=
  w.marker p ≠ 0xe5 ∧ ¬isLabel (w.entry p).attributes

instance (w : View) (p : Place) : Decidable (w.isEntry p) :=
  inferInstanceAs (Decidable (_ ∧ _))

theorem not_isEntry_iff {w : View} {p : Place} : ¬w.isEntry p ↔ (w.sectorAt p).get p.offset = 0xe5 ∨
      isLabel (entryAt (w.sectorAt p) p.offset).attributes := by
  rw [isEntry, not_and_or, not_not, not_not]
  rfl

theorem isEntry_iff {w : View} {p : Place} : w.isEntry p ↔ ¬((w.sectorAt p).get p.offset = 0xe5 ∨
      isLabel (entryAt (w.sectorAt p) p.offset).attributes) := by
  rw [← not_isEntry_iff, not_not]

/-- The entries of a list of slots, up to the end marker. -/
def live (w : View) : List Place → List Place
  | [] => []
  | p :: ps =>
    if w.marker p = 0 then []
    else if w.isEntry p then p :: w.live ps
    else w.live ps

/-- There is an end marker. -/
def Ends (w : View) (ps : List Place) : Prop :=
  ∃ p ∈ ps, w.marker p = 0

instance (w : View) (ps : List Place) : Decidable (w.Ends ps) :=
  inferInstanceAs (Decidable (∃ p ∈ ps, _))

variable {w w' : View} {p q : Place} {ps ps' : List Place}

theorem ends_cons : w.Ends (p :: ps) ↔ w.marker p = 0 ∨ w.Ends ps := by
  simp [Ends]

theorem live_append_of_ends (h : w.Ends ps) : w.live (ps ++ ps') = w.live ps := by
  induction ps with
  | nil => simp [Ends] at h
  | cons p ps ih =>
    by_cases hp : w.marker p = 0
    · simp [live, hp]
    · have hps := ih ((ends_cons.mp h).resolve_left hp)
      simp [live, hp, hps]

theorem live_append_of_not_ends (h : ¬w.Ends ps) :
    w.live (ps ++ ps') = w.live ps ++ w.live ps' := by
  induction ps with
  | nil => rfl
  | cons p ps ih =>
    rw [ends_cons, not_or] at h
    have hps := ih h.2
    simp only [cons_append, live, h.1, ↓reduceIte, hps]
    split <;> rfl

theorem live_subset (h : p ∈ w.live ps) : p ∈ ps := by
  induction ps with
  | nil => cases h
  | cons q ps ih =>
    simp only [live] at h
    split at h
    · cases h
    split at h
    · rcases mem_cons.mp h with rfl | h
      · exact mem_cons_self
      · exact mem_cons_of_mem _ (ih h)
    · exact mem_cons_of_mem _ (ih h)

theorem isEntry_of_mem_live (h : p ∈ w.live ps) : w.marker p ≠ 0 ∧ w.isEntry p := by
  induction ps with
  | nil => cases h
  | cons q ps ih =>
    simp only [live] at h
    split at h
    · cases h
    rename_i hmarker
    split at h
    · rename_i hentry
      rcases mem_cons.mp h with rfl | h
      · exact ⟨hmarker, hentry⟩
      · exact ih h
    · exact ih h

theorem marker_eq (w : View) (p : Place) : w.marker p = (w.entry p).shortName.getD 0 0 := by
  rw [entry, entryAt, Buffer.getD_slice _ _ _ _ (by omega)]
  rfl

theorem marker_congr (h : w'.entry p = w.entry p) : w'.marker p = w.marker p := by
  rw [marker_eq, marker_eq, h]

theorem isEntry_congr (h : w'.entry p = w.entry p) : w'.isEntry p ↔ w.isEntry p := by
  rw [isEntry, isEntry, marker_congr h, h]

end View

/-! ## Scanning entries -/

section Entries

variable {v : Volume} {w : View} {σ ρ : Type} {step : SlotStep σ ρ}
  {onEnd : σ → Except Error ρ} {onEntry : σ → Place → Except Error (Step σ ρ)}

theorem slot_ite {α : Type} (w : View) (p : Place) (atEnd skip use : α) :
    (if (w.sectorAt p).get p.offset = 0 then atEnd
      else if (w.sectorAt p).get p.offset = 0xe5 ∨
          isLabel (entryAt (w.sectorAt p) p.offset).attributes then skip
      else use) = if w.marker p = 0 then atEnd else if w.isEntry p then use else skip := by
  by_cases hentry : w.isEntry p
  · rw [if_neg (isEntry_iff.mp hentry), if_pos hentry]
    rfl
  · rw [if_pos (not_isEntry_iff.mp hentry), if_neg hentry]
    rfl

/-- The scanner skips slots that are not in use, ends at the end marker and acts on
entries. -/
def ScansEntries (v : Volume) (w : View) (step : SlotStep σ ρ)
    (onEnd : σ → Except Error ρ) (onEntry : σ → Place → Except Error (Step σ ρ)) : Prop :=
  ∀ s p, step s (p.lba v) (w.sectorAt p) p.offset =
    if w.marker p = 0 then (onEnd s).map .stop
    else if w.isEntry p then onEntry s p
    else .ok (.next s)

def foldEntries (onEntry : σ → Place → Except Error (Step σ ρ)) :
    List Place → σ → Except Error (Step σ ρ)
  | [], s => .ok (.next s)
  | p :: ps, s =>
    match onEntry s p with
    | .error e => .error e
    | .ok (.stop r) => .ok (.stop r)
    | .ok (.next s) => foldEntries onEntry ps s

/-- A scan of slots is a scan of the live entries among them. -/
theorem ScansEntries.foldPlaces_eq (h : ScansEntries v w step onEnd onEntry) (ps : List Place)
    (s : σ) : foldPlaces v w step ps s =
      match foldEntries onEntry (w.live ps) s with
      | .error e => .error e
      | .ok (.stop r) => .ok (.stop r)
      | .ok (.next s) => if w.Ends ps then (onEnd s).map .stop else .ok (.next s) := by
  induction ps generalizing s with
  | nil => simp [foldPlaces, foldEntries, live, View.Ends]
  | cons p ps ih =>
    rw [foldPlaces, h s p]
    by_cases hend : w.marker p = 0
    · simp only [hend, ↓reduceIte, live, foldEntries, ends_cons, true_or]
      rcases onEnd s with e | r <;> rfl
    by_cases hentry : w.isEntry p
    · simp only [hend, hentry, ↓reduceIte, live, foldEntries, ends_cons, false_or]
      rcases onEntry s p with e | (s' | r)
      · rfl
      · exact ih s'
      · rfl
    · simp only [hend, hentry, ↓reduceIte, live, ends_cons, false_or]
      exact ih s

end Entries

end WovenHat.Fat32
