import WovenHat.Verification.Fat32.CountedMutations
import WovenHat.Verification.Fat32.Paths

/-! # Deletion

What `delete_path` does to the tree: one leaf goes, its clusters become free, and everything
else stays. -/

namespace WovenHat.Fat32

open Library Block Fallible List View Volume

variable {v : Volume} {d d' : Device} {w w' : View} {sectors : ℕ} {n m host : Node} {p q : Place}
  {short : List UInt8}

/-! ## Taking an entry away -/

/-- The view after the slot has been marked deleted and the clusters of its entry have been
freed. -/
def View.remove (v : Volume) (w : View) (p : Place) : View :=
  (w.setData p.cluster p.index ((w.sectorAt p).set p.offset 0xe5)).clear (v.cells w (some p))

theorem View.live_remove (hentry : ∀ q ≠ p, w'.entry q = w.entry q) (hdeleted : w'.marker p = 0xe5)
    (hmarker : w.marker p ≠ 0) (ps : List Place) : w'.live ps = (w.live ps).filter (· ≠ p) := by
  have hskip : ¬w'.isEntry p := not_isEntry_iff.mpr (.inl hdeleted)
  induction ps with
  | nil => rfl
  | cons q ps ih =>
    by_cases hq : q = p
    · subst hq
      rw [live, live, if_neg (by simp [hdeleted]), if_neg hskip, if_neg hmarker, ih]
      split <;> simp
    rw [live, live, marker_congr (hentry q hq), ih]
    by_cases hend : w.marker q = 0
    · rw [if_pos hend, if_pos hend, filter_nil]
    rw [if_neg hend, if_neg hend]
    by_cases hused : w.isEntry q
    · rw [if_pos ((isEntry_congr (hentry q hq)).mpr hused), if_pos hused,
        filter_cons_of_pos (by simpa using hq)]
    · rw [if_neg fun h => hused ((isEntry_congr (hentry q hq)).mp h), if_neg hused]

namespace View

theorem remove_entry (v : Volume) (w : View) (hq : q ≠ p) : (w.remove v p).entry q = w.entry q :=
  (slotChange_setData (inSlot_set p.offset 0xe5) w).entry q hq

theorem remove_data (v : Volume) (w : View) {c : ℕ} (hc : c ≠ p.cluster) :
    (w.remove v p).data c = w.data c :=
  setData_data_of_ne w hc _ _

theorem remove_fat (v : Volume) (w : View) (p : Place) (c : ℕ) :
    (w.remove v p).fat c = if c ∈ v.cells w (some p) then 0 else w.fat c := rfl

theorem remove_marker (v : Volume) (w : View) (hp : p.slot < 16) :
    (w.remove v p).marker p = 0xe5 := by
  have hoff : p.offset < sectorSize := by
    rw [Place.offset, sectorSize, directoryEntrySize]
    omega
  simp [remove, marker, sectorAt, clear, setData, hoff]

theorem remove_head (v : Volume) (w : View) (hn : n ≠ some p) :
    (w.remove v p).head v n = w.head v n := by
  cases n with
  | none => rfl
  | some q => rw [head, head, remove_entry v w fun h => hn (congrArg some h)]

theorem remove_isDir (v : Volume) (w : View) (hn : n ≠ some p) :
    (w.remove v p).IsDir n ↔ w.IsDir n := by
  cases n with
  | none => rfl
  | some q => rw [IsDir, IsDir, remove_entry v w fun h => hn (congrArg some h)]

end View

/-- An entry without children in a volume with sound, disjoint chains. -/
structure Removable (v : Volume) (w : View) (p : Place) : Prop where
  chained : Chained v w
  reach : v.Reach w (some p)
  leaf : w.IsDir (some p) → ∀ q ∈ w.live (v.places (v.cells w (some p))), w.IsDot q

namespace Removable

variable (h : Removable v w p)

include h

theorem cells (hn : v.Reach w n) (hne : n ≠ some p) : v.cells (w.remove v p) n = v.cells w n := by
  rw [Volume.cells, Volume.cells, remove_head v w hne]
  refine Volume.chainOf_congr fun c hc => ?_
  have hfree : c ∉ v.cells w (some p) := h.chained.disjoint n (some p) hn h.reach hne c hc
  rw [Volume.linkOf, Volume.linkOf, remove_fat, if_neg hfree]

theorem slot : w.marker p ≠ 0 ∧ p.slot < 16 := by
  obtain ⟨n, _, _, hp⟩ := h.reach.parent
  have hlive := (kids_iff.mp hp).1
  exact ⟨(isEntry_of_mem_live hlive).1, (mem_places.mp (live_subset hlive)).2.2⟩

theorem live (ps : List Place) : (w.remove v p).live ps = (w.live ps).filter (· ≠ p) :=
  live_remove (fun _ hq => remove_entry v w hq) (remove_marker v w h.slot.2) h.slot.1 ps

theorem mem_kids (hn : v.Reach w n) (hne : n ≠ some p) :
    q ∈ v.kids (w.remove v p) n ↔ q ∈ v.kids w n ∧ q ≠ p := by
  rw [kids_iff, kids_iff, h.cells hn hne, h.live, mem_filter]
  by_cases hq : q = p
  · simp [hq]
  · simp [hq, isDot_congr (remove_entry v w hq)]

theorem reach_iff : v.Reach (w.remove v p) n ↔ v.Reach w n ∧ n ≠ some p := by
  refine Reaches.prune nofun ?_ fun a b ha hne => ?_
  · rintro m ⟨hdir, q, hq, _⟩
    obtain ⟨hlive, hdot⟩ := kids_iff.mp hq
    exact hdot (h.leaf hdir q hlive)
  rw [Volume.Child, Volume.Child, remove_isDir v w hne]
  constructor
  · rintro ⟨hdir, q, hq, rfl⟩
    obtain ⟨hq, hqp⟩ := (h.mem_kids ha hne).mp hq
    exact ⟨⟨hdir, q, hq, rfl⟩, fun heq => hqp (Option.some.inj heq)⟩
  · rintro ⟨⟨hdir, q, hq, rfl⟩, hne'⟩
    exact ⟨hdir, q, (h.mem_kids ha hne).mpr ⟨hq, fun heq => hne' (congrArg some heq)⟩, rfl⟩

theorem chain (hm : v.Mounted sectors) (hn : v.Reach w n) (hne : n ≠ some p)
    (hhead : 2 ≤ w.head v n) : v.Chain (w.remove v p) (w.head v n) (v.cells w n) := by
  refine (h.chained.cells_chain hm hn hhead).congr fun c hc => ?_
  have hfree : c ∉ v.cells w (some p) := h.chained.disjoint n (some p) hn h.reach hne c hc
  rw [linkOf, linkOf, remove_fat, if_neg hfree]

theorem bytes (hn : v.Reach w n) (hfile : ¬w.IsDir n) :
    v.bytesOf (w.remove v p) (v.cells w n) = v.bytesOf w (v.cells w n) := by
  refine bytesOf_congr fun c hc => remove_data v w ?_
  rintro rfl
  obtain ⟨host, hhost, hdir, hp⟩ := h.reach.parent
  obtain rfl := h.chained.node_unique hn hhost hc (mem_cells_of_kid hp)
  exact hfile hdir

end Removable

/-! ## The checks -/

theorem foldEntries_empty (ps : List Place) : foldEntries (fun (_ : Unit) p =>
        if (w.entry p).shortName = dotName ∨ (w.entry p).shortName = dotdotName then
          .ok (.next ())
        else .ok (.stop false)) ps () =
      if ∀ p ∈ ps, w.IsDot p then .ok (.next ()) else .ok (.stop false) := by
  induction ps with
  | nil => simp [foldEntries]
  | cons p ps ih =>
    rw [foldEntries]
    by_cases hp : w.IsDot p
    · have hdot := hp
      rw [View.IsDot] at hp
      simp only [if_pos hp, ih, forall_mem_cons, hdot, true_and]
    · have hdot := hp
      rw [View.IsDot] at hp
      simp only [if_neg hp, forall_mem_cons, hdot, false_and, if_false]

variable {clusters : List ℕ}

/-- A directory that `directory_is_empty` accepts has no entry but `.` and `..`. -/
theorem exec_directoryIsEmpty_eq_ok (hm : v.Mounted d.sectors) {start : ℕ}
    (hchain : v.Chain (v.view d.disk) start clusters)
    (h : (directoryIsEmpty v start).exec d = (.ok true, d')) :
    ∀ q ∈ (v.view d.disk).live (v.places clusters), (v.view d.disk).IsDot q := by
  rw [directoryIsEmpty, exec_scanDirectory hm _ hchain,
    (scansEntries_emptyStep v (v.view d.disk)).foldPlaces_eq, foldEntries_empty] at h
  split at h
  · cases h
  · rename_i hall
    split at hall
    · cases hall
    · cases hall
      cases h
  rename_i hall
  split at hall
  · rename_i hdots
    rw [v.places_eq_visible]
    by_cases hends : (v.view d.disk).Ends (v.visible clusters)
    · rwa [live_append_of_ends hends]
    have hlen : clusters.length ≤ maxDirectoryClusters := by
      by_contra hlong
      rw [visible] at hends
      simp [scanResult, hends, hlong] at h
    rwa [← v.places_eq_visible, ← visible_of_le hlen]
  · cases hall

theorem exec_checkDeletable_eq_ok (hm : v.Mounted d.sectors) (hc : Chained v (v.view d.disk))
    (hp : v.Reach (v.view d.disk) (some p))
    (hfirst : (v.view d.disk).IsDir (some p) → 2 ≤ (v.view d.disk).head v (some p))
    (h : (checkDeletable v ((v.view d.disk).entry p)).exec d = (.ok (), d')) :
    d' = d ∧ Removable v (v.view d.disk) p := by
  have hsame : d' = d := by
    have hmoves : Unchanged d ((checkDeletable v ((v.view d.disk).entry p)).exec d).2 :=
      moves_of_reads (calls_checkDeletable ((v.view d.disk).entry p)) d
    rwa [h] at hmoves
  refine ⟨hsame, hc, hp, fun hdir => ?_⟩
  rw [View.IsDir] at hdir
  rw [checkDeletable, if_pos hdir, exec_bind_eq_ok] at h
  obtain ⟨empty, t, hempty, h⟩ := h
  rw [exec_bind_eq_ok] at h
  obtain ⟨_, _, hreject, _⟩ := h
  have htrue : empty = true := by simpa using (exec_rejectIf_eq_ok.mp hreject).1
  subst htrue
  exact exec_directoryIsEmpty_eq_ok hm (hc.cells_chain hm hp (hfirst hdir)) hempty

/-! ## The whole call -/

theorem exec_removeEntry_eq_ok (hm : v.Mounted d.sectors) (h : Removable v (v.view d.disk) p)
    (hexec : (markDirectoryEntryDeleted (p.lba v) p.offset >>= fun _ =>
      runIf (2 ≤ (v.view d.disk).head v (some p))
        (freeClusterChain v ((v.view d.disk).head v (some p)))).exec d = (.ok (), d')) :
    v.view d'.disk = (v.view d.disk).remove v p := by
  obtain ⟨n, hn, _, hkid⟩ := h.reach.parent
  obtain ⟨hcluster, hindex, _⟩ := mem_places.mp (live_subset (kids_iff.mp hkid).1)
  have halloc : v.isAllocatable p.cluster := by
    by_cases hhead : 2 ≤ (v.view d.disk).head v n
    · exact (Volume.Chain.mem (h.chained.cells_chain hm hn hhead) hcluster).1
    · rw [Sound.cells_nil _ (not_le.mp hhead)] at hcluster
      cases hcluster
  rw [exec_bind_eq_ok] at hexec
  obtain ⟨_, t, hmark, hfree⟩ := hexec
  have hview := (post_modifySector hm halloc hindex (·.set p.offset 0xe5)).1
  rw [markDirectoryEntryDeleted] at hmark
  rw [hmark] at hview
  have hview := hview rfl
  have hmt : v.Mounted t.sectors := by
    have hevolves := evolves_exec (modifySector (p.lba v) (·.set p.offset 0xe5)) d
    rw [hmark] at hevolves
    exact hevolves.sectors ▸ hm
  rw [remove, ← hview]
  by_cases hfirst : 2 ≤ (v.view d.disk).head v (some p)
  · have hchain := h.chained.cells_chain hm h.reach hfirst
    have hchange := slotChange_setData (inSlot_set p.offset 0xe5) (v.view d.disk)
    rw [← hchange.chain, ← hview] at hchain
    have hfreed := (post_freeClusterChain_of_chain hmt hchain).all
    rw [runIf, if_pos hfirst] at hfree
    rw [hfree] at hfreed
    exact hfreed rfl
  · rw [runIf, if_neg hfirst, exec_pure] at hfree
    cases hfree
    rw [Sound.cells_nil _ (not_le.mp hfirst), clear_nil]

theorem exec_deletePath_eq_ok (hm : v.Mounted d.sectors) (hc : Chained v (v.view d.disk))
    {path : List UInt8} (h : (deletePath v path).exec d = (.ok (), d')) : ∃ host leaf short p,
      (resolveParentCluster v path false).exec d = (.ok ((v.view d.disk).head v host, leaf), d) ∧
      encodeShortName leaf = some short ∧ Folder v (v.view d.disk) host ∧
      (v.view d.disk).lookup (v.visible (v.cells (v.view d.disk) host)) short = some p ∧
      ¬((v.view d.disk).entry p).isReadOnly ∧ Removable v (v.view d.disk) p ∧
      v.view d'.disk = (v.view d.disk).remove v p := by
  rw [deletePath, exec_bind_eq_ok] at h
  obtain ⟨_, t, hreject, h⟩ := h
  obtain ⟨_, rfl⟩ := exec_rejectIf_eq_ok.mp hreject
  rw [exec_bind_eq_ok] at h
  obtain ⟨⟨parent, leaf⟩, u, hparent, h⟩ := h
  obtain ⟨rfl, host, hfolder, rfl⟩ := exec_resolveParentCluster_eq_ok hm hc hparent
  simp only [exec_bind_eq_ok] at h
  obtain ⟨short, u, hname, h⟩ := h
  obtain ⟨hencode, rfl⟩ := exec_okOr_eq_ok.mp hname
  obtain ⟨slot, u, hslot, h⟩ := h
  obtain ⟨rfl, p, hlookup, rfl, hfirst⟩ :=
    exec_findExistingDirectorySlot_eq_ok hm (hfolder.chain hc hm) hslot
  obtain ⟨_, u, hwritable, h⟩ := h
  obtain ⟨hwritable, rfl⟩ := exec_rejectIf_eq_ok.mp hwritable
  obtain ⟨_, u, hdeletable, h⟩ := h
  have hp := hfolder.reach_of_lookup hlookup (isShortName_of_encode hencode)
  obtain ⟨rfl, hremovable⟩ := exec_checkDeletable_eq_ok hm hc hp hfirst hdeletable
  exact ⟨host, leaf, short, p, hparent, hencode, hfolder, hlookup, hwritable, hremovable,
    exec_removeEntry_eq_ok hm hremovable (exec_bind_eq_ok.mpr h)⟩

/-- No directory has two entries of one name. -/
def UniqueNames (v : Volume) (w : View) : Prop :=
  ∀ n, v.Reach w n → w.IsDir n →
    ∀ p ∈ w.live (v.places (v.cells w n)), ∀ q ∈ w.live (v.places (v.cells w n)),
      (w.entry p).shortName = (w.entry q).shortName → p = q

/-- The name of an entry that has been taken away is not found any more. -/
theorem Removable.lookup (h : Removable v w p) (hu : UniqueNames v w) (hfolder : Folder v w host)
    (hlookup : w.lookup (v.visible (v.cells w host)) short = some p) :
    (w.remove v p).lookup (v.visible (v.cells w host)) short = none := by
  obtain ⟨hp, hname⟩ := lookup_some hlookup
  rw [View.lookup, h.live, List.find?_eq_none]
  intro q hq
  rw [List.mem_filter, decide_eq_true_eq] at hq
  rw [remove_entry v w hq.2, decide_eq_true_eq, ← hname]
  intro hsame
  refine hq.2 (hu host hfolder.reach hfolder.isDir q ?_ p ?_ hsame)
  · rw [v.places_eq_visible]
    exact mem_live_append hq.1 _
  · rw [v.places_eq_visible]
    exact mem_live_append hp _

/-- A successful `delete_path` has taken an entry away: its name is not found any more, exactly
the clusters of its chain have become free, every other entry is as it was, with the same
clusters and the same bytes, and a directory was empty. The search for the name ends with
`NotFound` unless the parent has more than `MAX_DIRECTORY_CLUSTERS` clusters and no end marker
in the ones that are scanned. -/
theorem deletePath_effect (hmount : d.Mounts v) (hc : Chained v (v.view d.disk))
    (hu : UniqueNames v (v.view d.disk)) {path : List UInt8}
    (h : (deletePath v path).exec d = (.ok (), d')) : ∃ host leaf short p,
      (resolveParentCluster v path false).exec d = (.ok ((v.view d.disk).head v host, leaf), d) ∧
      encodeShortName leaf = some short ∧ v.Child (v.view d.disk) host (some p) ∧
      ((v.view d.disk).entry p).shortName = short ∧
      (findInDirectory v ((v.view d.disk).head v host) short).exec d' =
        (.error (if (v.view d'.disk).Ends (v.visible (v.cells (v.view d.disk) host)) ∨
            (v.cells (v.view d.disk) host).length ≤ maxDirectoryClusters then .notFound
          else .chainTooLong), d') ∧
      (∀ c, (v.view d'.disk).fat c =
        if c ∈ v.cells (v.view d.disk) (some p) then 0 else (v.view d.disk).fat c) ∧
      (∀ q ≠ p, (v.view d'.disk).entry q = (v.view d.disk).entry q) ∧
      (∀ n, v.Reach (v.view d.disk) n → n ≠ some p → v.Reach (v.view d'.disk) n ∧
        v.cells (v.view d'.disk) n = v.cells (v.view d.disk) n ∧
        (¬(v.view d.disk).IsDir n → v.bytesOf (v.view d'.disk) (v.cells (v.view d.disk) n) =
          v.bytesOf (v.view d.disk) (v.cells (v.view d.disk) n))) ∧
      ((v.view d.disk).IsDir (some p) →
        ∀ q ∈ (v.view d.disk).live (v.places (v.cells (v.view d.disk) (some p))),
          (v.view d.disk).IsDot q) := by
  have hm := hmount.mounted
  obtain ⟨host, leaf, short, p, hparent, hencode, hfolder, hlookup, _, hp, hview⟩ :=
    exec_deletePath_eq_ok hm hc h
  have hshort := isShortName_of_encode hencode
  have hkid := Folder.mem_kids hlookup hshort
  have hne : host ≠ some p := by
    rintro rfl
    exact hc.not_kid_self hp.reach hkid
  have hm' : v.Mounted d'.sectors := by
    have hevolves := evolves_exec (deletePath v path) d
    rw [h] at hevolves
    exact hevolves.sectors ▸ hm
  have hchain := hp.chain hm hfolder.reach hne hfolder.head
  have hnone := hp.lookup hu hfolder hlookup
  rw [← hview] at hchain hnone
  refine ⟨host, leaf, short, p, hparent, hencode, ⟨hfolder.isDir, p, hkid, rfl⟩,
    (lookup_some hlookup).2, ?_, ?_, ?_, ?_, hp.leaf⟩
  · rw [exec_findInDirectory hm' hchain short, hnone]
    rfl
  · rw [hview]
    exact remove_fat v _ p
  · intro q hq
    rw [hview, remove_entry v _ hq]
  intro n hn hnp
  rw [hview]
  exact ⟨hp.reach_iff.mpr ⟨hn, hnp⟩, hp.cells hn hnp, hp.bytes hn⟩

/-! ## Root directories of files -/

theorem uniqueNames_of_files (hm : v.Mounted sectors) (hroot : v.Chain w v.rootCluster clusters)
    (hfiles : ∀ p ∈ w.live (v.places clusters), ¬(w.entry p).isDirectory)
    (hnames : ∀ p ∈ w.live (v.places clusters), ∀ q ∈ w.live (v.places clusters),
      (w.entry p).shortName = (w.entry q).shortName → p = q) : UniqueNames v w := by
  intro n hn hdir
  rcases reach_of_files hm hroot hfiles hn with rfl | ⟨p, hp, rfl⟩
  · rwa [show v.cells w none = clusters from chainOf_of_chain hm hroot]
  · exact absurd hdir (hfiles p hp)

/-- A file `A` with the clusters 3 and 4, and a file `B` of one byte. -/
def twoFileDevice : Device :=
  sampleDevice [(2, fat32EndMin), (3, 4), (4, fat32EndMin), (5, fat32EndMin)]
    [(2, putEntry (putEntry Buffer.zero 0 ⟨padded 11 [0x41], 3, 600, 0x20⟩) 32
      ⟨padded 11 [0x42], 5, 1, 0x20⟩), (5, Buffer.fill 0x79)]

theorem mounts_twoFileDevice : twoFileDevice.Mounts sampleVolume :=
  mounts_sampleDevice _ _

theorem chained_twoFileDevice : Chained sampleVolume (sampleVolume.view twoFileDevice.disk) ∧
    UniqueNames sampleVolume (sampleVolume.view twoFileDevice.disk) := by
  have hroot : sampleVolume.Chain (sampleVolume.view twoFileDevice.disk) 2 [2] :=
    .last (by decide +kernel)
  have hlive : (sampleVolume.view twoFileDevice.disk).live (sampleVolume.places [2]) =
      [⟨2, 0, 0⟩, ⟨2, 0, 1⟩] := by
    decide +kernel
  have hfiles : ∀ p ∈ (sampleVolume.view twoFileDevice.disk).live (sampleVolume.places [2]),
      ¬((sampleVolume.view twoFileDevice.disk).entry p).isDirectory := by
    rw [hlive]
    decide +kernel
  refine ⟨chained_of_files mounts_twoFileDevice.mounted hroot hfiles ?_ ?_,
    uniqueNames_of_files mounts_twoFileDevice.mounted hroot hfiles ?_⟩
  all_goals rw [hlive]
  · refine List.forall_mem_cons.mpr ⟨fun _ => ⟨[3, 4], .cons ?_ (.last ?_)⟩,
      List.forall_mem_singleton.mpr fun _ => ⟨[5], .last ?_⟩⟩
    · decide +kernel
    · decide +kernel
    · decide +kernel
  · decide +kernel
  · decide +kernel

/-- Deleting `A` frees its two clusters, and `B` keeps its bytes. -/
theorem deletePath_effect_sample :
    (∀ c, (sampleVolume.view
      ((deletePath sampleVolume [0x41]).exec twoFileDevice).2.disk).fat c =
        if c ∈ [3, 4] then 0 else (sampleVolume.view twoFileDevice.disk).fat c) ∧
    sampleVolume.bytesOf (sampleVolume.view
      ((deletePath sampleVolume [0x41]).exec twoFileDevice).2.disk) [5] =
        sampleVolume.bytesOf (sampleVolume.view twoFileDevice.disk) [5] := by
  obtain ⟨hchained, hunique⟩ := chained_twoFileDevice
  have hok : ((deletePath sampleVolume [0x41]).exec twoFileDevice).1 = .ok () := by
    decide +kernel
  have hgone : (sampleVolume.view
      ((deletePath sampleVolume [0x41]).exec twoFileDevice).2.disk).entry ⟨2, 0, 0⟩ ≠
        (sampleVolume.view twoFileDevice.disk).entry ⟨2, 0, 0⟩ := by
    decide +kernel
  have hcells : sampleVolume.cells (sampleVolume.view twoFileDevice.disk) (some ⟨2, 0, 0⟩) =
        [3, 4] ∧
      sampleVolume.cells (sampleVolume.view twoFileDevice.disk) (some ⟨2, 0, 1⟩) = [5] := by
    decide +kernel
  have hother : sampleVolume.Reach (sampleVolume.view twoFileDevice.disk) (some ⟨2, 0, 1⟩) :=
    .single ⟨trivial, _, (by decide +kernel), rfl⟩
  rcases hexec : (deletePath sampleVolume [0x41]).exec twoFileDevice with ⟨r, t⟩
  rw [hexec] at hok hgone
  subst hok
  obtain ⟨_, _, _, p, _, _, _, _, _, hfat, hframe, hrest, _⟩ :=
    deletePath_effect mounts_twoFileDevice hchained hunique hexec
  obtain rfl : p = ⟨2, 0, 0⟩ := by
    by_contra hne
    exact hgone (hframe _ (Ne.symm hne))
  rw [hcells.1] at hfat
  have hfile : ¬((sampleVolume.view twoFileDevice.disk).entry ⟨2, 0, 1⟩).isDirectory := by
    decide +kernel
  have hbytes := (hrest _ hother (by decide)).2.2 hfile
  rw [hcells.2] at hbytes
  exact ⟨hfat, hbytes⟩

/-- The FAT of a volume whose root directory has the clusters 2 to 130, and a file cluster 131. -/
def longFat (index : ℕ) : Sector :=
  Buffer.ofFn fun i =>
    let cluster := 128 * index + i / 4
    let value := if cluster < 130 then cluster + 1 else if cluster < 132 then fat32EndMin else 0
    UInt8.ofNat (value / 256 ^ (i % 4))

/-- A sector with an entry for a file `A`, and parts of long names in all other slots. -/
def oneFileSector : Sector :=
  putEntry (Buffer.fill 0x0f) 0 ⟨padded 11 [0x41], 131, 1, 0x20⟩

/-- A root directory of 129 clusters without an end marker. -/
def longDirectoryDevice : Device where
  sectors := 66550
  disk lba :=
    if lba = 0 then sampleBoot
    else if lba < 1025 then longFat ((lba - 1) % 512)
    else if lba = 1025 then oneFileSector
    else if lba < 1154 then Buffer.fill 0x0f
    else Buffer.zero
  readOnly := false
  fault := none

theorem mounts_longDirectoryDevice : longDirectoryDevice.Mounts sampleVolume :=
  ⟨⟨sampleDevice [] [], rfl, mount_sampleDevice⟩, show 66550 ≤ 2 ^ 28 by decide, by decide⟩

theorem chained_longDirectoryDevice :
    Chained sampleVolume (sampleVolume.view longDirectoryDevice.disk) ∧
      UniqueNames sampleVolume (sampleVolume.view longDirectoryDevice.disk) := by
  have hroot : sampleVolume.Chain (sampleVolume.view longDirectoryDevice.disk) 2
      (range' 2 129) := by
    refine Linked.range ?_ ?_
    · decide +kernel
    · decide +kernel
  have hlive : (sampleVolume.view longDirectoryDevice.disk).live
      (sampleVolume.places (range' 2 129)) = [⟨2, 0, 0⟩] := by
    decide +kernel
  have hfiles : ∀ p ∈ (sampleVolume.view longDirectoryDevice.disk).live
      (sampleVolume.places (range' 2 129)),
      ¬((sampleVolume.view longDirectoryDevice.disk).entry p).isDirectory := by
    rw [hlive]
    decide +kernel
  refine ⟨chained_of_files mounts_longDirectoryDevice.mounted hroot hfiles ?_ ?_,
    uniqueNames_of_files mounts_longDirectoryDevice.mounted hroot hfiles ?_⟩
  all_goals rw [hlive]
  · exact List.forall_mem_singleton.mpr fun _ => ⟨[131], .last (by decide +kernel)⟩
  · decide +kernel
  · decide +kernel

/-- After the deletion the search for the name passes 128 clusters without an end marker and
does not report that there is no such entry. -/
theorem deletePath_longDirectory :
    longDirectoryDevice.Mounts sampleVolume ∧ longDirectoryDevice.fault = none ∧
    Chained sampleVolume (sampleVolume.view longDirectoryDevice.disk) ∧
    UniqueNames sampleVolume (sampleVolume.view longDirectoryDevice.disk) ∧
    (resolveParentCluster sampleVolume [0x41] false).exec longDirectoryDevice =
      (.ok (2, [0x41]), longDirectoryDevice) ∧ encodeShortName [0x41] = some (padded 11 [0x41]) ∧
    ((deletePath sampleVolume [0x41]).exec longDirectoryDevice).1 = .ok () ∧
    ((findInDirectory sampleVolume 2 (padded 11 [0x41])).exec
      ((deletePath sampleVolume [0x41]).exec longDirectoryDevice).2).1 = .error .chainTooLong := by
  refine ⟨mounts_longDirectoryDevice, rfl, chained_longDirectoryDevice.1,
    chained_longDirectoryDevice.2, rfl, ?_, ?_, ?_⟩
  · decide +kernel
  · decide +kernel
  · decide +kernel

end WovenHat.Fat32
