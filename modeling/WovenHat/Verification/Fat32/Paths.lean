import WovenHat.Verification.Fat32.Reserve
import WovenHat.Verification.Fat32.ShortNames

/-! # Paths

On a volume whose chains are sound and disjoint, the path functions that do not create
anything walk from directory to directory of the tree. -/

namespace WovenHat.Fat32

open Library Block Fallible Volume

variable {v : Volume} {d d' : Device} {w w' : View} {sectors : ℕ} {n m host : Node} {p q : Place}
  {short : List UInt8}

/-- Every chain of the tree is sound, and no cluster belongs to two of them. -/
structure Chained (v : Volume) (w : View) : Prop where
  chain : ∀ n, v.Reach w n → 2 ≤ w.head v n → ∃ clusters, v.Chain w (w.head v n) clusters
  disjoint : ∀ n m, v.Reach w n → v.Reach w m → n ≠ m → ∀ c ∈ v.cells w n, c ∉ v.cells w m

namespace Chained

theorem cells_chain (h : Chained v w) (hm : v.Mounted sectors) (hn : v.Reach w n)
    (hhead : 2 ≤ w.head v n) : v.Chain w (w.head v n) (v.cells w n) := by
  obtain ⟨clusters, hchain⟩ := h.chain n hn hhead
  rwa [cells, chainOf_of_chain hm hchain]

theorem node_unique (h : Chained v w) (hn : v.Reach w n) (hr : v.Reach w m) {c : ℕ}
    (hc : c ∈ v.cells w n) (hc' : c ∈ v.cells w m) : n = m := by
  by_contra hne
  exact h.disjoint n m hn hr hne c hc hc'

theorem not_kid_self (h : Chained v w) (hp : v.Reach w (some p)) : p ∉ v.kids w (some p) := by
  -- A cycle would start at the root, which is not a child; the parent on the path to `p` has
  -- the cluster of the slot, and so has `p` itself.
  intro hself
  have hparent : ∀ x, v.Reach w x → x = some p → ∃ n, v.Reach w n ∧ n ≠ some p ∧
      p ∈ v.kids w n := by
    intro x hx
    induction hx with
    | refl => exact nofun
    | @tail a b hreach hstep ih =>
      intro hb
      by_cases ha : a = some p
      · exact ih ha
      obtain ⟨_, q, hq, hbq⟩ := hstep
      obtain rfl : q = p := Option.some.inj (hbq.symm.trans hb)
      exact ⟨a, hreach, ha, hq⟩
  obtain ⟨n, hn, hne, hkid⟩ := hparent _ hp rfl
  exact hne (h.node_unique hn hp (mem_cells_of_kid hkid) (mem_cells_of_kid hself))

end Chained

/-- A directory whose slots can be scanned. -/
structure Folder (v : Volume) (w : View) (n : Node) : Prop where
  reach : v.Reach w n
  isDir : w.IsDir n
  head : 2 ≤ w.head v n

theorem folder_root (hm : v.Mounted sectors) (w : View) : Folder v w none :=
  ⟨Reaches.refl _ _, trivial, hm.root.1⟩

theorem View.mem_live_append {ps : List Place} (h : p ∈ w.live ps) (ps' : List Place) :
    p ∈ w.live (ps ++ ps') := by
  by_cases hends : w.Ends ps
  · rwa [live_append_of_ends hends]
  · rw [live_append_of_not_ends hends]
    exact List.mem_append_left _ h

namespace Folder

theorem chain (h : Folder v w n) (hc : Chained v w) (hm : v.Mounted sectors) :
    v.Chain w (w.head v n) (v.cells w n) :=
  hc.cells_chain hm h.reach h.head

theorem mem_kids (h : w.lookup (v.visible (v.cells w host)) short = some p)
    (hshort : IsShortName short) : p ∈ v.kids w host := by
  obtain ⟨hlive, hname⟩ := View.lookup_some h
  rw [kids_iff, v.places_eq_visible]
  refine ⟨View.mem_live_append hlive _, ?_⟩
  rw [View.IsDot, hname, not_or]
  exact hshort.notDot

theorem reach_of_lookup (hfolder : Folder v w host)
    (h : w.lookup (v.visible (v.cells w host)) short = some p) (hshort : IsShortName short) :
    v.Reach w (some p) :=
  hfolder.reach.step ⟨hfolder.isDir, p, mem_kids h hshort, rfl⟩

end Folder

theorem exec_okOr_eq_ok {α : Type} {x : Option α} {e : Error} {a : α} :
    (okOr x e).exec d = (.ok a, d') ↔ x = some a ∧ d' = d := by
  cases x with
  | none => simp [okOr]
  | some b => simp [okOr, eq_comm]

theorem exec_resolveParents_eq_ok (hm : v.Mounted d.sectors) (hc : Chained v (v.view d.disk))
    {parts : List (List UInt8)} {cluster : ℕ} (hfolder : Folder v (v.view d.disk) host)
    (h : (resolveParents v false ((v.view d.disk).head v host) parts).exec d =
      (.ok cluster, d')) : d' = d ∧ ∃ host', Folder v (v.view d.disk) host' ∧
      cluster = (v.view d.disk).head v host' := by
  induction parts generalizing host with
  | nil =>
    rw [resolveParents, exec_pure] at h
    cases h
    exact ⟨rfl, host, hfolder, rfl⟩
  | cons component rest ih =>
    rw [resolveParents, exec_bind_eq_ok] at h
    obtain ⟨short, t, hname, h⟩ := h
    obtain ⟨hencode, rfl⟩ := exec_okOr_eq_ok.mp hname
    have hshort := isShortName_of_encode hencode
    rw [exec_bind_ok (exec_attempt _ t), exec_findInDirectory hm (hfolder.chain hc hm) short] at h
    cases hlookup : (v.view t.disk).lookup (v.visible (v.cells (v.view t.disk) host)) short with
    | none =>
      simp [hlookup] at h
    | some p =>
      simp only [hlookup, checkedEntry] at h
      split at h
      · rename_i e he
        split at he
        · cases he
        cases he
        split at h
        · cases h
        rename_i hdir
        rw [not_or, not_not, not_lt] at hdir
        have hnext : Folder v (v.view t.disk) (some p) :=
          ⟨hfolder.reach_of_lookup hlookup hshort, hdir.1, hdir.2⟩
        exact ih hnext h
      · simp at h

theorem exec_resolveParentCluster_eq_ok (hm : v.Mounted d.sectors)
    (hc : Chained v (v.view d.disk)) {path leaf : List UInt8} {parent : ℕ}
    (h : (resolveParentCluster v path false).exec d = (.ok (parent, leaf), d')) :
    d' = d ∧ ∃ host, Folder v (v.view d.disk) host ∧ parent = (v.view d.disk).head v host := by
  rw [resolveParentCluster, exec_bind_eq_ok] at h
  obtain ⟨parts, t, hparts, h⟩ := h
  rw [exec_ofExcept, Prod.mk.injEq] at hparts
  obtain ⟨_, rfl⟩ := hparts
  split at h
  · cases h
  rw [exec_bind_eq_ok] at h
  obtain ⟨_, t, hname, h⟩ := h
  obtain ⟨_, rfl⟩ := exec_okOr_eq_ok.mp hname
  rw [exec_bind_eq_ok] at h
  obtain ⟨cluster, u, hresolve, h⟩ := h
  rw [exec_pure] at h
  cases h
  exact exec_resolveParents_eq_ok hm hc (folder_root hm _) hresolve

/-- What `find_existing_directory_slot` returns for the entry it has found. -/
def existingSlot (v : Volume) (w : View) (p : Place) : Except Error DirectorySlot :=
  (directoryEntryFromSector (w.sectorAt p) p.offset).map fun e =>
    ⟨p.lba v, p.offset, e, (w.sectorAt p).slice p.offset directoryEntrySize⟩

variable {clusters : List ℕ} {start : ℕ}

theorem exec_findExistingDirectorySlot (hm : v.Mounted d.sectors)
    (hchain : v.Chain (v.view d.disk) start clusters) (short : List UInt8) :
    (findExistingDirectorySlot v start short).exec d =
      (match (v.view d.disk).lookup (v.visible clusters) short with
        | some p => existingSlot v (v.view d.disk) p
        | none => .error (notFoundError (v.view d.disk) v clusters), d) := by
  refine exec_find hm hchain short ?_
  intro s p
  rw [scansEntries_existingStep v (v.view d.disk) short s p]
  congr 2
  refine if_congr Iff.rfl ?_ rfl
  rw [existingSlot]
  cases directoryEntryFromSector ((v.view d.disk).sectorAt p) p.offset <;> rfl

theorem exec_findExistingDirectorySlot_eq_ok (hm : v.Mounted d.sectors)
    (hchain : v.Chain (v.view d.disk) start clusters) {slot : DirectorySlot}
    (h : (findExistingDirectorySlot v start short).exec d = (.ok slot, d')) :
    d' = d ∧ ∃ p, (v.view d.disk).lookup (v.visible clusters) short = some p ∧
      slot = ⟨p.lba v, p.offset, (v.view d.disk).entry p,
        ((v.view d.disk).sectorAt p).slice p.offset directoryEntrySize⟩ ∧
      ((v.view d.disk).IsDir (some p) → 2 ≤ (v.view d.disk).head v (some p)) := by
  rw [exec_findExistingDirectorySlot hm hchain, Prod.mk.injEq] at h
  obtain ⟨hslot, rfl⟩ := h
  refine ⟨rfl, ?_⟩
  cases hlookup : (v.view d.disk).lookup (v.visible clusters) short with
  | none =>
    rw [hlookup] at hslot
    cases hslot
  | some p =>
    rw [hlookup] at hslot
    simp only [existingSlot, directoryEntryFromSector_eq] at hslot
    split at hslot
    · cases hslot
    rename_i hentry
    cases hslot
    refine ⟨p, rfl, rfl, fun hdir => ?_⟩
    by_contra hlow
    exact hentry ⟨by simpa [View.head] using hlow, .inr hdir⟩

/-! ## Volumes with one directory -/

section Files

variable (hm : v.Mounted sectors) (hroot : v.Chain w v.rootCluster clusters)
  (hfiles : ∀ p ∈ w.live (v.places clusters), ¬(w.entry p).isDirectory)

include hm hroot hfiles

/-- If the root directory holds files only, there is nothing else to reach. -/
theorem reach_of_files (hn : v.Reach w n) :
    n = none ∨ ∃ p ∈ w.live (v.places clusters), n = some p := by
  have hcells : v.cells w none = clusters := chainOf_of_chain hm hroot
  induction hn with
  | refl => exact .inl rfl
  | tail _ hstep ih =>
    obtain ⟨hdir, q, hq, rfl⟩ := hstep
    rcases ih with rfl | ⟨p, hp, rfl⟩
    · replace hq := (kids_iff.mp hq).1
      rw [hcells] at hq
      exact .inr ⟨q, hq, rfl⟩
    · exact absurd hdir (hfiles p hp)

/-- Such a volume is well formed if the files have sound chains, apart from each other and
outside the root directory. -/
theorem chained_of_files
    (hchain : ∀ p ∈ w.live (v.places clusters), 2 ≤ (w.entry p).firstCluster →
      ∃ l, v.Chain w (w.entry p).firstCluster l)
    (hdisjoint : ∀ p ∈ w.live (v.places clusters), ∀ c ∈ v.cells w (some p), c ∉ clusters ∧
      ∀ q ∈ w.live (v.places clusters), c ∈ v.cells w (some q) → q = p) : Chained v w := by
  have hcells : v.cells w none = clusters := chainOf_of_chain hm hroot
  refine ⟨fun n hn hhead => ?_, fun n m hn hr hne c hc hc' => ?_⟩
  · rcases reach_of_files hm hroot hfiles hn with rfl | ⟨p, hp, rfl⟩
    · exact ⟨clusters, hroot⟩
    · exact hchain p hp hhead
  rcases reach_of_files hm hroot hfiles hn with rfl | ⟨p, hp, rfl⟩
  · rcases reach_of_files hm hroot hfiles hr with rfl | ⟨q, hq, rfl⟩
    · exact hne rfl
    · exact (hdisjoint q hq c hc').1 (hcells ▸ hc)
  · rcases reach_of_files hm hroot hfiles hr with rfl | ⟨q, hq, rfl⟩
    · exact (hdisjoint p hp c hc).1 (hcells ▸ hc')
    · exact hne (congrArg some ((hdisjoint p hp c hc).2 q hq hc').symm)

end Files

end WovenHat.Fat32
