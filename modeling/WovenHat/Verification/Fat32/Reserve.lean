import WovenHat.Verification.Fat32.SlotWrites

/-! # Reserving a slot

`find_directory_slot` returns the slot of the entry with a given name, or the first free
slot, or the first slot of a new cluster at the end of the directory. -/

namespace WovenHat.Fat32

open Library Block Fallible View

variable {v : Volume} {d : Device} {w w' : View} {short : List UInt8}

/-! ## Free slots -/

/-! ## Extending a directory -/

/-- There is a second FAT copy, and the write that fails is the one that links a newly
allocated directory cluster in that copy: the second write after the cluster has been
allocated and zeroed. -/
def LinkFault (v : Volume) (d : Device) : Prop :=
  v.fatCount = 2 ∧ ∃ new t t', (allocateCluster v).exec d = (.ok new, t) ∧
    (zeroCluster v new).exec t = (.ok (), t') ∧ t'.readOnly = false ∧ t'.fault = some 1

variable {e : Error}

theorem not_linkFault_of_allocate {t : Device}
    (h : (allocateCluster v).exec d = (.error e, t)) : ¬LinkFault v d := by
  rintro ⟨_, new, t₁, t₂, halloc, _⟩
  rw [h] at halloc
  cases halloc

theorem not_linkFault_of_zero {c : ℕ} {t t' : Device} (h : (allocateCluster v).exec d = (.ok c, t))
    (h' : (zeroCluster v c).exec t = (.error e, t')) : ¬LinkFault v d := by
  rintro ⟨_, new, t₁, t₂, halloc, hzero, _⟩
  rw [h] at halloc
  cases halloc
  rw [h'] at hzero
  cases hzero

theorem linkFault_iff {c : ℕ} {t t' : Device} (h : (allocateCluster v).exec d = (.ok c, t))
    (h' : (zeroCluster v c).exec t = (.ok (), t')) :
    LinkFault v d ↔ v.fatCount = 2 ∧ t'.readOnly = false ∧ t'.fault = some 1 := by
  constructor
  · rintro ⟨hcount, new, t₁, t₂, halloc, hzero, hro, hfault⟩
    rw [h] at halloc
    cases halloc
    rw [h'] at hzero
    cases hzero
    exact ⟨hcount, hro, hfault⟩
  · rintro ⟨hcount, hro, hfault⟩
    exact ⟨hcount, c, t, t', h, h', hro, hfault⟩

inductive Extension (v : Volume) (d : Device) (last : ℕ) :
    Except Error DirectorySlotReservation → Device → Prop where
  | done {new : ℕ} {d' : Device} (range : v.isAllocatable new)
      (free : (v.view d.disk).fat new = 0)
      (fat : (v.view d'.disk).fat = (((v.view d.disk).setFat new fat32EndMin).setFat last new).fat)
      (data : ∀ c ≠ new, (v.view d'.disk).data c = (v.view d.disk).data c)
      (blank : ∀ i < v.sectorsPerCluster, (v.view d'.disk).data new i = Buffer.zero)
      (quiet : ¬LinkFault v d) :
      Extension v d last (.ok ⟨v.lbaOf new, 0, none, some ⟨last, new⟩⟩) d'
  | failed {e : Error} {d' : Device}
      (scratch : Scratch v {c | (v.view d.disk).fat c = 0} (v.view d.disk) (v.view d'.disk))
      (quiet : ¬LinkFault v d) : Extension v d last (.error e) d'
  | torn {e : Error} {new : ℕ} {d' : Device} (range : v.isAllocatable new)
      (free : (v.view d.disk).fat new = 0)
      (fat : (v.view d'.disk).fat = ((v.view d.disk).setFat last new).fat)
      (data : ∀ c ≠ new, (v.view d'.disk).data c = (v.view d.disk).data c)
      (blank : ∀ i < v.sectorsPerCluster, (v.view d'.disk).data new i = Buffer.zero)
      (fault : LinkFault v d) : Extension v d last (.error e) d'

/-- What linking a new cluster after `last` can do; a failure frees the new cluster. -/
inductive LinkOutcome (v : Volume) (last new : ℕ) (d : Device) :
    Except Error Unit → Device → Prop where
  | done {d' : Device} (view : v.view d'.disk = (v.view d.disk).setFat last new)
      (second : ¬(v.fatCount = 2 ∧ d.readOnly = false ∧ d.fault = some 1)) :
      LinkOutcome v last new d (.ok ()) d'
  | missed {e : Error} {d' : Device} {cleared : List ℕ} (sub : cleared ⊆ [new])
      (view : v.view d'.disk = (v.view d.disk).clear cleared)
      (first : ¬(v.fatCount = 2 ∧ d.readOnly = false ∧ d.fault = some 1)) :
      LinkOutcome v last new d (.error e) d'
  | torn {e : Error} {d' : Device}
      (view : v.view d'.disk = ((v.view d.disk).setFat last new).clear [new])
      (struck : v.fatCount = 2 ∧ d.readOnly = false ∧ d.fault = some 1) :
      LinkOutcome v last new d (.error e) d'

theorem post_linkOrFree (hm : v.Mounted d.sectors) {last new : ℕ} (hlast : v.isAllocatable last)
    (hnew : v.isAllocatable new) (hne : new ≠ last) (hend : (v.view d.disk).fat new = fat32EndMin) :
    ((writeFatEntry v last new).onError (freeClusterChain v new)).Post d
      (LinkOutcome v last new d) := by
  have hchain : v.Chain (v.view d.disk) new [new] := .last (Volume.linkOf_eq_last hnew hend)
  refine post_onError (post_writeFatEntry hm hlast new) ?_ ?_
  · intro _ t _ ht
    cases ht with
    | done _ _ second view =>
      rw [hm.mod_eq hnew] at view
      exact .done view fun h => second h.1 h.2.2
  intro e t hevolves ht
  have hmt : v.Mounted t.sectors := hevolves.sectors ▸ hm
  cases ht with
  | missed view struck =>
    rw [← view] at hchain
    refine (post_freeClusterChain_of_chain hmt hchain).mono fun r u hu _ => ?_
    obtain ⟨cleared, hsub, hview⟩ := hu.some
    refine .missed hsub (by rw [hview, view]) fun h => ?_
    have hzero := (struck h.2.1).1
    rw [h.2.2] at hzero
    cases hzero
  | torn copies writable struck spent view =>
    rw [hm.mod_eq hnew] at view
    have hchain' : v.Chain (v.view t.disk) new [new] := by
      refine .last (Volume.linkOf_eq_last hnew ?_)
      rw [view, setFat_fat_of_ne _ hne, hend]
    refine (post_freeClusterChain_of_chain hmt hchain').mono fun r u hu _ => ?_
    have hok := hu.succeeds (hevolves.readOnly.trans writable) spent
    exact .torn (by rw [hu.all hok, view]) ⟨copies, writable, struck⟩

theorem post_extendDirectoryChain (hm : v.Mounted d.sectors) {last : ℕ}
    (hrange : v.isAllocatable last) (hused : (v.view d.disk).fat last ≠ 0) :
    (extendDirectoryChain v last).Post d (Extension v d last) := by
  have hallocation := post_allocateCluster hm
  have hscratch := ((Scratch.refl v (v.view d.disk)).allocate hm fun _ hc => hc).1
  rw [Post] at hallocation
  rcases halloc : (allocateCluster v).exec d with ⟨r, t⟩
  have hmt : v.Mounted t.sectors := by
    have := exec_sectors (allocateCluster v) d
    rw [halloc] at this
    rwa [this]
  rw [halloc] at hallocation hscratch
  cases hallocation with
  | full | missed _ =>
    exact .of_exec (exec_bind_error halloc) (.failed hscratch (not_linkFault_of_allocate halloc))
  | torn _ _ _ =>
    exact .of_exec (exec_bind_error halloc) (.failed hscratch (not_linkFault_of_allocate halloc))
  | @done new _ range free view =>
    have hne : new ≠ last := fun heq => hused (heq ▸ free)
    refine Post.step halloc ?_
    have hzeroed := post_zeroCluster hmt range
    rcases hzero : (zeroCluster v new).exec t with ⟨rz, t₂⟩
    have hmt₂ : v.Mounted t₂.sectors := by
      have := exec_sectors (zeroCluster v new) t
      rw [hzero] at this
      rwa [this]
    rw [Post, hzero] at hzeroed
    obtain ⟨hover, hblank⟩ := hzeroed
    have hscratch₂ : Scratch v {c | (v.view d.disk).fat c = 0} (v.view d.disk) (v.view t₂.disk) :=
      (hover.mono (Set.singleton_subset_iff.mpr free)).scratch hscratch
    cases rz with
    | error e =>
      refine Post.of_exec (exec_bind_error (exec_onError_error hzero)) ?_
      exact .failed (hscratch₂.free hmt₂ free) (not_linkFault_of_zero halloc hzero)
    | ok _ =>
      refine Post.step (exec_onError_ok hzero) ?_
      have hfat : (v.view t₂.disk).fat = ((v.view d.disk).setFat new fat32EndMin).fat := by
        rw [hover.fat_eq, view]
      have hend : (v.view t₂.disk).fat new = fat32EndMin := by
        rw [hfat, setFat_fat_self]
      have hdata : ∀ c ≠ new, (v.view t₂.disk).data c = (v.view d.disk).data c := by
        intro c hc
        rw [hover.data_eq c hc, view, setFat_data]
      refine post_bind (post_linkOrFree hmt₂ hrange range hne hend) ?_ ?_
      · intro _ u _ hu
        cases hu with
        | done view' second =>
          have hlba := exec_clusterLba hm new u
          rw [if_pos range] at hlba
          refine Post.step hlba (.of_exec rfl (.done range free ?_ ?_ ?_ ?_))
          · rw [view', setFat, setFat, hfat]
          · intro c hc
            rw [view', setFat_data, hdata c hc]
          · intro i hi
            rw [view', setFat_data, hblank rfl i hi]
          · rwa [linkFault_iff halloc hzero]
      · intro e u _ hu
        cases hu with
        | missed sub view' first =>
          refine .failed ?_ ((linkFault_iff halloc hzero).not.mpr first)
          rw [view']
          refine hscratch₂.clear fun c hc => ?_
          rw [List.mem_singleton.mp (sub hc)]
          exact free
        | torn view' struck =>
          refine .torn range free ?_ ?_ ?_ ((linkFault_iff halloc hzero).mpr struck)
          · rw [view']
            funext c
            by_cases hc : c = new
            · subst hc
              rw [clear_fat_of_mem _ (List.mem_singleton_self c), setFat_fat_of_ne _ hne, free]
            · rw [clear_fat_of_not_mem _ (by simpa using hc)]
              by_cases hl : c = last
              · rw [hl, setFat_fat_self, setFat_fat_self]
              · rw [setFat_fat_of_ne _ hl, setFat_fat_of_ne _ hl, hfat, setFat_fat_of_ne _ hc]
          · intro c hc
            rw [view', clear_data, setFat_data, hdata c hc]
          · intro i hi
            rw [view', clear_data, setFat_data, hblank rfl i hi]

/-! ## The slots that are looked at -/

theorem Volume.places_eq_visible (v : Volume) (clusters : List ℕ) : v.places clusters =
      v.visible clusters ++ v.places (clusters.drop maxDirectoryClusters) := by
  rw [visible, ← places_append, List.take_append_drop]

end WovenHat.Fat32
