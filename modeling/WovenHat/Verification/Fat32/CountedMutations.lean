import WovenHat.Verification.Fat32.FreeCount
import WovenHat.Verification.Fat32.Data

/-! # Mutations keep the free count

A rollback writes to the FAT entry of a directory's last cluster, so this entry is followed
from the extension of the directory to the rollback. -/

namespace WovenHat.Fat32

open Library Block Fallible Buffer

variable {v : Volume} {d d' : Device} {info c : ℕ} {α σ ρ : Type}

theorem moves_okOr {R : Device → Device → Prop} [IsPreorder Device R] (x : Option α)
    (error : Error) : Moves R (okOr x error) :=
  moves_of_reads (calls_okOr x error)

/-! ## Entries in use -/

def Volume.Live (v : Volume) (c : ℕ) (d : Device) : Prop :=
  v.isAllocatable c ∧ (v.view d.disk).fat c ≠ 0

theorem post_walkDirectory (hm : v.Mounted d.sectors) {step : SlotStep σ ρ} {finish : σ → ℕ → Fs ρ}
    {R : ρ → Prop} {Q : Except Error ρ → Device → Prop} (hstep : step.Finds v (fun _ => True) R)
    (hstop : ∀ r, R r → Q (.ok r) d) (herror : ∀ e, Q (.error e) d)
    (hfinish : ∀ s cluster, v.linkOf (v.view d.disk).fat cluster = some none →
      (finish s cluster).Post d Q) (fuel : ℕ) (visited : List ℕ) (cluster : ℕ) (s : σ) :
    (walkDirectory v step finish fuel visited cluster s).Post d Q := by
  induction fuel generalizing visited cluster s with
  | zero => exact .of_exec rfl (herror _)
  | succ fuel ih =>
    have hvisited : (rejectIf (cluster ∈ visited) .chainLoop : Fs Unit).Post d
        fun _ t => t = d := moves_rejectIf (R := Unchanged) _ _ d
    refine hvisited.bind ?_ (by rintro e t rfl; exact herror e)
    rintro _ t rfl
    have hbase := exec_clusterLba hm cluster t
    by_cases hc : v.isAllocatable cluster
    · rw [if_pos hc] at hbase
      refine Post.step hbase ?_
      have hscan : (scanCluster step (v.lbaOf cluster) v.sectorsPerCluster s).Post t
          fun r u => u = t ∧ ∀ x, r = .ok (.stop x) → R x := by
        have hreads := calls_scanCluster (P := SectorOp.IsRead) hstep hc 0 v.sectorsPerCluster
          (by omega) (s := s) trivial
        exact ⟨moves_of_reads (R := Unchanged) hreads t, fun x hx => hreads.outcome (Prod.ext hx rfl)⟩
      refine hscan.bind ?_ (by rintro e u ⟨rfl, _⟩; exact herror e)
      rintro result u ⟨rfl, hfound⟩
      cases result with
      | stop r => exact .of_exec rfl (hstop r (hfound r rfl))
      | next s =>
        have hnext := exec_nextCluster hm cluster
        rcases hlink : v.linkOf (v.view u.disk).fat cluster with _ | _ | next
        · rw [hlink] at hnext
          rw [Post, exec_bind_error hnext]
          exact herror _
        · rw [hlink] at hnext
          exact Post.step hnext (hfinish s cluster hlink)
        · rw [hlink] at hnext
          exact Post.step hnext (ih _ next s)
    · rw [if_neg hc] at hbase
      rw [Post, exec_bind_error hbase]
      exact herror _

/-- The clusters that were in use have kept their FAT entries, and the others are not
linked to them. -/
def Volume.Untangled (v : Volume) (fat : ℕ → ℕ) (d : Device) : Prop :=
  ∃ data, Scratch v {c | fat c = 0} ⟨fat, data⟩ (v.view d.disk)

namespace Volume.Untangled

variable {fat : ℕ → ℕ}

theorem refl (v : Volume) (d : Device) : v.Untangled (v.view d.disk).fat d :=
  ⟨(v.view d.disk).data, Scratch.refl v (v.view d.disk)⟩

theorem live (h : v.Untangled fat d) (hc : v.isAllocatable c) (hused : fat c ≠ 0) : v.Live c d := by
  obtain ⟨data, hscratch⟩ := h
  exact ⟨hc, by rw [hscratch.fat_eq c hused]; exact hused⟩

theorem stores {p : Fs α} {Q : α → Prop} (h : v.Untangled fat d) (hm : v.Mounted d.sectors)
    (hp : Calls v.Stores p Q) : v.Untangled fat (p.exec d).2 := by
  obtain ⟨data, hscratch⟩ := h
  have hfat := fat_eq_of_stores hp hm
  exact ⟨(v.view (p.exec d).2.disk).data, fun c hc => by rw [hfat]; exact hscratch.fat_eq c hc,
    fun _ _ => rfl, fun c hc next hlink => hscratch.closed c hc next (hfat ▸ hlink)⟩

theorem free (h : v.Untangled fat d) (hm : v.Mounted d.sectors) {start : ℕ}
    (hstart : 2 ≤ start → fat start = 0) :
    v.Untangled fat ((freeClusterChain v start).exec d).2 := by
  obtain ⟨data, hscratch⟩ := h
  by_cases hlow : start < 2
  · rw [freeClusterChain, if_pos hlow]
    exact ⟨data, hscratch⟩
  · exact ⟨data, hscratch.free hm (hstart (not_lt.mp hlow))⟩

end Volume.Untangled

/-! ## Chains and slots -/

theorem post_allocateCluster_counted (h : Counted v info d) :
    (allocateCluster v).Post d fun r t => Counted v info t ∧
      ∀ c, r = .ok c → v.isAllocatable c ∧ (v.view d.disk).fat c = 0 ∧
        v.view t.disk = (v.view d.disk).setFat c fat32EndMin := by
  refine ⟨countKept_allocateCluster d h, ?_⟩
  have hallocation := post_allocateCluster h.mounted
  rw [Post] at hallocation
  generalize (allocateCluster v).exec d = outcome at hallocation
  obtain ⟨r, t⟩ := outcome
  cases hallocation with
  | done range free view =>
    rintro c ⟨⟩
    exact ⟨range, free, view⟩
  | full => rintro _ ⟨⟩
  | missed _ => rintro _ ⟨⟩
  | torn _ _ _ => rintro _ ⟨⟩

theorem Volume.Mounted.mod_ne_zero {sectors : ℕ} (hm : v.Mounted sectors)
    (hc : v.isAllocatable c) : c % entryModulus ≠ 0 := by
  have hrange := hm.allocatable_iff.mp hc
  have hsmall := hm.clusters_lt
  simp only [fat32BadCluster] at hsmall
  simp only [entryModulus]
  omega

theorem counted_allocateChainLoop (count : ℕ) {first previous : ℕ} (h : Counted v info d)
    (hlive : first ≠ 0 → v.Live previous d) :
    (allocateChainLoop v count first previous).Post d fun _ t => Counted v info t := by
  induction count generalizing d first previous with
  | zero => exact .of_exec rfl h
  | succ count ih =>
    have hfree : Moves (CountKept v info) (runIf (2 ≤ first) (freeClusterChain v first)) :=
      .ite (countKept_freeClusterChain first) (.pure ())
    have hround : ((allocateCluster v).onError
        (runIf (2 ≤ first) (freeClusterChain v first))).Post d fun r t => Counted v info t ∧
        ∀ c, r = .ok c → v.isAllocatable c ∧ (v.view d.disk).fat c = 0 ∧
          v.view t.disk = (v.view d.disk).setFat c fat32EndMin := by
      refine (post_allocateCluster_counted h).onError (fun _ _ ht => ht) fun e t ht => ?_
      exact ⟨hfree t ht.1, nofun⟩
    refine hround.bind ?_ fun _ _ ht => ht.1
    rintro cluster t ⟨ht, htaken⟩
    obtain ⟨hc, _, hview⟩ := htaken cluster rfl
    have hcluster : v.Live cluster t := ⟨hc, by simp [hview, fat32EndMin]⟩
    split
    · exact ih ht fun _ => hcluster
    rename_i hfirst
    obtain ⟨hprev, hused⟩ := hlive hfirst
    have hused' : (v.view t.disk).fat previous ≠ 0 := by
      rw [hview]
      by_cases heq : previous = cluster
      · simp [heq, fat32EndMin]
      · rwa [View.setFat_fat_of_ne _ heq]
    have hmod := ht.mounted.mod_ne_zero hc
    obtain ⟨u, hexec, hu, hview'⟩ := countedBut_relink ht hprev hused' hmod
    refine Post.step (exec_onError_ok hexec) (ih hu fun _ => ⟨hc, ?_⟩)
    rw [hview']
    by_cases heq : cluster = previous
    · subst heq
      simpa using hmod
    · rw [View.setFat_fat_of_ne _ heq]
      exact hcluster.2

/-- The last cluster of the directory that was extended for a slot is in use. -/
def DirectorySlotReservation.Live (v : Volume) (slot : DirectorySlotReservation) (d : Device) :
    Prop :=
  ∀ extension, slot.extension = some extension → v.Live extension.parentCluster d

variable {slot : DirectorySlotReservation}

/-- A slot stays live while nothing but free clusters is used. -/
theorem DirectorySlotReservation.Live.untangled
    (h : slot.Live v d) (h' : v.Untangled (v.view d.disk).fat d') : slot.Live v d' :=
  fun extension hextension => h'.live (h extension hextension).1 (h extension hextension).2

theorem counted_rollbackReservedSlot (h : Counted v info d)
    (hlive : slot.Live v d) : Counted v info ((rollbackReservedSlot v slot).exec d).2 := by
  unfold rollbackReservedSlot
  split
  · exact h
  rename_i extension hextension
  obtain ⟨hc, hused⟩ := hlive extension hextension
  obtain ⟨t, hexec, ht, _⟩ :=
    countedBut_relink h hc hused (show fat32EndMin % entryModulus ≠ 0 by decide)
  rw [exec_ignore, rollbackDirectoryExtension, exec_bind_ok hexec]
  exact countKept_freeClusterChain _ t ht

theorem counted_extendDirectoryChain {last : ℕ} (h : Counted v info d) (hlast : v.Live last d) :
    (extendDirectoryChain v last).Post d fun r t => Counted v info t ∧
      ∀ slot, r = .ok slot → slot.Live v t := by
  refine (post_allocateCluster_counted h).bind ?_ fun _ _ ht => ⟨ht.1, nofun⟩
  rintro new t ⟨ht, htaken⟩
  obtain ⟨hnew, _, hview⟩ := htaken new rfl
  have hzero : ((zeroCluster v new).onError (freeClusterChain v new)).Post t fun r u =>
      Counted v info u ∧ (r = .ok () → (v.view u.disk).fat = (v.view t.disk).fat) := by
    have hstores : (zeroCluster v new).Post t fun _ u =>
        Counted v info u ∧ (v.view u.disk).fat = (v.view t.disk).fat :=
      ⟨countedBut_of_stores (stores_zeroCluster new) ht,
        fat_eq_of_stores (stores_zeroCluster new) ht.mounted⟩
    exact hstores.onError (fun _ _ hu => ⟨hu.1, fun _ => hu.2⟩)
      fun _ u hu => ⟨countKept_freeClusterChain new u hu.1, nofun⟩
  refine hzero.bind ?_ fun _ _ hu => ⟨hu.1, nofun⟩
  rintro _ u ⟨hu, hfat⟩
  have hused : (v.view u.disk).fat last ≠ 0 := by
    rw [hfat rfl, hview]
    by_cases heq : last = new
    · simp [heq, fat32EndMin]
    · rw [View.setFat_fat_of_ne _ heq]
      exact hlast.2
  have hmod := hu.mounted.mod_ne_zero hnew
  obtain ⟨x, hexec, hx, hview'⟩ := countedBut_relink hu hlast.1 hused hmod
  have hlba := exec_clusterLba hx.mounted new x
  rw [if_pos hnew] at hlba
  refine Post.step (exec_onError_ok hexec) (Post.step hlba (.of_exec rfl ⟨hx, ?_⟩))
  rintro _ ⟨⟩ _ ⟨⟩
  exact ⟨hlast.1, by simpa [hview'] using hmod⟩

/-- A slot that is found in the directory needs no extension. -/
theorem slotStep_finds (short : List UInt8) :
    (slotStep short).Finds v (fun _ => True) fun slot => slot.extension = none := by
  intro deleted lba sector offset _ _
  refine ⟨fun _ _ => trivial, fun slot hslot => ?_⟩
  simp only [slotStep] at hslot
  split_ifs at hslot <;> cases hslot <;> rfl

/-- A reserved slot lies in a cluster, and can be given back. -/
theorem counted_findDirectorySlot (h : Counted v info d) (cluster : ℕ) (short : List UInt8) :
    (findDirectorySlot v cluster short).Post d fun r t => Counted v info t ∧
      ∀ slot, r = .ok slot → v.InCluster slot.lba ∧ slot.Live v t := by
  have hlive : (findDirectorySlot v cluster short).Post d fun r t => Counted v info t ∧
      ∀ slot, r = .ok slot → slot.Live v t := by
    refine post_walkDirectory h.mounted (slotStep_finds short) ?_ (fun _ => ⟨h, nofun⟩) ?_ _ _ _ _
    · rintro slot hnone
      refine ⟨h, ?_⟩
      rintro _ ⟨⟩ extension hextension
      exact absurd (hnone.symm.trans hextension) nofun
    intro deleted last hlast
    cases deleted with
    | none =>
      exact counted_extendDirectoryChain h
        ⟨Volume.linkOf_allocatable hlast, Volume.linkOf_ne_zero hlast⟩
    | some place =>
      refine .of_exec rfl ⟨h, ?_⟩
      rintro _ ⟨⟩
      exact nofun
  refine ⟨hlive.1, fun slot hslot => ⟨?_, hlive.2 slot hslot⟩⟩
  exact (confines_findDirectorySlot h.mounted.cluster_pos cluster short).outcome (Prod.ext hslot rfl)

/-! ## Creating -/

theorem counted_rollbackCreation {first : ℕ} {d₀ : Device} (h : Counted v info d)
    (hlive : slot.Live v d₀) (huntangled : v.Untangled (v.view d₀.disk).fat d)
    (hfirst : 2 ≤ first → (v.view d₀.disk).fat first = 0) :
    Counted v info ((rollbackCreation v first slot).exec d).2 := by
  rw [rollbackCreation, exec_bind_ok (exec_ignore _ d)]
  exact counted_rollbackReservedSlot (countKept_freeClusterChain first d h)
    (hlive.untangled (huntangled.free h.mounted hfirst))

variable {fat : ℕ → ℕ}

theorem counted_onError {p : Fs α} {cleanup : Fs Unit} {Q : α → Prop}
    (hp : p.Post d fun r t => Counted v info t ∧ v.Untangled fat t ∧ ∀ a, r = .ok a → Q a)
    (hcleanup : ∀ t, Counted v info t → v.Untangled fat t →
      Counted v info (cleanup.exec t).2) : (p.onError cleanup).Post d fun r t => Counted v info t ∧
      ∀ a, r = .ok a → v.Untangled fat t ∧ Q a := by
  refine hp.onError ?_ ?_
  · rintro a t ⟨ht, huntangled, hvalue⟩
    exact ⟨ht, fun b hb => ⟨huntangled, hvalue b hb⟩⟩
  · rintro e t ⟨ht, huntangled, _⟩
    exact ⟨hcleanup t ht huntangled, nofun⟩

theorem post_stores {p : Fs α} {Q : α → Prop} (hp : Calls v.Stores p Q)
    (h : Counted v info d) (huntangled : v.Untangled fat d) :
    p.Post d fun r t => Counted v info t ∧ v.Untangled fat t ∧ ∀ a, r = .ok a → Q a :=
  ⟨countedBut_of_stores hp h, huntangled.stores h.mounted hp, fun _ ha =>
    hp.outcome (Prod.ext ha rfl)⟩

theorem countKept_createFileInDirectory (dir : ℕ) (name data : List UInt8) :
    Moves (CountKept v info) (createFileInDirectory v dir name data) := by
  refine (moves_okOr _ _).bind fun short => (moves_rejectIf _ _).bind fun _ => ?_
  intro d hd
  refine (counted_findDirectorySlot hd dir short).bind (Q := fun _ t => Counted v info t) ?_
    fun _ _ ht => ht.1
  rintro slot d₀ ⟨h₀, hslot⟩
  obtain ⟨hplace, hlive⟩ := hslot slot rfl
  have hexisting : (checkExisting v slot.existing).Post d₀ fun _ t => t = d₀ :=
    moves_of_reads (R := Unchanged) (calls_checkExisting _) d₀
  refine hexisting.bind ?_ (by rintro _ _ rfl; exact h₀)
  rintro existing d₀ rfl
  have halloc : (allocateFileChain v
      ((data.length + v.bytesPerCluster - 1) / v.bytesPerCluster)).Post d₀ fun r t =>
        Counted v info t ∧ v.Untangled (v.view d₀.disk).fat t ∧
          ∀ first, r = .ok first → 2 ≤ first → (v.view d₀.disk).fat first = 0 := by
    obtain ⟨hscratch, hgrown⟩ := post_allocateFileChain h₀.mounted
      ((data.length + v.bytesPerCluster - 1) / v.bytesPerCluster)
    refine ⟨counted_allocateChainLoop _ h₀ (absurd rfl), ⟨_, hscratch⟩, fun first hok hlow => ?_⟩
    obtain ⟨clusters, _, hchain⟩ := hgrown first hok
    exact hchain.first_free hlow
  refine (counted_onError halloc fun t ht huntangled =>
    counted_rollbackReservedSlot ht (hlive.untangled huntangled)).bind ?_ fun _ _ ht => ht.1
  rintro first t ⟨ht, hok⟩
  obtain ⟨huntangled, hfirst⟩ := hok first rfl
  have hrollback : ∀ u, Counted v info u → v.Untangled (v.view d₀.disk).fat u →
      Counted v info ((rollbackCreation v first slot).exec u).2 :=
    fun _ hu huntangled => counted_rollbackCreation hu hlive huntangled hfirst
  refine (counted_onError (post_stores (stores_writeFileDataChain first data) ht huntangled)
    hrollback).bind ?_ fun _ _ hu => hu.1
  rintro _ u ⟨hu, hok⟩
  refine (counted_onError (post_stores (stores_modifySector hplace _) hu (hok () rfl).1)
    hrollback).bind ?_ fun _ _ hx => hx.1
  rintro _ x ⟨hx, _⟩
  exact Moves.ite (countKept_freeClusterChain existing) (.pure ()) x hx

theorem countKept_createDirectoryIn (parent : ℕ) (name : List UInt8) :
    Moves (CountKept v info) (createDirectoryIn v parent name) := by
  refine (moves_okOr _ _).bind fun short => ?_
  intro d hd
  have hpos := hd.mounted.cluster_pos
  refine (counted_findDirectorySlot hd parent short).bind (Q := fun _ t => Counted v info t) ?_
    fun _ _ ht => ht.1
  rintro slot d₀ ⟨h₀, hslot⟩
  obtain ⟨hplace, hlive⟩ := hslot slot rfl
  split
  · split
    · exact .of_exec rfl h₀
    · exact .of_exec rfl h₀
  have halloc : (allocateCluster v).Post d₀ fun r t =>
      Counted v info t ∧ v.Untangled (v.view d₀.disk).fat t ∧
        ∀ c, r = .ok c → 2 ≤ c → (v.view d₀.disk).fat c = 0 := by
    obtain ⟨hscratch, hfree⟩ := (Scratch.refl v (v.view d₀.disk)).allocate h₀.mounted fun _ hc => hc
    exact ⟨countKept_allocateCluster d₀ h₀, ⟨_, hscratch⟩, fun c hok _ => (hfree c hok).1⟩
  refine (counted_onError halloc fun t ht huntangled =>
    counted_rollbackReservedSlot ht (hlive.untangled huntangled)).bind ?_ fun _ _ ht => ht.1
  rintro cluster t ⟨ht, hok⟩
  obtain ⟨huntangled, hfirst⟩ := hok cluster rfl
  have hrollback : ∀ u, Counted v info u → v.Untangled (v.view d₀.disk).fat u →
      Counted v info ((rollbackCreation v cluster slot).exec u).2 :=
    fun _ hu huntangled => counted_rollbackCreation hu hlive huntangled hfirst
  refine (counted_onError (post_stores (stores_zeroCluster cluster) ht huntangled)
    hrollback).bind ?_ fun _ _ hu => hu.1
  rintro _ u ⟨hu, hok⟩
  refine (counted_onError (post_stores (calls_clusterLba cluster) hu (hok () rfl).1)
    hrollback).bind ?_ fun _ _ hx => hx.1
  rintro base x ⟨hx, hok⟩
  obtain ⟨huntangled, hc, rfl⟩ := hok base rfl
  refine (counted_onError (post_stores (stores_writeSector (inCluster_lbaOf hpos hc) _) hx
    huntangled) hrollback).bind ?_ fun _ _ hy => hy.1
  rintro _ y ⟨hy, hok⟩
  refine (counted_onError (post_stores (stores_modifySector hplace _) hy (hok () rfl).1)
    hrollback).bind ?_ fun _ _ hz => hz.1
  rintro _ z ⟨hz, _⟩
  exact .of_exec rfl hz

theorem countKept_moveEntry (oldParent newParent : ℕ) {oldSlot : DirectorySlot}
    (hold : v.InCluster oldSlot.lba) (newShort : List UInt8) :
    Moves (CountKept v info) (moveEntry v oldParent newParent oldSlot newShort) := by
  intro d hd
  have hpos := hd.mounted.cluster_pos
  refine (counted_findDirectorySlot hd newParent newShort).bind (Q := fun _ t => Counted v info t)
    ?_ fun _ _ ht => ht.1
  rintro slot d₀ ⟨h₀, hslot⟩
  obtain ⟨hplace, hlive⟩ := hslot slot rfl
  have hback : ∀ t, Counted v info t → v.Untangled (v.view d₀.disk).fat t →
      Counted v info ((rollbackReservedSlot v slot).exec t).2 :=
    fun t ht huntangled => counted_rollbackReservedSlot ht (hlive.untangled huntangled)
  -- a clean-up that writes to clusters before it goes on
  have hafter : ∀ {q : Fs Unit} {rest : Fs Unit}, Calls v.Stores q (fun _ => True) →
      (∀ t, Counted v info t → v.Untangled (v.view d₀.disk).fat t →
        Counted v info (rest.exec t).2) →
      ∀ t, Counted v info t → v.Untangled (v.view d₀.disk).fat t →
        Counted v info ((q.ignore >>= fun _ => rest).exec t).2 := by
    intro q rest hq hrest t ht huntangled
    rw [exec_bind_ok (exec_ignore q t)]
    exact hrest _ (countedBut_of_stores hq ht) (huntangled.stores ht.mounted hq)
  have hunpublish : Issues v.Stores (modifySector slot.lba (·.set slot.offset 0xe5)) :=
    stores_modifySector hplace _
  have hdelete : Issues v.Stores (modifySector oldSlot.lba (·.set oldSlot.offset 0xe5)) :=
    stores_modifySector hold _
  have hexisting : (rejectIf (slot.existing.isSome = true) .alreadyExists : Fs Unit).Post d₀
      fun _ t => t = d₀ := moves_rejectIf (R := Unchanged) _ _ d₀
  refine hexisting.bind ?_ (by rintro _ _ rfl; exact h₀)
  rintro _ d₀ rfl
  refine (counted_onError (post_stores (stores_modifySector hplace _) h₀ (.refl v d₀))
    hback).bind ?_ fun _ _ ht => ht.1
  rintro _ t ⟨ht, hok⟩
  have huntangled := (hok () rfl).1
  by_cases hdir : oldSlot.entry.isDirectory
  · simp only [runIf, if_pos hdir]
    refine (counted_onError (post_stores (stores_updateDotdot hpos _ newParent) ht huntangled)
      (hafter hunpublish hback)).bind ?_ fun _ _ hu => hu.1
    rintro _ u ⟨hu, hok⟩
    have hlast := counted_onError (post_stores hdelete hu (hok () rfl).1)
      (hafter hunpublish (hafter (stores_updateDotdot hpos oldSlot.entry.firstCluster oldParent)
        hback))
    exact hlast.1
  · simp only [runIf, if_neg hdir]
    have hlast := counted_onError (post_stores hdelete ht huntangled) (hafter hunpublish hback)
    exact hlast.1

theorem Mutation.countKept (m : Mutation) : Moves (CountKept v info) (m.run v) :=
  Composes.mutation ⟨composes_moves _, countKept_createDirectoryIn, countKept_createFileInDirectory,
    fun h f _ => countedBut_of_stores (stores_modifySector h f), countKept_freeClusterChain,
    countKept_moveEntry⟩ m

/-! ## Runs -/

theorem exec_of_readOnly {ε : Type} (p : Fallible ε SectorOp SectorOp.Resp α)
    (hro : d.readOnly = true) : (p.exec d).2 = d := by
  refine Program.run_rel (R := fun s t : Device => s.readOnly = true → t = s)
    (fun _ _ => rfl) ?_ ?_ p.run d hro
  · intro s t u hst htu hs
    obtain rfl := hst hs
    exact htu hs
  intro op s hs
  cases op with
  | sectorCount => rfl
  | read lba => rfl
  | write lba sector =>
    change (s.write lba sector).2 = s
    rw [Device.write, if_pos hs]

/-- The free count of the FSInfo sector is exact after every sequence of mutations, failed
ones included, when it was exact before. -/
theorem freeCount_exact (hmount : d.Mounts v) (hfault : d.fault = none)
    (hinfo : v.fsInfoSector = some info) (hvalid : fsInfoSignaturesValid (d.disk info))
    (hcount : (d.disk info).readU32 488 = (v.freeClusters (v.view d.disk).fat).card)
    (ms : List Mutation) : fsInfoSignaturesValid (((mutate v ms).exec d).2.disk info) ∧
      (((mutate v ms).exec d).2.disk info).readU32 488 =
        (v.freeClusters (v.view ((mutate v ms).exec d).2.disk).fat).card := by
  cases hro : d.readOnly with
  | true =>
    rw [exec_of_readOnly _ hro]
    exact ⟨hvalid, hcount⟩
  | false =>
    have hd : Counted v info d := ⟨hmount.mounted, hinfo, hfault, hro, _, ⟨hvalid, hcount⟩, rfl⟩
    have hmoves : Moves (CountKept v info) (mutate v ms) := by
      unfold mutate
      induction ms with
      | nil => exact .pure ()
      | cons m ms ih =>
        rw [forM_cons]
        exact m.countKept.ignore.bind fun _ => ih
    obtain ⟨n, hn, hcard⟩ := (hmoves d hd).exact
    exact ⟨hn.valid, hn.count.trans hcard.symm⟩

/-! The sample volume with an FSInfo sector; only the root directory is in use. -/

def infoVolume : Volume :=
  { sampleVolume with
    totalSectors := 66551, firstFatSector := 2, firstDataSector := 1026, fsInfoSector := some 1 }

def infoDevice : Device where
  sectors := 66551
  disk lba :=
    if lba = 0 then
      ((sampleBoot.writeU16 14 2).writeU32 32 66551).writeU16 48 1
    else if lba = 1 then
      ((((zero.writeU32 0 0x41615252).writeU32 484 0x61417272).writeU32 488
        65524).writeU32 492 3).writeU32 508 0xaa550000
    else if lba = 2 ∨ lba = 514 then zero.writeU32 8 fat32EndMin
    else zero
  readOnly := false
  fault := none

theorem mounts_infoDevice : infoDevice.Mounts infoVolume :=
  ⟨⟨infoDevice, rfl, by decide +kernel⟩, show 66551 ≤ 2 ^ 28 by decide, by decide⟩

/-- Every cluster but the one of the root directory is free. -/
theorem fat_infoDevice (hc : infoVolume.isAllocatable c) (hroot : c ≠ 2) :
    (infoVolume.view infoDevice.disk).fat c = 0 := by
  have hzero : ∀ off, (zero : Sector).readU32 off = 0 := fun off => by
    simp [readU32]
  have hhigh : c < 65527 := hc.2
  have hlow : 2 ≤ c := hc.1
  have hsector : infoVolume.fatSector c = 2 + c * 4 / 512 := rfl
  have hread : (infoDevice.disk (infoVolume.fatSector c)).readU32 (fatOffset c) = 0 := by
    rw [hsector]
    simp only [infoDevice]
    rw [if_neg (by omega), if_neg (by omega)]
    split
    · have hoff : fatOffset c = c * 4 % 512 := rfl
      rw [readU32_writeU32_of_disjoint _ _ _ _ (by omega), hzero]
    · exact hzero _
  simp only [Volume.view, if_pos hc, hread, Nat.zero_mod]

theorem card_infoDevice :
    (infoVolume.freeClusters (infoVolume.view infoDevice.disk).fat).card = 65524 := by
  have hm := mounts_infoDevice.mounted
  have hroot : (infoVolume.view infoDevice.disk).fat 2 = fat32EndMin := by decide +kernel
  have hall : infoVolume.freeClusters (infoVolume.view infoDevice.disk).fat =
      (Finset.Ico 2 65527).erase 2 := by
    ext c
    rw [hm.mem_freeClusters, hm.allocatable_iff, Finset.mem_erase, Finset.mem_Ico]
    constructor
    · rintro ⟨hrange, hfree⟩
      refine ⟨?_, hrange⟩
      rintro rfl
      exact nomatch hfree.symm.trans hroot
    · rintro ⟨hne, hrange⟩
      exact ⟨hrange, fat_infoDevice (hm.allocatable_iff.mpr hrange) hne⟩
  rw [hall, Finset.card_erase_of_mem (by simp), Nat.card_Ico]

/-- Creating a file of one cluster leaves 65523 free clusters. -/
theorem freeCount_exact_sample : (infoVolume.freeClusters (infoVolume.view ((mutate infoVolume
      [.createPathFile [0x41] [1]]).exec infoDevice).2.disk).fat).card = 65523 := by
  have hinfo : infoVolume.fsInfoSector = some 1 := rfl
  have hexact := freeCount_exact mounts_infoDevice rfl hinfo (by decide +kernel)
    (by rw [card_infoDevice]; decide +kernel) [.createPathFile [0x41] [1]]
  have hstored : (((mutate infoVolume [.createPathFile [0x41] [1]]).exec infoDevice).2.disk
      1).readU32 488 = 65523 := by
    decide +kernel
  exact hexact.2.symm.trans hstored

end WovenHat.Fat32
