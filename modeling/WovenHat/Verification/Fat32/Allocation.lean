import WovenHat.Verification.Fat32.Chains

/-! # Allocating clusters -/

namespace WovenHat.Fat32

open Library Block Fallible List View Volume Volume.Chain

variable {v : Volume} {d d' : Device} {w w' : View} {U : Set ℕ}

/-! ## Scratch clusters -/

/-- Only scratch clusters have changed, and they are not linked to other ones. -/
structure Scratch (v : Volume) (U : Set ℕ) (w w' : View) : Prop where
  fat_eq : ∀ c ∉ U, w'.fat c = w.fat c
  data_eq : ∀ c ∉ U, w'.data c = w.data c
  closed : ∀ c ∈ U, ∀ next, v.linkOf w'.fat c = some (some next) → next ∈ U

namespace Scratch

theorem refl (v : Volume) (w : View) : Scratch v {c | w.fat c = 0} w w where
  fat_eq _ _ := rfl
  data_eq _ _ := rfl
  closed _ hc _ hlink := absurd hc (linkOf_ne_zero hlink)

section Scratch

variable (h : Scratch v U w w')

include h

theorem setFat {c x : ℕ} (hc : c ∈ U)
    (hx : ∀ next, v.linkOf (w'.setFat c x).fat c = some (some next) → next ∈ U) :
    Scratch v U w (w'.setFat c x) where
  fat_eq c' hc' := by
    rw [setFat_fat_of_ne _ (by rintro rfl; exact hc' hc), h.fat_eq c' hc']
  data_eq c' hc' := by rw [setFat_data, h.data_eq c' hc']
  closed c' hc' next hlink := by
    by_cases heq : c' = c
    · subst heq
      exact hx next hlink
    · rw [linkOf_congr (setFat_fat_of_ne _ heq x)] at hlink
      exact h.closed c' hc' next hlink

theorem setFat_last {c : ℕ} (hc : c ∈ U) : Scratch v U w (w'.setFat c fat32EndMin) := by
  refine h.setFat hc fun next hlink => ?_
  simp [Volume.linkOf, View.setFat] at hlink

theorem setFat_next {c n : ℕ} (hc : c ∈ U) (hn : n ∈ U) : Scratch v U w (w'.setFat c n) := by
  refine h.setFat hc fun next hlink => ?_
  simp only [linkOf, setFat_fat_self] at hlink
  split at hlink
  · cases hlink
  split at hlink
  · cases hlink
  split at hlink
  · cases hlink
    exact hn
  · cases hlink

theorem clear {cs : List ℕ} (hcs : ∀ c ∈ cs, c ∈ U) : Scratch v U w (w'.clear cs) where
  fat_eq c' hc' := by
    rw [clear_fat_of_not_mem _ (fun hmem => hc' (hcs c' hmem)), h.fat_eq c' hc']
  data_eq := h.data_eq
  closed c' hc' next hlink := by
    by_cases hmem : c' ∈ cs
    · exact absurd (clear_fat_of_mem w' hmem) (linkOf_ne_zero hlink)
    · rw [linkOf_congr (clear_fat_of_not_mem _ hmem)] at hlink
      exact h.closed c' hc' next hlink

theorem chain_subset {start : ℕ} {clusters : List ℕ}
    (hchain : v.Chain w' start clusters) (hstart : start ∈ U) : ∀ c ∈ clusters, c ∈ U := by
  induction hchain with
  | last _ => simpa using hstart
  | @cons a b l hnext _ ih =>
    intro c hmem
    rcases mem_cons.mp hmem with rfl | hmem
    · exact hstart
    · exact ih (h.closed a hstart b hnext) c hmem

end Scratch

theorem free (h : Scratch v U w (v.view d.disk)) (hm : v.Mounted d.sectors) {start : ℕ}
    (hstart : start ∈ U) :
    (freeClusterChain v start).Post d fun _ d' => Scratch v U w (v.view d'.disk) := by
  refine (post_freeClusterChain hm start).mono fun r t ht => ?_
  rcases ht with hview | ⟨clusters, cleared, hchain, hsub, hview⟩
  · rwa [hview]
  · rw [hview]
    exact h.clear fun c hc => h.chain_subset hchain hstart c (hsub hc)

end Scratch

/-! ## One cluster -/

inductive Allocation (v : Volume) (d : Device) : Except Error ℕ → Device → Prop where
  | done {c : ℕ} {d' : Device} (range : v.isAllocatable c) (free : (v.view d.disk).fat c = 0)
      (view : v.view d'.disk = (v.view d.disk).setFat c fat32EndMin) : Allocation v d (.ok c) d'
  | full : Allocation v d (.error .noSpace) d
  | missed {b : Block.Error} {d' : Device} (view : v.view d'.disk = v.view d.disk) :
      Allocation v d (.error (.block b)) d'
  | torn {b : Block.Error} {c : ℕ} {d' : Device} (range : v.isAllocatable c)
      (free : (v.view d.disk).fat c = 0)
      (view : v.view d'.disk = (v.view d.disk).setFat c fat32EndMin) :
      Allocation v d (.error (.block b)) d'

variable {first : ℕ}

theorem post_allocateInRange (hm : v.Mounted d.sectors) {count : ℕ} (hlow : 2 ≤ first)
    (hhigh : first + count ≤ v.clusterCount + 2) :
    (allocateInRange v first count).Post d (Allocation v d) := by
  induction count generalizing first with
  | zero => exact .of_exec rfl .full
  | succ count ih =>
    have hc : v.isAllocatable first := hm.allocatable_iff.mpr ⟨hlow, by omega⟩
    have hread := exec_readFatEntry hm first
    rw [if_pos hc] at hread
    refine Post.step hread ?_
    split
    · rename_i hfree
      have hend : fat32EndMin % entryModulus = fat32EndMin := rfl
      refine post_bind (post_writeFatEntry hm hc fat32EndMin) ?_ ?_
      · intro _ t _ ht
        cases ht with
        | done _ _ _ hview =>
          refine Post.step (exec_ignore _ t) (.of_exec rfl (.done hc hfree ?_))
          rw [moves_updateFsInfoAfterAlloc hm first t, hview, hend]
      · intro e t _ ht
        cases ht with
        | missed hview _ => exact .missed hview
        | torn _ _ _ _ hview => exact .torn hc hfree (by rw [hview, hend])
    · exact ih (by omega) (by omega)

theorem exec_fsInfoNextFreeHint (v : Volume) (d : Device) :
    ∃ hint, (fsInfoNextFreeHint v).exec d = (.ok hint, d) := by
  have hsame : ((readFsInfo v).exec d).2 = d := moves_readFsInfo (R := Unchanged) d
  unfold fsInfoNextFreeHint
  rw [exec_bind_ok (exec_attempt _ d), hsame]
  split
  · exact ⟨_, rfl⟩
  · exact ⟨_, rfl⟩

theorem post_allocateCluster (hm : v.Mounted d.sectors) :
    (allocateCluster v).Post d (Allocation v d) := by
  have hsmall : ¬2 ^ 32 ≤ v.clusterCount + 2 := by
    have := hm.clusters_lt
    simp only [fat32BadCluster] at this
    omega
  obtain ⟨hint, hhint⟩ := exec_fsInfoNextFreeHint v d
  refine Post.step (exec_rejectIf_of_not hsmall d) (Post.step hhint ?_)
  generalize hstart : (if v.isAllocatable hint then hint else 2) = first
  have hrange : 2 ≤ first ∧ first ≤ v.clusterCount + 2 := by
    rw [← hstart]
    split
    · rename_i h
      have := hm.allocatable_iff.mp h
      omega
    · omega
  have hfirst := post_allocateInRange hm hrange.1
    (show first + (v.clusterCount + 2 - first) ≤ v.clusterCount + 2 by omega)
  refine Post.step (exec_attempt _ d) ?_
  rw [Post] at hfirst
  generalize (allocateInRange v first (v.clusterCount + 2 - first)).exec d = outcome at hfirst ⊢
  obtain ⟨r, t⟩ := outcome
  cases hfirst with
  | done range free view => exact .of_exec rfl (.done range free view)
  | full =>
    by_cases hwrap : 2 < first
    · simp only [hwrap, and_self, ↓reduceIte]
      exact post_allocateInRange hm (le_refl 2) (by omega)
    · simp only [hwrap, and_false, ↓reduceIte]
      exact .of_exec rfl .full
  | missed view => exact .of_exec rfl (.missed view)
  | torn range free view => exact .of_exec rfl (.torn range free view)

/-- Allocating takes a cluster that is not in use, so the result is a scratch cluster. -/
theorem Scratch.allocate (h : Scratch v U w (v.view d.disk)) (hm : v.Mounted d.sectors)
    (hU : ∀ c, w.fat c = 0 → c ∈ U) : (allocateCluster v).Post d fun r d' =>
      Scratch v U w (v.view d'.disk) ∧ ∀ c, r = .ok c → c ∈ U ∧ v.isAllocatable c := by
  have hmem : ∀ c, (v.view d.disk).fat c = 0 → c ∈ U := by
    intro c hfree
    by_contra hc
    exact hc (hU c (by rw [← h.fat_eq c hc, hfree]))
  refine (post_allocateCluster hm).mono fun r t ht => ?_
  cases ht with
  | done range free view =>
    refine ⟨?_, ?_⟩
    · rw [view]
      exact h.setFat_last (hmem _ free)
    · rintro c ⟨⟩
      exact ⟨hmem _ free, range⟩
  | full => exact ⟨h, nofun⟩
  | missed view => exact ⟨by rwa [view], nofun⟩
  | torn range free view =>
    refine ⟨?_, nofun⟩
    rw [view]
    exact h.setFat_last (hmem _ free)

/-! ## Chains -/

/-- A chain of clusters that were free, and nothing else, has been added to a volume. The
empty chain has the number zero. -/
structure Grown (v : Volume) (w w' : View) (first : ℕ) (clusters : List ℕ) : Prop where
  free : ∀ c ∈ clusters, w.fat c = 0
  chain : clusters = [] ∧ first = 0 ∨ v.Chain w' first clusters
  fat_eq : ∀ c ∉ clusters, w'.fat c = w.fat c
  data_eq : w'.data = w.data

namespace Grown

variable {first previous : ℕ} {clusters : List ℕ}

theorem refl (v : Volume) (w : View) : Grown v w w 0 [] :=
  ⟨by simp, .inl ⟨rfl, rfl⟩, fun _ _ => rfl, rfl⟩

theorem scratch (h : Grown v w w' first clusters) : Scratch v {c | w.fat c = 0} w w' where
  fat_eq c hc := h.fat_eq c fun hmem => hc (h.free c hmem)
  data_eq c _ := by rw [h.data_eq]
  closed c hc next hlink := by
    by_cases hmem : c ∈ clusters
    · rcases h.chain with ⟨rfl, _⟩ | hchain
      · cases hmem
      rcases hchain.link_mem hmem with hlast | ⟨_, hn, hnext⟩
      · rw [hlast] at hlink
        cases hlink
      rw [hnext] at hlink
      cases hlink
      exact h.free next hn
    · -- a free cluster that was not taken has no link
      exact absurd ((h.fat_eq c hmem).trans hc) (linkOf_ne_zero hlink)

theorem first_free (h : Grown v w w' first clusters) (hlow : 2 ≤ first) : w.fat first = 0 := by
  rcases h.chain with ⟨_, hzero⟩ | hchain
  · omega
  · exact h.free first hchain.head_mem

variable {c : ℕ}

theorem not_mem (h : Grown v w w' first clusters) (hc : w'.fat c = 0) : c ∉ clusters := by
  intro hmem
  rcases h.chain with ⟨rfl, _⟩ | hchain
  · cases hmem
  · exact (mem hchain hmem).2 hc

theorem start (h : Grown v w w' 0 []) (hc : v.isAllocatable c) (hfree : w'.fat c = 0) :
    Grown v w (w'.setFat c fat32EndMin) c [c] where
  free x hx := by
    rw [mem_singleton.mp hx, ← h.fat_eq c not_mem_nil, hfree]
  chain := .inr (.last (linkOf_eq_last hc (setFat_fat_self ..)))
  fat_eq x hx := by
    rw [setFat_fat_of_ne _ (by simpa using hx), h.fat_eq x not_mem_nil]
  data_eq := h.data_eq

theorem append {sectors : ℕ} (hm : v.Mounted sectors) (h : Grown v w w' first clusters)
    (hlast : clusters.getLast? = some previous) (hc : v.isAllocatable c) (hfree : w'.fat c = 0) :
    Grown v w ((w'.setFat c fat32EndMin).setFat previous c) first (clusters ++ [c]) := by
  have hprev := mem_of_getLast? hlast
  have hnotin := h.not_mem hfree
  have hchain : v.Chain w' first clusters := by
    refine h.chain.resolve_left ?_
    rintro ⟨rfl, _⟩
    cases hlast
  refine ⟨?_, .inr (extend hm hchain hlast hc hfree), ?_, h.data_eq⟩
  · intro x hx
    rcases mem_append.mp hx with hx | hx
    · exact h.free x hx
    · rw [mem_singleton.mp hx, ← h.fat_eq c hnotin, hfree]
  · intro x hx
    simp only [mem_append, mem_singleton, not_or] at hx
    rw [setFat_fat_of_ne _ (by rintro rfl; exact hx.1 hprev),
      setFat_fat_of_ne _ hx.2, h.fat_eq x hx.1]

end Grown

/-- The clean-up of `allocate_file_chain` touches scratch clusters only. -/
theorem Scratch.freeFirst (h : Scratch v U w (v.view d.disk)) (hm : v.Mounted d.sectors)
    (hfirst : 2 ≤ first → first ∈ U) :
    (runIf (2 ≤ first) (freeClusterChain v first)).Post d fun _ d' =>
      Scratch v U w (v.view d'.disk) := by
  unfold runIf
  split
  · rename_i hlow
    exact h.free hm (hfirst hlow)
  · exact .of_exec rfl h

theorem Scratch.allocateOrFree (h : Scratch v {c | w.fat c = 0} w (v.view d.disk))
    (hm : v.Mounted d.sectors) (hfirst : 2 ≤ first → w.fat first = 0) :
    ((allocateCluster v).onError (runIf (2 ≤ first) (freeClusterChain v first))).Post d
      fun r d' => Scratch v {c | w.fat c = 0} w (v.view d'.disk) ∧
        ∀ c, r = .ok c → Allocation v d r d' := by
  have halloc : (allocateCluster v).Post d fun r t =>
      Allocation v d r t ∧ Scratch v {c | w.fat c = 0} w (v.view t.disk) :=
    ⟨post_allocateCluster hm, (h.allocate hm fun _ hc => hc).1⟩
  refine post_onError halloc ?_ ?_
  · intro c t _ ht
    exact ⟨ht.2, fun _ _ => ht.1⟩
  intro e t hevolves ht
  refine (ht.2.freeFirst (hevolves.sectors ▸ hm) hfirst).mono fun _ u hu _ => ?_
  exact ⟨hu, nofun⟩

theorem Scratch.linkOrFree (h : Scratch v {c | w.fat c = 0} w (v.view d.disk))
    (hm : v.Mounted d.sectors) {previous c : ℕ} (hfirst : 2 ≤ first → w.fat first = 0)
    (hprev : v.isAllocatable previous) (hprev' : w.fat previous = 0) (hc : v.isAllocatable c)
    (hc' : w.fat c = 0) : ((writeFatEntry v previous c).onError do
        (freeClusterChain v c).ignore
        runIf (2 ≤ first) (freeClusterChain v first)).Post d
      fun r d' => Scratch v {c | w.fat c = 0} w (v.view d'.disk) ∧
        (r = .ok () → v.view d'.disk = (v.view d.disk).setFat previous c) := by
  have hmod : c % entryModulus = c := hm.mod_eq hc
  have hnext := h.setFat_next hprev' hc'
  refine post_onError (post_writeFatEntry hm hprev c) ?_ ?_
  · intro _ t _ ht
    cases ht with
    | done _ _ _ hview =>
      rw [hmod] at hview
      exact ⟨by rwa [hview], fun _ => hview⟩
  intro e t hevolves ht
  have hmt : v.Mounted t.sectors := hevolves.sectors ▸ hm
  have hscratch : Scratch v {c | w.fat c = 0} w (v.view t.disk) := by
    cases ht with
    | missed hview _ => rwa [hview]
    | torn _ _ _ _ hview => rwa [hview, hmod]
  have hfree : (freeClusterChain v c).ignore.Post t fun _ u =>
      Scratch v {c | w.fat c = 0} w (v.view u.disk) :=
    (hscratch.free hmt hc').ignore fun _ _ hu => hu
  refine post_bind hfree ?_ ?_
  · intro _ u hevolves' hu
    refine (hu.freeFirst (hevolves'.sectors ▸ hmt) hfirst).mono fun _ x hx _ => ?_
    exact ⟨hx, nofun⟩
  · intro _ u _ hu _
    exact ⟨hu, nofun⟩

/-- Each round of `allocate_file_chain` puts one more cluster at the end; a failed round
leaves scratch clusters behind at most. -/
theorem post_allocateChainLoop (hm : v.Mounted d.sectors) (count : ℕ) {previous : ℕ}
    {clusters : List ℕ} (h : Grown v w (v.view d.disk) first clusters)
    (hlast : ∀ z, clusters.getLast? = some z → z = previous) :
    (allocateChainLoop v count first previous).Post d fun r d' =>
      Scratch v {c | w.fat c = 0} w (v.view d'.disk) ∧
        ∀ result, r = .ok result → ∃ l, l.length = clusters.length + count ∧
          Grown v w (v.view d'.disk) result l := by
  induction count generalizing d first previous clusters with
  | zero =>
    refine .of_exec rfl ⟨h.scratch, ?_⟩
    rintro _ ⟨⟩
    exact ⟨clusters, rfl, h⟩
  | succ count ih =>
    have hfirst : 2 ≤ first → w.fat first = 0 := by
      intro hlow
      rcases h.chain with ⟨_, rfl⟩ | hchain
      · omega
      · exact h.free first hchain.head_mem
    refine post_bind (h.scratch.allocateOrFree hm hfirst) ?_ ?_
    · rintro c t hevolves ⟨hscratch, hallocation⟩
      have hmt : v.Mounted t.sectors := hevolves.sectors ▸ hm
      cases hallocation c rfl with
      | done range free view =>
        split
        · rename_i hzero
          subst hzero
          have hnil : clusters = [] := by
            rcases h.chain with ⟨hnil, _⟩ | hchain
            · exact hnil
            · exact absurd (mem hchain hchain.head_mem).1.1 (by omega)
          subst hnil
          have hgrown := h.start range free
          rw [← view] at hgrown
          refine (ih hmt hgrown (by simp)).mono fun r u hu => ⟨hu.1, fun result hr => ?_⟩
          obtain ⟨l, hlen, hl⟩ := hu.2 result hr
          exact ⟨l, by simp only [length_cons, length_nil] at *; omega, hl⟩
        · rename_i hne
          have hchain := h.chain.resolve_left fun hnil => hne hnil.2
          have hprev : clusters.getLast? = some previous := by
            have hsome := getLast?_eq_some_getLast hchain.ne_nil
            rw [hsome, hlast _ hsome]
          have hmem := mem_of_getLast? hprev
          have hcfree : w.fat c = 0 := by
            rw [← h.fat_eq c (h.not_mem free), free]
          refine post_bind (hscratch.linkOrFree hmt hfirst (mem hchain hmem).1
            (h.free _ hmem) range hcfree) ?_ ?_
          · rintro _ u hevolves' ⟨_, hview⟩
            have hgrown := h.append hm hprev range free
            rw [← view, ← hview rfl] at hgrown
            refine (ih (hevolves'.sectors ▸ hmt) hgrown (by simp)).mono
              fun r x hx => ⟨hx.1, fun result hr => ?_⟩
            obtain ⟨l, hlen, hl⟩ := hx.2 result hr
            exact ⟨l, by simp only [length_append, length_singleton] at *; omega, hl⟩
          · intro e u _ hu
            exact ⟨hu.1, nofun⟩
    · intro e t _ ht
      exact ⟨ht.1, nofun⟩

/-- A successful `allocate_file_chain` adds a chain of the needed length; a failed one
leaves scratch clusters behind at most. -/
theorem post_allocateFileChain (hm : v.Mounted d.sectors) (needed : ℕ) :
    (allocateFileChain v needed).Post d fun r d' =>
      Scratch v {c | (v.view d.disk).fat c = 0} (v.view d.disk) (v.view d'.disk) ∧
        ∀ first, r = .ok first → ∃ clusters, clusters.length = needed ∧
          Grown v (v.view d.disk) (v.view d'.disk) first clusters := by
  have hlast : ∀ z, ([] : List ℕ).getLast? = some z → z = 0 := by simp
  refine (post_allocateChainLoop hm needed (.refl v (v.view d.disk)) hlast).mono
    fun r t ht => ⟨ht.1, fun first hr => ?_⟩
  obtain ⟨l, hlen, hl⟩ := ht.2 first hr
  exact ⟨l, by simpa using hlen, hl⟩

end WovenHat.Fat32
