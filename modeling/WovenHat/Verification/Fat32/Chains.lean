import WovenHat.Verification.Fat32.Table

/-! # Validating and freeing chains -/

namespace WovenHat.Fat32

open Library Block Fallible Finset Volume.Chain Option ChainCycleGuard View

variable {v : Volume} {d d' : Device} {cluster start : ℕ} {clusters : List ℕ}

/-! ## Validation -/

/-- The cycle guard on a sound chain: the hare is further along than the tortoise by at
least the number of steps, so the two do not meet. -/
def ChainCycleGuard.Ahead (v : Volume) (w : View) (g : ChainCycleGuard) : Prop :=
  g.active = false ∨ ∃ behind ahead, v.Chain w g.tortoise behind ∧ v.Chain w g.hare ahead ∧
    ahead.length + g.steps ≤ behind.length ∧ g.steps + behind.length ≤ v.clusterCount

theorem ChainCycleGuard.ahead_new (hm : v.Mounted d.sectors)
    (h : v.Chain (v.view d.disk) start clusters) : (new start).Ahead v (v.view d.disk) :=
  .inr ⟨clusters, clusters, h, h, le_refl _, by simpa [new] using length_le hm h⟩

theorem exec_nextCluster_of_chain (hm : v.Mounted d.sectors)
    (h : v.Chain (v.view d.disk) start clusters) :
    (nextCluster v start).exec d = (.ok .last, d) ∧ clusters = [start] ∨
      ∃ next rest, (nextCluster v start).exec d = (.ok (.next next), d) ∧
        clusters = start :: rest ∧ v.Chain (v.view d.disk) next rest := by
  rw [exec_nextCluster hm]
  cases h with
  | last hlast => exact .inl ⟨by rw [hlast]; rfl, rfl⟩
  | cons hnext tail => exact .inr ⟨_, _, by rw [hnext]; rfl, rfl, tail⟩

variable {g : ChainCycleGuard} {fuel : ℕ}

/-- On a sound chain the guard never reports a loop. -/
theorem ChainCycleGuard.exec_advance (hm : v.Mounted d.sectors) (h : g.Ahead v (v.view d.disk)) :
    ∃ g', (g.advance v).exec d = (.ok g', d) ∧ g'.Ahead v (v.view d.disk) := by
  unfold advance
  by_cases hactive : g.active = false
  · exact ⟨g, by simp [hactive], .inl hactive⟩
  obtain ⟨behind, ahead, hbehind, hahead, hle, hbound⟩ := h.resolve_left hactive
  have hpos := List.length_pos_of_ne_nil hbehind.ne_nil
  rw [if_neg hactive, if_neg (by omega)]
  rcases exec_nextCluster_of_chain hm hbehind with ⟨hexec, _⟩ | ⟨t, behind', hexec, rfl, ht⟩
  · exact ⟨_, exec_bind_ok hexec, .inl rfl⟩
  rcases exec_nextCluster_of_chain hm hahead with ⟨hexec', _⟩ | ⟨f, middle, hexec', rfl, hf⟩
  · exact ⟨_, (exec_bind_ok hexec).trans (exec_bind_ok hexec'), .inl rfl⟩
  rcases exec_nextCluster_of_chain hm hf with ⟨hexec'', _⟩ | ⟨s, ahead', hexec'', rfl, hs⟩
  · exact ⟨_, (exec_bind_ok hexec).trans ((exec_bind_ok hexec').trans (exec_bind_ok hexec'')),
      .inl rfl⟩
  simp only [List.length_cons] at hle hbound
  have hne : t ≠ s := by
    rintro rfl
    rw [ht.unique hs] at hle
    omega
  refine ⟨⟨t, s, g.active, g.steps + 1⟩, ?_, .inr ⟨behind', ahead', ht, hs, ?_⟩⟩
  · refine (exec_bind_ok hexec).trans ((exec_bind_ok hexec').trans
      ((exec_bind_ok hexec'').trans ?_))
    simp [hne]
  · dsimp only
    omega

theorem exec_validateLoop (hm : v.Mounted d.sectors)
    (h : v.Chain (v.view d.disk) start clusters) (hfuel : clusters.length ≤ fuel)
    (hg : g.Ahead v (v.view d.disk)) : (validateLoop v fuel start g).exec d = (.ok (), d) := by
  induction fuel generalizing start clusters g with
  | zero => exact absurd (List.length_pos_of_ne_nil h.ne_nil) (by omega)
  | succ fuel ih =>
    rcases exec_nextCluster_of_chain hm h with ⟨hexec, _⟩ | ⟨next, rest, hexec, rfl, hrest⟩
    · exact exec_bind_ok hexec
    obtain ⟨g', hadvance, hg'⟩ := exec_advance hm hg
    rw [List.length_cons] at hfuel
    refine (exec_bind_ok hexec).trans ((exec_bind_ok hadvance).trans ?_)
    exact ih hrest (by omega) hg'

theorem exec_validateClusterChain (hm : v.Mounted d.sectors)
    (h : v.Chain (v.view d.disk) start clusters) :
    (validateClusterChain v start).exec d = (.ok (), d) :=
  exec_validateLoop hm h (length_le hm h) (ahead_new hm h)

def Unchanged (d d' : Device) : Prop :=
  d' = d

instance : IsPreorder Device Unchanged where
  refl _ := rfl
  trans _ _ _ h h' := h'.trans h

theorem moves_rejectIf {R : Device → Device → Prop} [IsPreorder Device R] (c : Prop) [Decidable c]
    (e : Error) : Moves R (rejectIf c e : Fs Unit) :=
  .ite (.throw e) (.pure ())

theorem chain_of_validateLoop (hm : v.Mounted d.sectors)
    (h : (validateLoop v fuel start g).exec d = (.ok (), d')) :
    ∃ clusters, v.Chain (v.view d.disk) start clusters := by
  induction fuel generalizing start g with
  | zero => cases h
  | succ fuel ih =>
    obtain ⟨link, t, hnext, hrest⟩ := exec_bind_eq_ok.mp h
    rw [exec_nextCluster hm] at hnext
    rcases hlink : v.linkOf (v.view d.disk).fat start with _ | _ | next <;>
      rw [hlink] at hnext <;> cases hnext
    · exact ⟨_, .last hlink⟩
    obtain ⟨g', u, hadvance, hloop⟩ := exec_bind_eq_ok.mp hrest
    have hu : u = d := by
      have := moves_of_reads (R := Unchanged) (calls_advance (v := v) g) d
      rwa [hadvance] at this
    subst hu
    obtain ⟨clusters, hchain⟩ := ih hloop
    exact ⟨_, .cons hlink hchain⟩

/-- Validation succeeds exactly on sound chains, and changes nothing. -/
theorem post_validateClusterChain (hm : v.Mounted d.sectors) (start : ℕ) :
    (validateClusterChain v start).Post d fun r d' =>
      d' = d ∧ (r = .ok () ↔ ∃ clusters, v.Chain (v.view d.disk) start clusters) := by
  have hsame : ((validateClusterChain v start).exec d).2 = d :=
    moves_of_reads (R := Unchanged) (calls_validateLoop _ _ _) d
  refine ⟨hsame, ?_, ?_⟩
  · intro hok
    have hexec : (validateClusterChain v start).exec d = (.ok (), d) := Prod.ext hok hsame
    exact chain_of_validateLoop hm hexec
  · rintro ⟨clusters, h⟩
    rw [exec_validateClusterChain hm h]

variable {fat : ℕ → ℕ} {n : ℕ}

theorem follow_allocatable (hstart : v.isAllocatable start)
    (h : follow (v.linkOf fat) start n = some cluster) : v.isAllocatable cluster := by
  cases n with
  | zero => exact some.inj h ▸ hstart
  | succ n =>
    obtain ⟨b, -, hb⟩ := bind_eq_some_iff.mp h
    rw [join_eq_some_iff] at hb
    unfold Volume.linkOf at hb
    split_ifs at hb with hc hend hnext
    · cases hb
    · cases hb
      exact hnext.1

theorem follow_lt (hm : v.Mounted d.sectors) (hstart : v.isAllocatable start)
    (hacyclic : Acyclic (v.linkOf fat) start) (h : follow (v.linkOf fat) start n = some cluster) :
    n < v.clusterCount := by
  have hsome : ∀ m < n + 1, ∃ c, follow (v.linkOf fat) start m = some c := fun m hmn =>
    isSome_iff_exists.mp (follow_isSome (by rw [h]; rfl) (Nat.lt_succ_iff.mp hmn))
  have hcard : (range (n + 1)).card ≤ (Finset.Ico 2 (v.clusterCount + 2)).card := by
    refine card_le_card_of_injOn
      (fun m => (follow (v.linkOf fat) start m).getD 0) (fun m hmem => ?_) ?_
    · obtain ⟨c, hc⟩ := hsome m (mem_range.mp hmem)
      simp only [hc, getD_some, coe_Ico, Set.mem_Ico]
      exact hm.allocatable_iff.mp (follow_allocatable hstart hc)
    · intro m hm₁ k hk heq
      obtain ⟨c, hc⟩ := hsome m (mem_range.mp hm₁)
      obtain ⟨c', hc'⟩ := hsome k (mem_range.mp hk)
      simp only [hc, hc', getD_some] at heq
      exact hacyclic m k c hc (heq ▸ hc')
  rw [card_range, Nat.card_Ico] at hcard
  omega

/-- The cycle guard after `g.steps` rounds, of which the tortoise has made one step each and
the hare two. -/
def ChainCycleGuard.Trails (v : Volume) (fat : ℕ → ℕ) (start : ℕ) (g : ChainCycleGuard) : Prop :=
  g.active = false ∨ follow (v.linkOf fat) start g.steps = some g.tortoise ∧
    follow (v.linkOf fat) start (2 * g.steps) = some g.hare

theorem post_nextCluster {β : Type} {f : ClusterLink → Fs β} {Q : Except Error β → Device → Prop}
    (hm : v.Mounted d.sectors)
    (herror : v.linkOf (v.view d.disk).fat cluster = none → Q (.error .corruptChain) d)
    (hlast : v.linkOf (v.view d.disk).fat cluster = some none → (f .last).Post d Q)
    (hnext : ∀ next, v.linkOf (v.view d.disk).fat cluster = some (some next) →
      (f (.next next)).Post d Q) : (nextCluster v cluster >>= f).Post d Q := by
  have hexec := exec_nextCluster hm cluster
  rcases hlink : v.linkOf (v.view d.disk).fat cluster with _ | _ | next <;> rw [hlink] at hexec
  · exact .of_exec (exec_bind_error hexec) (herror hlink)
  · exact Post.step hexec (hlast hlink)
  · exact Post.step hexec (hnext next hlink)

theorem ChainCycleGuard.post_advance (hm : v.Mounted d.sectors) (hstart : v.isAllocatable start)
    (hacyclic : Acyclic (v.linkOf (v.view d.disk).fat) start)
    (hg : g.Trails v (v.view d.disk).fat start) :
    (g.advance v).Post d fun r d' => d' = d ∧ (r = .error .corruptChain ∨
      ∃ g', r = .ok g' ∧ g'.Trails v (v.view d.disk).fat start) := by
  unfold advance
  by_cases hactive : g.active = false
  · rw [if_pos hactive]
    exact .of_exec rfl ⟨rfl, .inr ⟨g, rfl, .inl hactive⟩⟩
  obtain ⟨htortoise, hhare⟩ := hg.resolve_left hactive
  have hsteps := follow_lt hm hstart hacyclic htortoise
  rw [if_neg hactive, if_neg (by omega)]
  refine post_nextCluster hm (fun _ => ⟨rfl, .inl rfl⟩)
    (fun _ => .of_exec rfl ⟨rfl, .inr ⟨_, rfl, .inl rfl⟩⟩) fun tortoise htlink => ?_
  refine post_nextCluster hm (fun _ => ⟨rfl, .inl rfl⟩)
    (fun _ => .of_exec rfl ⟨rfl, .inr ⟨_, rfl, .inl rfl⟩⟩) fun firstHare hflink => ?_
  refine post_nextCluster hm (fun _ => ⟨rfl, .inl rfl⟩)
    (fun _ => .of_exec rfl ⟨rfl, .inr ⟨_, rfl, .inl rfl⟩⟩) fun hare hhlink => ?_
  have htortoise' := follow_succ htortoise htlink
  have hhare' := follow_succ (follow_succ hhare hflink) hhlink
  have hne : tortoise ≠ hare := fun heq => by
    have := hacyclic _ _ hare (heq ▸ htortoise') hhare'
    omega
  dsimp only
  rw [if_neg hne]
  exact .of_exec rfl ⟨rfl, .inr ⟨_, rfl, .inr ⟨htortoise', hhare'⟩⟩⟩

theorem post_validateLoop (hm : v.Mounted d.sectors) (hstart : v.isAllocatable start)
    (hacyclic : Acyclic (v.linkOf (v.view d.disk).fat) start)
    (hcluster : follow (v.linkOf (v.view d.disk).fat) start n = some cluster)
    (hfuel : n + fuel = v.clusterCount) (hg : g.Trails v (v.view d.disk).fat start) :
    (validateLoop v fuel cluster g).Post d fun r _ => r = .ok () ∨ r = .error .corruptChain := by
  induction fuel generalizing n cluster g with
  | zero => exact absurd (follow_lt hm hstart hacyclic hcluster) (by omega)
  | succ fuel ih =>
    refine post_nextCluster hm (fun _ => .inr rfl) (fun _ => .of_exec rfl (.inl rfl))
      fun next hlink => ?_
    refine (post_advance hm hstart hacyclic hg).bind ?_ ?_
    · rintro g' t ⟨rfl, herror | ⟨_, hok, hg'⟩⟩
      · cases herror
      · cases hok
        exact ih (follow_succ hcluster hlink) (by omega) hg'
    · rintro e t ⟨-, herror | ⟨_, hok, -⟩⟩
      · cases herror
        exact .inr rfl
      · cases hok

/-- Validation succeeds exactly on the starts of sound chains. Their clusters are in range and
distinct, and on a walk without a cycle, sound or not, no loop and no overlong chain is
reported. -/
theorem validateClusterChain_exact (h : d.Mounts v) (start : ℕ) :
    (((validateClusterChain v start).exec d).1 = .ok () ↔
      ∃ clusters, Linked (v.linkOf (v.view d.disk).fat) start clusters) ∧
    (∀ clusters, Linked (v.linkOf (v.view d.disk).fat) start clusters →
      clusters.Nodup ∧ ∀ c ∈ clusters, 2 ≤ c ∧ c < v.clusterCount + 2) ∧
    (Acyclic (v.linkOf (v.view d.disk).fat) start →
      ((validateClusterChain v start).exec d).1 ≠ .error .chainLoop ∧
      ((validateClusterChain v start).exec d).1 ≠ .error .chainTooLong) := by
  have hm := h.mounted
  refine ⟨(post_validateClusterChain hm start).2, fun clusters hchain => ⟨hchain.nodup,
    fun c hc => hm.allocatable_iff.mp (mem hchain hc).1⟩, fun hacyclic => ?_⟩
  have hresult : (validateClusterChain v start).Post d fun r _ =>
      r = .ok () ∨ r = .error .corruptChain := by
    by_cases hstart : v.isAllocatable start
    · exact post_validateLoop hm hstart hacyclic rfl (Nat.zero_add _) (.inr ⟨rfl, rfl⟩)
    obtain ⟨fuel, hfuel⟩ : ∃ fuel, v.clusterCount = fuel + 1 :=
      Nat.exists_eq_add_one.mpr (by have := hm.allocatable_iff.mp hm.root; omega)
    rw [validateClusterChain, hfuel]
    exact post_nextCluster hm (fun _ => .inr rfl)
      (fun hlink => absurd (Volume.linkOf_allocatable hlink) hstart)
      fun _ hlink => absurd (Volume.linkOf_allocatable hlink) hstart
  rcases hresult with hok | herror
  · rw [hok]
    exact ⟨nofun, nofun⟩
  · rw [herror]
    exact ⟨nofun, nofun⟩

theorem validateClusterChain_exact_loop :
    let d := sampleDevice [(3, 4), (4, 5), (5, 4)] []
    (((validateClusterChain sampleVolume 3).exec d).1 = .ok () ↔
      ∃ clusters, Linked (sampleVolume.linkOf (sampleVolume.view d.disk).fat) 3 clusters) :=
  (validateClusterChain_exact (mounts_sampleDevice _ _) 3).1

/-! ## Freeing -/

/-- What freeing a sound chain can do: mark some of its clusters free, all of them when it
succeeds. It succeeds on a device without faults. -/
structure Freed (v : Volume) (clusters : List ℕ) (d : Device) (r : Except Error Unit)
    (d' : Device) : Prop where
  all : r = .ok () → v.view d'.disk = (v.view d.disk).clear clusters
  some : ∃ cleared ⊆ clusters, v.view d'.disk = (v.view d.disk).clear cleared
  succeeds : d.readOnly = false → d.fault = none → r = .ok ()

theorem post_freeLoop (hm : v.Mounted d.sectors) {freed : ℕ} (first : ℕ)
    (h : v.Chain (v.view d.disk) start clusters) (hfuel : clusters.length ≤ fuel) :
    (freeLoop v first fuel start freed).Post d (Freed v clusters d) := by
  induction fuel generalizing d start clusters freed with
  | zero => exact absurd (List.length_pos_of_ne_nil h.ne_nil) (by omega)
  | succ fuel ih =>
    have hc : v.isAllocatable start := (mem h h.head_mem).1
    have hwrite := post_writeFatEntry hm hc 0
    -- a failed write has freed nothing, or the first cluster only
    have hfailed : ∀ (e : Error) (t : Device), d.Evolves t →
        FatWrite v start 0 d (.error e) t → Freed v clusters d (.error e) t := by
      intro e t _ ht
      cases ht with
      | missed hview hstruck =>
        refine ⟨nofun, ⟨[], by simp, by simp [hview]⟩, fun hro hnone => ?_⟩
        rw [hnone] at hstruck
        exact nomatch (hstruck hro).1
      | torn _ _ hstruck _ hview =>
        refine ⟨nofun, ⟨[start], ?_, ?_⟩, fun _ hnone => ?_⟩
        · simpa using h.head_mem
        · rw [hview, ← setFat_zero_clear, clear_nil]
          rfl
        · rw [hnone] at hstruck
          cases hstruck
    rcases exec_nextCluster_of_chain hm h with ⟨hexec, rfl⟩ | ⟨next, rest, hexec, rfl, hrest⟩
    · refine Post.step hexec (post_bind hwrite ?_ hfailed)
      intro _ t _ ht
      cases ht with
      | done _ _ _ hview =>
        have hinfo := (moves_updateFsInfoAfterFree hm (freed + 1) first).ignore t
        have hok : ((updateFsInfoAfterFree v (freed + 1) first).ignore.exec t).1 = .ok () := by
          rw [exec_ignore]
        have hall : v.view ((updateFsInfoAfterFree v (freed + 1) first).ignore.exec t).2.disk =
            (v.view d.disk).clear [start] := by
          rw [hinfo, hview, ← setFat_zero_clear, clear_nil]
          rfl
        exact ⟨fun _ => hall, ⟨_, fun _ h => h, hall⟩, fun _ _ => hok⟩
    · refine Post.step hexec (post_bind hwrite ?_ hfailed)
      intro _ t hevolves ht
      cases ht with
      | done hro _ _ hview =>
        have hnotin : start ∉ rest := (List.nodup_cons.mp h.nodup).1
        have hview' : v.view t.disk = (v.view d.disk).setFat start 0 := hview
        have hrest' : v.Chain (v.view t.disk) next rest := by
          refine of_fat_eq hrest fun c hmem => ?_
          rw [hview', setFat_fat_of_ne]
          rintro rfl
          exact hnotin hmem
        rw [List.length_cons] at hfuel
        refine (ih (hevolves.sectors ▸ hm) hrest' (by omega)).mono fun r u hfreed => ?_
        obtain ⟨hall, ⟨cleared, hsub, hsome⟩, hsucceeds⟩ := hfreed
        rw [hview'] at hall hsome
        simp only [setFat_zero_clear] at hall hsome
        refine ⟨hall, ⟨_, List.cons_subset_cons _ hsub, hsome⟩, fun hro' hnone => ?_⟩
        exact hsucceeds (hevolves.readOnly.trans hro') (hevolves.fault hnone)

theorem post_freeClusterChain_of_chain (hm : v.Mounted d.sectors)
    (h : v.Chain (v.view d.disk) start clusters) :
    (freeClusterChain v start).Post d (Freed v clusters d) := by
  have hlow : ¬start < 2 := by
    have := (mem h h.head_mem).1.1
    omega
  rw [freeClusterChain, if_neg hlow]
  exact Post.step (exec_validateClusterChain hm h)
    (post_freeLoop hm start h (length_le hm h))

/-- Freeing from any start changes nothing, or frees clusters of a sound chain. -/
theorem post_freeClusterChain (hm : v.Mounted d.sectors) (start : ℕ) :
    (freeClusterChain v start).Post d fun _ d' =>
      v.view d'.disk = v.view d.disk ∨
        ∃ clusters cleared, v.Chain (v.view d.disk) start clusters ∧ cleared ⊆ clusters ∧
          v.view d'.disk = (v.view d.disk).clear cleared := by
  by_cases hchain : ∃ clusters, v.Chain (v.view d.disk) start clusters
  · obtain ⟨clusters, h⟩ := hchain
    refine (post_freeClusterChain_of_chain hm h).mono fun r t ht => .inr ?_
    obtain ⟨cleared, hsub, hview⟩ := ht.some
    exact ⟨clusters, cleared, h, hsub, hview⟩
  unfold freeClusterChain
  split
  · exact .of_exec rfl (.inl rfl)
  refine post_bind (post_validateClusterChain hm start) ?_ ?_
  · rintro _ t _ ⟨_, hiff⟩
    exact absurd (hiff.mp rfl) hchain
  · rintro _ t _ ⟨rfl, _⟩
    exact .inl rfl

end WovenHat.Fat32
