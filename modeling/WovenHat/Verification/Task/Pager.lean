import WovenHat.Library.Always
import WovenHat.Library.TableSum
import WovenHat.Model.Task.Pager

/-! # The books of lazy mappings

The pager serves a fault from the copy of the mapping that was made when the process faulted,
and writes that copy back. If a page of the mapping is evicted in between, the page comes back
as resident although it is not mapped, and its swap handle is lost. -/

namespace WovenHat.Pager

open Library Function Option State

variable {p : Proc} {slot : Slot} {page : Page} {m m' : Mapping} {h : Handle}

theorem Mapping.records_update (m : Mapping) (page : Page) (o : Option Handle) (h : Handle)
    (hm' : m'.swapSlots = update m.swapSlots page o) :
    m'.records h + (if m.swapSlots page = some h then 1 else 0) =
      m.records h + if o = some h then 1 else 0 := by
  unfold records
  rw [hm']
  exact sum_update (fun o : Option Handle => if o = some h then 1 else 0) m.swapSlots page o

theorem Mapping.records_lazy (pages : ℕ) (writable shared : Bool) (h : Handle) :
    (Mapping.lazy pages writable shared).records h = 0 :=
  Finset.sum_eq_zero fun _ _ => rfl

/-- The request is for a page of its mapping that was absent and may be accessed. -/
structure Request.Served (r : Request) : Prop where
  page_lt : r.page.val < r.mapping.pages
  writable : r.write = true → r.mapping.writable = true
  absent : r.mapping.resident r.page = false

namespace State

variable {s s' : State} {r : Request} {op : Op}

def records (s : State) (h : Handle) : ℕ :=
  ∑ p, ∑ slot, (s.mappings p slot).elim 0 (·.records h)

/-- A page is resident exactly if it is mapped, a page with a swap handle is not resident, and
the reference count of a handle is the number of pages that record it. -/
structure Booked (s : State) : Prop where
  resident : ∀ p slot m, s.mappings p slot = some m → ∀ page, m.resident page = s.mapped p slot page
  swapped : ∀ p slot m, s.mappings p slot = some m → ∀ page, (m.swapSlots page).isSome →
    m.resident page = false
  swap : ∀ h, s.swap h = s.records h

/-- What has happened to a mapping since it was copied: pages were evicted. -/
def Since (copy m : Mapping) : Prop :=
  ∀ q, (m.resident q = copy.resident q ∧ m.swapSlots q = copy.swapSlots q) ∨
    (copy.resident q = true ∧ m.resident q = false)

def Pending (s : State) (r : Request) : Prop :=
  (∃ i, s.entries i = some r) ∨ s.active = some r

/-- Every process has one request at most, and its mapping is still there. -/
structure Waiting (s : State) : Prop where
  queued : ∀ i j r r', s.entries i = some r → s.entries j = some r' → r.proc = r'.proc → i = j
  served : ∀ i r r', s.entries i = some r → s.active = some r' → r.proc ≠ r'.proc
  since : ∀ r, s.Pending r → ∃ m, s.mappings r.proc r.slot = some m ∧ Since r.mapping m

/-- A request is served after a page of its mapping has been evicted, with memory and the disk
at hand. -/
def Stale (s : State) : Op → Prop
  | .finish succeeds => succeeds = true ∧ ∃ r, s.active = some r ∧ r.Served ∧
      ∃ q, r.mapping.resident q = true ∧ s.mapped r.proc r.slot q = false
  | _ => False

theorem blocked_iff : s.blocked p = true ↔ ∃ r, s.Pending r ∧ r.proc = p := by
  unfold blocked Pending
  rw [Bool.or_eq_true, List.any_eq_true]
  constructor
  · rintro (hactive | ⟨i, -, hi⟩)
    · cases ha : s.active with
      | none => simp [ha] at hactive
      | some r => exact ⟨r, .inr rfl, by simpa [ha] using hactive⟩
    · cases he : s.entries i with
      | none => simp [he] at hi
      | some r => exact ⟨r, .inl ⟨i, he⟩, by simpa [he] using hi⟩
  · rintro ⟨r, ⟨i, hi⟩ | hactive, rfl⟩
    · exact .inr ⟨i, List.mem_finRange i, by simp [hi]⟩
    · exact .inl (by simp [hactive])

theorem not_pending_of_not_blocked (h : ¬s.blocked p = true) : ∀ r, s.Pending r → r.proc ≠ p :=
  fun r hr heq => h (blocked_iff.mpr ⟨r, hr, heq⟩)

/-! ## One mapping changes -/

theorem records_setMapping (s : State) (p : Proc) (slot : Slot) (o : Option Mapping) (h : Handle)
    (hmappings : s'.mappings = (s.setMapping p slot o).mappings) :
    s'.records h + (s.mappings p slot).elim 0 (·.records h) =
      s.records h + o.elim 0 (·.records h) := by
  have hrow := sum_update (fun o : Option Mapping => o.elim 0 (·.records h)) (s.mappings p) slot o
  have htable := sum_update
    (fun row : Slot → Option Mapping => ∑ slot, (row slot).elim 0 (·.records h)) s.mappings p
    (update (s.mappings p) slot o)
  unfold records
  rw [hmappings, setMapping]
  dsimp only
  omega

theorem setMapping_mappings (p : Proc) (slot : Slot) (o : Option Mapping)
    (h : s'.mappings = s.mappings) :
    (s'.setMapping p slot o).mappings = (s.setMapping p slot o).mappings := by
  rw [setMapping, setMapping, h]

theorem setMapping_self (s : State) (p : Proc) (slot : Slot) (o : Option Mapping)
    (hmappings : s'.mappings = (s.setMapping p slot o).mappings) : s'.mappings p slot = o := by
  rw [hmappings]
  exact (update_update_apply ..).trans (if_pos ⟨rfl, rfl⟩)

variable {p' : Proc} {slot' : Slot} {copy : Mapping}

theorem setMapping_of_ne (s : State) (o : Option Mapping)
    (hmappings : s'.mappings = (s.setMapping p slot o).mappings)
    (hne : ¬(p' = p ∧ slot' = slot)) : s'.mappings p' slot' = s.mappings p' slot' := by
  rw [hmappings]
  exact (update_update_apply ..).trans (if_neg hne)

theorem Booked.setMapping (h : s.Booked) (o : Option Mapping)
    (hmappings : s'.mappings = (s.setMapping p slot o).mappings)
    (hmapped : ∀ p' slot', ¬(p' = p ∧ slot' = slot) → s'.mapped p' slot' = s.mapped p' slot')
    (hresident : ∀ m, o = some m → ∀ page, m.resident page = s'.mapped p slot page)
    (hswapped : ∀ m, o = some m → ∀ page, (m.swapSlots page).isSome → m.resident page = false)
    (hswap : ∀ h, s'.swap h + (s.mappings p slot).elim 0 (·.records h) =
      s.swap h + o.elim 0 (·.records h)) : s'.Booked := by
  refine ⟨fun p' slot' m hm page => ?_, fun p' slot' m hm => ?_, fun handle => ?_⟩
  · by_cases heq : p' = p ∧ slot' = slot
    · obtain ⟨rfl, rfl⟩ := heq
      rw [setMapping_self s p' slot' o hmappings] at hm
      exact hresident m hm page
    · rw [setMapping_of_ne s o hmappings heq] at hm
      rw [hmapped p' slot' heq]
      exact h.resident p' slot' m hm page
  · by_cases heq : p' = p ∧ slot' = slot
    · obtain ⟨rfl, rfl⟩ := heq
      rw [setMapping_self s p' slot' o hmappings] at hm
      exact hswapped m hm
    · rw [setMapping_of_ne s o hmappings heq] at hm
      exact h.swapped p' slot' m hm
  · have hrecords := records_setMapping s p slot o handle hmappings
    have hchange := hswap handle
    have hbefore := h.swap handle
    omega

theorem Waiting.setMapping (h : s.Waiting) (o : Option Mapping)
    (hmappings : s'.mappings = (s.setMapping p slot o).mappings) (hentries : s'.entries = s.entries)
    (hactive : s'.active = s.active) (hother : ∀ r, s.Pending r → r.proc ≠ p) : s'.Waiting := by
  refine ⟨hentries ▸ h.queued, hentries ▸ hactive ▸ h.served, fun r hr => ?_⟩
  have hr' : s.Pending r := by
    unfold Pending at hr ⊢
    rwa [hentries, hactive] at hr
  obtain ⟨m, hm, hsince⟩ := h.since r hr'
  refine ⟨m, ?_, hsince⟩
  rw [setMapping_of_ne s o hmappings fun heq => hother r hr' heq.1, hm]

/-! ## Pages of one mapping -/

theorem setMapped_self (s : State) (p : Proc) (slot : Slot) (page q : Page) (b : Bool) :
    (s.setMapped p slot page b).mapped p slot q = if q = page then b else s.mapped p slot q := by
  simp [setMapped, update_apply]

theorem setMapped_of_ne (s : State) (page : Page) (b : Bool) (hne : ¬(p' = p ∧ slot' = slot)) :
    (s.setMapped p slot page b).mapped p' slot' = s.mapped p' slot' :=
  (update_update_apply ..).trans (if_neg hne)

/-- One page of a mapping changes: it is mapped or unmapped, and its handle is exchanged. -/
theorem Booked.setPage (h : s.Booked) (hm : s.mappings p slot = some m) {b : Bool}
    {o : Option Handle} (hmappings : s'.mappings = (s.setMapping p slot (some m')).mappings)
    (hmapped : s'.mapped = (s.setMapped p slot page b).mapped)
    (hresident : ∀ q, m'.resident q = if q = page then b else m.resident q)
    (hslots : m'.swapSlots = update m.swapSlots page o) (hfree : o.isSome → b = false)
    (hswap : ∀ h, s'.swap h + (if m.swapSlots page = some h then 1 else 0) =
      s.swap h + if o = some h then 1 else 0) : s'.Booked := by
  refine h.setMapping (some m') hmappings (fun p' slot' hne => ?_) (fun m'' hm'' q => ?_)
    (fun m'' hm'' q hq => ?_) fun handle => ?_
  · rw [hmapped, setMapped_of_ne s page b hne]
  · cases hm''
    rw [hresident, hmapped, setMapped_self, h.resident p slot m hm q]
  · cases hm''
    rw [hresident]
    rw [hslots] at hq
    split
    · rename_i heq
      subst heq
      rw [update_self] at hq
      exact hfree hq
    · rename_i hne
      rw [update_of_ne hne] at hq
      exact h.swapped p slot m hm q hq
  · have hrecords := Mapping.records_update m page o handle hslots
    have hchange := hswap handle
    rw [hm]
    dsimp only [Option.elim]
    omega

/-! ## The steps of a process -/

section

variable (hb : s.Booked) (hw : s.Waiting) (hfree : ∀ r, s.Pending r → r.proc ≠ p)

include hb hw hfree

theorem map_ok {pages : ℕ} {writable shared : Bool}
    (hstep : s.map p slot pages writable shared = some s') : s'.Booked ∧ s'.Waiting := by
  unfold map at hstep
  split at hstep
  · rename_i hcond
    cases hstep
    have hnone : s.mappings p slot = none := isNone_iff_eq_none.mp hcond.1
    refine ⟨hb.setMapping _ rfl (fun _ _ _ => rfl) (fun m hm page => ?_) (fun m hm page hsome => ?_)
      (fun handle => ?_), hw.setMapping _ rfl rfl rfl hfree⟩
    · cases hm
      exact (hcond.2 page).symm
    · cases hm
      cases hsome
    · rw [hnone]
      exact congrArg (s.swap handle + ·) (Mapping.records_lazy pages writable shared handle).symm
  · cases hstep

theorem fault_ok {write : Bool} (hstep : s.tryHandleFileFault p slot page write = some s') :
    s'.Booked ∧ s'.Waiting := by
  unfold tryHandleFileFault at hstep
  split at hstep
  · cases hstep
  rename_i m hm
  split at hstep
  · cases hstep
  rename_i i hi
  cases hstep
  have hcases : ∀ j r, update s.entries i (some ⟨p, slot, m, page, write⟩) j = some r →
      j = i ∧ ⟨p, slot, m, page, write⟩ = r ∨ j ≠ i ∧ s.entries j = some r :=
    fun j r hj => (update_eq_iff.mp hj).imp_left (And.imp_right some.inj)
  refine ⟨⟨hb.resident, hb.swapped, hb.swap⟩, fun j j' r r' hj hj' heq => ?_,
    fun j r r' hj hr' => ?_, fun r hr => ?_⟩
  · obtain ⟨rfl, rfl⟩ | ⟨-, hold⟩ := hcases j r hj
    · obtain ⟨rfl, -⟩ | ⟨-, hold'⟩ := hcases j' r' hj'
      · rfl
      · exact absurd heq.symm (hfree r' (.inl ⟨j', hold'⟩))
    · obtain ⟨rfl, rfl⟩ | ⟨-, hold'⟩ := hcases j' r' hj'
      · exact absurd heq (hfree r (.inl ⟨j, hold⟩))
      · exact hw.queued j j' r r' hold hold' heq
  · obtain ⟨rfl, rfl⟩ | ⟨-, hj⟩ := hcases j r hj
    · exact (hfree r' (.inr hr')).symm
    · exact hw.served j r r' hj hr'
  · obtain ⟨j, hj⟩ | hactive := hr
    · obtain ⟨rfl, rfl⟩ | ⟨-, hj⟩ := hcases j r hj
      · exact ⟨m, hm, fun q => .inl ⟨rfl, rfl⟩⟩
      · exact hw.since r (.inl ⟨j, hj⟩)
    · exact hw.since r (.inr hactive)

theorem breakCow_ok (hstep : s.tryHandleCowFault p slot page = some s') : s'.Booked ∧ s'.Waiting := by
  unfold tryHandleCowFault at hstep
  split at hstep
  · cases hstep
  rename_i m hm
  split at hstep
  · cases hstep
    exact ⟨hb, hw⟩
  cases hstep
  refine ⟨hb.setMapping _ rfl (fun _ _ _ => rfl) (fun m' hm' q => ?_) (fun m' hm' q hq => ?_)
    (fun handle => ?_), hw.setMapping _ rfl rfl rfl hfree⟩
  · cases hm'
    exact hb.resident p slot m hm q
  · cases hm'
    exact hb.swapped p slot m hm q hq
  · rw [hm]
    rfl

theorem unmap_ok (hstep : s.unmap p slot = some s') : s'.Booked ∧ s'.Waiting := by
  unfold unmap at hstep
  split at hstep
  · cases hstep
  rename_i m hm
  split at hstep
  · cases hstep
  cases hstep
  refine ⟨hb.setMapping none rfl (fun p' slot' hne => ?_) nofun nofun (fun handle => ?_),
    hw.setMapping _ rfl rfl rfl hfree⟩
  · exact (update_update_apply ..).trans (if_neg hne)
  have hle := records_setMapping s p slot none handle
    (show (s.setMapping p slot none).mappings = _ from rfl)
  have hbefore := hb.swap handle
  rw [hm] at hle ⊢
  change s.swap handle - m.records handle + m.records handle = s.swap handle + 0
  change _ + m.records handle = _ + 0 at hle
  omega

end

theorem fork_ok (hb : s.Booked) (hw : s.Waiting) {parent child : Proc}
    (hstep : s.fork parent child = some s') : s'.Booked ∧ s'.Waiting := by
  unfold fork at hstep
  split at hstep
  · rename_i hcond
    obtain ⟨hnone, hunmapped, hpresent⟩ := hcond
    cases hstep
    have hempty : ∀ slot, s.mappings child slot = none :=
      fun slot => isNone_iff_eq_none.mp (hnone slot)
    refine ⟨⟨fun p slot m hm page => ?_, fun p slot m hm => ?_, fun handle => ?_⟩,
      hw.queued, hw.served, fun r hr => ?_⟩
    · dsimp only at hm ⊢
      by_cases hp : p = child
      · subst hp
        rw [update_self] at hm ⊢
        rw [hm]
        rfl
      · rw [update_of_ne hp] at hm ⊢
        exact hb.resident p slot m hm page
    · dsimp only at hm
      by_cases hp : p = child
      · subst hp
        rw [update_self] at hm
        exact hb.swapped parent slot m hm
      · rw [update_of_ne hp] at hm
        exact hb.swapped p slot m hm
    · have hsum := sum_update
        (fun row : Slot → Option Mapping => ∑ slot, (row slot).elim 0 (·.records handle)) s.mappings
        child (s.mappings parent)
      have hzero : ∑ slot, (s.mappings child slot).elim 0 (·.records handle) = 0 :=
        Finset.sum_eq_zero fun slot _ => by rw [hempty slot]; rfl
      have hbefore := hb.swap handle
      unfold records at hbefore ⊢
      dsimp only
      omega
    · obtain ⟨m, hm, hsince⟩ := hw.since r hr
      have hne : r.proc ≠ child := by
        intro heq
        rw [heq, hempty] at hm
        cases hm
      refine ⟨m, ?_, hsince⟩
      dsimp only
      rw [update_of_ne hne, hm]
  · cases hstep

/-! ## The steps of the pager -/

theorem pop_ok (hb : s.Booked) (hw : s.Waiting) (hstep : s.pop = some s') :
    s'.Booked ∧ s'.Waiting := by
  unfold pop at hstep
  split at hstep
  · cases hstep
  rename_i hidle
  split at hstep
  · cases hstep
  rename_i i hi
  cases hstep
  have hkept : ∀ j r, update s.entries i none j = some r → j ≠ i ∧ s.entries j = some r := by
    intro j r hj
    obtain ⟨-, ⟨⟩⟩ | hj := update_eq_iff.mp hj
    exact hj
  refine ⟨⟨hb.resident, hb.swapped, hb.swap⟩, fun j j' r r' hj hj' => ?_, fun j r r' hj hr' heq => ?_,
    fun r hr => ?_⟩
  · exact hw.queued j j' r r' (hkept j r hj).2 (hkept j' r' hj').2
  · exact (hkept j r hj).1 (hw.queued j i r r' (hkept j r hj).2 hr' heq)
  obtain ⟨j, hj⟩ | hactive := hr
  · exact hw.since r (.inl ⟨j, (hkept j r hj).2⟩)
  · exact hw.since r (.inl ⟨i, hactive⟩)

/-- Evicting a page that was resident is one of the changes that a copy may miss. -/
theorem Since.evict (h : Since copy m) (hresident : m.resident page = true)
    (hbits : m'.resident = update m.resident page false)
    (hslots : ∀ q, q ≠ page → m'.swapSlots q = m.swapSlots q) : Since copy m' := by
  intro q
  rw [hbits]
  by_cases hq : q = page
  · subst hq
    rw [update_self]
    obtain ⟨hsame, -⟩ | ⟨-, hgone⟩ := h q
    · exact .inr ⟨hsame.symm.trans hresident, rfl⟩
    · rw [hresident] at hgone
      cases hgone
  · rw [update_of_ne hq, hslots q hq]
    exact h q

/-- Evicting a page keeps the books. A request on the mapping is out of date afterwards. -/
theorem evict_ok (hb : s.Booked) (hw : s.Waiting) {handle : Handle}
    (hstep : s.evictFilePage p slot page handle = some s') : s'.Booked ∧ s'.Waiting := by
  unfold evictFilePage at hstep
  split at hstep
  · cases hstep
  rename_i m hm
  dsimp only at hstep
  split at hstep
  · cases hstep
  rename_i hpresent
  have hresident : m.resident page = true := by
    by_contra hne
    exact hpresent (.inr (.inl (by simpa using hne)))
  -- a resident page has no handle
  have hnone : m.swapSlots page = none := by
    by_contra hne
    have := hb.swapped p slot m hm page (isSome_iff_ne_none.mpr hne)
    rw [hresident] at this
    cases this
  rw [hnone] at hstep
  generalize hswapped : (!m.shared && m.dirty page) = swapped at hstep
  split at hstep
  · cases hstep
  rename_i hfresh
  cases hstep
  constructor
  · refine hb.setPage (b := false) (o := if swapped then some handle else none) hm
      rfl rfl (fun q => ?_) rfl (fun _ => rfl) fun h => ?_
    · simp only [update_apply]
    rw [hnone]
    cases swapped with
    | false => rfl
    | true =>
      change update s.swap handle 1 h + 0 = s.swap h + if some handle = some h then 1 else 0
      by_cases heq : h = handle
      · subst heq
        have hzero : s.swap h = 0 := by
          by_contra hne
          exact hfresh ⟨rfl, hne⟩
        rw [update_self, if_pos rfl, hzero]
      · rw [update_of_ne heq, if_neg (by simpa using Ne.symm heq)]
  · refine ⟨hw.queued, hw.served, fun r hr => ?_⟩
    obtain ⟨live, hlive, hsince⟩ := hw.since r hr
    by_cases heq : r.proc = p ∧ r.slot = slot
    · obtain ⟨rfl, rfl⟩ := heq
      obtain rfl : m = live := some.inj (hm.symm.trans hlive)
      exact ⟨_, setMapping_self s _ _ _ rfl,
        hsince.evict hresident rfl fun q hq => update_of_ne hq _ _⟩
    · refine ⟨live, ?_, hsince⟩
      exact (setMapping_of_ne s _ rfl heq).trans hlive

/-- The copy of a mapping none of whose pages has been evicted is up to date. -/
theorem Since.same (h : Since copy m) (hkept : ∀ q, copy.resident q = true → m.resident q = true)
    (q : Page) : m.resident q = copy.resident q ∧ m.swapSlots q = copy.swapSlots q := by
  obtain hsame | ⟨hresident, hgone⟩ := h q
  · exact hsame
  · rw [hkept q hresident] at hgone
    cases hgone

/-- What `populate_file_page` does: it maps the page and records it in the copy. -/
theorem populateFilePage_some (hstep : s.populateFilePage r = some (m', s')) :
    r.mapping.resident r.page = false ∧
      s'.mappings = s.mappings ∧ s'.entries = s.entries ∧ s'.active = s.active ∧
      s'.mapped = (s.setMapped r.proc r.slot r.page true).mapped ∧
      (∀ q, m'.resident q = if q = r.page then true else r.mapping.resident q) ∧
      m'.swapSlots = update r.mapping.swapSlots r.page none ∧
      ∀ h, s.swap h = s'.swap h + if r.mapping.swapSlots r.page = some h then 1 else 0 := by
  unfold populateFilePage at hstep
  dsimp only at hstep
  split at hstep
  · cases hstep
  rename_i hcond
  have hresident : r.mapping.resident r.page = false := by
    by_contra hne
    exact hcond (.inr (.inr (by simpa using hne)))
  split at hstep
  · rename_i handle hhandle
    split at hstep
    · cases hstep
    rename_i hvalid
    cases hstep
    refine ⟨hresident, rfl, rfl, rfl, rfl, fun q => by simp only [update_apply], rfl, fun h => ?_⟩
    dsimp only
    rw [hhandle]
    by_cases heq : h = handle
    · subst heq
      have hpos : s.swap h ≠ 0 := fun hzero => hvalid (.inl hzero)
      rw [update_self, if_pos rfl]
      omega
    · rw [update_of_ne heq, if_neg (by simpa using Ne.symm heq), Nat.add_zero]
  · rename_i hnone
    split at hstep
    · cases hstep
    cases hstep
    refine ⟨hresident, rfl, rfl, rfl, rfl, fun q => by simp only [update_apply], ?_, fun h => ?_⟩
    · rw [← hnone, update_eq_self]
    · rw [hnone, if_neg nofun]
      rfl

theorem Booked.swap_ne_zero (hb : s.Booked) (hm : s.mappings p slot = some m) {h : Handle}
    (hpage : m.swapSlots page = some h) : s.swap h ≠ 0 := by
  let rest := { m with swapSlots := update m.swapSlots page none }
  have hmapping : rest.records h + _ = _ := Mapping.records_update m page none h rfl
  have htable : (s.setMapping p slot none).records h + _ = _ :=
    records_setMapping s p slot none h rfl
  have hswap := hb.swap h
  rw [hm] at htable
  rw [if_pos hpage, if_neg nofun] at hmapping
  dsimp only [Option.elim] at htable
  omega

/-- Only pages that were resident have been evicted, so an absent page can still be populated. -/
theorem Booked.populateFilePage_isSome {live : Mapping} (hb : s.Booked)
    (hlive : s.mappings r.proc r.slot = some live) (hsince : Since r.mapping live) :
    (s.populateFilePage r).isSome ↔ r.Served := by
  unfold populateFilePage
  dsimp only
  split
  · rename_i hcond
    refine iff_of_false nofun fun h => ?_
    rcases hcond with hpage | hwrite | hresident
    · exact absurd h.page_lt (Nat.not_lt.mpr hpage)
    · simp only [Bool.and_eq_true, Bool.not_eq_true'] at hwrite
      exact absurd (h.writable hwrite.1) (by simp [hwrite.2])
    · exact absurd h.absent (by simp [hresident])
  rename_i hcond
  simp only [not_or, Nat.not_le, Bool.and_eq_true, Bool.not_eq_true', not_and,
    Bool.not_eq_false, Bool.not_eq_true] at hcond
  obtain ⟨hpage, hwrite, habsent⟩ := hcond
  have hsame : live.resident r.page = r.mapping.resident r.page ∧
      live.swapSlots r.page = r.mapping.swapSlots r.page :=
    (hsince r.page).resolve_right fun hgone => by simp [habsent] at hgone
  have hmapped : s.mapped r.proc r.slot r.page = false := by
    rw [← hb.resident _ _ live hlive, hsame.1, habsent]
  refine iff_of_true ?_ ⟨hpage, hwrite, habsent⟩
  split
  · rename_i h hslot
    have hswap := hb.swap_ne_zero hlive (hsame.2.trans hslot)
    simp [hswap, hmapped]
  · simp [hmapped]

/-- Writing back a copy keeps the books exactly if the pages resident in it are still mapped. -/
theorem Booked.writeBack_iff {live : Mapping} (hb : s.Booked)
    (hlive : s.mappings r.proc r.slot = some live) (hsince : Since r.mapping live)
    (hstep : s.populateFilePage r = some (m', s')) :
    (s'.setMapping r.proc r.slot (some m')).Booked ↔
      ∀ q, r.mapping.resident q = true → s.mapped r.proc r.slot q = true := by
  obtain ⟨habsent, hmappings, -, -, hmapped, hresident, hslots, hswap⟩ :=
    populateFilePage_some hstep
  have hset := setMapping_mappings r.proc r.slot (some m') hmappings
  constructor
  · intro hbooked q hq
    have hne : q ≠ r.page := by
      intro heq
      rw [heq, habsent] at hq
      cases hq
    have hbit := hbooked.resident r.proc r.slot m' (setMapping_self s _ _ _ hset) q
    have hpage : (s'.setMapping r.proc r.slot (some m')).mapped r.proc r.slot q =
        s.mapped r.proc r.slot q := by
      change s'.mapped r.proc r.slot q = _
      rw [hmapped, setMapped_self, if_neg hne]
    rw [hresident, if_neg hne, hq, hpage] at hbit
    exact hbit.symm
  · intro hkept
    have hsame := hsince.same fun q hq => (hb.resident _ _ live hlive q).trans (hkept q hq)
    have hslotsEq : r.mapping.swapSlots = live.swapSlots := funext fun q => (hsame q).2.symm
    refine hb.setPage (b := true) (o := none) hlive hset hmapped (fun q => ?_)
      (hslots.trans (by rw [hslotsEq])) nofun fun h => ?_
    · rw [hresident, (hsame q).1]
    have hrelease := hswap h
    rw [hslotsEq] at hrelease
    exact hrelease.symm

/-- Serving a request keeps the books exactly if no page of the mapping was evicted since the
fault, or the request fails. -/
theorem finish_ok (hb : s.Booked) (hw : s.Waiting) {succeeds : Bool}
    (hstep : s.finish succeeds = some s') :
    s'.Waiting ∧ (s'.Booked ↔ ¬s.Stale (.finish succeeds)) := by
  unfold finish at hstep
  cases hactive : s.active with
  | none =>
    rw [hactive] at hstep
    cases hstep
  | some r =>
    rw [hactive] at hstep
    dsimp only at hstep
    have hidle : ({ s with active := none } : State).Waiting := by
      refine ⟨hw.queued, nofun, fun r' hr' => hw.since r' ?_⟩
      obtain ⟨i, hi⟩ | hnone := hr'
      · exact .inl ⟨i, hi⟩
      · cases hnone
    have hbidle : ({ s with active := none } : State).Booked := ⟨hb.resident, hb.swapped, hb.swap⟩
    obtain ⟨live, hlive, hsince⟩ := hw.since r (.inr hactive)
    have hserved := hbidle.populateFilePage_isSome hlive hsince
    cases succeeds with
    | false =>
      cases hstep
      exact ⟨hidle, iff_of_true hbidle (fun hstale => absurd hstale.1 nofun)⟩
    | true =>
      rw [if_pos rfl] at hstep
      cases hpop : ({ s with active := none } : State).populateFilePage r with
      | none =>
        rw [hpop] at hstep
        cases hstep
        refine ⟨hidle, iff_of_true hbidle ?_⟩
        rintro ⟨-, r', hr', hok, -⟩
        obtain rfl : r = r' := some.inj (hactive.symm.trans hr')
        have hsome := hserved.mpr hok
        rw [hpop] at hsome
        cases hsome
      | some result =>
        obtain ⟨m', s₁⟩ := result
        rw [hpop] at hstep
        cases hstep
        obtain ⟨-, hmappings, hentries, hactive₁, -⟩ := populateFilePage_some hpop
        constructor
        · apply hidle.setMapping (some m') (setMapping_mappings r.proc r.slot (some m') hmappings)
            hentries hactive₁
          rintro r' (⟨i, hi⟩ | hnone)
          · exact hw.served i r' r hi hactive
          · cases hnone
        rw [hbidle.writeBack_iff hlive hsince hpop]
        constructor
        · rintro hkept ⟨-, r', hr', -, q, hq, hgone⟩
          obtain rfl : r = r' := some.inj (hactive.symm.trans hr')
          exact absurd ((hkept q hq).symm.trans hgone) nofun
        · intro hstale q hq
          by_contra hgone
          refine hstale ⟨rfl, r, hactive, hserved.mp ?_, q, hq, by simpa using hgone⟩
          rw [hpop]
          rfl

/-! ## Runs -/

theorem booked_boot : boot.Booked where
  resident := nofun
  swapped := nofun
  swap _ := (Finset.sum_eq_zero fun _ _ => Finset.sum_eq_zero fun _ _ => rfl).symm

theorem waiting_boot : boot.Waiting where
  queued := nofun
  served := nofun
  since r hr := by
    obtain ⟨i, hi⟩ | hactive := hr
    · cases hi
    · cases hactive

/-- After a step the books are in order exactly if it wrote back no copy that was out of date. -/
theorem step_iff (hb : s.Booked) (hw : s.Waiting) (hstep : s.step op = some s') :
    s'.Waiting ∧ (s'.Booked ↔ ¬s.Stale op) := by
  have hboth : s'.Booked ∧ s'.Waiting → ¬s.Stale op → s'.Waiting ∧ (s'.Booked ↔ ¬s.Stale op) :=
    fun hok hstale => ⟨hok.2, iff_of_true hok.1 hstale⟩
  unfold step at hstep
  cases op with
  | map p slot pages writable shared =>
    dsimp only at hstep
    split at hstep
    · cases hstep
    · exact hboth (map_ok hb hw (not_pending_of_not_blocked ‹_›) hstep) id
  | fault p slot page write =>
    dsimp only at hstep
    split at hstep
    · cases hstep
    · exact hboth (fault_ok hb hw (not_pending_of_not_blocked ‹_›) hstep) id
  | pop => exact hboth (pop_ok hb hw hstep) id
  | evict p slot page handle =>
    dsimp only at hstep
    split at hstep
    · exact hboth (evict_ok hb hw hstep) id
    · cases hstep
  | finish succeeds => exact finish_ok hb hw hstep
  | breakCow p slot page =>
    dsimp only at hstep
    split at hstep
    · cases hstep
    · exact hboth (breakCow_ok hb hw (not_pending_of_not_blocked ‹_›) hstep) id
  | unmap p slot =>
    dsimp only at hstep
    split at hstep
    · cases hstep
    · exact hboth (unmap_ok hb hw (not_pending_of_not_blocked ‹_›) hstep) id
  | fork parent child =>
    dsimp only at hstep
    split at hstep
    · cases hstep
    · exact hboth (fork_ok hb hw hstep) id

/-- In a run the books of the lazy mappings stay in order exactly if the pager never serves a
request after a page of its mapping has been evicted. -/
theorem lazy_mappings_booked_iff (ops : List Op) : Always step (fun _ _ s' => s'.Booked) boot ops ↔
      Always step (fun s op _ => ¬s.Stale op) boot ops :=
  Always.congr (I := fun s : State => s.Booked ∧ s.Waiting) ⟨booked_boot, waiting_boot⟩
    (fun _ _ _ h hstep => (step_iff h.1 h.2 hstep).2)
    (fun _ _ _ h hstep hbooked => ⟨hbooked, (step_iff h.1 h.2 hstep).1⟩) ops

/-- A process touches two pages of a private mapping, writing to the first. While its second
fault is served, memory runs out and the first page is evicted to swap slot 7. -/
def evictDuringFault : List Op :=
  [.map 0 0 2 true false, .fault 0 0 0 false, .pop, .finish true, .breakCow 0 0 0,
    .fault 0 0 1 false, .pop, .evict 0 0 0 7, .finish true]

/-- The first page counts as resident although it is not mapped, and its contents in the swap
slot are lost. -/
theorem evicted_page_stays_resident :
    let s := runAll step boot evictDuringFault
    s.mapped 0 0 0 = false ∧ s.swap 7 = 1 ∧
      (s.mappings 0 0).map (fun m => (m.resident 0, m.swapSlots 0)) = some (true, none) := by
  decide +kernel

end State

end WovenHat.Pager
