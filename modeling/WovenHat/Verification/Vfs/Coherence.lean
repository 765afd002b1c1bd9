import WovenHat.Library.Always
import WovenHat.Verification.Vfs.ByteFiles
import WovenHat.Verification.Vfs.SharedCalls

/-! # Coherence of shared pages

Processes write a file, map it, store through their mappings and lose pages again. `read_at`
and the pages agree along a run as long as no page is loaded late: a mapping keeps the length
that it had when it was made, and a page that is loaded after the file has grown lacks the new
bytes. -/

namespace WovenHat.Vfs

open Library List

namespace Sharing

open State

variable {s s' : Sharing} {n : NodeId} {g : ℕ} {used : ℕ → Prop}

/-! ## The pages of the mappings -/

/-- Every page that a mapping has is a page of its file in the cache. -/
def Mapped (s : Sharing) : Prop :=
  ∀ m ∈ s.mappings, 4096 ∣ m.offset ∧ ∀ j frame, m.frame j = some frame →
    j ∈ m.pages ∧ s.vfs.PageOf m.file m.generation (m.offset + j * 4096) frame

variable {m : SharedMapping} {mapping : ℕ} {l : Act} {disk : DiskReader}

theorem not_unused {mappings : List SharedMapping} {j frame : ℕ} (hm : m ∈ mappings)
    (hj : j ∈ m.pages) (hframe : m.frame j = some frame) : unused mappings frame = false := by
  have hinUse : inUse mappings frame = true :=
    any_eq_true.mpr ⟨m, hm, any_eq_true.mpr ⟨j, hj, by simp [hframe]⟩⟩
  rw [unused, hinUse]
  rfl

/-- The mappings keep their pages, or some of them, as long as the pages that they keep are in
use. -/
theorem Mapped.evolves (h : s.Mapped) (hevolves : Evolves used s.vfs s'.vfs n g)
    (hmappings : ∀ m' ∈ s'.mappings, ∃ m ∈ s.mappings, m'.file = m.file ∧
      m'.generation = m.generation ∧ m'.offset = m.offset ∧ m'.pages = m.pages ∧
      ∀ j frame, m'.frame j = some frame → m.frame j = some frame)
    (hused : ∀ m' ∈ s'.mappings, ∀ j ∈ m'.pages, ∀ frame, m'.frame j = some frame → used frame) :
    s'.Mapped := by
  intro m' hm'
  obtain ⟨m, hm, hfile, hgen, hoff, hpages, hframes⟩ := hmappings m' hm'
  obtain ⟨haligned, hresident⟩ := h m hm
  refine ⟨hoff ▸ haligned, fun j frame hj => ?_⟩
  obtain ⟨hmem, hpage⟩ := hresident j frame (hframes j frame hj)
  rw [← hpages] at hmem
  refine ⟨hmem, ?_⟩
  rw [hfile, hgen, hoff]
  exact hpage.evolves hevolves (hused m' hm' j hmem frame hj)

theorem Mapped.of_same (h : s.Mapped) (hevolves : Evolves (fun _ => True) s.vfs s'.vfs n g)
    (hmappings : s'.mappings = s.mappings) : s'.Mapped :=
  h.evolves hevolves (fun m hm => ⟨m, hmappings ▸ hm, rfl, rfl, rfl, rfl, fun _ _ => id⟩)
    fun _ _ _ _ _ _ => trivial

theorem mapped_map (h : s.Mapped) (hok : s.vfs.frames.Ok) (hcur : s.vfs.Current)
    (disk : DiskReader) (file : OpenFileId) (offset length : ℕ) :
    Steady (fun _ => True) s.vfs (s.map disk file offset length).vfs n g ∧
      (s.map disk file offset length).Mapped := by
  obtain ⟨hsteady, hnew⟩ : Steady (fun _ => True) s.vfs _ n g ∧ _ :=
    steady_mapFileShared hok hcur disk file offset length
  unfold map
  split
  · rename_i v heq
    rw [heq] at hsteady
    exact ⟨hsteady, h.of_same hsteady.toEvolves rfl⟩
  rename_i m v heq
  rw [heq] at hsteady hnew
  have hold : Mapped { s with vfs := v } := h.of_same hsteady.toEvolves rfl
  refine ⟨hsteady, fun m' hm' => ?_⟩
  obtain hm' | hm' := mem_append.mp hm'
  · exact hold m' hm'
  obtain rfl := mem_singleton.mp hm'
  obtain ⟨haligned, hnone⟩ := hnew m' rfl
  refine ⟨haligned, fun j frame hj => ?_⟩
  rw [hnone j] at hj
  cases hj

theorem mapped_unmap (h : s.Mapped) (hok : s.vfs.frames.Ok) (hcur : s.vfs.Current) :
    (∃ used, Steady used s.vfs (s.unmap mapping m).vfs n g) ∧ (s.unmap mapping m).Mapped := by
  unfold unmap
  split
  · have hsteady : Steady (unused (s.mappings.eraseIdx mapping) · = false) s.vfs _ n g :=
      steady_unmapAnonymous hok hcur m _
    refine ⟨⟨_, hsteady⟩, h.evolves hsteady.toEvolves (fun m' hm' => ?_) ?_⟩
    · exact ⟨m', mem_of_mem_eraseIdx hm', rfl, rfl, rfl, rfl, fun _ _ => id⟩
    · exact fun m' hm' j hj frame hframe => not_unused hm' hj hframe
  · have hsteady : Steady (unused s.mappings · = false) s.vfs _ n g :=
      steady_unmapAnonymous hok hcur m _
    refine ⟨⟨_, hsteady⟩, h.evolves hsteady.toEvolves (fun m' hm' => ?_) ?_⟩
    · exact ⟨m', hm', rfl, rfl, rfl, rfl, fun _ _ => id⟩
    · exact fun m' hm' j hj frame hframe => not_unused hm' hj hframe

theorem mapped_evict (h : s.Mapped) (hok : s.vfs.frames.Ok) (hcur : s.vfs.Current)
    (hm : m ∈ s.mappings) (index : ℕ) :
    (∃ used, Steady used s.vfs (s.evict mapping m index).vfs n g) ∧
      (s.evict mapping m index).Mapped := by
  obtain ⟨hnew, hsteady⟩ | ⟨hnew, hsteady⟩ := steady_evictFilePage (n := n) (g := g) hok hcur
    m index (unused (s.mappings.set mapping { m with frame := Function.update m.frame index none }))
  · refine ⟨⟨_, hsteady⟩, h.evolves hsteady.toEvolves (fun m' hm' => ?_) ?_⟩
    · obtain hm' | heq := mem_or_eq_of_mem_set hm'
      · exact ⟨m', hm', rfl, rfl, rfl, rfl, fun _ _ => id⟩
      obtain rfl := heq.trans hnew
      refine ⟨m, hm, rfl, rfl, rfl, rfl, fun j frame hj => ?_⟩
      simp only [Function.update_apply] at hj
      split at hj
      · cases hj
      · exact hj
    · intro m' hm' j hj frame hframe
      simp only [evict, hnew] at hm'
      exact not_unused hm' hj hframe
  · refine ⟨⟨_, hsteady⟩, h.evolves hsteady.toEvolves (fun m' hm' => ?_) fun _ _ _ _ _ _ => trivial⟩
    obtain hm' | heq := mem_or_eq_of_mem_set hm'
    · exact ⟨m', hm', rfl, rfl, rfl, rfl, fun _ _ => id⟩
    · obtain rfl := heq.trans hnew
      exact ⟨m', hm, rfl, rfl, rfl, rfl, fun _ _ => id⟩

variable {fresh : Option ℕ} {index : ℕ}

theorem mapped_fault (h : s.Mapped) (hok : s.vfs.frames.Ok) (hcur : s.vfs.Current)
    (disk : DiskReader) (hm : m ∈ s.mappings) (index : ℕ)
    (hfresh : ∀ c e, s.vfs.frames.cache c = some e → fresh ≠ some e.frame) :
    ∃ frame, Faulted s.vfs m.file m.generation (m.offset + index * 4096)
        (min (m.length - index * 4096) 4096) fresh (unused s.mappings)
        (fun n g => s.vfs.FaultLoads n g m index fresh (unused s.mappings))
        (frame, (s.fault disk mapping m index fresh).vfs) ∧
      Evolves (unused s.mappings · = false) s.vfs (s.fault disk mapping m index fresh).vfs n g ∧
      (s.fault disk mapping m index fresh).Mapped := by
  obtain ⟨⟨frame, v⟩, hfaulted, hvfs, hnew⟩ := populateFilePage_spec hok disk m (h m hm).1 index
    (unused s.mappings) hfresh
  have hvfs' : (s.fault disk mapping m index fresh).vfs = v := hvfs
  have hevolves : Evolves (unused s.mappings · = false) s.vfs v n g := hfaulted.evolves hcur
  have hold : Mapped { s with vfs := v } := h.evolves hevolves
    (fun m' hm' => ⟨m', hm', rfl, rfl, rfl, rfl, fun _ _ => id⟩)
    fun m' hm' j hj frame hframe => not_unused hm' hj hframe
  refine ⟨frame, hvfs' ▸ hfaulted, hvfs' ▸ hevolves, fun m' hm' => ?_⟩
  rw [hvfs']
  obtain hm' | heq := mem_or_eq_of_mem_set hm'
  · exact hold m' hm'
  obtain hsame | ⟨frame', hframe', hindex, hadded⟩ := hnew
  · exact heq.trans hsame ▸ hold m hm
  obtain rfl := heq.trans hadded
  refine ⟨(h m hm).1, fun j frame'' hj => ?_⟩
  simp only [Function.update_apply] at hj
  split at hj
  · rename_i hj'
    subst hj'
    cases hj
    exact ⟨hindex, hfaulted.mapped frame' hframe'⟩
  · exact (hold m hm).2 j frame'' hj

/-! ## Steps -/

/-- The invariant: the cache is in order, the mappings have their pages in it, and the file is in
memory or freed. -/
structure Good (n : NodeId) (g : ℕ) (s : Sharing) : Prop where
  current : s.vfs.Current
  ok : s.vfs.frames.Ok
  mapped : s.Mapped
  file : g < s.vfs.registry.generations n ∨ s.vfs.Ram n g

def Replaces (n : NodeId) (s : Sharing) : Act → Prop
  | .writeFile path data => s.vfs.registry.position (·.matchesPath path) = some n ∧
      (s.vfs.writeFile path data).1 = .ok ()
  | _ => False

def Stores (n : NodeId) (g p : ℕ) (s : Sharing) : Act → Prop
  | .store mapping index offset bytes => ∃ c e, s.vfs.frames.cache c = some e ∧
      FileFrames.Shared n g e ∧
      ((s.mappings[mapping]?).bind fun m => m.frame index) = some e.frame ∧
      e.key.offset + offset ≤ p ∧ p < e.key.offset + offset + bytes.length
  | _ => False

/-- A step after which the mappings have their pages in the cache, `read_at` and all pages of
the file agree, and the pages are zero behind the end of the file since it was replaced, where
nothing has been stored. -/
structure StepOk (n : NodeId) (g : ℕ) (s : Sharing) (l : Act) (s' : Sharing) : Prop where
  mapped : s'.Mapped
  coherent : s'.vfs.Ram n g → s'.vfs.Coherent n g
  zero : s'.vfs.Ram n g → ∀ p, Replaces n s l ∨ s.vfs.ZeroAt n g p → ¬Stores n g p s l →
    s'.vfs.ZeroAt n g p

/-- A step that loads no page of the file late: behind the bytes that it is about to load there
are only zeros in the file, up to the end of the page. And one that stores nothing new behind the
bytes that a page has, up to the end of the file. -/
structure Timely (n : NodeId) (g : ℕ) (s : Sharing) (l : Act) : Prop where
  load : s.vfs.Ram n g → ∀ disk mapping index fresh, l = .fault disk mapping index fresh →
    ∀ m, s.mappings[mapping]? = some m → s.vfs.FaultLoads n g m index fresh (unused s.mappings) →
      ∀ q, m.length - index * 4096 ≤ q → q < 4096 →
        m.offset + index * 4096 + q < (s.vfs.registry.nodes n).length →
          (s.vfs.registry.nodes n).data.get (m.offset + index * 4096 + q) = 0
  store : s.vfs.Ram n g → ∀ mapping index offset bytes, l = .store mapping index offset bytes →
    ∀ c e, s.vfs.frames.cache c = some e → FileFrames.Shared n g e →
      ((s.mappings[mapping]?).bind fun m => m.frame index) = some e.frame →
      ∀ q, offset ≤ q → q < offset + bytes.length → e.key.count ≤ q →
        e.key.offset + q < (s.vfs.registry.nodes n).length →
        bytes.getD (q - offset) 0 = (s.vfs.frames.page e.frame).get q

def Act.Plain : Act → Prop
  | .fault .. => False
  | .store .. => False
  | _ => True

section Good

variable (h : Good n g s)

include h

theorem Good.of_evolves (hevolves : Evolves used s.vfs s'.vfs n g)
    (hmapped : s'.Mapped) : Good n g s' := by
  refine ⟨hevolves.current, hevolves.ok, hmapped, ?_⟩
  obtain hgone | hram := h.file
  · exact .inl (hevolves.gone hgone)
  · exact (hevolves.ram hram).symm

theorem Good.ram (hevolves : Evolves used s.vfs s'.vfs n g)
    (hram : s'.vfs.Ram n g) : s.vfs.Ram n g := by
  obtain hgone | hram' := h.file
  · exact absurd (hevolves.gone hgone) hram.not_gone
  · exact hram'

/-- What the actions do, apart from faults and stores. -/
theorem Good.plain (hl : l.Plain) (hstep : s.step l = some s') :
    (∃ used, Steady used s.vfs s'.vfs n g) ∧ s'.Mapped ∧
      (Replaces n s l → s.vfs.Ram n g → ∀ p, s'.vfs.ZeroAt n g p) := by
  have hsame : ∀ v, Steady (fun _ => True) s.vfs v n g → ¬Replaces n s l →
      (∃ used, Steady used s.vfs v n g) ∧ Mapped { s with vfs := v } ∧
        (Replaces n s l → s.vfs.Ram n g → ∀ p, v.ZeroAt n g p) :=
    fun v hsteady hkept => ⟨⟨_, hsteady⟩, h.mapped.of_same hsteady.toEvolves rfl,
      fun hreplaces => (hkept hreplaces).elim⟩
  cases l with
  | seek id offset =>
    cases hstep
    exact hsame _ (steady_seek h.ok h.current id offset) not_false
  | write disk id buffer =>
    cases hstep
    exact hsame _ (steady_write h.ok h.current disk id buffer) not_false
  | writeFile path data =>
    cases hstep
    obtain ⟨hwrite, hzero⟩ : Steady (fun _ => True) s.vfs _ n g ∧ _ :=
      steady_writeFile h.ok h.current path data
    refine ⟨⟨_, hwrite⟩, h.mapped.of_same hwrite.toEvolves rfl,
      fun ⟨hpos, hres⟩ hram p c e he hshared q hq hp hlen => ?_⟩
    exact hzero hram hpos hres c e he hshared q hq (hp ▸ hlen)
  | writeMappingAt id offset bytes =>
    cases hstep
    exact hsame _ (steady_writeMappingAt h.ok h.current id offset bytes) not_false
  | map disk file offset length =>
    cases hstep
    obtain ⟨hsteady, hmapped⟩ := mapped_map (n := n) (g := g) h.mapped h.ok h.current disk file
      offset length
    exact ⟨⟨_, hsteady⟩, hmapped, fun hreplaces => hreplaces.elim⟩
  | fault disk mapping index fresh => exact hl.elim
  | store mapping index offset bytes => exact hl.elim
  | sync mapping =>
    simp only [step] at hstep
    split at hstep
    · cases hstep
    rename_i m hm
    cases hstep
    exact hsame _ (steady_syncFileMapping h.ok h.current m) not_false
  | unmap mapping =>
    simp only [step] at hstep
    split at hstep
    · cases hstep
    rename_i m hm
    cases hstep
    obtain ⟨hsteady, hmapped⟩ := mapped_unmap (n := n) (g := g) h.mapped h.ok h.current
    exact ⟨hsteady, hmapped, fun hreplaces => hreplaces.elim⟩
  | evict mapping index =>
    simp only [step] at hstep
    split at hstep
    · cases hstep
    rename_i m hm
    cases hstep
    obtain ⟨hsteady, hmapped⟩ := mapped_evict (n := n) (g := g) h.mapped h.ok h.current
      (mem_of_getElem? hm) index
    exact ⟨hsteady, hmapped, fun hreplaces => hreplaces.elim⟩
  | reclaim =>
    cases hstep
    have hsteady : Steady (unused s.mappings · = false) s.vfs _ n g :=
      steady_reclaimUnused h.ok h.current (unused s.mappings)
    refine ⟨⟨_, hsteady⟩, ?_, fun hreplaces => hreplaces.elim⟩
    exact h.mapped.evolves hsteady.toEvolves
      (fun m hm => ⟨m, hm, rfl, rfl, rfl, rfl, fun _ _ => id⟩)
      fun m hm j hj frame hframe => not_unused hm hj hframe

theorem Good.fault_iff (hgap : s.vfs.Ram n g → s.vfs.GapOk n g)
    (hstep : s.step (.fault disk mapping index fresh) = some s') :
    Good n g s' ∧ (StepOk n g s (.fault disk mapping index fresh) s' ↔
      Timely n g s (.fault disk mapping index fresh)) := by
  simp only [step] at hstep
  split at hstep
  · cases hstep
  rename_i m hm
  split at hstep
  · cases hstep
  rename_i hguard
  cases hstep
  -- a new page comes from the allocation
  have hfresh : ∀ c e, s.vfs.frames.cache c = some e → fresh ≠ some e.frame := by
    rintro c e he rfl
    have hcached : cached s.vfs e.frame = true := any_eq_true.mpr ⟨c, mem_finRange c, by simp [he]⟩
    simp [hcached] at hguard
  obtain ⟨frame, hfaulted, hevolves, hmapped⟩ := mapped_fault (n := n) (g := g) h.mapped h.ok
    h.current disk (mem_of_getElem? hm) index hfresh
  have hreg := hfaulted.registry
  dsimp only at hreg
  have hram' : s.vfs.Ram n g → (s.fault disk mapping m index fresh).vfs.Ram n g := by
    rintro ⟨hocc, hgen, hmem⟩
    rw [← hreg] at hocc hgen hmem
    exact ⟨hocc, hgen, hmem⟩
  refine ⟨h.of_evolves hevolves hmapped, fun hok => ⟨fun hram => ?_, nofun⟩,
    fun htimely => ⟨hmapped, fun hram => ?_, fun hram p hzero _ => ?_⟩⟩
  · rintro disk' mapping' index' fresh' ⟨⟩ m' hm' hloads q hcount hq hlen
    obtain rfl := Option.some.inj (hm.symm.trans hm')
    obtain ⟨c, e, he, hshared, hframe⟩ := hloads.populateFilePage hram disk
    obtain ⟨e₀, he₀, hstays⟩ | hloaded := hfaulted.renewed.entry c e he
    · exact absurd (hstays.frame ▸ hframe) (hfresh c e₀ he₀)
    have hgap' := (coherent_iff hevolves.ok (hram' hram)).mp (hok.coherent (hram' hram)) c e he
      hshared q (by rw [hloaded.count]; omega) hq (by rwa [hloaded.offset, hreg])
    rw [hloaded.offset, hreg] at hgap'
    rw [← hgap']
    exact hloaded.zero q (by omega)
  · have hram₀ := h.ram hevolves hram
    refine (coherent_iff hevolves.ok hram).mpr ?_
    have hold := hgap hram₀
    rw [State.GapOk, hreg]
    refine hfaulted.renewed.gap hold fun c e he hloaded hshared q hcount hq hlen => ?_
    rw [hloaded.offset] at hlen ⊢
    rw [hloaded.count] at hcount
    rw [htimely.load hram₀ disk mapping index fresh rfl m hm
      (hloaded.loads n g hram₀ hshared) q (by omega) hq hlen]
    exact hloaded.zero q hcount
  · obtain hreplaces | hzero := hzero
    · exact hreplaces.elim
    · exact hzero.evolves hevolves (h.ram hevolves hram) hram

theorem Good.store_iff (hgap : s.vfs.Ram n g → s.vfs.GapOk n g) {offset : ℕ} {bytes : List UInt8}
    (hstep : s.step (.store mapping index offset bytes) = some s') :
    Good n g s' ∧ (StepOk n g s (.store mapping index offset bytes) s' ↔
      Timely n g s (.store mapping index offset bytes)) := by
  simp only [step] at hstep
  split at hstep
  · cases hstep
  rename_i frame hframe
  split at hstep
  · cases hstep
  rename_i hfits
  cases hstep
  have hok : (s.vfs.frames.poke frame offset bytes).Ok := h.ok.poke frame offset bytes
  have hcoherent : ∀ hram : (s.vfs.storeMapped frame offset bytes).Ram n g,
      (s.vfs.storeMapped frame offset bytes).Coherent n g ↔ _ := fun hram =>
    (coherent_iff hok hram).trans (FileFrames.GapOk.poke_iff
      (hgap ⟨hram.occupied, hram.generation, hram.memory⟩) frame offset bytes)
  have hfile := h.file.imp_right fun hram : s.vfs.Ram n g =>
    (⟨hram.occupied, hram.generation, hram.memory⟩ : (s.vfs.storeMapped frame offset bytes).Ram n g)
  refine ⟨⟨h.current, hok, h.mapped, hfile⟩,
    fun hstepOk => ⟨nofun, ?_⟩,
    fun htimely => ⟨h.mapped, fun hram => ?_, fun hram p hzero hstores => ?_⟩⟩
  · rintro hram₀ mapping' index' offset' bytes' ⟨⟩ c e he hshared hmap q hlow hhigh hcount hlen
    have hram : (s.vfs.storeMapped frame offset bytes).Ram n g :=
      ⟨hram₀.occupied, hram₀.generation, hram₀.memory⟩
    rw [hframe] at hmap
    exact (hcoherent hram).mp (hstepOk.coherent hram) c e he hshared
      (Option.some.inj hmap).symm q hlow hhigh hcount (by omega) hlen
  · refine (hcoherent hram).mpr fun c e he hshared heq q hlow hhigh hcount _ hlen => ?_
    exact htimely.store ⟨hram.occupied, hram.generation, hram.memory⟩ mapping index offset bytes rfl c e he hshared (heq ▸ hframe) q hlow
      hhigh hcount hlen
  · obtain hreplaces | hzero := hzero
    · exact hreplaces.elim
    intro c e he hshared q hq hp hlen
    refine (FileFrames.get_poke _ frame offset bytes e.frame hq).trans ?_
    rw [if_neg, hzero c e he hshared q hq hp hlen]
    rintro ⟨heq, hlow, hhigh⟩
    exact hstores ⟨c, e, he, hshared, heq ▸ hframe, by omega, by omega⟩

theorem Good.plain_iff (hgap : s.vfs.Ram n g → s.vfs.GapOk n g) (hl : l.Plain)
    (hstep : s.step l = some s') : Good n g s' ∧ (StepOk n g s l s' ↔ Timely n g s l) := by
  obtain ⟨⟨used, hsteady⟩, hmapped, hreplaced⟩ := h.plain hl hstep
  refine ⟨h.of_evolves hsteady.toEvolves hmapped, iff_of_true ⟨hmapped, fun hram' => ?_,
    fun hram' p hzero _ => ?_⟩ ⟨?_, ?_⟩⟩
  · have hram := h.ram hsteady.toEvolves hram'
    exact (coherent_iff hsteady.ok hram').mpr (hsteady.gap hram hram' (hgap hram))
  · have hram := h.ram hsteady.toEvolves hram'
    obtain hreplaces | hzero := hzero
    · exact hreplaced hreplaces hram p
    · exact hzero.evolves hsteady.toEvolves hram hram'
  · rintro - disk mapping index fresh rfl
    exact hl.elim
  · rintro - mapping index offset bytes rfl
    exact hl.elim

/-- A step of a run keeps the pages and `read_at` in agreement exactly if it is timely. -/
theorem Good.step_iff (hgap : s.vfs.Ram n g → s.vfs.GapOk n g)
    (hstep : s.step l = some s') : Good n g s' ∧ (StepOk n g s l s' ↔ Timely n g s l) := by
  cases l with
  | fault disk mapping index fresh => exact h.fault_iff hgap hstep
  | store mapping index offset bytes => exact h.store_iff hgap hstep
  | _ => exact h.plain_iff hgap trivial hstep

end Good

/-- `read_at` and the resident pages of a file in memory agree along a run, and the pages are zero
behind an end that was moved back until something is stored there, exactly if no page is loaded
late. -/
theorem shared_pages_coherent_iff (hgood : Good n g s) (hstart : s.vfs.Ram n g → s.vfs.Coherent n g)
    (acts : List Act) : Always step (StepOk n g) s acts ↔ Always step (fun s l _ => Timely n g s l) s acts := by
  have hinit : Good n g s ∧ (s.vfs.Ram n g → s.vfs.GapOk n g) :=
    ⟨hgood, fun hram => (coherent_iff hgood.ok hram).mp (hstart hram)⟩
  refine Always.congr (I := fun s => Good n g s ∧ (s.vfs.Ram n g → s.vfs.GapOk n g)) hinit
    ?_ ?_ acts
  · rintro s l s' ⟨hgood, hgap⟩ hstep
    exact (hgood.step_iff hgap hstep).2
  rintro s l s' ⟨hgood, hgap⟩ hstep hok
  have hgood' := (hgood.step_iff hgap hstep).1
  exact ⟨hgood', fun hram => (coherent_iff hgood'.ok hram).mp (hok.coherent hram)⟩

/-- Before anything is mapped there is nothing to disagree. -/
theorem good_of_unmapped {v : State} (hcur : v.Current) (hempty : ∀ c, v.frames.cache c = none)
    (hram : v.Ram n g) : Good n g ⟨v, []⟩ ∧ v.Coherent n g := by
  have hnone : ∀ {c e}, v.frames.cache c ≠ some e := by
    intro c e he
    rw [hempty c] at he
    cases he
  refine ⟨⟨hcur, ⟨?_, ?_, ?_, ?_, ?_⟩, nofun, .inr hram⟩, ?_⟩
  · exact fun _ _ _ _ he => absurd he hnone
  · exact fun _ _ he => absurd he hnone
  · exact fun _ _ he => absurd he hnone
  · exact fun _ _ he => absurd he hnone
  · exact fun _ _ _ _ he => absurd he hnone
  · exact fun _ _ _ _ _ _ he => absurd he hnone

/-- A disk whose files consist of fives. -/
def disk5 : DiskReader :=
  fun _ _ buffer => (.ok buffer.length, buffer.map fun _ => 5)

/-- The file of the self-test is open. -/
def opened : Sharing :=
  ⟨(boot fun _ => Buffer.zero).performAll
    [(disk5, .openPath (Registry.bootNodes.getD 7 Node.empty).path)], []⟩

/-- Five bytes are mapped, two more written, and only then the page is touched. -/
def lateFault : List Act :=
  [.write disk5 0 [1, 2, 3, 4, 5], .map disk5 0 0 5, .write disk5 0 [6, 7],
    .fault disk5 0 0 (some 3)]

/-- The file has seven bytes, of which the page has the first five. -/
theorem late_fault_lacks_bytes :
    ((runAll step opened lateFault).vfs.frames.page 3).slice 0 7 = [1, 2, 3, 4, 5, 0, 0] ∧
      (runAll step opened lateFault).vfs.readAt disk5 0 0 7 = .ok [1, 2, 3, 4, 5, 6, 7] ∧
      ((runAll step opened lateFault).mappings.map fun m => m.frame 0) = [some 3] := by
  decide +kernel

theorem good_opened : Good spare 0 opened ∧ opened.vfs.Coherent spare 0 := by
  refine good_of_unmapped (fun i => ?_) (fun c => ?_) ⟨?_, ?_, ?_⟩
  · revert i
    decide +kernel
  · rfl
  · decide +kernel
  · decide +kernel
  · decide +kernel

theorem shared_pages_coherent_iff_opened : Good State.spare 0 opened ∧
    (Always step (StepOk State.spare 0) opened lateFault ↔
      Always step (fun s l _ => Timely State.spare 0 s l) opened lateFault) :=
  ⟨good_opened.1, shared_pages_coherent_iff good_opened.1 (fun _ => good_opened.2) lateFault⟩

end Sharing

end WovenHat.Vfs
