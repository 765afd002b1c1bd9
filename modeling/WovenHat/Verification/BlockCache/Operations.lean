import WovenHat.Verification.BlockCache.Abstraction

/-! # Cache reads and writes

A successful write updates the stored sectors; a read, and every failed call, leaves
them alone. -/

namespace WovenHat.BlockCache

open Library Block Function LawfulBlockDevice

variable {D : Type} {N : ℕ} [BlockDevice D] [LawfulBlockDevice D] {c : CachedDevice D N}

open LawfulBlockDevice (contents)

namespace CachedDevice

/-! ## Loading and reserving entries -/

omit [BlockDevice D] [LawfulBlockDevice D] in
theorem find_some {lba : ℕ} {index : Fin N} (h : c.find lba = some index) :
    (c.entries index).valid ∧ (c.entries index).lba = lba := by
  have hp := List.find?_some h
  simpa using hp

omit [BlockDevice D] [LawfulBlockDevice D] in
theorem find_none {lba : ℕ} (h : c.find lba = none) (i : Fin N)
    (hv : (c.entries i).valid) : (c.entries i).lba ≠ lba := by
  have hp := List.find?_eq_none.mp h i (List.mem_finRange i)
  simpa [hv] using hp

omit [BlockDevice D] [LawfulBlockDevice D] in
theorem evict_entries (c : CachedDevice D N) (index : Fin N) :
    (c.evict index).entries = c.entries ∧ (c.evict index).inner = c.inner := by
  unfold evict
  split <;> exact ⟨rfl, rfl⟩

variable {sectors : ℕ → Sector}

section Represents

variable (h : Represents c sectors)

include h

/-- The state in which a miss replaces its victim: once the victim has been written back,
no valid entry holds `lba`. -/
theorem writeBack_victim [NeZero N] {w : CachedDevice D N} {result : Except Error Unit}
    {lba : ℕ} (hfind : c.find lba = none) (index : Fin N)
    (hw : writeBack { c with misses := saturatingAdd c.misses 1 } index = (result, w)) :
    Represents w sectors ∧ (∀ i, (w.entries i).valid → (w.entries i).lba ≠ lba) ∧
      (result = .ok () → (w.entries index).valid → (w.entries index).dirty = false) := by
  have hmiss : Represents { c with misses := saturatingAdd c.misses 1 } sectors :=
    represents_congr h rfl fun i => ⟨rfl, rfl, rfl, rfl⟩
  have hspec := writeBack_spec hmiss index
  rw [hw] at hspec
  refine ⟨hspec.represents, fun i hv => ?_, hspec.clean⟩
  rw [hspec.lba_eq i]
  exact find_none hfind i (hspec.valid_eq i ▸ hv)

/-- `load` keeps the stored sectors and, on success, returns a valid entry for `lba`. -/
theorem load_spec [NeZero N] (lba : ℕ) : Represents (c.load lba).2 sectors ∧
      ∀ index, (c.load lba).1 = .ok index →
        ((c.load lba).2.entries index).valid ∧ ((c.load lba).2.entries index).lba = lba := by
  unfold load
  cases hfind : c.find lba with
  | some index =>
    obtain ⟨hv, hl⟩ := find_some hfind
    have hrep : Represents { c with hits := saturatingAdd c.hits 1 } sectors :=
      represents_congr h rfl fun i => ⟨rfl, rfl, rfl, rfl⟩
    refine ⟨represents_touch hrep index, ?_⟩
    intro index' hindex
    simp only [Except.ok.injEq] at hindex
    subst hindex
    obtain ⟨htl, -, htv, -⟩ := touch_entry { c with hits := saturatingAdd c.hits 1 } index index
    exact ⟨htv.trans hv, htl.trans hl⟩
  | none =>
    simp only
    generalize hindex : victim { c with misses := saturatingAdd c.misses 1 } = index
    cases hw : writeBack { c with misses := saturatingAdd c.misses 1 } index with
    | mk result w =>
      obtain ⟨hrep, hfresh, hclean⟩ := writeBack_victim h hfind index hw
      cases result with
      | error e => exact ⟨hrep, fun index he => by simp at he⟩
      | ok _ =>
        simp only
        have hinner := contents_read w.inner lba sectorSize
        cases hr : BlockDevice.readSector w.inner lba sectorSize with
        | mk data inner =>
          rw [hr] at hinner
          have hread : Represents { w with inner } sectors :=
            represents_congr hrep hinner fun i => ⟨rfl, rfl, rfl, rfl⟩
          cases data with
          | error e => exact ⟨hread, fun index he => by simp at he⟩
          | ok data =>
            have hdata : data = contents inner lba := by
              rw [show contents inner = contents w.inner from hinner]
              exact read_ok w.inner lba sectorSize data (congrArg Prod.fst hr)
            have hback : contents inner lba = sectors lba :=
              hread.backed lba fun i hv _ => hfresh i hv
            obtain ⟨hent, hinn⟩ := evict_entries { w with inner } index
            have hset := represents_setEntry
              (c := evict { w with inner } index)
              (represents_congr hread (by rw [hinn])
                fun i => by rw [hent]; exact ⟨rfl, rfl, rfl, rfl⟩)
              index ⟨lba, data, true, false, 0⟩
              (by
                rw [hent]
                intro hv hd
                rw [hclean rfl hv] at hd
                exact (Bool.false_ne_true hd).elim)
              rfl
              (by
                rw [hent]
                exact fun i _ hv => hfresh i hv)
              (fun _ => ⟨by rw [hinn]; exact hdata, hdata.trans hback⟩)
            have hupdate : update sectors lba data = sectors := by
              rw [hdata, hback, update_eq_self]
            simp only [hupdate] at hset
            refine ⟨represents_touch hset index, ?_⟩
            intro index' hok
            simp only [Except.ok.injEq] at hok
            subst hok
            obtain ⟨htl, -, htv, -⟩ := touch_entry
              ((evict { w with inner } index).setEntry index
                ⟨lba, data, true, false, 0⟩) index index
            rw [htl, htv]
            simp [setEntry]

/-- `reserve` keeps the stored sectors until the caller fills the returned entry:
storing any dirty bytes there amounts to one write of sector `lba`. -/
theorem reserve_spec [NeZero N] (lba : ℕ) :
    (∀ e, (c.reserve lba).1 = .error e → Represents (c.reserve lba).2 sectors) ∧
      ∀ index, (c.reserve lba).1 = .ok index → ∀ data : Sector,
        Represents ((c.reserve lba).2.setEntry index
          { (c.reserve lba).2.entries index with data := data, dirty := true })
          (update sectors lba data) := by
  unfold reserve
  cases hfind : c.find lba with
  | some index =>
    obtain ⟨hv, hl⟩ := find_some hfind
    refine ⟨fun e he => by simp at he, ?_⟩
    intro index' hok data
    simp only [Except.ok.injEq] at hok
    subst hok
    have hrep : Represents { c with hits := saturatingAdd c.hits 1 } sectors :=
      represents_congr h rfl fun i => ⟨rfl, rfl, rfl, rfl⟩
    have hset := represents_setEntry hrep index
      { c.entries index with data := data, dirty := true } (fun _ _ => rfl) hv
      (fun i hi hvi heq => hi (h.unique i index hvi hv heq)) (fun hd => by simp at hd)
    simpa only [hl] using hset
  | none =>
    simp only
    generalize hindex : victim { c with misses := saturatingAdd c.misses 1 } = index
    cases hw : writeBack { c with misses := saturatingAdd c.misses 1 } index with
    | mk result w =>
      obtain ⟨hrep, hfresh, hclean⟩ := writeBack_victim h hfind index hw
      cases result with
      | error e => exact ⟨fun e _ => hrep, fun index he => by simp at he⟩
      | ok _ =>
        refine ⟨fun e he => by simp at he, ?_⟩
        intro index' hok data
        simp only [Except.ok.injEq] at hok
        subst hok
        obtain ⟨hent, hinn⟩ := evict_entries w index
        have hset := represents_setEntry hrep index ⟨lba, data, true, true, 0⟩
          (by
            intro hv hd
            rw [hclean rfl hv] at hd
            exact (Bool.false_ne_true hd).elim)
          rfl (fun i _ hv => hfresh i hv) (fun hd => by simp at hd)
        apply represents_congr hset
        · simp [setEntry, hinn]
        intro i
        by_cases hi : i = index <;>
          simp [setEntry, update_of_ne, hi, hent]

/-! ## Reads and writes -/

/-- A read keeps the stored sectors and returns the stored bytes when it succeeds. -/
theorem readSector_spec (lba len : ℕ) : Represents (c.readSector lba len).2 sectors ∧
      ∀ sector, (c.readSector lba len).1 = .ok sector → sector = sectors lba := by
  unfold readSector
  split
  · exact ⟨h, fun s hs => by simp at hs⟩
  split
  · exact ⟨h, fun s hs => by simp at hs⟩
  split
  · rename_i hN
    subst hN
    have hinner := contents_read c.inner lba len
    refine ⟨represents_congr h hinner fun i => i.elim0, ?_⟩
    intro sector hok
    rw [read_ok c.inner lba len sector hok]
    exact h.backed lba fun i => i.elim0
  · rename_i hN
    have : NeZero N := ⟨hN⟩
    obtain ⟨hrep, hentry⟩ := load_spec h lba
    simp only
    cases hload : c.load lba with
    | mk result c' =>
      rw [hload] at hrep hentry
      cases result with
      | error e => exact ⟨hrep, fun s hs => by simp at hs⟩
      | ok index =>
        refine ⟨hrep, ?_⟩
        intro sector hok
        simp only [Except.ok.injEq] at hok
        obtain ⟨hv, hl⟩ := hentry index rfl
        rw [← hok, hrep.cached index hv, hl]

/-- A successful write updates exactly the stored sector; a failed one changes nothing. -/
theorem writeSector_spec (lba : ℕ) (bytes : List UInt8) :
    ((c.writeSector lba bytes).1 = .ok () → Represents (c.writeSector lba bytes).2
      (update sectors lba (Buffer.ofList bytes))) ∧
      ∀ e, (c.writeSector lba bytes).1 = .error e →
        Represents (c.writeSector lba bytes).2 sectors := by
  unfold writeSector
  split
  · exact ⟨fun hs => by simp at hs, fun e _ => h⟩
  split
  · exact ⟨fun hs => by simp at hs, fun e _ => h⟩
  split
  · exact ⟨fun hs => by simp at hs, fun e _ => h⟩
  split
  · rename_i hN
    subst hN
    constructor
    · intro hok
      have hstored := write_ok c.inner lba bytes hok
      refine ⟨fun i => i.elim0, fun i => i.elim0, ?_⟩
      intro lba' _
      rw [show contents (BlockDevice.writeSector c.inner lba bytes).2 lba' =
        update (contents c.inner) lba (Buffer.ofList bytes) lba' by rw [hstored]]
      by_cases hl : lba' = lba
      · subst hl
        simp
      · rw [update_of_ne hl, update_of_ne hl]
        exact h.backed lba' fun i => i.elim0
    · intro e he
      have hsame := write_error c.inner lba bytes e he
      exact represents_congr h hsame fun i => i.elim0
  · rename_i hN
    have : NeZero N := ⟨hN⟩
    obtain ⟨herror, hok⟩ := reserve_spec h lba
    simp only
    cases hres : c.reserve lba with
    | mk result c' =>
      rw [hres] at herror hok
      cases result with
      | error e => exact ⟨fun hs => by simp at hs, fun e' _ => herror e rfl⟩
      | ok index =>
        exact ⟨fun _ => represents_touch (hok index rfl (Buffer.ofList bytes)) index,
          fun e he => by simp at he⟩

end Represents

end CachedDevice

end WovenHat.BlockCache
