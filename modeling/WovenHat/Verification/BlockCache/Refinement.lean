import WovenHat.Verification.BlockCache.Operations

/-! # The cache refines a plain sector store

The operations of the cache, taken over any sequence of calls and over a device that
may fail any of them. -/

namespace WovenHat.BlockCache

open Library Block BlockDevice CachedDevice LawfulBlockDevice

variable {D : Type} {N : ℕ} [BlockDevice D] [LawfulBlockDevice D]

open LawfulBlockDevice (contents)

/-! ## Runs -/

variable {sectors : ℕ → Sector} {c : CachedDevice D N}

theorem represents_serve (h : Represents c sectors) (request : Request) :
    Represents (serve c request).2 (applyLogged sectors (request, (serve c request).1)) := by
  cases request with
  | read lba len => exact (readSector_spec h lba len).1
  | flush => exact (flush_spec h).1
  | write lba bytes =>
    obtain ⟨hok, herror⟩ := writeSector_spec h lba bytes
    simp only [serve]
    cases hres : (c.writeSector lba bytes).1 with
    | error e => exact herror e hres
    | ok _ => exact hok hres

/-- Any run keeps the abstraction relation, with the last successful writes as the
stored sectors. -/
theorem represents_run (h : Represents c sectors) (requests : List Request) :
    Represents (run c requests).2 (lastWritten sectors (run c requests).1) := by
  induction requests generalizing c sectors with
  | nil => exact h
  | cons request rest ih => exact ih (represents_serve h request)

/-! ## The logical contents -/

/-- The contents a client sees: the cached bytes of a sector, else those of the device. -/
def logical (c : CachedDevice D N) (lba : ℕ) : Sector :=
  match c.find lba with
  | some index => (c.entries index).data
  | none => contents c.inner lba

theorem logical_eq (h : Represents c sectors) : logical c = sectors := by
  funext lba
  unfold logical
  cases hfind : c.find lba with
  | some index =>
    obtain ⟨hv, hl⟩ := find_some hfind
    simp only
    rw [h.cached index hv, hl]
  | none => exact h.backed lba fun i hv _ => find_none hfind i hv

theorem logical_serve_error (h : Represents c sectors) (request : Request) (e : Error)
    (herror : (serve c request).1 = .error e) : logical (serve c request).2 = logical c := by
  have hnext := represents_serve h request
  have hsame : applyLogged sectors (request, (serve c request).1) = sectors := by
    rw [herror]
    cases request <;> rfl
  rw [hsame] at hnext
  rw [logical_eq hnext, logical_eq h]

omit [LawfulBlockDevice D] in
theorem flush_of_clean (hclean : ∀ i, (c.entries i).valid → (c.entries i).dirty = false) :
    c.flush = ((flush c.inner).1, { c with inner := (flush c.inner).2 }) := by
  unfold CachedDevice.flush
  rw [writeBackAll_of_clean c hclean]

/-- The cache refines a plain sector store. After any calls on a fresh cache over a
device that may fail any of them: a successful read returns the last successful write
to its sector, a failed call leaves the logical contents alone, no sector is cached
twice, and a successful flush leaves the inner device holding the logical contents
with nothing dirty, so that the next flush writes no sector. -/
theorem cachedDevice_refines (N : ℕ) (device : D) (requests : List Request) :
    let log := (run (new N device) requests).1
    let c := (run (new N device) requests).2
    logical c = lastWritten (contents device) log ∧
    (∀ lba len sector, (c.readSector lba len).1 = .ok sector →
      sector = lastWritten (contents device) log lba) ∧
    (∀ request e, (serve c request).1 = .error e → logical (serve c request).2 = logical c) ∧
    (∀ i j, (c.entries i).valid → (c.entries j).valid →
      (c.entries i).lba = (c.entries j).lba → i = j) ∧
    ∀ c', c.flush = (.ok (), c') →
      contents c'.inner = lastWritten (contents device) log ∧
      (∀ i, (c'.entries i).valid → (c'.entries i).dirty = false) ∧
      c'.flush = ((flush c'.inner).1,
        { c' with inner := (flush c'.inner).2 }) := by
  intro log c
  have h : Represents c (lastWritten (contents device) log) :=
    represents_run (represents_new device) requests
  refine ⟨logical_eq h, ?_, fun request e => logical_serve_error h request e, h.unique, ?_⟩
  · intro lba len sector hok
    exact (readSector_spec h lba len).2 sector hok
  intro c' hflush
  obtain ⟨-, hclean⟩ := flush_spec h
  rw [hflush] at hclean
  obtain ⟨hcontents, hnone⟩ := hclean rfl
  exact ⟨hcontents, hnone, flush_of_clean hnone⟩

/-- The fault probe only ever changes its disk through a successful write. -/
instance : LawfulBlockDevice Probe where
  contents p := contents p.disk
  contents_flush _ := rfl
  contents_read p lba len := by
    simp only [BlockDevice.readSector]
    split <;> rfl
  read_ok p lba len sector h := by
    simp only [BlockDevice.readSector] at h
    split at h
    · simp at h
    · exact read_ok p.disk lba len sector h
  write_ok p lba bytes h := by
    simp only [BlockDevice.writeSector] at h ⊢
    split at h
    · simp at h
    rename_i hfail
    simp only [hfail]
    exact write_ok p.disk lba bytes h
  write_error p lba bytes e h := by
    simp only [BlockDevice.writeSector] at h ⊢
    split at h
    · simp [*]
    rename_i hfail
    simp only [hfail]
    exact write_error p.disk lba bytes e h

set_option maxRecDepth 4000 in
/-- The probe fails every write-back: the read of sector 1 cannot evict sector 0 and
fails, and sector 0 still reads as it was written. -/
theorem cachedDevice_refines_probe :
    let bytes := List.replicate 512 7
    let c := (run (new 1 { Probe.new with failWrite := true })
      [.write 0 bytes, .read 1 512]).2
    (c.readSector 1 512).1 = .error .deviceFault ∧
      ∀ sector, (c.readSector 0 512).1 = .ok sector → sector = Buffer.ofList bytes := by
  intro bytes c
  refine ⟨rfl, ?_⟩
  intro sector hok
  obtain ⟨-, hread, -⟩ := cachedDevice_refines 1 { Probe.new with failWrite := true }
    [.write 0 bytes, .read 1 512]
  exact hread 0 512 sector hok

end WovenHat.BlockCache
