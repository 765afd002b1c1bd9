import WovenHat.Model.Paging.UserCopy

/-! # What the user copies access, and how they end

A pass panics exactly at an address that is not canonical, so a call that is given a range
of canonical addresses ends with a result unless its faults are resolved again and again. -/

namespace WovenHat.Paging.UserCopy

open Tables

/-! ## One pass -/

/-- What a chunk of a copy is: the next bytes of the range, in a frame to which the tables
map them for the user, writable if the copy writes. -/
structure Access (writing : Bool) (t : Tables) (start length copied : ℕ) (chunk : Chunk) :
    Prop where
  virtual : chunk.virtual = start + copied
  virtual_lt : start + copied < 2 ^ 64
  count_le : chunk.count ≤ length - copied
  count_pos : copied < length → 0 < chunk.count
  mapped : ∃ frame size offset flags, t.translate chunk.virtual = .mapped frame size offset flags ∧
    chunk.physical = frame + offset ∧ offset + chunk.count ≤ size ∧
    flags.userAccessible = true ∧ (writing = true → flags.writable = true)

structure PassSpec (writing : Bool) (pass : Tables → ℕ → ℕ → ℕ → Pass) : Prop where
  panic_iff : ∀ t start length copied, pass t start length copied = .panic ↔
    t.mapperFor = true ∧ start + copied < 2 ^ 64 ∧ ¬Canonical (start + copied)
  access : ∀ t start length copied chunk, pass t start length copied = .copied chunk →
    Access writing t start length copied chunk

namespace Tables

variable {t : Tables} {start length copied virtualAddress remaining physical count : ℕ}
  {flags : Flags} {a b c : ℕ}

theorem checkedAdd_eq_some : checkedAdd a b = some c ↔ a + b < 2 ^ 64 ∧ a + b = c := by
  unfold checkedAdd
  split
  · rename_i hlt
    exact ⟨fun h => ⟨hlt, Option.some.inj h⟩, fun h => congrArg some h.2⟩
  · rename_i hle
    exact iff_of_false nofun fun h => hle h.1

theorem checkedAdd_eq_none : checkedAdd a b = none ↔ 2 ^ 64 ≤ a + b := by
  unfold checkedAdd
  split
  · rename_i hlt
    exact iff_of_false nofun (not_le.mpr hlt)
  · rename_i hle
    exact iff_of_true rfl (not_lt.mp hle)

theorem translatedChunk_panic_iff :
    t.translatedChunk virtualAddress remaining = .panic ↔ ¬Canonical virtualAddress := by
  unfold translatedChunk
  split
  · rename_i hcanonical
    refine iff_of_false ?_ (not_not.mpr hcanonical)
    split
    · split <;> exact nofun
    · exact nofun
    · exact nofun
  · rename_i hcanonical
    exact iff_of_true rfl hcanonical

/-- The chunk lies in the frame to which its first address is mapped. -/
theorem translatedChunk_mapped
    (h : t.translatedChunk virtualAddress remaining = .chunk physical count flags) :
    count ≤ remaining ∧ (0 < remaining → 0 < count) ∧
      ∃ frame size offset, t.translate virtualAddress = .mapped frame size offset flags ∧
        physical = frame + offset ∧ offset + count ≤ size := by
  unfold translatedChunk at h
  split at h
  · split at h
    · rename_i frame size offset flags' htranslate
      split at h
      · rename_i physical' hadd
        cases h
        have hoff := offset.isLt
        refine ⟨min_le_right _ _, fun hpos => lt_min (Nat.sub_pos_of_lt hoff) hpos,
          frame, size, offset, htranslate, (checkedAdd_eq_some.mp hadd).2.symm, ?_⟩
        have hmin := min_le_left (size - offset) remaining
        omega
      · cases h
    · cases h
    · cases h
  · cases h

/-- The common part of both passes: what is left to look at is a chunk or an error. -/
theorem access_of_translatedChunk {writing : Bool}
    (hadd : checkedAdd start copied = some virtualAddress)
    (h : t.translatedChunk virtualAddress (length - copied) = .chunk physical count flags)
    (huser : flags.userAccessible = true) (hwritable : writing = true → flags.writable = true) :
    Access writing t start length copied ⟨virtualAddress, physical, count⟩ := by
  obtain ⟨hlt, rfl⟩ := checkedAdd_eq_some.mp hadd
  obtain ⟨hle, hpos, frame, size, offset, htranslate, hphysical, hsize⟩ := translatedChunk_mapped h
  exact ⟨rfl, hlt, hle, fun hcopied => hpos (Nat.sub_pos_of_lt hcopied),
    frame, size, offset, flags, htranslate, hphysical, hsize, huser, hwritable⟩

/-- The part that both passes share: what is left to a pass is the check of the flags. -/
def passWith (t : Tables) (start length copied : ℕ) (write : Bool)
    (check : ℕ → ℕ → ℕ → Flags → Pass) : Pass :=
  if !t.mapperFor then .error .notMapped
  else
    match checkedAdd start copied with
    | none => .error .addressOverflow
    | some virtualAddress =>
      match t.translatedChunk virtualAddress (length - copied) with
      | .panic => .panic
      | .error .notMapped =>
        if t.tryHandleFileFault virtualAddress write then .retry else .error .notMapped
      | .error e => .error e
      | .chunk physical count flags => check virtualAddress physical count flags

variable {check : ℕ → ℕ → ℕ → Flags → Pass}

theorem passWith_panic_iff {write : Bool} (hcheck : ∀ virtualAddress physical count flags,
      check virtualAddress physical count flags ≠ .panic) :
    t.passWith start length copied write check = .panic ↔
      t.mapperFor = true ∧ start + copied < 2 ^ 64 ∧ ¬Canonical (start + copied) := by
  unfold passWith
  cases hmapper : t.mapperFor with
  | false => exact iff_of_false nofun nofun
  | true =>
    cases hadd : checkedAdd start copied with
    | none =>
      have hle := checkedAdd_eq_none.mp hadd
      exact iff_of_false nofun fun h => not_le.mpr h.2.1 hle
    | some virtualAddress =>
      obtain ⟨hlt, rfl⟩ := checkedAdd_eq_some.mp hadd
      have hpanic : t.translatedChunk (start + copied) (length - copied) = .panic ↔
          ¬Canonical (start + copied) := translatedChunk_panic_iff
      rw [← hpanic]
      simp only [Bool.not_true, Bool.false_eq_true, if_false, true_and, hlt]
      cases htranslated : t.translatedChunk (start + copied) (length - copied) with
      | panic => exact iff_of_true rfl rfl
      | error e =>
        refine iff_of_false ?_ nofun
        cases e with
        | notMapped => show ite _ _ _ ≠ _; split <;> exact nofun
        | addressOverflow => exact nofun
        | permissionDenied => exact nofun
      | chunk physical count flags => exact iff_of_false (hcheck _ _ _ _) nofun

theorem passWith_copied {write : Bool} {chunk : Chunk}
    (h : t.passWith start length copied write check = .copied chunk) :
    ∃ virtualAddress physical count flags, checkedAdd start copied = some virtualAddress ∧
      t.translatedChunk virtualAddress (length - copied) = .chunk physical count flags ∧
      check virtualAddress physical count flags = .copied chunk := by
  unfold passWith at h
  split at h
  · cases h
  split at h
  · cases h
  rename_i virtualAddress hadd
  split at h
  · cases h
  · split at h <;> cases h
  · cases h
  · rename_i physical count flags hchunk
    exact ⟨virtualAddress, physical, count, flags, hadd, hchunk, h⟩

theorem copyToPass_spec : PassSpec true copyToPass := by
  refine ⟨fun t start length copied => passWith_panic_iff fun _ _ _ _ => ?_,
    fun t start length copied chunk h => ?_⟩
  · split_ifs
    · exact nofun
    · exact nofun
    · exact nofun
    · split <;> exact nofun
  · obtain ⟨virtualAddress, physical, count, flags, hadd, hchunk, hcheck⟩ := passWith_copied h
    split_ifs at hcheck with huser hwritable
    split at hcheck
    · cases hcheck
    cases hcheck
    exact access_of_translatedChunk hadd hchunk (by simpa using huser)
      fun _ => by simpa using hwritable

theorem copyPass_spec (requireWritable : Bool) :
    PassSpec requireWritable (copyPass requireWritable) := by
  refine ⟨fun t start length copied => passWith_panic_iff fun _ _ _ _ => ?_,
    fun t start length copied chunk h => ?_⟩
  · split_ifs
    · exact nofun
    · split <;> exact nofun
  obtain ⟨virtualAddress, physical, count, flags, hadd, hchunk, hcheck⟩ := passWith_copied h
  split_ifs at hcheck with hflags
  split at hcheck
  · cases hcheck
  cases hcheck
  simp only [Bool.or_eq_true, Bool.not_eq_true', Bool.and_eq_true, not_or, not_and,
    Bool.not_eq_false] at hflags
  exact access_of_translatedChunk hadd hchunk hflags.1 hflags.2

end Tables

/-! ## Calls -/

variable {writing : Bool} {pass : Tables → ℕ → ℕ → ℕ → Pass} {start length : ℕ}
  {tables : ℕ → Tables}

structure Call.Ok (writing : Bool) (start length : ℕ) (tables : ℕ → Tables) (passes : ℕ)
    (c : Call) : Prop where
  accesses : ∀ chunk ∈ c.chunks, ∃ pass copied,
    copied + chunk.count ≤ length ∧ Access writing (tables pass) start length copied chunk
  running : c.outcome = none → c.copied < length ∧ passes ≤ c.copied + c.resolved
  panicked : c.outcome = some .panic → ∃ i < length, start + i < 2 ^ 64 ∧ ¬Canonical (start + i)

theorem Call.ok_begin : (begin length).Ok writing start length tables 0 := by
  unfold begin test
  split
  · rename_i hlt
    exact ⟨nofun, fun _ => ⟨hlt, Nat.zero_le _⟩, nofun⟩
  · exact ⟨nofun, nofun, nofun⟩

theorem ok_run (hpass : PassSpec writing pass) (passes : ℕ) :
    (run pass start length tables passes).Ok writing start length tables passes := by
  induction passes with
  | zero => exact Call.ok_begin
  | succ passes ih =>
    rw [run]
    generalize run pass start length tables passes = c at ih
    cases houtcome : c.outcome with
    | some outcome =>
      exact ⟨ih.accesses, fun h => (nomatch houtcome.symm.trans h), ih.panicked⟩
    | none =>
      obtain ⟨hlt, hle⟩ := ih.running houtcome
      show (c.next length _).Ok writing start length tables (passes + 1)
      cases hres : pass (tables passes) start length c.copied with
      | copied chunk =>
        have haccess := hpass.access _ _ _ _ _ hres
        have hcount := haccess.count_le
        have hpos := haccess.count_pos hlt
        have haccesses : ∀ other ∈ chunk :: c.chunks, ∃ pass copied,
            copied + other.count ≤ length ∧
              Access writing (tables pass) start length copied other := by
          intro other hother
          rcases List.mem_cons.mp hother with rfl | hother
          · exact ⟨passes, c.copied, by omega, haccess⟩
          · exact ih.accesses other hother
        rw [Call.next, Call.test]
        split
        · rename_i hmore
          refine ⟨haccesses, fun _ => ⟨hmore, ?_⟩, fun h => (nomatch houtcome.symm.trans h)⟩
          show passes + 1 ≤ c.copied + chunk.count + c.resolved
          omega
        · exact ⟨haccesses, nofun, nofun⟩
      | retry =>
        refine ⟨ih.accesses, fun _ => ⟨hlt, ?_⟩, ih.panicked⟩
        show passes + 1 ≤ c.copied + (c.resolved + 1)
        omega
      | error e => exact ⟨ih.accesses, nofun, nofun⟩
      | panic =>
        obtain ⟨_, hbound, hcanonical⟩ := (hpass.panic_iff _ _ _ _).mp hres
        exact ⟨ih.accesses, nofun, fun _ => ⟨c.copied, hlt, hbound, hcanonical⟩⟩

end WovenHat.Paging.UserCopy
