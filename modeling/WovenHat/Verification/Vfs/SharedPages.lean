import WovenHat.Verification.Vfs.SharedMappings

/-! # The pages of a file in the cache

A byte of a file in memory lives in the data of its node and in the cached page that the shared
mappings use. `read_at` prefers the page, up to the number of bytes that the page had when it
was loaded or that were written since. -/

namespace WovenHat.Vfs

open Library List Option Buffer Function

namespace FileFrames

variable {f f' : FileFrames} {node : NodeId} {generation : ℕ}

/-! ## The cache -/

/-- The entries of the cache: whole pages of files, each frame once, and each page once among
those that shared mappings use. Entries of private mappings may be there, too. -/
structure Ok (f : FileFrames) : Prop where
  distinct : f.Distinct
  aligned : ∀ c e, f.cache c = some e → 4096 ∣ e.key.offset
  plain : ∀ c e, f.cache c = some e → e.key.shared = true → e.key.version = 0 ∧ e.key.snapshot = 0
  short : ∀ c e, f.cache c = some e → e.key.count ≤ 4096
  single : ∀ c c' e e', f.cache c = some e → f.cache c' = some e' → e.key.shared = true →
    e'.key.shared = true → e.key.node = e'.key.node → e.key.generation = e'.key.generation →
      e.key.offset = e'.key.offset → c = c'

structure SamePage (e e' : FrameEntry) : Prop where
  frame : e'.frame = e.frame
  offset : e'.key.offset = e.key.offset
  node : e'.key.node = e.key.node
  generation : e'.key.generation = e.key.generation
  shared : e'.key.shared = e.key.shared
  version : e'.key.version = e.key.version
  snapshot : e'.key.snapshot = e.key.snapshot

theorem SamePage.refl (e : FrameEntry) : SamePage e e :=
  ⟨rfl, rfl, rfl, rfl, rfl, rfl, rfl⟩

variable {e : FrameEntry} {n : ℕ}

theorem SamePage.trans {e' e'' : FrameEntry} (h : SamePage e e') (h' : SamePage e' e'') :
    SamePage e e'' :=
  ⟨h'.frame.trans h.frame, h'.offset.trans h.offset, h'.node.trans h.node,
    h'.generation.trans h.generation, h'.shared.trans h.shared, h'.version.trans h.version,
    h'.snapshot.trans h.snapshot⟩

variable {e' : FrameEntry}

theorem SamePage.shared_iff (h : SamePage e e') :
    Shared node generation e' ↔ Shared node generation e := by
  rw [Shared, Shared, h.shared, h.node, h.generation]

theorem Ok.of_sub (h : f.Ok) (hsub : ∀ c e', f'.cache c = some e' →
    e'.key.count ≤ 4096 ∧ ∃ e, f.cache c = some e ∧ SamePage e e') : f'.Ok := by
  refine ⟨fun c c' e e' he he' hframe => ?_, fun c e he => ?_, fun c e he => ?_,
    fun c e he => (hsub c e he).1,
    fun c c' e e' he he' hshared hshared' hnode hgen hoff => ?_⟩
  · obtain ⟨-, e₀, he₀, hsame⟩ := hsub c e he
    obtain ⟨-, e₀', he₀', hsame'⟩ := hsub c' e' he'
    rw [hsame.frame, hsame'.frame] at hframe
    exact h.distinct c c' e₀ e₀' he₀ he₀' hframe
  · obtain ⟨-, e₀, he₀, hsame⟩ := hsub c e he
    rw [hsame.offset]
    exact h.aligned c e₀ he₀
  · obtain ⟨-, e₀, he₀, hsame⟩ := hsub c e he
    rw [hsame.shared, hsame.version, hsame.snapshot]
    exact h.plain c e₀ he₀
  obtain ⟨-, e₀, he₀, hsame⟩ := hsub c e he
  obtain ⟨-, e₀', he₀', hsame'⟩ := hsub c' e' he'
  rw [hsame.shared] at hshared
  rw [hsame'.shared] at hshared'
  rw [hsame.node, hsame'.node] at hnode
  rw [hsame.generation, hsame'.generation] at hgen
  rw [hsame.offset, hsame'.offset] at hoff
  exact h.single c c' e₀ e₀' he₀ he₀' hshared hshared' hnode hgen hoff

/-! ## What readers see -/

/-- The byte at a position that `read_from` returns for a node with this data. -/
def byteAt {n : ℕ} (f : FileFrames) (node : NodeId) (generation : ℕ) (data : Buffer n) (p : ℕ) :
    UInt8 :=
  (f.overlay node generation p [data.get p]).getD 0 0

def Covers (e : FrameEntry) (p : ℕ) : Prop :=
  e.key.offset ≤ p ∧ p < e.key.offset + e.key.count

theorem overlayEntry_single (f : FileFrames) (e : FrameEntry) (p : ℕ) (b : UInt8) :
    (Covers e p → f.overlayEntry p [b] e = [(f.page e.frame).get (p - e.key.offset)]) ∧
      (¬Covers e p → f.overlayEntry p [b] e = [b]) := by
  unfold overlayEntry Covers
  constructor
  · rintro ⟨hlow, hhigh⟩
    have hstart : max p e.key.offset = p := by omega
    have hstop : min (p + 1) (e.key.offset + e.key.count) = p + 1 := by omega
    simp [hstart, hstop, slice]
  · intro hout
    rw [if_neg]
    simp only [length_singleton]
    omega

theorem mem_sharedEntries :
    e ∈ f.sharedEntries node generation ↔ ∃ c, f.cache c = some e ∧ Shared node generation e := by
  simp only [sharedEntries, mem_filter, mem_filterMap, mem_finRange, true_and, Shared]
  constructor
  · rintro ⟨⟨c, hc⟩, hshared⟩
    exact ⟨c, hc, hshared⟩
  · rintro ⟨c, hc, hshared⟩
    exact ⟨⟨c, hc⟩, hshared⟩

theorem Ok.covers_eq (h : f.Ok) {p : ℕ} {c c' : Fin 64}
    (hc : f.cache c = some e) (hshared : Shared node generation e) (hlow : e.key.offset ≤ p)
    (hhigh : p < e.key.offset + 4096) (hc' : f.cache c' = some e')
    (hshared' : Shared node generation e') (hcovers : Covers e' p) : e' = e := by
  have hshort := h.short c' e' hc'
  obtain ⟨a, ha⟩ := h.aligned c e hc
  obtain ⟨a', ha'⟩ := h.aligned c' e' hc'
  obtain ⟨hlow', hhigh'⟩ := hcovers
  simp only [Shared, Bool.and_eq_true, beq_iff_eq] at hshared hshared'
  obtain rfl : c' = c := h.single c' c e' e hc' hc hshared'.1.1 hshared.1.1
    (hshared'.1.2.trans hshared.1.2.symm) (hshared'.2.trans hshared.2.symm) (by omega)
  exact some.inj (hc'.symm.trans hc)

variable {data : Buffer n}

theorem byteAt_covered {p : ℕ} {c : Fin 64} (h : f.Ok)
    (hc : f.cache c = some e) (hshared : Shared node generation e) (hcovers : Covers e p) :
    f.byteAt node generation data p = (f.page e.frame).get (p - e.key.offset) := by
  have hfold : ∀ (entries : List FrameEntry) (b x : UInt8),
      (∀ e ∈ entries, Covers e p → (f.page e.frame).get (p - e.key.offset) = x) →
      (b = x ∨ ∃ e ∈ entries, Covers e p) → entries.foldl (f.overlayEntry p) [b] = [x] := by
    intro entries
    induction entries with
    | nil =>
      rintro b x - (rfl | ⟨e, he, -⟩)
      · rfl
      · cases he
    | cons e entries ih =>
      intro b x hall hsome
      rw [foldl_cons]
      by_cases he : Covers e p
      · rw [(f.overlayEntry_single e p b).1 he, hall e mem_cons_self he]
        exact ih x x (fun e' he' => hall e' (mem_cons_of_mem _ he')) (.inl rfl)
      rw [(f.overlayEntry_single e p b).2 he]
      refine ih b x (fun e' he' => hall e' (mem_cons_of_mem _ he')) ?_
      obtain hb | ⟨e', he', hcov⟩ := hsome
      · exact .inl hb
      obtain rfl | he' := mem_cons.mp he'
      · exact absurd hcov he
      · exact .inr ⟨e', he', hcov⟩
  rw [byteAt, overlay, hfold _ _ ((f.page e.frame).get (p - e.key.offset)) ?_
    (.inr ⟨e, mem_sharedEntries.mpr ⟨c, hc, hshared⟩, hcovers⟩)]
  · rfl
  intro e' he' hcovers'
  obtain ⟨c', hc', hshared'⟩ := mem_sharedEntries.mp he'
  have hhigh := hcovers.2.trans_le (Nat.add_le_add_left (h.short c e hc) _)
  rw [h.covers_eq hc hshared hcovers.1 hhigh hc' hshared' hcovers']

/-- Readers see the data of the node where no page has the byte. -/
theorem byteAt_uncovered {p : ℕ}
    (h : ∀ c e, f.cache c = some e → Shared node generation e → ¬Covers e p) :
    f.byteAt node generation data p = data.get p := by
  have hfold : ∀ (entries : List FrameEntry) (b : UInt8), (∀ e ∈ entries, ¬Covers e p) →
      entries.foldl (f.overlayEntry p) [b] = [b] := by
    intro entries b hnone
    induction entries with
    | nil => rfl
    | cons e entries ih =>
      rw [foldl_cons, (f.overlayEntry_single e p b).2 (hnone e mem_cons_self)]
      exact ih fun e' he' => hnone e' (mem_cons_of_mem _ he')
  rw [byteAt, overlay, hfold]
  · rfl
  intro e he
  obtain ⟨c, hc, hshared⟩ := mem_sharedEntries.mp he
  exact h c e hc hshared

/-- Every resident page shows what readers see. -/
def Coherent {n : ℕ} (f : FileFrames) (node : NodeId) (generation : ℕ) (data : Buffer n)
    (length : ℕ) : Prop :=
  ∀ c e, f.cache c = some e → Shared node generation e → ∀ q, q < 4096 → e.key.offset + q < length →
    f.byteAt node generation data (e.key.offset + q) = (f.page e.frame).get q

/-- Behind the bytes that a page has, it agrees with the data of the node. -/
def GapOk {n : ℕ} (f : FileFrames) (node : NodeId) (generation : ℕ) (data : Buffer n)
    (length : ℕ) : Prop :=
  ∀ c e, f.cache c = some e → Shared node generation e → ∀ q, e.key.count ≤ q → q < 4096 →
    e.key.offset + q < length → (f.page e.frame).get q = data.get (e.key.offset + q)

variable {length : ℕ}

theorem Ok.coherent_iff (h : f.Ok) :
    f.Coherent node generation data length ↔ f.GapOk node generation data length := by
  -- where a page has no byte of its own, no other page has it
  have houtside : ∀ c e, f.cache c = some e → Shared node generation e → ∀ q, e.key.count ≤ q →
      q < 4096 →
        f.byteAt node generation data (e.key.offset + q) = data.get (e.key.offset + q) := by
    intro c e hc hshared q hcount hq
    refine byteAt_uncovered fun c' e' hc' hshared' hcovers => ?_
    obtain rfl := h.covers_eq hc hshared (Nat.le_add_right _ q) (by omega) hc' hshared' hcovers
    have hhigh := hcovers.2
    omega
  constructor
  · intro hcoherent c e hc hshared q hcount hq hlen
    rw [← hcoherent c e hc hshared q hq hlen, houtside c e hc hshared q hcount hq]
  intro hgap c e hc hshared q hq hlen
  by_cases hcount : q < e.key.count
  · rw [byteAt_covered h hc hshared ⟨Nat.le_add_right _ _, Nat.add_lt_add_left hcount _⟩,
      Nat.add_sub_cancel_left]
  · rw [houtside c e hc hshared q (Nat.not_lt.mp hcount) hq]
    exact (hgap c e hc hshared q (Nat.not_lt.mp hcount) hq hlen).symm

/-! ## What a write does to the pages -/

/-- Behind the end of the file, a byte of a page is zero, or it was there before and behind the
end as well. -/
def TailKept (f f' : FileFrames) (node : NodeId) (generation length length' : ℕ) : Prop :=
  ∀ c e', f'.cache c = some e' → Shared node generation e' → ∀ q, q < 4096 →
    length' ≤ e'.key.offset + q → (f'.page e'.frame).get q = 0 ∨
      length ≤ e'.key.offset + q ∧ ∃ e, f.cache c = some e ∧ SamePage e e' ∧
        (f.page e.frame).get q = (f'.page e'.frame).get q

/-- A change of the data of a file and of cached pages. -/
structure Step {n : ℕ} (f f' : FileFrames) (node : NodeId) (generation : ℕ)
    (data data' : Buffer n) (length length' : ℕ) : Prop where
  gap : f.GapOk node generation data length → f'.GapOk node generation data' length'
  tail : TailKept f f' node generation length length'

section Change

variable {change : FrameEntry → Buffer 4096 → ℕ × Buffer 4096} {node' : NodeId} {generation' : ℕ}

theorem recount_same (f : FileFrames) (node : NodeId) (generation : ℕ)
    (change : FrameEntry → Buffer 4096 → ℕ × Buffer 4096) (e : FrameEntry) :
    SamePage e (f.recount node generation change e) := by
  unfold recount
  split
  · exact ⟨rfl, rfl, rfl, rfl, rfl, rfl, rfl⟩
  · exact .refl e

variable {e : FrameEntry}

theorem recount_count (f : FileFrames) (h : Shared node generation e) :
    (f.recount node generation change e).key.count = (change e (f.page e.frame)).1 := by
  have hcond : (e.key.shared && e.key.node == node && e.key.generation == generation) = true := h
  rw [recount, if_pos hcond]

theorem recount_other (f : FileFrames) (h : ¬Shared node generation e) :
    f.recount node generation change e = e := by
  have hcond : ¬(e.key.shared && e.key.node == node && e.key.generation == generation) = true := h
  rw [recount, if_neg hcond]

variable (h : f.Ok) (hchanged : Changed f f' node' generation' change (finRange 64))
  (hcount : ∀ e page, e.key.count ≤ 4096 → (change e page).1 ≤ 4096)

include hchanged in
theorem Changed.entry {c : Fin 64} (he' : f'.cache c = some e') :
    ∃ e, f.cache c = some e ∧ e' = f.recount node' generation' change e := by
  rw [hchanged.cache c (mem_finRange c)] at he'
  obtain ⟨e, he, rfl⟩ := map_eq_some_iff.mp he'
  exact ⟨e, he, rfl⟩

include hchanged in
theorem Changed.shared_entry {c : Fin 64} (he' : f'.cache c = some e')
    (hshared : Shared node' generation' e') :
    ∃ e, f.cache c = some e ∧ Shared node' generation' e ∧ SamePage e e' ∧
      e'.key.count = (change e (f.page e.frame)).1 ∧
      f'.page e'.frame = (change e (f.page e.frame)).2 := by
  obtain ⟨e, he, rfl⟩ := hchanged.entry he'
  have hsame := recount_same f node' generation' change e
  have hshared' := hsame.shared_iff.mp hshared
  refine ⟨e, he, hshared', hsame, recount_count f hshared', ?_⟩
  rw [hsame.frame]
  exact hchanged.page c (mem_finRange c) e he hshared'

include h hchanged hcount in
theorem Changed.ok : f'.Ok := by
  refine h.of_sub fun c e' he' => ?_
  obtain ⟨e, he, rfl⟩ := hchanged.entry he'
  refine ⟨?_, e, he, recount_same f _ _ _ e⟩
  by_cases hshared : Shared node' generation' e
  · rw [recount_count f hshared]
    exact hcount e _ (h.short c e he)
  · rw [recount_other f hshared]
    exact h.short c e he

include hchanged in
theorem Changed.held (c : Fin 64) (e : FrameEntry) (he : f.cache c = some e) :
    ∃ e', f'.cache c = some e' ∧ SamePage e e' := by
  refine ⟨f.recount node' generation' change e, ?_, recount_same f _ _ _ e⟩
  rw [hchanged.cache c (mem_finRange c), he]
  rfl

include h hchanged in
theorem Changed.step_other (hne : ¬(node' = node ∧ generation' = generation)) {n : ℕ}
    (data : Buffer n) (length : ℕ) : Step f f' node generation data data length length := by
  have hapart : ∀ e, Shared node generation e → ¬Shared node' generation' e := by
    intro e hshared hshared'
    simp only [Shared, Bool.and_eq_true, beq_iff_eq] at hshared hshared'
    exact hne ⟨hshared'.1.2.symm.trans hshared.1.2, hshared'.2.symm.trans hshared.2⟩
  -- the pages of this file and their entries are as before
  have hsame : ∀ c e', f'.cache c = some e' → Shared node generation e' →
      f.cache c = some e' ∧ f'.page e'.frame = f.page e'.frame := by
    intro c e' he' hshared
    obtain ⟨e, he, rfl⟩ := hchanged.entry he'
    have hshared' := (recount_same f _ _ _ e).shared_iff.mp hshared
    rw [recount_other f (hapart e hshared')]
    refine ⟨he, hchanged.other e.frame fun c₀ _ e₀ he₀ hshared₀ heq => ?_⟩
    obtain rfl := h.distinct c₀ c e₀ e he₀ he heq
    obtain rfl : e₀ = e := some.inj (he₀.symm.trans he)
    exact hapart e₀ hshared' hshared₀
  refine ⟨fun hgap c e' he' hshared q hq => ?_, fun c e' he' hshared q hq hlen => ?_⟩
  · obtain ⟨he, hpage⟩ := hsame c e' he' hshared
    rw [hpage]
    exact hgap c e' he hshared q hq
  · obtain ⟨he, hpage⟩ := hsame c e' he' hshared
    exact .inr ⟨hlen, e', he, .refl e', by rw [hpage]⟩

end Change

variable {offset : ℕ} {bytes : List UInt8} {unused : ℕ → Bool}

theorem updateChange_count (e : FrameEntry) (page : Buffer 4096)
    (h : e.key.count ≤ 4096) : (updateChange offset bytes e page).1 ≤ 4096 := by
  unfold updateChange
  dsimp only
  split <;> omega

variable {q n : ℕ}

/-- Behind the count that it leaves, `update` changes no byte of a page, and none that is
written lies there. -/
theorem updateChange_behind (e : FrameEntry) (page : Buffer 4096)
    (hq : q < 4096) (hcount : (updateChange offset bytes e page).1 ≤ q) :
    ((updateChange offset bytes e page).2).get q = page.get q ∧ e.key.count ≤ q ∧
      (e.key.offset + q < offset ∨ offset + bytes.length ≤ e.key.offset + q) := by
  unfold updateChange at hcount ⊢
  dsimp only at hcount ⊢
  generalize hnew : (if offset < e.key.offset + 4096 ∧ offset + bytes.length > e.key.offset then
    max e.key.count (min (offset + bytes.length - e.key.offset) 4096) else e.key.count) = count
    at hcount ⊢
  have hle : e.key.count ≤ count := by
    rw [← hnew]
    split <;> omega
  refine ⟨?_, by omega, ?_⟩
  · split
    · rw [get_write, if_neg]
      simp only [length_drop, length_take]
      omega
    · rfl
  · split at hnew <;> omega

/-- Behind the end of the file after the write, `update` changes no byte. -/
theorem updateChange_tail (e : FrameEntry) (page : Buffer 4096)
    (hq : offset + bytes.length ≤ e.key.offset + q) :
    ((updateChange offset bytes e page).2).get q = page.get q := by
  unfold updateChange
  dsimp only
  generalize (if offset < e.key.offset + 4096 ∧ offset + bytes.length > e.key.offset then
    max e.key.count (min (offset + bytes.length - e.key.offset) 4096) else e.key.count) = count
  split
  · rw [get_write, if_neg]
    simp only [length_drop, length_take]
    omega
  · rfl

/-- A write to the file itself, not behind its end. -/
theorem Ok.step_update (h : f.Ok) (data : Buffer n) (bytes : List UInt8) (hoff : offset ≤ length) :
    Step f (f.update node generation offset bytes) node generation data (data.write offset bytes)
      length (max length (offset + bytes.length)) := by
  have hchanged := update_changed h.distinct node generation offset bytes
  refine ⟨fun hgap c e' he' hshared q hcount hq hlen => ?_, fun c e' he' hshared q hq hlen => ?_⟩
  · obtain ⟨e, he, hshared', hsame, hnew, hpage⟩ := hchanged.shared_entry he' hshared
    rw [hnew] at hcount
    rw [hsame.offset] at hlen ⊢
    obtain ⟨hkept, hold, hrange⟩ := updateChange_behind e (f.page e.frame) hq hcount
    rw [hpage, hkept, get_write, if_neg (by omega)]
    exact hgap c e he hshared' q hold hq (by omega)
  · obtain ⟨e, he, -, hsame, -, hpage⟩ := hchanged.shared_entry he' hshared
    rw [hsame.offset] at hlen ⊢
    refine .inr ⟨by omega, e, he, hsame, ?_⟩
    rw [hpage, updateChange_tail e (f.page e.frame) (by omega)]

def replaceChange (bytes : List UInt8) (e : FrameEntry) (_ : Buffer 4096) : ℕ × Buffer 4096 :=
  let count := min (bytes.length - e.key.offset) 4096
  (count, zero.write 0 ((bytes.drop e.key.offset).take count))

theorem replace_changed (h : f.Ok) (node : NodeId) (generation : ℕ) (bytes : List UInt8) :
    Changed f (f.replace node generation bytes) node generation (replaceChange bytes)
      (finRange 64) :=
  mapShared_changed h.distinct

/-- The pages of a file are zero behind `length` bytes. -/
def ZeroFrom (f : FileFrames) (node : NodeId) (generation length : ℕ) : Prop :=
  ∀ c e, f.cache c = some e → Shared node generation e → ∀ q, q < 4096 →
    length ≤ e.key.offset + q → (f.page e.frame).get q = 0

/-- The file is replaced: behind its new end the pages are zero. -/
theorem Ok.step_replace (h : f.Ok) (data data' : Buffer n) (length : ℕ) (bytes : List UInt8) :
    Step f (f.replace node generation bytes) node generation data data' length bytes.length ∧
      (f.replace node generation bytes).ZeroFrom node generation bytes.length := by
  have hchanged := replace_changed h node generation bytes
  have hzero : (f.replace node generation bytes).ZeroFrom node generation bytes.length := by
    intro c e' he' hshared q hq hlen
    obtain ⟨e, -, -, hsame, -, hpage⟩ := hchanged.shared_entry he' hshared
    rw [hsame.offset] at hlen
    rw [hpage, replaceChange, get_write, if_neg, get_zero]
    simp only [length_take, length_drop]
    omega
  refine ⟨⟨fun _ c e' he' hshared q hcount hq hlen => ?_, fun c e' he' hshared q hq hlen =>
      .inl (hzero c e' he' hshared q hq hlen)⟩, hzero⟩
  obtain ⟨e, -, -, hsame, hnew, -⟩ := hchanged.shared_entry he' hshared
  rw [hnew, replaceChange] at hcount
  rw [hsame.offset] at hlen
  omega

/-! ## Entries that come and go -/

structure Stays (f f' : FileFrames) (e e' : FrameEntry) : Prop where
  key : e'.key = e.key
  frame : e'.frame = e.frame
  page : f'.page e'.frame = f.page e.frame

theorem Stays.same {e e' : FrameEntry} (h : Stays f f' e e') : SamePage e e' :=
  ⟨h.frame, by rw [h.key], by rw [h.key], by rw [h.key], by rw [h.key], by rw [h.key],
    by rw [h.key]⟩

/-- Entries whose frames are unused may disappear, and new ones come in. -/
structure Renewed (f f' : FileFrames) (unused : ℕ → Bool) (new : FrameEntry → Prop) : Prop where
  ok : f'.Ok
  held : ∀ c e, f.cache c = some e → unused e.frame = false →
    ∃ e', f'.cache c = some e' ∧ SamePage e e'
  entry : ∀ c e', f'.cache c = some e' → (∃ e, f.cache c = some e ∧ Stays f f' e e') ∨ new e'

section Renewed

variable {unused : ℕ → Bool} {new : FrameEntry → Prop}

theorem Ok.renewed (h : f.Ok) (hheld : ∀ c e, f.cache c = some e → unused e.frame = false →
      ∃ e', f'.cache c = some e' ∧ SamePage e e')
    (hentry : ∀ c e', f'.cache c = some e' → ∃ e, f.cache c = some e ∧ Stays f f' e e') :
    Renewed f f' unused new := by
  refine ⟨h.of_sub fun c e' he' => ?_, hheld, fun c e' he' => .inl (hentry c e' he')⟩
  obtain ⟨e, he, hstays⟩ := hentry c e' he'
  exact ⟨hstays.key ▸ h.short c e he, e, he, hstays.same⟩

theorem Renewed.mono {new' : FrameEntry → Prop} (h : Renewed f f' unused new)
    (hnew : ∀ e, new e → new' e) : Renewed f f' unused new' :=
  ⟨h.ok, h.held, fun c e he => (h.entry c e he).imp_right (hnew e)⟩

theorem Renewed.trans {f'' : FileFrames} (h : Renewed f f' unused fun _ => False)
    (h' : Renewed f' f'' unused new) : Renewed f f'' unused new := by
  refine ⟨h'.ok, fun c e he hused => ?_, fun c e'' he'' => ?_⟩
  · obtain ⟨e', he', hsame⟩ := h.held c e he hused
    obtain ⟨e'', he'', hsame'⟩ := h'.held c e' he' (hsame.frame ▸ hused)
    exact ⟨e'', he'', hsame.trans hsame'⟩
  obtain ⟨e', he', hstays'⟩ | hnew := h'.entry c e'' he''
  · obtain ⟨e, he, hstays⟩ | hnew := h.entry c e' he'
    · exact .inl ⟨e, he, hstays'.key.trans hstays.key, hstays'.frame.trans hstays.frame,
        hstays'.page.trans hstays.page⟩
    · exact hnew.elim
  · exact .inr hnew

theorem Renewed.gap (h : Renewed f f' unused new) (hgap : f.GapOk node generation data length)
    (hnew : ∀ c e, f'.cache c = some e → new e → Shared node generation e → ∀ q, e.key.count ≤ q →
      q < 4096 → e.key.offset + q < length →
        (f'.page e.frame).get q = data.get (e.key.offset + q)) :
    f'.GapOk node generation data length := by
  intro c e' he' hshared
  obtain ⟨e, he, hstays⟩ | hnew' := h.entry c e' he'
  · rw [hstays.page, hstays.key]
    exact hgap c e he (hstays.same.shared_iff.mp hshared)
  · exact hnew c e' he' hnew' hshared

theorem Renewed.tail (h : Renewed f f' unused new)
    (hnew : ∀ e, new e → Shared node generation e → ∀ q, q < 4096 →
      length ≤ e.key.offset + q → (f'.page e.frame).get q = 0) :
    TailKept f f' node generation length length := by
  intro c e' he' hshared q hq hlen
  obtain ⟨e, he, hstays⟩ | hnew' := h.entry c e' he'
  · exact .inr ⟨hlen, e, he, hstays.same, by rw [hstays.page]⟩
  · exact .inl (hnew e' hnew' hshared q hq hlen)

theorem Ok.reclaimUnused (h : f.Ok) : Renewed f (f.reclaimUnused unused) unused new := by
  refine h.renewed (fun c e he hused => ⟨e, ?_, .refl e⟩) fun c e' he' => ⟨e', ?_, rfl, rfl, rfl⟩
  · exact filter_eq_some_iff.mpr ⟨he, by rw [hused]; rfl⟩
  · exact (filter_eq_some_iff.mp he').1

theorem Ok.setAges (h : f.Ok) (age : FrameEntry → ℕ) : Renewed f
    { f with cache := fun i => (f.cache i).map fun e => { e with age := age e } } unused new := by
  refine h.renewed
    (fun c e he _ => ⟨{ e with age := age e }, ?_, ⟨rfl, rfl, rfl, rfl, rfl, rfl, rfl⟩⟩)
    fun c e' he' => ?_
  · exact congrArg (Option.map _) he
  · obtain ⟨e, he, rfl⟩ := Option.map_eq_some_iff.mp he'
    exact ⟨e, he, rfl, rfl, rfl⟩

variable {i : Fin 64}

theorem Ok.setAge (h : f.Ok) {e : FrameEntry} (hi : f.cache i = some e) (age : ℕ) :
    Renewed f { f with cache := Function.update f.cache i (some { e with age }) } unused new := by
  refine h.renewed (fun c e' he' _ => ?_) fun c e' he' => ?_
  · by_cases hc : c = i
    · subst hc
      obtain rfl := some.inj (hi.symm.trans he')
      exact ⟨{ e with age }, update_self .., ⟨rfl, rfl, rfl, rfl, rfl, rfl, rfl⟩⟩
    · exact ⟨e', (update_of_ne hc ..).trans he', .refl e'⟩
  · by_cases hc : c = i
    · subst hc
      obtain rfl := Option.some.inj (he'.symm.trans (Function.update_self ..))
      exact ⟨e, hi, rfl, rfl, rfl⟩
    · exact ⟨e', (Function.update_of_ne hc ..).symm.trans he', rfl, rfl, rfl⟩

theorem Ok.drop (h : f.Ok) (hi : ∀ e, f.cache i = some e → unused e.frame = true) :
    Renewed f { f with cache := Function.update f.cache i none } unused new := by
  refine h.renewed (fun c e he hused => ?_) fun c e' he' => ?_
  · have hc : c ≠ i := by
      rintro rfl
      rw [hi e he] at hused
      cases hused
    exact ⟨e, (update_of_ne hc ..).trans he, .refl e⟩
  · by_cases hc : c = i
    · subst hc
      cases (Function.update_self ..).symm.trans he'
    · exact ⟨e', (Function.update_of_ne hc ..).symm.trans he', rfl, rfl, rfl⟩

theorem Ok.load (h : f.Ok) {key : FrameKey} {frame : ℕ} (page : Buffer 4096) (hi : f.cache i = none)
    (hfresh : ∀ c e, f.cache c = some e → e.frame ≠ frame) (haligned : 4096 ∣ key.offset)
    (hshort : key.count ≤ 4096) (hplain : key.version = 0 ∧ key.snapshot = 0)
    (hsingle : ∀ c e, f.cache c = some e → e.key.shared = true → e.key.node = key.node →
      e.key.generation = key.generation → e.key.offset ≠ key.offset) :
    Renewed f ⟨Function.update f.cache i (some ⟨key, frame, 0⟩),
      Function.update f.page frame page⟩ unused (· = ⟨key, frame, 0⟩) := by
  have hcache : ∀ c e, Function.update f.cache i (some ⟨key, frame, 0⟩) c = some e →
      (c = i ∧ e = ⟨key, frame, 0⟩) ∨ (c ≠ i ∧ f.cache c = some e) := by
    intro c e he
    by_cases hc : c = i
    · subst hc
      exact .inl ⟨rfl, some.inj (he.symm.trans (update_self ..))⟩
    · exact .inr ⟨hc, (update_of_ne hc ..).symm.trans he⟩
  refine ⟨⟨fun c c' e e' he he' hframe => ?_, fun c e he => ?_, fun c e he => ?_,
    fun c e he => ?_, fun c c' e e' he he' hshared hshared' hnode hgen hoff => ?_⟩,
    fun c e he _ => ⟨e, ?_, .refl e⟩, fun c e he => ?_⟩
  · obtain ⟨hc, rfl⟩ | ⟨-, hold⟩ := hcache c e he <;>
      obtain ⟨hc', rfl⟩ | ⟨-, hold'⟩ := hcache c' e' he'
    · exact hc.trans hc'.symm
    · exact absurd hframe.symm (hfresh c' e' hold')
    · exact absurd hframe (hfresh c e hold)
    · exact h.distinct c c' e e' hold hold' hframe
  · obtain ⟨-, rfl⟩ | ⟨-, hold⟩ := hcache c e he
    · exact haligned
    · exact h.aligned c e hold
  · obtain ⟨-, rfl⟩ | ⟨-, hold⟩ := hcache c e he
    · exact fun _ => hplain
    · exact h.plain c e hold
  · obtain ⟨-, rfl⟩ | ⟨-, hold⟩ := hcache c e he
    · exact hshort
    · exact h.short c e hold
  · obtain ⟨hc, rfl⟩ | ⟨-, hold⟩ := hcache c e he <;>
      obtain ⟨hc', rfl⟩ | ⟨-, hold'⟩ := hcache c' e' he'
    · exact hc.trans hc'.symm
    · exact absurd hoff.symm (hsingle c' e' hold' hshared' hnode.symm hgen.symm)
    · exact absurd hoff (hsingle c e hold hshared hnode hgen)
    · exact h.single c c' e e' hold hold' hshared hshared' hnode hgen hoff
  · have hc : c ≠ i := by
      rintro rfl
      rw [hi] at he
      cases he
    exact (update_of_ne hc ..).trans he
  · obtain ⟨-, rfl⟩ | ⟨-, hold⟩ := hcache c e he
    · exact .inr rfl
    · exact .inl ⟨e, hold, rfl, rfl, update_of_ne (hfresh c e hold) ..⟩

end Renewed

/-! ## Stores -/

theorem Ok.poke (h : f.Ok) (frame offset : ℕ) (bytes : List UInt8) :
    (f.poke frame offset bytes).Ok :=
  ⟨h.distinct, h.aligned, h.plain, h.short, h.single⟩

theorem get_poke (f : FileFrames) (frame offset : ℕ) (bytes : List UInt8) (other : ℕ)
    (hq : q < 4096) : ((f.poke frame offset bytes).page other).get q =
      if other = frame ∧ offset ≤ q ∧ q < offset + bytes.length then bytes.getD (q - offset) 0
      else (f.page other).get q := by
  by_cases hother : other = frame
  · subst hother
    have hpage : (f.poke other offset bytes).page other = (f.page other).write offset bytes :=
      update_self ..
    rw [hpage, get_write]
    simp only [true_and, hq, and_true]
  · have hpage : (f.poke frame offset bytes).page other = f.page other := update_of_ne hother ..
    rw [hpage, if_neg fun h => hother h.1]

/-- A store keeps the agreement if it changes nothing behind the bytes that the page has. -/
theorem GapOk.poke_iff (hgap : f.GapOk node generation data length) (frame offset : ℕ)
    (bytes : List UInt8) : (f.poke frame offset bytes).GapOk node generation data length ↔
      ∀ c e, f.cache c = some e → Shared node generation e → e.frame = frame →
        ∀ q, offset ≤ q → q < offset + bytes.length → e.key.count ≤ q → q < 4096 →
          e.key.offset + q < length → bytes.getD (q - offset) 0 = (f.page e.frame).get q := by
  constructor
  · intro hpoke c e he hshared hframe q hlow hhigh hcount hq hlen
    have hbyte := hpoke c e he hshared q hcount hq hlen
    rw [get_poke f frame offset bytes e.frame hq, if_pos ⟨hframe, hlow, hhigh⟩] at hbyte
    exact hbyte.trans (hgap c e he hshared q hcount hq hlen).symm
  intro hsame c e he hshared q hcount hq hlen
  rw [get_poke f frame offset bytes e.frame hq]
  split
  · rename_i hstored
    rw [hsame c e he hshared hstored.1 q hstored.2.1 hstored.2.2 hcount hq hlen]
    exact hgap c e he hshared q hcount hq hlen
  · exact hgap c e he hshared q hcount hq hlen

/-! ## The slot of a new page -/

theorem foldl_oldest (slots : List (Fin 64)) (best : Option (Fin 64))
    (hbest : ∀ i, best = some i → ∀ e, f.cache i = some e → unused e.frame = true) :
    ∀ i, slots.foldl (fun best i =>
      match f.cache i with
      | none => best
      | some e =>
        if !unused e.frame then best
        else
          match best.bind f.cache with
          | none => some i
          | some b => if b.age ≤ e.age then some i else best) best = some i →
      ∀ e, f.cache i = some e → unused e.frame = true := by
  induction slots generalizing best with
  | nil => exact hbest
  | cons c slots ih =>
    rw [foldl_cons]
    refine ih _ fun i hi e he => ?_
    have hself : unused e.frame = true ∨ best = some i := by
      split at hi
      · exact .inr hi
      rename_i e₀ he₀
      split at hi
      · exact .inr hi
      rename_i hunused
      have hown : c = i → unused e.frame = true := by
        rintro rfl
        obtain rfl := some.inj (he₀.symm.trans he)
        simpa using hunused
      split at hi
      · exact .inl (hown (some.inj hi))
      split at hi
      · exact .inl (hown (some.inj hi))
      · exact .inr hi
    obtain hunused | hi := hself
    · exact hunused
    · exact hbest i hi e he

/-- The slot of a new page is free, or its page is not in use. -/
theorem slotFor_unused {i : Fin 64} (h : f.slotFor unused = some i) :
    ∀ e, f.cache i = some e → unused e.frame = true := by
  intro e he
  obtain hfind | ⟨-, holdest⟩ := or_eq_some_iff.mp h
  · have hnone := find?_some hfind
    simp [he] at hnone
  · exact foldl_oldest _ none nofun i holdest e he

theorem isSome_foldl {α β : Type} {step : Option α → β → Option α} {l : List β} {best : Option α}
    (hkeep : ∀ best b, best.isSome → (step best b).isSome)
    (h : best.isSome ∨ ∃ b ∈ l, ∀ best, (step best b).isSome) : (l.foldl step best).isSome := by
  induction l generalizing best with
  | nil => simpa using h
  | cons b l ih =>
    refine ih ?_
    obtain h | ⟨b', hb', hstep⟩ := h
    · exact .inl (hkeep _ _ h)
    obtain rfl | hb' := mem_cons.mp hb'
    · exact .inl (hstep _)
    · exact .inr ⟨b', hb', hstep⟩

theorem slotFor_isSome {i : Fin 64} (h : ∀ e, f.cache i = some e → unused e.frame = true) :
    (f.slotFor unused).isSome := by
  rw [slotFor, isSome_or, Bool.or_eq_true]
  cases hi : f.cache i with
  | none => exact .inl (find?_isSome.mpr ⟨i, mem_finRange i, by simp [hi]⟩)
  | some e =>
    refine .inr (isSome_foldl (fun best c hbest => ?_) (.inr ⟨i, mem_finRange i, fun best => ?_⟩))
    · split
      · exact hbest
      split
      · exact hbest
      split
      · rfl
      split
      · rfl
      · exact hbest
    · simp only [hi, h e hi, Bool.not_true, Bool.false_eq_true, if_false]
      split
      · rfl
      split
      · rfl
      · cases best with
        | none => simp at *
        | some c => rfl

end FileFrames

end WovenHat.Vfs
