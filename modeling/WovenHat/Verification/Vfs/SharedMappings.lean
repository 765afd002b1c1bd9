import WovenHat.Model.Vfs.SharedMappings

/-! # Cached pages of shared mappings

What is written to a file reaches the cached pages that its shared mappings use, and reading
lays these pages over the data of the node. -/

namespace WovenHat.Vfs

open Library Function List Buffer

/-! ## Cached pages -/

namespace FileFrames

variable {f f' : FileFrames} {node : NodeId} {generation : ℕ} {e : FrameEntry}

/-- The entry holds a page that shared mappings of the file use. -/
def Shared (node : NodeId) (generation : ℕ) (e : FrameEntry) : Prop :=
  (e.key.shared && e.key.node == node && e.key.generation == generation) = true

def Distinct (f : FileFrames) : Prop :=
  ∀ c c' e e', f.cache c = some e → f.cache c' = some e' → e.frame = e'.frame → c = c'

def mapSlot (node : NodeId) (generation : ℕ) (change : FrameEntry → Buffer 4096 → ℕ × Buffer 4096)
    (f : FileFrames) (i : Fin 64) : FileFrames :=
  match f.cache i with
  | some e =>
    if e.key.shared && e.key.node == node && e.key.generation == generation then
      let (count, page) := change e (f.page e.frame)
      { cache := Function.update f.cache i (some { e with key := { e.key with count } })
        page := Function.update f.page e.frame page }
    else f
  | none => f

/-- An entry after a change of the pages of one file: its count is new. -/
def recount (f : FileFrames) (node : NodeId) (generation : ℕ)
    (change : FrameEntry → Buffer 4096 → ℕ × Buffer 4096) (e : FrameEntry) : FrameEntry :=
  if e.key.shared && e.key.node == node && e.key.generation == generation then
    { e with key := { e.key with count := (change e (f.page e.frame)).1 } }
  else e

/-- The pages of one file in some slots are changed, each with the number of its valid bytes;
everything else is as before. -/
structure Changed (f f' : FileFrames) (node : NodeId) (generation : ℕ)
    (change : FrameEntry → Buffer 4096 → ℕ × Buffer 4096) (slots : List (Fin 64)) : Prop where
  cache : ∀ c ∈ slots, f'.cache c = (f.cache c).map (f.recount node generation change)
  kept : ∀ c, c ∉ slots → f'.cache c = f.cache c
  page : ∀ c ∈ slots, ∀ e, f.cache c = some e → Shared node generation e →
    f'.page e.frame = (change e (f.page e.frame)).2
  other : ∀ g, (∀ c ∈ slots, ∀ e, f.cache c = some e → Shared node generation e → e.frame ≠ g) →
    f'.page g = f.page g

variable {change : FrameEntry → Buffer 4096 → ℕ × Buffer 4096}

theorem mapSlot_changed (f : FileFrames) (c : Fin 64) :
    Changed f (mapSlot node generation change f c) node generation change [c] := by
  have hself : ∀ {c'}, c' ∈ [c] → c' = c := mem_singleton.mp
  have hsame : ∀ {c'}, c' ∉ [c] → c' ≠ c := fun hc heq => hc (mem_singleton.mpr heq)
  unfold mapSlot
  cases hentry : f.cache c with
  | none =>
    refine ⟨fun c' hc' => ?_, fun _ _ => rfl, fun c' hc' e he => ?_, fun _ _ => rfl⟩
    · rw [hself hc', hentry]
      rfl
    · rw [hself hc', hentry] at he
      cases he
  | some e =>
    dsimp only
    by_cases hcond : (e.key.shared && e.key.node == node && e.key.generation == generation) = true
    · rw [if_pos hcond]
      refine ⟨fun c' hc' => ?_, fun c' hc' => ?_, fun c' hc' e' he' hshared => ?_, fun g hg => ?_⟩
      · rw [hself hc', hentry, Option.map_some, recount, if_pos hcond]
        exact update_self ..
      · exact update_of_ne (hsame hc') ..
      · rw [hself hc', hentry] at he'
        cases he'
        exact update_self ..
      · exact update_of_ne (hg c mem_cons_self e hentry hcond).symm ..
    · rw [if_neg hcond]
      refine ⟨fun c' hc' => ?_, fun _ _ => rfl, fun c' hc' e' he' hshared => ?_, fun _ _ => rfl⟩
      · rw [hself hc', hentry, Option.map_some, recount, if_neg hcond]
      rw [hself hc', hentry] at he'
      cases he'
      exact absurd hshared hcond

theorem Changed.append {f'' : FileFrames} {slots slots' : List (Fin 64)} (hdistinct : f.Distinct)
    (h : Changed f f' node generation change slots)
    (h' : Changed f' f'' node generation change slots') (hapart : slots.Disjoint slots') :
    Changed f f'' node generation change (slots ++ slots') := by
  have hcache : ∀ c ∈ slots', f'.cache c = f.cache c :=
    fun c hc => h.kept c fun hc' => hapart hc' hc
  have hpage : ∀ c ∈ slots', ∀ e, f.cache c = some e → f'.page e.frame = f.page e.frame := by
    intro c hc e he
    refine h.other e.frame fun c' hc' e' he' _ heq => ?_
    obtain rfl := hdistinct c' c e' e he' he heq
    exact hapart hc' hc
  refine ⟨fun c hc => ?_, fun c hc => ?_, fun c hc e he hshared => ?_, fun g hg => ?_⟩
  · obtain hc | hc := mem_append.mp hc
    · rw [h'.kept c fun hc' => hapart hc hc']
      exact h.cache c hc
    rw [h'.cache c hc, hcache c hc]
    cases he : f.cache c with
    | none => rfl
    | some e => simp only [Option.map_some, recount, hpage c hc e he]
  · rw [mem_append, not_or] at hc
    rw [h'.kept c hc.2, h.kept c hc.1]
  · obtain hc | hc := mem_append.mp hc
    · rw [h'.other e.frame, h.page c hc e he hshared]
      intro c' hc' e' he' _ heq
      rw [hcache c' hc'] at he'
      obtain rfl := hdistinct c' c e' e he' he heq
      exact hapart hc hc'
    · rw [h'.page c hc e ((hcache c hc).trans he) hshared, hpage c hc e he]
  · rw [h'.other g, h.other g fun c hc => hg c (mem_append_left _ hc)]
    intro c hc e he
    rw [hcache c hc] at he
    exact hg c (mem_append_right _ hc) e he

theorem foldl_mapSlot_changed (hdistinct : f.Distinct) {slots : List (Fin 64)}
    (hnodup : slots.Nodup) :
    Changed f (slots.foldl (mapSlot node generation change) f) node generation change slots := by
  induction slots using reverseRecOn with
  | nil =>
    exact ⟨nofun, fun _ _ => rfl, nofun, fun _ _ => rfl⟩
  | append_singleton slots c ih =>
    obtain ⟨hnodup, -, hapart⟩ := nodup_append'.mp hnodup
    rw [List.foldl_append]
    exact (ih hnodup).append hdistinct (mapSlot_changed _ c) hapart

theorem mapShared_changed (hdistinct : f.Distinct) :
    Changed f (f.mapShared node generation change) node generation change (List.finRange 64) :=
  foldl_mapSlot_changed hdistinct (List.nodup_finRange 64)

def updateChange (offset : ℕ) (bytes : List UInt8) (e : FrameEntry) (page : Buffer 4096) :
    ℕ × Buffer 4096 :=
  let count :=
    if offset < e.key.offset + 4096 ∧ offset + bytes.length > e.key.offset then
      max e.key.count (min (offset + bytes.length - e.key.offset) 4096)
    else e.key.count
  let start := max offset e.key.offset
  let stop := min (offset + bytes.length) (e.key.offset + count)
  (count, if start < stop then
    page.write (start - e.key.offset) ((bytes.take (stop - offset)).drop (start - offset))
  else page)

theorem update_changed (hdistinct : f.Distinct) (node : NodeId) (generation offset : ℕ)
    (bytes : List UInt8) :
    Changed f (f.update node generation offset bytes) node generation (updateChange offset bytes)
      (List.finRange 64) :=
  mapShared_changed hdistinct

end FileFrames

namespace State

/-! ## Reading -/

structure Reads (v : State) (reader : Fin maxOpenFiles) (node : NodeId) (generation : ℕ) :
    Prop where
  occupied : (v.openFiles reader).occupied = true
  refcount : 0 < (v.openFiles reader).refcount
  node : (v.openFiles reader).node = node
  generation : (v.openFiles reader).generation = generation

theorem Reads.getMut {v : State} {reader : Fin maxOpenFiles} {node : NodeId} {generation : ℕ}
    (h : Reads v reader node generation) :
    v.openFiles.getMut reader = .ok reader := by
  unfold OpenFileTable.getMut
  rw [dif_pos reader.isLt, if_pos ⟨h.occupied, h.refcount⟩]

def readAt (disk : DiskReader) (v : State) (id : OpenFileId) (offset count : ℕ) :
    Except Error (List UInt8) :=
  (v.readFrom disk id (some offset) (replicate count 0) none).1

end State

end WovenHat.Vfs
