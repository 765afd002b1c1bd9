import WovenHat.Model.Swap

/-! # Generations of swap handles

A slot gets a new generation whenever it is taken. Generations have sixteen bits, so a handle
that was released is accepted again after its slot has been taken 65535 times. -/

namespace WovenHat.Swap

open Library Function Buffer State Option Step

/-! ## What a step does to a slot -/

/-- The generation after `g`, as `next_generation` computes it. -/
def succGeneration (g : ℕ) : ℕ :=
  if (g + 1) % 2 ^ 16 = 0 then 1 else (g + 1) % 2 ^ 16

inductive Slot.Change (old : Slot) : Slot → Prop
  | kept : Change old old
  | reserved (hfree : old.occupied = false) :
      Change old ⟨zero, 0, succGeneration old.generation, true, .disk⟩
  | filled (bytes : Page) (hfree : old.occupied = false) :
      Change old ⟨bytes, 1, succGeneration old.generation, true, .ram⟩
  | published (hreserved : isReserved old old.generation) :
      Change old { old with refcount := 1, backing := .disk }
  | cancelled (hreserved : isReserved old old.generation) : Change old old.clear
  | shared (hused : old.occupied = true ∧ 0 < old.refcount) :
      Change old { old with refcount := old.refcount + 1 }
  | released (hused : old.occupied = true ∧ 1 < old.refcount) :
      Change old { old with refcount := old.refcount - 1 }
  | freed (hused : old.occupied = true ∧ old.refcount = 1) : Change old old.clear

namespace State

variable {st : State} {i : Fin maxSwapSlots}

theorem slots_setSlot (st : State) (index : Fin maxSwapSlots) (slot : Slot) (i : Fin maxSwapSlots) :
    (st.setSlot index slot).slots i = if i = index then slot else st.slots i :=
  update_apply _ _ _ _

variable {index : Fin maxSwapSlots} {handle : Handle}

theorem change_setSlot {slot : Slot} (h : (st.slots index).Change slot) (i : Fin maxSwapSlots) :
    (st.slots i).Change ((st.setSlot index slot).slots i) := by
  rw [slots_setSlot]
  split
  · rename_i heq
    rw [heq]
    exact h
  · exact .kept

theorem freeSlot_free (h : st.freeSlot = some index) : (st.slots index).occupied = false := by
  simpa using List.find?_some h

theorem get_eq_some (h : st.get handle = some i) :
    (i : ℕ) = handle.index ∧ (st.slots i).occupied = true ∧ 0 < (st.slots i).refcount ∧
      (st.slots i).generation = handle.generation := by
  simp only [get, slotAt, bind_eq_bind, bind_eq_some_iff] at h
  obtain ⟨j, hj, hslot⟩ := h
  split at hj
  · cases hj
    split at hslot
    · rename_i hused
      cases hslot
      exact ⟨rfl, hused⟩
    · cases hslot
  · cases hj

/-- A handle is accepted when its slot is in use with its generation. -/
theorem get_ne_none (hindex : (i : ℕ) = handle.index) :
    st.get handle ≠ none ↔ (st.slots i).occupied = true ∧ 0 < (st.slots i).refcount ∧
      (st.slots i).generation = handle.generation := by
  have hat : slotAt handle.index = some i := by
    rw [slotAt, dif_pos (hindex ▸ i.isLt)]
    exact congrArg some (Fin.ext hindex.symm)
  simp only [get, hat, bind_eq_bind, bind_some]
  split
  · rename_i hused
    exact iff_of_true (by simp) hused
  · rename_i hused
    exact iff_of_false (by simp) hused

end State

/-- Every step changes a slot in one of these ways. -/
theorem Step.change (st : State) (step : Step) (i : Fin maxSwapSlots) :
    (st.slots i).Change ((step.apply st).slots i) := by
  cases step with
  | reserve =>
    simp only [apply, reserveDisk]
    split
    · exact .kept
    rename_i index hfree
    split
    · exact .kept
    · exact change_setSlot (.reserved (freeSlot_free hfree)) i
  | publish index generation =>
    simp only [apply, publishReservedDisk]
    split
    · exact .kept
    split
    · rename_i slot _ hreserved
      refine change_setSlot (.published ?_) i
      exact ⟨hreserved.1, hreserved.2.1, rfl⟩
    · exact .kept
  | cancel index generation =>
    simp only [apply, cancelReserved]
    split
    · exact .kept
    split
    · rename_i slot _ hreserved
      exact change_setSlot (.cancelled ⟨hreserved.1, hreserved.2.1, rfl⟩) i
    · exact .kept
  | allocateRam bytes =>
    simp only [apply, State.allocateRam]
    split
    · exact .kept
    · rename_i index hfree
      exact change_setSlot (.filled bytes (freeSlot_free hfree)) i
  | share handle =>
    simp only [apply, State.share]
    split
    · exact .kept
    rename_i slot hget
    obtain ⟨-, hocc, hcount, -⟩ := get_eq_some hget
    split
    · exact change_setSlot (.shared ⟨hocc, hcount⟩) i
    · exact .kept
  | release handle =>
    simp only [apply, State.release]
    split
    · exact .kept
    rename_i slot hget
    obtain ⟨-, hocc, hcount, -⟩ := get_eq_some hget
    refine change_setSlot ?_ i
    by_cases hlast : (st.slots slot).refcount = 1
    · rw [if_pos (by omega)]
      exact .freed ⟨hocc, hlast⟩
    · rw [if_neg (by omega)]
      exact .released ⟨hocc, by omega⟩

/-! ## Generations -/

theorem Slot.Change.generation {old new : Slot} (h : old.Change new) :
    (new.generation = old.generation ∧ (new.occupied = true → old.occupied = true)) ∨
      (old.occupied = false ∧ new.occupied = true ∧
        new.generation = succGeneration old.generation) := by
  cases h with
  | kept => exact .inl ⟨rfl, id⟩
  | reserved hfree => exact .inr ⟨hfree, rfl, rfl⟩
  | filled bytes hfree => exact .inr ⟨hfree, rfl, rfl⟩
  | published hreserved => exact .inl ⟨rfl, id⟩
  | cancelled hreserved => exact .inl ⟨rfl, nofun⟩
  | shared hused => exact .inl ⟨rfl, id⟩
  | released hused => exact .inl ⟨rfl, id⟩
  | freed hused => exact .inl ⟨rfl, nofun⟩

/-- The generations go around in a cycle of length 65535. -/
theorem succGeneration_cycle (g n : ℕ) :
    succGeneration ((g - 1 + n) % 65535 + 1) = (g - 1 + (n + 1)) % 65535 + 1 := by
  have hlt : (g - 1 + n) % 65535 < 65535 := Nat.mod_lt _ (by decide)
  have hnext : (g - 1 + (n + 1)) % 65535 = ((g - 1 + n) % 65535 + 1) % 65535 := by
    rw [← Nat.add_assoc, ← Nat.mod_add_mod]
  rw [hnext, succGeneration]
  generalize (g - 1 + n) % 65535 = m at *
  split <;> omega

theorem cycle_eq_iff {g n : ℕ} (hpos : 0 < g) (hle : g ≤ 65535) :
    (g - 1 + n) % 65535 + 1 = g ↔ 65535 ∣ n := by
  omega

def State.Numbered (st : State) : Prop :=
  ∀ i, (st.slots i).generation ≤ 65535 ∧
    ((st.slots i).occupied = true → 0 < (st.slots i).generation)

variable {st : State} {i : Fin maxSwapSlots}

theorem State.Numbered.step (h : st.Numbered) (step : Step) : (step.apply st).Numbered := by
  intro i
  rcases (step.change st i).generation with ⟨hsame, hocc⟩ | ⟨-, -, hnext⟩
  · rw [hsame]
    exact ⟨(h i).1, fun hused => (h i).2 (hocc hused)⟩
  have hle := (h i).1
  rw [hnext, succGeneration]
  split <;> omega

/-- The number of times that a slot is taken in a run. -/
def State.reuses (st : State) (i : Fin maxSwapSlots) : List Step → ℕ
  | [] => 0
  | step :: steps =>
    (if (st.slots i).occupied = false ∧ ((step.apply st).slots i).occupied = true then 1 else 0) +
      (step.apply st).reuses i steps

theorem State.Numbered.after (h : st.Numbered) (steps : List Step) : (st.after steps).Numbered := by
  induction steps generalizing st with
  | nil => exact h
  | cons step steps ih => exact ih (h.step step)

/-- The generation of a slot tells how often it was taken. -/
theorem State.generation_after {g n : ℕ}
    (hstart : (st.slots i).generation = (g - 1 + n) % 65535 + 1) (steps : List Step) :
    ((st.after steps).slots i).generation = (g - 1 + (n + st.reuses i steps)) % 65535 + 1 := by
  induction steps generalizing st n with
  | nil => exact hstart
  | cons step steps ih =>
    rw [reuses]
    rcases (step.change st i).generation with ⟨hsame, hkept⟩ | ⟨hfree, htaken, hnext⟩
    · rw [if_neg fun htaken => absurd (hkept htaken.2) (by simp [htaken.1]), Nat.zero_add]
      exact ih (hsame.trans hstart)
    rw [if_pos ⟨hfree, htaken⟩, ← Nat.add_assoc n]
    refine ih ?_
    rw [hnext, hstart, succGeneration_cycle]

theorem State.slots_release {handle : Handle} (hget : st.get handle = some i)
    (hlast : (st.slots i).refcount = 1) : ((st.release handle).2.slots i) = (st.slots i).clear := by
  simp only [release, hget, slots_setSlot, if_true, hlast]
  rfl

/-- A swap area is configured, or none. -/
def State.withArea (disk : Option DiskBacking) : State :=
  { new with disk }

theorem State.numbered_withArea (disk : Option DiskBacking) : (withArea disk).Numbered :=
  fun _ => ⟨Nat.zero_le _, nofun⟩

/-- After the last owner of a handle has released it, the handle is rejected in every later
state of a run exactly if its slot is never in use again after it was taken a multiple of 65535
times. -/
theorem stale_handle_rejected_iff (disk : Option DiskBacking) (before later : List Step)
    (handle : Handle) (i : Fin maxSwapSlots)
    (hget : ((withArea disk).after before).get handle = some i)
    (hlast : (((withArea disk).after before).slots i).refcount = 1) :
    (∀ n, ((((withArea disk).after before).release handle).2.after (later.take n)).get handle =
        none) ↔
      ∀ n, ¬((((((withArea disk).after before).release handle).2.after (later.take n)).slots
            i).occupied = true ∧
          0 < (((((withArea disk).after before).release handle).2.after (later.take n)).slots
            i).refcount ∧
          65535 ∣ (((withArea disk).after before).release handle).2.reuses i
            (later.take n)) := by
  have hnumbered := (numbered_withArea disk).after before
  generalize (withArea disk).after before = st at *
  obtain ⟨hindex, hoccupied, -, hgeneration⟩ := get_eq_some hget
  have hpos := (hnumbered i).2 hoccupied
  have hle := (hnumbered i).1
  rw [hgeneration] at hpos hle
  have hstart : ((st.release handle).2.slots i).generation =
      (handle.generation - 1 + 0) % 65535 + 1 := by
    rw [slots_release hget hlast]
    change (st.slots i).generation = _
    omega
  refine forall_congr' fun n => ?_
  have hrun := generation_after hstart (later.take n)
  rw [Nat.zero_add] at hrun
  rw [← not_iff_not, not_not, ← ne_eq, get_ne_none hindex, hrun, cycle_eq_iff hpos hle]

/-- The slot is taken again, and the old handle is rejected. -/
theorem stale_handle_rejected_iff_reused :
    ((((withArea none).after [.allocateRam zero]).release ⟨0, 1⟩).2.after
      ([Step.allocateRam zero].take 1)).get ⟨0, 1⟩ = none := by
  refine (stale_handle_rejected_iff none [.allocateRam zero] [.allocateRam zero] ⟨0, 1⟩
    ⟨0, by decide⟩ (by decide +kernel) (by decide +kernel)).mpr (fun n h => ?_) 1
  cases n with
  | zero => exact absurd h.1 (by decide +kernel)
  | succ n =>
    rw [List.take_succ_cons, List.take_nil] at h
    exact absurd h.2.2 (by decide +kernel)

/-! ## A handle that comes back -/

def firstSlot : Fin maxSwapSlots := ⟨0, by decide⟩

/-- No slot is in use, and the first one has had some generation. -/
def State.unused (g : ℕ) : State :=
  ⟨update (fun _ => .empty) firstSlot { Slot.empty with generation := g }, none⟩

theorem State.unused_zero : unused 0 = withArea none := by
  simp only [unused, withArea, new]
  congr 1
  exact update_eq_self _ _

theorem State.take_unused (g : ℕ) : (unused g).after [.allocateRam zero] =
      (unused g).setSlot firstSlot ⟨zero, 1, succGeneration g, true, .ram⟩ := by
  have hfree : (unused g).freeSlot = some firstSlot := rfl
  have hgen : (unused g).nextGeneration firstSlot = succGeneration g := rfl
  change ((unused g).allocateRam zero).2 = _
  rfl

theorem State.get_take_unused (g : ℕ) :
    ((unused g).after [.allocateRam zero]).get ⟨0, succGeneration g⟩ = some firstSlot := by
  rw [take_unused]
  generalize hst : (unused g).setSlot firstSlot ⟨zero, 1, succGeneration g, true, .ram⟩ = st
  have hslot : st.slots firstSlot = ⟨zero, 1, succGeneration g, true, .ram⟩ := by
    rw [← hst, slots_setSlot, if_pos rfl]
  have hne : st.get ⟨0, succGeneration g⟩ ≠ none := by
    have hindex : (firstSlot : ℕ) = (⟨0, succGeneration g⟩ : Handle).index := rfl
    rw [get_ne_none hindex, hslot]
    exact ⟨rfl, Nat.one_pos, rfl⟩
  obtain ⟨j, hj⟩ := ne_none_iff_exists'.mp hne
  rw [hj]
  exact congrArg some (Fin.ext (get_eq_some hj).1)

theorem State.after_unused (g : ℕ) :
    (unused g).after [.allocateRam zero, .release ⟨0, succGeneration g⟩] =
      unused (succGeneration g) := by
  have hget := get_take_unused g
  change (((unused g).after [.allocateRam zero]).release ⟨0, succGeneration g⟩).2 = _
  rw [release, hget, take_unused]
  simp only [setSlot, unused, update_self, update_idem]
  rfl

/-- The first slot is taken and released `n` times. -/
def cycles : ℕ → ℕ → List Step
  | _, 0 => []
  | g, n + 1 =>
    .allocateRam zero :: .release ⟨0, succGeneration g⟩ :: cycles (succGeneration g) n

theorem State.after_cycles (n k : ℕ) : (unused (k % 65535 + 1)).after (cycles (k % 65535 + 1) n) =
      unused ((k + n) % 65535 + 1) := by
  induction n generalizing k with
  | zero => rfl
  | succ n ih =>
    have hnext : succGeneration (k % 65535 + 1) = (k + 1) % 65535 + 1 := by
      have hcycle := succGeneration_cycle 1 k
      simpa using hcycle
    have hstep := after_unused (k % 65535 + 1)
    change ((unused (k % 65535 + 1)).after [.allocateRam zero,
      .release ⟨0, succGeneration (k % 65535 + 1)⟩]).after (cycles (succGeneration (k % 65535 + 1)) n) = _
    rw [hstep, hnext, ih, Nat.add_assoc, Nat.add_comm 1 n]

/-- The handle of the first page is accepted again after the page was released and the slot was
taken 65535 more times. -/
theorem stale_handle_accepted :
    ((withArea none).after [.allocateRam zero]).get ⟨0, 1⟩ = some firstSlot ∧
    (((withArea none).after [.allocateRam zero]).slots firstSlot).refcount = 1 ∧
    ∃ later, (((withArea none).after [.allocateRam zero, .release ⟨0, 1⟩]).after
      later).get ⟨0, 1⟩ = some firstSlot := by
  refine ⟨by decide +kernel, by decide +kernel, cycles 1 65534 ++ [.allocateRam zero], ?_⟩
  have hstart : (withArea none).after [.allocateRam zero, .release ⟨0, 1⟩] =
      unused 1 := by
    rw [← unused_zero]
    exact after_unused 0
  have hcycles := after_cycles 65534 0
  have htake := get_take_unused 65535
  rw [hstart, after, List.foldl_append]
  change (((unused 1).after (cycles 1 65534)).after [.allocateRam zero]).get _ = _
  rw [show (unused 1).after (cycles 1 65534) = unused 65535 from hcycles]
  exact htake

end WovenHat.Swap
