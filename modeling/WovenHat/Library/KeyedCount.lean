import Mathlib

/-! # Counting the values of a finite map

How many keys of a finite map have a value with a property, and how that changes with the
map. -/

namespace WovenHat.Library

open List AList

variable {α β : Type*} [DecidableEq α] {m : AList fun _ : α => β} {p : β → Bool} {k k' : α}
  {u v : β}

def valueCount (p : β → Bool) (m : AList fun _ : α => β) : ℕ :=
  m.entries.countP fun e => p e.2

def indicator (p : β → Bool) (v : β) : ℕ :=
  if p v then 1 else 0

theorem indicator_le_one (p : β → Bool) (v : β) : indicator p v ≤ 1 := by
  unfold indicator
  split <;> omega

theorem indicator_of (h : p v) : indicator p v = 1 :=
  if_pos h

theorem indicator_of_not (h : ¬p v) : indicator p v = 0 :=
  if_neg h

omit [DecidableEq α] in
theorem valueCount_empty (p : β → Bool) : valueCount p (∅ : AList fun _ : α => β) = 0 :=
  rfl

theorem valueCount_insert (p : β → Bool) (m : AList fun _ : α => β) (k : α) (v : β) :
    valueCount p (m.insert k v) = valueCount p (m.erase k) + indicator p v := by
  rw [valueCount, entries_insert, countP_cons]
  rfl

theorem entries_split (h : m.lookup k = some v) :
    ∃ front back, m.entries = front ++ ⟨k, v⟩ :: back ∧ (m.erase k).entries = front ++ back := by
  have hkey : k ∈ m.entries.keys := mem_keys.mp (lookup_isSome.mp (by rw [h]; rfl))
  obtain ⟨u, front, back, -, hentries, herase⟩ := exists_of_kerase hkey
  have hmem : (⟨k, u⟩ : Sigma fun _ : α => β) ∈ m.entries := by
    rw [hentries]
    exact mem_append_right _ mem_cons_self
  have hlookup := mem_lookup_iff.mpr hmem
  rw [h] at hlookup
  cases hlookup
  exact ⟨front, back, hentries, herase⟩

theorem valueCount_erase (p : β → Bool) (h : m.lookup k = some v) :
    valueCount p (m.erase k) + indicator p v = valueCount p m := by
  obtain ⟨front, back, hentries, herase⟩ := entries_split h
  rw [valueCount, valueCount, hentries, herase, countP_append, countP_append,
    countP_cons, indicator, Nat.add_assoc]

theorem valueCount_insert_of_none (p : β → Bool) (h : m.lookup k = none) (v : β) :
    valueCount p (m.insert k v) = valueCount p m + indicator p v := by
  have hkey : k ∉ m.entries.keys := lookup_eq_none.mp h
  rw [valueCount_insert]
  congr 1
  exact congrArg (countP fun e => p e.2) (kerase_of_notMem_keys hkey)

theorem valueCount_replace (p : β → Bool) (h : m.lookup k = some u) (v : β) :
    valueCount p (m.insert k v) + indicator p u = valueCount p m + indicator p v := by
  rw [valueCount_insert, ← valueCount_erase p h]
  omega

theorem indicator_le_valueCount (p : β → Bool) (h : m.lookup k = some v) :
    indicator p v ≤ valueCount p m := by
  have := valueCount_erase p h
  omega

theorem valueCount_pos (h : m.lookup k = some v) (hv : p v) : 0 < valueCount p m := by
  have := indicator_le_valueCount p h
  rw [indicator_of hv] at this
  omega

theorem key_unique (h : valueCount p m ≤ 1) (hu : m.lookup k = some u) (hpu : p u)
    (hv : m.lookup k' = some v) (hpv : p v) : k = k' := by
  by_contra hne
  have herase := valueCount_erase p hu
  rw [indicator_of hpu] at herase
  have hleft : (m.erase k).lookup k' = some v := by
    rw [lookup_erase_ne (Ne.symm hne), hv]
  have := valueCount_pos hleft hpv
  omega

end WovenHat.Library
