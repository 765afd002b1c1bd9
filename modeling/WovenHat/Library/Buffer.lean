import Mathlib

/-! # Fixed-size byte buffers

A buffer of `n` bytes is a function on its positions, so that an overwrite is a
case distinction on the position. Positions are given as natural numbers; reading
outside the buffer yields zero. -/

namespace WovenHat.Library

open List

/-- Exactly `n` bytes. -/
@[ext]
structure Buffer (n : ℕ) where
  byte : Fin n → UInt8

namespace Buffer

variable {n : ℕ}

/-- The byte at position `i`, or zero outside the buffer. -/
def get (s : Buffer n) (i : ℕ) : UInt8 :=
  if h : i < n then s.byte ⟨i, h⟩ else 0

def ofFn (f : ℕ → UInt8) : Buffer n :=
  ⟨fun i => f i⟩

@[simp] theorem get_ofFn (f : ℕ → UInt8) (i : ℕ) :
    (ofFn f : Buffer n).get i = if i < n then f i else 0 := by
  simp [get, ofFn]

theorem get_of_le (s : Buffer n) {i : ℕ} (h : n ≤ i) : s.get i = 0 := by
  simp [get, Nat.not_lt.mpr h]

variable {s t : Buffer n}

theorem ext_get (h : ∀ i, i < n → s.get i = t.get i) : s = t := by
  apply Buffer.ext
  funext i
  simpa [get, i.isLt] using h i i.isLt

def fill (b : UInt8) : Buffer n :=
  ofFn fun _ => b

/-- The zero buffer. -/
def zero : Buffer n :=
  fill 0

@[simp] theorem get_zero (i : ℕ) : (zero : Buffer n).get i = 0 := by
  simp [zero, fill]

/-- The first `n` bytes of a list, padded with zeros. -/
def ofList (bytes : List UInt8) : Buffer n :=
  ofFn fun i => bytes.getD i 0

/-! ## Overwriting and slicing -/

def set (s : Buffer n) (i : ℕ) (b : UInt8) : Buffer n :=
  ofFn fun j => if j = i then b else s.get j

/-- Copy `bytes` into the buffer from position `off` on. -/
def write (s : Buffer n) (off : ℕ) (bytes : List UInt8) : Buffer n :=
  ofFn fun j => if off ≤ j ∧ j < off + bytes.length then bytes.getD (j - off) 0 else s.get j

/-- The `len` bytes from position `off` on. -/
def slice (s : Buffer n) (off len : ℕ) : List UInt8 :=
  (range len).map fun i => s.get (off + i)

def sub (s : Buffer n) (off m : ℕ) : Buffer m :=
  ofFn fun i => s.get (off + i)

@[simp] theorem get_set (s : Buffer n) (i j : ℕ) (b : UInt8) :
    (s.set i b).get j = if j < n then (if j = i then b else s.get j) else 0 := by
  simp [set]

theorem get_write (s : Buffer n) (off : ℕ) (bytes : List UInt8) (j : ℕ) :
    (s.write off bytes).get j =
      if off ≤ j ∧ j < off + bytes.length ∧ j < n then bytes.getD (j - off) 0
      else s.get j := by
  by_cases hj : j < n
  · simp [write, hj]
  · simp [write, hj, get_of_le s (Nat.le_of_not_lt hj)]

@[simp] theorem length_slice (s : Buffer n) (off len : ℕ) : (s.slice off len).length = len := by
  simp [slice]

@[simp] theorem get_sub (s : Buffer n) (off m i : ℕ) :
    (s.sub off m).get i = if i < m then s.get (off + i) else 0 := by
  simp [sub]

theorem getD_slice (s : Buffer n) (off len i : ℕ) (h : i < len) :
    (s.slice off len).getD i 0 = s.get (off + i) := by
  simp [slice, h]

variable {off : ℕ} {off' len : ℕ} {bytes : List UInt8}

theorem slice_congr (h : ∀ i, i < len → s.get (off + i) = t.get (off' + i)) :
    s.slice off len = t.slice off' len := by
  apply map_congr_left
  intro i hi
  exact h i (mem_range.mp hi)

theorem get_write_add (s : Buffer n) {k : ℕ} (hk : k < bytes.length)
    (h : off + k < n) : (s.write off bytes).get (off + k) = bytes.getD k 0 := by
  rw [get_write, if_pos (by omega), Nat.add_sub_cancel_left]

theorem slice_write (s : Buffer n) (hlen : len ≤ bytes.length) (h : off + len ≤ n) :
    (s.write off bytes).slice off len = bytes.take len := by
  apply ext_getElem
  · simp [hlen]
  intro i hi _
  rw [length_slice] at hi
  simp [slice, s.get_write_add (show i < bytes.length by omega) (show off + i < n by omega),
    show i < bytes.length by omega]

/-! ## Buffers as byte strings -/

def toList (s : Buffer n) : List UInt8 :=
  s.slice 0 n

@[simp] theorem length_toList (s : Buffer n) : s.toList.length = n := by
  simp [toList]

/-- A slice inside the buffer is a piece of its bytes. -/
theorem slice_eq_take_drop (s : Buffer n) (h : off + len ≤ n) :
    s.slice off len = (s.toList.drop off).take len := by
  apply ext_getElem
  · simp only [length_slice, length_take, length_drop, length_toList]
    omega
  · intro i hi _
    simp [slice, toList]

/-- A slice that is cut off at the end of the buffer. -/
theorem slice_min (s : Buffer n) (h : off ≤ n) (len : ℕ) :
    s.slice off (min (n - off) len) = (s.toList.drop off).take len := by
  rw [slice_eq_take_drop s (by omega), take_eq_take_iff, length_drop, length_toList]
  omega

theorem toList_ofList (h : bytes.length ≤ n) :
    (ofList bytes : Buffer n).toList = bytes ++ replicate (n - bytes.length) 0 := by
  apply ext_getElem
  · simp only [length_toList, length_append, length_replicate]
    omega
  intro i hi _
  rw [length_toList] at hi
  by_cases hin : i < bytes.length
  · simp [toList, slice, ofList, hi, hin]
  · simp [toList, slice, ofList, hi, getElem_append_right (Nat.le_of_not_lt hin),
      getElem?_eq_none (Nat.le_of_not_lt hin)]

/-! ## Little-endian integers -/

def readU16 (s : Buffer n) (off : ℕ) : ℕ :=
  (s.get off).toNat + 256 * (s.get (off + 1)).toNat

/-- `u32::from_le_bytes` at position `off`. -/
def readU32 (s : Buffer n) (off : ℕ) : ℕ :=
  (s.get off).toNat + 256 * (s.get (off + 1)).toNat +
    65536 * (s.get (off + 2)).toNat + 16777216 * (s.get (off + 3)).toNat

def leBytes16 (value : ℕ) : List UInt8 :=
  [UInt8.ofNat value, UInt8.ofNat (value / 256)]

def leBytes32 (value : ℕ) : List UInt8 :=
  [UInt8.ofNat value, UInt8.ofNat (value / 256), UInt8.ofNat (value / 65536),
    UInt8.ofNat (value / 16777216)]

def writeU16 (s : Buffer n) (off value : ℕ) : Buffer n :=
  s.write off (leBytes16 value)

def writeU32 (s : Buffer n) (off value : ℕ) : Buffer n :=
  s.write off (leBytes32 value)

theorem readU32_lt (s : Buffer n) (off : ℕ) : s.readU32 off < 4294967296 := by
  have h0 := (s.get off).toNat_lt
  have h1 := (s.get (off + 1)).toNat_lt
  have h2 := (s.get (off + 2)).toNat_lt
  have h3 := (s.get (off + 3)).toNat_lt
  unfold readU32
  omega

theorem get_writeU32_of_disjoint (s : Buffer n) (off value j : ℕ)
    (h : j < off ∨ off + 4 ≤ j) : (s.writeU32 off value).get j = s.get j := by
  rw [writeU32, get_write, if_neg]
  simp only [leBytes32, length_cons, length_nil]
  omega

theorem readU32_writeU32 (s : Buffer n) (off value : ℕ) (h : off + 4 ≤ n) :
    (s.writeU32 off value).readU32 off = value % 4294967296 := by
  have hget : ∀ k, k < 4 → (s.writeU32 off value).get (off + k) = (leBytes32 value).getD k 0 := by
    intro k hk
    rw [writeU32, get_write, if_pos]
    · simp
    · simp only [leBytes32, length_cons, length_nil]
      omega
  have h0 := hget 0 (by omega)
  rw [Nat.add_zero] at h0
  rw [readU32, h0, hget 1 (by omega), hget 2 (by omega), hget 3 (by omega)]
  simp only [leBytes32, getD_cons_zero, getD_cons_succ, UInt8.toNat_ofNat']
  omega

theorem readU16_congr (h : ∀ k, k < 2 → s.get (off + k) = t.get (off' + k)) :
    s.readU16 off = t.readU16 off' := by
  have h0 := h 0 (by omega)
  rw [Nat.add_zero, Nat.add_zero] at h0
  rw [readU16, readU16, h0, h 1 (by omega)]

theorem readU32_congr (h : ∀ k, k < 4 → s.get (off + k) = t.get (off' + k)) :
    s.readU32 off = t.readU32 off' := by
  have h0 := h 0 (by omega)
  rw [Nat.add_zero, Nat.add_zero] at h0
  rw [readU32, readU32, h0, h 1 (by omega), h 2 (by omega), h 3 (by omega)]

theorem readU32_writeU32_of_disjoint (s : Buffer n) (off value off' : ℕ)
    (h : off' + 4 ≤ off ∨ off + 4 ≤ off') :
    (s.writeU32 off value).readU32 off' = s.readU32 off' := by
  apply readU32_congr
  intro k hk
  exact get_writeU32_of_disjoint s off value (off' + k) (by omega)

end Buffer

/-! ## Windows of byte strings -/

/-- At most `len` elements from position `off` on. -/
def window {α : Type*} (off len : ℕ) (l : List α) : List α :=
  (l.drop off).take len

section Window

variable {α : Type*} {off len : ℕ} {a : List α}

theorem length_window (off len : ℕ) (a : List α) :
    (window off len a).length = min len (a.length - off) := by
  simp [window]

/-- A window that is filled does not change when the string goes on. -/
theorem window_append_of_full (h : (window off len a).length = len) (b : List α) :
    window off len (a ++ b) = window off len a := by
  rw [length_window] at h
  rw [window, window, drop_append, take_append_of_le_length]
  rw [length_drop]
  omega

/-- A window with room takes more from where it is open. -/
theorem window_append_of_lt (h : (window off len a).length < len) (b : List α) :
    window off len (a ++ b) =
      window off len a ++ (b.drop (off - a.length)).take (len - (window off len a).length) := by
  rw [length_window] at h ⊢
  have htake : (a.drop off).take len = a.drop off := by
    apply take_of_length_le
    rw [length_drop]
    omega
  rw [window, window, drop_append, take_append, htake, length_drop,
    show len - min len (a.length - off) = len - (a.length - off) by omega]

end Window

end WovenHat.Library
