import WovenHat.Model.PageCache

/-! # Reading through the page cache

Every valid slot holds a page of its file, and no page is held twice; so a read returns the
bytes of the file. -/

namespace WovenHat.FilePages

open Library Block Function List Buffer PageCache

/-- The contents of the files, by their keys. -/
abbrev Files := Key → List UInt8

def filePage (file : List UInt8) (page : ℕ) : List UInt8 :=
  (file.drop (page * pageSize)).take pageSize

def Loads {L : Type} (file : List UInt8) (load : Loader L) : Prop :=
  ∀ l page buffer data length l', load l (page * pageSize) buffer = ((.ok length, data), l') →
    length ≤ pageSize ∧ data.slice 0 length = filePage file page

namespace PageCache

variable {N : ℕ} {L : Type} {files : Files} {c : PageCache N}

/-- A slot holds a page of its file. -/
def Slot.Holds (files : Files) (s : Slot) : Prop :=
  s.data.slice 0 s.length = filePage (files s.name) s.page

/-- Every valid slot holds a page of its file, and no page is held twice. -/
structure Coherent (files : Files) (c : PageCache N) : Prop where
  holds : ∀ i, (c.slots i).valid = true → Slot.Holds files (c.slots i)
  unique : ∀ i j, (c.slots i).valid = true → (c.slots j).valid = true →
    (c.slots i).name = (c.slots j).name → (c.slots i).page = (c.slots j).page → i = j

theorem coherent_of_invalid (h : ∀ i, (c.slots i).valid = false) : Coherent files c :=
  ⟨fun i hi => absurd hi (by simp [h i]), fun i _ hi => absurd hi (by simp [h i])⟩

structure SamePages (c c' : PageCache N) : Prop where
  valid : ∀ i, (c'.slots i).valid = (c.slots i).valid
  name : ∀ i, (c'.slots i).name = (c.slots i).name
  page : ∀ i, (c'.slots i).page = (c.slots i).page
  length : ∀ i, (c'.slots i).length = (c.slots i).length
  data : ∀ i, (c'.slots i).data = (c.slots i).data

theorem Coherent.congr (h : Coherent files c) {c' : PageCache N} (hsame : SamePages c c') :
    Coherent files c' := by
  refine ⟨fun i hi => ?_, fun i j hi hj hname hpage => ?_⟩
  · rw [hsame.valid] at hi
    rw [Slot.Holds, hsame.data, hsame.length, hsame.name, hsame.page]
    exact h.holds i hi
  · rw [hsame.valid] at hi hj
    rw [hsame.name, hsame.name] at hname
    rw [hsame.page, hsame.page] at hpage
    exact h.unique i j hi hj hname hpage

theorem samePages_touch (c : PageCache N) (index : Fin N) : SamePages c (c.touch index) := by
  have hslot : ∀ i, ∃ age, (c.touch index).slots i = { c.slots i with age } := by
    intro i
    by_cases hi : i = index
    · subst hi
      refine ⟨0, ?_⟩
      simp only [touch, update_self]
      split <;> rfl
    · simp only [touch, update_of_ne hi]
      split
      · exact ⟨_, rfl⟩
      · exact ⟨(c.slots i).age, rfl⟩
  refine ⟨fun i => ?_, fun i => ?_, fun i => ?_, fun i => ?_, fun i => ?_⟩
  all_goals
    obtain ⟨age, hage⟩ := hslot i
    rw [hage]
  rfl

/-! ## Finding a page -/

section Lookup

variable {key : Key} {page : ℕ} {index : Fin N}

theorem lookup_eq_some (h : c.lookup key page = some index) :
    (c.slots index).valid = true ∧ (c.slots index).page = page ∧ (c.slots index).name = key := by
  have hfound := find?_some h
  simp only [Bool.and_eq_true, beq_iff_eq] at hfound
  exact ⟨hfound.1.1.1, hfound.1.1.2, hfound.2⟩

theorem lookup_eq_none_iff : c.lookup key page = none ↔
      ∀ i, (c.slots i).valid = true → (c.slots i).page = page → (c.slots i).name ≠ key := by
  rw [lookup, find?_eq_none]
  constructor
  · intro h i hvalid hpage hname
    refine h i (mem_finRange i) ?_
    have hlen : (c.slots i).keyLen = key.length := by
      rw [← hname, Slot.name, length_slice]
    simp [hvalid, hpage, hname, hlen]
  · intro h i _ hi
    simp only [Bool.and_eq_true, beq_iff_eq] at hi
    exact h i hi.1.1.1 hi.1.1.2 hi.2

end Lookup

/-! ## Loading a page -/

theorem slots_setSlot (c : PageCache N) (index : Fin N) (slot : Slot) (i : Fin N) :
    (c.setSlot index slot).slots i = if i = index then slot else c.slots i := by
  by_cases hi : i = index
  · subst hi
    rw [if_pos rfl]
    exact update_self _ _ _
  · rw [if_neg hi]
    exact update_of_ne hi _ _

section Fill

variable (h : Coherent files c) {index : Fin N} {slot : Slot}

include h

theorem Coherent.set_invalid (hslot : slot.valid = false) :
    Coherent files (c.setSlot index slot) := by
  have hother : ∀ i, ((c.setSlot index slot).slots i).valid = true →
      (c.setSlot index slot).slots i = c.slots i := by
    intro i hi
    rw [slots_setSlot] at hi ⊢
    split at hi
    · rw [hslot] at hi
      cases hi
    · rename_i hne
      rw [if_neg hne]
  refine ⟨fun i hi => ?_, fun i j hi hj => ?_⟩
  · have heq := hother i hi
    rw [heq] at hi ⊢
    exact h.holds i hi
  · have heq := hother i hi
    have heq' := hother j hj
    rw [heq] at hi ⊢
    rw [heq'] at hj ⊢
    exact h.unique i j hi hj

theorem Coherent.set_loaded (hslot : Slot.Holds files slot)
    (hnew : c.lookup slot.name slot.page = none) : Coherent files (c.setSlot index slot) := by
  have hcell := slots_setSlot c index slot
  have hfresh := lookup_eq_none_iff.mp hnew
  refine ⟨fun i hi => ?_, fun i j hi hj hname hpage => ?_⟩
  · rw [hcell] at hi ⊢
    split at hi
    · rename_i heq
      rw [if_pos heq]
      exact hslot
    · rename_i hne
      rw [if_neg hne]
      exact h.holds i hi
  · rw [hcell] at hi hname hpage
    rw [hcell] at hj hname hpage
    by_cases hii : i = index
    · by_cases hjj : j = index
      · exact hii.trans hjj.symm
      rw [if_pos hii, if_neg hjj] at hname hpage
      rw [if_neg hjj] at hj
      exact absurd hname.symm (hfresh j hj hpage.symm)
    · rw [if_neg hii] at hi hname hpage
      by_cases hjj : j = index
      · rw [if_pos hjj] at hname hpage
        exact absurd hname (hfresh i hi hpage)
      · rw [if_neg hjj] at hj hname hpage
        exact h.unique i j hi hj hname hpage

end Fill

/-- What `fetch` gives: a slot with the page, or a cache without it. -/
structure Fetched (files : Files) (key : Key) (page : ℕ) (result : Except Error (Fin N))
    (c' : PageCache N) : Prop where
  coherent : Coherent files c'
  found : ∀ index, result = .ok index → (c'.slots index).valid = true ∧
    (c'.slots index).name = key ∧ (c'.slots index).page = page
  missing : ∀ e, result = .error e → c'.lookup key page = none

section Fetch

variable {key : Key} {page : ℕ} {load : Loader L} {index : Fin N}

theorem Coherent.failed (h : Coherent files c) (hnew : c.lookup key page = none)
    {slot : Slot} (hslot : slot.valid = false) (e : Error) :
    Fetched files key page (.error e) (c.setSlot index slot) := by
  refine ⟨h.set_invalid hslot, nofun, fun _ _ => ?_⟩
  refine lookup_eq_none_iff.mpr fun i hi hpage hname => ?_
  rw [slots_setSlot] at hi hpage hname
  split at hi
  · rw [hslot] at hi
    cases hi
  rename_i hne
  rw [if_neg hne] at hpage hname
  exact lookup_eq_none_iff.mp hnew i hi hpage hname

theorem Coherent.fill (h : Coherent files c) (hnew : c.lookup key page = none)
    (hkey : key.length ≤ keySize) (hload : Loads (files key) load) (index : Fin N) (l : L) :
    Fetched files key page (c.fill index key page load l).1 (c.fill index key page load l).2.1 := by
  -- the count of evictions does not matter
  have hcount : ∀ n, Coherent files { c with evictions := n } ∧
      ({ c with evictions := n } : PageCache N).lookup key page = none :=
    fun n => ⟨⟨h.holds, h.unique⟩, hnew⟩
  unfold PageCache.fill
  obtain ⟨n, hn⟩ : ∃ n, (if (c.slots index).valid = true then
      { c with evictions := saturatingAdd c.evictions 1 } else c) = { c with evictions := n } := by
    split
    · exact ⟨_, rfl⟩
    · exact ⟨c.evictions, rfl⟩
  dsimp only
  rw [hn]
  obtain ⟨hcoherent, hnew'⟩ := hcount n
  rcases hres : load l (page * pageSize) zero with ⟨⟨_ | length, data⟩, l'⟩
  · exact hcoherent.failed hnew' rfl _
  obtain ⟨hlen, hdata⟩ := hload l page _ data length l' hres
  dsimp only
  rw [if_neg (Nat.not_lt.mpr hlen)]
  generalize hslot : ({ c.slots index with
    key := (c.slots index).key.write 0 key, keyLen := key.length, page := page, data := data,
    length := length, valid := true } : Slot) = slot
  have hname : slot.name = key := by
    rw [← hslot]
    change ((c.slots index).key.write 0 key).slice 0 key.length = key
    rw [slice_write _ le_rfl (by omega), take_length]
  have hpage : slot.page = page := by rw [← hslot]
  have hholds : Slot.Holds files slot := by
    rw [Slot.Holds, hname, hpage, ← hslot]
    exact hdata
  have hfresh : ({ c with evictions := n } : PageCache N).lookup slot.name slot.page = none := by
    rw [hname, hpage]
    exact hnew'
  refine ⟨hcoherent.set_loaded hholds hfresh, fun i hi => ?_, nofun⟩
  cases hi
  rw [slots_setSlot, if_pos rfl]
  exact ⟨by rw [← hslot], hname, hpage⟩

theorem Coherent.fetch [NeZero N] (h : Coherent files c) (hkey : key.length ≤ keySize)
    (hload : Loads (files key) load) (page : ℕ) (l : L) :
    Fetched files key page (c.fetch key page load l).1 (c.fetch key page load l).2.1 := by
  unfold PageCache.fetch
  cases hfound : c.lookup key page with
  | some index =>
    obtain ⟨hvalid, hpage, hname⟩ := lookup_eq_some hfound
    refine ⟨⟨h.holds, h.unique⟩, fun i hi => ?_, nofun⟩
    cases hi
    exact ⟨hvalid, hname, hpage⟩
  | none =>
    have hcoherent : Coherent files { c with misses := saturatingAdd c.misses 1 } :=
      ⟨h.holds, h.unique⟩
    exact hcoherent.fill hfound hkey hload _ l

end Fetch

/-! ## The loop -/

/-- What the loop of `read` leaves: the output is the first bytes of the file from the offset
on, all of those asked for if it succeeds; and if it fails, it stopped at a page that is not in
the cache. -/
structure ReadOk (files : Files) (key : Key) (offset room : ℕ) (result : Except Error ℕ)
    (out : List UInt8) (c' : PageCache N) : Prop where
  coherent : Coherent files c'
  all : ∀ n, result = .ok n → n = out.length ∧ out = ((files key).drop offset).take room
  missing : ∀ e, result = .error e → c'.lookup key ((offset + out.length) / pageSize) = none

variable {s : Slot} {file : List UInt8} {key : Key}

theorem slice_of_holds (h : s.data.slice 0 s.length = file) {off count : ℕ}
    (hcount : off + count ≤ s.length) : s.data.slice off count = (file.drop off).take count := by
  apply ext_getElem
  · have hlen : file.length = s.length := by rw [← h, length_slice]
    simp only [length_slice, length_take, length_drop, hlen]
    omega
  · intro i hi _
    rw [length_slice] at hi
    subst h
    simp [slice]

/-- A slot with the page at a position gives the bytes of the file from the position on. -/
theorem slice_of_page {position count : ℕ}
    (h : s.data.slice 0 s.length = filePage file (position / pageSize))
    (hcount : position % pageSize + count ≤ s.length) :
    s.data.slice (position % pageSize) count = (file.drop position).take count := by
  have hpage : s.length ≤ pageSize := by
    rw [← s.data.length_slice 0 s.length, h, filePage, length_take]
    omega
  rw [slice_of_holds h hcount, filePage, drop_take, take_take, drop_drop,
    Nat.div_add_mod', Nat.min_eq_left (by omega)]

theorem length_of_page {page : ℕ} (h : s.data.slice 0 s.length = filePage file page) :
    s.length = min pageSize (file.length - page * pageSize) := by
  rw [← s.data.length_slice 0 s.length, h, filePage, length_take, length_drop]

variable {out : List UInt8} {offset room : ℕ}

/-- Nothing is missing once the output is full or the file is read to its end. -/
theorem take_of_end (hout : out = (file.drop offset).take out.length) (hroom : out.length ≤ room)
    (hend : out.length = room ∨ file.length ≤ offset + out.length) :
    out = (file.drop offset).take room := by
  rcases hend with hfull | hend
  · rw [← hfull]
    exact hout
  have hlen : (file.drop offset).length ≤ out.length := by
    rw [length_drop]
    omega
  rw [take_of_length_le (hlen.trans hroom)]
  rw [take_of_length_le hlen] at hout
  exact hout

section Equations

variable [NeZero N] {key : Key} {offset room : ℕ} {load : Loader L} {l l' : L}
  {out : List UInt8} {c' : PageCache N}

theorem readLoop_of_full (hfull : ¬out.length < room) :
    c.readLoop key offset room load l out = (.ok out.length, out, c, l) := by
  rw [readLoop, dif_neg hfull]

theorem readLoop_of_error (hmore : out.length < room) {e : Error}
    (hfetch : c.fetch key ((offset + out.length) / pageSize) load l = (.error e, c', l')) :
    c.readLoop key offset room load l out = (.error e, out, c', l') := by
  rw [readLoop, dif_pos hmore]
  simp only [hfetch]

/-- The rest of a round, with the slot that has the page. -/
theorem readLoop_of_ok (hmore : out.length < room) {slot : Slot} {count : ℕ}
    (hfetch : c.fetch key ((offset + out.length) / pageSize) load l = (.ok index, c', l'))
    (hslot : (c'.touch index).slots index = slot)
    (hcount : min (slot.length - (offset + out.length) % pageSize) (room - out.length) = count) :
    c.readLoop key offset room load l out =
      if count = 0 then (.ok out.length, out, c'.touch index, l')
      else
        let out' := out ++ slot.data.slice ((offset + out.length) % pageSize) count
        if slot.length < pageSize then (.ok out'.length, out', c'.touch index, l')
        else (c'.touch index).readLoop key offset room load l' out' := by
  subst hslot hcount
  rw [readLoop, dif_pos hmore]
  simp only [hfetch]
  rfl

end Equations

variable {load : Loader L}

theorem Coherent.readLoop [NeZero N] (h : Coherent files c)
    (hkey : key.length ≤ keySize) (hload : Loads (files key) load) (offset room : ℕ) (l : L)
    (hout : out = ((files key).drop offset).take out.length) (hroom : out.length ≤ room) :
    ReadOk files key offset room (c.readLoop key offset room load l out).1
      (c.readLoop key offset room load l out).2.1
      (c.readLoop key offset room load l out).2.2.1 := by
  have hdone : ∀ {c : PageCache N} {out : List UInt8}, Coherent files c →
      out = ((files key).drop offset).take room →
      ReadOk files key offset room (.ok out.length) out c := by
    intro c out hc hall
    refine ⟨hc, fun n hn => ?_, nofun⟩
    cases hn
    exact ⟨rfl, hall⟩
  -- every round copies at least one byte or is the last one
  induction hleft : room - out.length using Nat.strong_induction_on generalizing c l out with
  | _ left ih =>
    by_cases hmore : out.length < room
    swap
    · rw [readLoop_of_full hmore]
      exact hdone h (take_of_end hout hroom (.inl (by omega)))
    have hfetched := h.fetch hkey hload ((offset + out.length) / pageSize) l
    rcases hfetch : c.fetch key ((offset + out.length) / pageSize) load l with ⟨_ | index, c', l'⟩
    · rw [hfetch] at hfetched
      rw [readLoop_of_error hmore hfetch]
      exact ⟨hfetched.coherent, nofun, fun _ _ => hfetched.missing _ rfl⟩
    rw [hfetch] at hfetched
    obtain ⟨hvalid, hname, hpage⟩ := hfetched.found index rfl
    have hsame := samePages_touch c' index
    have hcoherent := hfetched.coherent.congr hsame
    generalize hslot : (c'.touch index).slots index = slot
    have hdata : slot.data.slice 0 slot.length =
        filePage (files key) ((offset + out.length) / pageSize) := by
      have hholds := hcoherent.holds index ((hsame.valid index).trans hvalid)
      rw [Slot.Holds, hsame.name, hsame.page, hname, hpage, hslot] at hholds
      exact hholds
    have hlength := length_of_page hdata
    have hpos := Nat.div_add_mod' (offset + out.length) pageSize
    have hwithin : (offset + out.length) % pageSize < pageSize := Nat.mod_lt _ (by decide)
    generalize hcount : min (slot.length - (offset + out.length) % pageSize)
      (room - out.length) = count
    rw [readLoop_of_ok hmore hfetch hslot hcount]
    by_cases hzero : count = 0
    · rw [if_pos hzero]
      exact hdone hcoherent (take_of_end hout hroom (.inr (by omega)))
    rw [if_neg hzero]
    generalize hout' : out ++ slot.data.slice ((offset + out.length) % pageSize) count = out'
    have hlen' : out'.length = out.length + count := by
      rw [← hout', length_append, length_slice]
    have hfirst : out' = ((files key).drop offset).take out'.length := by
      rw [hlen', take_add, ← hout, drop_drop, ← hout', slice_of_page hdata (by omega)]
    by_cases hlast : slot.length < pageSize
    · rw [if_pos hlast]
      exact hdone hcoherent (take_of_end hfirst (by omega) (by omega))
    · rw [if_neg hlast]
      exact ih (room - out'.length) (by omega) hcoherent l' hfirst (by omega) rfl

structure Accepted (N : ℕ) (key : Key) (offset room : ℕ) : Prop where
  key_ne : key ≠ []
  key_le : key.length ≤ keySize
  capacity : N ≠ 0
  in_range : offset + room ≤ usizeMax

theorem read_of_not_accepted (h : ¬Accepted N key offset room) (load : Loader L) (l : L) :
    c.read key offset room load l = (.error .invalidBuffer, [], c, l) := by
  rw [read, dif_pos]
  by_contra hguard
  simp only [not_or, not_lt] at hguard
  exact h ⟨hguard.1, hguard.2.1, hguard.2.2.1, hguard.2.2.2⟩

theorem Coherent.read (h : Coherent files c)
    (haccepted : Accepted N key offset room) (hload : Loads (files key) load) (l : L) :
    ReadOk files key offset room (c.read key offset room load l).1
      (c.read key offset room load l).2.1 (c.read key offset room load l).2.2.1 := by
  have hguard : ¬(key = [] ∨ keySize < key.length ∨ N = 0 ∨ usizeMax < offset + room) := by
    simp only [not_or, not_lt]
    exact ⟨haccepted.key_ne, haccepted.key_le, haccepted.capacity, haccepted.in_range⟩
  rw [PageCache.read, dif_neg hguard]
  have : NeZero N := ⟨haccepted.capacity⟩
  exact h.readLoop haccepted.key_le hload offset room l rfl (Nat.zero_le _)

theorem Coherent.after_read (h : Coherent files c) (hload : Loads (files key) load)
    (offset room : ℕ) (l : L) : Coherent files (c.read key offset room load l).2.2.1 := by
  by_cases haccepted : Accepted N key offset room
  · exact (h.read haccepted hload l).coherent
  · rw [read_of_not_accepted haccepted]
    exact h

end PageCache

/-! ## Sequences of reads and invalidations -/

/-- A read, or an invalidation after which the files are others. -/
inductive Op (L : Type) where
  | read (key : Key) (offset room : ℕ) (load : Loader L) (l : L)
  | invalidate (files : Files)

variable {N : ℕ} {L : Type}

def step : PageCache N × Files → Op L → PageCache N × Files
  | (c, files), .read key offset room load l => ((c.read key offset room load l).2.2.1, files)
  | (c, _), .invalidate files => (c.invalidate, files)

def run : PageCache N × Files → List (Op L) → PageCache N × Files :=
  foldl step

/-- Every load fails or gives bytes of the files as they are then. -/
def Honest : Files → List (Op L) → Prop
  | _, [] => True
  | files, .read key _ _ load _ :: ops => Loads (files key) load ∧ Honest files ops
  | _, .invalidate files :: ops => Honest files ops

/-- The cache serves the files: a successful read gives exactly the bytes asked for that the
file has; one that fails leaves the page at which it stopped out of the cache; every valid slot
holds a page of its file; and no page is held twice. -/
structure Serves (L : Type) (files : Files) (c : PageCache N) : Prop where
  reads : ∀ key offset room (load : Loader L) l n, Loads (files key) load →
    (c.read key offset room load l).1 = .ok n →
    n = min ((files key).length - offset) room ∧
      (c.read key offset room load l).2.1 = ((files key).drop offset).take room
  fails : ∀ key offset room (load : Loader L) l e, Loads (files key) load →
    PageCache.Accepted N key offset room → (c.read key offset room load l).1 = .error e →
    (c.read key offset room load l).2.2.1.lookup key
      ((offset + (c.read key offset room load l).2.1.length) / pageSize) = none
  slots : ∀ i, (c.slots i).valid = true →
    (c.slots i).data.slice 0 (c.slots i).length = filePage (files (c.slots i).name) (c.slots i).page
  unique : ∀ i j, (c.slots i).valid = true → (c.slots j).valid = true →
    (c.slots i).name = (c.slots j).name → (c.slots i).page = (c.slots j).page → i = j

variable {files : Files}

theorem PageCache.Coherent.serves {c : PageCache N} (h : Coherent files c) : Serves L files c := by
  refine ⟨fun key offset room load l n hload hn => ?_,
    fun key offset room load l e hload haccepted he => ?_, h.holds, h.unique⟩
  · by_cases haccepted : Accepted N key offset room
    · obtain ⟨hcount, hall⟩ := (h.read haccepted hload l).all n hn
      refine ⟨?_, hall⟩
      rw [hcount, hall, length_take, length_drop, Nat.min_comm]
    · rw [read_of_not_accepted haccepted] at hn
      cases hn
  · exact (h.read haccepted hload l).missing e he

theorem coherent_run {c : PageCache N} (h : PageCache.Coherent files c)
    {ops : List (Op L)} (hops : Honest files ops) :
    PageCache.Coherent (run (c, files) ops).2 (run (c, files) ops).1 := by
  induction ops generalizing c files with
  | nil => exact h
  | cons op ops ih =>
    cases op with
    | read key offset room load l => exact ih (h.after_read hops.1 offset room l) hops.2
    | invalidate files' => exact ih (coherent_of_invalid fun _ => rfl) hops

/-- After every sequence of reads and invalidations the cache serves the files. -/
theorem run_serves (N : ℕ) (files : Files) (ops : List (Op L)) (h : Honest files ops) :
    Serves L (run (.new N, files) ops).2 (run (.new N, files) ops).1 :=
  (coherent_run (coherent_of_invalid fun _ => rfl) h).serves

/-- Loading from files of one byte. -/
def loadByte : Loader Unit := fun l offset buffer =>
  if offset = 0 then ((.ok 1, buffer.set 0 7), l) else ((.error .deviceFault, buffer), l)

theorem run_serves_two_files :
    Honest (fun _ => [7]) [.read [97] 0 1 loadByte (), .read [98] 0 1 loadByte ()] ∧
      Serves Unit (run (.new 1, fun _ => [7]) [.read [97] 0 1 loadByte (),
        .read [98] 0 1 loadByte ()]).2 (run (.new 1, fun _ => [7]) [.read [97] 0 1 loadByte (),
        .read [98] 0 1 loadByte ()]).1 := by
  have hload : Loads [7] loadByte := by
    intro l page buffer data length l' h
    unfold loadByte at h
    split at h
    · rename_i hzero
      cases h
      refine ⟨by decide, ?_⟩
      have hbyte : (buffer.set 0 7).get 0 = 7 := by
        rw [Buffer.get_set]
        rfl
      rw [filePage, hzero]
      exact congrArg (fun byte => [byte]) hbyte
    · cases h
  have hhonest : Honest (fun _ => [7]) [.read [97] 0 1 loadByte (), .read [98] 0 1 loadByte ()] :=
    ⟨hload, hload, trivial⟩
  exact ⟨hhonest, run_serves 1 _ _ hhonest⟩

end WovenHat.FilePages
