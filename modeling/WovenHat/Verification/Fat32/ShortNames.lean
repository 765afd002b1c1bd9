import WovenHat.Model.Fat32.Directory

/-! # Short names

Encoding forgets the case of a name and a dot at its end, and nothing else. -/

namespace WovenHat.Fat32

open List Option

/-! ## Characters -/

/-- A letter, a digit, an underscore or a dash. -/
def NameChar (byte : UInt8) : Prop :=
  (0x41 ≤ byte ∧ byte ≤ 0x5a) ∨ (0x61 ≤ byte ∧ byte ≤ 0x7a) ∨ (0x30 ≤ byte ∧ byte ≤ 0x39) ∨
    byte = 0x5f ∨ byte = 0x2d

instance : DecidablePred NameChar := fun byte => by unfold NameChar; infer_instance

def upper (byte : UInt8) : UInt8 := if 0x61 ≤ byte ∧ byte ≤ 0x7a then byte - 0x20 else byte

def lower (byte : UInt8) : UInt8 := if 0x41 ≤ byte ∧ byte ≤ 0x5a then byte + 0x20 else byte

theorem forall_byte {P : UInt8 → Prop} (h : ∀ n : Fin 256, P (UInt8.ofNat n)) (byte : UInt8) :
    P byte := by
  simpa using h byte.toFin

/-- What the two translations and the change of case do, decided for all 256 bytes. -/
theorem byte_cases : ∀ byte, toFatChar byte = (if NameChar byte then some (upper byte) else none) ∧
    toLower byte = (if NameChar byte then some (lower byte) else none) ∧
    upper (lower byte) = upper byte ∧ lower (upper byte) = lower byte ∧
    (NameChar (lower byte) ↔ NameChar byte) ∧ (NameChar (upper byte) ↔ NameChar byte) ∧
    (upper byte = byte ↔ ¬(0x61 ≤ byte ∧ byte ≤ 0x7a)) :=
  forall_byte (by decide +kernel)

variable (byte : UInt8)

theorem toFatChar_eq : toFatChar byte = if NameChar byte then some (upper byte) else none :=
  (byte_cases byte).1

theorem toLower_eq : toLower byte = if NameChar byte then some (lower byte) else none :=
  (byte_cases byte).2.1

@[simp] theorem upper_lower : upper (lower byte) = upper byte :=
  (byte_cases byte).2.2.1

@[simp] theorem lower_upper : lower (upper byte) = lower byte :=
  (byte_cases byte).2.2.2.1

@[simp] theorem nameChar_lower : NameChar (lower byte) ↔ NameChar byte :=
  (byte_cases byte).2.2.2.2.1

@[simp] theorem nameChar_upper : NameChar (upper byte) ↔ NameChar byte :=
  (byte_cases byte).2.2.2.2.2.1

theorem upper_eq_self : upper byte = byte ↔ ¬(0x61 ≤ byte ∧ byte ≤ 0x7a) :=
  (byte_cases byte).2.2.2.2.2.2

theorem NameChar.ne {byte : UInt8} (h : NameChar byte) :
    byte ≠ 0 ∧ byte ≠ 0xe5 ∧ byte ≠ 0x2e ∧ byte ≠ 0x20 := by
  refine ⟨?_, ?_, ?_, ?_⟩ <;> rintro rfl <;> revert h <;> decide

theorem bne_of_chars {bytes : List UInt8} {c : UInt8} (h : ∀ byte ∈ bytes, NameChar byte)
    (hc : ¬NameChar c) : ∀ byte ∈ bytes, (byte != c) = true :=
  fun byte hbyte => bne_iff_ne.mpr fun heq => hc (heq ▸ h byte hbyte)

theorem mapM_eq_some {f : UInt8 → Option UInt8} {g : UInt8 → UInt8}
    (hf : ∀ byte, f byte = if NameChar byte then some (g byte) else none) {text out : List UInt8} :
    text.mapM f = some out ↔ (∀ byte ∈ text, NameChar byte) ∧ out = text.map g := by
  induction text generalizing out with
  | nil => simp [eq_comm]
  | cons byte text ih =>
    by_cases hbyte : NameChar byte
    · simp [hf, hbyte, bind_eq_some_iff, ih]
      tauto
    · simp [hf, hbyte]

/-! ## Fields -/

variable (field : List UInt8)

/-- A field of a short name is its text up to the first space. -/
def text : List UInt8 := field.takeWhile (· != 0x20)

theorem length_text_le : (text field).length ≤ field.length :=
  (takeWhile_sublist _).length_le

theorem length_padded {width : ℕ} {bytes : List UInt8} (h : bytes.length ≤ width) :
    (padded width bytes).length = width := by
  simp [padded, h]

theorem text_padded {bytes : List UInt8} (h : ∀ byte ∈ bytes, NameChar byte) (width : ℕ) :
    text (padded width bytes) = bytes := by
  rw [text, padded, takeWhile_append_of_pos (bne_of_chars h (c := 0x20) (by decide))]
  simp

theorem any_padded {bytes : List UInt8} (h : ∀ byte ∈ bytes, NameChar byte) (width : ℕ) :
    (padded width bytes).any (· != 0x20) = true ↔ bytes ≠ [] := by
  cases bytes with
  | nil => simp [padded]
  | cons byte bytes => simp [padded, (h byte mem_cons_self).ne]

/-! ## Names in two parts -/

/-- A name of one to eight characters, which may be followed by a dot and up to three more. -/
structure SplitsAs (name base ext : List UInt8) : Prop where
  name_eq : (name = base ∧ ext = []) ∨ name = base ++ 0x2e :: ext
  base_ne : base ≠ []
  base_le : base.length ≤ 8
  ext_le : ext.length ≤ 3
  base_chars : ∀ byte ∈ base, NameChar byte
  ext_chars : ∀ byte ∈ ext, NameChar byte

/-- The eleven bytes of a name in two parts. -/
def fields (base ext : List UInt8) : List UInt8 :=
  padded 8 (base.map upper) ++ padded 3 (ext.map upper)

/-- A name in lower case, without a dot at its end. -/
def normal (name : List UInt8) : List UInt8 :=
  if name.getLast? = some 0x2e then (name.map lower).dropLast else name.map lower

variable {name base ext short : List UInt8}

theorem encodeShortName_iff : encodeShortName name = some short ↔
      ∃ base ext, SplitsAs name base ext ∧ short = fields base ext := by
  constructor
  · intro h
    unfold encodeShortName at h
    split at h
    · cases h
    dsimp only at h
    split at h
    · cases h
    rename_i hbad
    simp only [not_or, not_lt] at hbad
    simp only [bind_eq_bind, bind_eq_some_iff, mapM_eq_some toFatChar_eq] at h
    obtain ⟨_, ⟨hbase, rfl⟩, _, ⟨hext, rfl⟩, h⟩ := h
    refine ⟨_, _, ⟨?_, hbad.1, hbad.2.1, hbad.2.2.1, hbase, hext⟩, (some.inj h).symm⟩
    have hname := name.takeWhile_append_dropWhile (p := (· != 0x2e))
    cases hrest : name.dropWhile (· != 0x2e) with
    | nil => exact .inl ⟨by simpa [hrest, eq_comm] using hname, rfl⟩
    | cons dot rest =>
      have hdot := head?_dropWhile_not (· != 0x2e) name
      simp_all
  · rintro ⟨base, ext, h, rfl⟩
    have hbase := (mapM_eq_some toFatChar_eq).mpr ⟨h.base_chars, rfl⟩
    have hext := (mapM_eq_some toFatChar_eq).mpr ⟨h.ext_chars, rfl⟩
    have hdot : (0x2e : UInt8) ∉ ext := fun hdot => (h.ext_chars _ hdot).ne.2.2.1 rfl
    have hne := bne_of_chars h.base_chars (c := 0x2e) (by decide)
    have hbase_le := h.base_le
    have hext_le := h.ext_le
    rcases h.name_eq with ⟨rfl, rfl⟩ | rfl
    · simp [encodeShortName, takeWhile_eq_self_iff.mpr hne,
        dropWhile_eq_nil_iff.mpr hne, h.base_ne, hbase, fields, padded]
      omega
    · simp [encodeShortName, takeWhile_append_of_pos hne, dropWhile_append_of_pos hne,
        h.base_ne, hbase, hext, fields, hdot]
      omega

/-- Decoding reads the text of the two fields, and the second one only when it is not blank. -/
theorem shortNameToStr_iff : shortNameToStr short = some name ↔
      text (short.take 8) ≠ [] ∧ (∀ byte ∈ text (short.take 8), NameChar byte) ∧
        if (short.drop 8).any (· != 0x20) then
          (∀ byte ∈ text (short.drop 8), NameChar byte) ∧
            name = (text (short.take 8)).map lower ++ 0x2e :: (text (short.drop 8)).map lower
        else name = (text (short.take 8)).map lower := by
  have htext (field out : List UInt8) : (field.takeWhile (· != 0x20)).mapM toLower = some out ↔
      (∀ byte ∈ text field, NameChar byte) ∧ out = (text field).map lower :=
    mapM_eq_some toLower_eq
  simp only [shortNameToStr, bind_eq_bind, bind_eq_some_iff, htext]
  constructor
  · rintro ⟨_, ⟨hbase, rfl⟩, h⟩
    split at h
    · cases h
    rename_i hne
    refine ⟨by simpa using hne, hbase, ?_⟩
    split at h
    · simp_all [bind_eq_some_iff]
    · rw [if_neg ‹_›]
      exact (some.inj h).symm
  · rintro ⟨hne, hbase, h⟩
    refine ⟨_, ⟨hbase, rfl⟩, ?_⟩
    rw [if_neg (by simpa using hne)]
    split at h
    · simp_all [bind_eq_some_iff]
    · simp_all

theorem SplitsAs.normal_eq (h : SplitsAs name base ext) :
    normal name = base.map lower ++ if ext = [] then [] else 0x2e :: ext.map lower := by
  obtain ⟨init, last, rfl⟩ := eq_nil_or_concat base |>.resolve_left h.base_ne
  rcases h.name_eq with ⟨rfl, rfl⟩ | rfl
  · have hlast := (h.base_chars last (by simp)).ne
    simp [normal, hlast]
  rcases eq_nil_or_concat ext with rfl | ⟨init', last', rfl⟩
  · simp [normal]
  have hlast := (h.ext_chars last' (by simp)).ne
  have hdot : lower 0x2e = 0x2e := by decide
  simp [normal, hdot, hlast, getLast?_append, getLast?_cons]

theorem SplitsAs.encode_lower {name' : List UInt8} (h : SplitsAs name base ext)
    (hname : (name' = base.map lower ∧ ext = []) ∨
      name' = base.map lower ++ 0x2e :: ext.map lower) :
    encodeShortName name' = some (fields base ext) := by
  refine encodeShortName_iff.mpr ⟨base.map lower, ext.map lower,
    ⟨by simpa using hname, by simp [h.base_ne], by simp [h.base_le], by simp [h.ext_le],
      by simpa using h.base_chars, by simpa using h.ext_chars⟩, by simp [fields, Function.comp_def]⟩

theorem encodeShortName_normal (h : encodeShortName name = some short) :
    encodeShortName (normal name) = some short := by
  obtain ⟨base, ext, hsplit, rfl⟩ := encodeShortName_iff.mp h
  refine hsplit.encode_lower ?_
  rw [hsplit.normal_eq]
  split
  · simp_all
  · exact .inr rfl

theorem shortNameToStr_encodeShortName (h : encodeShortName name = some short) :
    shortNameToStr short = some (normal name) := by
  obtain ⟨base, ext, hsplit, rfl⟩ := encodeShortName_iff.mp h
  have hbase : ∀ byte ∈ base.map upper, NameChar byte := by simpa using hsplit.base_chars
  have hext : ∀ byte ∈ ext.map upper, NameChar byte := by simpa using hsplit.ext_chars
  have hlen : (padded 8 (base.map upper)).length = 8 :=
    length_padded (by simpa using hsplit.base_le)
  rw [shortNameToStr_iff, fields, take_left' hlen, drop_left' hlen,
    text_padded hbase, text_padded hext, hsplit.normal_eq]
  refine ⟨by simpa using hsplit.base_ne, hbase, ?_⟩
  by_cases hblank : ext = []
  · simp [hblank, padded, Function.comp_def]
  · rw [if_pos ((any_padded hext 3).mpr (by simpa using hblank))]
    exact ⟨hext, by simp [hblank, Function.comp_def]⟩

/-- What the rest of the volume code relies on about encoded names. -/
structure IsShortName (short : List UInt8) : Prop where
  length : short.length = 11
  first : short.getD 0 0 ≠ 0 ∧ short.getD 0 0 ≠ 0xe5
  notDot : short ≠ dotName ∧ short ≠ dotdotName

theorem head_of_encode (h : encodeShortName name = some short) :
    ∃ first rest, short = first :: rest ∧ NameChar first := by
  obtain ⟨base, ext, hsplit, rfl⟩ := encodeShortName_iff.mp h
  obtain ⟨first, rest, rfl⟩ := exists_cons_of_ne_nil hsplit.base_ne
  exact ⟨upper first, _, rfl, by simpa using hsplit.base_chars first⟩

theorem isShortName_of_encode (h : encodeShortName name = some short) : IsShortName short := by
  obtain ⟨first, rest, rfl, hfirst⟩ := head_of_encode h
  obtain ⟨base, ext, hsplit, heq⟩ := encodeShortName_iff.mp h
  refine ⟨?_, ⟨hfirst.ne.1, hfirst.ne.2.1⟩, ?_⟩
  · rw [heq, fields, length_append, length_padded (by simpa using hsplit.base_le),
      length_padded (by simpa using hsplit.ext_le)]
  · constructor <;> intro heq <;> exact hfirst.ne.2.2.1 (cons.inj heq).1

/-- Names are encoded when they have the form of a short name; decoding gives the name back up
to case and a dot at its end, so no two other names share a code. -/
theorem encodeShortName_exact :
    (∀ name, (encodeShortName name).isSome ↔ ∃ base ext, SplitsAs name base ext) ∧
      (∀ name short, encodeShortName name = some short →
        shortNameToStr short = some (normal name) ∧
          short.head? ≠ some 0 ∧ short.head? ≠ some 0xe5 ∧ short.head? ≠ some 0x2e) ∧
      ∀ name name' short short', encodeShortName name = some short →
        encodeShortName name' = some short' → (short = short' ↔ normal name = normal name') := by
  refine ⟨fun name => ?_, fun name short h => ⟨shortNameToStr_encodeShortName h, ?_⟩,
    fun name name' short short' h h' => ⟨fun heq => ?_, fun heq => ?_⟩⟩
  · simp only [Option.isSome_iff_exists, encodeShortName_iff]
    constructor
    · rintro ⟨_, base, ext, h, _⟩
      exact ⟨base, ext, h⟩
    · rintro ⟨base, ext, h⟩
      exact ⟨_, base, ext, h, rfl⟩
  · obtain ⟨first, rest, rfl, hfirst⟩ := head_of_encode h
    simp [hfirst.ne]
  · have hname := shortNameToStr_encodeShortName h
    rw [heq, shortNameToStr_encodeShortName h'] at hname
    exact (Option.some.inj hname).symm
  · have hshort := encodeShortName_normal h
    rw [heq, encodeShortName_normal h'] at hshort
    exact (Option.some.inj hshort).symm

/-! ## Names of other systems -/

/-- A field whose letters are capitals and whose spaces are at its end. -/
def CleanField : Prop :=
  (∀ byte ∈ field, ¬(0x61 ≤ byte ∧ byte ≤ 0x7a)) ∧ ∀ byte ∈ field.dropWhile (· != 0x20), byte = 0x20

theorem padded_text_iff :
    padded field.length ((text field).map upper) = field ↔ CleanField field := by
  have happend : text field ++ field.dropWhile (· != 0x20) = field :=
    field.takeWhile_append_dropWhile
  have hlen : field.length - (text field).length = (field.dropWhile (· != 0x20)).length := by
    rw [← congrArg length happend, length_append, Nat.add_sub_cancel_left]
  have hclean : CleanField field ↔ (∀ byte ∈ text field, upper byte = byte) ∧
      ∀ byte ∈ field.dropWhile (· != 0x20), byte = 0x20 := by
    simp only [CleanField, upper_eq_self]
    refine and_congr_left fun hrest => ⟨fun h byte hbyte => h byte ?_, fun h byte hbyte => ?_⟩
    · exact happend ▸ mem_append_left _ hbyte
    rcases mem_append.mp (happend ▸ hbyte) with hbyte | hbyte
    · exact h byte hbyte
    · rw [hrest byte hbyte]
      decide
  rw [hclean, padded, length_map, hlen]
  constructor
  · intro h
    obtain ⟨htext, hrest⟩ := append_inj (h.trans happend.symm) (by simp)
    exact ⟨map_inj_left.mp (htext.trans (map_id' _).symm),
      fun byte hbyte => eq_of_mem_replicate (hrest ▸ hbyte)⟩
  · rintro ⟨htext, hrest⟩
    rw [List.map_congr_left htext, List.map_id', ← List.eq_replicate_of_mem hrest, happend]

/-- An imported name leads back to its entry exactly when both fields of the entry are clean. -/
theorem encodeShortName_imported_iff (hlength : short.length = 11)
    (h : shortNameToStr short = some name) : encodeShortName name = some short ↔
      CleanField (short.take 8) ∧ CleanField (short.drop 8) := by
  obtain ⟨hne, hbase, h⟩ := shortNameToStr_iff.mp h
  have htake : (short.take 8).length = 8 := by simp [hlength]
  have hdrop : (short.drop 8).length = 3 := by simp [hlength]
  have hbase_le := length_text_le (short.take 8)
  have hext_le := length_text_le (short.drop 8)
  rw [htake] at hbase_le
  rw [hdrop] at hext_le
  have hcode : encodeShortName name =
      some (fields (text (short.take 8)) (text (short.drop 8))) := by
    split at h
    · exact SplitsAs.encode_lower ⟨.inr rfl, hne, hbase_le, hext_le, hbase, h.1⟩ (.inr h.2)
    have hnil : text (short.drop 8) = [] := by
      cases hfield : short.drop 8 with
      | nil => rfl
      | cons byte rest => simp_all [text]
    rw [hnil]
    exact SplitsAs.encode_lower ⟨.inr rfl, hne, hbase_le, by simp, hbase, nofun⟩ (.inl ⟨h, rfl⟩)
  rw [← padded_text_iff, ← padded_text_iff, htake, hdrop, hcode, Option.some_inj]
  constructor
  · intro heq
    refine append_inj (heq.trans (short.take_append_drop 8).symm) ?_
    rw [htake, length_padded (by simpa using hbase_le)]
  · rintro ⟨hl, hr⟩
    rw [fields, hl, hr, take_append_drop]

theorem encodeShortName_imported_iff_kernel :
    let short := "KERNEL  BIN".toUTF8.data.toList
    let name := "kernel.bin".toUTF8.data.toList
    encodeShortName name = some short ↔ CleanField (short.take 8) ∧ CleanField (short.drop 8) :=
  encodeShortName_imported_iff (by decide) (by decide)

/-- An entry written with a small letter is imported under a name that leads to another entry. -/
theorem encodeShortName_imported_small : shortNameToStr (padded 11 [0x61]) = some [0x61] ∧
      encodeShortName [0x61] = some (padded 11 [0x41]) ∧
      padded 11 [0x41] ≠ padded 11 [0x61] := by
  decide

end WovenHat.Fat32
