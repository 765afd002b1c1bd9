import WovenHat.Library.SeparatedPath
import WovenHat.Model.Vfs.Path

/-! # Canonical paths

The texts that `validate_absolute_path` accepts are the rendered lists of canonical
components, and on them the string functions of the VFS are list operations. -/

namespace WovenHat.Vfs

open Library SeparatedPath

structure CanonicalComponent (c : Str) : Prop where
  ne_nil : c ≠ []
  slash_free : slash ∉ c
  nul_free : (0 : UInt8) ∉ c
  ne_dot : c ≠ ascii ['.']
  ne_dot_dot : c ≠ ascii ['.', '.']
  length_le : c.length ≤ maxDirName

/-- Every component is canonical. -/
def Canonical (cs : List Str) : Prop :=
  ∀ c ∈ cs, CanonicalComponent c

variable {cs : List Str} {c : Str}

theorem Canonical.proper (h : Canonical cs) : Proper slash cs :=
  fun c hc => ⟨(h c hc).ne_nil, (h c hc).slash_free⟩

variable {ds : List Str} {rest : Str}

theorem canonical_append : Canonical (cs ++ ds) ↔ Canonical cs ∧ Canonical ds := by
  simp only [Canonical, List.mem_append, or_imp, forall_and]

theorem badComponent_eq_false_iff (c : Str) : badComponent c = false ↔
      c ≠ [] ∧ c ≠ ascii ['.'] ∧ c ≠ ascii ['.', '.'] ∧ c.length ≤ maxDirName := by
  simp [badComponent, and_assoc]

theorem mem_suffix {b : UInt8} (hb : b ≠ slash) : b ∈ suffix slash cs ↔ ∃ c ∈ cs, b ∈ c := by
  simp [suffix, hb]

theorem validateAbsolutePath_iff (path : Str) : validateAbsolutePath path = .ok () ↔
      ∃ cs, Canonical cs ∧ path = render slash cs ∧ path.length ≤ pathCapacity := by
  constructor
  · intro h
    unfold validateAbsolutePath at h
    split at h
    · simp at h
    split at h
    · simp at h
    split at h
    · simp at h
    rename_i hshape hnul hparts
    simp only [Bool.or_eq_true, List.isEmpty_iff, bne_iff_ne, decide_eq_true_eq, not_or,
      not_not, not_lt] at hshape
    obtain ⟨⟨-, hhead⟩, hlen⟩ := hshape
    obtain ⟨tail, rfl⟩ : ∃ tail, path = slash :: tail := List.head?_eq_some_iff.mp hhead
    by_cases hroot : slash :: tail = rootPath
    · exact ⟨[], by simp [Canonical], hroot, hlen⟩
    refine ⟨tail.splitOn slash, ?_, ?_, hlen⟩
    · intro c hc
      have hbad : badComponent c = false := by
        simp only [Bool.and_eq_true, bne_iff_ne, List.any_eq_true, not_and, not_exists,
          Bool.not_eq_true, List.tail_cons] at hparts
        exact hparts hroot c hc
      obtain ⟨hne, hdot, hdots, hmax⟩ := (badComponent_eq_false_iff c).mp hbad
      refine ⟨hne, not_mem_of_mem_splitOn tail c hc, ?_, hdot, hdots, hmax⟩
      intro hzero
      apply hnul
      rw [List.contains_iff_mem, ← suffix_splitOn tail, mem_suffix (by decide)]
      exact ⟨c, hc, hzero⟩
    · rw [render_of_ne_nil (List.splitOn_ne_nil slash tail), suffix_splitOn]
  · rintro ⟨cs, hcs, rfl, hlen⟩
    obtain ⟨tail, htail⟩ := head_render slash cs
    have hnul : (0 : UInt8) ∉ render slash cs := by
      cases cs with
      | nil => decide
      | cons c cs =>
        rw [render, mem_suffix (by decide)]
        rintro ⟨d, hd, hzero⟩
        exact (hcs d hd).nul_free hzero
    have hparts : render slash cs = rootPath ∨
        ((render slash cs).tail.splitOn slash).any badComponent = false := by
      by_cases hne : cs = []
      · subst hne
        exact .inl rfl
      right
      rw [render_of_ne_nil hne, splitOn_tail_suffix hne hcs.proper.sep_free, List.any_eq_false]
      intro c hc
      rw [Bool.not_eq_true, badComponent_eq_false_iff]
      exact ⟨(hcs c hc).ne_nil, (hcs c hc).ne_dot, (hcs c hc).ne_dot_dot, (hcs c hc).length_le⟩
    unfold validateAbsolutePath
    rw [if_neg (by simp [htail] at hlen ⊢; omega), if_neg (by simpa using hnul), if_neg]
    rcases hparts with hroot | hparts
    · simp [hroot]
    · simp [hparts]

/-! ## Prefixes -/

theorem stripPrefix_eq_some {directory path : Str} :
    stripPrefix directory path = some rest ↔ path = directory ++ rest := by
  unfold stripPrefix
  constructor
  · intro h
    split at h
    · rename_i hpre
      obtain ⟨t, rfl⟩ := List.isPrefixOf_iff_prefix.mp hpre
      simpa using h
    · simp at h
  · rintro rfl
    rw [if_pos (List.isPrefixOf_iff_prefix.mpr (List.prefix_append directory rest))]
    simp

theorem descendantSuffix_eq_some {directory path : Str} :
    descendantSuffix directory path = some rest ↔
      path = directory ++ rest ∧ ∃ tail, rest = slash :: tail := by
  simp only [descendantSuffix, Option.filter_eq_some_iff, stripPrefix_eq_some, beq_iff_eq,
    List.head?_eq_some_iff]

variable {os ps : List Str}

/-- A rendered path continues another one at a slash exactly when its components do. -/
theorem render_eq_append (ho : Proper slash os)
    (hp : Proper slash ps) (hos : os ≠ []) (hrest : Boundary slash rest) :
    render slash ps = render slash os ++ rest ↔ ∃ qs, ps = os ++ qs ∧ rest = suffix slash qs := by
  rw [render_of_ne_nil hos]
  constructor
  · intro h
    have hps : ps ≠ [] := by
      rintro rfl
      cases os with
      | nil => exact hos rfl
      | cons o os =>
        have hne := (ho o (by simp)).1
        simp only [render, suffix_cons, List.cons_append, List.cons.injEq, true_and] at h
        have hnil := List.append_eq_nil_iff.mp h.symm
        exact hne (List.append_eq_nil_iff.mp hnil.1).1
    rw [render_of_ne_nil hps] at h
    obtain ⟨qs, hqs, hsuffix⟩ := suffix_eq_append ho.sep_free hp.sep_free hrest h
    exact ⟨qs, hqs, hsuffix.symm⟩
  · rintro ⟨qs, rfl, rfl⟩
    rw [render_of_ne_nil (by simp [hos]), suffix_append]

theorem descendantSuffix_render (ho : Proper slash os) (hp : Proper slash ps) (hos : os ≠ []) :
    descendantSuffix (render slash os) (render slash ps) = some rest ↔
      ∃ qs, qs ≠ [] ∧ ps = os ++ qs ∧ rest = suffix slash qs := by
  rw [descendantSuffix_eq_some]
  constructor
  · rintro ⟨hpath, tail, htail⟩
    obtain ⟨qs, hps, hrest⟩ := (render_eq_append ho hp hos (.inr ⟨tail, htail⟩)).mp hpath
    refine ⟨qs, ?_, hps, hrest⟩
    rintro rfl
    simp [htail] at hrest
  · rintro ⟨qs, hqs, rfl, rfl⟩
    refine ⟨(render_eq_append ho hp hos (boundary_suffix qs)).mpr ⟨qs, rfl, rfl⟩, ?_⟩
    cases qs with
    | nil => exact (hqs rfl).elim
    | cons q qs => exact ⟨q ++ suffix slash qs, rfl⟩

theorem descendantSuffix_isSome (ho : Proper slash os) (hp : Proper slash ps) (hos : os ≠ []) :
    (descendantSuffix (render slash os) (render slash ps)).isSome ↔
      ∃ qs, qs ≠ [] ∧ ps = os ++ qs := by
  rw [Option.isSome_iff_exists]
  constructor
  · rintro ⟨rest, hrest⟩
    obtain ⟨qs, hqs, hps, -⟩ := (descendantSuffix_render ho hp hos).mp hrest
    exact ⟨qs, hqs, hps⟩
  · rintro ⟨qs, hqs, hps⟩
    exact ⟨suffix slash qs, (descendantSuffix_render ho hp hos).mpr ⟨qs, hqs, hps, rfl⟩⟩

/-! ## Parents and children -/

theorem rfind_append {byte : UInt8} (xs ys : Str) (hys : byte ∉ ys) :
    rfind byte (xs ++ byte :: ys) = some xs.length := by
  have hfind : (ys.reverse ++ byte :: xs.reverse).findIdx? (· == byte) = some ys.length := by
    rw [List.findIdx?_append, List.findIdx?_eq_none_iff.mpr]
    · simp [List.findIdx?_cons]
    intro x hx
    simp only [beq_eq_false_iff_ne]
    rintro rfl
    exact hys (List.mem_reverse.mp hx)
  simp only [rfind, List.reverse_append, List.reverse_cons, List.append_assoc,
    List.singleton_append, hfind, Option.map_some, List.length_append, List.length_cons,
    Option.some.injEq]
  omega

theorem parentPath_render (h : Proper slash (cs ++ [c])) :
    parentPath (render slash (cs ++ [c])) = some (render slash cs) := by
  obtain ⟨hcs, hc⟩ := proper_append.mp h
  obtain ⟨hne, hfree⟩ := hc c (by simp)
  have htext : render slash (cs ++ [c]) = suffix slash cs ++ slash :: c := by
    rw [render_of_ne_nil (by simp), suffix_append]
    simp
  have hroot : suffix slash cs ++ slash :: c ≠ rootPath := by
    intro hroot
    have hlen := congrArg List.length hroot
    simp only [List.length_append, List.length_cons, rootPath, List.length_nil] at hlen
    exact hne (List.length_eq_zero_iff.mp (by omega))
  have htrim : (suffix slash cs ++ slash :: c).rdropWhile (· == slash) =
      suffix slash cs ++ slash :: c := by
    rw [List.rdropWhile_eq_self_iff]
    intro hnil hlast
    simp only [List.getLast_append_of_ne_nil _ (List.cons_ne_nil slash c),
      List.getLast_cons hne, beq_iff_eq] at hlast
    exact hfree (hlast ▸ List.getLast_mem hne)
  unfold parentPath
  rw [htext, if_neg hroot]
  simp only [htrim, rfind_append (suffix slash cs) c hfree]
  cases cs with
  | nil => rfl
  | cons d ds => exact congrArg some List.take_left

theorem childName_tail {q : Str} {qs : List Str} (h : Proper slash (q :: qs)) :
    (if (q ++ suffix slash qs).contains slash then none else some (q ++ suffix slash qs)) =
      some c ↔ q :: qs = [c] := by
  cases qs with
  | nil =>
    have hfree : slash ∉ q := (h q (by simp)).2
    simp [hfree]
  | cons q' qs => simp

theorem immediateChildName_render (hd : Proper slash ds) (hc : Proper slash cs) :
    immediateChildName (render slash ds) (render slash cs) = some c ↔ cs = ds ++ [c] := by
  unfold immediateChildName
  by_cases heq : cs = ds
  · subst heq
    simp
  have htext : render slash cs ≠ render slash ds := fun h => heq (render_injective hc hd h)
  rw [if_neg htext]
  cases ds with
  | nil =>
    rw [if_pos (show render slash [] = rootPath from rfl)]
    cases cs with
    | nil => exact (heq rfl).elim
    | cons q qs =>
      have hlen : 0 < q.length := List.length_pos_iff.mpr (hc q (by simp)).1
      have hshape : ¬ ((render slash (q :: qs)).head? ≠ some slash ∨
          (render slash (q :: qs)).length < 2) := by
        simp only [render, suffix_cons, List.head?_cons, List.length_cons, List.length_append]
        simp only [ne_eq, not_true_eq_false, false_or, not_lt]
        omega
      rw [if_neg hshape]
      exact childName_tail hc
  | cons d ds =>
    have hroot : render slash (d :: ds) ≠ rootPath := by
      have hne := (hd d (by simp)).1
      intro h
      simp only [render, suffix_cons, rootPath, List.cons.injEq, true_and] at h
      exact hne (List.append_eq_nil_iff.mp h).1
    rw [if_neg hroot]
    cases hstrip : stripPrefix (render slash (d :: ds)) (render slash cs) with
    | none =>
      simp only [reduceCtorEq, false_iff]
      rintro rfl
      have happend := (render_eq_append hd hc (by simp) (boundary_suffix [c])).mpr ⟨[c], rfl, rfl⟩
      rw [stripPrefix_eq_some.mpr happend] at hstrip
      simp at hstrip
    | some rest =>
      have happend := stripPrefix_eq_some.mp hstrip
      by_cases hhead : rest.head? = some slash
      · obtain ⟨tail, rfl⟩ := List.head?_eq_some_iff.mp hhead
        obtain ⟨qs, rfl, hqs⟩ := (render_eq_append hd hc (by simp) (.inr ⟨tail, rfl⟩)).mp happend
        cases qs with
        | nil => simp at hqs
        | cons q qs =>
          have hproper := (proper_append.mp hc).2
          have hne := (hproper q (by simp)).1
          simp only [suffix_cons, List.cons.injEq, true_and] at hqs
          subst hqs
          simp [hne, ← childName_tail hproper]
      · simp only [hhead, ne_eq, not_false_eq_true, if_true, reduceCtorEq, false_iff]
        rintro rfl
        rw [(render_eq_append hd hc (by simp) (boundary_suffix [c])).mpr ⟨[c], rfl, rfl⟩] at happend
        rw [← List.append_cancel_left happend] at hhead
        simp at hhead

end WovenHat.Vfs
