import WovenHat.Library.SlotTable
import WovenHat.Model.Vfs.PathBuffers
import WovenHat.Verification.Vfs.Invariant

/-! # Renaming in place

The shifting of the path buffers does to the texts what the registry model says, without a
slice out of range, and so a rename moves exactly one subtree. -/

namespace WovenHat.Vfs

open Library SeparatedPath List Option Buffer Registry PathBuffer

namespace PathBuffer

variable {b b' : PathBuffer} {new : Str} {start : ℕ}

@[simp] theorem length_text (b : PathBuffer) : b.text.length = b.length := by
  simp [text]

theorem text_length_le (b : PathBuffer) : b.text.length ≤ pathCapacity := by
  rw [length_text]
  exact b.fits

theorem slice_eq_drop_text (b : PathBuffer) (start : ℕ) :
    b.bytes.slice start (b.length - start) = b.text.drop start := by
  apply ext_getElem
  · simp
  · intro i hi _
    simp [text, slice]

theorem replacePrefix_text (b : PathBuffer) (hfits : new.length + (b.length - start) ≤ pathCapacity)
    : ∃ b', b.replacePrefix start new = some b' ∧ b'.text = new ++ b.text.drop start := by
  refine ⟨_, dif_pos hfits, ?_⟩
  rw [← slice_eq_drop_text b start]
  change slice _ 0 (new.length + (b.length - start)) = _
  dsimp only
  generalize hrest : b.bytes.slice start (b.length - start) = rest
  have hlen : rest.length = b.length - start := by
    rw [← hrest, length_slice]
  rw [← hlen] at hfits ⊢
  apply ext_getElem
  · simp
  intro i hi _
  rw [length_slice] at hi
  -- the position lies before the filled zeros, and in the new path or in the shifted rest
  simp only [slice, getElem_map, getElem_range, Nat.zero_add]
  rw [get_write, if_neg (by omega), get_write]
  by_cases hnew : i < new.length
  · rw [if_pos ⟨Nat.zero_le i, by omega, by omega⟩]
    simp [hnew]
  · rw [if_neg (by omega), get_write, if_pos (by omega)]
    rw [getElem_append_right (by omega), getD_eq_getElem _ _ (by omega)]

end PathBuffer

/-! ## The loop over the table -/

variable {old : Str} {r : Registry} {new path : Str} {directory : Bool}

/-- The condition under which a text is moved, and the room that it then needs. -/
theorem renamePath_text (b : PathBuffer) (hnew : new.length ≤ pathCapacity)
    (hfits : renameTooLong old new b.text directory = false) :
    ∃ b', NodeBuffer.renamePath old new directory b = some b' ∧
      b'.text = renamePath old new directory b.text := by
  unfold NodeBuffer.renamePath renamePath
  by_cases hmoved : (b.text == old || (directory && (descendantSuffix old b.text).isSome)) = true
  · rw [if_pos hmoved, if_pos hmoved]
    apply b.replacePrefix_text
    rw [← b.length_text]
    by_cases hold : b.text = old
    · rw [hold]
      omega
    have hbelow : directory = true ∧ (descendantSuffix old b.text).isSome := by
      simpa [hold] using hmoved
    obtain ⟨rest, hrest⟩ := isSome_iff_exists.mp hbelow.2
    simp only [renameTooLong, hbelow.1, if_true, hrest, decide_eq_false_iff_not,
      gt_iff_lt, not_lt] at hfits
    have hlen : rest.length = b.text.length - old.length := by
      simp only [descendantSuffix, stripPrefix, filter_eq_some_iff] at hrest
      split at hrest
      · obtain ⟨heq, -⟩ := hrest
        rw [← some.inj heq, length_drop]
      · cases hrest.1
    omega
  · rw [if_neg hmoved, if_neg hmoved]
    exact ⟨b, rfl, rfl⟩

theorem NodeBuffer.rename_node (n : NodeBuffer) (hnew : new.length ≤ pathCapacity)
    (hfits : renamePreflight old new directory n.node = false) :
    ∃ n', n.rename old new directory = some n' ∧ n'.node = renameNode old new directory n.node := by
  unfold NodeBuffer.rename renameNode
  cases hocc : n.occupied with
  | false => exact ⟨n, rfl, by simp [node, hocc]⟩
  | true =>
    have hpath : renameTooLong old new n.path.text directory = false := by
      simp [renamePreflight, node, hocc] at hfits
      exact hfits.1
    obtain ⟨path, hrun, htext⟩ := renamePath_text n.path hnew hpath
    cases hback : n.backing with
    | none =>
      refine ⟨{ n with path }, ?_, ?_⟩
      · simp [hrun, hocc, hback]
      · simp [node, hocc, hback, htext]
    | some backing =>
      have hbacking : renameTooLong old new backing.text directory = false := by
        simp [renamePreflight, node, hocc, hback] at hfits
        exact hfits.2.1
      obtain ⟨backing', hrun', htext'⟩ := renamePath_text backing hnew hbacking
      refine ⟨{ n with path, backing := some backing' }, ?_, ?_⟩
      · simp [hrun, hrun', hocc]
      · simp [node, hocc, hback, htext, htext']

namespace RegistryBuffer

variable {t t' : RegistryBuffer} {old new : Str} {result : Except Error Unit}

/-- The loop, when the preflight check passed on every node. -/
theorem renameLoop_registry {directory : Bool} (hnew : new.length ≤ pathCapacity)
    (hfits : ∀ i, renamePreflight old new directory (t.registry.nodes i) = false) :
    ∃ t', t.renameLoop old new directory = some t' ∧
      t'.registry = t.registry.renameNodes old new directory := by
  choose node' hrun hnode using fun i => (t.nodes i).rename_node hnew (hfits i)
  refine ⟨{ t with nodes := node' }, ?_, ?_⟩
  · have hloop := SlotTable.foldlM_update (fun _ n => NodeBuffer.rename old new directory n) hrun
      (List.nodup_finRange maxNodes)
    rw [renameLoop, hloop]
    simp
  · simp only [registry, Registry.renameNodes, Registry.mk.injEq, true_and]
    exact funext hnode

/-- The buffers never panic, and they do what the registry model says. -/
theorem rename_refines (t : RegistryBuffer) (old new : Str) :
    (∃ e, t.registry.rename old new = .error e ∧ t.rename old new = some (.error e, t)) ∨
      ∃ t', t.registry.rename old new = .ok t'.registry ∧ t.rename old new = some (.ok (), t') := by
  unfold rename
  cases hvalid : t.registry.validateRename old new with
  | error e =>
    refine .inl ⟨e, ?_, rfl⟩
    simp [Registry.rename, hvalid, bind, Except.bind]
  | ok _ =>
    by_cases heq : old = new
    · subst heq
      refine .inr ⟨t, ?_, by simp⟩
      simp [Registry.rename, hvalid, bind, Except.bind, pure, Except.pure]
    obtain ⟨-, hnew, -, -, -, -, -, index, hindex, hfits⟩ := validateRename_ok hvalid heq
    obtain ⟨_, -, -, hlen⟩ := (validateAbsolutePath_iff new).mp hnew
    obtain ⟨t', hloop, hreg⟩ := renameLoop_registry hlen hfits
    refine .inr ⟨t', ?_, ?_⟩
    · simp [Registry.rename, hvalid, heq, hindex, hreg, bind, Except.bind, pure, Except.pure]
    · simp only [heq, if_false, hindex]
      exact congrArg (Option.map _) hloop

end RegistryBuffer

/-! ## Registries in buffers -/

def PathBuffer.ofStr (path : Str) : PathBuffer :=
  ⟨ofList path, min path.length pathCapacity, min_le_right _ _⟩

theorem PathBuffer.text_ofStr (h : path.length ≤ pathCapacity) : (ofStr path).text = path := by
  apply ext_getElem
  · simp [ofStr, h]
  · intro i hi hi'
    simp [text, slice, ofStr, ofList, hi', show i < pathCapacity by omega]

def Registry.buffer (r : Registry) : RegistryBuffer where
  versions := r.versions
  generations := r.generations
  nodes i :=
    { r.nodes i with
      path := ofStr (r.nodes i).path
      backing := (r.nodes i).backing.map ofStr }

/-- A registry whose paths fit is held by its buffers. -/
theorem Registry.registry_buffer (hpath : ∀ i, (r.nodes i).path.length ≤ pathCapacity)
    (hbacking : ∀ i p, (r.nodes i).backing = some p → p.length ≤ pathCapacity) :
    r.buffer.registry = r := by
  have hnode : ∀ i, (r.buffer.nodes i).node = r.nodes i := by
    intro i
    have hback : ((r.nodes i).backing.map ofStr).map text =
        (r.nodes i).backing := by
      cases hb : (r.nodes i).backing with
      | none => rfl
      | some p => simp [text_ofStr (hbacking i p hb)]
    simp only [buffer, NodeBuffer.node, text_ofStr (hpath i), hback]
  simp only [RegistryBuffer.registry, hnode]
  rfl

/-! ## What a rename moves -/

def Below (old path : Str) : Prop :=
  path = old ∨ ∃ rest, path = old ++ slash :: rest

theorem below_iff : Below old path ↔ path = old ∨ (descendantSuffix old path).isSome := by
  rw [Below, isSome_iff_exists]
  refine or_congr Iff.rfl ⟨?_, ?_⟩
  · rintro ⟨rest, rfl⟩
    exact ⟨slash :: rest, descendantSuffix_eq_some.mpr ⟨rfl, rest, rfl⟩⟩
  rintro ⟨_, hrest⟩
  obtain ⟨hpath, rest, rfl⟩ := descendantSuffix_eq_some.mp hrest
  exact ⟨rest, hpath⟩

/-- What a namespace says of its names, without the backing paths. -/
theorem Namespace.consistent (h : Namespace r) :
    Consistent { r with nodes := fun i => { r.nodes i with backing := none } } := by
  have hname : ∀ {i : NodeId} {cs : List Str}, (r.nodes i).name = some cs →
      (r.nodes i).Named ∧ Canonical cs ∧ (r.nodes i).path = render slash cs := by
    intro i cs hi
    have hnamed : (r.nodes i).Named := by
      by_contra hn
      rw [Node.name_eq_none hn] at hi
      cases hi
    obtain ⟨ds, hds, hpath, -⟩ := (validateAbsolutePath_iff _).mp (h.canonical i hnamed)
    rw [Node.name_render hnamed.1 hpath hds.proper] at hi
    cases hi
    exact ⟨hnamed, hds, hpath⟩
  refine ⟨⟨fun i j p hi hj => ?_, ?_, fun i p a hi => ?_⟩, h.canonical, nofun⟩
  · obtain ⟨hni, -, hpi⟩ := hname hi
    obtain ⟨hnj, -, hpj⟩ := hname hj
    exact h.distinct i j hni hnj (hpi.trans hpj.symm)
  · obtain ⟨i, hmatch, hdir⟩ := h.root
    obtain ⟨hocc, hpath⟩ := matchesPath_iff.mp hmatch
    exact ⟨i, Node.name_render hocc hpath (by simp [Proper]), hdir⟩
  obtain ⟨hnamed, hcs, hpath⟩ := hname hi
  have hroot : (r.nodes i).path ≠ rootPath := hpath ▸ Consistent.render_ne_root hcs.proper
  obtain ⟨above, j, habove, hmatch, hdir⟩ := h.parent i hnamed hroot
  rw [hpath, parentPath_render hcs.proper] at habove
  obtain ⟨hocc, hpathj⟩ := matchesPath_iff.mp hmatch
  rw [← some.inj habove] at hpathj
  exact ⟨j, Node.name_render hocc hpathj (proper_append.mp hcs.proper).1, hdir⟩

theorem Namespace.below_file (h : Namespace r) {index i : NodeId}
    (hvalid : validateAbsolutePath old = .ok ()) (hroot : old ≠ rootPath)
    (hold : (r.nodes index).matchesPath old = true) (hfile : (r.nodes index).kind = .file)
    (hnamed : (r.nodes i).Named) (hbelow : Below old (r.nodes i).path) :
    (r.nodes i).path = old := by
  obtain ⟨os, hos, rfl, -⟩ := (validateAbsolutePath_iff old).mp hvalid
  have hne : os ≠ [] := by
    rintro rfl
    exact hroot rfl
  obtain ⟨hocc, hpath⟩ := matchesPath_iff.mp hold
  obtain ⟨cs, hcs, htext, hname, -⟩ := h.consistent.named (i := i) hnamed
  rcases below_iff.mp hbelow with heq | hsome
  · exact heq
  rw [htext] at hsome
  obtain ⟨qs, hqs, rfl⟩ := (descendantSuffix_isSome hos.proper hcs.proper hne).mp hsome
  exact absurd hname (h.consistent.file_leaf (Node.name_render hocc hpath hos.proper) hfile hqs)

/-- A file that was removed while it was open keeps its slot without a name. The disk does not
back it any more. -/
def Registry.Unlinked (r : Registry) : Prop :=
  ∀ i, (r.nodes i).occupied = true → (r.nodes i).path = [] → (r.nodes i).backing = none

theorem Consistent.unlinked (h : Consistent r) : r.Unlinked := by
  intro i _ hpath
  by_contra hsome
  obtain ⟨p, hp⟩ := Option.ne_none_iff_exists'.mp hsome
  exact (h.backing i p hp).1.2 hpath

/-- After every sequence of VFS calls from boot, only named files are backed by the disk. -/
theorem unlinked_performAll (page : ℕ → Buffer 4096) (calls : List (DiskReader × State.Op)) :
    ((State.boot page).performAll calls).registry.Unlinked :=
  (State.performAll_consistent (v := State.boot page) consistent_boot calls).unlinked

/-- How a rename changes one node: with the old path its name and backing path move, and
without it, also with no name at all, nothing changes. -/
structure Renamed (old new : Str) (n n' : Node) : Prop where
  data : n'.data = n.data
  kind : n'.kind = n.kind
  length : n'.length = n.length
  writable : n'.writable = n.writable
  occupied : n'.occupied = n.occupied
  moved : n.Named → Below old n.path →
    n'.path = new ++ n.path.drop old.length ∧ n'.backing = n.backing.map fun _ => n'.path
  other : (n.Named → ¬Below old n.path) → n' = n

theorem Namespace.renamed (h : Namespace r) (hu : r.Unlinked) {index : NodeId}
    (hvalid : validateAbsolutePath old = .ok ()) (hroot : old ≠ rootPath)
    (hold : (r.nodes index).matchesPath old = true) (i : NodeId) : Renamed old new (r.nodes i)
      (renameNode old new ((r.nodes index).kind == .directory) (r.nodes i)) := by
  generalize hdir : ((r.nodes index).kind == .directory) = directory
  -- a named node is moved exactly if it lies below the old path
  have hiff : (r.nodes i).Named → (((r.nodes i).path == old ||
      (directory && (descendantSuffix old (r.nodes i).path).isSome)) = true ↔
        Below old (r.nodes i).path) := by
    intro hnamed
    cases directory with
    | true => simp [below_iff]
    | false =>
      have hfile : (r.nodes index).kind = .file := by
        cases hkind : (r.nodes index).kind with
        | file => rfl
        | directory => simp [hkind] at hdir
      simp only [Bool.false_and, Bool.or_false, beq_iff_eq]
      exact ⟨.inl, h.below_file hvalid hroot hold hfile hnamed⟩
  have hbacking : (r.nodes i).Named → (r.nodes i).backing = (r.nodes i).backing.map
      fun _ => (r.nodes i).path := by
    intro hnamed
    cases hback : (r.nodes i).backing with
    | none => rfl
    | some p => rw [h.backing i p hnamed hback, map_some]
  unfold renameNode
  by_cases hocc : (r.nodes i).occupied = true
  · rw [if_pos hocc]
    refine ⟨rfl, rfl, rfl, rfl, rfl, fun hnamed hbelow => ?_, fun hout => ?_⟩
    · have hpath : renamePath old new directory (r.nodes i).path =
          new ++ (r.nodes i).path.drop old.length := if_pos ((hiff hnamed).mpr hbelow)
      refine ⟨hpath, ?_⟩
      rw [hbacking hnamed, Option.map_map, Option.map_map]
      rfl
    by_cases hempty : (r.nodes i).path = []
    · have hold' : old ≠ [] := by
        rintro rfl
        cases hvalid
      rw [hu i hocc hempty, hempty, renamePath_nil hold', ← hempty, Option.map_none,
        ← hu i hocc hempty]
    · have hnamed : (r.nodes i).Named := ⟨hocc, hempty⟩
      have hpath : renamePath old new directory (r.nodes i).path = (r.nodes i).path :=
        if_neg fun hmoved => hout hnamed ((hiff hnamed).mp hmoved)
      have hback : (r.nodes i).backing.map (renamePath old new directory) =
          (r.nodes i).backing := by
        rw [hbacking hnamed, Option.map_map]
        simp only [Function.comp_def, hpath]
      rw [hpath, hback]
  · rw [if_neg hocc]
    exact ⟨rfl, rfl, rfl, rfl, rfl, fun hnamed => absurd hnamed.1 hocc, fun _ => rfl⟩

/-- A rename fails without a change, or it moves exactly the old path and what lies below it;
the buffers never overflow. -/
theorem RegistryBuffer.rename_exact (t : RegistryBuffer) (h : Namespace t.registry)
    (hu : t.registry.Unlinked) (old new : Str) :
    ∃ result t', t.rename old new = some (result, t') ∧ (∀ e, result = .error e → t' = t) ∧
      (result = .ok () → old ≠ new →
        t'.versions = t.versions ∧ t'.generations = t.generations ∧
          ∀ i, Renamed old new (t.registry.nodes i) (t'.registry.nodes i) ∧
            (t'.registry.nodes i).path.length ≤ pathCapacity ∧
            ∀ p, (t'.registry.nodes i).backing = some p → p.length ≤ pathCapacity) := by
  rcases t.rename_refines old new with ⟨e, -, hrun⟩ | ⟨t', hmodel, hrun⟩
  · exact ⟨_, t, hrun, fun _ _ => rfl, nofun⟩
  refine ⟨_, t', hrun, nofun, fun _ hne => ?_⟩
  obtain ⟨hvalid, ⟨heq, -⟩ | ⟨-, index, hindex, hregistry⟩⟩ := rename_ok hmodel
  · exact absurd heq hne
  obtain ⟨hold, -, hroot, -⟩ := validateRename_ok hvalid hne
  refine ⟨congrArg Registry.versions hregistry, congrArg Registry.generations hregistry,
    fun i => ⟨?_, (t'.nodes i).path.text_length_le, fun p hp => ?_⟩⟩
  · rw [hregistry]
    exact h.renamed hu hold hroot (position_some hindex) i
  · obtain ⟨b, -, rfl⟩ := Option.map_eq_some_iff.mp hp
    exact b.text_length_le

/-- `/etc/motd` is opened after boot and then removed. -/
def motdUnlinked : Registry :=
  ((State.boot fun _ => Buffer.zero).performAll
    [(fun _ _ buffer => (.error (), buffer), .openPath motd),
      (fun _ _ buffer => (.error (), buffer), .remove motd)]).registry

theorem consistent_motdUnlinked : Consistent motdUnlinked :=
  State.performAll_consistent (v := State.boot _) consistent_boot _

theorem registry_buffer_motdUnlinked : motdUnlinked.buffer.registry = motdUnlinked := by
  have hnode : ∀ i, (motdUnlinked.nodes i).path.length ≤ pathCapacity ∧
      (motdUnlinked.nodes i).backing = none := by
    decide +kernel
  refine registry_buffer (fun i => (hnode i).1) fun i p hp => ?_
  rw [(hnode i).2] at hp
  cases hp

/-- `/etc` can be moved with the file that is left below it, while the removed file is open. -/
theorem RegistryBuffer.rename_exact_motd : ∃ t',
    motdUnlinked.buffer.rename (ascii ['/', 'e', 't', 'c'])
        (ascii ['/', 't', 'm', 'p', '/', 'e']) = some (.ok (), t') ∧
      (t'.registry.nodes ⟨6, by decide⟩).path =
        ascii ['/', 't', 'm', 'p', '/', 'e', '/', 'v', 'e', 'r', 's', 'i', 'o', 'n'] ∧
      (motdUnlinked.nodes ⟨5, by decide⟩).occupied = true ∧
      t'.registry.nodes ⟨5, by decide⟩ = motdUnlinked.nodes ⟨5, by decide⟩ := by
  have hok : (motdUnlinked.rename (ascii ['/', 'e', 't', 'c'])
      (ascii ['/', 't', 'm', 'p', '/', 'e'])).isOk = true := by
    decide +kernel
  have hnodes : (motdUnlinked.nodes ⟨5, by decide⟩).occupied = true ∧
      (motdUnlinked.nodes ⟨5, by decide⟩).path = [] ∧
      (motdUnlinked.nodes ⟨6, by decide⟩).occupied = true ∧
      (motdUnlinked.nodes ⟨6, by decide⟩).path =
        ascii ['/', 'e', 't', 'c', '/', 'v', 'e', 'r', 's', 'i', 'o', 'n'] := by
    decide +kernel
  obtain ⟨result, t', hrun, -, hmoved⟩ := rename_exact motdUnlinked.buffer
    (by rw [registry_buffer_motdUnlinked]; exact consistent_motdUnlinked.namespace)
    (by rw [registry_buffer_motdUnlinked]; exact consistent_motdUnlinked.unlinked)
    (ascii ['/', 'e', 't', 'c']) (ascii ['/', 't', 'm', 'p', '/', 'e'])
  have hresult : result = .ok () := by
    rcases rename_refines motdUnlinked.buffer (ascii ['/', 'e', 't', 'c'])
      (ascii ['/', 't', 'm', 'p', '/', 'e']) with ⟨e, hmodel, -⟩ | ⟨_, -, hrun'⟩
    · rw [registry_buffer_motdUnlinked] at hmodel
      rw [hmodel] at hok
      cases hok
    · exact congrArg Prod.fst (Option.some.inj (hrun.symm.trans hrun'))
  subst hresult
  have hnode := fun i => ((hmoved rfl (by decide)).2.2 i).1
  rw [registry_buffer_motdUnlinked] at hnode
  refine ⟨t', hrun, ?_, hnodes.1, (hnode _).other fun hnamed => absurd hnodes.2.1 hnamed.2⟩
  have hnamed : (motdUnlinked.nodes ⟨6, by decide⟩).Named :=
    ⟨hnodes.2.2.1, by rw [hnodes.2.2.2]; decide⟩
  rw [((hnode _).moved hnamed (.inr ⟨_, hnodes.2.2.2.trans rfl⟩)).1, hnodes.2.2.2]
  rfl

end WovenHat.Vfs
