import WovenHat.Verification.Task.References

/-! # The descriptor table

Over every sequence of calls the descriptors of a process follow the POSIX model: a table of
references to objects, where a new reference takes the lowest free place. The exception is
`dup2_current` of a descriptor to itself, which does not ask whether it is open. -/

namespace WovenHat.Descriptors

open Library WovenHat.Vfs WovenHat.Task WovenHat.Descriptors.System Function Result
open WovenHat.Task.System (ProcessSlot)

/-- The calls of a process on its descriptors. -/
inductive TableCall where
  | openFile (checks : Except FileError Unit) (write : Bool) (path : Str)
  | dup (descriptor : ℕ)
  | dup2 (old new : ℕ)
  | pipe
  | close (descriptor : ℕ)

/-- A call, with the descriptors that it returns. -/
def TableCall.perform (s : System) (slot : ProcessSlot) : TableCall → Result (List ℕ)
  | .openFile checks write path =>
    (s.openCurrent slot checks write path).map (·.map fun d => [d]) id
  | .dup descriptor => (s.dupCurrent slot descriptor).map (·.map fun d => [d]) id
  | .dup2 old new => (s.dup2Current slot old new).map (·.map fun d => [d]) id
  | .pipe => (s.pipeCurrent slot).map (·.map fun (r, w) => [r, w]) id
  | .close descriptor => (s.closeCurrent slot descriptor).map (·.map fun _ => []) id

/-! ## The model -/

/-- The objects that the descriptors refer to. -/
abbrev Files := Fin maxFileDescriptors → Option FdKind

/-- The lowest free descriptor from 3 on. -/
structure Lowest (files : Files) (d : Fin maxFileDescriptors) : Prop where
  from_three : 3 ≤ d.val
  free : files d = none
  least : ∀ i < d, 3 ≤ i.val → files i ≠ none

/-- A successful call in the model: the descriptors it returns, the objects after it and the
table after it. -/
inductive Posix (s : System) (files : Files) : TableCall → List ℕ → System → Files → Prop
  | openFile {checks write path id t d} (hopen : s.openOrCreate write path = (.ok id, t))
      (hd : Lowest files d) :
      Posix s files (.openFile checks write path) [d.val] t (update files d (some (.file id)))
  | dup {old d fd t} (hold : files old = some fd) (hclone : s.cloneFd fd = (.ok (), t))
      (hd : Lowest files d) :
      Posix s files (.dup old) [d.val] t (update files d (some fd))
  | dup2 {old new fd t} (hne : old ≠ new) (hold : files old = some fd)
      (hclone : s.cloneFd fd = (.ok (), t)) :
      Posix s files (.dup2 old new) [new.val] ((files new).elim t t.releaseFd)
        (update files new (some fd))
  | same {d fd} (hold : files d = some fd) : Posix s files (.dup2 d d) [d.val] s files
  | pipe {id pipes r w} (halloc : s.pipes.alloc = (.ok id, pipes)) (hr : Lowest files r)
      (hw : Lowest (update files r (some (.pipeRead id))) w) :
      Posix s files .pipe [r.val, w.val] { s with pipes }
        (update (update files r (some (.pipeRead id))) w (some (.pipeWrite id)))
  | close {d fd} (hd : 3 ≤ Fin.val d) (hfd : files d = some fd) :
      Posix s files (.close d) [] (s.releaseFd fd) (update files d none)

/-- The call has the effect of the model on the table of the process, and no other. -/
def Follows (s : System) (slot : ProcessSlot) (call : TableCall) (reply : List ℕ)
    (s' : System) : Prop :=
  ∃ p t files, s.processes slot = some p ∧ Posix s p.files call reply t files ∧
    t.processes = s.processes ∧ s' = t.setProcess slot (some { p with files })

/-- A closed descriptor is made a copy of itself. -/
def TableCall.CopiesClosed (s : System) (slot : ProcessSlot) (call : TableCall) : Prop :=
  ∃ d : Fin maxFileDescriptors, call = .dup2 d d ∧
    ∀ p, s.processes slot = some p → p.files d = none

/-! ## The calls -/

variable {s s' : System} {slot : ProcessSlot} {p : Process} {d d' : ℕ}

theorem setProcess_releaseFd (q : Option Process) (fd : FdKind) :
    (s.setProcess slot q).releaseFd fd = (s.releaseFd fd).setProcess slot q := by
  cases fd <;> rfl

theorem setProcess_setProcess (q q' : Option Process) :
    (s.setProcess slot q).setProcess slot q' = s.setProcess slot q' := by
  simp only [setProcess, update_idem]

theorem lowest_of_freeDescriptor {d : Fin maxFileDescriptors}
    (h : freeDescriptor p = some d) : Lowest p.files d := by
  obtain ⟨hfree, i, hi, rfl, hleast⟩ := List.find?_eq_some_iff_getElem.mp h
  simp only [List.getElem_finRange, Bool.and_eq_true, decide_eq_true_eq,
    Option.isNone_iff_eq_none] at hfree hleast ⊢
  refine ⟨hfree.1, hfree.2, fun j hj hthree hnone => ?_⟩
  have := hleast j.val hj
  simp [hthree, hnone] at this

theorem openOrCreate_processes {write : Bool} {path : Str} {result : Except FileError OpenFileId}
    (h : s.openOrCreate write path = (result, s')) : s'.processes = s.processes := by
  unfold openOrCreate at h
  repeat' split at h
  all_goals
    cases h
    rfl

theorem openCurrent_follows {checks : Except FileError Unit} {write : Bool} {path : Str}
    (h : s.openCurrent slot checks write path = (.ok d, s')) :
    Follows s slot (.openFile checks write path) [d] s' := by
  unfold openCurrent at h
  split at h
  · cases h
  split at h
  · cases h
  rename_i file t hfile
  unfold installDescriptor at h
  split at h
  · cases h
  rename_i p hp
  split at h
  · cases h
  rename_i d hd
  cases h
  have hsame := openOrCreate_processes hfile
  exact ⟨p, t, _, hsame ▸ hp, .openFile hfile (lowest_of_freeDescriptor hd), hsame, rfl⟩

theorem descriptor?_some {fd : FdKind} (h : descriptor? p d = some fd) :
    ∃ old : Fin maxFileDescriptors, d = old ∧ p.files old = some fd := by
  unfold descriptor? at h
  split at h
  · exact ⟨_, rfl, h⟩
  · cases h

theorem dupCurrent_follows {descriptor : ℕ}
    (h : s.dupCurrent slot descriptor = (.ok d, s')) :
    Follows s slot (.dup descriptor) [d] s' := by
  unfold dupCurrent at h
  split at h
  · cases h
  rename_i p hp
  split at h
  · cases h
  rename_i fd hfd
  obtain ⟨old, rfl, hold⟩ := descriptor?_some hfd
  split at h
  · cases h
  rename_i t hclone
  split at h
  · cases h
  rename_i d hd
  cases h
  exact ⟨p, t, _, hp, .dup hold hclone (lowest_of_freeDescriptor hd),
    (cloned_of_ok hclone).processes, rfl⟩

theorem dup2Current_self (h : s.dup2Current slot d d = (.ok d', s')) :
    s' = s ∧ d' = d ∧ d < maxFileDescriptors := by
  unfold dup2Current at h
  split at h
  · rename_i hlt
    rw [if_pos rfl] at h
    cases h
    exact ⟨rfl, rfl, hlt⟩
  · cases h

theorem dup2Current_follows {old new : ℕ} (hne : old ≠ new)
    (h : s.dup2Current slot old new = (.ok d, s')) : Follows s slot (.dup2 old new) [d] s' := by
  unfold dup2Current at h
  split at h
  · rename_i hnew
    split at h
    · cases h
    rename_i p hp
    split at h
    · cases h
    rename_i fd hfd
    obtain ⟨old, rfl, hold⟩ := descriptor?_some hfd
    split at h
    · cases h
    rename_i t hclone
    have heffect : Posix s p.files (.dup2 old (Fin.val ⟨new, hnew⟩)) [new] _ _ :=
      .dup2 (fun heq => hne (congrArg Fin.val heq)) hold hclone
    have hsame := (cloned_of_ok hclone).processes
    split at h
    · rename_i hfree
      cases h
      rw [hfree] at heffect
      exact ⟨p, t, _, hp, heffect, hsame, rfl⟩
    rename_i prev hprev
    cases h
    rw [hprev] at heffect
    refine ⟨p, _, _, hp, heffect, (t.releaseFd_processes prev).trans hsame, ?_⟩
    simp only [setFile, setProcess_releaseFd, setProcess_setProcess, Option.elim_some]
  · cases h

theorem pipeCurrent_follows {r w : ℕ} (h : s.pipeCurrent slot = (.ok (r, w), s')) :
    Follows s slot .pipe [r, w] s' := by
  simp only [pipeCurrent] at h
  split at h
  · cases h
  rename_i id pipes halloc
  split at h
  · cases h
  rename_i p hp
  split at h
  · cases h
  rename_i r hr
  split at h
  · cases h
  rename_i w hw
  cases h
  refine ⟨p, { s with pipes }, _, hp, .pipe halloc (lowest_of_freeDescriptor hr)
    (lowest_of_freeDescriptor hw), rfl, ?_⟩
  exact setProcess_setProcess _ _

theorem closeCurrent_follows {descriptor : ℕ} (h : s.closeCurrent slot descriptor = (.ok (), s')) :
    Follows s slot (.close descriptor) [] s' := by
  unfold closeCurrent at h
  split at h
  · cases h
  rename_i hstd
  split at h
  · cases h
  rename_i p hp
  split at h
  · split at h
    · cases h
    rename_i hlt _ fd hfd
    cases h
    exact ⟨p, _, _, hp, .close (d := ⟨descriptor, hlt⟩) (Nat.le_of_not_lt hstd) hfd,
      s.releaseFd_processes fd, setProcess_releaseFd _ fd⟩
  · cases h

/-! ## Sequences of calls -/

theorem Result.of_map {α : Type} {r : Result α} {f : α → List ℕ} {reply : List ℕ}
    (h : r.map (·.map f) id = (.ok reply, s')) : ∃ a, r = (.ok a, s') ∧ f a = reply := by
  obtain ⟨result, t⟩ := r
  cases result with
  | error e => cases h
  | ok a =>
    cases h
    exact ⟨a, rfl, rfl⟩

theorem Posix.open_of_dup2 {files files' : Files} {old new : ℕ} {reply : List ℕ} {t : System}
    (h : Posix s files (.dup2 old new) reply t files') :
    ∃ d : Fin maxFileDescriptors, d = old ∧ files d ≠ none := by
  generalize hcall : TableCall.dup2 old new = call at h
  cases h with
  | dup2 _ hold | same hold =>
    cases hcall
    exact ⟨_, rfl, by simp [hold]⟩
  | openFile | dup | pipe | close => cases hcall

theorem perform_follows {call : TableCall} {reply : List ℕ} (hopen : ¬call.CopiesClosed s slot)
    (h : call.perform s slot = (.ok reply, s')) : Follows s slot call reply s' := by
  cases call with
  | openFile checks write path =>
    obtain ⟨d, hcall, rfl⟩ := of_map h
    exact openCurrent_follows hcall
  | dup descriptor =>
    obtain ⟨d, hcall, rfl⟩ := of_map h
    exact dupCurrent_follows hcall
  | dup2 old new =>
    obtain ⟨d, hcall, rfl⟩ := of_map h
    by_cases hne : old = new
    · subst hne
      obtain ⟨rfl, rfl, hlt⟩ := dup2Current_self hcall
      by_contra hnot
      refine hopen ⟨⟨d, hlt⟩, rfl, fun p hp => by_contra fun hfd => hnot ?_⟩
      obtain ⟨fd, hfd⟩ := Option.ne_none_iff_exists'.mp hfd
      refine ⟨p, s', p.files, hp, .same (d := ⟨d, hlt⟩) hfd, rfl, ?_⟩
      rw [setProcess, ← hp, update_eq_self]
    · exact dup2Current_follows hne hcall
  | pipe =>
    obtain ⟨⟨r, w⟩, hcall, rfl⟩ := of_map h
    exact pipeCurrent_follows hcall
  | close descriptor =>
    obtain ⟨_, hcall, rfl⟩ := of_map h
    exact closeCurrent_follows hcall

/-- The copy of a closed descriptor to itself succeeds, where the model has no effect. -/
theorem not_follows {call : TableCall} (hclosed : call.CopiesClosed s slot) :
    ∃ reply, call.perform s slot = (.ok reply, (call.perform s slot).2) ∧
      ¬Follows s slot call reply (call.perform s slot).2 := by
  obtain ⟨d, rfl, hnone⟩ := hclosed
  refine ⟨[d.val], by simp [TableCall.perform, dup2Current, Except.map], ?_⟩
  rintro ⟨p, t, files, hp, hposix, -⟩
  obtain ⟨d', hd, hfd⟩ := hposix.open_of_dup2
  exact hfd (Fin.ext hd ▸ hnone p hp)

/-- The state after a call, whether it succeeds or fails. -/
def TableCall.next (slot : ProcessSlot) (s : System) (call : TableCall) : Option System :=
  some (call.perform s slot).2

/-- Each successful call of a sequence has the effect of the model if and only if no closed
descriptor is copied to itself. -/
theorem follows_posix_iff (s : System) (slot : ProcessSlot) (calls : List TableCall) :
    Always (TableCall.next slot) (fun s call s' => ∀ reply,
        call.perform s slot = (.ok reply, s') → Follows s slot call reply s') s calls ↔
      Always (TableCall.next slot) (fun s call _ => ¬call.CopiesClosed s slot) s calls := by
  refine Always.congr (I := fun _ => True) trivial (fun s call s' _ hnext => ?_)
    (fun _ _ _ _ _ _ => trivial) calls
  cases hnext
  constructor
  · intro hall hclosed
    obtain ⟨reply, hcall, hnot⟩ := not_follows hclosed
    exact hnot (hall reply hcall)
  · intro hopen reply hcall
    exact perform_follows hopen hcall

/-- A new process copies the closed descriptor 5 to itself. -/
theorem dup2_of_closed : ∃ (s : System) (slot : ProcessSlot),
    s.processes slot = some .new ∧ TableCall.perform s slot (.dup2 5 5) = (.ok [5], s) ∧
      ¬Follows s slot (.dup2 5 5) [5] s := by
  refine ⟨(boot fun _ => .zero).setProcess ⟨0, by decide⟩ (some .new), ⟨0, by decide⟩, rfl, rfl, ?_⟩
  rintro ⟨p, t, files, hp, hposix, -⟩
  obtain ⟨d, -, hfd⟩ := hposix.open_of_dup2
  cases hp
  exact hfd rfl

end WovenHat.Descriptors
