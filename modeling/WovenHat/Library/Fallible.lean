import WovenHat.Library.Program

/-! # Programs that can fail

Interaction programs with an error, the ways of handling a failure, and the rules for
running them. -/

namespace WovenHat.Library

abbrev Fallible (ε Op : Type) (Resp : Op → Type) (α : Type) := ExceptT ε (Program Op Resp) α

namespace Fallible

open Program

variable {ε Op S : Type} {Resp : Op → Type} {α β : Type}

def ofExcept (x : Except ε α) : Fallible ε Op Resp α :=
  ExceptT.mk (.done x)

def rejectIf (c : Prop) [Decidable c] (e : ε) : Fallible ε Op Resp Unit :=
  if c then throw e else pure ()

def runIf (c : Prop) [Decidable c] (p : Fallible ε Op Resp Unit) : Fallible ε Op Resp Unit :=
  if c then p else pure ()

def attempt (p : Fallible ε Op Resp α) : Fallible ε Op Resp (Except ε α) :=
  ExceptT.mk (p.run >>= fun result => .done (.ok result))

def ignore (p : Fallible ε Op Resp α) : Fallible ε Op Resp Unit :=
  p.attempt >>= fun _ => pure ()

/-- When a program fails, clean up and fail with the same error. -/
def onError (p : Fallible ε Op Resp α) (cleanup : Fallible ε Op Resp Unit) : Fallible ε Op Resp α :=
  p.attempt >>= fun
    | .ok a => pure a
    | .error e => cleanup.ignore >>= fun _ => throw e

theorem forM_cons {γ : Type} (g : γ → Fallible ε Op Resp Unit) (c : γ) (cs : List γ) :
    (c :: cs).forM g = g c >>= fun _ => cs.forM g := rfl

/-! ## What a program can call -/

/-- A value that meets `Q`, or an error that meets `E`. -/
def Outcome (E : ε → Prop) (Q : α → Prop) : Except ε α → Prop
  | .ok a => Q a
  | .error e => E e

/-- Every call of the program meets `P`, every error it fails with meets `E`, and every value it
succeeds with meets `Q`. -/
def Meets (P : Op → Prop) (E : ε → Prop) (p : Fallible ε Op Resp α) (Q : α → Prop) : Prop :=
  Program.Ensures P (Outcome E Q) p.run

/-- Every call of the program meets `P`, and so does every value it succeeds with meet `Q`. -/
abbrev Calls (P : Op → Prop) (p : Fallible ε Op Resp α) (Q : α → Prop) : Prop :=
  Meets P (fun _ => True) p Q

/-- Every call of the program meets `P`, and every error it fails with meets `E`. -/
abbrev Within (P : Op → Prop) (E : ε → Prop) (p : Fallible ε Op Resp α) : Prop :=
  Meets P E p fun _ => True

/-- Every call of the program meets `P`. -/
abbrev Issues (P : Op → Prop) (p : Fallible ε Op Resp α) : Prop :=
  Calls P p fun _ => True

namespace Meets

variable {P : Op → Prop} {E : ε → Prop} {Q Q' : α → Prop} {p : Fallible ε Op Resp α} {e : ε}

theorem imp {P' : Op → Prop} (h : Meets P E p Q) (himp : ∀ op, P op → P' op) : Meets P' E p Q :=
  Program.Ensures.imp h himp

theorem pure {a : α} (h : Q a) : Meets P E (pure a : Fallible ε Op Resp α) Q := h

theorem throw (h : E e) : Meets P E (throw e : Fallible ε Op Resp α) Q := h

theorem bind {Q' : β → Prop} {f : α → Fallible ε Op Resp β} (h : Meets P E p Q)
    (hf : ∀ a, Q a → Meets P E (f a) Q') : Meets P E (p >>= f) Q' := by
  refine Program.Ensures.bind h fun r hr => ?_
  cases r with
  | error e => exact hr
  | ok a => exact hf a hr

variable {c : Prop}

theorem ite [Decidable c] {q : Fallible ε Op Resp α} (hp : c → Meets P E p Q)
    (hq : ¬c → Meets P E q Q) : Meets P E (if c then p else q) Q := by
  split
  · exact hp ‹_›
  · exact hq ‹_›

theorem rejectIf [Decidable c] (h : E e) :
    Meets P E (rejectIf c e : Fallible ε Op Resp Unit) (fun _ => ¬c) :=
  ite (fun _ => throw h) fun hc => pure hc

theorem runIf [Decidable c] {p : Fallible ε Op Resp Unit}
    (h : Within P E p) : Within P E (runIf c p) :=
  ite (fun _ => h) fun _ => pure trivial

theorem attempt (h : Calls P p Q) : Meets P E p.attempt (Outcome (fun _ => True) Q) :=
  Program.Ensures.bind h fun _ hr => hr

theorem ignore (h : Calls P p Q) : Within P E p.ignore :=
  h.attempt.bind fun _ _ => pure trivial

variable {cleanup : Fallible ε Op Resp Unit}

theorem onError {R : Unit → Prop} (h : Meets P E p Q)
    (hc : Calls P cleanup R) : Meets P E (p.onError cleanup) Q := by
  have hattempt : Meets P E p.attempt (Outcome E Q) := Program.Ensures.bind h fun _ hr => hr
  refine hattempt.bind fun r hr => ?_
  cases r with
  | ok a => exact pure hr
  | error e => exact hc.ignore.bind fun _ _ => throw hr

theorem forM {γ : Type} {g : γ → Fallible ε Op Resp Unit} {l : List γ}
    (h : ∀ c ∈ l, Within P E (g c)) : Within P E (l.forM g) := by
  induction l with
  | nil => exact pure trivial
  | cons c l ih =>
    rw [forM_cons]
    exact (h c List.mem_cons_self).bind fun _ _ => ih fun c' hc' => h c' (List.mem_cons_of_mem c hc')

end Meets

namespace Calls

variable {P : Op → Prop} {Q : α → Prop}

theorem rejectIf {c : Prop} [Decidable c] {e : ε} :
    Calls P (rejectIf c e : Fallible ε Op Resp Unit) (fun _ => ¬c) :=
  Meets.rejectIf trivial

theorem any (p : Fallible ε Op Resp α) : Issues (fun _ => True) p := by
  refine Program.ensures_of_forall (fun r => ?_) p.run
  cases r <;> trivial

theorem call {op : Op} (h : P op) (f : Resp op → Except ε α) :
    Issues P (ExceptT.mk (.call op fun answer => .done (f answer))) := by
  refine ⟨h, fun answer => ?_⟩
  change Outcome _ _ (f answer)
  cases f answer <;> trivial

theorem ofExcept (x : Except ε α) : Calls P (ofExcept x : Fallible ε Op Resp α) (x = .ok ·) := by
  cases x with
  | ok a => exact rfl
  | error e => exact trivial

end Calls

variable [Environment Op Resp S]

/-- The result of a program and the state it leaves behind. -/
def exec (p : Fallible ε Op Resp α) (s : S) : Except ε α × S :=
  Program.run p.run s

variable {p : Fallible ε Op Resp α} {f : α → Fallible ε Op Resp β} {s s' : S}

theorem Meets.outcome {P : Op → Prop} {E : ε → Prop} {Q : α → Prop} {r : Except ε α}
    (h : Meets P E p Q) (hexec : p.exec s = (r, s')) : Outcome E Q r := by
  have hvalue : Outcome E Q (p.exec s).1 := Program.Ensures.run_value h s
  rwa [hexec] at hvalue

@[simp] theorem exec_pure (a : α) (s : S) :
    (pure a : Fallible ε Op Resp α).exec s = (.ok a, s) := rfl

@[simp] theorem exec_throw (e : ε) (s : S) :
    (throw e : Fallible ε Op Resp α).exec s = (.error e, s) := rfl

@[simp] theorem exec_ofExcept (x : Except ε α) (s : S) :
    (ofExcept x : Fallible ε Op Resp α).exec s = (x, s) := rfl

/-- Calls that change nothing and are answered alike in two states have the same result. -/
theorem Meets.exec_agree {P : Op → Prop} {E : ε → Prop} {Q : α → Prop} {t : S} (h : Meets P E p Q)
    (hop : ∀ op, P op → (Program.Environment.handle op s : Resp op × S).2 = s ∧
      Program.Environment.handle op t = ((Program.Environment.handle op s : Resp op × S).1, t)) :
    p.exec t = ((p.exec s).1, t) ∧ (p.exec s).2 = s :=
  Program.Ensures.run_agree h hop

theorem exec_bind (p : Fallible ε Op Resp α) (f : α → Fallible ε Op Resp β) (s : S) :
    (p >>= f).exec s =
      match p.exec s with
      | (.ok a, s') => (f a).exec s'
      | (.error e, s') => (.error e, s') := by
  refine (Program.run_bind p.run _ s).trans ?_
  change Program.run (ExceptT.bindCont f (p.exec s).1) (p.exec s).2 = _
  rcases p.exec s with ⟨_ | a, s'⟩ <;> rfl

theorem exec_bind_ok {a : α} (h : p.exec s = (.ok a, s')) : (p >>= f).exec s = (f a).exec s' := by
  rw [exec_bind, h]

theorem exec_bind_error (h : p.exec s = (.error e, s')) : (p >>= f).exec s = (.error e, s') := by
  rw [exec_bind, h]

/-- A sequence that succeeds has succeeded in both parts. -/
theorem exec_bind_eq_ok {b : β} {s'' : S} : (p >>= f).exec s = (.ok b, s'') ↔
      ∃ a s', p.exec s = (.ok a, s') ∧ (f a).exec s' = (.ok b, s'') := by
  rw [exec_bind]
  rcases p.exec s with ⟨e | a, s'⟩
  · simp
  constructor
  · intro h
    exact ⟨a, s', rfl, h⟩
  rintro ⟨_, _, heq, h⟩
  cases heq
  exact h

variable {c : Prop}

theorem exec_rejectIf_of_not [Decidable c] (hc : ¬c) (s : S) :
    (rejectIf c e : Fallible ε Op Resp Unit).exec s = (.ok (), s) := by
  simp [rejectIf, hc]

theorem exec_rejectIf_of [Decidable c] (hc : c) (s : S) :
    (rejectIf c e : Fallible ε Op Resp Unit).exec s = (.error e, s) := by
  simp [rejectIf, hc]

theorem exec_rejectIf_eq_ok [Decidable c] {u : Unit} :
    (rejectIf c e : Fallible ε Op Resp Unit).exec s = (.ok u, s') ↔ ¬c ∧ s' = s := by
  by_cases hc : c <;> simp [rejectIf, hc, eq_comm]

@[simp] theorem exec_attempt (p : Fallible ε Op Resp α) (s : S) :
    p.attempt.exec s = (.ok (p.exec s).1, (p.exec s).2) :=
  Program.run_bind p.run _ s

@[simp] theorem exec_ignore (p : Fallible ε Op Resp α) (s : S) :
    p.ignore.exec s = (.ok (), (p.exec s).2) := by
  rw [ignore, exec_bind_ok (exec_attempt p s), exec_pure]

theorem exec_onError_ok {a : α}
    (h : p.exec s = (.ok a, s')) : (p.onError cleanup).exec s = (.ok a, s') := by
  rw [onError, exec_bind_ok (exec_attempt p s), h, exec_pure]

theorem exec_onError_error (h : p.exec s = (.error e, s')) :
    (p.onError cleanup).exec s = (.error e, (cleanup.exec s').2) := by
  rw [onError, exec_bind_ok (exec_attempt p s), h]
  exact exec_bind_ok (exec_ignore cleanup s')

/-! ## Postconditions -/

def Post (p : Fallible ε Op Resp α) (s : S) (Q : Except ε α → S → Prop) : Prop :=
  Q (p.exec s).1 (p.exec s).2

theorem Post.of_exec {r : Except ε α} {Q : Except ε α → S → Prop} (h : p.exec s = (r, s'))
    (hQ : Q r s') : p.Post s Q := by
  rw [Post, h]
  exact hQ

theorem Post.mono {Q Q' : Except ε α → S → Prop} (h : p.Post s Q)
    (himp : ∀ r t, Q r t → Q' r t) : p.Post s Q' :=
  himp _ _ h

/-- Sequencing: the second part starts where the first one succeeded. -/
theorem Post.bind {P : Except ε α → S → Prop} {Q : Except ε β → S → Prop} (h : p.Post s P)
    (hok : ∀ a t, P (.ok a) t → (f a).Post t Q)
    (herror : ∀ e t, P (.error e) t → Q (.error e) t) : (p >>= f).Post s Q := by
  unfold Post at h ⊢
  rw [exec_bind]
  rcases hp : p.exec s with ⟨e | a, t⟩ <;> rw [hp] at h
  · exact herror e t h
  · exact hok a t h

theorem Post.step {a : α} {Q : Except ε β → S → Prop} (h : p.exec s = (.ok a, s'))
    (hf : (f a).Post s' Q) : (p >>= f).Post s Q := by
  rw [Post, exec_bind_ok h]
  exact hf

theorem Post.ignore {P : Except ε α → S → Prop} {Q : Except ε Unit → S → Prop}
    (h : p.Post s P) (himp : ∀ r t, P r t → Q (.ok ()) t) : p.ignore.Post s Q := by
  rw [Post, exec_ignore]
  exact himp _ _ h

theorem Post.onError {P Q : Except ε α → S → Prop}
    (h : p.Post s P) (hok : ∀ a t, P (.ok a) t → Q (.ok a) t)
    (herror : ∀ e t, P (.error e) t → cleanup.Post t fun _ u => Q (.error e) u) :
    (p.onError cleanup).Post s Q := by
  unfold Post at h ⊢
  rcases hp : p.exec s with ⟨e | a, t⟩ <;> rw [hp] at h
  · rw [exec_onError_error hp]
    exact herror e t h
  · rw [exec_onError_ok hp]
    exact hok a t h

/-! ## What a run may change -/

def Moves (R : S → S → Prop) (p : Fallible ε Op Resp α) : Prop :=
  ∀ s, R s (p.exec s).2

variable {R : S → S → Prop}

theorem Moves.attempt (hp : Moves R p) : Moves R p.attempt := by
  intro s
  rw [exec_attempt]
  exact hp s

theorem Moves.ignore (hp : Moves R p) : Moves R p.ignore := by
  intro s
  rw [exec_ignore]
  exact hp s

theorem Moves.ite [Decidable c] {q : Fallible ε Op Resp α} (hp : Moves R p)
    (hq : Moves R q) : Moves R (if c then p else q) := by
  split
  · exact hp
  · exact hq

variable [IsPreorder S R]

theorem Moves.pure (a : α) : Moves R (pure a : Fallible ε Op Resp α) :=
  fun s => refl_of R s

theorem Moves.throw (e : ε) : Moves R (throw e : Fallible ε Op Resp α) :=
  fun s => refl_of R s

theorem Moves.bind (hp : Moves R p) (hf : ∀ a, Moves R (f a)) : Moves R (p >>= f) := by
  intro s
  have h := hp s
  rw [exec_bind]
  rcases hs : p.exec s with ⟨e | a, t⟩ <;> rw [hs] at h
  · exact h
  · exact trans_of R h (hf a t)

/-- The second part may rely on what the first one's value is known to be. -/
theorem Moves.bind_calls {P : Op → Prop} {Q : α → Prop} (hp : Moves R p) (hc : Calls P p Q)
    (hf : ∀ a, Q a → Moves R (f a)) : Moves R (p >>= f) := by
  intro s
  have h := hp s
  rw [exec_bind]
  rcases hs : p.exec s with ⟨e | a, t⟩ <;> rw [hs] at h
  · exact h
  · exact trans_of R h (hf a (hc.outcome hs) t)

end Fallible

end WovenHat.Library
