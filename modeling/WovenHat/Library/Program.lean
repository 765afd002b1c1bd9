import Mathlib

/-! # Interaction programs

A program is a tree of calls to an environment: it either has finished, or makes one call
and goes on with the answer. The same program can then be run against one environment, or
its calls can be interleaved with those of another program. -/

namespace WovenHat.Library

/-- A program with operations `Op`, answered in `Resp`, that ends with a value. -/
inductive Program (Op : Type) (Resp : Op → Type) (α : Type) where
  | done (value : α)
  | call (op : Op) (next : Resp op → Program Op Resp α)

namespace Program

variable {Op : Type} {Resp : Op → Type} {α β γ S : Type}

def bind : Program Op Resp α → (α → Program Op Resp β) → Program Op Resp β
  | .done value, f => f value
  | .call op next, f => .call op fun answer => (next answer).bind f

instance : Monad (Program Op Resp) where
  pure := .done
  bind := .bind

/-- An environment answers a call and moves to a new state. -/
class Environment (Op : Type) (Resp : Op → Type) (S : Type) where
  handle : (op : Op) → S → Resp op × S

variable [Environment Op Resp S]

/-- Run a program against an environment. -/
def run : Program Op Resp α → S → α × S
  | .done value, s => (value, s)
  | .call op next, s =>
    (next (Environment.handle op s : Resp op × S).1).run (Environment.handle op s : Resp op × S).2

@[simp] theorem run_done (a : α) (s : S) : (Program.done a : Program Op Resp α).run s = (a, s) :=
  rfl

theorem run_bind (p : Program Op Resp α) (f : α → Program Op Resp β) (s : S) :
    (p >>= f).run s = (f (p.run s).1).run (p.run s).2 := by
  induction p generalizing s with
  | done value => rfl
  | call op next ih => exact ih _ _

theorem run_rel {R : S → S → Prop} (hrefl : ∀ s, R s s) (htrans : ∀ s t u, R s t → R t u → R s u)
    (hcall : ∀ (op : Op) (s : S), R s (Environment.handle op s : Resp op × S).2)
    (p : Program Op Resp α) (s : S) : R s (p.run s).2 := by
  induction p generalizing s with
  | done value => exact hrefl s
  | call op next ih => exact htrans _ _ _ (hcall op s) (ih _ _)

/-! ## The calls of a program -/

/-- Every call that the program can make meets `P`, and every value it can end with meets `Q`,
whatever the answers are. -/
def Ensures (P : Op → Prop) (Q : α → Prop) : Program Op Resp α → Prop
  | .done value => Q value
  | .call op next => P op ∧ ∀ answer, (next answer).Ensures P Q

theorem ensures_of_forall {Q : α → Prop} (h : ∀ a, Q a) (p : Program Op Resp α) :
    p.Ensures (fun _ => True) Q := by
  induction p with
  | done value => exact h value
  | call op next ih => exact ⟨trivial, ih⟩

variable {p : Program Op Resp α} {Q : α → Prop}

theorem Ensures.imp {P P' : Op → Prop}
    (h : p.Ensures P Q) (himp : ∀ op, P op → P' op) : p.Ensures P' Q := by
  induction p with
  | done value => exact h
  | call op next ih => exact ⟨himp op h.1, fun answer => ih answer (h.2 answer)⟩

variable {P : Op → Prop}

theorem Ensures.bind {Q' : β → Prop} {f : α → Program Op Resp β} (h : p.Ensures P Q)
    (hf : ∀ a, Q a → (f a).Ensures P Q') : (p >>= f).Ensures P Q' := by
  induction p with
  | done value => exact hf value h
  | call op next ih => exact ⟨h.1, fun answer => ih answer (h.2 answer)⟩

def calls : Program Op Resp α → S → List Op
  | .done _, _ => []
  | .call op next, s =>
    op :: (next (Environment.handle op s : Resp op × S).1).calls
      (Environment.handle op s : Resp op × S).2

theorem calls_bind (p : Program Op Resp α) (f : α → Program Op Resp β) (s : S) :
    (p >>= f).calls s = p.calls s ++ (f (p.run s).1).calls (p.run s).2 := by
  induction p generalizing s with
  | done value => rfl
  | call op next ih => exact congrArg (op :: ·) (ih _ _)

/-- A run makes no other calls than the program can make. -/
theorem Ensures.of_mem_calls
    (h : p.Ensures P Q) {s : S} {op : Op} (hop : op ∈ p.calls s) : P op := by
  induction p generalizing s with
  | done value => cases hop
  | call op' next ih =>
    rcases List.mem_cons.mp hop with rfl | hop
    · exact h.1
    · exact ih _ (h.2 _) hop

theorem Ensures.run_value (h : p.Ensures P Q) (s : S) : Q (p.run s).1 := by
  induction p generalizing s with
  | done value => exact h
  | call op next ih => exact ih _ (h.2 _) _

/-- What the calls of a program keep, its runs keep. -/
theorem Ensures.run_keeps {I : S → Prop}
    (h : p.Ensures P Q) (hop : ∀ op s, P op → I s → I (Environment.handle op s : Resp op × S).2)
    {s : S} (hs : I s) : I (p.run s).2 := by
  induction p generalizing s with
  | done value => exact hs
  | call op next ih => exact ih _ (h.2 _) (hop op s h.1 hs)

/-- Calls that change nothing and are answered alike in two states give a program the same
value in both. -/
theorem Ensures.run_agree (h : p.Ensures P Q) {s t : S}
    (hop : ∀ op, P op → (Environment.handle op s : Resp op × S).2 = s ∧
      Environment.handle op t = ((Environment.handle op s : Resp op × S).1, t)) :
    p.run t = ((p.run s).1, t) ∧ (p.run s).2 = s := by
  induction p with
  | done value => exact ⟨rfl, rfl⟩
  | call op next ih =>
    obtain ⟨hsame, hanswer⟩ := hop op h.1
    rw [run, run, hanswer, hsame]
    exact ih _ (h.2 _)

/-! ## Programs on top of another interface -/

section Interpret

variable {Op' S' : Type} {Resp' : Op' → Type}

/-- Answer every call of a program with a program of another interface. -/
def interpret (h : (op : Op) → Program Op' Resp' (Resp op)) :
    Program Op Resp α → Program Op' Resp' α
  | .done value => .done value
  | .call op next => h op >>= fun answer => (next answer).interpret h

variable {h : (op : Op) → Program Op' Resp' (Resp op)} {P : Op → Prop} {Q : α → Prop}
  {p : Program Op Resp α}

theorem Ensures.interpret {P' : Op' → Prop} (hp : p.Ensures P Q)
    (hop : ∀ op, P op → (h op).Ensures P' fun _ => True) : (p.interpret h).Ensures P' Q := by
  induction p with
  | done value => exact hp
  | call op next ih => exact (hop op hp.1).bind fun answer _ => ih answer (hp.2 answer)

/-- Calls that change nothing and are answered as in another state give a program the
result that it has there. -/
theorem Ensures.run_interpret [Environment Op' Resp' S'] {s : S'} {t : S} (hp : p.Ensures P Q)
    (hop : ∀ op, P op → (h op).run s = ((Environment.handle op t : Resp op × S).1, s) ∧
      (Environment.handle op t : Resp op × S).2 = t) :
    (p.interpret h).run s = ((p.run t).1, s) := by
  induction p with
  | done value => rfl
  | call op next ih =>
    obtain ⟨hrun, hstate⟩ := hop op hp.1
    change (h op >>= fun answer => (next answer).interpret h).run s = _
    rw [run_bind, hrun, ih _ (hp.2 _), run, hstate]

end Interpret

end Program

end WovenHat.Library
