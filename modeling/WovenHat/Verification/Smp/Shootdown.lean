import WovenHat.Library.Always
import WovenHat.Model.Shootdown

/-! # Completed shootdowns

Only the CPU that holds the lock changes the generation. What a CPU acknowledges is a
generation that it loaded before its flush, so an acknowledgement of the current generation
stands for a flush since that generation was published. -/

namespace WovenHat.Smp

open Library Function List State Point

variable {n : ℕ}

/-! ## Events -/

/-- A CPU has flushed its TLB since another published a generation. -/
def FlushedSince (history : List (Event n)) (cpu : Fin n) (generation : ℕ) (target : Fin n) :
    Prop :=
  .flushed target ∈ history.takeWhile (· ≠ .published cpu generation)

def Event.isPublished : Event n → Bool
  | .published _ _ => true
  | _ => false

/-- How many generations were published. -/
def publications (history : List (Event n)) : ℕ :=
  history.countP Event.isPublished

theorem FlushedSince.cons {history : List (Event n)} {cpu target : Fin n} {generation : ℕ}
    {event : Event n} (h : FlushedSince history cpu generation target)
    (hevent : event.isPublished = false) :
    FlushedSince (event :: history) cpu generation target := by
  have hne : event ≠ .published cpu generation := by
    rintro rfl
    cases hevent
  unfold FlushedSince
  rw [takeWhile_cons, if_pos (decide_eq_true hne)]
  exact mem_cons_of_mem _ h

theorem flushedSince_self (history : List (Event n)) (cpu target : Fin n) (generation : ℕ) :
    FlushedSince (.flushed target :: history) cpu generation target := by
  unfold FlushedSince
  rw [takeWhile_cons, if_pos (decide_eq_true nofun)]
  exact mem_cons_self

/-! ## The invariant -/

def Point.holds : Point → Bool
  | .idle | .locking => false
  | _ => true

def Point.generation? : Point → Option ℕ
  | .published generation | .loaded generation _ | .flushed generation _
  | .sending generation _ | .waiting generation _ | .spinning generation => some generation
  | .idle | .locking | .locked | .panicked => none

variable {p : Point} {k : ℕ}

theorem Point.generation?_of_not_holds (h : p.holds = false) : p.generation? = none := by
  cases p <;> first | rfl | cases h

theorem Point.holds_of_generation? {g : ℕ} (h : p.generation? = some g) : p.holds := by
  cases p <;> first | rfl | cases h

def Handler.value? : Handler → Option ℕ
  | .entered => none
  | .loaded value | .flushed value => some value

namespace State

variable {s s' : State n} {cpu : Fin n} {p : Point} {g v : ℕ}

/-- The CPU has published the current generation, and whoever acknowledged it or is about to
has flushed since. -/
structure Published (s : State n) (cpu : Fin n) (generation : ℕ) : Prop where
  current : s.generation = generation
  event : .published cpu generation ∈ s.history
  acked : ∀ target, generation ≤ s.ack target → FlushedSince s.history cpu generation target
  handled : ∀ target, s.handler target = some (.flushed generation) →
    FlushedSince s.history cpu generation target

def Reached (s : State n) (cpu : Fin n) : Point → Prop
  | .loaded generation value => value = generation
  | .flushed generation value => value = generation ∧ FlushedSince s.history cpu generation cpu
  | .waiting generation target => ∀ other : Fin n, (other : ℕ) < target → generation ≤ s.ack other
  | _ => True

structure Ok (s : State n) : Prop where
  lock : ∀ c, (s.point c).holds → s.shootLock = true
  unique : ∀ c d, (s.point c).holds → (s.point d).holds → c = d
  generation : s.generation = publications s.history
  ack_le : ∀ c, s.ack c ≤ s.generation
  handler : ∀ c v, (s.handler c).bind Handler.value? = some v → s.ack c ≤ v ∧ v ≤ s.generation
  published : ∀ c g, (s.point c).generation? = some g → s.Published c g
  reached : ∀ c, s.Reached c (s.point c)

theorem ok_boot (n : ℕ) : (boot n).Ok where
  lock _ h := nomatch h
  unique _ _ h := nomatch h
  generation := rfl
  ack_le _ := le_refl 0
  handler _ _ h := nomatch h
  published _ _ h := nomatch h
  reached _ := trivial

/-! ## What one step changes -/

theorem Ok.goto (h : s.Ok)
    (hholds : p.holds → s.shootLock = true ∧ ∀ d, (s.point d).holds → d = cpu)
    (hpublished : ∀ g, p.generation? = some g → s.Published cpu g) (hreached : s.Reached cpu p) :
    (s.goto cpu p).Ok := by
  have hpoint : ∀ c, (s.goto cpu p).point c = if c = cpu then p else s.point c := fun c =>
    update_apply s.point cpu p c
  refine ⟨fun c hc => ?_, fun c d hc hd => ?_, h.generation, h.ack_le, h.handler,
    fun c g hc => ?_, fun c => ?_⟩
  · rw [hpoint] at hc
    split at hc
    · exact (hholds hc).1
    · exact h.lock c hc
  · rw [hpoint] at hc hd
    split at hc <;> split at hd <;> rename_i hcc hdd
    · exact hcc.trans hdd.symm
    · exact absurd ((hholds hc).2 d hd) hdd
    · exact absurd ((hholds hd).2 c hc) hcc
    · exact h.unique c d hc hd
  · have hsame : s.Published c g := by
      rw [hpoint] at hc
      split at hc
      · rename_i hcc
        exact hcc ▸ hpublished g hc
      · exact h.published c g hc
    exact ⟨hsame.current, hsame.event, hsame.acked, hsame.handled⟩
  · have hsame : s.Reached c ((s.goto cpu p).point c) := by
      rw [hpoint]
      split
      · rename_i hcc
        exact hcc ▸ hreached
      · exact h.reached c
    exact hsame

/-- The same when the CPU holds the lock and has published a generation before. -/
theorem Ok.goto_next (h : s.Ok) (hg : (s.point cpu).generation? = some g)
    (hp : p.generation? = some g) (hreached : s.Reached cpu p) : (s.goto cpu p).Ok := by
  have hholds := holds_of_generation? hg
  refine h.goto (fun _ => ⟨h.lock cpu hholds, fun d hd => h.unique d cpu hd hholds⟩) ?_ hreached
  intro g' hg'
  cases hp.symm.trans hg'
  exact h.published cpu g hg

theorem Ok.record (h : s.Ok) (event : Event n) (hevent : event.isPublished = false) :
    (s.record event).Ok := by
  refine ⟨h.lock, h.unique, ?_, h.ack_le, h.handler, fun c g hg => ?_, fun c => ?_⟩
  · exact h.generation.trans (countP_cons_of_neg (by rw [hevent]; decide)).symm
  · obtain ⟨hcur, hmem, hacked, hhandled⟩ := h.published c g hg
    exact ⟨hcur, mem_cons_of_mem _ hmem, fun d hd => (hacked d hd).cons hevent,
      fun d hd => (hhandled d hd).cons hevent⟩
  · have hreached := h.reached c
    show (s.record event).Reached c (s.point c)
    cases hpoint : s.point c <;> rw [hpoint] at hreached
    case flushed => exact ⟨hreached.1, hreached.2.cons hevent⟩
    all_goals exact hreached

theorem Ok.storeAck (h : s.Ok) (hack : s.ack cpu ≤ v) (hv : v ≤ s.generation)
    (hhandler : s.handler cpu = none) (hflushed : ∀ c g, (s.point c).generation? = some g → g ≤ v →
      FlushedSince s.history c g cpu) : (s.storeAck cpu v).Ok := by
  have hget : ∀ c, (s.storeAck cpu v).ack c = if c = cpu then v else s.ack c := fun c =>
    update_apply s.ack cpu v c
  have hmono : ∀ c, s.ack c ≤ (s.storeAck cpu v).ack c := by
    intro c
    rw [hget]
    split
    · rename_i hc
      exact hc ▸ hack
    · exact le_refl _
  refine ⟨h.lock, h.unique, h.generation, fun c => ?_, fun c w hw => ?_, fun c g hg => ?_,
    fun c => ?_⟩
  · rw [hget]
    split
    · exact hv
    · exact h.ack_le c
  · have hne : c ≠ cpu := by
      rintro rfl
      have hbind : (s.handler c).bind Handler.value? = some w := hw
      rw [hhandler] at hbind
      cases hbind
    rw [hget, if_neg hne]
    exact h.handler c w hw
  · obtain ⟨hcur, hmem, hacked, hhandled⟩ := h.published c g hg
    refine ⟨hcur, hmem, fun d hd => ?_, hhandled⟩
    rw [hget] at hd
    split at hd
    · rename_i hdc
      exact hdc ▸ hflushed c g hg hd
    · exact hacked d hd
  · have hreached := h.reached c
    show (s.storeAck cpu v).Reached c (s.point c)
    cases hpoint : s.point c <;> rw [hpoint] at hreached
    case waiting => exact fun d hd => (hreached d hd).trans (hmono d)
    all_goals exact hreached

theorem Ok.handle (h : s.Ok) (next : Option Handler)
    (hvalue : ∀ v, next.bind Handler.value? = some v → s.ack cpu ≤ v ∧ v ≤ s.generation)
    (hflushed : ∀ c g, (s.point c).generation? = some g → next = some (.flushed g) →
      FlushedSince s.history c g cpu) : (s.handle cpu next).Ok := by
  have hget : ∀ c, (s.handle cpu next).handler c = if c = cpu then next else s.handler c :=
    fun c => update_apply s.handler cpu next c
  refine ⟨h.lock, h.unique, h.generation, h.ack_le, fun c w hw => ?_, fun c g hg => ?_, h.reached⟩
  · rw [hget] at hw
    split at hw
    · rename_i hc
      exact hc ▸ hvalue w hw
    · exact h.handler c w hw
  · obtain ⟨hcur, hmem, hacked, hhandled⟩ := h.published c g hg
    refine ⟨hcur, hmem, hacked, fun d hd => ?_⟩
    rw [hget] at hd
    split at hd
    · rename_i hdc
      exact hdc ▸ hflushed c g hg hd
    · exact hhandled d hd

theorem Ok.setPending (h : s.Ok) (pending : Fin n → Bool) : Ok { s with pending } := by
  refine ⟨h.lock, h.unique, h.generation, h.ack_le, h.handler, fun c g hg => ?_, h.reached⟩
  obtain ⟨hcur, hmem, hacked, hhandled⟩ := h.published c g hg
  exact ⟨hcur, hmem, hacked, hhandled⟩

theorem Ok.setLock (h : s.Ok) {b : Bool} (hb : ∀ c, (s.point c).holds → b = true) :
    Ok { s with shootLock := b } := by
  refine ⟨hb, h.unique, h.generation, h.ack_le, h.handler, fun c g hg => ?_, h.reached⟩
  obtain ⟨hcur, hmem, hacked, hhandled⟩ := h.published c g hg
  exact ⟨hcur, hmem, hacked, hhandled⟩

theorem Ok.acquire (h : s.Ok) (hfree : s.shootLock = false) :
    ({ s with shootLock := true }.goto cpu .locked).Ok := by
  refine (h.setLock fun _ _ => rfl).goto (fun _ => ⟨rfl, fun d hd => ?_⟩) nofun trivial
  exact absurd (hfree.symm.trans (h.lock d hd)) (by decide)

theorem Ok.release (h : s.Ok) (hholds : (s.point cpu).holds) :
    ({ s with shootLock := false }.goto cpu .idle).Ok := by
  have hidle : (s.goto cpu .idle).Ok := h.goto nofun nofun trivial
  refine hidle.setLock fun c hc => ?_
  have hpoint : (s.goto cpu .idle).point c = if c = cpu then .idle else s.point c :=
    update_apply s.point cpu .idle c
  rw [hpoint] at hc
  split at hc
  · cases hc
  · rename_i hne
    exact absurd (h.unique c cpu hc hholds) hne

/-- A generation is published. No CPU has acknowledged it yet. -/
theorem Ok.publish (h : s.Ok) (hpoint : s.point cpu = .locked) (hg : g = s.generation + 1) :
    (({ s with generation := g }.goto cpu (.published g)).record (.published cpu g)).Ok := by
  have hholds : (s.point cpu).holds := by rw [hpoint]; rfl
  have hget : ∀ c, update s.point cpu (.published g) c =
      if c = cpu then .published g else s.point c := fun c => update_apply _ _ _ c
  have hothers : ∀ c, c ≠ cpu → (s.point c).holds = false := fun c hc => by
    by_contra hc'
    exact hc (h.unique c cpu (eq_true_of_ne_false hc') hholds)
  refine ⟨fun c _ => h.lock cpu hholds, fun c d hc hd => ?_, ?_, fun c => ?_, fun c v hv => ?_,
    fun c g' hg' => ?_, fun c => ?_⟩
  · have hone : ∀ c, (update s.point cpu (.published g) c).holds → c = cpu := by
      intro c hc
      by_contra hne
      rw [hget, if_neg hne, hothers c hne] at hc
      cases hc
    exact (hone c hc).trans (hone d hd).symm
  · show g = publications (.published cpu g :: s.history)
    rw [hg, h.generation, publications, publications, countP_cons_of_pos rfl]
  · exact (h.ack_le c).trans (hg ▸ Nat.le_succ _)
  · obtain ⟨hack, hle⟩ := h.handler c v hv
    exact ⟨hack, hle.trans (hg ▸ Nat.le_succ _)⟩
  · have hc : c = cpu ∧ g' = g := by
      have hpoint' : (update s.point cpu (.published g) c).generation? = some g' := hg'
      rw [hget] at hpoint'
      split at hpoint'
      · rename_i hc
        exact ⟨hc, (Option.some.inj hpoint').symm⟩
      rename_i hc
      rw [generation?_of_not_holds (hothers c hc)] at hpoint'
      cases hpoint'
    obtain ⟨rfl, rfl⟩ := hc
    refine ⟨rfl, mem_cons_self, fun d hd => ?_, fun d hd => ?_⟩
    · have hle := h.ack_le d
      have hack : g' ≤ s.ack d := hd
      omega
    · have hle := (h.handler d g' (by rw [show s.handler d = _ from hd]; rfl)).2
      omega
  · show Reached _ c (update s.point cpu (.published g) c)
    rw [hget]
    split
    · trivial
    rename_i hc
    have hfalse := hothers c hc
    cases hcase : s.point c <;> rw [hcase] at hfalse <;> trivial

theorem publications_cons_published (history : List (Event n)) (cpu : Fin n) (g : ℕ) :
    publications (.published cpu g :: history) = publications history + 1 :=
  countP_cons_of_pos rfl

theorem Ok.advance (h : s.Ok) (hhandler : s.handler cpu = none)
    (hstep : s.advance cpu = some s') (hcount : publications s'.history < 2 ^ 64) : s'.Ok := by
  have hreached := h.reached cpu
  unfold State.advance at hstep
  split at hstep <;> rename_i hpoint <;> rw [hpoint] at hreached
  · cases hstep
  · split at hstep
    · cases hstep
      exact h
    rename_i hfree
    cases hstep
    exact h.acquire (eq_false_of_ne_true hfree)
  · cases hstep
    refine h.publish hpoint (Nat.mod_eq_of_lt ?_)
    have hnext : publications s.history + 1 < 2 ^ 64 :=
      (publications_cons_published s.history cpu _).symm.trans_lt hcount
    rwa [← h.generation] at hnext
  · rename_i g
    cases hstep
    have hg : (s.point cpu).generation? = some g := by rw [hpoint]; rfl
    exact h.goto_next hg rfl (h.published cpu g hg).current
  · rename_i g v
    cases hstep
    have hg : (s.point cpu).generation? = some g := by rw [hpoint]; rfl
    exact (h.record (.flushed cpu) rfl).goto_next hg rfl ⟨hreached, flushedSince_self _ _ _ _⟩
  · rename_i g v
    cases hstep
    have hg : (s.point cpu).generation? = some g := by rw [hpoint]; rfl
    obtain ⟨rfl, hflushed⟩ := hreached
    have hcur := (h.published cpu v hg).current
    refine (h.storeAck (hcur ▸ h.ack_le cpu) hcur.ge hhandler ?_).goto_next hg rfl trivial
    intro c g' hg' _
    -- Only this CPU holds the lock.
    have hc : c = cpu := h.unique c cpu (holds_of_generation? hg')
      (holds_of_generation? hg)
    subst hc
    cases hg'.symm.trans hg
    exact hflushed
  · rename_i g target
    have hg : (s.point cpu).generation? = some g := by rw [hpoint]; rfl
    split at hstep
    · split at hstep
      · cases hstep
        exact h.goto_next hg rfl trivial
      · cases hstep
        exact (h.setPending _).goto_next hg rfl trivial
    · cases hstep
      exact h.goto_next hg rfl fun _ => (nomatch ·)
  · rename_i g target
    have hg : (s.point cpu).generation? = some g := by rw [hpoint]; rfl
    split at hstep
    · rename_i htarget
      split at hstep
      · cases hstep
        exact h.goto_next hg rfl trivial
      rename_i hacked
      cases hstep
      refine h.goto_next hg rfl fun other hother => ?_
      rcases Nat.lt_succ_iff_lt_or_eq.mp hother with hlt | heq
      · exact hreached other hlt
      · have hother : other = ⟨target, htarget⟩ := Fin.ext heq
        exact hother ▸ not_lt.mp hacked
    · cases hstep
      exact (h.release (holds_of_generation? hg)).record _ rfl
  · rename_i g
    have hg : (s.point cpu).generation? = some g := by rw [hpoint]; rfl
    cases hstep
    exact h.goto_next hg rfl fun _ => (nomatch ·)
  · cases hstep

theorem Ok.acknowledge (h : s.Ok) (hstep : s.acknowledge cpu = some s') : s'.Ok := by
  unfold State.acknowledge at hstep
  split at hstep <;> rename_i hhandler
  · cases hstep
  · cases hstep
    refine h.handle _ (fun v hv => ?_) (fun _ _ _ => (nomatch ·))
    cases Option.some.inj hv
    exact ⟨h.ack_le cpu, le_refl _⟩
  · rename_i v
    cases hstep
    refine (h.record (.flushed cpu) rfl).handle _ (fun w hw => ?_)
      fun _ _ _ _ => flushedSince_self _ _ _ _
    cases Option.some.inj hw
    exact h.handler cpu v (by rw [hhandler]; rfl)
  · rename_i v
    cases hstep
    obtain ⟨hack, hle⟩ := h.handler cpu v (by rw [hhandler]; rfl)
    refine (h.handle none nofun fun _ _ _ => (nomatch ·)).storeAck hack hle
      (update_self _ _ _) fun c g hg hgv => ?_
    -- What was acknowledged is the current generation, or none that matters.
    have hpublished := h.published c g hg
    have hv : v = g := le_antisymm (hpublished.current ▸ hle) hgv
    exact hpublished.handled cpu (hv ▸ hhandler)

theorem Ok.step (h : s.Ok) {label : Label n} (hstep : step s label = some s')
    (hcount : publications s'.history < 2 ^ 64) : s'.Ok := by
  cases label with
  | shootdown cpu =>
    rw [Smp.step] at hstep
    split at hstep
    · split at hstep
      · cases hstep
        exact h.record _ rfl
      · cases hstep
        exact h.goto nofun nofun trivial
    · cases hstep
  | advance cpu =>
    rw [Smp.step] at hstep
    split at hstep
    · rename_i hhandler
      exact h.advance hhandler hstep hcount
    · cases hstep
  | timeout cpu =>
    rw [Smp.step] at hstep
    split at hstep
    · rename_i g hhandler hpoint
      cases hstep
      have hholds : (s.point cpu).holds := by rw [hpoint]; rfl
      exact h.goto (fun _ => ⟨h.lock cpu hholds, fun d hd => h.unique d cpu hd hholds⟩)
        nofun trivial
    · cases hstep
  | nmi cpu =>
    rw [Smp.step] at hstep
    split at hstep
    · cases hstep
      exact (h.setPending _).handle _ nofun fun _ _ _ => (nomatch ·)
    · cases hstep
  | acknowledge cpu => exact h.acknowledge hstep

end State

variable {s s' : State n} {label : Label n}

/-- What a step does to the acknowledgements and to the events. A CPU acknowledges only what it
has loaded before its flush, and a shootdown returns only at the end of its wait. -/
structure Effect (s s' : State n) : Prop where
  ack : s'.ack = s.ack ∨ ∃ cpu v, s'.ack = update s.ack cpu v ∧
    ((∃ g, s.point cpu = .flushed g v) ∨ s.handler cpu = some (.flushed v))
  history : s'.history = s.history ∨ ∃ event, s'.history = event :: s.history ∧
    ∀ c g, event = .returned c g → n = 1 ∨
      ∃ generation target, s.point c = .waiting generation target ∧ n ≤ target ∧ g = some generation

theorem Effect.silent (hack : s'.ack = s.ack) (hhistory : s'.history = s.history) : Effect s s' :=
  ⟨.inl hack, .inl hhistory⟩

theorem Effect.event {event : Event n} (hack : s'.ack = s.ack)
    (hhistory : s'.history = event :: s.history) (hevent : ∀ c g, event ≠ .returned c g) :
    Effect s s' :=
  ⟨.inl hack, .inr ⟨event, hhistory, fun c g h => absurd h (hevent c g)⟩⟩

theorem effect_advance {cpu : Fin n} (hstep : s.advance cpu = some s') : Effect s s' := by
  unfold advance at hstep
  split at hstep
  case h_3 | h_5 =>
    cases hstep
    exact .event rfl rfl nofun
  case h_6 g v hpoint =>
    cases hstep
    exact ⟨.inr ⟨cpu, v, rfl, .inl ⟨g, hpoint⟩⟩, .inl rfl⟩
  case h_8 generation target hpoint =>
    split_ifs at hstep with hlt hack <;> cases hstep
    · exact .silent rfl rfl
    · exact .silent rfl rfl
    refine ⟨.inl rfl, .inr ⟨_, rfl, ?_⟩⟩
    rintro _ _ ⟨⟩
    exact .inr ⟨generation, target, hpoint, not_lt.mp hlt, rfl⟩
  all_goals (try split_ifs at hstep) <;> cases hstep <;> exact .silent rfl rfl

theorem effect_step (hstep : step s label = some s') : Effect s s' := by
  cases label with
  | shootdown cpu =>
    rw [step] at hstep
    split_ifs at hstep with _ hn <;> cases hstep
    · exact ⟨.inl rfl, .inr ⟨_, rfl, fun _ _ _ => .inl hn⟩⟩
    · exact .silent rfl rfl
  | advance cpu =>
    rw [step] at hstep
    split at hstep
    · exact effect_advance hstep
    · cases hstep
  | timeout cpu | nmi cpu =>
    rw [step] at hstep
    split at hstep <;> cases hstep
    exact .silent rfl rfl
  | acknowledge cpu =>
    rw [step, acknowledge] at hstep
    split at hstep <;> cases hstep
    · exact .silent rfl rfl
    · exact .event rfl rfl nofun
    · rename_i v hhandler
      exact ⟨.inr ⟨cpu, v, rfl, .inr hhandler⟩, .inl rfl⟩

theorem State.Ok.ack_mono (h : s.Ok) (he : Effect s s') (c : Fin n) : s.ack c ≤ s'.ack c := by
  rcases he.ack with hsame | ⟨cpu, v, hack, hloaded⟩
  · rw [hsame]
  have hv : s.ack cpu ≤ v := by
    rcases hloaded with ⟨g, hpoint⟩ | hhandler
    · have hreached := h.reached cpu
      have hpublished := h.published cpu g (by rw [hpoint]; rfl)
      rw [hpoint] at hreached
      exact hreached.1 ▸ hpublished.current ▸ h.ack_le cpu
    · exact (h.handler cpu v (by rw [hhandler]; rfl)).1
  rw [hack, update_apply]
  split
  · rename_i hc
    exact hc ▸ hv
  · exact le_refl _

/-- When a shootdown returns, every CPU has acknowledged its generation. -/
theorem State.Ok.returned (h : s.Ok) (hn : n ≠ 1) {c : Fin n} {g : Option ℕ} (he : Effect s s')
    (hreturned : s'.history = .returned c g :: s.history) :
    ∃ generation, g = some generation ∧ .published c generation ∈ s.history ∧
      ∀ target, FlushedSince s.history c generation target := by
  rcases he.history with hsame | ⟨event, hevent, hwait⟩
  · simpa using congrArg length (hsame.symm.trans hreturned)
  obtain ⟨generation, target, hpoint, htarget, rfl⟩ :=
    (hwait c g (cons.inj (hevent.symm.trans hreturned)).1).resolve_left hn
  have hreached := h.reached c
  have hpublished := h.published c generation (by rw [hpoint]; rfl)
  rw [hpoint] at hreached
  exact ⟨generation, rfl, hpublished.event, fun other =>
    hpublished.acked other (hreached other (other.isLt.trans_le htarget))⟩

/-! ## Runs -/

theorem publications_le (he : Effect s s') : publications s.history ≤ publications s'.history := by
  rcases he.history with hsame | ⟨event, hevent, _⟩
  · rw [hsame]
  · rw [hevent]
    exact (sublist_cons_self event s.history).countP_le

theorem ok_run (labels : List (Label n))
    (hcount : publications (runAll step (boot n) labels).history < 2 ^ 64) :
    (runAll step (boot n) labels).Ok := by
  refine runAll_induct (I := fun s : State n => publications s.history < 2 ^ 64 → s.Ok)
    (fun _ => ok_boot n) (fun s label s' h hstep hcount => ?_) labels hcount
  exact (h ((publications_le (effect_step hstep)).trans_lt hcount)).step hstep hcount

/-- As long as fewer than `2 ^ 64` generations were published, a shootdown that returns has
published its generation, every CPU has flushed its TLB since, and no CPU takes an
acknowledgement back. -/
theorem shootdown_complete (n : ℕ) (hn : 2 ≤ n) (labels : List (Label n)) (label : Label n)
    (s' : State n) (hstep : step (runAll step (boot n) labels) label = some s')
    (hcount : publications s'.history < 2 ^ 64) :
    let s := runAll step (boot n) labels
    (∀ cpu g, s'.history = .returned cpu g :: s.history →
      ∃ generation, g = some generation ∧ .published cpu generation ∈ s.history ∧
        ∀ target, FlushedSince s.history cpu generation target) ∧
    ∀ cpu, s.ack cpu ≤ s'.ack cpu := by
  intro s
  have h : s.Ok := ok_run labels ((publications_le (effect_step hstep)).trans_lt hcount)
  exact ⟨fun cpu g hreturned => h.returned (by omega) (effect_step hstep) hreturned,
    h.ack_mono (effect_step hstep)⟩

theorem shootdown_complete_first :
    let s := runAll step (boot 2)
      [.shootdown 0, .advance 0, .advance 0, .advance 0, .advance 0, .advance 0, .advance 0,
        .advance 0, .advance 0, .nmi 1, .acknowledge 1, .acknowledge 1, .acknowledge 1,
        .advance 0, .advance 0]
    ∃ s', step s (.advance 0) = some s' ∧ s'.history = .returned 0 (some 1) :: s.history ∧
      ∃ generation, some 1 = some generation ∧ .published 0 generation ∈ s.history ∧
        ∀ target, FlushedSince s.history 0 generation target := by
  refine ⟨_, rfl, rfl, ?_⟩
  exact (shootdown_complete 2 (le_refl 2) _ (.advance 0) _ rfl (by decide)).1 0 _ rfl

/-- Before `2 ^ 64` generations were published, at most one CPU is past the lock of a shootdown,
and only while it is taken; and no CPU has acknowledged a generation that was not published. -/
theorem shootdown_exclusive (labels : List (Label n)) (cpu other : Fin n)
    (hcount : publications (runAll step (boot n) labels).history < 2 ^ 64) :
    let s := runAll step (boot n) labels
    ((s.point cpu).holds → s.shootLock = true ∧ ((s.point other).holds → cpu = other)) ∧
      s.ack cpu ≤ s.generation ∧ s.generation = publications s.history := by
  intro s
  have h : s.Ok := ok_run labels hcount
  exact ⟨fun hcpu => ⟨h.lock cpu hcpu, h.unique cpu other hcpu⟩, h.ack_le cpu, h.generation⟩

/-- One CPU has the lock and the other one waits for it. -/
theorem shootdown_exclusive_first :
    let s := runAll step (boot 2) [.shootdown 0, .advance 0, .shootdown 1, .advance 1, .advance 1]
    s.shootLock = true ∧ s.point 1 = .locking ∧ ¬(s.point 1).holds := by
  have hrun := (shootdown_exclusive
    [.shootdown 0, .advance 0, .shootdown 1, .advance 1, .advance 1] (0 : Fin 2) 1
    (by decide)).1 (by decide)
  exact ⟨hrun.1, rfl, fun hother => absurd (hrun.2 hother) (by decide)⟩

/-! ## The counter wraps around -/

/-- Two CPUs between shootdowns, which both have acknowledged the generation. -/
def quiet (generation : ℕ) (history : List (Event 2)) : State 2 :=
  ⟨false, generation, fun _ => generation, fun _ => false, fun _ => .idle, fun _ => none, history⟩

def invalidation : List (Label 2) :=
  .shootdown 0 :: replicate 8 (.advance 0)

def acknowledgement : List (Label 2) :=
  [.nmi 1, .acknowledge 1, .acknowledge 1, .acknowledge 1]

theorem runAll_round (hk : k + 1 < 2 ^ 64) (history : List (Event 2)) (rest : List (Label 2)) :
    runAll step (quiet k history)
      (invalidation ++ acknowledgement ++ replicate 3 (.advance 0) ++ rest) =
    runAll step (quiet (k + 1)
      (.returned 0 (some (k + 1)) :: .flushed 1 :: .flushed 0 :: .published 0 (k + 1) :: history))
      rest := by
  have hack : update (update (fun _ : Fin 2 => k) 0 (k + 1)) 1 (k + 1) = fun _ => k + 1 := by
    funext cpu
    match cpu with
    | 0 => rfl
    | 1 => rfl
  have hnext : (k + 1) % 18446744073709551616 = k + 1 := Nat.mod_eq_of_lt hk
  simp [invalidation, acknowledgement, quiet, runAll, step, advance, acknowledge,
    goto, handle, record, storeAck, send, hnext, hack,
    replicate]

/-- Any generation is reached by as many shootdowns. -/
theorem exists_rounds (count : ℕ) (hk : k + count < 2 ^ 64) (history : List (Event 2)) :
    ∃ labels history', ∀ rest, runAll step (quiet k history) (labels ++ rest) =
      runAll step (quiet (k + count) history') rest := by
  induction count generalizing k history with
  | zero => exact ⟨[], history, fun rest => rfl⟩
  | succ count ih =>
    obtain ⟨labels, history', hlabels⟩ := ih (k := k + 1) (by omega)
      (.returned 0 (some (k + 1)) :: .flushed 1 :: .flushed 0 :: .published 0 (k + 1) :: history)
    refine ⟨invalidation ++ acknowledgement ++ replicate 3 (.advance 0) ++ labels, history',
      fun rest => ?_⟩
    rw [append_assoc, runAll_round (by omega), hlabels, Nat.add_right_comm, Nat.add_assoc]

/-- The next shootdown wraps the counter around. It finds generation 0 acknowledged by the
other CPU, which has not taken the NMI. -/
theorem runAll_wrap (hk : (k + 1) % 2 ^ 64 = 0) (history : List (Event 2)) :
    runAll step (quiet k history) (invalidation ++ replicate 2 (.advance 0)) =
      ⟨true, 0, update (fun _ => k) 0 0, update (fun _ => false) 1 true,
        update (fun _ => .idle) 0 (.waiting 0 2), fun _ => none,
        .flushed 0 :: .published 0 0 :: history⟩ := by
  have hwrap : (k + 1) % 18446744073709551616 = 0 := hk
  simp [invalidation, quiet, runAll, step, advance, goto, record, storeAck, send, hwrap, replicate]

/-- After `2 ^ 64 - 1` shootdowns the next one returns before the other CPU has flushed. -/
theorem shootdown_wraps : ∃ labels s',
    step (runAll step (boot 2) labels) (.advance 0) = some s' ∧
      s'.history = .returned 0 (some 0) :: (runAll step (boot 2) labels).history ∧
      ¬FlushedSince (runAll step (boot 2) labels).history 0 0 1 := by
  obtain ⟨labels, history, hlabels⟩ := exists_rounds (2 ^ 64 - 1) (k := 0) (by omega) []
  have hrun : runAll step (boot 2)
      (labels ++ (invalidation ++ List.replicate 2 (.advance 0))) = _ :=
    (hlabels _).trans (runAll_wrap (by omega) history)
  refine ⟨labels ++ (invalidation ++ List.replicate 2 (.advance 0)), ?_⟩
  rw [hrun]
  exact ⟨_, rfl, rfl, by simp [FlushedSince]⟩

end WovenHat.Smp
