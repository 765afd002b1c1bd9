import WovenHat.Verification.Fat32.Lookup
import WovenHat.Library.RootedGraph

/-! # The directory tree

The nodes of the tree are the root directory and the entries that can be reached from it,
each with the chain of clusters that starts at its first cluster. -/

namespace WovenHat.Fat32

open Library Block Fallible

/-! ## Chains of arbitrary tables -/

namespace Volume

/-- The clusters that one meets from a start, whether or not the chain is sound. -/
def walk (v : Volume) (fat : ℕ → ℕ) : ℕ → ℕ → List ℕ
  | 0, _ => []
  | fuel + 1, c =>
    c :: match v.linkOf fat c with
      | some (some next) => v.walk fat fuel next
      | _ => []

/-- The clusters of a file or directory with a given first cluster. -/
def chainOf (v : Volume) (w : View) (start : ℕ) : List ℕ :=
  if start < 2 then [] else v.walk w.fat v.clusterCount start

variable {v : Volume} {w w' : View} {sectors : ℕ} {clusters : List ℕ} {start : ℕ}

theorem walk_of_chain {fuel : ℕ} (h : v.Chain w start clusters)
    (hfuel : clusters.length ≤ fuel) : v.walk w.fat fuel start = clusters := by
  induction fuel generalizing start clusters with
  | zero => exact absurd (List.length_pos_of_ne_nil h.ne_nil) (by omega)
  | succ fuel ih =>
    cases h with
    | last hlast => simp [walk, hlast]
    | cons hnext tail =>
      rw [List.length_cons] at hfuel
      simp [walk, hnext, ih tail (by omega)]

theorem chainOf_of_chain (hm : v.Mounted sectors)
    (h : v.Chain w start clusters) : v.chainOf w start = clusters := by
  have hlow := (Chain.mem h h.head_mem).1.1
  rw [chainOf, if_neg (by omega), walk_of_chain h (Chain.length_le hm h)]

theorem walk_congr {fat fat' : ℕ → ℕ} {fuel : ℕ}
    (h : ∀ c ∈ v.walk fat fuel start, v.linkOf fat' c = v.linkOf fat c) :
    v.walk fat' fuel start = v.walk fat fuel start := by
  induction fuel generalizing start with
  | zero => rfl
  | succ fuel ih =>
    have hhead := h start List.mem_cons_self
    rw [walk, walk, hhead]
    rcases hlink : v.linkOf fat start with _ | _ | next
    · rfl
    · rfl
    dsimp only
    rw [ih fun c hc => h c ?_]
    rw [walk, hlink]
    exact List.mem_cons_of_mem _ hc

theorem chainOf_congr (h : ∀ c ∈ v.chainOf w start, v.linkOf w'.fat c = v.linkOf w.fat c) :
    v.chainOf w' start = v.chainOf w start := by
  unfold chainOf at h ⊢
  split
  · rfl
  rename_i hlow
  rw [if_neg hlow] at h
  exact walk_congr h

end Volume

/-! ## Nodes -/

/-- The root directory, or the entry in a slot. -/
abbrev Node := Option Place

namespace View

/-- One of the entries `.` and `..`. -/
def IsDot (w : View) (p : Place) : Prop :=
  (w.entry p).shortName = dotName ∨ (w.entry p).shortName = dotdotName

instance (w : View) (p : Place) : Decidable (w.IsDot p) :=
  inferInstanceAs (Decidable (_ ∨ _))

def head (v : Volume) (w : View) : Node → ℕ
  | none => v.rootCluster
  | some p => (w.entry p).firstCluster

def IsDir (w : View) : Node → Prop
  | none => True
  | some p => (w.entry p).isDirectory

end View

namespace Volume

def cells (v : Volume) (w : View) (n : Node) : List ℕ :=
  v.chainOf w (w.head v n)

/-- The entries of a node that is a directory, without `.` and `..`. -/
def kids (v : Volume) (w : View) (n : Node) : List Place :=
  (w.live (v.places (v.cells w n))).filter fun p => ¬w.IsDot p

def Child (v : Volume) (w : View) (n m : Node) : Prop :=
  w.IsDir n ∧ ∃ p ∈ v.kids w n, m = some p

abbrev Reach (v : Volume) (w : View) (n : Node) : Prop :=
  Reaches none (v.Child w) n

end Volume

variable {v : Volume} {w w' : View} {sectors : ℕ} {n m : Node} {p : Place}

theorem Volume.kids_iff : p ∈ v.kids w n ↔ p ∈ w.live (v.places (v.cells w n)) ∧ ¬w.IsDot p := by
  simp [kids]

theorem View.isDot_congr (h : w'.entry p = w.entry p) : w'.IsDot p ↔ w.IsDot p := by
  rw [IsDot, IsDot, h]

theorem Volume.mem_cells_of_kid (h : p ∈ v.kids w n) : p.cluster ∈ v.cells w n :=
  (mem_places.mp (View.live_subset (kids_iff.mp h).1)).1

/-- The slot of a node lies in the directory above it. -/
theorem Volume.Reach.parent (h : v.Reach w (some p)) :
    ∃ n, v.Reach w n ∧ w.IsDir n ∧ p ∈ v.kids w n := by
  rcases Reaches.cases_parent h with heq | ⟨n, hn, hdir, q, hq, heq⟩
  · cases heq
  · cases heq
    exact ⟨n, hn, hdir, hq⟩

namespace Sound

theorem cells_nil (w : View) (hhead : w.head v n < 2) : v.cells w n = [] := by
  rw [Volume.cells, Volume.chainOf, if_pos hhead]

end Sound

/-! ## Changing a slot -/

structure SlotChange (w w' : View) (p : Place) : Prop where
  fat : w'.fat = w.fat
  data : ∀ c ≠ p.cluster, w'.data c = w.data c
  entry : ∀ q ≠ p, w'.entry q = w.entry q

namespace SlotChange

theorem chain (h : SlotChange w w' p) {start : ℕ} {clusters : List ℕ} :
    v.Chain w' start clusters ↔ v.Chain w start clusters := by
  rw [Volume.Chain, Volume.Chain, h.fat]

end SlotChange

end WovenHat.Fat32
