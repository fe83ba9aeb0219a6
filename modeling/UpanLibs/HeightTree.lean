import Mathlib.Tactic.Common
import Mathlib.Data.List.Basic
import Mathlib.Data.List.Nodup

/-!
Binary trees that store a height in each node, with the two sides treated alike: rotations,
the rotation that a node with uneven sides gets, and the removal of the first node. What a
tree holds is the list of its labels from left to right, which no rotation changes.
-/
namespace HeightTree

universe u

inductive Side where
  | left
  | right
  deriving DecidableEq, Repr

def Side.other : Side → Side
  | .left => .right
  | .right => .left

@[simp]
theorem Side.other_other (d : Side) : d.other.other = d := by
  cases d <;> rfl

inductive HTree (α : Type u) where
  | leaf
  | node (left : HTree α) (label : α) (height : Nat) (right : HTree α)
  deriving DecidableEq, Repr

variable {α : Type u}

namespace HTree

def cells : HTree α → List α
  | leaf => []
  | node l x _ r => l.cells ++ x :: r.cells

def height : HTree α → Nat
  | leaf => 0
  | node _ _ k _ => k

def depth : HTree α → Nat
  | leaf => 0
  | node l _ _ r => max l.depth r.depth + 1

/-- A node with its two sides, the first one on the side `d`. -/
def make (d : Side) (c : HTree α) (x : α) (k : Nat) (o : HTree α) : HTree α :=
  match d with
  | .left => node c x k o
  | .right => node o x k c

def raise (d : Side) (c : HTree α) (x : α) (o : HTree α) : HTree α :=
  make d c x (max c.height o.height + 1) o

def sub (d : Side) : HTree α → HTree α
  | leaf => leaf
  | node l _ _ r =>
      match d with
      | .left => l
      | .right => r

@[simp]
theorem cells_leaf : (leaf : HTree α).cells = [] := rfl

@[simp]
theorem cells_node (l r : HTree α) (x : α) (k : Nat) :
    (node l x k r).cells = l.cells ++ x :: r.cells := rfl

@[simp]
theorem height_leaf : (leaf : HTree α).height = 0 := rfl

@[simp]
theorem height_node (l r : HTree α) (x : α) (k : Nat) : (node l x k r).height = k := rfl

@[simp]
theorem height_make (d : Side) (c o : HTree α) (x : α) (k : Nat) :
    (make d c x k o).height = k := by
  cases d <;> rfl

@[simp]
theorem height_raise (d : Side) (c o : HTree α) (x : α) :
    (raise d c x o).height = max c.height o.height + 1 := height_make d c o x _

@[simp]
theorem sub_make (d : Side) (c o : HTree α) (x : α) (k : Nat) : (make d c x k o).sub d = c := by
  cases d <;> rfl

@[simp]
theorem sub_make_other (d : Side) (c o : HTree α) (x : α) (k : Nat) :
    (make d c x k o).sub d.other = o := by
  cases d <;> rfl

theorem make_other (d : Side) (c o : HTree α) (x : α) (k : Nat) :
    make d.other o x k c = make d c x k o := by
  cases d <;> rfl

theorem exists_make (d : Side) {t : HTree α} (some_ : t ≠ leaf) :
    ∃ c x k o, t = make d c x k o := by
  cases t with
  | leaf => exact absurd rfl some_
  | node l x k r =>
    cases d with
    | left => exact ⟨l, x, k, r, rfl⟩
    | right => exact ⟨r, x, k, l, rfl⟩

@[elab_as_elim]
theorem inductSides (d : Side) {motive : HTree α → Prop} (leaf : motive leaf)
    (node : ∀ c x k o, motive c → motive o → motive (make d c x k o)) (t : HTree α) : motive t := by
  induction t with
  | leaf => exact leaf
  | node l x k r left right =>
    cases d with
    | left => exact node l x k r left right
    | right => exact node r x k l right left

def rotate (d : Side) (t : HTree α) : HTree α :=
  match d, t with
  | .left, node l x _ (node rl y _ rr) => raise .left (raise .left l x rl) y rr
  | .right, node (node ll y _ lr) x _ r => raise .right (raise .right r x lr) y ll
  | _, t => t

theorem rotate_make (d : Side) (a b c : HTree α) (x y : α) (k k' : Nat) :
    rotate d (make d a x k (make d b y k' c)) = raise d (raise d a x b) y c := by
  cases d <;> rfl

@[simp]
theorem cells_rotate (d : Side) (t : HTree α) : (rotate d t).cells = t.cells := by
  cases d with
  | left =>
    cases t with
    | leaf => rfl
    | node l x k r => cases r <;> simp [rotate, raise, make]
  | right =>
    cases t with
    | leaf => rfl
    | node l x k r => cases l <;> simp [rotate, raise, make]

/-- How much higher the side `d` is than the other. -/
def lean (d : Side) (t : HTree α) : Int := ((t.sub d).height : Int) - (t.sub d.other).height

/-- The rotation of a node whose side `d` is too high. -/
def settle (d : Side) (t : HTree α) : HTree α :=
  match t with
  | leaf => leaf
  | node _ x k _ =>
      if 0 ≤ (t.sub d).lean d then rotate d.other t
      else rotate d.other (make d (rotate d (t.sub d)) x k (t.sub d.other))

/-- The node with its new height, rotated if its sides differ too much. -/
def rebalance (t : HTree α) : HTree α :=
  match t with
  | leaf => leaf
  | node l x _ r =>
      let t := raise .left l x r
      if 1 < t.lean .left then settle .left t
      else if t.lean .left < -1 then settle .right t
      else t

theorem settle_make (d : Side) (c o : HTree α) (x : α) (k : Nat) : settle d (make d c x k o) =
    if 0 ≤ c.lean d then rotate d.other (make d c x k o)
    else rotate d.other (make d (rotate d c) x k o) := by
  cases d <;> rfl

theorem lean_make (d : Side) (c o : HTree α) (x : α) (k : Nat) :
    (make d c x k o).lean d = (c.height : Int) - o.height := by
  cases d <;> rfl

theorem sub_of_lean {d : Side} {t : HTree α} (high : 0 < t.lean d) : t.sub d ≠ leaf := by
  intro nothing
  rw [lean, nothing, height_leaf] at high
  omega

theorem lean_other (d : Side) (t : HTree α) : t.lean d.other = -t.lean d := by
  cases d
  all_goals
    simp only [lean, Side.other]
    omega

theorem raise_cells (d : Side) (c o : HTree α) (x : α) (k : Nat) :
    (raise d c x o).cells = (make d c x k o).cells := by
  cases d <;> rfl

theorem cells_settle (d : Side) (t : HTree α) : (settle d t).cells = t.cells := by
  cases t with
  | leaf => rfl
  | node l x k r =>
    simp only [settle]
    split
    · exact cells_rotate d.other _
    · rw [cells_rotate]
      cases d <;> simp [make, sub, Side.other]

@[simp]
theorem cells_rebalance (t : HTree α) : (rebalance t).cells = t.cells := by
  cases t with
  | leaf => rfl
  | node l x k r =>
    have raised : (raise .left l x r).cells = (node l x k r).cells := raise_cells .left l r x k
    simp only [rebalance]
    split
    · exact (cells_settle _ _).trans raised
    split
    · exact (cells_settle _ _).trans raised
    · exact raised

def finish (changed : Bool) (t : HTree α) : HTree α := if changed then rebalance t else t

@[simp]
theorem cells_finish (changed : Bool) (t : HTree α) : (finish changed t).cells = t.cells := by
  cases changed
  · rfl
  · exact cells_rebalance t

def map (f : α → α) : HTree α → HTree α
  | leaf => leaf
  | node l x k r => node (l.map f) (f x) k (r.map f)

@[simp]
theorem cells_map (f : α → α) (t : HTree α) : (t.map f).cells = t.cells.map f := by
  induction t with
  | leaf => rfl
  | node l x k r left right => simp [map, left, right]

@[simp]
theorem height_map (f : α → α) (t : HTree α) : (t.map f).height = t.height := by
  cases t <;> rfl

def order (d : Side) : HTree α → List α
  | leaf => []
  | node l x _ r =>
      match d with
      | .left => order d r ++ x :: order d l
      | .right => order d l ++ x :: order d r

@[simp]
theorem order_leaf (d : Side) : (leaf : HTree α).order d = [] := by
  cases d <;> rfl

@[simp]
theorem order_make (d : Side) (c o : HTree α) (x : α) (k : Nat) :
    (make d c x k o).order d = o.order d ++ x :: c.order d := by
  cases d <;> rfl

theorem order_right (t : HTree α) : t.order .right = t.cells := by
  induction t with
  | leaf => rfl
  | node l x k r left right => simp only [order, cells_node, left, right]

theorem order_left (t : HTree α) : t.order .left = t.cells.reverse := by
  induction t with
  | leaf => rfl
  | node l x k r left right => simp [order, left, right]

theorem depth_make (d : Side) (c o : HTree α) (x : α) (k : Nat) :
    (make d c x k o).depth = max c.depth o.depth + 1 := by
  cases d
  · rfl
  · simp [make, depth, Nat.max_comm]

theorem depth_le_length (t : HTree α) : t.depth ≤ t.cells.length := by
  induction t with
  | leaf => simp [depth]
  | node l x k r left right =>
    simp only [depth, cells_node, List.length_append, List.length_cons]
    omega

def pop : HTree α → Option (α × HTree α)
  | leaf => none
  | node l x k r =>
      match l.pop with
      | none => some (x, r)
      | some (y, l) => some (y, rebalance (node l x k r))

def join (l r : HTree α) : HTree α :=
  match l, r.pop with
  | leaf, _ => r
  | l, none => l
  | l, some (y, r) => rebalance (node l y 0 r)

def putFirst (y : α) (j : Nat) : HTree α → HTree α
  | leaf => leaf
  | node leaf _ _ r => node leaf y j r
  | node l x k r => node (putFirst y j l) x k r

theorem pop_leaf_iff {t : HTree α} : t.pop = none ↔ t = leaf := by
  cases t with
  | leaf => simp [pop]
  | node l x k r =>
    simp only [pop, reduceCtorEq, iff_false]
    split <;> nofun

theorem cells_pop {t t' : HTree α} {y : α} (first : t.pop = some (y, t')) :
    t.cells = y :: t'.cells := by
  induction t generalizing y t' with
  | leaf => cases first
  | node l x k r left _ =>
    simp only [pop] at first
    cases popped : l.pop with
    | none =>
      rw [popped] at first
      cases first
      rw [pop_leaf_iff.mp popped]
      rfl
    | some found =>
      obtain ⟨z, l'⟩ := found
      rw [popped] at first
      cases first
      simp [left popped]

theorem join_leaf (l : HTree α) : join l leaf = l := by
  cases l <;> rfl

@[simp]
theorem cells_join (l r : HTree α) : (join l r).cells = l.cells ++ r.cells := by
  cases l with
  | leaf => rfl
  | node ll x k lr =>
    cases popped : r.pop with
    | none => simp [join, pop, pop_leaf_iff.mp popped]
    | some found =>
      obtain ⟨y, r'⟩ := found
      simp [join, popped, cells_pop popped]

theorem depth_putFirst (y : α) (j : Nat) (t : HTree α) : (putFirst y j t).depth = t.depth := by
  induction t with
  | leaf => rfl
  | node l x k r left _ =>
    cases l with
    | leaf => rfl
    | node ll z m lr => simp only [putFirst, depth, left]

theorem join_pop {l r r' : HTree α} {y : α} (inner : l ≠ leaf) (first : r.pop = some (y, r'))
    (k : Nat) : join l r = rebalance (node l y k r') := by
  cases l with
  | leaf => exact absurd rfl inner
  | node ll x m lr =>
    simp only [join, first]
    rfl

/-- The tree whose left side goes down through these nodes, the lowest first, to `t`. -/
def plug : List (α × Nat × HTree α) → HTree α → HTree α
  | [], t => t
  | (x, k, r) :: s, t => plug s (node t x k r)

def spineCells : List (α × Nat × HTree α) → List α
  | [] => []
  | (x, _, r) :: s => x :: r.cells ++ spineCells s

theorem cells_plug (s : List (α × Nat × HTree α)) (t : HTree α) :
    (plug s t).cells = t.cells ++ spineCells s := by
  induction s generalizing t with
  | nil => simp [plug, spineCells]
  | cons f s ih => simp [plug, ih, spineCells]

theorem plug_append (s s' : List (α × Nat × HTree α)) (t : HTree α) :
    plug (s ++ s') t = plug s' (plug s t) := by
  induction s generalizing t with
  | nil => rfl
  | cons f s ih => exact ih _

theorem exists_plug {t : HTree α} (some_ : t ≠ leaf) :
    ∃ s y j c, t = plug s (node leaf y j c) := by
  induction t with
  | leaf => exact absurd rfl some_
  | node l x k r left _ =>
    by_cases last : l = leaf
    · subst last
      exact ⟨[], x, k, r, rfl⟩
    · obtain ⟨s, y, j, c, rfl⟩ := left last
      exact ⟨s ++ [(x, k, r)], y, j, c, by rw [plug_append]; rfl⟩

theorem putFirst_plug (y : α) (j : Nat) (s : List (α × Nat × HTree α)) {t : HTree α}
    (some_ : t ≠ leaf) : putFirst y j (plug s t) = plug s (putFirst y j t) := by
  induction s generalizing t with
  | nil => rfl
  | cons f s ih =>
    rw [plug, ih (by nofun), plug]
    cases t with
    | leaf => exact absurd rfl some_
    | node l x k r => rfl

section Search

variable (seek : α → Option Side)

def erase : HTree α → HTree α × Bool
  | leaf => (leaf, false)
  | node l x k r =>
      match seek x with
      | some .left => (finish (erase l).2 (node (erase l).1 x k r), (erase l).2)
      | some .right => (finish (erase r).2 (node l x k (erase r).1), (erase r).2)
      | none => (join l r, true)

def insert (y : α) : HTree α → HTree α × Bool
  | leaf => (node leaf y 1 leaf, true)
  | node l x k r =>
      match seek x with
      | some .left => (finish (insert y l).2 (node (insert y l).1 x k r), (insert y l).2)
      | some .right => (finish (insert y r).2 (node l x k (insert y r).1), (insert y r).2)
      | none => (node l x k r, false)

/-- What is sought lies after the labels that are smaller and before those that are greater,
    and at most one is it. -/
def Splits (l : List α) : Prop :=
  l.Pairwise fun x y => (seek x = some .left → seek y = some .left) ∧
    (seek y = some .right → seek x = some .right) ∧ (seek x ≠ none ∨ seek y ≠ none)

variable {seek}

theorem splits_node {l r : HTree α} {x : α} {k : Nat} (splits : Splits seek (node l x k r).cells) :
    Splits seek l.cells ∧ Splits seek r.cells := by
  rw [Splits, cells_node, List.pairwise_append, List.pairwise_cons] at splits
  exact ⟨splits.1, splits.2.1.2⟩

theorem splits_left {l r : HTree α} {x : α} {k : Nat} (splits : Splits seek (node l x k r).cells)
    (here : seek x = some .left) : ∀ y ∈ r.cells, seek y = some .left := by
  rw [Splits, cells_node, List.pairwise_append, List.pairwise_cons] at splits
  intro y mem
  exact (splits.2.1.1 y mem).1 here

theorem splits_right {l r : HTree α} {x : α} {k : Nat} (splits : Splits seek (node l x k r).cells)
    (here : seek x = some .right) : ∀ y ∈ l.cells, seek y = some .right := by
  rw [Splits, cells_node, List.pairwise_append, List.pairwise_cons] at splits
  intro y mem
  exact (splits.2.2 y mem x (by simp)).2.1 here

theorem splits_none {l r : HTree α} {x : α} {k : Nat} (splits : Splits seek (node l x k r).cells)
    (here : seek x = none) :
    (∀ y ∈ l.cells, seek y = some .right) ∧ ∀ y ∈ r.cells, seek y = some .left := by
  rw [Splits, cells_node, List.pairwise_append, List.pairwise_cons] at splits
  constructor
  · intro y mem
    obtain ⟨down, -, apart⟩ := splits.2.2 y mem x (by simp)
    cases side : seek y with
    | none => simp [side, here] at apart
    | some d =>
      cases d with
      | left => simp [here, side] at down
      | right => rfl
  · intro y mem
    obtain ⟨-, down, apart⟩ := splits.2.1.1 y mem
    cases side : seek y with
    | none => simp [side, here] at apart
    | some d =>
      cases d with
      | left => rfl
      | right => simp [here, side] at down

theorem filter_sought {l : List α} {d : Side} (apart : ∀ y ∈ l, seek y = some d) :
    l.filter (fun y => (seek y).isSome) = l := by
  rw [List.filter_eq_self]
  intro y mem
  rw [apart y mem, Option.isSome_some]

theorem any_sought {l : List α} {d : Side} (apart : ∀ y ∈ l, seek y = some d) :
    l.any (fun y => (seek y).isNone) = false := by
  rw [List.any_eq_false]
  intro y mem
  simp [apart y mem]

theorem erase_spec {t : HTree α} (splits : Splits seek t.cells) :
    (t.erase seek).1.cells = t.cells.filter (fun y => (seek y).isSome) ∧
      (t.erase seek).2 = t.cells.any fun y => (seek y).isNone := by
  induction t with
  | leaf => exact ⟨rfl, rfl⟩
  | node l x k r left right =>
    obtain ⟨low, high⟩ := splits_node splits
    obtain ⟨leftCells, leftFound⟩ := left low
    obtain ⟨rightCells, rightFound⟩ := right high
    cases here : seek x with
    | none =>
      obtain ⟨before, after⟩ := splits_none splits here
      simp [erase, here, filter_sought before, filter_sought after]
    | some d =>
      cases d with
      | left =>
        have after := splits_left splits here
        simp [erase, here, leftCells, leftFound, filter_sought after, any_sought after]
      | right =>
        have before := splits_right splits here
        simp [erase, here, rightCells, rightFound, filter_sought before, any_sought before]

theorem erase_absent {t : HTree α} (absent : (t.erase seek).2 = false) :
    (t.erase seek).1 = t := by
  induction t with
  | leaf => rfl
  | node l x k r left right =>
    cases here : seek x with
    | none => simp [erase, here] at absent
    | some d =>
      cases d with
      | left =>
        simp only [erase, here] at absent ⊢
        rw [absent, left absent]
        rfl
      | right =>
        simp only [erase, here] at absent ⊢
        rw [absent, right absent]
        rfl

theorem insert_absent {y : α} {t : HTree α} (absent : (t.insert seek y).2 = false) :
    (t.insert seek y).1 = t := by
  induction t with
  | leaf => cases absent
  | node l x k r left right =>
    cases here : seek x with
    | none => simp [insert, here]
    | some d =>
      cases d with
      | left =>
        simp only [insert, here] at absent ⊢
        rw [absent, left absent]
        rfl
      | right =>
        simp only [insert, here] at absent ⊢
        rw [absent, right absent]
        rfl

theorem insert_new {y : α} {t : HTree α} (splits : Splits seek t.cells)
    (new : (t.insert seek y).2 = true) :
    ∃ l r, t.cells = l ++ r ∧ (t.insert seek y).1.cells = l ++ y :: r ∧
      (∀ x ∈ l, seek x = some .right) ∧ ∀ x ∈ r, seek x = some .left := by
  induction t with
  | leaf => exact ⟨[], [], rfl, rfl, nofun, nofun⟩
  | node l x k r left right =>
    obtain ⟨low, high⟩ := splits_node splits
    cases here : seek x with
    | none => simp [insert, here] at new
    | some d =>
      cases d with
      | left =>
        have after := splits_left splits here
        simp only [insert, here] at new ⊢
        obtain ⟨a, b, cells, inserted, before, above⟩ := left low new
        refine ⟨a, b ++ x :: r.cells, by simp [cells], by simp [inserted], before, ?_⟩
        intro z mem
        simp only [List.mem_append, List.mem_cons] at mem
        obtain mem | rfl | mem := mem
        · exact above z mem
        · exact here
        · exact after z mem
      | right =>
        have before := splits_right splits here
        simp only [insert, here] at new ⊢
        obtain ⟨a, b, cells, inserted, below, above⟩ := right high new
        refine ⟨l.cells ++ x :: a, b, by simp [cells], by simp [inserted], ?_, above⟩
        intro z mem
        simp only [List.mem_append, List.mem_cons] at mem
        obtain mem | rfl | mem := mem
        · exact before z mem
        · exact here
        · exact below z mem

theorem insert_old {y : α} {t : HTree α} (splits : Splits seek t.cells) :
    (t.insert seek y).2 = false ↔ ∃ x ∈ t.cells, seek x = none := by
  induction t with
  | leaf => simp [insert]
  | node l x k r left right =>
    obtain ⟨low, high⟩ := splits_node splits
    cases here : seek x with
    | none =>
      simp only [insert, here, true_iff]
      exact ⟨x, by simp, here⟩
    | some d =>
      have apart : ∀ {m : List α} {e : Side}, (∀ z ∈ m, seek z = some e) →
          ¬∃ z ∈ m, seek z = none := by
        intro m e side ⟨z, mem, found⟩
        rw [side z mem] at found
        cases found
      cases d with
      | left =>
        have after := apart (splits_left splits here)
        simp only [insert, here, left low, cells_node]
        grind
      | right =>
        have before := apart (splits_right splits here)
        simp only [insert, here, right high, cells_node]
        grind

theorem erase_putFirst {t t' : HTree α} {x y : α} (j : Nat) (first : t.pop = some (x, t'))
    (sought : seek y = none) (after : ∀ z ∈ t'.cells, seek z = some .left) :
    (putFirst y j t).erase seek = (t', true) := by
  induction t generalizing x t' with
  | leaf => cases first
  | node l z k r left _ =>
    cases l with
    | leaf =>
      cases first
      simp [putFirst, erase, sought, join]
    | node ll w m lr =>
      rw [pop] at first
      cases popped : (node ll w m lr).pop with
      | none => cases pop_leaf_iff.mp popped
      | some found =>
        obtain ⟨v, l'⟩ := found
        rw [popped] at first
        cases first
        simp only [cells_rebalance, cells_node, List.mem_append, List.mem_cons] at after
        have inner := left popped fun z mem => after z (.inl mem)
        simp [putFirst, erase, after z (.inr (.inl rfl)), inner, finish]

end Search

end HTree
end HeightTree
