import UpanLibs.Ds.AvlTree

/-!
Trees in the heap. The label of a node is its address with its element: that two trees have
the same labels says that each element is in the same node in both. What the writing methods
of a node do, and from them the rotations and `rebalance`, which act on the linked nodes as
their namesakes do on the tree.
-/
namespace AvlTree
open Memory HeightTree HeightTree.HTree

variable {V : Type}

abbrev Cells (V : Type) := HTree (Nat × V)

def root : Cells V → Option Nat
  | .leaf => none
  | .node _ x _ _ => some x.1

def ids (t : Cells V) : List Nat := t.cells.map Prod.fst

/-- What the node of a label holds, with the subtree `c` on the side `d`. -/
def nodeOf (d : Side) (c : Cells V) (x : Nat × V) (k : Nat) (o : Cells V) (p : Option Nat) :
    Node V :=
  match d with
  | .left => ⟨x.2, k, p, root c, root o⟩
  | .right => ⟨x.2, k, p, root o, root c⟩

/-- The nodes of a tree below `p` are live and linked as the tree is. -/
def Linked (h : Heap (Node V)) : Cells V → Option Nat → Prop
  | .leaf, _ => True
  | .node l x k r, p => h.block x.1 = some (nodeOf .left l x k r p) ∧ Linked h l (some x.1) ∧
      Linked h r (some x.1)

def Within (h h' : Heap (Node V)) (s : List Nat) : Prop := ∀ a, a ∉ s → h'.block a = h.block a

section Trees

variable {d : Side} {c o t : Cells V} {x : Nat × V} {k : Nat} {p q : Option Nat}
  {h h' h₁ : Heap (Node V)} {n : Node V}

@[simp]
theorem root_leaf : root (leaf : Cells V) = none := rfl

@[simp]
theorem root_make : root (make d c x k o) = some x.1 := by
  cases d <;> rfl

@[simp]
theorem root_raise : root (raise d c x o) = some x.1 := root_make

theorem root_eq_none : root t = none ↔ t = leaf := by
  cases t <;> simp [root]

theorem root_mem (here : root t = some k) : k ∈ ids t := by
  cases t with
  | leaf => cases here
  | node l x j r =>
    cases here
    simp [ids]

theorem mem_ids {a : Nat} : a ∈ ids t ↔ ∃ e, (a, e) ∈ t.cells := by
  simp [ids]

@[simp]
theorem ids_leaf : ids (leaf : Cells V) = [] := rfl

@[simp]
theorem mem_ids_make {a : Nat} : a ∈ ids (make d c x k o) ↔ a ∈ ids c ∨ a = x.1 ∨ a ∈ ids o := by
  cases d
  · simp [ids, make]
  · simp only [ids, make, cells_node, List.map_append, List.map_cons, List.mem_append,
      List.mem_cons]
    grind

@[simp]
theorem mem_ids_raise {a : Nat} : a ∈ ids (raise d c x o) ↔ a ∈ ids c ∨ a = x.1 ∨ a ∈ ids o :=
  mem_ids_make

theorem nodup_make : (ids (make d c x k o)).Nodup ↔ (ids c).Nodup ∧ (ids o).Nodup ∧
    x.1 ∉ ids c ∧ x.1 ∉ ids o ∧ ∀ a ∈ ids c, a ∉ ids o := by
  cases d
  all_goals
    simp only [ids, make, cells_node, List.map_append, List.map_cons, List.nodup_append,
      List.nodup_cons, List.mem_cons]
    grind

theorem nodup_raise : (ids (raise d c x o)).Nodup ↔ (ids c).Nodup ∧ (ids o).Nodup ∧
    x.1 ∉ ids c ∧ x.1 ∉ ids o ∧ ∀ a ∈ ids c, a ∉ ids o := nodup_make

@[simp]
theorem nodeOf_element : (nodeOf d c x k o p).element = x.2 := by
  cases d <;> rfl

@[simp]
theorem nodeOf_parent : (nodeOf d c x k o p).parent = p := by
  cases d <;> rfl

@[simp]
theorem nodeOf_child : (nodeOf d c x k o p).child d = root c := by
  cases d <;> rfl

@[simp]
theorem nodeOf_child_other : (nodeOf d c x k o p).child d.other = root o := by
  cases d <;> rfl

@[simp]
theorem nodeOf_withChild (c' : Cells V) :
    (nodeOf d c x k o p).withChild d (root c') = nodeOf d c' x k o p := by
  cases d <;> rfl

theorem nodeOf_other : nodeOf d.other o x k c p = nodeOf d c x k o p := by
  cases d <;> rfl

theorem linked_make : Linked h (make d c x k o) p ↔ h.block x.1 = some (nodeOf d c x k o p) ∧
    Linked h c (some x.1) ∧ Linked h o (some x.1) := by
  cases d
  · rfl
  · simp only [make, Linked, and_comm (a := Linked h c _)]
    rfl

theorem Within.mono {s s' : List Nat} (within : Within h h' s) (more : s ⊆ s') : Within h h' s' := by
  intro a out
  exact within a fun mem => out (more mem)

theorem Within.trans {s s' u : List Nat} (first : Within h h₁ s) (second : Within h₁ h' s')
    (inside : s ⊆ u) (inside' : s' ⊆ u) : Within h h' u := by
  intro a out
  exact (second a fun mem => out (inside' mem)).trans (first a fun mem => out (inside mem))

theorem within_write (h : Heap (Node V)) (a : Nat) (n : Node V) : Within h (h.write a n) [a] := by
  intro c out
  exact h.block_write_other n (by simpa using out)

theorem apart_single {s : List Nat} {b : Nat} (out : b ∉ s) : ∀ a ∈ s, a ∉ [b] := by
  intro a mem single
  rw [List.mem_singleton] at single
  exact out (single ▸ mem)

theorem Linked.congr (linked : Linked h t p) (same : ∀ a ∈ ids t, h'.block a = h.block a) :
    Linked h' t p := by
  induction t generalizing p with
  | leaf => trivial
  | node l x k r left right =>
    obtain ⟨here, low, high⟩ := linked
    have inside : ∀ a, a ∈ ids (node l x k r) ↔ a ∈ ids l ∨ a = x.1 ∨ a ∈ ids r := fun a =>
      mem_ids_make (d := .left)
    refine ⟨?_, left low ?_, right high ?_⟩
    · rw [same x.1 ((inside _).mpr (.inr (.inl rfl)))]
      exact here
    · intro a mem
      exact same a ((inside a).mpr (.inl mem))
    · intro a mem
      exact same a ((inside a).mpr (.inr (.inr mem)))

theorem Linked.frame {s : List Nat} (linked : Linked h t p) (within : Within h h' s)
    (apart : ∀ a ∈ ids t, a ∉ s) : Linked h' t p :=
  linked.congr fun a mem => within a (apart a mem)

theorem Linked.live (linked : Linked h t p) {a : Nat} (mem : a ∈ ids t) :
    ∃ n, h.block a = some n := by
  induction t generalizing p with
  | leaf => cases mem
  | node l x k r left right =>
    obtain ⟨here, low, high⟩ := linked
    obtain mem | rfl | mem := (mem_ids_make (d := .left)).mp mem
    · exact left low mem
    · exact ⟨_, here⟩
    · exact right high mem

theorem Linked.element (linked : Linked h t p) {a : Nat} {e : V} (mem : (a, e) ∈ t.cells) :
    ∃ n, h.block a = some n ∧ n.element = e := by
  induction t generalizing p with
  | leaf => cases mem
  | node l x k r left right =>
    obtain ⟨here, low, high⟩ := linked
    simp only [cells_node, List.mem_append, List.mem_cons] at mem
    obtain mem | rfl | mem := mem
    · exact left low mem
    · exact ⟨_, here, nodeOf_element⟩
    · exact right high mem

theorem Linked.below (linked : Linked h t p) {a : Nat} (mem : a ∈ ids t) : a < h.next := by
  obtain ⟨n, here⟩ := linked.live mem
  by_contra above
  rw [h.fresh a (Nat.le_of_not_lt above)] at here
  cases here

theorem Linked.depth_le (linked : Linked h t p) (nodup : (ids t).Nodup) : t.depth ≤ h.next := by
  have inside : ids t ⊆ List.range h.next := by
    intro a mem
    exact List.mem_range.mpr (linked.below mem)
  have few := nodup.length_le_of_subset inside
  rw [List.length_range, ids, List.length_map] at few
  exact Nat.le_trans t.depth_le_length few

end Trees

section Methods

variable {d : Side} {c o t : Cells V} {x : Nat × V} {k : Nat} {p q : Option Nat}
  {h : Heap (Node V)} {n : Node V} {a : Nat}

theorem run_element (here : h.block a = some n) : element a h = some (n.element, h) := by
  rw [element, run_bind (run_load here)]
  rfl

theorem run_parent (here : h.block a = some n) : parent a h = some (n.parent, h) := by
  rw [parent, run_bind (run_load here)]
  rfl

theorem run_child (here : h.block a = some n) (d : Side) :
    child d a h = some (n.child d, h) := by
  rw [child, run_bind (run_load here)]
  rfl

theorem run_height (linked : Linked h t p) : height (root t) h = some (t.height, h) := by
  cases t with
  | leaf => rfl
  | node l x k r =>
    rw [root, height, run_bind (run_load linked.1)]
    rfl

theorem setParent_linked (linked : Linked h t p) (nodup : (ids t).Nodup) (some_ : root t = some a)
    (q : Option Nat) :
    ∃ h', setParent a q h = some ((), h') ∧ Linked h' t q ∧ Within h h' [a] := by
  cases t with
  | leaf => cases some_
  | node l x k r =>
    cases some_
    obtain ⟨here, low, high⟩ := linked
    obtain ⟨-, -, outL, outR, -⟩ := (nodup_make (d := .left)).mp nodup
    have within := within_write h x.1 (nodeOf .left l x k r q)
    refine ⟨_, ?_, ⟨Heap.block_write_self here _, ?_, ?_⟩, within⟩
    · rw [setParent, run_bind (run_load here), run_store here]
      rfl
    · exact low.frame within (apart_single outL)
    · exact high.frame within (apart_single outR)

theorem setChild_linked (here : h.block x.1 = some n)
    (fields : n.withChild d (root c) = nodeOf d c x k o p) (linked : Linked h c q)
    (other : Linked h o (some x.1)) (nodup : (ids (make d c x k o)).Nodup) :
    ∃ h', setChild d x.1 (root c) h = some ((), h') ∧ Linked h' (make d c x k o) p ∧
      Within h h' (x.1 :: ids c) := by
  obtain ⟨nodupC, -, outC, outO, apart⟩ := nodup_make.mp nodup
  have written : (h.write x.1 (nodeOf d c x k o p)).block x.1 = some (nodeOf d c x k o p) :=
    Heap.block_write_self here _
  have within := within_write h x.1 (nodeOf d c x k o p)
  have linked' := linked.frame within (apart_single outC)
  have other' := other.frame within (apart_single outO)
  cases some_ : root c with
  | none =>
    refine ⟨_, ?_, linked_make.mpr ⟨written, ?_, other'⟩, within.mono (by simp)⟩
    · rw [setChild, run_bind (run_load here), run_bind (run_store here _), ← some_, fields]
      rfl
    · rw [root_eq_none.mp some_]
      trivial
  | some b =>
    obtain ⟨h', run, below, within'⟩ := setParent_linked linked' nodupC some_ (some x.1)
    have mine : b ∈ ids c := root_mem some_
    refine ⟨h', ?_, linked_make.mpr ⟨?_, below, ?_⟩, ?_⟩
    · rw [setChild, run_bind (run_load here), run_bind (run_store here _), ← some_, fields]
      simpa only [some_] using run
    · rw [within' x.1 ?_]
      · exact written
      · intro single
        exact outC (List.mem_singleton.mp single ▸ mine)
    · exact other'.frame within' (apart_single (apart b mine))
    · refine within.trans within' (by simp) ?_
      simp [mine]

theorem updateHeight_linked (linked : Linked h (make d c x k o) p)
    (nodup : (ids (make d c x k o)).Nodup) :
    ∃ h', updateHeight x.1 h = some ((), h') ∧ Linked h' (raise d c x o) p ∧ Within h h' [x.1] := by
  obtain ⟨here, low, high⟩ := linked_make.mp linked
  obtain ⟨-, -, outC, outO, -⟩ := nodup_make.mp nodup
  have within := within_write h x.1 (nodeOf d c x (max c.height o.height + 1) o p)
  refine ⟨_, ?_, linked_make.mpr ⟨Heap.block_write_self here _, ?_, ?_⟩, within⟩
  · rw [updateHeight, run_bind (run_load here)]
    cases d with
    | left =>
      rw [nodeOf, run_bind (run_height low), run_bind (run_height high), run_store here]
      rfl
    | right =>
      rw [nodeOf, run_bind (run_height high), run_bind (run_height low), run_store here,
        Nat.max_comm]
      rfl
  · exact low.frame within (apart_single outC)
  · exact high.frame within (apart_single outO)

theorem balanceFactor_run (linked : Linked h (make d c x k o) p) :
    balanceFactor x.1 h = some ((make d c x k o).lean .left, h) := by
  obtain ⟨here, low, high⟩ := linked_make.mp linked
  rw [balanceFactor, run_bind (run_load here)]
  cases d with
  | left =>
    rw [nodeOf, run_bind (run_height low), run_bind (run_height high)]
    rfl
  | right =>
    rw [nodeOf, run_bind (run_height high), run_bind (run_height low)]
    rfl

theorem toward_lean (d : Side) (t : Cells V) : toward d (t.lean .left) = t.lean d := by
  cases d with
  | left => rfl
  | right =>
    simp only [toward, lean, Side.other]
    omega

theorem rotate_linked {y : Nat × V} {b : Cells V} {j : Nat}
    (linked : Linked h (make d c x k (make d b y j o)) p)
    (nodup : (ids (make d c x k (make d b y j o))).Nodup) :
    ∃ h', rotate d x.1 h = some (y.1, h') ∧ Linked h' (raise d (raise d c x b) y o) (some x.1) ∧
      Within h h' (ids (make d c x k (make d b y j o))) := by
  obtain ⟨hereX, linkedC, linkedY⟩ := linked_make.mp linked
  obtain ⟨hereY, linkedB, linkedO⟩ := linked_make.mp linkedY
  simp only [nodup_make, mem_ids_make] at nodup
  have fields : (nodeOf d c x k (make d b y j o) p).withChild d.other (root b) =
      nodeOf d.other b x k c p := by
    rw [← nodeOf_other, nodeOf_withChild]
  obtain ⟨h₁, run₁, linked₁, within₁⟩ := setChild_linked hereX fields linkedB linkedC (by
    rw [nodup_make]
    grind)
  rw [make_other] at linked₁
  have hereY₁ : h₁.block y.1 = some (nodeOf d b y j o (some x.1)) := by
    rw [within₁ y.1 (by grind), hereY]
  have linkedO₁ := linkedO.frame within₁ (by grind)
  obtain ⟨h₂, run₂, linked₂, within₂⟩ := setChild_linked hereY₁ (nodeOf_withChild _) linked₁
    linkedO₁ (by
      simp only [nodup_make, mem_ids_make]
      grind)
  rw [root_make] at run₂
  obtain ⟨hereY₂, low₂, high₂⟩ := linked_make.mp linked₂
  obtain ⟨h₃, run₃, low₃, within₃⟩ := updateHeight_linked low₂ (by
    rw [nodup_make]
    grind)
  have linked₃ : Linked h₃ (make d (raise d c x b) y j o) (some x.1) := by
    refine linked_make.mpr ⟨?_, low₃, high₂.frame within₃ (by grind)⟩
    rw [within₃ y.1 (by grind), hereY₂]
    cases d <;> rfl
  obtain ⟨h₄, run₄, linked₄, within₄⟩ := updateHeight_linked linked₃ (by
    simp only [nodup_make, nodup_raise, mem_ids_raise]
    grind)
  refine ⟨h₄, ?_, linked₄, ?_⟩
  · rw [rotate, run_bind (run_child hereX d.other), nodeOf_child_other, root_make,
      run_bind (run_deref y.1), run_bind (run_child hereY d), nodeOf_child, run_bind run₁,
      run_bind run₂, run_bind run₃, run_bind run₄]
    rfl
  · intro a out
    simp only [mem_ids_make] at out
    rw [within₄ a (by grind), within₃ a (by grind), within₂ a (by grind [mem_ids_make]),
      within₁ a (by grind)]

theorem rotate_up (linked : Linked h (make d c x k o) p)
    (nodup : (ids (make d c x k o)).Nodup) (inner : c ≠ leaf) :
    ∃ h' m q, rotate d.other x.1 h = some (m, h') ∧
      root ((make d c x k o).rotate d.other) = some m ∧
      Linked h' ((make d c x k o).rotate d.other) q ∧ Within h h' (ids (make d c x k o)) := by
  obtain ⟨b, y, j, e, rfl⟩ := exists_make d.other inner
  rw [← make_other] at linked nodup ⊢
  obtain ⟨h', run, linked', within⟩ := rotate_linked linked nodup
  rw [rotate_make]
  exact ⟨h', y.1, some x.1, run, root_raise, linked', within⟩

theorem settle_linked (linked : Linked h t p) (nodup : (ids t).Nodup) (top : root t = some a)
    (inner : t.sub d ≠ leaf) :
    ∃ h' m q, settle d a h = some (m, h') ∧ root (t.settle d) = some m ∧
      Linked h' (t.settle d) q ∧ Within h h' (ids t) := by
  obtain ⟨c, x, k, o, rfl⟩ := exists_make (t := t) d (by
    rintro rfl
    cases top)
  rw [root_make, Option.some.injEq] at top
  subst top
  rw [sub_make] at inner
  obtain ⟨here, low, high⟩ := linked_make.mp linked
  have parts := nodup
  rw [nodup_make] at parts
  obtain ⟨b, y, j, e, rfl⟩ := exists_make d inner
  have balance := balanceFactor_run low
  rw [settle, run_bind (run_child here d), nodeOf_child, root_make, run_bind (run_deref y.1),
    run_bind balance, toward_lean, settle_make]
  by_cases outer : 0 ≤ (make d b y j e).lean d
  · rw [if_pos outer, if_pos outer]
    exact rotate_up linked nodup inner
  · rw [if_neg outer, if_neg outer]
    have grown : e ≠ leaf := by
      rw [lean_make] at outer
      rintro rfl
      rw [height_leaf] at outer
      omega
    obtain ⟨f, z, i, g, rfl⟩ := exists_make d grown
    obtain ⟨h₁, run₁, low₁, within₁⟩ := rotate_linked low parts.1
    have here₁ : h₁.block x.1 = some (nodeOf d (make d b y j (make d f z i g)) x k o p) := by
      rw [within₁ x.1 parts.2.2.1, here]
    have nodup₁ : (ids (make d (raise d (raise d b y f) z g) x k o)).Nodup := by
      simp only [nodup_make, mem_ids_make, nodup_raise, mem_ids_raise] at parts ⊢
      grind
    obtain ⟨h₂, run₂, linked₂, within₂⟩ := setChild_linked here₁ (nodeOf_withChild _) low₁
      (high.frame within₁ (by grind)) nodup₁
    rw [root_raise] at run₂
    rw [rotate_make]
    obtain ⟨h₃, m, q, run₃, root₃, linked₃, within₃⟩ := rotate_up linked₂ nodup₁ (by
      cases d <;> nofun)
    refine ⟨h₃, m, q, ?_, root₃, linked₃, ?_⟩
    · rw [run_bind run₁, run_bind run₂, run₃]
    · intro a out
      simp only [mem_ids_make] at out
      rw [within₃ a (by grind [mem_ids_make, mem_ids_raise]),
        within₂ a (by grind [mem_ids_raise]), within₁ a (by grind [mem_ids_make])]

@[simp]
theorem ids_rebalance (t : Cells V) : ids t.rebalance = ids t := by
  simp only [ids, cells_rebalance]

@[simp]
theorem ids_finish (changed : Bool) (t : Cells V) : ids (t.finish changed) = ids t := by
  simp only [ids, cells_finish]

theorem rebalance_linked (linked : Linked h t p) (nodup : (ids t).Nodup) :
    ∃ h' q, rebalance (root t) h = some (root t.rebalance, h') ∧ Linked h' t.rebalance q ∧
      Within h h' (ids t) := by
  cases t with
  | leaf => exact ⟨h, p, rfl, trivial, fun a _ => rfl⟩
  | node l x k r =>
    obtain ⟨h₁, run₁, linked₁, within₁⟩ := updateHeight_linked (d := .left) linked nodup
    have nodup₁ : (ids (raise .left l x r)).Nodup := nodup_make.mpr ((nodup_make (d := .left)).mp nodup)
    have inside : ∀ a, a ∈ ids (node l x k r) ↔ a ∈ ids l ∨ a = x.1 ∨ a ∈ ids r := fun a =>
      mem_ids_make (d := .left)
    have within : ∀ {h'}, Within h₁ h' (ids (raise .left l x r)) →
        Within h h' (ids (node l x k r)) := by
      intro h' later a out
      rw [inside] at out
      rw [later a (by grind [mem_ids_raise]), within₁ a (by grind)]
    have balance : balanceFactor x.1 h₁ = some ((raise .left l x r).lean .left, h₁) :=
      balanceFactor_run linked₁
    rw [root, rebalance, run_bind run₁, run_bind balance, HTree.rebalance]
    by_cases heavyLeft : 1 < (raise .left l x r).lean .left
    · obtain ⟨h₂, m, q, run₂, root₂, linked₂, within₂⟩ := settle_linked linked₁ nodup₁ root_raise
        (sub_of_lean (d := .left) (by omega))
      rw [if_pos heavyLeft, if_pos heavyLeft, run_bind run₂, root₂]
      exact ⟨h₂, q, rfl, linked₂, within within₂⟩
    rw [if_neg heavyLeft, if_neg heavyLeft]
    by_cases heavyRight : (raise .left l x r).lean .left < -1
    · have turned : (raise .left l x r).lean .right = -(raise .left l x r).lean .left :=
        lean_other .left _
      obtain ⟨h₂, m, q, run₂, root₂, linked₂, within₂⟩ := settle_linked linked₁ nodup₁ root_raise
        (sub_of_lean (d := .right) (by omega))
      rw [if_pos heavyRight, if_pos heavyRight, run_bind run₂, root₂]
      exact ⟨h₂, q, rfl, linked₂, within within₂⟩
    · rw [if_neg heavyRight, if_neg heavyRight]
      exact ⟨h₁, p, rfl, linked₁, within fun a _ => rfl⟩

/-- What an operation on a tree with the nodes `old`, which then has the nodes `new`, did to
    the heap: no other block was touched, and the nodes that are gone were freed. -/
structure Effects (h h' : Heap (Node V)) (old new : List Nat) : Prop where
  fresh : ∀ a ∈ new, a ∈ old ∨ h.block a = none
  frame : ∀ a, a ∉ old → a ∉ new → h'.block a = h.block a
  freed : ∀ a ∈ old, a ∉ new → h'.block a = none

theorem Within.effects {h' : Heap (Node V)} {s : List Nat} (within : Within h h' s) :
    Effects h h' s s := by
  refine ⟨?_, ?_, ?_⟩
  · intro a mem
    exact .inl mem
  · intro a out _
    exact within a out
  · intro a mem out
    exact absurd mem out

theorem Effects.trans {h₁ h' : Heap (Node V)} {old mid new : List Nat}
    (first : Effects h h₁ old mid) (second : Effects h₁ h' mid new) : Effects h h' old new := by
  refine ⟨?_, ?_, ?_⟩
  · intro a mem
    by_cases was : a ∈ old
    · exact .inl was
    by_cases between : a ∈ mid
    · exact first.fresh a between
    · obtain here | nothing := second.fresh a mem
      · exact absurd here between
      · rw [first.frame a was between] at nothing
        exact .inr nothing
  · intro a out out'
    by_cases between : a ∈ mid
    · obtain here | nothing := first.fresh a between
      · exact absurd here out
      · rw [second.freed a between out', nothing]
    · rw [second.frame a between out', first.frame a out between]
  · intro a mem out
    by_cases between : a ∈ mid
    · exact second.freed a between out
    · rw [second.frame a between out, first.freed a mem between]

theorem Effects.among {h' : Heap (Node V)} {old new old' new' : List Nat} (rest : List Nat)
    (effects : Effects h h' old new) (olds : ∀ a, a ∈ old' ↔ a ∈ old ∨ a ∈ rest)
    (news : ∀ a, a ∈ new' ↔ a ∈ new ∨ a ∈ rest) : Effects h h' old' new' := by
  refine ⟨?_, ?_, ?_⟩
  · intro a mem
    obtain mem | mem := (news a).mp mem
    · exact (effects.fresh a mem).imp_left fun was => (olds a).mpr (.inl was)
    · exact .inl ((olds a).mpr (.inr mem))
  · intro a out out'
    rw [olds, not_or] at out
    rw [news, not_or] at out'
    exact effects.frame a out.1 out'.1
  · intro a mem out
    rw [news, not_or] at out
    obtain mem | mem := (olds a).mp mem
    · exact effects.freed a mem out.1
    · exact absurd mem out.2

theorem Effects.nodup {c' : Cells V} {h' : Heap (Node V)} (linked : Linked h (make d c x k o) p)
    (nodup : (ids (make d c x k o)).Nodup) (effects : Effects h h' (ids c) (ids c'))
    (nodup' : (ids c').Nodup) : (ids (make d c' x k o)).Nodup := by
  obtain ⟨here, -, high⟩ := linked_make.mp linked
  obtain ⟨-, nodupO, outC, outO, apart⟩ := nodup_make.mp nodup
  have dead : ∀ {a n}, h.block a = some n → a ∉ ids c → a ∉ ids c' := by
    intro a n live out mem
    obtain was | nothing := effects.fresh a mem
    · exact out was
    · rw [live] at nothing
      cases nothing
  refine nodup_make.mpr ⟨nodup', nodupO, dead here outC, outO, ?_⟩
  intro a mem mem'
  obtain ⟨n, live⟩ := high.live mem'
  exact dead live (fun was => apart a was mem') mem

theorem finish_linked {c' : Cells V} {h₁ : Heap (Node V)} (linked : Linked h (make d c x k o) p)
    (nodup : (ids (make d c x k o)).Nodup) (below : Linked h₁ c' q) (nodup' : (ids c').Nodup)
    (effects : Effects h h₁ (ids c) (ids c')) (changed : Bool) :
    ∃ h₂ h' q', setChild d x.1 (root c') h₁ = some ((), h₂) ∧
      finish x.1 changed h₂ = some (root ((make d c' x k o).finish changed), h') ∧
      Linked h' ((make d c' x k o).finish changed) q' ∧
      Effects h h' (ids (make d c x k o)) (ids (make d c' x k o)) := by
  obtain ⟨here, -, high⟩ := linked_make.mp linked
  obtain ⟨-, -, outC, -, apart⟩ := nodup_make.mp nodup
  have whole := effects.nodup linked nodup nodup'
  obtain ⟨-, -, outC', -, apart'⟩ := nodup_make.mp whole
  have here₁ : h₁.block x.1 = some (nodeOf d c x k o p) := by
    rw [effects.frame x.1 outC outC', here]
  have high₁ : Linked h₁ o (some x.1) := by
    apply high.congr
    intro a mem
    exact effects.frame a (fun was => apart a was mem) fun now => apart' a now mem
  have more : Effects h h₁ (ids (make d c x k o)) (ids (make d c' x k o)) := by
    apply effects.among (x.1 :: ids o)
    all_goals
      intro a
      simp
  obtain ⟨h₂, run₂, linked₂, within₂⟩ := setChild_linked here₁ (nodeOf_withChild c') below high₁
    whole
  have inside : x.1 :: ids c' ⊆ ids (make d c' x k o) := by
    intro a mem
    rw [mem_ids_make]
    grind
  have upTo := more.trans (within₂.mono inside).effects
  cases changed with
  | false =>
    refine ⟨h₂, h₂, p, run₂, ?_, linked₂, upTo⟩
    rw [HTree.finish, if_neg Bool.false_ne_true, root_make]
    rfl
  | true =>
    obtain ⟨h₃, q', run₃, linked₃, within₃⟩ := rebalance_linked linked₂ whole
    rw [root_make] at run₃
    exact ⟨h₂, h₃, q', run₂, run₃, linked₃, upTo.trans within₃.effects⟩

end Methods

end AvlTree
