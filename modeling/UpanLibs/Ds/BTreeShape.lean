import UpanLibs.Ds.BTreeRestore

/-!
The shape of a tree: linked nodes of the right sizes with separators in order, all leaves at one
depth. `Rebalance` restores it.
-/
namespace BTree
open Memory (Heap)
open LevelTree

variable {K V : Type}

section Decisions

variable {d : Nat} (s : Store K V) [DecidableEq K] [DecidableEq V]

instance betweenDecidable (c : Cell K V) (l r : Option Nat) : Decidable (Between s c l r) :=
  inferInstanceAs (Decidable (_ = _))

instance afterDecidable : (q : Option Nat) → (rest : Children K V d) → Decidable (After s q rest)
  | _, [] => .isTrue trivial
  | q, (c, t) :: rest =>
    have := afterDecidable (root t) rest
    inferInstanceAs (Decidable (Between s c q (root t) ∧ After s (root t) rest))

instance linkedDecidable : {d : Nat} → (t : Branch K V d) → (p : Option Nat) →
    Decidable (Linked s t p)
  | 0, _, _ => .isTrue trivial
  | d + 1, n, p =>
    have (t : Branch K V d) := linkedDecidable t (some (Row.label n))
    inferInstanceAs (Decidable (s.nodes.block (Row.label n) =
        some ⟨p, (Row.rest n).map fun e => e.1.address⟩ ∧
      After s (root (Row.first n)) (Row.rest n) ∧
      Linked s (Row.first n) (some (Row.label n)) ∧
      ∀ e ∈ Row.rest n, Linked s e.2 (some (Row.label n))))

end Decisions

/-- A well-formed tree with this root, whose parent is `p`. -/
structure Shape {D : Nat} (o : KeyOrder K) (s : Store K V) (T : Branch K V D) (top : Nat)
    (p : Option Nat) : Prop where
  proper : Proper s T p
  top : root T = some top
  sized : T.RootSized minElementsPerNode maxElementsPerNode
  separated : T.Separated fun a b => o.less a.key b.key

section Order

variable {d D : Nat} {o : KeyOrder K}

def Ordered (o : KeyOrder K) (l : List (Cell K V)) : Prop :=
  l.Pairwise fun a b => o.less a.key b.key

theorem separated_ordered {T : Branch K V D} :
    T.Separated (fun a b => o.less a.key b.key) ↔ Ordered o T.inorder :=
  LTree.separated_iff (R := fun a b : Cell K V => o.less a.key b.key = true) o.trans

theorem separated_entries {T : Branch K V D} :
    T.Separated (fun a b => o.less a.key b.key) ↔
      (entries T).Pairwise fun a b => o.less a.1 b.1 := by
  rw [separated_ordered, Ordered, entries, List.pairwise_map]

end Order

section Count

variable {d D n : Nat} {s : Store K V} {t : Branch K V d} {p : Option Nat}

theorem linked_live (here : Linked s t p) : ∀ n ∈ t.labels, n < s.nodes.next := by
  induction d generalizing p with
  | zero => exact fun n mem => by cases mem
  | succ d ih =>
    obtain ⟨row, same⟩ := t.exists_node
    rw [same] at here ⊢
    obtain ⟨block, first, -, others⟩ := linked_node.mp here
    intro n mem
    rw [LTree.labels_node, List.mem_cons, List.mem_append, LTree.labelsOf, List.mem_flatMap] at mem
    rcases mem with rfl | mem | ⟨e, child, mem⟩
    · by_contra above
      rw [s.nodes.fresh _ (Nat.not_lt.mp above)] at block
      cases block
    · exact ih first n mem
    · exact ih (others e child) n mem

theorem labels_le (here : Linked s t p) (nodes : t.labels.Nodup) :
    t.labels.length ≤ s.nodes.next := by
  have within : t.labels ⊆ List.range s.nodes.next := by
    intro n mem
    rw [List.mem_range]
    exact linked_live here n mem
  have := (List.subperm_of_subset nodes within).length_le
  rwa [List.length_range] at this

theorem route_length_le (r : Route Nat (Cell K V) D d) : r.length ≤ r.labels.length := by
  induction r with
  | top => exact Nat.le_refl _
  | under g r ih =>
    rw [Route.length, Route.labels, List.length_append, List.length_cons]
    omega

theorem route_fuel {r : Route Nat (Cell K V) D d} (here : Proper s (r.plug t) p) :
    r.length < s.nodes.next + 1 := by
  have labels := (Route.labels_plug r t).length_eq
  have live := labels_le here.linked here.nodes
  have := route_length_le r
  rw [List.length_append] at labels
  omega

end Count

section Rebalancing

variable {K V : Type}

/-- A tree that is well-formed but for the child `t` of a node, with the address `n`, that has
    an element too few. -/
structure OneShort {D d : Nat} (o : KeyOrder K) (s : Store K V) (r : Route Nat (Cell K V) D d)
    (t : Branch K V d) (n top : Nat) (p : Option Nat) : Prop where
  proper : Proper s (r.plug t) p
  top : root (r.plug t) = some top
  separated : (r.plug t).Separated fun a b => o.less a.key b.key
  others : r.Sized minElementsPerNode maxElementsPerNode
  notRoot : r.length ≠ 0
  node : root t = some n
  short : t.size + 1 = minElementsPerNode
  below : t.Loose (minElementsPerNode - 1) minElementsPerNode maxElementsPerNode

variable {D d n top k : Nat} {o : KeyOrder K} {s : Store K V} {r : Route Nat (Cell K V) D d}
  {t : Branch K V d} {p : Option Nat}

theorem keeps_safe {r : Route Nat (Cell K V) D d} {count : Nat} (keeps : Keeps r count) :
    Safe r count := by
  induction r generalizing count with
  | top => trivial
  | under g r ih =>
    intro few small
    obtain ⟨most, up⟩ := keeps few small
    rw [if_neg (by omega)]
    exact ih up

/-- When no parent is merged away, `Rebalance` restores the shape, and the entries stay. -/
theorem rebalance_restores_shape (short : OneShort o s r t n top p) (keeps : Keeps r t.size) :
    ∃ s' E, ∃ T : Branch K V E, rebalance top (s.nodes.next + 1) n s = some ((top, true), s') ∧
      Shape o s' T top p ∧ entries T = entries (r.plug t) := by
  obtain ⟨s', E, top', p', T, run, restored, same⟩ := rebalance_linked r short.proper short.node
    short.top short.others (fun _ => short.below) (fun whole => absurd whole short.notRoot)
    (keeps_safe keeps) (route_fuel short.proper)
  obtain ⟨rfl, rfl⟩ := same keeps
  refine ⟨s', E, T, run, ⟨restored.proper, restored.top, restored.sized, ?_⟩, restored.entries⟩
  rw [separated_entries, restored.entries, ← separated_entries]
  exact short.separated

def threeLeaves : Store Nat Nat where
  nodes := (((Heap.empty.add ⟨none, [15, 32]⟩).add ⟨some 0, List.range 15⟩).add
    ⟨some 0, List.range' 16 16⟩).add ⟨some 0, List.range' 33 16⟩
  elements e :=
    if e = 15 then some ⟨e, e, some 1, some 2⟩
    else if e = 32 then some ⟨e, e, some 2, some 3⟩
    else if e < 49 then some ⟨e, e, none, none⟩
    else none

def leaf (n : Nat) (es : List Nat) : Branch Nat Nat 1 :=
  .node ⟨n, (), es.map fun e => (⟨e, e, e⟩, ())⟩

theorem leaf_loose {n low : Nat} {es : List Nat} (least : low ≤ es.length)
    (most : es.length ≤ maxElementsPerNode) :
    (leaf n es).Loose low minElementsPerNode maxElementsPerNode :=
  LTree.loose_node.mpr ⟨by simpa using ⟨least, most⟩, trivial, fun _ _ => trivial⟩

def firstOfThree : Route Nat (Cell Nat Nat) 2 1 :=
  .under ⟨0, [], [(⟨15, 15, 15⟩, leaf 2 (List.range' 16 16)),
    (⟨32, 32, 32⟩, leaf 3 (List.range' 33 16))]⟩ .top

theorem firstOfThree_short :
    OneShort natKeys threeLeaves firstOfThree (leaf 1 (List.range 15)) 1 0 none where
  proper := ⟨by decide +kernel, by decide +kernel, by decide +kernel⟩
  top := rfl
  separated := by
    rw [separated_entries]
    decide +kernel
  others := by
    refine ⟨by decide, ⟨by simp, ?_⟩, trivial⟩
    rw [List.forall_mem_cons, List.forall_mem_singleton]
    exact ⟨leaf_loose (by decide) (by decide), leaf_loose (by decide) (by decide)⟩
  notRoot := by decide
  node := rfl
  short := rfl
  below := leaf_loose (by decide) (by decide)

theorem firstOfThree_keeps : Keeps firstOfThree (leaf 1 (List.range 15)).size := by
  intro _ _
  exact ⟨by decide, trivial⟩

theorem rebalance_restores_shape_merge : ∃ s' E, ∃ T : Branch Nat Nat E,
    rebalance 0 (threeLeaves.nodes.next + 1) 1 threeLeaves = some ((0, true), s') ∧
      Shape natKeys s' T 0 none ∧
      entries T = entries (firstOfThree.plug (leaf 1 (List.range 15))) :=
  rebalance_restores_shape firstOfThree_short firstOfThree_keeps

end Rebalancing
end BTree
