import UpanLibs.Ds.BTreeRebalance

/-!
`Rebalance` from a node with an element too few up to where no merge goes on. A merge below
a root with one element makes the merged node the root when this is the left one of the
two; the right one is deleted and left as the root.
-/
namespace BTree
open Memory (Heap)
open LevelTree

variable {K V : Type}

/-- A tree in the store whose nodes and elements are all different. -/
structure Proper {d : Nat} (s : Store K V) (t : Branch K V d) (p : Option Nat) : Prop where
  linked : Linked s t p
  nodes : t.labels.Nodup
  cells : (addresses t.inorder).Nodup

def entries {d : Nat} (t : Branch K V d) : List (K × V) := t.inorder.map fun c => (c.key, c.value)

/-- The number of elements of the sibling with which `Rebalance` works. -/
def siblingSize {d : Nat} (g : Gap Nat (Cell K V) (Branch K V d)) : Nat :=
  match g.after, g.before with
  | e :: _, _ => e.2.size
  | [], e :: _ => e.2.size
  | [], [] => 0

/-- The parent of every node that is merged keeps an element, when the child in the gap has
    so many. -/
def Keeps {D : Nat} : {d : Nat} → Route Nat (Cell K V) D d → Nat → Prop
  | _, .top, _ => True
  | _, .under g r, count => count < minElementsPerNode → siblingSize g ≤ minElementsPerNode →
      2 ≤ g.size ∧ Keeps r (g.size - 1)

def Safe {D : Nat} : {d : Nat} → Route Nat (Cell K V) D d → Nat → Prop
  | _, .top, _ => True
  | _, .under g r, count => count < minElementsPerNode → siblingSize g ≤ minElementsPerNode →
      if g.size = 1 then g.after ≠ [] else Safe r (g.size - 1)

section Index

variable {s : Store K V} {n : Nat} {front rest : List Nat} {i e : Nat} {el : BTreeElement K V}

theorem childIndex_skip (more : rest ≠ [])
    (others : ∀ e ∈ front, ∃ el, s.elements e = some el ∧ el.leftNode ≠ some n) :
    childIndex n (front ++ rest) i s = childIndex n rest (i + front.length) s := by
  induction front generalizing i with
  | nil => rfl
  | cons e front ih =>
    obtain ⟨⟨el, live, other⟩, others⟩ := List.forall_mem_cons.mp others
    have notLast : ¬ (front ++ rest = [] ∧ el.rightNode = some n) := by simp [more]
    rw [List.cons_append, childIndex, run_bind (run_element live), if_neg other, if_neg notLast,
      ih others, List.length_cons]
    congr 1
    omega

theorem childIndex_left (live : s.elements e = some el) (left : el.leftNode = some n) :
    childIndex n (e :: rest) i s = some (some (i, true), s) := by
  rw [childIndex, run_bind (run_element live), if_pos left, run_pure]

theorem childIndex_last (live : s.elements e = some el) (left : el.leftNode ≠ some n)
    (right : el.rightNode = some n) : childIndex n [e] i s = some (some (i, false), s) := by
  rw [childIndex, run_bind (run_element live), if_neg left, if_pos ⟨rfl, right⟩, run_pure]

end Index

section Gaps

variable {d P n : Nat} {s : Store K V} {q : Option Nat} {t u : Branch K V d} {c : Cell K V}
  {before after : Children K V d}

theorem root_mem (here : root t = some n) : n ∈ t.labels := by
  cases d with
  | zero => cases here
  | succ d =>
    obtain ⟨row, rfl⟩ := t.exists_node
    cases here
    exact List.mem_cons_self

theorem before_left (here : Before s before q) (absent : n ∉ LTree.labelsOf before) :
    ∀ e ∈ (before.map fun e => e.1.address).reverse,
      ∃ el, s.elements e = some el ∧ el.leftNode ≠ some n := by
  induction before generalizing q with
  | nil => simp
  | cons f before ih =>
    rw [LTree.labelsOf_cons, List.mem_append, not_or] at absent
    intro e mem
    rw [List.map_cons, List.reverse_cons, List.mem_append, List.mem_singleton] at mem
    rcases mem with mem | rfl
    · exact ih here.2 absent.2 e mem
    · exact ⟨_, here.1, fun same => absent.1 (root_mem same)⟩

theorem childIndex_after (precedes : Precedes s P before (root t))
    (between : Between s c (root t) (root u)) (here : root t = some n)
    (absent : n ∉ LTree.labelsOf before) :
    childIndex n ((before.map fun e => e.1.address).reverse ++
      c.address :: after.map fun e => e.1.address) 0 s = some (some (before.length, true), s) := by
  rw [childIndex_skip (List.cons_ne_nil _ _) (before_left precedes.1 absent),
    childIndex_left between here]
  simp

theorem childIndex_before (precedes : Precedes s P before (root u))
    (between : Between s c (root u) (root t)) (here : root t = some n)
    (absent : n ∉ LTree.labelsOf before) (other : root u ≠ some n) :
    childIndex n ((before.map fun e => e.1.address).reverse ++ [c.address]) 0 s =
      some (some (before.length, false), s) := by
  rw [childIndex_skip (List.cons_ne_nil _ _) (before_left precedes.1 absent),
    childIndex_last between other here]
  simp

end Gaps

section Rounds

variable {d root k n P b : Nat} {s s' s₁ s₂ s₃ : Store K V} {q : Option Nat} {nd other : BTreeNode}
  {c : Cell K V} {el : BTreeElement K V} {before after : Children K V d} {u : Branch K V d}

theorem rebalance_root : rebalance root (k + 1) root s = some ((root, true), s) := by
  rw [rebalance, if_pos rfl, run_pure]

theorem rebalance_enough (notRoot : n ≠ root) (block : s.nodes.block n = some nd)
    (enough : minElementsPerNode ≤ nd.elements.length) :
    rebalance root (k + 1) n s = some ((root, true), s) := by
  rw [rebalance, if_neg notRoot, run_bind (run_node block), if_pos enough, run_pure]

/-- The first steps of `Rebalance`, to where the node is found in its parent. -/
structure Found (s : Store K V) (root n P i : Nat) (left : Bool) (parent : List Nat)
    (c : Nat) (el : BTreeElement K V) : Prop where
  notRoot : n ≠ root
  block : ∃ es, s.nodes.block n = some ⟨some P, es⟩ ∧ es.length < minElementsPerNode
  above : ∃ q, s.nodes.block P = some ⟨q, parent⟩
  index : childIndex n parent 0 s = some (some (i, left), s)
  here : parent[i]? = some c
  element : s.elements c = some el

variable {i cell : Nat} {parent : List Nat}

theorem rebalance_borrowRight (found : Found s root n P i true parent cell el)
    (right : el.rightNode = some b) (block : s.nodes.block b = some other)
    (lends : minElementsPerNode < other.elements.length)
    (borrowed : borrowFromRight n b cell s = some ((), s')) :
    rebalance root (k + 1) n s = some ((root, true), s') := by
  obtain ⟨es, mine, few⟩ := found.block
  obtain ⟨q, above⟩ := found.above
  rw [rebalance, if_neg found.notRoot, run_bind (run_node mine), if_neg (Nat.not_le.mpr few),
    run_bind (run_deref P), run_bind (run_node above), run_bind found.index]
  simp only [found.here, if_true]
  rw [run_bind (run_deref cell), run_bind (run_element found.element), right,
    run_bind (run_deref b), run_bind (run_node block), if_pos lends, run_bind borrowed, run_pure]

theorem rebalance_borrowLeft (found : Found s root n P i false parent cell el)
    (left : el.leftNode = some b) (block : s.nodes.block b = some other)
    (lends : minElementsPerNode < other.elements.length)
    (borrowed : borrowFromLeft b n cell s = some ((), s')) :
    rebalance root (k + 1) n s = some ((root, true), s') := by
  obtain ⟨es, mine, few⟩ := found.block
  obtain ⟨q, above⟩ := found.above
  rw [rebalance, if_neg found.notRoot, run_bind (run_node mine), if_neg (Nat.not_le.mpr few),
    run_bind (run_deref P), run_bind (run_node above), run_bind found.index]
  simp only [found.here, Bool.false_eq_true, if_false]
  rw [run_bind (run_deref cell), run_bind (run_element found.element), left,
    run_bind (run_deref b), run_bind (run_node block), if_pos lends, run_bind borrowed,
    run_pure]

theorem rebalance_joinRight (found : Found s root n P i true parent cell el)
    (right : el.rightNode = some b) (block : s.nodes.block b = some other)
    (keeps : other.elements.length ≤ minElementsPerNode)
    (joined : join n b cell s = some ((), s₁))
    (removed : setElements P (parent.eraseIdx i) s₁ = some ((), s₂))
    (more : parent.eraseIdx i ≠ [])
    (relinked : (match (parent.eraseIdx i)[i]? with
      | some next => setLeftNode next (some n)
      | none => pure ()) s₂ = some ((), s₃))
    (deleted : deleteNode b s₃ = some ((), s')) :
    rebalance root (k + 1) n s = rebalance root k P s' := by
  obtain ⟨es, mine, few⟩ := found.block
  obtain ⟨q, above⟩ := found.above
  have many : (parent.eraseIdx i).length ≠ 0 :=
    fun none => more (List.length_eq_zero_iff.mp none)
  rw [rebalance, if_neg found.notRoot, run_bind (run_node mine), if_neg (Nat.not_le.mpr few),
    run_bind (run_deref P), run_bind (run_node above), run_bind found.index]
  simp only [found.here, if_true]
  rw [run_bind (run_deref cell), run_bind (run_element found.element), right,
    run_bind (run_deref b), run_bind (run_node block), if_neg (Nat.not_lt.mpr keeps), run_bind joined,
    run_bind removed, if_neg many]
  cases next : (parent.eraseIdx i)[i]? with
  | none =>
    rw [next] at relinked
    cases relinked
    simp only
    rw [run_bind deleted]
  | some e =>
    rw [next] at relinked
    simp only at relinked ⊢
    rw [run_bind relinked, run_bind deleted]

theorem rebalance_collapse (found : Found s root n P i true parent cell el)
    (right : el.rightNode = some b) (block : s.nodes.block b = some other)
    (keeps : other.elements.length ≤ minElementsPerNode)
    (joined : join n b cell s = some ((), s₁))
    (removed : setElements P (parent.eraseIdx i) s₁ = some ((), s₂))
    (last : parent.eraseIdx i = []) (deleted : deleteNode b s₂ = some ((), s')) :
    rebalance root (k + 1) n s = some ((n, true), s') := by
  obtain ⟨es, mine, few⟩ := found.block
  obtain ⟨q, above⟩ := found.above
  have none' : (parent.eraseIdx i).length = 0 := by rw [last, List.length_nil]
  rw [rebalance, if_neg found.notRoot, run_bind (run_node mine), if_neg (Nat.not_le.mpr few),
    run_bind (run_deref P), run_bind (run_node above), run_bind found.index]
  simp only [found.here, if_true]
  rw [run_bind (run_deref cell), run_bind (run_element found.element), right,
    run_bind (run_deref b), run_bind (run_node block), if_neg (Nat.not_lt.mpr keeps), run_bind joined,
    run_bind removed, if_pos none', run_bind deleted, run_pure]

theorem rebalance_joinLeft (found : Found s root n P i false parent cell el)
    (left : el.leftNode = some b) (block : s.nodes.block b = some other)
    (keeps : other.elements.length ≤ minElementsPerNode)
    (joined : join b n cell s = some ((), s₁))
    (removed : setElements P parent.dropLast s₁ = some ((), s₂))
    (more : parent.dropLast ≠ []) (last : i = parent.dropLast.length)
    (deleted : deleteNode n s₂ = some ((), s')) :
    rebalance root (k + 1) n s = rebalance root k P s' := by
  obtain ⟨es, mine, few⟩ := found.block
  obtain ⟨q, above⟩ := found.above
  have many : parent.dropLast.length ≠ 0 := fun none => more (List.length_eq_zero_iff.mp none)
  rw [rebalance, if_neg found.notRoot, run_bind (run_node mine), if_neg (Nat.not_le.mpr few),
    run_bind (run_deref P), run_bind (run_node above), run_bind found.index]
  simp only [found.here, Bool.false_eq_true, if_false]
  rw [run_bind (run_deref cell), run_bind (run_element found.element), left,
    run_bind (run_deref b), run_bind (run_node block), if_neg (Nat.not_lt.mpr keeps),
    run_bind joined,
    run_bind removed, if_neg many, if_neg (by omega), run_bind deleted]

end Rounds

section Wholes

variable {D E d P top : Nat} {s s' : Store K V} {p q : Option Nat}

theorem root_plug {r : Route Nat (Cell K V) D d} {t t' : Branch K V d} (same : root t = root t') :
    root (r.plug t) = root (r.plug t') := by
  induction r with
  | top => exact same
  | under g r ih =>
    apply ih
    rw [Gap.fill, Gap.fill, root_node, root_node, close_label, close_label]

theorem root_plug_mem {r : Route Nat (Cell K V) D d} {t : Branch K V d} {m : Nat}
    (below : r.length ≠ 0) (here : root (r.plug t) = some m) : m ∈ r.labels := by
  induction r with
  | top => exact absurd rfl below
  | under g r ih =>
    rw [Route.labels, List.mem_append]
    cases r with
    | top =>
      rw [Route.plug, Route.plug, Gap.fill, root_node, close_label] at here
      cases here
      exact .inl List.mem_cons_self
    | under g' r => exact .inr (ih (Nat.succ_ne_zero _) here)

structure Restored {D E : Nat} (s' : Store K V) (T : Branch K V E) (T₀ : Branch K V D)
    (top : Nat) (q : Option Nat) : Prop where
  proper : Proper s' T q
  top : root T = some top
  entries : entries T = entries T₀
  cells : (addresses T.inorder).Perm (addresses T₀.inorder)
  nodes : T.labels ⊆ T₀.labels
  sized : T.RootSized minElementsPerNode maxElementsPerNode

theorem Restored.of_inorder {C : Nat} {T : Branch K V E} {T₁ : Branch K V D} {T₀ : Branch K V C}
    (here : Restored s' T T₁ top q) (same : T₁.inorder = T₀.inorder)
    (nodes : T₁.labels ⊆ T₀.labels) : Restored s' T T₀ top q where
  proper := here.proper
  top := here.top
  entries := here.entries.trans (by rw [BTree.entries, same, BTree.entries])
  cells := by rw [← same]; exact here.cells
  nodes := List.Subset.trans here.nodes nodes
  sized := here.sized

variable {r : Route Nat (Cell K V) D (d + 1)} {before after : Children K V d}
  {x y x' y' : Branch K V d} {c c' : Cell K V}

theorem restored_lent
    (here : Proper s (r.plug (.node (close P before x ((c, y) :: after)))) p)
    (topNode : root (r.plug (.node (close P before x ((c, y) :: after)))) = some top)
    (linked : Linked s' (r.plug (.node (close P before x' ((c', y') :: after)))) p)
    (labels : (x'.labels ++ y'.labels).Perm (x.labels ++ y.labels))
    (cells : (addresses (x'.inorder ++ c' :: y'.inorder)).Perm
      (addresses (x.inorder ++ c :: y.inorder)))
    (same : (x'.inorder ++ c' :: y'.inorder).map (fun c => (c.key, c.value)) =
      (x.inorder ++ c :: y.inorder).map fun c => (c.key, c.value))
    (sized : (r.plug (.node (close P before x' ((c', y') :: after)))).RootSized
      minElementsPerNode maxElementsPerNode) :
    Restored s' (r.plug (.node (close P before x' ((c', y') :: after))))
      (r.plug (.node (close P before x ((c, y) :: after)))) top p := by
  have nodes' : (r.plug (.node (close P before x' ((c', y') :: after)))).labels.Perm
      (r.plug (.node (close P before x ((c, y) :: after)))).labels :=
    labels_pair.trans (((labels.cons P).append_right _).trans labels_pair.symm)
  have cells' : (addresses (r.plug (.node (close P before x' ((c', y') :: after)))).inorder).Perm
      (addresses (r.plug (.node (close P before x ((c, y) :: after)))).inorder) := by
    simp only [inorder_pair, addresses_append] at cells ⊢
    exact ((cells.append_left _).append_right _ |>.append_left _).append_right _
  refine ⟨⟨linked, nodes'.nodup_iff.mpr here.nodes, cells'.nodup_iff.mpr here.cells⟩, ?_, ?_,
    cells', nodes'.subset, sized⟩
  · rw [← topNode]
    apply root_plug
    rw [root_node, root_node, close_label, close_label]
  · rw [entries, entries, inorder_pair, inorder_pair]
    simp only [List.map_append] at same ⊢
    rw [same]

theorem proper_merged
    (here : Proper s (r.plug (.node (close P before x ((c, y) :: after)))) p)
    (linked : Linked s' (r.plug (.node (close P before x' after))) p) {b : Nat}
    (labels : (x.labels ++ y.labels).Perm (b :: x'.labels))
    (same : x'.inorder = x.inorder ++ c :: y.inorder) :
    Proper s' (r.plug (.node (close P before x' after))) p ∧
      (r.plug (.node (close P before x' after))).inorder =
        (r.plug (.node (close P before x ((c, y) :: after)))).inorder ∧
      (r.plug (.node (close P before x' after))).labels ⊆
        (r.plug (.node (close P before x ((c, y) :: after)))).labels := by
  have inorder : (r.plug (.node (close P before x' after))).inorder =
      (r.plug (.node (close P before x ((c, y) :: after)))).inorder := by
    rw [inorder_pair, Route.inorder_plug, LTree.inorder_close, same]
  have nodes : (r.plug (.node (close P before x ((c, y) :: after)))).labels.Perm
      (b :: (r.plug (.node (close P before x' after))).labels) := by
    refine labels_pair.trans ?_
    refine (((labels.cons P).append_right _).trans ?_)
    have plugged := (Route.labels_plug r (.node (close P before x' after))).trans
      (LTree.labels_close.append_right _)
    refine List.Perm.trans ?_ (plugged.cons b).symm
    classical
    rw [List.perm_iff_count]
    intro n
    simp only [List.count_append, List.count_cons]
    omega
  refine ⟨⟨linked, ?_, ?_⟩, inorder, ?_⟩
  · exact (List.nodup_cons.mp (nodes.nodup_iff.mp here.nodes)).2
  · rw [inorder]
    exact here.cells
  · exact fun n mem => nodes.symm.subset (List.mem_cons_of_mem _ mem)

end Wholes

section Recursion

variable {D d k n top : Nat} {s : Store K V} {p : Option Nat}

theorem exists_last {α : Type} {l : List α} (any : l ≠ []) : ∃ front last, l = front ++ [last] :=
  ⟨l.dropLast, l.getLast any, (List.dropLast_append_getLast any).symm⟩

theorem borrowRight_restored {a b P : Nat} {r : Route Nat (Cell K V) D (d + 2)}
    {before after : Children K V (d + 1)} {xf yf : Branch K V d} {xs ys : Children K V d}
    {l e : Cell K V × Branch K V d} {c : Cell K V}
    (here : Proper s (r.plug (.node (close P before (.node ⟨a, xf, xs ++ [l]⟩)
      ((c, .node ⟨b, yf, e :: ys⟩) :: after)))) p)
    (topNode : root (r.plug (.node (close P before (.node ⟨a, xf, xs ++ [l]⟩)
      ((c, .node ⟨b, yf, e :: ys⟩) :: after)))) = some top)
    (room : xs.length + 1 ≤ maxElementsPerNode) (room' : ys.length ≤ maxElementsPerNode)
    (sized : ∀ e' : Cell K V, (r.plug (.node (close P before
      (.node ⟨a, xf, xs ++ [l] ++ [(⟨e.1.address, c.key, c.value⟩, yf)]⟩)
      ((e', .node ⟨b, e.2, ys⟩) :: after)))).RootSized minElementsPerNode maxElementsPerNode) :
    ∃ s', ∃ T : Branch K V D, borrowFromRight a b c.address s = some ((), s') ∧
      Restored s' T (r.plug (.node (close P before (.node ⟨a, xf, xs ++ [l]⟩)
        ((c, .node ⟨b, yf, e :: ys⟩) :: after)))) top p := by
  obtain ⟨-, left, between, right⟩ := linked_pair.mp here.linked
  obtain ⟨⟨distinct, -⟩, distinct', -⟩ := pair_apart here.nodes here.cells
  obtain ⟨s', run, left', right', between', within⟩ := borrowFromRight_linked left right between
    (List.nodup_cons.mp distinct).2 distinct' room room'
  refine ⟨s', _, run, restored_lent here topNode (pair_lent here.linked here.nodes here.cells
    (within.mono ?_ ?_) left' right' rfl rfl between' rfl) ?_ ?_ ?_ (sized _)⟩
  · intro n mem
    simp only [LTree.labels_node, List.mem_append, List.mem_cons] at mem ⊢
    tauto
  · intro n mem
    simp only [List.mem_cons, List.not_mem_nil, or_false] at mem
    rcases mem with rfl | rfl <;> simp [addresses]
  · classical
    rw [List.perm_iff_count]
    intro n
    simp [List.count_cons]
    omega
  · refine List.perm_iff_count.mpr fun n => ?_
    simp [addresses, List.count_cons]
    omega
  · simp

theorem borrowLeft_restored {a b P : Nat} {r : Route Nat (Cell K V) D (d + 2)}
    {before after : Children K V (d + 1)} {xf yf : Branch K V d} {xs ys : Children K V d}
    {l e : Cell K V × Branch K V d} {c : Cell K V}
    (here : Proper s (r.plug (.node (close P before (.node ⟨a, xf, xs ++ [l]⟩)
      ((c, .node ⟨b, yf, e :: ys⟩) :: after)))) p)
    (topNode : root (r.plug (.node (close P before (.node ⟨a, xf, xs ++ [l]⟩)
      ((c, .node ⟨b, yf, e :: ys⟩) :: after)))) = some top)
    (room : xs.length ≤ maxElementsPerNode) (room' : ys.length + 1 ≤ maxElementsPerNode)
    (sized : ∀ e' : Cell K V, (r.plug (.node (close P before (.node ⟨a, xf, xs⟩)
      ((e', .node ⟨b, l.2, (⟨l.1.address, c.key, c.value⟩, yf) :: e :: ys⟩) ::
        after)))).RootSized minElementsPerNode maxElementsPerNode) :
    ∃ s', ∃ T : Branch K V D, borrowFromLeft a b c.address s = some ((), s') ∧
      Restored s' T (r.plug (.node (close P before (.node ⟨a, xf, xs ++ [l]⟩)
        ((c, .node ⟨b, yf, e :: ys⟩) :: after)))) top p := by
  obtain ⟨-, left, between, right⟩ := linked_pair.mp here.linked
  obtain ⟨⟨distinct, -⟩, distinct', -⟩ := pair_apart here.nodes here.cells
  obtain ⟨s', run, left', right', between', within⟩ := borrowFromLeft_linked left right between
    (List.nodup_cons.mp distinct).2 distinct' room room'
  refine ⟨s', _, run, restored_lent here topNode (pair_lent here.linked here.nodes here.cells
    (within.mono ?_ ?_) left' right' rfl rfl between' rfl) ?_ ?_ ?_ (sized _)⟩
  · intro n mem
    simp only [LTree.labels_node, LTree.labelsOf_append, LTree.labelsOf_cons, List.mem_append,
      List.mem_cons] at mem ⊢
    tauto
  · intro n mem
    simp only [List.mem_cons, List.not_mem_nil, or_false] at mem
    rcases mem with rfl | rfl <;> simp [addresses]
  · classical
    rw [List.perm_iff_count]
    intro n
    simp [List.count_cons]
    omega
  · refine List.perm_iff_count.mpr fun n => ?_
    simp [addresses, List.count_cons]
    omega
  · simp

/-- What a merge makes of a pair: one child, with all elements of both. -/
structure Merged {D d : Nat} (s' : Store K V) (r : Route Nat (Cell K V) D (d + 1)) (P : Nat)
    (before after : Children K V d) (x' : Branch K V d) (T₀ : Branch K V D) (p : Option Nat) :
    Prop where
  proper : Proper s' (r.plug (.node (close P before x' after))) p
  inorder : (r.plug (.node (close P before x' after))).inorder = T₀.inorder
  nodes : (r.plug (.node (close P before x' after))).labels ⊆ T₀.labels
  sized : x'.Sized minElementsPerNode maxElementsPerNode

theorem elementsOf_length {before after : Children K V d} :
    (elementsOf before after).length = before.length + after.length := by
  simp [elementsOf]

theorem merged_joined {s' : Store K V} {a b P : Nat} {r : Route Nat (Cell K V) D (d + 2)}
    {before after : Children K V (d + 1)} {xf yf : Branch K V d} {xs ys : Children K V d}
    {l e : Cell K V × Branch K V d} {c : Cell K V}
    (here : Proper s (r.plug (.node (close P before (.node ⟨a, xf, xs ++ [l]⟩)
      ((c, .node ⟨b, yf, e :: ys⟩) :: after)))) p)
    (linked : Linked s' (r.plug (.node (close P before
      (.node ⟨a, xf, xs ++ [l] ++ (c, yf) :: e :: ys⟩) after))) p)
    (enough : minElementsPerNode ≤ xs.length + ys.length + 3)
    (fits : xs.length + ys.length + 3 ≤ maxElementsPerNode)
    (left : LTree.Sized minElementsPerNode maxElementsPerNode xf ∧
      (∀ f ∈ xs, LTree.Sized minElementsPerNode maxElementsPerNode f.2) ∧
        LTree.Sized minElementsPerNode maxElementsPerNode l.2)
    (right : LTree.Sized minElementsPerNode maxElementsPerNode yf ∧
      LTree.Sized minElementsPerNode maxElementsPerNode e.2 ∧
        ∀ f ∈ ys, LTree.Sized minElementsPerNode maxElementsPerNode f.2) :
    Merged s' r P before after (.node ⟨a, xf, xs ++ [l] ++ (c, yf) :: e :: ys⟩)
      (r.plug (.node (close P before (.node ⟨a, xf, xs ++ [l]⟩)
        ((c, .node ⟨b, yf, e :: ys⟩) :: after)))) p := by
  have labels : ((LTree.node ⟨a, xf, xs ++ [l]⟩).labels ++ (LTree.node ⟨b, yf, e :: ys⟩).labels).Perm
      (b :: (LTree.node ⟨a, xf, xs ++ [l] ++ (c, yf) :: e :: ys⟩).labels) := by
    classical
    rw [List.perm_iff_count]
    intro n
    simp [List.count_cons]
    omega
  obtain ⟨proper, inorder, nodes⟩ := proper_merged here linked labels (by simp)
  refine ⟨proper, inorder, nodes, LTree.sized_node.mpr ⟨?_, left.1, ?_⟩⟩
  · simp only [List.length_append, List.length_cons, List.length_nil]
    omega
  · simp only [List.forall_mem_append, List.forall_mem_singleton, List.forall_mem_cons]
    exact ⟨left.2, right⟩

theorem rebalance_right {P : Nat} {r : Route Nat (Cell K V) D (d + 1)}
    {before after : Children K V d} {t u : Branch K V d} {c : Cell K V}
    (here : Proper s (r.plug (.node (close P before t ((c, u) :: after)))) p)
    (node : root t = some n)
    (topNode : root (r.plug (.node (close P before t ((c, u) :: after)))) = some top)
    (notTop : n ≠ top) (few : t.size < minElementsPerNode)
    (loose : t.Loose (minElementsPerNode - 1) minElementsPerNode maxElementsPerNode)
    (sibling : u.Sized minElementsPerNode maxElementsPerNode)
    (short : before.length + after.length < maxElementsPerNode)
    (whole : ∀ t' c' u', LTree.Sized minElementsPerNode maxElementsPerNode t' →
      LTree.Sized minElementsPerNode maxElementsPerNode u' →
      (r.plug (.node (close P before t' ((c', u') :: after)))).RootSized
        minElementsPerNode maxElementsPerNode) :
    (minElementsPerNode < u.size ∧ ∃ s', ∃ T : Branch K V D,
      rebalance top (k + 1) n s = some ((top, true), s') ∧
      Restored s' T (r.plug (.node (close P before t ((c, u) :: after)))) top p) ∨
    (u.size ≤ minElementsPerNode ∧ ∃ s' x',
      Merged s' r P before after x' (r.plug (.node (close P before t ((c, u) :: after)))) p ∧
      root x' = some n ∧
      (before.length + after.length = 0 →
        rebalance top (k + 1) n s = some ((n, true), s')) ∧
      (before.length + after.length ≠ 0 →
        rebalance top (k + 1) n s = rebalance top k P s')) := by
  have least : minElementsPerNode = 16 := rfl
  have most : maxElementsPerNode = 32 := rfl
  cases d with
  | zero => cases node
  | succ d =>
  obtain ⟨⟨a, xf, xs⟩, rfl⟩ := t.exists_node
  obtain ⟨⟨b, yf, ys⟩, rfl⟩ := u.exists_node
  obtain rfl : a = n := Option.some.inj node
  obtain ⟨⟨block, precedes, follows, -⟩, left, between, right⟩ := linked_pair.mp here.linked
  obtain ⟨⟨distinct, apart⟩, -⟩ := pair_apart here.nodes here.cells
  obtain ⟨⟨fewest, -⟩, ⟨xfSized, xsSized⟩⟩ := LTree.loose_node.mp loose
  obtain ⟨⟨enough, fits⟩, ⟨yfSized, ysSized⟩⟩ := LTree.sized_node.mp sibling
  simp only [LTree.size_node] at few fewest enough fits ⊢
  have mine := (linked_node.mp left).1
  have theirs := (linked_node.mp right).1
  have absent : a ∉ LTree.labelsOf before := by
    intro mem
    exact apart a (by simp [mem]) (by simp)
  have index : (before.map fun e => e.1.address).reverse.length = before.length := by simp
  have found : Found s top a P before.length true
      ((before.map fun e => e.1.address).reverse ++ c.address :: after.map fun e => e.1.address)
      c.address ⟨c.key, c.value, some a, some b⟩ := by
    refine ⟨notTop, ⟨_, mine, by simpa using few⟩, ⟨_, block⟩,
      childIndex_after precedes between rfl absent, ?_, between⟩
    rw [← index, List.getElem?_append_right (Nat.le_refl _), Nat.sub_self]
    rfl
  have erased : ((before.map fun e => e.1.address).reverse ++
      c.address :: after.map fun e => e.1.address).eraseIdx before.length =
        elementsOf before after := by
    rw [← index, List.eraseIdx_append_of_length_le (Nat.le_refl _), Nat.sub_self]
    rfl
  obtain ⟨xs, l, rfl⟩ := exists_last (l := xs) (by rintro rfl; simp at fewest; omega)
  cases ys with
  | nil => simp at enough; omega
  | cons e ys =>
  simp only [List.length_append, List.length_nil, List.length_cons] at few fewest enough fits ⊢
  simp only [List.forall_mem_append, List.forall_mem_singleton] at xsSized
  rw [List.forall_mem_cons] at ysSized
  rcases Nat.lt_or_ge minElementsPerNode (ys.length + 1) with lends | keeps
  · obtain ⟨s', T, borrowed, restored⟩ := borrowRight_restored here topNode (by omega) (by omega)
      fun e' => whole _ e' _
        (LTree.sized_node.mpr ⟨by
            simp only [List.length_append, List.length_singleton]
            omega,
          xfSized, by
            simp only [List.forall_mem_append, List.forall_mem_singleton]
            exact ⟨xsSized, yfSized⟩⟩)
        (LTree.sized_node.mpr ⟨by simp only; omega, ysSized.1, ysSized.2⟩)
    exact .inl ⟨lends, s', T, rebalance_borrowRight found rfl theirs (by simpa using lends)
      borrowed, restored⟩
  · obtain ⟨s₁, s₂, s₃, s₄, joined, removed, relinked, deleted, linked⟩ :=
      merge_steps here.linked here.nodes here.cells (by omega) (by omega)
    have merged := merged_joined here linked (by omega) (by omega) ⟨xfSized, xsSized⟩
      ⟨yfSized, ysSized⟩
    refine .inr ⟨keeps, s₄, _, merged, rfl, ?_, ?_⟩
    · intro last
      obtain ⟨rfl, rfl⟩ : before = [] ∧ after = [] := by
        simpa [List.length_eq_zero_iff] using last
      cases relinked
      exact rebalance_collapse found rfl theirs (by simpa using keeps) joined removed rfl deleted
    · intro more
      refine rebalance_joinRight found rfl theirs (by simpa using keeps) joined
        (by rw [erased]; exact removed) ?_ ?_ deleted
      · rw [erased]
        intro none
        have := congrArg List.length none
        rw [elementsOf_length] at this
        exact more this
      · rw [erased, elementsOf, ← index, List.getElem?_append_right (Nat.le_refl _), Nat.sub_self]
        cases after with
        | nil => exact relinked
        | cons f after => exact relinked

theorem rebalance_left {P : Nat} {r : Route Nat (Cell K V) D (d + 1)}
    {before : Children K V d} {t u : Branch K V d} {c : Cell K V}
    (here : Proper s (r.plug (.node (close P before u [(c, t)]))) p)
    (node : root t = some n)
    (topNode : root (r.plug (.node (close P before u [(c, t)]))) = some top)
    (notTop : n ≠ top) (few : t.size < minElementsPerNode)
    (loose : t.Loose (minElementsPerNode - 1) minElementsPerNode maxElementsPerNode)
    (sibling : u.Sized minElementsPerNode maxElementsPerNode)
    (short : before.length < maxElementsPerNode)
    (whole : ∀ u' c' t', LTree.Sized minElementsPerNode maxElementsPerNode u' →
      LTree.Sized minElementsPerNode maxElementsPerNode t' →
      (r.plug (.node (close P before u' [(c', t')]))).RootSized
        minElementsPerNode maxElementsPerNode) :
    (minElementsPerNode < u.size ∧ ∃ s', ∃ T : Branch K V D,
      rebalance top (k + 1) n s = some ((top, true), s') ∧
      Restored s' T (r.plug (.node (close P before u [(c, t)]))) top p) ∨
    (u.size ≤ minElementsPerNode ∧ ∃ s' u',
      Merged s' r P before [] u' (r.plug (.node (close P before u [(c, t)]))) p ∧
      (before.length ≠ 0 → rebalance top (k + 1) n s = rebalance top k P s')) := by
  have least : minElementsPerNode = 16 := rfl
  have most : maxElementsPerNode = 32 := rfl
  cases d with
  | zero => cases node
  | succ d =>
  obtain ⟨⟨b, yf, ys⟩, rfl⟩ := t.exists_node
  obtain ⟨⟨a, xf, xs⟩, rfl⟩ := u.exists_node
  obtain rfl : b = n := Option.some.inj node
  obtain ⟨⟨block, precedes, -, -⟩, left, between, right⟩ := linked_pair.mp here.linked
  obtain ⟨⟨distinct, apart⟩, -⟩ := pair_apart here.nodes here.cells
  obtain ⟨⟨fewest, -⟩, ⟨yfSized, ysSized⟩⟩ := LTree.loose_node.mp loose
  obtain ⟨⟨enough, fits⟩, ⟨xfSized, xsSized⟩⟩ := LTree.sized_node.mp sibling
  simp only [LTree.size_node] at few fewest enough fits ⊢
  have mine := (linked_node.mp right).1
  have theirs := (linked_node.mp left).1
  have absent : b ∉ LTree.labelsOf before := by
    intro mem
    exact apart b (by simp [mem]) (by simp)
  have other : some a ≠ some b := by
    rintro ⟨⟩
    simp at distinct
  have index : (before.map fun e => e.1.address).reverse.length = before.length := by simp
  have found : Found s top b P before.length false
      ((before.map fun e => e.1.address).reverse ++ [c.address])
      c.address ⟨c.key, c.value, some a, some b⟩ := by
    refine ⟨notTop, ⟨_, mine, by simpa using few⟩, ⟨_, block⟩,
      childIndex_before precedes between rfl absent other, ?_, between⟩
    rw [← index, List.getElem?_append_right (Nat.le_refl _), Nat.sub_self]
    rfl
  have dropped : ((before.map fun e => e.1.address).reverse ++ [c.address]).dropLast =
      elementsOf before [] := by simp [elementsOf]
  obtain ⟨xs, l, rfl⟩ := exists_last (l := xs) (by rintro rfl; simp at enough; omega)
  cases ys with
  | nil => simp at fewest; omega
  | cons e ys =>
  simp only [List.length_append, List.length_nil, List.length_cons] at few fewest enough fits ⊢
  simp only [List.forall_mem_append, List.forall_mem_singleton] at xsSized
  rw [List.forall_mem_cons] at ysSized
  rcases Nat.lt_or_ge minElementsPerNode (xs.length + 1) with lends | keeps
  · obtain ⟨s', T, borrowed, restored⟩ := borrowLeft_restored here topNode (by omega) (by omega)
      fun e' => whole _ e' _ (LTree.sized_node.mpr ⟨by simp only; omega, xfSized, xsSized.1⟩)
        (LTree.sized_node.mpr ⟨by
            simp only [List.length_cons]
            omega,
          xsSized.2, by
            simp only [List.forall_mem_cons]
            exact ⟨yfSized, ysSized⟩⟩)
    exact .inl ⟨lends, s', T, rebalance_borrowLeft found rfl theirs (by simpa using lends)
      borrowed, restored⟩
  · obtain ⟨s₁, s₂, s₃, s₄, joined, removed, relinked, deleted, linked⟩ :=
      merge_steps here.linked here.nodes here.cells (by omega)
        (by simp only [List.length_nil]; omega)
    have merged := merged_joined here linked (by omega) (by omega) ⟨xfSized, xsSized⟩
      ⟨yfSized, ysSized⟩
    refine .inr ⟨keeps, s₄, _, merged, ?_⟩
    · intro more
      cases relinked
      refine rebalance_joinLeft found rfl theirs (by simpa using keeps) joined
        (by rw [dropped]; exact removed) ?_ ?_ deleted
      · rw [dropped]
        intro none
        have := congrArg List.length none
        rw [elementsOf_length] at this
        exact more this
      · rw [dropped, elementsOf_length, List.length_nil]
        rfl

theorem sized_under {P : Nat} {r : Route Nat (Cell K V) D (d + 1)} {g : Gap Nat (Cell K V) (Branch K V d)}
    {before after : Children K V d} {t : Branch K V d}
    (sized : (Route.under g r).Sized minElementsPerNode maxElementsPerNode)
    (same : before.length + after.length = g.size)
    (children : (∀ e ∈ before, LTree.Sized minElementsPerNode maxElementsPerNode e.2) ∧
      t.Sized minElementsPerNode maxElementsPerNode ∧
      ∀ e ∈ after, LTree.Sized minElementsPerNode maxElementsPerNode e.2) :
    (r.plug (.node (close P before t after))).RootSized minElementsPerNode maxElementsPerNode := by
  obtain ⟨sizes, -, up⟩ := sized
  refine Route.rootSized_plug (r := .under ⟨P, before, after⟩ r) ⟨?_, ⟨children.1, children.2.2⟩, up⟩
    (fun _ => children.2.1) fun none => absurd none (Nat.succ_ne_zero _)
  rw [Gap.size, same]
  exact sizes

theorem rootSized_of_sized {lo hi : Nat} {t : Branch K V d} (sized : t.Sized lo hi) (least : 1 ≤ lo) :
    t.RootSized lo hi := by
  cases d with
  | zero => trivial
  | succ d => exact ⟨⟨fun _ => least.trans sized.1.1, sized.1.2⟩, sized.2⟩

/-- The outcome of a rebalance: a whole tree, with the root and its parent as they were when
    no parent was merged away. -/
def Rebalanced (s : Store K V) (k top n : Nat) (p : Option Nat) (T₀ : Branch K V D)
    (keeps : Prop) : Prop :=
  ∃ s' E top' p', ∃ T : Branch K V E, rebalance top k n s = some ((top', true), s') ∧
    Restored s' T T₀ top' p' ∧ (keeps → top' = top ∧ p' = p)

theorem Restored.rebalanced {s' : Store K V} {T₀ : Branch K V D} {E : Nat} {T : Branch K V E}
    {keeps : Prop} (restored : Restored s' T T₀ top p)
    (run : rebalance top k n s = some ((top, true), s')) : Rebalanced s k top n p T₀ keeps :=
  ⟨s', E, top, p, T, run, restored, fun _ => ⟨rfl, rfl⟩⟩

theorem Merged.collapsed {P : Nat} {s' : Store K V} {x : Branch K V d} {T₀ : Branch K V (d + 1)}
    (merged : Merged s' .top P [] [] x T₀ p) (here : root x = some n) :
    Restored s' x T₀ n (some P) := by
  obtain ⟨proper, inorder, nodes, sized⟩ := merged
  have same : x.inorder = T₀.inorder := by
    rw [← inorder]
    simp [Route.plug, close]
  refine ⟨⟨?_, ?_, ?_⟩, here, by rw [entries, same, entries], ?_, ?_,
    rootSized_of_sized sized (by decide)⟩
  · exact (linked_node.mp proper.linked).2.1
  · have nodup := proper.nodes
    simp only [Route.plug, close, LTree.labels_node, LTree.labelsOf_nil, List.append_nil] at nodup
    exact (List.nodup_cons.mp nodup).2
  · rw [same, ← inorder]
    exact proper.cells
  · rw [same]
  · intro m mem
    refine nodes ?_
    simp only [Route.plug, close, LTree.labels_node, LTree.labelsOf_nil, List.append_nil]
    exact List.mem_cons_of_mem _ mem

theorem rebalance_linked {k : Nat} {d : Nat} (r : Route Nat (Cell K V) D d) {t : Branch K V d}
    {s : Store K V} {n : Nat} (here : Proper s (r.plug t) p) (node : root t = some n)
    (topNode : root (r.plug t) = some top)
    (sized : r.Sized minElementsPerNode maxElementsPerNode)
    (inner : r.length ≠ 0 → t.Loose (minElementsPerNode - 1) minElementsPerNode maxElementsPerNode)
    (whole : r.length = 0 → t.RootSized minElementsPerNode maxElementsPerNode)
    (safe : Safe r t.size) (fuel : r.length < k) :
    Rebalanced s k top n p (r.plug t) (Keeps r t.size) := by
  have floor : minElementsPerNode = 16 := rfl
  obtain ⟨k, rfl⟩ := Nat.exists_eq_succ_of_ne_zero (Nat.ne_of_gt (Nat.zero_lt_of_lt fuel))
  induction r generalizing s n k with
  | top =>
    rw [Route.plug, node] at topNode
    cases topNode
    exact Restored.rebalanced ⟨here, node, rfl, .refl _, fun _ => id, whole rfl⟩ rebalance_root
  | @under d g r ih =>
    have loose := inner (Nat.succ_ne_zero _)
    have notTop : n ≠ top := by
      rintro rfl
      have nodup := (Route.labels_plug (.under g r) t).nodup_iff.mp here.nodes
      exact (List.nodup_append.mp nodup).2.2 n (root_mem node) n
        (root_plug_mem (Nat.succ_ne_zero _) topNode) rfl
    obtain ⟨⟨least, most, fits⟩, ⟨front, back⟩, up⟩ := id sized
    rcases Nat.lt_or_ge t.size minElementsPerNode with few | enough
    · -- a merge leaves the parent with an element less
      have continued {s' : Store K V} {before after : Children K V d} {x : Branch K V d}
          (merged : Merged s' r g.label before after x ((Route.under g r).plug t) p)
          (front : ∀ e ∈ before, LTree.Sized minElementsPerNode maxElementsPerNode e.2)
          (back : ∀ e ∈ after, LTree.Sized minElementsPerNode maxElementsPerNode e.2)
          (sizes : before.length + after.length + 1 = g.size)
          (small : siblingSize g ≤ minElementsPerNode)
          (more : before.length + after.length ≠ 0)
          (run : rebalance top (k + 1) n s = rebalance top k g.label s') :
          Rebalanced s (k + 1) top n p ((Route.under g r).plug t) (Keeps (.under g r) t.size) := by
        have size : (LTree.node (close g.label before x after)).size = g.size - 1 := by
          rw [LTree.size_node, close_length]
          omega
        have safe' := safe few small
        rw [if_neg (by omega)] at safe'
        cases k with
        | zero => exact absurd fuel (by simp [Route.length])
        | succ k =>
        obtain ⟨s'', E, top', p', T, run', restored, kept⟩ := ih merged.proper
          (by rw [root_node, close_label])
          (by
            rw [← topNode]
            apply root_plug
            rw [Gap.fill, root_node, root_node, close_label, close_label])
          up
          (fun below => by
            have := most below
            refine LTree.loose_node.mpr ⟨?_, close_all.mpr ⟨front, merged.sized, back⟩⟩
            rw [close_length]
            omega)
          (fun top => LTree.rootSized_node.mpr ⟨by
            rw [close_length]
            omega, close_all.mpr ⟨front, merged.sized, back⟩⟩)
          (by rw [size]; exact safe') (k := k) (by
            rw [Route.length] at fuel
            omega)
        refine ⟨s'', E, top', p', T, run.trans run',
          restored.of_inorder merged.inorder merged.nodes, fun keeps => kept ?_⟩
        rw [size]
        exact (keeps few small).2
      obtain ⟨label, before, after⟩ := g
      cases after with
      | cons e after =>
        obtain ⟨c, u⟩ := e
        rw [List.forall_mem_cons] at back
        have room : before.length + after.length < maxElementsPerNode := fits
        rcases rebalance_right (k := k) here node topNode notTop few loose back.1 room
          (fun t' c' u' first second => sized_under sized rfl ⟨front, first, by
            rw [List.forall_mem_cons]
            exact ⟨second, back.2⟩⟩) with
          ⟨lends, s', T, run, restored⟩ | ⟨keeps, s', x', merged, rooted, collapse, more⟩
        · exact restored.rebalanced run
        · by_cases last : before.length + after.length = 0
          · cases r with
            | under g r =>
              have large : minElementsPerNode ≤ before.length + (after.length + 1) :=
                most (Nat.succ_ne_zero _)
              omega
            | top =>
              obtain ⟨rfl, rfl⟩ : before = [] ∧ after = [] := by
                simpa [List.length_eq_zero_iff] using last
              refine ⟨s', _, n, _, x', collapse rfl, merged.collapsed rooted, fun keep => ?_⟩
              exact absurd (keep few keeps).1 (by simp [Gap.size])
          · exact continued merged front back.2 rfl keeps last (more last)
      | nil =>
        cases before with
        | nil =>
          by_cases below : r.length = 0
          · exact absurd (least below) (by simp [Gap.size])
          · exact absurd (most below) (by simp [Gap.size, floor])
        | cons e before =>
          obtain ⟨c, u⟩ := e
          rw [List.forall_mem_cons] at front
          have room : before.length < maxElementsPerNode := fits
          rcases rebalance_left (k := k) here node topNode notTop few loose front.1 room
            (fun u' c' t' first second => sized_under sized rfl ⟨front.2, first, by
              rw [List.forall_mem_singleton]
              exact second⟩) with
            ⟨lends, s', T, run, restored⟩ | ⟨keeps, s', x', merged, more⟩
          · exact restored.rebalanced run
          · by_cases last : before.length = 0
            · obtain rfl := List.length_eq_zero_iff.mp last
              have safe' := safe few keeps
              exact absurd rfl safe'
            · exact continued merged front.2 back rfl keeps last (more last)
    · cases d with
      | zero => cases node
      | succ d =>
      obtain ⟨⟨a, tf, ts⟩, rfl⟩ := t.exists_node
      obtain ⟨⟨-, room⟩, children⟩ := LTree.loose_node.mp loose
      obtain rfl : a = n := Option.some.inj node
      have mine := (linked_node.mp (linked_plug.mp here.linked).1).1
      have child := LTree.sized_node.mpr ⟨⟨enough, room⟩, children⟩
      exact Restored.rebalanced ⟨here, topNode, rfl, .refl _, fun _ => id,
        sized_under sized rfl ⟨front, child, back⟩⟩
        (rebalance_enough notTop mine (by simpa using enough))

end Recursion
end BTree
