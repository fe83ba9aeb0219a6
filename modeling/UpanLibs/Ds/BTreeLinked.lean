import UpanLibs.LevelTree
import UpanLibs.Ds.BTree

/-!
Trees in the store. The label of a node is its address, and a separator is the address of an
element with what this holds: `Linked` says that the nodes and the elements of a tree are
live, that each element has as its children those on both sides of it, and that each node has
the right parent. What the methods of the nodes do to linked nodes.
-/
namespace BTree
open Memory (Heap)
open LevelTree

variable {K V : Type}

structure Cell (K V : Type) where
  address : Nat
  key : K
  value : V
  deriving DecidableEq, Repr

abbrev Branch (K V : Type) (d : Nat) := LTree Nat (Cell K V) d

abbrev Children (K V : Type) (d : Nat) := List (Cell K V × Branch K V d)

def root : {d : Nat} → Branch K V d → Option Nat
  | 0, _ => none
  | _ + 1, n => some (Row.label n)

def addresses (cells : List (Cell K V)) : List Nat := cells.map Cell.address

theorem addresses_append (l l' : List (Cell K V)) :
    addresses (l ++ l') = addresses l ++ addresses l' := List.map_append

section Definitions

variable (s : Store K V)

def Between (c : Cell K V) (l r : Option Nat) : Prop :=
  s.elements c.address = some ⟨c.key, c.value, l, r⟩

/-- Separators and children after the child `q`. -/
def After {d : Nat} : Option Nat → Children K V d → Prop
  | _, [] => True
  | q, (c, t) :: rest => Between s c q (root t) ∧ After (root t) rest

/-- Separators and children before the child `q`, the nearest first. -/
def Before {d : Nat} : Children K V d → Option Nat → Prop
  | [], _ => True
  | (c, t) :: rest, q => Between s c (root t) q ∧ Before rest (root t)

def Linked : {d : Nat} → Branch K V d → Option Nat → Prop
  | 0, _, _ => True
  | _ + 1, n, p => s.nodes.block (Row.label n) = some ⟨p, (Row.rest n).map fun e => e.1.address⟩ ∧
      After s (root (Row.first n)) (Row.rest n) ∧
      Row.All (fun t => Linked t (some (Row.label n))) n

/-- What follows the child `q` of the node `n`. -/
def Follows {d : Nat} (n : Nat) (q : Option Nat) (rest : Children K V d) : Prop :=
  After s q rest ∧ ∀ e ∈ rest, Linked s e.2 (some n)

/-- What precedes the child `q` of the node `n`. -/
def Precedes {d : Nat} (n : Nat) (rest : Children K V d) (q : Option Nat) : Prop :=
  Before s rest q ∧ ∀ e ∈ rest, Linked s e.2 (some n)

/-- The nodes from a gap up to the root are linked with all that is beside the gap, in which
    the child `q` stands; `p` is the parent of the root. -/
def Hung {D : Nat} (p : Option Nat) : {d : Nat} → Route Nat (Cell K V) D d → Option Nat → Prop
  | _, .top, _ => True
  | _, .under g r, q =>
    s.nodes.block g.label = some ⟨r.above p,
      (g.before.map fun e => e.1.address).reverse ++ g.after.map fun e => e.1.address⟩ ∧
    Precedes s g.label g.before q ∧ Follows s g.label q g.after ∧ Hung p r (some g.label)

end Definitions

structure Within (s s' : Store K V) (ns : List Nat) (es : List Nat) : Prop where
  nodes : ∀ n ∉ ns, s'.nodes.block n = s.nodes.block n
  elements : ∀ e ∉ es, s'.elements e = s.elements e

section Structure

variable {d D n : Nat} {s s' s₁ : Store K V} {t : Branch K V d} {p q : Option Nat} {l : Nat}
  {before after rest rest' : Children K V d} {c : Cell K V}

@[simp]
theorem root_node (n : Row Nat (Cell K V) (Branch K V d)) : root (LTree.node n) = some n.label := rfl

@[simp]
theorem follows_nil : Follows s n q ([] : Children K V d) := ⟨trivial, by simp⟩

@[simp]
theorem precedes_nil : Precedes s n ([] : Children K V d) q := ⟨trivial, by simp⟩

theorem follows_cons : Follows s n q ((c, t) :: rest) ↔
    Between s c q (root t) ∧ Linked s t (some n) ∧ Follows s n (root t) rest := by
  simp only [Follows, After, List.forall_mem_cons]
  tauto

theorem precedes_cons : Precedes s n ((c, t) :: rest) q ↔
    Between s c (root t) q ∧ Linked s t (some n) ∧ Precedes s n rest (root t) := by
  simp only [Precedes, Before, List.forall_mem_cons]
  tauto

theorem linked_node {n : Row Nat (Cell K V) (Branch K V d)} : Linked s (.node n) p ↔
    s.nodes.block n.label = some ⟨p, n.rest.map fun e => e.1.address⟩ ∧
      Linked s n.first (some n.label) ∧ Follows s n.label (root n.first) n.rest := by
  rw [Follows, and_left_comm (a := Linked s n.first _)]
  exact Iff.rfl

theorem follows_close : Linked s (close l before t after).first (some n) ∧
      Follows s n (root (close l before t after).first) (close l before t after).rest ↔
    Precedes s n before (root t) ∧ Linked s t (some n) ∧ Follows s n (root t) after := by
  induction before generalizing t after with
  | nil => simp [close]
  | cons e before ih =>
    rw [close, ih, follows_cons, precedes_cons]
    tauto

theorem close_addresses : (close l before t after).rest.map (fun e => e.1.address) =
    (before.map fun e => e.1.address).reverse ++ after.map fun e => e.1.address := by
  have cells : ((close l before t after).rest.map Prod.fst).map Cell.address =
      ((before.map Prod.fst).reverse ++ after.map Prod.fst).map Cell.address := by
    rw [close_separators]
  simpa only [List.map_map, List.map_append, List.map_reverse, Function.comp_def] using cells

theorem linked_close : Linked s (.node (close l before t after)) p ↔
    s.nodes.block l = some ⟨p,
      (before.map fun e => e.1.address).reverse ++ after.map fun e => e.1.address⟩ ∧
    Precedes s l before (root t) ∧ Linked s t (some l) ∧ Follows s l (root t) after := by
  rw [linked_node, close_label, follows_close, close_addresses]

theorem linked_plug {r : Route Nat (Cell K V) D d} : Linked s (r.plug t) p ↔
    Linked s t (r.above p) ∧ Hung s p r (root t) := by
  induction r with
  | top => simp [Route.plug, Route.above, Hung]
  | under g r ih =>
    rw [Route.plug, ih, Gap.fill, linked_close, root_node, close_label, Hung, Route.above]
    tauto

theorem Within.trans {ns es ns' es' ns'' es'' : List Nat} (first : Within s s₁ ns es)
    (second : Within s₁ s' ns' es') (left : ns ⊆ ns'') (right : ns' ⊆ ns'') (left' : es ⊆ es'')
    (right' : es' ⊆ es'') : Within s s' ns'' es'' := by
  constructor
  · intro n out
    exact (second.nodes n fun mem => out (right mem)).trans
      (first.nodes n fun mem => out (left mem))
  · intro e out
    exact (second.elements e fun mem => out (right' mem)).trans
      (first.elements e fun mem => out (left' mem))

variable {ns es ns' es' : List Nat}

theorem Within.mono (first : Within s s' ns es) (nodes : ns ⊆ ns') (elements : es ⊆ es') :
    Within s s' ns' es' := by
  constructor
  · intro n out
    exact first.nodes n fun mem => out (nodes mem)
  · intro e out
    exact first.elements e fun mem => out (elements mem)

theorem Within.andThen (first : Within s s₁ ns es) (second : Within s₁ s' ns' es')
    (nodes : ns' ⊆ ns) (elements : es' ⊆ es) : Within s s' ns es :=
  first.trans second (List.Subset.refl _) nodes (List.Subset.refl _) elements

theorem Within.elements_eq (within : Within s s' ns []) : s'.elements = s.elements := by
  funext e
  exact within.elements e (by simp)

theorem Between.within {r : Option Nat} (here : Between s c q r) (within : Within s s' ns es)
    (elements : c.address ∉ es) : Between s' c q r :=
  (within.elements _ elements).trans here

theorem After.within (here : After s q rest) (within : Within s s' ns es)
    (elements : ∀ e ∈ rest, e.1.address ∉ es) : After s' q rest := by
  induction rest generalizing q with
  | nil => trivial
  | cons e rest ih =>
    rw [List.forall_mem_cons] at elements
    exact ⟨here.1.within within elements.1, ih here.2 elements.2⟩

theorem Before.within (here : Before s rest q) (within : Within s s' ns es)
    (elements : ∀ e ∈ rest, e.1.address ∉ es) : Before s' rest q := by
  induction rest generalizing q with
  | nil => trivial
  | cons e rest ih =>
    rw [List.forall_mem_cons] at elements
    exact ⟨here.1.within within elements.1, ih here.2 elements.2⟩

theorem Linked.within (here : Linked s t p) (within : Within s s' ns es)
    (nodes : ∀ a ∈ t.labels, a ∉ ns) (elements : ∀ c ∈ t.inorder, c.address ∉ es) :
    Linked s' t p := by
  induction d generalizing p with
  | zero => trivial
  | succ d ih =>
    obtain ⟨n, same⟩ := t.exists_node
    rw [same] at here nodes elements ⊢
    obtain ⟨block, first, after, others⟩ := linked_node.mp here
    simp only [LTree.labels_node, LTree.labelsOf, List.mem_cons, List.mem_append,
      List.mem_flatMap] at nodes
    simp only [LTree.inorder_node, LTree.inorderAfter, List.mem_append, List.mem_flatMap,
      List.mem_cons] at elements
    refine linked_node.mpr ⟨(within.nodes _ (nodes _ (.inl rfl))).trans block, ih first ?_ ?_,
      after.within within ?_, ?_⟩
    · intro a mem
      exact nodes _ (.inr (.inl mem))
    · intro c mem
      exact elements _ (.inl mem)
    · intro e mem
      exact elements _ (.inr ⟨e, mem, .inl rfl⟩)
    · intro e mem
      refine ih (others e mem) ?_ ?_
      · intro a inside
        exact nodes _ (.inr (.inr ⟨e, mem, inside⟩))
      · intro c inside
        exact elements _ (.inr ⟨e, mem, .inr inside⟩)

theorem linked_all (here : ∀ e ∈ rest, Linked s e.2 p) (within : Within s s' ns es)
    (nodes : ∀ a ∈ LTree.labelsOf rest, a ∉ ns)
    (elements : ∀ c ∈ LTree.inorderAfter rest, c.address ∉ es) :
    ∀ e ∈ rest, Linked s' e.2 p := by
  intro e mem
  refine (here e mem).within within ?_ ?_
  · intro a inside
    exact nodes a (List.mem_flatMap.mpr ⟨e, mem, inside⟩)
  · intro c inside
    exact elements c (List.mem_flatMap.mpr ⟨e, mem, List.mem_cons_of_mem _ inside⟩)

theorem Follows.within (here : Follows s n q rest) (within : Within s s' ns es)
    (nodes : ∀ a ∈ LTree.labelsOf rest, a ∉ ns)
    (elements : ∀ c ∈ LTree.inorderAfter rest, c.address ∉ es) :
    Follows s' n q rest := by
  refine ⟨here.1.within within ?_, linked_all here.2 within nodes elements⟩
  intro e mem
  exact elements _ (List.mem_flatMap.mpr ⟨e, mem, List.mem_cons_self⟩)

theorem Precedes.within (here : Precedes s n rest q) (within : Within s s' ns es)
    (nodes : ∀ a ∈ LTree.labelsOf rest, a ∉ ns)
    (elements : ∀ c ∈ LTree.inorderAfter rest, c.address ∉ es) :
    Precedes s' n rest q := by
  refine ⟨here.1.within within ?_, linked_all here.2 within nodes elements⟩
  intro e mem
  exact elements _ (List.mem_flatMap.mpr ⟨e, mem, List.mem_cons_self⟩)

theorem Hung.within {r : Route Nat (Cell K V) D d} (here : Hung s p r q)
    (within : Within s s' ns es) (nodes : ∀ a ∈ r.labels, a ∉ ns)
    (elements : ∀ c ∈ r.left ++ r.right, c.address ∉ es) : Hung s' p r q := by
  induction r generalizing q with
  | top => trivial
  | under g r ih =>
    obtain ⟨block, precedes, follows, up⟩ := here
    simp only [Route.labels, List.mem_append, List.mem_cons] at nodes
    simp only [Route.left, Route.right, List.mem_append] at elements
    refine ⟨(within.nodes _ (nodes _ (.inl (.inl rfl)))).trans block,
      precedes.within within ?_ ?_, follows.within within ?_ ?_, ih up ?_ ?_⟩
    · intro a mem
      exact nodes a (.inl (.inr (.inl mem)))
    · intro c mem
      exact elements c (.inl (.inr (LTree.inorderBefore_perm.mem_iff.mpr mem)))
    · intro a mem
      exact nodes a (.inl (.inr (.inr mem)))
    · intro c mem
      exact elements c (.inr (.inl mem))
    · intro a inside
      exact nodes a (.inr inside)
    · intro c inside
      obtain inside | inside := List.mem_append.mp inside
      · exact elements c (.inl (.inl inside))
      · exact elements c (.inr (.inr inside))

def lastRoot : Option Nat → Children K V d → Option Nat
  | q, [] => q
  | _, e :: rest => lastRoot (root e.2) rest

theorem follows_append : Follows s n q (rest ++ rest') ↔
    Follows s n q rest ∧ Follows s n (lastRoot q rest) rest' := by
  induction rest generalizing q with
  | nil => simp [lastRoot]
  | cons e rest ih =>
    obtain ⟨c, t⟩ := e
    rw [List.cons_append, follows_cons, ih, follows_cons, lastRoot]
    tauto

@[simp]
theorem lastRoot_append :
    lastRoot q (rest ++ rest') = lastRoot (lastRoot q rest) rest' := by
  induction rest generalizing q with
  | nil => rfl
  | cons e rest ih => exact ih

end Structure

section Steps

variable {α β : Type} {s s' : Store K V} {N : Heap BTreeNode}
  {E : Nat → Option (BTreeElement K V)} {n e : Nat} {nd : BTreeNode} {el : BTreeElement K V}
  {q l r : Option Nat} {es : List Nat} {k : K} {v : V}

theorem run_bind {p : Program K V α} {f : α → Program K V β} {a : α}
    (first : p s = some (a, s')) : (p >>= f) s = f a s' := by
  simp only [bind, StateT.bind, first, Option.bind_some]

theorem run_pure (a : α) : (pure a : Program K V α) s = some (a, s) := rfl

theorem run_deref (a : α) : (deref (some a) : Program K V α) s = some (a, s) := rfl

theorem run_node (live : N.block n = some nd) :
    (node n : Program K V BTreeNode) ⟨N, E⟩ = some (nd, ⟨N, E⟩) := by
  simp [node, live]

theorem run_element (live : E e = some el) : element e ⟨N, E⟩ = some (el, ⟨N, E⟩) := by
  simp [element, live]

theorem run_setElement (live : E e = some el) (el' : BTreeElement K V) :
    setElement e el' ⟨N, E⟩ = some ((), ⟨N, Function.update E e (some el')⟩) := by
  simp [setElement, live]

theorem run_setLeftNode (live : E e = some ⟨k, v, l, r⟩) (p : Option Nat) :
    setLeftNode e p ⟨N, E⟩ = some ((), ⟨N, Function.update E e (some ⟨k, v, p, r⟩)⟩) := by
  rw [setLeftNode, run_bind (run_element live), run_setElement live]

theorem run_setRightNode (live : E e = some ⟨k, v, l, r⟩) (p : Option Nat) :
    setRightNode e p ⟨N, E⟩ = some ((), ⟨N, Function.update E e (some ⟨k, v, l, p⟩)⟩) := by
  rw [setRightNode, run_bind (run_element live), run_setElement live]

theorem run_setNode (live : N.block n = some nd) (nd' : BTreeNode) :
    (setNode n nd' : Program K V Unit) ⟨N, E⟩ = some ((), ⟨N.write n nd', E⟩) := by
  simp [setNode, live]

theorem run_setParentNode (live : N.block n = some ⟨q, es⟩) (p : Option Nat) :
    (setParentNode n p : Program K V Unit) ⟨N, E⟩ = some ((), ⟨N.write n ⟨p, es⟩, E⟩) := by
  rw [setParentNode, run_bind (run_node live), run_setNode live]

theorem run_setElements (live : N.block n = some ⟨q, es⟩) {es' : List Nat}
    (room : es'.length ≤ maxElementsPerNode + 1) :
    (setElements n es' : Program K V Unit) ⟨N, E⟩ = some ((), ⟨N.write n ⟨q, es'⟩, E⟩) := by
  rw [setElements, run_bind (run_node live), if_pos room, run_setNode live]

theorem run_deleteNode (live : N.block n = some nd) :
    (deleteNode n : Program K V Unit) ⟨N, E⟩ = some ((), ⟨N.erase n, E⟩) := by
  simp [deleteNode, live]

theorem run_removeByIndex {i : Nat} (live : N.block n = some ⟨q, es⟩) (here : es[i]? = some e)
    (room : es.length ≤ maxElementsPerNode + 1) :
    (removeByIndex n i : Program K V (Option Nat)) ⟨N, E⟩ =
      some (some e, ⟨N.write n ⟨q, es.eraseIdx i⟩, E⟩) := by
  have shorter : (es.eraseIdx i).length ≤ maxElementsPerNode + 1 := by
    have := List.length_eraseIdx_le es i
    omega
  simp only [removeByIndex, run_bind (run_node live), here]
  rw [run_bind (run_setElements live shorter)]
  rfl

theorem run_swapElement {e' : Nat} {k' : K} {v' : V} {l' r' : Option Nat}
    (first : E e = some ⟨k, v, l, r⟩) (second : E e' = some ⟨k', v', l', r'⟩) (apart : e' ≠ e) :
    swapElement e e' ⟨N, E⟩ = some ((), ⟨N, Function.update
      (Function.update E e (some ⟨k', v', l, r⟩)) e' (some ⟨k, v, l', r'⟩)⟩) := by
  rw [swapElement, run_bind (run_element first), run_bind (run_element second),
    run_bind (run_setElement first _)]
  have kept : Function.update E e (some ⟨k', v', l, r⟩) e' = some ⟨k', v', l', r'⟩ := by
    rw [Function.update_of_ne apart, second]
  rw [run_bind (run_element kept), run_setElement kept]

end Steps

section Adoption

variable {d : Nat} {s : Store K V} {t : Branch K V d} {p : Option Nat} {n : Nat}

theorem adoptChild_linked (here : Linked s t p) (nodup : t.labels.Nodup) (a : Nat) :
    ∃ s', adoptChild a (root t) s = some ((), s') ∧ Linked s' t (some a) ∧
      Within s s' t.labels [] := by
  cases d with
  | zero => exact ⟨s, rfl, trivial, fun _ _ => rfl, fun _ _ => rfl⟩
  | succ d =>
    obtain ⟨n, same⟩ := t.exists_node
    rw [same] at here nodup ⊢
    obtain ⟨block, first, follows⟩ := linked_node.mp here
    rw [LTree.labels_node, List.nodup_cons, List.mem_append] at nodup
    have changed : Within s ⟨s.nodes.write n.label ⟨some a, n.rest.map fun e => e.1.address⟩,
        s.elements⟩ [n.label] [] := by
      constructor
      · intro b out
        exact s.nodes.block_write_other _ (by simpa using out)
      · intro e _
        rfl
    refine ⟨_, run_setParentNode block (some a), linked_node.mpr ⟨Heap.block_write_self block _,
      first.within changed ?_ (by simp), follows.within changed ?_ (by simp)⟩, ?_⟩
    · intro b mem
      rw [List.mem_singleton]
      rintro rfl
      exact nodup.1 (.inl mem)
    · intro b mem
      rw [List.mem_singleton]
      rintro rfl
      exact nodup.1 (.inr mem)
    · exact changed.mono (by simp) (by simp)

theorem adopt_linked {rest : Children K V d} (first : Linked s t (some n))
    (follows : Follows s n (root t) rest) (any : rest ≠ [])
    (nodup : (t.labels ++ LTree.labelsOf rest).Nodup) (a : Nat) :
    ∃ s', adopt a (rest.map fun e => e.1.address) s = some ((), s') ∧ Linked s' t (some a) ∧
      Follows s' a (root t) rest ∧
      Within s s' (t.labels ++ LTree.labelsOf rest) [] := by
  induction rest generalizing t s with
  | nil => exact absurd rfl any
  | cons e rest ih =>
    obtain ⟨c, u⟩ := e
    obtain ⟨between, child, follows⟩ := follows_cons.mp follows
    rw [List.nodup_append, LTree.labelsOf_cons] at nodup
    obtain ⟨here, nodup, apart⟩ := nodup
    obtain ⟨s₁, run, linked, within⟩ := adoptChild_linked first here a
    have untouched : ∀ b ∈ u.labels ++ LTree.labelsOf rest, b ∉ t.labels :=
      fun b inside mem => apart b mem b inside rfl
    have child := child.within within (fun b mem => untouched b (by simp [mem])) (by simp)
    have follows := follows.within within (fun b mem => untouched b (by simp [mem])) (by simp)
    have between₁ : Between s₁ c (root t) (root u) := between.within within (by simp)
    simp only [List.map_cons, adopt, run_bind (run_element between), run_bind run,
      List.map_eq_nil_iff]
    cases rest with
    | nil =>
      have mine : u.labels.Nodup := by simpa using nodup
      obtain ⟨s', run', linked', within'⟩ := adoptChild_linked child mine a
      refine ⟨s', by rw [if_pos rfl, run'], ?_, ?_, ?_⟩
      · refine linked.within within' ?_ (by simp)
        intro b inside there
        exact untouched b (by simp [there]) inside
      · exact follows_cons.mpr ⟨between₁.within within' (by simp), linked', follows_nil⟩
      · exact within.trans within' (by simp) (by simp) (by simp) (by simp)
    | cons e rest =>
      obtain ⟨s', run', linked', follows', within'⟩ := ih child follows (by simp) nodup
      refine ⟨s', by rw [if_neg (by simp), run'], ?_, ?_, ?_⟩
      · refine linked.within within' ?_ (by simp)
        intro b inside there
        exact untouched b there inside
      · exact follows_cons.mpr ⟨between₁.within within' (by simp), linked', follows'⟩
      · exact within.trans within' (by simp) (by simp) (by simp) (by simp)

end Adoption
end BTree
