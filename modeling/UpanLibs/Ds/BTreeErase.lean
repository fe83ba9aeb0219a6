import UpanLibs.Ds.BTreeSearch

/-!
`Delete`: the element goes out of a leaf, in which it has changed places with its neighbour when
it was in an inner node, and the leaf is rebalanced.
-/
namespace BTree
open Memory (Heap)
open LevelTree

variable {K V : Type}

section Contents

variable {D d : Nat} {s s' : Store K V} {t : Branch K V d} {p : Option Nat}
  {f : Cell K V → Cell K V}

@[simp]
theorem root_map (t : Branch K V d) : root (t.map f) = root t := by
  cases d with
  | zero => rfl
  | succ d => rfl

theorem linked_cells (here : Linked s t p) : ∀ c ∈ t.inorder,
    ∃ l r, s.elements c.address = some ⟨c.key, c.value, l, r⟩ := by
  induction d generalizing p with
  | zero => exact fun c mem => by cases mem
  | succ d ih =>
    obtain ⟨n, same⟩ := t.exists_node
    rw [same] at here ⊢
    obtain ⟨-, first, follows⟩ := linked_node.mp here
    intro c mem
    rw [LTree.inorder_node, List.mem_append, LTree.inorderAfter, List.mem_flatMap] at mem
    rcases mem with mem | ⟨e, child, mem⟩
    · exact ih first c mem
    · rcases List.mem_cons.mp mem with rfl | mem
      · exact after_live follows.1 e child
      · exact ih (follows.2 e child) c mem

theorem size_map (t : Branch K V d) : (t.map f).size = t.size := by
  cases d with
  | zero => rfl
  | succ d => exact List.length_map _

structure Refilled (s s' : Store K V) (f : Cell K V → Cell K V) (cells : List (Cell K V)) :
    Prop where
  address : ∀ c, (f c).address = c.address
  nodes : s'.nodes = s.nodes
  elements : ∀ c ∈ cells, ∀ l r, s.elements c.address = some ⟨c.key, c.value, l, r⟩ →
    s'.elements c.address = some ⟨(f c).key, (f c).value, l, r⟩

theorem after_refilled {rest : Children K V d} {q : Option Nat} (here : After s q rest)
    (refilled : Refilled s s' f (LTree.inorderAfter rest)) :
    After s' q (rest.map fun e => (f e.1, e.2.map f)) := by
  induction rest generalizing q with
  | nil => trivial
  | cons e rest ih =>
    obtain ⟨between, here⟩ := here
    obtain ⟨address, nodes, elements⟩ := refilled
    refine ⟨?_, ?_⟩
    · rw [Between, address, root_map]
      exact elements e.1 (by simp) _ _ between
    · rw [root_map]
      exact ih here ⟨address, nodes, fun c mem => elements c (by simp [mem])⟩

theorem linked_refilled (here : Linked s t p) (refilled : Refilled s s' f t.inorder) :
    Linked s' (t.map f) p := by
  induction d generalizing p with
  | zero => trivial
  | succ d ih =>
    obtain ⟨⟨l, first, rest⟩, rfl⟩ := t.exists_node
    obtain ⟨block, child, after, others⟩ := linked_node.mp here
    obtain ⟨address, nodes, elements⟩ := refilled
    simp only [LTree.inorder_node, List.mem_append] at elements
    rw [LTree.map_node]
    refine linked_node.mpr ⟨?_, ?_, ?_, ?_⟩
    · rw [nodes, block]
      simp [Function.comp_def, address]
    · exact ih child ⟨address, nodes, fun c mem => elements c (.inl mem)⟩
    · rw [root_map]
      exact after_refilled after ⟨address, nodes, fun c mem => elements c (.inr mem)⟩
    · intro e mem
      obtain ⟨e, there, rfl⟩ := List.mem_map.mp mem
      refine ih (others e there) ⟨address, nodes, fun c inside => elements c (.inr ?_)⟩
      exact List.mem_flatMap.mpr ⟨e, there, List.mem_cons_of_mem _ inside⟩

theorem addresses_map (address : ∀ c, (f c).address = c.address) (l : List (Cell K V)) :
    addresses (l.map f) = addresses l := by
  simp [addresses, Function.comp_def, address]

theorem proper_refilled {T : Branch K V D} (here : Proper s T p)
    (refilled : Refilled s s' f T.inorder) : Proper s' (T.map f) p := by
  refine ⟨linked_refilled here.linked refilled, ?_, ?_⟩
  · rw [LTree.labels_map]
    exact here.nodes
  · rw [LTree.inorder_map, addresses_map refilled.address]
    exact here.cells

def exchange (c c' e : Cell K V) : Cell K V :=
  if e.address = c.address then ⟨e.address, c'.key, c'.value⟩
  else if e.address = c'.address then ⟨e.address, c.key, c.value⟩
  else e

theorem exchange_address (c c' e : Cell K V) : (exchange c c' e).address = e.address := by
  unfold exchange
  split
  · rfl
  · split
    · rfl
    · rfl

theorem exchange_other {c c' e : Cell K V}
    (other : e.address ≠ c.address ∧ e.address ≠ c'.address) : exchange c c' e = e := by
  rw [exchange, if_neg other.1, if_neg other.2]

theorem swapElement_linked {T : Branch K V D} {c c' : Cell K V} (here : Proper s T p)
    (mem : c ∈ T.inorder) (mem' : c' ∈ T.inorder) (apart : c'.address ≠ c.address) :
    ∃ s', swapElement c.address c'.address s = some ((), s') ∧
      Proper s' (T.map (exchange c c')) p ∧ s'.nodes = s.nodes := by
  obtain ⟨N, E⟩ := s
  obtain ⟨l, r, live⟩ := linked_cells here.linked c mem
  obtain ⟨l', r', live'⟩ := linked_cells here.linked c' mem'
  refine ⟨_, run_swapElement live live' apart, proper_refilled here ?_, rfl⟩
  refine ⟨exchange_address c c', rfl, fun e there a b this => ?_⟩
  simp only at this live live' ⊢
  by_cases first : e.address = c.address
  · rw [first, live, Option.some.injEq, BTreeElement.mk.injEq] at this
    obtain ⟨-, -, rfl, rfl⟩ := this
    rw [first, Function.update_of_ne apart.symm, Function.update_self, exchange, if_pos first]
  · by_cases second : e.address = c'.address
    · rw [second, live', Option.some.injEq, BTreeElement.mk.injEq] at this
      obtain ⟨-, -, rfl, rfl⟩ := this
      rw [second, Function.update_self, exchange, if_neg first, if_pos second]
    · rw [Function.update_of_ne second, Function.update_of_ne first, exchange, if_neg first,
        if_neg second, this]

end Contents

section Leaves

variable {D n e i : Nat} {s : Store K V} {o : KeyOrder K} {key : K} {fs bs : List Nat}
  {el : BTreeElement K V} {p q : Option Nat}

theorem firstEqual_here (place : Place s o key fs bs) (live : s.elements e = some el)
    (equal : o.equal key el.key = true) :
    firstEqual o key (fs ++ e :: bs) i s = some (some (i + fs.length), s) := by
  obtain ⟨below, above⟩ := place
  induction fs generalizing i with
  | nil =>
    rw [List.nil_append, firstEqual, run_bind (run_element live), if_pos equal, run_pure]
    rfl
  | cons a fs ih =>
    obtain ⟨⟨el', live', less⟩, below⟩ := List.forall_mem_cons.mp below
    rw [List.cons_append, firstEqual, run_bind (run_element live'),
      if_neg (by simp [equal_of_more less]), ih below, List.length_cons]
    congr 3
    omega

theorem not_less_of_equal {a b : K} (equal : o.equal a b = true) :
    o.less a b = false ∧ o.less b a = false := by
  simpa [KeyOrder.equal] using equal

theorem run_remove {N : Heap BTreeNode} {E : Nat → Option (BTreeElement K V)}
    (block : N.block n = some ⟨q, fs ++ e :: bs⟩) (place : Place ⟨N, E⟩ o key fs bs)
    (live : E e = some el) (equal : o.equal key el.key = true)
    (room : (fs ++ e :: bs).length ≤ maxElementsPerNode + 1) :
    remove o n key ⟨N, E⟩ = some (some e, ⟨N.write n ⟨q, fs ++ bs⟩, E⟩) := by
  obtain ⟨first, elf, head, livef, lessf⟩ : ∃ a el, (fs ++ e :: bs).head? = some a ∧
      E a = some el ∧ o.less key el.key = false := by
    cases fs with
    | nil => exact ⟨e, el, rfl, live, (not_less_of_equal equal).1⟩
    | cons a fs =>
      obtain ⟨el, live, less⟩ := place.below a List.mem_cons_self
      exact ⟨a, el, rfl, live, less_asymm less⟩
  obtain ⟨last, ell, end_, livel, lessl⟩ : ∃ a el, (fs ++ e :: bs).getLast? = some a ∧
      E a = some el ∧ o.less el.key key = false := by
    rcases List.eq_nil_or_concat bs with rfl | ⟨front, a, rfl⟩
    · exact ⟨e, el, List.getLast?_concat, live, (not_less_of_equal equal).2⟩
    · rw [List.concat_eq_append] at *
      obtain ⟨el, live, less⟩ := place.above a (by simp)
      refine ⟨a, el, ?_, live, less_asymm less⟩
      rw [← List.cons_append, ← List.append_assoc, List.getLast?_concat]
  have inside : ¬ (o.less key elf.key || o.less ell.key key) = true := by simp [lessf, lessl]
  have erased : (fs ++ e :: bs).eraseIdx fs.length = fs ++ bs := by
    rw [List.eraseIdx_append_of_length_le (Nat.le_refl _), Nat.sub_self]
    rfl
  have at_ : (fs ++ e :: bs)[fs.length]? = some e := by simp
  rw [remove, run_bind (run_node block)]
  simp only [head, end_]
  rw [run_bind (run_element livef), run_bind (run_element livel), if_neg inside,
    run_bind (firstEqual_here place live equal), Nat.zero_add]
  simp only
  rw [run_removeByIndex block at_ room, erased]

theorem labelsOf_leaf (rest : Children K V 0) : LTree.labelsOf rest = [] := by
  induction rest with
  | nil => rfl
  | cons e rest ih => exact ih

theorem lastRoot_leaf (rest : Children K V 0) : lastRoot none rest = none := by
  induction rest with
  | nil => rfl
  | cons e rest ih => exact ih

theorem remove_linked {r : Route Nat (Cell K V) D 1} {before after : Children K V 0} {c : Cell K V}
    (here : Proper s (r.plug (.node ⟨n, .nil, before ++ (c, .nil) :: after⟩)) p)
    (below : ∀ e ∈ before, o.less e.1.key key = true) (equal : o.equal key c.key = true)
    (above : ∀ e ∈ after, o.less key e.1.key = true)
    (room : before.length + after.length ≤ maxElementsPerNode) :
    ∃ N, remove o n key s = some (some c.address, ⟨N, s.elements⟩) ∧
      Proper ⟨N, Function.update s.elements c.address none⟩
        (r.plug (.node ⟨n, .nil, before ++ after⟩)) p := by
  obtain ⟨N, E⟩ := s
  obtain ⟨linked, nodes, cells⟩ := here
  obtain ⟨whole, hung⟩ := linked_plug.mp linked
  obtain ⟨block, -, follows⟩ := linked_node.mp whole
  obtain ⟨front, back⟩ := follows_append.mp follows
  obtain ⟨between, -, back⟩ := follows_cons.mp back
  simp only [List.map_append, List.map_cons] at block
  have place : Place ⟨N, E⟩ o key (before.map fun e => e.1.address)
      (after.map fun e => e.1.address) := by
    constructor
    · intro a mem
      obtain ⟨e, there, rfl⟩ := List.mem_map.mp mem
      obtain ⟨l, r, live⟩ := after_live front.1 e there
      exact ⟨_, live, below e there⟩
    · intro a mem
      obtain ⟨e, there, rfl⟩ := List.mem_map.mp mem
      obtain ⟨l, r, live⟩ := after_live back.1 e there
      exact ⟨_, live, above e there⟩
  refine ⟨_, run_remove block place between equal (by simp; omega), ?_⟩
  have parts : (r.plug (.node ⟨n, .nil, before ++ (c, .nil) :: after⟩)).inorder.Perm
      (c :: (r.plug (.node ⟨n, .nil, before ++ after⟩)).inorder) := by
    classical
    rw [Route.inorder_plug, Route.inorder_plug, List.perm_iff_count]
    intro e
    simp only [LTree.inorder_node, LTree.inorder_nil, LTree.inorderAfter_append,
      LTree.inorderAfter_cons, List.count_append, List.count_cons, List.count_nil]
    omega
  have cells := (parts.map Cell.address).nodup_iff.mp cells
  obtain ⟨absent, cells⟩ := List.nodup_cons.mp cells
  have nodes : (r.plug (.node ⟨n, .nil, before ++ after⟩)).labels.Nodup := by
    refine List.Perm.nodup ?_ nodes
    refine (Route.labels_plug r _).trans (.trans ?_ (Route.labels_plug r _).symm)
    classical
    rw [List.perm_iff_count]
    intro b
    simp only [LTree.labels_node, LTree.labels_nil, LTree.labelsOf_append, LTree.labelsOf_cons,
      List.count_append, List.count_cons, List.count_nil]
    omega
  have changed : Within ⟨N, E⟩ ⟨N.write n ⟨r.above p, before.map (fun e => e.1.address) ++
      after.map fun e => e.1.address⟩, Function.update E c.address none⟩ [n] [c.address] := by
    constructor
    · exact fun b out => N.block_write_other _ (by simpa using out)
    · exact fun b out => Function.update_of_ne (by simpa using out) ..
  have other : ∀ e ∈ (r.plug (.node ⟨n, .nil, before ++ after⟩)).inorder,
      e.address ∉ [c.address] := by
    intro e mem
    rw [List.mem_singleton]
    intro same
    exact absent (same ▸ List.mem_map_of_mem mem)
  rw [Route.inorder_plug, LTree.inorder_node, LTree.inorderAfter_append] at other
  simp only [LTree.inorder_nil, List.nil_append, List.mem_append] at other
  have beside := (List.nodup_append.mp ((Route.labels_plug r _).nodup_iff.mp nodes)).2.2
  have none' : ∀ b ∈ ([] : List Nat), b ∉ [n] := by simp
  refine ⟨linked_plug.mpr ⟨linked_node.mpr ⟨?_, trivial, follows_append.mpr ⟨?_, ?_⟩⟩, ?_⟩,
    nodes, cells⟩
  · rw [List.map_append]
    exact Heap.block_write_self block _
  · refine front.within changed (by rw [labelsOf_leaf]; exact none') ?_
    exact fun e mem => other e (.inl (.inr (.inl mem)))
  · change Follows _ n (lastRoot none before) after
    rw [lastRoot_leaf]
    refine back.within changed (by rw [labelsOf_leaf]; exact none') ?_
    exact fun e mem => other e (.inl (.inr (.inr mem)))
  · refine hung.within changed ?_ ?_
    · intro b mem
      rw [List.mem_singleton]
      rintro rfl
      exact beside b List.mem_cons_self b mem rfl
    · intro e mem
      rcases List.mem_append.mp mem with mem | mem
      · exact other e (.inl (.inl mem))
      · exact other e (.inr mem)

end Leaves

section Deletion

variable {D n : Nat} {o : KeyOrder K} {key : K} {p : Option Nat}

theorem run_rounds {s : Store K V} :
    (rounds : Program K V Nat) s = some (s.nodes.next + 1, s) := rfl

theorem destroyElement_owned {t : Tree K V} {e : Nat} (owned : e ∈ t.pool.allocatedPool) :
    destroyElement t e = ({ t with
      pool := (MemPool.release t.pool e).1
      store := { t.store with elements := Function.update t.store.elements e none } }, none) := by
  rw [destroyElement, MemPool.release_present owned]

theorem deleteFromLeaf_linked {t : Tree K V} {r : Route Nat (Cell K V) D 1}
    {before after : Children K V 0} {c : Cell K V}
    (here : Proper t.store (r.plug (.node ⟨n, .nil, before ++ (c, .nil) :: after⟩)) p)
    (top : root (r.plug (.node ⟨n, .nil, before ++ (c, .nil) :: after⟩)) = some t.rootNode)
    (sized : (r.plug (.node ⟨n, .nil, before ++ (c, .nil) :: after⟩)).RootSized
      minElementsPerNode maxElementsPerNode)
    (below : ∀ e ∈ before, o.less e.1.key key = true) (equal : o.equal key c.key = true)
    (above : ∀ e ∈ after, o.less key e.1.key = true) (owned : c.address ∈ t.pool.allocatedPool)
    (safe : Safe r (before.length + after.length)) :
    ∃ s' top' p' E, ∃ T : Branch K V E,
      deleteFromLeaf o t n key = some ({ t with
        store := s'
        pool := (MemPool.release t.pool c.address).1
        rootNode := top'
        totalElements := t.totalElements - 1 }, .returned true) ∧
      Restored s' T (r.plug (.node ⟨n, .nil, before ++ after⟩)) top' p' := by
  have least : minElementsPerNode = 16 := rfl
  have most : maxElementsPerNode = 32 := rfl
  obtain ⟨up, inner, whole⟩ := Route.sized_of_plug sized (.inl Nat.one_ne_zero)
  have lengths : (before ++ (c, LTree.nil) :: after).length = before.length + after.length + 1 := by
    rw [List.length_append, List.length_cons]
    omega
  have room : before.length + after.length ≤ maxElementsPerNode := by
    by_cases below : r.length = 0
    · obtain ⟨⟨-, fits⟩, -⟩ := LTree.rootSized_node.mp (whole below)
      simp only [lengths] at fits
      omega
    · obtain ⟨⟨-, fits⟩, -⟩ := LTree.sized_node.mp (inner below)
      simp only [lengths] at fits
      omega
  obtain ⟨N, removed, proper⟩ := remove_linked here below equal above room
  obtain ⟨block, -, follows⟩ := linked_node.mp (linked_plug.mp here.linked).1
  have leaf := isLeaf_leaf follows.1
  have size : (LTree.node ⟨n, (LTree.nil : Branch K V 0), before ++ after⟩).size =
      before.length + after.length := by
    rw [LTree.size_node, List.length_append]
  have loose : r.length ≠ 0 → (LTree.node ⟨n, .nil, before ++ after⟩).Loose
      (minElementsPerNode - 1) minElementsPerNode maxElementsPerNode := by
    intro below
    obtain ⟨⟨enough, -⟩, -⟩ := LTree.sized_node.mp (inner below)
    simp only [lengths] at enough
    refine LTree.loose_node.mpr ⟨?_, trivial, fun _ _ => trivial⟩
    rw [List.length_append]
    omega
  have small : r.length = 0 → (LTree.node ⟨n, .nil, before ++ after⟩).RootSized
      minElementsPerNode maxElementsPerNode := by
    intro _
    refine LTree.rootSized_node.mpr ⟨⟨fun none => absurd rfl none, ?_⟩, trivial, fun _ _ => trivial⟩
    rw [List.length_append]
    exact room
  obtain ⟨s', E, top', p', T, run, restored, -⟩ := rebalance_linked r proper rfl
    (by rw [← top]; exact root_plug rfl) up loose small (size ▸ safe) (route_fuel proper)
  have first : (do
      let nd ← node n
      let leaf ← isLeaf nd.elements
      if leaf then remove o n key else pure none : Program K V (Option Nat)) t.store =
        some (some c.address, ⟨N, t.store.elements⟩) := by
    rw [run_bind (run_node block), run_bind leaf, if_pos rfl, removed]
  refine ⟨s', top', p', E, T, ?_, restored⟩
  rw [deleteFromLeaf, first]
  simp only [Option.bind_eq_bind, Option.bind_some]
  rw [destroyElement_owned (t := { t with store := ⟨N, t.store.elements⟩ }) owned]
  replace run : rebalance t.rootNode (N.next + 1) n
      ⟨N, Function.update t.store.elements c.address none⟩ = some ((top', true), s') := run
  simp only [run_bind run_rounds, run, Option.bind_some]

/-- The leaf from which `Delete` takes an element: the key's own, or one of the key's two
    neighbours when the key is in an inner node. -/
def Taken {D : Nat} (o : KeyOrder K) (leftDeletion : Bool) (key : K) (r : Route Nat (Cell K V) D 1)
    (before : Children K V 0) (c : Cell K V) (after : Children K V 0) : Prop :=
  o.equal key c.key = true ∨
    (leftDeletion = true ∧ after = [] ∧ ∃ e ∈ r.right.head?, o.equal key e.key = true) ∨
    (leftDeletion = false ∧ before = [] ∧ ∃ e ∈ r.left.getLast?, o.equal key e.key = true)

/-- `Delete` does not merge the root's only element into its right child. -/
def SafeDelete (o : KeyOrder K) (t : Tree K V) (key : K) : Prop :=
  ∀ D p n before c after, ∀ r : Route Nat (Cell K V) D 1,
    Shape o t.store (r.plug (.node ⟨n, .nil, before ++ (c, .nil) :: after⟩)) t.rootNode p →
    Taken o t.leftDeletion key r before c after → Safe r (before.length + after.length)

structure Deleted {D E : Nat} (o : KeyOrder K) (key : K) (T₀ : Branch K V D) (s' : Store K V)
    (T : Branch K V E) (top : Nat) (p : Option Nat) (a : Nat) : Prop where
  proper : Proper s' T p
  top : root T = some top
  sized : T.RootSized minElementsPerNode maxElementsPerNode
  entries : ∃ l e l', entries T₀ = l ++ e :: l' ∧ o.equal key e.1 = true ∧ entries T = l ++ l'
  cells : (addresses T₀.inorder).Perm (a :: addresses T.inorder)

theorem safe_map {d : Nat} {r : Route Nat (Cell K V) D d} {count : Nat} (f : Cell K V → Cell K V) :
    Safe (r.map f) count ↔ Safe r count := by
  induction r generalizing count with
  | top => exact Iff.rfl
  | under g r ih =>
    have size : (g.map f).size = g.size := by simp [Gap.map, Gap.size]
    have sibling : siblingSize (g.map f) = siblingSize g := by
      obtain ⟨l, before, after⟩ := g
      cases after with
      | cons e after => exact size_map e.2
      | nil =>
        cases before with
        | cons e before => exact size_map e.2
        | nil => rfl
    have last : (g.map f).after ≠ [] ↔ g.after ≠ [] := by simp [Gap.map]
    simp only [Route.map, Safe, size, sibling, last, ih]

theorem less_of_equal {a b : K} (less : o.less a b = true) (equal : o.equal key b = true) :
    o.less a key = true := by
  rcases o.cotrans key less with less | more
  · exact less
  · rw [(not_less_of_equal equal).1] at more
    cases more

theorem more_of_equal {a b : K} (less : o.less b a = true) (equal : o.equal key b = true) :
    o.less key a = true := by
  rcases o.cotrans key less with more | less
  · rw [(not_less_of_equal equal).2] at more
    cases more
  · exact less

theorem deleted_of_restored {D E F a top : Nat} {s' : Store K V} {T₀ : Branch K V D}
    {T : Branch K V E} {T₁ : Branch K V F} (l l' : List (Cell K V)) {c : Cell K V}
    (restored : Restored s' T T₁ top p) (whole : T₀.inorder = l ++ c :: l')
    (equal : o.equal key c.key = true)
    (rest : entries T₁ = (l ++ l').map fun c => (c.key, c.value))
    (cells : (addresses T₀.inorder).Perm (a :: addresses T₁.inorder)) :
    Deleted o key T₀ s' T top p a where
  proper := restored.proper
  top := restored.top
  sized := restored.sized
  entries := by
    refine ⟨_, (c.key, c.value), _, ?_, equal, (restored.entries.trans rest).trans List.map_append⟩
    rw [entries, whole, List.map_append, List.map_cons]
  cells := cells.trans (restored.cells.symm.cons a)

theorem delete_leaf {t : Tree K V} {r : Route Nat (Cell K V) D 1}
    {before after : Children K V 0} {c : Cell K V}
    (here : Shape o t.store (r.plug (.node ⟨n, .nil, before ++ (c, .nil) :: after⟩)) t.rootNode p)
    (owned : c.address ∈ t.pool.allocatedPool) (safe : SafeDelete o t key)
    (below : ∀ e ∈ before, o.less e.1.key c.key = true) (equal : o.equal key c.key = true)
    (above : ∀ e ∈ after, o.less c.key e.1.key = true)
    (found : findElement o key (t.store.nodes.next + 1) (some t.rootNode) t.store =
      some (some (n, c.address), t.store)) :
    ∃ s' top' p' E, ∃ T : Branch K V E,
      delete o t key = some ({ t with
        store := s'
        pool := (MemPool.release t.pool c.address).1
        rootNode := top'
        totalElements := t.totalElements - 1 }, .returned true) ∧
      Deleted o key (r.plug (.node ⟨n, .nil, before ++ (c, .nil) :: after⟩)) s' T top' p'
        c.address := by
  obtain ⟨s', top', p', E, T, run, restored⟩ := deleteFromLeaf_linked here.proper here.top
    here.sized (fun e mem => less_of_equal (below e mem) equal) equal
    (fun e mem => more_of_equal (above e mem) equal) owned
    (safe _ _ _ _ _ _ _ here (.inl equal))
  have whole : (r.plug (.node ⟨n, .nil, before ++ (c, .nil) :: after⟩)).inorder =
      (r.left ++ LTree.inorderAfter before) ++ c :: (LTree.inorderAfter after ++ r.right) := by
    rw [Route.inorder_plug]
    simp
  have rest : (r.plug (.node ⟨n, .nil, before ++ after⟩)).inorder =
      (r.left ++ LTree.inorderAfter before) ++ (LTree.inorderAfter after ++ r.right) := by
    rw [Route.inorder_plug]
    simp
  refine ⟨s', top', p', E, T, ?_, deleted_of_restored _ _ restored whole equal ?_ ?_⟩
  · obtain ⟨block, -, follows⟩ := linked_node.mp (linked_plug.mp here.proper.linked).1
    have leaf := isLeaf_leaf follows.1
    have place : nodeForDelete t n c.address t.store = some (some (n, none), t.store) := by
      rw [nodeForDelete, run_bind (run_node block), run_bind leaf, if_pos rfl, run_pure]
    rw [delete, run_bind run_rounds, found]
    simp only [Option.bind_eq_bind, Option.bind_some, place]
    exact run
  · rw [entries, rest]
  · rw [whole, rest]
    exact List.perm_middle.map _

theorem swap_and_delete {t : Tree K V} {r : Route Nat (Cell K V) D 1}
    {before after : Children K V 0} {c c' : Cell K V} (left : Bool)
    (here : Shape o t.store (r.plug (.node ⟨n, .nil, before ++ (c', .nil) :: after⟩)) t.rootNode p)
    (mem : c ∈ r.left ++ r.right) (owned : c'.address ∈ t.pool.allocatedPool)
    (safe : Safe r (before.length + after.length))
    (below : ∀ e ∈ before, o.less e.1.key c.key = true) (equal : o.equal key c.key = true)
    (above : ∀ e ∈ after, o.less c.key e.1.key = true) :
    ∃ s₁, swapElement c.address c'.address t.store = some ((), s₁) ∧
      ∃ s' top' p' E, ∃ T : Branch K V E,
        deleteFromLeaf o { t with store := s₁, leftDeletion := left } n key = some ({ t with
          store := s'
          pool := (MemPool.release t.pool c'.address).1
          rootNode := top'
          totalElements := t.totalElements - 1
          leftDeletion := left }, .returned true) ∧
        Restored s' T ((r.map (exchange c c')).plug (.node ⟨n, .nil, before ++ after⟩))
          top' p' := by
  obtain ⟨proper, top, sized, -⟩ := here
  have cells := proper.cells
  have parts : (r.plug (.node ⟨n, .nil, before ++ (c', .nil) :: after⟩)).inorder.Perm
      (c' :: ((r.left ++ r.right) ++ (LTree.inorderAfter before ++ LTree.inorderAfter after))) := by
    classical
    rw [Route.inorder_plug, List.perm_iff_count]
    intro e
    simp only [LTree.inorder_node, LTree.inorder_nil, LTree.inorderAfter_append,
      LTree.inorderAfter_cons, List.count_append, List.count_cons, List.count_nil]
    omega
  obtain ⟨fresh, nodup⟩ := List.nodup_cons.mp ((parts.map Cell.address).nodup_iff.mp cells)
  rw [List.map_append, List.nodup_append] at nodup
  have apart : c'.address ≠ c.address := by
    intro same
    exact fresh (same ▸ List.mem_map_of_mem (List.mem_append_left _ mem))
  have kept : ∀ e ∈ LTree.inorderAfter before ++ LTree.inorderAfter after,
      exchange c c' e = e := by
    intro e there
    refine exchange_other ⟨?_, ?_⟩
    · exact (nodup.2.2 _ (List.mem_map_of_mem mem) _ (List.mem_map_of_mem there)).symm
    · intro same
      exact fresh (same ▸ List.mem_map_of_mem (List.mem_append_right _ there))
  obtain ⟨s₁, swapped, proper₁, nodes⟩ := swapElement_linked proper
    (parts.symm.subset (List.mem_cons_of_mem _ (List.mem_append_left _ mem)))
    (parts.symm.subset List.mem_cons_self) apart
  have same (rest : Children K V 0) (all : ∀ e ∈ LTree.inorderAfter rest, exchange c c' e = e) :
      rest.map (fun e => (exchange c c' e.1, e.2.map (exchange c c'))) = rest := by
    refine (List.map_congr_left fun e there => ?_).trans (List.map_id rest)
    exact Prod.ext (all e.1 (List.mem_flatMap.mpr ⟨e, there, List.mem_cons_self⟩)) rfl
  have leaf : (r.plug (.node ⟨n, .nil, before ++ (c', .nil) :: after⟩)).map (exchange c c') =
      (r.map (exchange c c')).plug
        (.node ⟨n, .nil, before ++ (⟨c'.address, c.key, c.value⟩, .nil) :: after⟩) := by
    have here : exchange c c' c' = ⟨c'.address, c.key, c.value⟩ := by
      rw [exchange, if_neg apart, if_pos rfl]
    rw [Route.map_plug, LTree.map_node, List.map_append, List.map_cons,
      same before fun e there => kept e (List.mem_append_left _ there),
      same after fun e there => kept e (List.mem_append_right _ there), here]
    rfl
  have sized' := (LTree.rootSized_map (exchange c c') _).mpr sized
  rw [leaf] at proper₁ sized'
  refine ⟨s₁, swapped, ?_⟩
  exact deleteFromLeaf_linked (t := { t with store := s₁, leftDeletion := left })
    (c := ⟨c'.address, c.key, c.value⟩) proper₁ (by rw [← leaf, root_map, top]) sized'
    (fun e mem => less_of_equal (below e mem) equal) equal
    (fun e mem => more_of_equal (above e mem) equal) owned ((safe_map _).mpr safe)

theorem depth_le {d : Nat} (t : Branch K V d) : d ≤ t.labels.length := by
  induction d with
  | zero => exact Nat.zero_le _
  | succ d ih =>
    obtain ⟨n, same⟩ := t.exists_node
    have := ih n.first
    rw [same, LTree.labels_node, List.length_cons, List.length_append]
    omega

section Inner

variable {d : Nat} {t : Tree K V} {r : Route Nat (Cell K V) D (d + 2)}
  {before after : Children K V (d + 1)} {x u : Branch K V (d + 1)} {c : Cell K V}

theorem child_sized (whole : (r.plug (.node (close n before x ((c, u) :: after)))).RootSized
      minElementsPerNode maxElementsPerNode) :
    x.Sized minElementsPerNode maxElementsPerNode ∧
      u.Sized minElementsPerNode maxElementsPerNode := by
  obtain ⟨-, inner, top⟩ := Route.sized_of_plug whole (.inl (Nat.succ_ne_zero _))
  have children : (close n before x ((c, u) :: after)).All
      (LTree.Sized minElementsPerNode maxElementsPerNode) := by
    by_cases below : r.length = 0
    · exact (LTree.rootSized_node.mp (top below)).2
    · exact (LTree.sized_node.mp (inner below)).2
  obtain ⟨-, left, right⟩ := close_all.mp children
  exact ⟨left, right (c, u) List.mem_cons_self⟩

theorem run_nodeForDelete {m e : Nat}
    (here : Linked t.store (.node (close n before x ((c, u) :: after))) p)
    (child : (if t.leftDeletion then highest (t.store.nodes.next + 1) (root x)
      else lowest (t.store.nodes.next + 1) (root u) : Program K V (Option (Nat × Nat))) t.store =
        some (some (m, e), t.store)) :
    nodeForDelete t n c.address t.store = some (some (m, some e), t.store) := by
  obtain ⟨block, precedes, left, follows⟩ := linked_close.mp here
  obtain ⟨between, -, -⟩ := follows_cons.mp follows
  have parts : (close n before x ((c, u) :: after)).rest.map (fun e => e.1.address) =
      (before.map fun e => e.1.address).reverse ++ ((c, u) :: after).map fun e => e.1.address :=
    close_addresses
  have any : (close n before x ((c, u) :: after)).rest ≠ [] := by
    intro none
    rw [none] at parts
    simp at parts
  have leaf := isLeaf_inner (linked_node.mp here).2.2.1 any
  rw [parts] at leaf
  rw [nodeForDelete, run_bind (run_node block), run_bind leaf, if_neg Bool.false_ne_true,
    run_bind run_rounds, run_bind (run_element between)]
  simp only at child ⊢
  cases left : t.leftDeletion with
  | true =>
    rw [left, if_pos rfl] at child
    rw [if_pos rfl, run_bind child]
    rfl
  | false =>
    rw [left, if_neg Bool.false_ne_true] at child
    rw [if_neg Bool.false_ne_true, run_bind child]
    rfl

theorem delete_inner {m : Nat} {q : Route Nat (Cell K V) D 1} {front back : Children K V 0}
    {c' : Cell K V}
    (here : Shape o t.store (r.plug (.node (close n before x ((c, u) :: after)))) t.rootNode p)
    (found : findElement o key (t.store.nodes.next + 1) (some t.rootNode) t.store =
      some (some (n, c.address), t.store))
    (place : nodeForDelete t n c.address t.store = some (some (m, some c'.address), t.store))
    (same : r.plug (.node (close n before x ((c, u) :: after))) =
      q.plug (.node ⟨m, .nil, front ++ (c', .nil) :: back⟩))
    (mem : c ∈ q.left ++ q.right) (owned : c'.address ∈ t.pool.allocatedPool)
    (safe : Safe q (front.length + back.length))
    (below : ∀ e ∈ front, o.less e.1.key c.key = true) (equal : o.equal key c.key = true)
    (above : ∀ e ∈ back, o.less c.key e.1.key = true) :
    ∃ s' top' p' E, ∃ T : Branch K V E,
      delete o t key = some ({ t with
        store := s'
        pool := (MemPool.release t.pool c'.address).1
        rootNode := top'
        totalElements := t.totalElements - 1
        leftDeletion := !t.leftDeletion }, .returned true) ∧
      Restored s' T ((q.map (exchange c c')).plug (.node ⟨m, .nil, front ++ back⟩)) top' p' := by
  rw [same] at here
  obtain ⟨s₁, swapped, s', top', p', E, T, run, restored⟩ :=
    swap_and_delete (!t.leftDeletion) here mem owned safe below equal above
  refine ⟨s', top', p', E, T, ?_, restored⟩
  rw [delete, run_bind run_rounds, found]
  simp only [Option.bind_eq_bind, Option.bind_some, place, swapped]
  exact run

theorem exchange_kept {c c' : Cell K V} {l : List (Cell K V)}
    (others : ∀ e ∈ l, e.address ≠ c.address ∧ e.address ≠ c'.address) :
    l.map (exchange c c') = l :=
  (List.map_congr_left fun e mem => exchange_other (others e mem)).trans (List.map_id l)

theorem exchange_left (c c' : Cell K V) : exchange c c' c = ⟨c.address, c'.key, c'.value⟩ := by
  rw [exchange, if_pos rfl]

theorem route_depth {d : Nat} (r : Route Nat (Cell K V) D d) : d ≤ D := by
  induction r with
  | top => exact Nat.le_refl _
  | under g r ih => exact Nat.le_of_succ_le ih

theorem others_of_nodup {c c' : Cell K V} {l l' : List (Cell K V)}
    (nodup : (addresses (l ++ c :: c' :: l')).Nodup) :
    ∀ e ∈ l ++ l', e.address ≠ c.address ∧ e.address ≠ c'.address := by
  have parts : (l ++ c :: c' :: l').Perm ([c, c'] ++ (l ++ l')) :=
    List.perm_middle.trans (List.perm_middle.cons c)
  have nodup := (parts.map Cell.address).nodup_iff.mp nodup
  rw [List.map_append, List.nodup_append] at nodup
  intro e mem
  have apart := fun d there => (nodup.2.2 d there _ (List.mem_map_of_mem mem)).symm
  exact ⟨apart _ (by simp), apart _ (by simp)⟩

theorem delete_left (here : Shape o t.store (r.plug (.node (close n before x ((c, u) :: after))))
      t.rootNode p)
    (owned : ∀ e ∈ (r.plug (.node (close n before x ((c, u) :: after)))).inorder,
      e.address ∈ t.pool.allocatedPool) (safe : SafeDelete o t key)
    (equal : o.equal key c.key = true) (left : t.leftDeletion = true)
    (found : findElement o key (t.store.nodes.next + 1) (some t.rootNode) t.store =
      some (some (n, c.address), t.store)) :
    ∃ s' top' p' E a, ∃ T : Branch K V E,
      delete o t key = some ({ t with
        store := s'
        pool := (MemPool.release t.pool a).1
        rootNode := top'
        totalElements := t.totalElements - 1
        leftDeletion := !t.leftDeletion }, .returned true) ∧
      Deleted o key (r.plug (.node (close n before x ((c, u) :: after)))) s' T top' p' a := by
  obtain ⟨sized, -⟩ := child_sized here.sized
  have linked := (linked_plug.mp here.proper.linked).1
  obtain ⟨-, -, child, -⟩ := linked_close.mp linked
  have fuel : d + 1 ≤ t.store.nodes.next := by
    have depth := route_depth r
    have labels := (depth_le _).trans (labels_le here.proper.linked here.proper.nodes)
    omega
  obtain ⟨q, m, front, c', same, ends, run⟩ := highest_linked child sized (Nat.le_succ_of_le fuel)
  have whole : r.plug (.node (close n before x ((c, u) :: after))) =
      (q.append (.under ⟨n, before, (c, u) :: after⟩ r)).plug
        (.node ⟨m, .nil, front ++ [(c', .nil)]⟩) := by
    rw [Route.plug_append, ← same]
    rfl
  have right : (q.append (.under ⟨n, before, (c, u) :: after⟩ r)).right =
      c :: (u.inorder ++ LTree.inorderAfter after ++ r.right) := by
    rw [Route.right_append, ends, Route.right]
    simp
  have place := run_nodeForDelete linked (by rw [left, if_pos rfl]; exact run)
  generalize q.append (.under ⟨n, before, (c, u) :: after⟩ r) = q at whole right
  generalize u.inorder ++ LTree.inorderAfter after ++ r.right = l' at right
  have cells := here.proper.cells
  have ordered := separated_ordered.mp here.separated
  have inorder : (q.plug (.node ⟨m, .nil, front ++ [(c', .nil)]⟩)).inorder =
      (q.left ++ LTree.inorderAfter front) ++ c' :: c :: l' := by
    rw [Route.inorder_plug, right]
    simp
  rw [whole, inorder] at cells ordered
  have below : ∀ e ∈ front, o.less e.1.key c.key = true := by
    intro e mem
    refine (List.pairwise_append.mp ordered).2.2 e.1 ?_ c (by simp)
    exact List.mem_append_right _ (List.mem_flatMap.mpr ⟨e, mem, List.mem_cons_self⟩)
  have lent : c'.address ∈ t.pool.allocatedPool := by
    refine owned c' ?_
    rw [whole, inorder]
    simp
  have safe := safe _ _ _ _ _ _ _ (whole ▸ here)
    (.inr (.inl ⟨left, rfl, c, by rw [right]; rfl, equal⟩))
  obtain ⟨s', top', p', E, T, run, restored⟩ := delete_inner here found place whole
    (by rw [right]; simp) lent safe below equal (by simp)
  refine ⟨s', top', p', E, c'.address, T, run, ?_⟩
  rw [whole]
  have others := others_of_nodup cells
  have rest : ((q.map (exchange c c')).plug (.node ⟨m, .nil, front ++ []⟩)).inorder =
      (q.left ++ LTree.inorderAfter front) ++ ⟨c.address, c'.key, c'.value⟩ :: l' := by
    rw [Route.inorder_plug, Route.left_map, Route.right_map, right, List.map_cons, exchange_left,
      exchange_kept fun e mem => (others e (by simp [mem])).symm,
      exchange_kept fun e mem => (others e (by simp [mem])).symm]
    simp
  refine deleted_of_restored (q.left ++ LTree.inorderAfter front ++ [c']) l' restored ?_ equal ?_ ?_
  · rw [inorder]
    simp
  · rw [entries, rest]
    simp
  · rw [inorder, rest]
    exact (List.perm_middle.map Cell.address).trans (.of_eq (by simp [addresses]))

theorem delete_right (here : Shape o t.store (r.plug (.node (close n before x ((c, u) :: after))))
      t.rootNode p)
    (owned : ∀ e ∈ (r.plug (.node (close n before x ((c, u) :: after)))).inorder,
      e.address ∈ t.pool.allocatedPool) (safe : SafeDelete o t key)
    (equal : o.equal key c.key = true) (right : t.leftDeletion = false)
    (found : findElement o key (t.store.nodes.next + 1) (some t.rootNode) t.store =
      some (some (n, c.address), t.store)) :
    ∃ s' top' p' E a, ∃ T : Branch K V E,
      delete o t key = some ({ t with
        store := s'
        pool := (MemPool.release t.pool a).1
        rootNode := top'
        totalElements := t.totalElements - 1
        leftDeletion := !t.leftDeletion }, .returned true) ∧
      Deleted o key (r.plug (.node (close n before x ((c, u) :: after)))) s' T top' p' a := by
  obtain ⟨-, sized⟩ := child_sized here.sized
  have linked := (linked_plug.mp here.proper.linked).1
  obtain ⟨-, -, -, follows⟩ := linked_close.mp linked
  obtain ⟨-, child, -⟩ := follows_cons.mp follows
  have fuel : d + 1 ≤ t.store.nodes.next := by
    have depth := route_depth r
    have labels := (depth_le _).trans (labels_le here.proper.linked here.proper.nodes)
    omega
  obtain ⟨q, m, c', back, same, ends, run⟩ := lowest_linked child sized (Nat.le_succ_of_le fuel)
  have whole : r.plug (.node (close n before x ((c, u) :: after))) =
      (q.append (.under ⟨n, (c, x) :: before, after⟩ r)).plug
        (.node ⟨m, .nil, (c', .nil) :: back⟩) := by
    rw [Route.plug_append, ← same]
    rfl
  have left : (q.append (.under ⟨n, (c, x) :: before, after⟩ r)).left =
      r.left ++ LTree.inorderBefore before ++ x.inorder ++ [c] := by
    rw [Route.left_append, ends, Route.left]
    simp
  have place := run_nodeForDelete linked (by rw [right, if_neg Bool.false_ne_true]; exact run)
  generalize q.append (.under ⟨n, (c, x) :: before, after⟩ r) = q at whole left
  generalize r.left ++ LTree.inorderBefore before ++ x.inorder = l at left
  have cells := here.proper.cells
  have ordered := separated_ordered.mp here.separated
  have inorder : (q.plug (.node ⟨m, .nil, (c', .nil) :: back⟩)).inorder =
      l ++ c :: c' :: (LTree.inorderAfter back ++ q.right) := by
    rw [Route.inorder_plug, left]
    simp
  rw [whole, inorder] at cells ordered
  have above : ∀ e ∈ back, o.less c.key e.1.key = true := by
    intro e mem
    refine (List.pairwise_cons.mp (List.pairwise_append.mp ordered).2.1).1 e.1 ?_
    refine List.mem_cons_of_mem _ (List.mem_append_left _ ?_)
    exact List.mem_flatMap.mpr ⟨e, mem, List.mem_cons_self⟩
  have lent : c'.address ∈ t.pool.allocatedPool := by
    refine owned c' ?_
    rw [whole, inorder]
    simp
  have safe := safe _ _ _ [] _ _ _ (whole ▸ here)
    (.inr (.inr ⟨right, rfl, c, by rw [left, List.getLast?_concat]; rfl, equal⟩))
  have whole' : r.plug (.node (close n before x ((c, u) :: after))) =
      q.plug (.node ⟨m, .nil, [] ++ (c', .nil) :: back⟩) := whole
  obtain ⟨s', top', p', E, T, run, restored⟩ := delete_inner here found place whole'
    (by rw [left]; simp) lent safe (by simp) equal above
  refine ⟨s', top', p', E, c'.address, T, run, ?_⟩
  rw [whole]
  have others := others_of_nodup cells
  have leftKept : l.map (exchange c c') = l :=
    exchange_kept fun e mem => others e (List.mem_append_left _ mem)
  have rightKept : q.right.map (exchange c c') = q.right :=
    exchange_kept fun e mem =>
      others e (List.mem_append_right _ (List.mem_append_right _ mem))
  have rest : ((q.map (exchange c c')).plug (.node ⟨m, .nil, [] ++ back⟩)).inorder =
      l ++ ⟨c.address, c'.key, c'.value⟩ :: (LTree.inorderAfter back ++ q.right) := by
    rw [Route.inorder_plug, Route.left_map, Route.right_map, left, List.map_append, List.map_cons,
      exchange_left, leftKept, rightKept]
    simp
  refine deleted_of_restored l (c' :: (LTree.inorderAfter back ++ q.right)) restored ?_ equal ?_ ?_
  · rw [inorder]
  · rw [entries, rest]
    simp
  · rw [inorder, rest]
    have moved : (l ++ c :: c' :: (LTree.inorderAfter back ++ q.right)).Perm
        (c' :: (l ++ c :: (LTree.inorderAfter back ++ q.right))) :=
      ((List.Perm.swap c' c _).append_left l).trans List.perm_middle
    exact (moved.map Cell.address).trans (.of_eq (by simp [addresses]))

end Inner

theorem close_leaf (l : Nat) (before after : Children K V 0) (x : Branch K V 0) :
    ∃ front : Children K V 0, close l before x after = ⟨l, .nil, front ++ after⟩ := by
  obtain ⟨first, front, same, -⟩ := close_front (l := l) before x
  exact ⟨front, same after⟩

theorem delete_present {d l : Nat} {t : Tree K V} {r : Route Nat (Cell K V) D (d + 1)}
    {before after : Children K V d} {x u : Branch K V d} {c : Cell K V}
    (here : Shape o t.store (r.plug (.node (close l before x ((c, u) :: after)))) t.rootNode p)
    (owned : ∀ e ∈ (r.plug (.node (close l before x ((c, u) :: after)))).inorder,
      e.address ∈ t.pool.allocatedPool) (safe : SafeDelete o t key)
    (equal : o.equal key c.key = true)
    (found : findElement o key (t.store.nodes.next + 1) (some t.rootNode) t.store =
      some (some (l, c.address), t.store)) :
    ∃ s' top' p' E a left, ∃ T : Branch K V E,
      delete o t key = some ({ t with
        store := s'
        pool := (MemPool.release t.pool a).1
        rootNode := top'
        totalElements := t.totalElements - 1
        leftDeletion := left }, .returned true) ∧
      Deleted o key (r.plug (.node (close l before x ((c, u) :: after)))) s' T top' p' a := by
  cases d with
  | zero =>
    obtain rfl : u = .nil := LTree.eq_nil u
    obtain ⟨front, same⟩ := close_leaf l before ((c, .nil) :: after) x
    rw [same] at here owned ⊢
    have inorder : (r.plug (.node ⟨l, .nil, front ++ (c, .nil) :: after⟩)).inorder =
        (r.left ++ LTree.inorderAfter front) ++ c :: (LTree.inorderAfter after ++ r.right) := by
      rw [Route.inorder_plug]
      simp
    have ordered := separated_ordered.mp here.separated
    rw [inorder] at ordered
    obtain ⟨-, behind, ahead⟩ := List.pairwise_append.mp ordered
    have below : ∀ e ∈ front, o.less e.1.key c.key = true := by
      intro e mem
      refine ahead e.1 ?_ c List.mem_cons_self
      exact List.mem_append_right _ (List.mem_flatMap.mpr ⟨e, mem, List.mem_cons_self⟩)
    have above : ∀ e ∈ after, o.less c.key e.1.key = true := by
      intro e mem
      refine (List.pairwise_cons.mp behind).1 e.1 ?_
      exact List.mem_append_left _ (List.mem_flatMap.mpr ⟨e, mem, List.mem_cons_self⟩)
    have lent : c.address ∈ t.pool.allocatedPool := owned c (by rw [inorder]; simp)
    obtain ⟨s', top', p', E, T, run, deleted⟩ :=
      delete_leaf here lent safe below equal above found
    exact ⟨s', top', p', E, c.address, t.leftDeletion, T, run, deleted⟩
  | succ d =>
    cases left : t.leftDeletion with
    | true =>
      obtain ⟨s', top', p', E, a, T, run, deleted⟩ :=
        delete_left here owned safe equal left found
      exact ⟨s', top', p', E, a, _, T, run, deleted⟩
    | false =>
      obtain ⟨s', top', p', E, a, T, run, deleted⟩ :=
        delete_right here owned safe equal left found
      exact ⟨s', top', p', E, a, _, T, run, deleted⟩

end Deletion

end BTree
