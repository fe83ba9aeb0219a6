import UpanLibs.Ds.BTreeShape

/-!
`InsertElement`: a node that is full is split, and the middle element goes up into its parent,
which may be split as well. A tree and a new one beside it, with the element between them, go
into the gap that the tree was in.
-/
namespace BTree
open Memory (Heap)
open LevelTree

variable {K V : Type}

section Rows

variable {d n i e : Nat} {s : Store K V} {q : Option Nat} {rest : Children K V d} {o : KeyOrder K}
  {key : K} {el : BTreeElement K V}

theorem before_live (here : Before s rest q) :
    ∀ e ∈ rest, ∃ l r, s.elements e.1.address = some ⟨e.1.key, e.1.value, l, r⟩ := by
  induction rest generalizing q with
  | nil => simp
  | cons e rest ih => exact List.forall_mem_cons.mpr ⟨⟨_, _, here.1⟩, ih here.2⟩

theorem after_live (here : After s q rest) :
    ∀ e ∈ rest, ∃ l r, s.elements e.1.address = some ⟨e.1.key, e.1.value, l, r⟩ := by
  induction rest generalizing q with
  | nil => simp
  | cons e rest ih => exact List.forall_mem_cons.mpr ⟨⟨_, _, here.1⟩, ih here.2⟩

theorem firstAbove_here {front back : List Nat}
    (below : ∀ a ∈ front, ∃ el, s.elements a = some el ∧ o.less key el.key = false)
    (live : s.elements e = some el) (above : o.less key el.key = true) :
    firstAbove o key (front ++ e :: back) i s = some (some (i + front.length), s) := by
  induction front generalizing i with
  | nil =>
    rw [List.nil_append, firstAbove, run_bind (run_element live), if_pos above, run_pure]
    rfl
  | cons a front ih =>
    obtain ⟨⟨el', live', less⟩, below⟩ := List.forall_mem_cons.mp below
    rw [List.cons_append, firstAbove, run_bind (run_element live'), if_neg (by simp [less]),
      ih below, List.length_cons]
    congr 3
    omega

theorem less_asymm {a b : K} (less : o.less a b = true) : o.less b a = false := by
  by_contra more
  have := o.trans less (Bool.not_eq_false _ ▸ more)
  rw [o.irrefl] at this
  cases this

theorem equal_of_less {a b : K} (less : o.less a b = true) : o.equal a b = false := by
  simp [KeyOrder.equal, less]

theorem equal_of_more {a b : K} (less : o.less b a = true) : o.equal a b = false := by
  simp [KeyOrder.equal, less]

end Rows

section Nodes

variable {N : Heap BTreeNode} {E : Nat → Option (BTreeElement K V)} {o : KeyOrder K} {n e a : Nat}
  {q l r : Option Nat} {k ka : K} {v va : V} {bs as : List Nat} {la ra : Option Nat}

theorem run_setRightNode_same (live : E e = some ⟨k, v, l, r⟩) :
    setRightNode e r ⟨N, E⟩ = some ((), ⟨N, E⟩) := by
  rw [run_setRightNode live, Function.update_eq_self_iff.mpr live.symm]

def LastIs (E : Nat → Option (BTreeElement K V)) (bs : List Nat) (l : Option Nat) : Prop :=
  ∀ b ∈ bs.getLast?, ∃ k v l', E b = some ⟨k, v, l', l⟩

theorem run_nodeInsert_last (block : N.block n = some ⟨q, bs⟩)
    (room : bs.length ≤ maxElementsPerNode) (new : E e = some ⟨k, v, l, r⟩)
    (below : ∀ b ∈ bs, ∃ el, E b = some el ∧ o.less el.key k = true) (last : LastIs E bs l) :
    nodeInsert o n e ⟨N, E⟩ =
      some ((bs.length : Int), ⟨N.write n ⟨q, bs ++ [e]⟩, E⟩) := by
  have notFull : bs.length ≠ maxElementsPerNode + 1 := by omega
  rw [nodeInsert, run_bind (run_node block), if_neg notFull]
  rcases List.eq_nil_or_concat bs with rfl | ⟨front, b, rfl⟩
  · have stored : [e].length ≤ maxElementsPerNode + 1 := by
      rw [List.length_singleton]
      exact Nat.succ_pos _
    simp only [List.getLast?_nil]
    rw [run_bind (run_setElements block stored), run_pure]
    rfl
  · rw [List.concat_eq_append] at *
    have stored : (front ++ [b] ++ [e]).length ≤ maxElementsPerNode + 1 := by
      rw [List.length_append]
      exact Nat.succ_le_succ room
    obtain ⟨el, live, less⟩ := below b (by simp)
    obtain ⟨k', v', l', here⟩ := last b List.getLast?_concat
    simp only [List.getLast?_concat]
    rw [run_bind (run_element live), run_bind (run_element new), if_pos (by simp [less]),
      run_bind (run_setElements block stored), run_bind (run_setRightNode_same here), run_pure]

theorem run_nodeInsert_before (block : N.block n = some ⟨q, bs ++ a :: as⟩)
    (room : (bs ++ a :: as).length ≤ maxElementsPerNode) (new : E e = some ⟨k, v, l, r⟩)
    (below : ∀ b ∈ bs, ∃ el, E b = some el ∧ o.less el.key k = true) (last : LastIs E bs l)
    (above : ∀ b ∈ a :: as, ∃ el, E b = some el ∧ o.less k el.key = true)
    (next : E a = some ⟨ka, va, la, ra⟩) :
    nodeInsert o n e ⟨N, E⟩ = some ((bs.length : Int), ⟨N.write n ⟨q, bs ++ e :: a :: as⟩,
      Function.update E a (some ⟨ka, va, r, ra⟩)⟩) := by
  have notFull : (bs ++ a :: as).length ≠ maxElementsPerNode + 1 := by omega
  have stored : (bs ++ e :: a :: as).length ≤ maxElementsPerNode + 1 := by
    simp only [List.length_append, List.length_cons] at room ⊢
    omega
  have before : (bs ++ a :: as).take bs.length = bs := List.take_left' rfl
  have after : (bs ++ a :: as).drop bs.length = a :: as := List.drop_left' rfl
  obtain ⟨front, z, ends⟩ := exists_last (l := a :: as) (List.cons_ne_nil _ _)
  have lastOf : (bs ++ a :: as).getLast? = some z := by
    rw [ends, ← List.append_assoc, List.getLast?_concat]
  obtain ⟨elz, livez, lessz⟩ := above z (by simp [ends])
  obtain ⟨ela, livea, lessa⟩ := above a List.mem_cons_self
  have more : ¬ (o.less elz.key k || o.equal elz.key k) = true := by
    rw [less_asymm lessz, equal_of_more lessz]
    simp
  have skip : ∀ b ∈ bs, ∃ el, E b = some el ∧ o.less k el.key = false := by
    intro b mem
    obtain ⟨el, live, less⟩ := below b mem
    exact ⟨el, live, less_asymm less⟩
  rw [nodeInsert, run_bind (run_node block), if_neg notFull]
  simp only [lastOf]
  rw [run_bind (run_element livez), run_bind (run_element new), if_neg more,
    run_bind (firstAbove_here (s := ⟨N, E⟩) skip livea lessa)]
  simp only [Nat.zero_add, before, after, List.head?_cons]
  rw [run_bind (run_setElements block stored)]
  rcases List.eq_nil_or_concat bs with rfl | ⟨front, b, rfl⟩
  · simp only [List.getLast?_nil]
    rw [run_bind (run_setLeftNode next _), run_pure]
  · rw [List.concat_eq_append] at *
    obtain ⟨k', v', l', here⟩ := last b List.getLast?_concat
    simp only [List.getLast?_concat]
    rw [run_bind (run_setRightNode_same here), run_bind (run_setLeftNode next _), run_pure]

end Nodes

section Gaps

variable {D d : Nat} {s : Store K V} {p : Option Nat} {o : KeyOrder K} {x y : Branch K V d}
  {c : Cell K V}

/-- Two trees, with an element between them, that are to go in a gap. -/
structure Ready {D d : Nat} (s : Store K V) (r : Route Nat (Cell K V) D d) (x : Branch K V d)
    (c : Cell K V) (y : Branch K V d) (p : Option Nat) : Prop where
  left : Linked s x (r.above p)
  between : Between s c (root x) (root y)
  right : Linked s y (r.above p)
  hung : Hung s p r (root x)
  nodes : (x.labels ++ y.labels ++ r.labels).Nodup
  cells : (addresses (r.left ++ (x.inorder ++ c :: y.inorder) ++ r.right)).Nodup

variable {g : Gap Nat (Cell K V) (Branch K V d)} {r : Route Nat (Cell K V) D (d + 1)}

theorem Ordered.before
    (ordered : Ordered o ((Route.under g r).left ++ (x.inorder ++ c :: y.inorder) ++
      (Route.under g r).right)) : ∀ e ∈ g.before, o.less e.1.key c.key = true := by
  intro e mem
  have front := (List.pairwise_append.mp (List.pairwise_append.mp ordered).1).2.2
  refine front e.1 ?_ c (by simp)
  rw [Route.left, List.mem_append]
  exact .inr (LTree.inorderBefore_perm.mem_iff.mpr
    (List.mem_flatMap.mpr ⟨e, mem, List.mem_cons_self⟩))

theorem Ordered.after
    (ordered : Ordered o ((Route.under g r).left ++ (x.inorder ++ c :: y.inorder) ++
      (Route.under g r).right)) : ∀ e ∈ g.after, o.less c.key e.1.key = true := by
  intro e mem
  refine (List.pairwise_append.mp ordered).2.2 c (by simp) e.1 ?_
  rw [Route.right, List.mem_append]
  exact .inl (List.mem_flatMap.mpr ⟨e, mem, List.mem_cons_self⟩)

theorem lastIs {before : Children K V d} {q : Option Nat} (here : Before s before q) :
    LastIs s.elements (before.map fun e => e.1.address).reverse q := by
  intro b last
  cases before with
  | nil => cases last
  | cons e before =>
    rw [List.map_cons, List.reverse_cons, List.getLast?_concat] at last
    cases last
    exact ⟨_, _, _, here.1⟩

theorem nodeInsert_run {N : Heap BTreeNode} {E : Nat → Option (BTreeElement K V)} {P : Nat}
    {before after : Children K V d} {q q' : Option Nat}
    (block : N.block P = some ⟨q, (before.map fun e => e.1.address).reverse ++
      after.map fun e => e.1.address⟩)
    (precedes : Before ⟨N, E⟩ before (root x)) (follows : After ⟨N, E⟩ q' after)
    (between : Between ⟨N, E⟩ c (root x) (root y))
    (below : ∀ e ∈ before, o.less e.1.key c.key = true)
    (above : ∀ e ∈ after, o.less c.key e.1.key = true)
    (room : before.length + after.length ≤ maxElementsPerNode) :
    ∃ E', nodeInsert o P c.address ⟨N, E⟩ = some ((before.length : Int),
        ⟨N.write P ⟨q, (before.map fun e => e.1.address).reverse ++
          c.address :: after.map fun e => e.1.address⟩, E'⟩) ∧
      (∀ a ∉ addresses ((after.take 1).map Prod.fst), E' a = E a) ∧
      ∀ e ∈ after.take 1, E' e.1.address = some ⟨e.1.key, e.1.value, root y, root e.2⟩ := by
  have sorted : ∀ b ∈ (before.map fun e => e.1.address).reverse,
      ∃ el, E b = some el ∧ o.less el.key c.key = true := by
    intro b mem
    rw [List.mem_reverse, List.mem_map] at mem
    obtain ⟨e, mem, rfl⟩ := mem
    obtain ⟨l, r, live⟩ := before_live precedes e mem
    exact ⟨_, live, below e mem⟩
  have size : (before.map fun e => e.1.address).reverse.length = before.length := by simp
  cases after with
  | nil =>
    rw [List.map_nil, List.append_nil] at block
    refine ⟨E, ?_, fun _ _ => rfl, by simp⟩
    rw [run_nodeInsert_last block (by rw [size]; exact room) between sorted (lastIs precedes), size]
    rfl
  | cons e after =>
    obtain ⟨f, t⟩ := e
    have sorted' : ∀ b ∈ f.address :: after.map fun e => e.1.address,
        ∃ el, E b = some el ∧ o.less c.key el.key = true := by
      intro b mem
      rw [← List.map_cons (f := fun e : Cell K V × Branch K V d => e.1.address) (a := (f, t)),
        List.mem_map] at mem
      obtain ⟨e, mem, rfl⟩ := mem
      obtain ⟨l, r, live⟩ := after_live follows e mem
      exact ⟨_, live, above e mem⟩
    rw [List.map_cons] at block
    refine ⟨_, (run_nodeInsert_before block ?_ between sorted (lastIs precedes) sorted'
      follows.1).trans (by rw [size]; rfl), ?_, ?_⟩
    · rw [List.length_append, List.length_cons, size, List.length_map]
      exact room
    · intro a out
      exact Function.update_of_ne (by simpa [addresses] using out) ..
    · intro e mem
      rw [List.take_succ_cons, List.take_zero, List.mem_singleton] at mem
      subst mem
      exact Function.update_self ..

theorem insert_apart {before after : Children K V d} {P : Nat}
    (cells : (addresses ((Route.under ⟨P, before, after⟩ r).left ++
      (x.inorder ++ c :: y.inorder) ++ (Route.under ⟨P, before, after⟩ r).right)).Nodup) :
    (∀ e ∈ x.inorder ++ c :: y.inorder ++ (LTree.inorderAfter before ++ (r.left ++ r.right)),
        e.address ∉ addresses ((after.take 1).map Prod.fst)) ∧
      (∀ t ∈ (after.take 1).map Prod.snd, ∀ e ∈ t.inorder,
        e.address ∉ addresses ((after.take 1).map Prod.fst)) ∧
      ∀ e ∈ LTree.inorderAfter (after.drop 1),
        e.address ∉ addresses ((after.take 1).map Prod.fst) := by
  obtain ⟨-, apart⟩ := untouched (addresses ((after.take 1).map Prod.fst))
    (addresses (x.inorder ++ c :: y.inorder ++ (LTree.inorderAfter before ++ (r.left ++ r.right)) ++
      ((after.take 1).map Prod.snd).flatMap LTree.inorder ++
      LTree.inorderAfter (after.drop 1))) cells (by
      rw [← addresses_append]
      refine List.Perm.map _ ?_
      classical
      rw [List.perm_iff_count]
      intro e
      cases after with
      | nil =>
        simp only [Route.left, Route.right, List.count_append, LTree.inorderBefore_perm.count_eq,
          LTree.inorderAfter_nil, List.take_nil, List.drop_nil, List.map_nil, List.flatMap_nil,
          List.count_nil]
        omega
      | cons f after =>
        simp only [Route.left, Route.right, List.count_append, LTree.inorderBefore_perm.count_eq,
          List.take_succ_cons, List.take_zero, List.drop_succ_cons, List.drop_zero, List.map_cons,
          List.map_nil, List.flatMap_cons, List.flatMap_nil, List.append_nil,
          LTree.inorderAfter_cons, List.count_cons, List.count_nil]
        omega)
  refine ⟨?_, ?_, ?_⟩
  · intro e mem
    exact apart _ (List.mem_map_of_mem (List.mem_append_left _ (List.mem_append_left _ mem)))
  · intro t mem e inside
    refine apart _ (List.mem_map_of_mem (List.mem_append_left _ (List.mem_append_right _ ?_)))
    exact List.mem_flatMap.mpr ⟨t, mem, inside⟩
  · intro e mem
    exact apart _ (List.mem_map_of_mem (List.mem_append_right _ mem))

theorem nodeInsert_linked (ready : Ready s (.under g r) x c y p)
    (ordered : Ordered o ((Route.under g r).left ++ (x.inorder ++ c :: y.inorder) ++
      (Route.under g r).right)) (room : g.size ≤ maxElementsPerNode) :
    ∃ s', nodeInsert o g.label c.address s = some ((g.before.length : Int), s') ∧
      Proper s' (r.plug (.node (close g.label g.before x ((c, y) :: g.after)))) p ∧
      s'.nodes.next = s.nodes.next := by
  obtain ⟨N, E⟩ := s
  obtain ⟨left, between, right, ⟨block, precedes, follows, up⟩, nodes, cells⟩ := ready
  have below := ordered.before
  have above := ordered.after
  obtain ⟨P, before, after⟩ := g
  obtain ⟨E', run, kept, next⟩ := nodeInsert_run block precedes.1 follows.1 between below above room
  have changed : Within ⟨N, E⟩ ⟨N.write P ⟨r.above p, (before.map fun e => e.1.address).reverse ++
      c.address :: after.map fun e => e.1.address⟩, E'⟩ [P]
      (addresses ((after.take 1).map Prod.fst)) := by
    constructor
    · intro n out
      exact N.block_write_other _ (by simpa using out)
    · exact kept
  obtain ⟨-, apart⟩ := untouched [P]
    (x.labels ++ y.labels ++ (LTree.labelsOf before ++ LTree.labelsOf after ++ r.labels)) nodes (by
      classical
      rw [List.perm_iff_count]
      intro n
      simp only [Route.labels, List.count_append, List.count_cons, List.count_nil]
      omega)
  obtain ⟨apart', nextApart, restApart⟩ := insert_apart cells
  simp only [List.mem_append] at apart apart'
  refine ⟨_, run, ⟨linked_pair.mpr ⟨⟨?_, ?_, ?_, ?_⟩, ?_, ?_, ?_⟩, ?_, ?_⟩, rfl⟩
  · exact Heap.block_write_self block _
  · refine precedes.within changed ?_ ?_
    · exact fun n mem => apart n (.inr (.inl (.inl mem)))
    · exact fun e mem => apart' e (.inr (.inl mem))
  · cases after with
    | nil => exact follows_nil
    | cons f after =>
      obtain ⟨c₁, v⟩ := f
      obtain ⟨-, child, follows⟩ := follows_cons.mp follows
      simp only [LTree.labelsOf_cons, List.mem_append] at apart
      refine follows_cons.mpr ⟨next (c₁, v) List.mem_cons_self, child.within changed ?_ ?_,
        follows.within changed ?_ ?_⟩
      · exact fun n mem => apart n (.inr (.inl (.inr (.inl mem))))
      · exact fun e mem => nextApart v (by simp) e mem
      · exact fun n mem => apart n (.inr (.inl (.inr (.inr mem))))
      · exact fun e mem => restApart e mem
  · refine up.within changed ?_ ?_
    · exact fun n mem => apart n (.inr (.inr mem))
    · exact fun e mem => apart' e (.inr (.inr (List.mem_append.mp mem)))
  · refine left.within changed ?_ ?_
    · exact fun n mem => apart n (.inl (.inl mem))
    · exact fun e mem => apart' e (.inl (.inl mem))
  · refine between.within changed ?_
    exact apart' c (.inl (.inr List.mem_cons_self))
  · refine right.within changed ?_ ?_
    · exact fun n mem => apart n (.inl (.inr mem))
    · exact fun e mem => apart' e (.inl (.inr (List.mem_cons_of_mem _ mem)))
  · refine labels_pair.nodup_iff.mpr (List.Perm.nodup ?_ nodes)
    classical
    rw [List.perm_iff_count]
    intro n
    simp only [Route.labels, List.count_append, List.count_cons]
    omega
  · rw [inorder_pair]
    simpa [Route.left, Route.right] using cells

end Gaps

section Splits

variable {D d n e i : Nat} {s s₁ : Store K V} {p q : Option Nat} {o : KeyOrder K}
  {r : Route Nat (Cell K V) D (d + 1)} {first u : Branch K V d} {m : Cell K V}
  {front back : Children K V d} {N N' : Heap BTreeNode} {E E' : Nat → Option (BTreeElement K V)}

theorem run_newNode : (newNode : Program K V Nat) ⟨N, E⟩ = some (N.next, ⟨N.add ⟨none, []⟩, E⟩) :=
  rfl

theorem run_splitNode {k : K} {v : V} {l l' : Option Nat} {fs bs : List Nat} {m : Nat}
    (inserted : nodeInsert o n e s = some ((i : Int), ⟨N, E⟩))
    (block : N.block n = some ⟨q, fs ++ m :: bs⟩) (half : fs.length = bs.length)
    (room : bs.length ≤ maxElementsPerNode) (middle : E m = some ⟨k, v, l, l'⟩)
    (adopted : adopt N.next bs ⟨(N.add ⟨none, []⟩).write N.next ⟨q, bs⟩,
      Function.update E m (some ⟨k, v, some n, some N.next⟩)⟩ = some ((), ⟨N', E'⟩))
    (kept : N'.block n = some ⟨q, fs ++ m :: bs⟩) :
    splitNode o n e s = some (some (N.next, m), ⟨N'.write n ⟨q, fs⟩, E'⟩) := by
  have old : n ≠ N.next := by
    rintro rfl
    rw [N.block_next] at block
    cases block
  have block' : (N.add ⟨none, []⟩).block n = some ⟨q, fs ++ m :: bs⟩ := by
    rw [Heap.block_add, if_neg old, block]
  have new : (N.add ⟨none, []⟩).block N.next = some ⟨none, []⟩ := by
    rw [Heap.block_add, if_pos rfl]
  have count : (fs ++ m :: bs).length / 2 = fs.length := by
    rw [List.length_append, List.length_cons]
    omega
  have after : (fs ++ m :: bs).drop (fs.length + 1) = bs := by
    rw [← List.drop_drop, List.drop_left' rfl]
    rfl
  have before : (fs ++ m :: bs).take fs.length = fs := List.take_left' rfl
  have mid : (fs ++ m :: bs)[fs.length]? = some m := by simp
  rw [splitNode, run_bind inserted, if_neg (by omega), run_bind run_newNode,
    run_bind (run_node block')]
  simp only [count, after, before, mid]
  rw [run_bind (run_deref m), run_bind (run_setElements new (by omega)),
    run_bind (run_setLeftNode middle _), run_bind (run_setRightNode (Function.update_self ..) _),
    Function.update_idem, run_bind (run_setParentNode (Heap.block_write_self new _) _),
    Heap.write_write, run_bind adopted, run_bind (run_setElements kept (by omega)), run_pure]

theorem splitNode_linked (inserted : nodeInsert o n e s = some ((i : Int), s₁))
    (here : Proper s₁ (r.plug (.node ⟨n, first, front ++ (m, u) :: back⟩)) p)
    (half : front.length = back.length) (any : back ≠ [])
    (room : back.length ≤ maxElementsPerNode) :
    ∃ s', splitNode o n e s = some (some (s₁.nodes.next, m.address), s') ∧
      Ready s' r (.node ⟨n, first, front⟩) m (.node ⟨s₁.nodes.next, u, back⟩) p := by
  obtain ⟨N, E⟩ := s₁
  have live := linked_live here.linked
  have nodes := (Route.labels_plug r _).nodup_iff.mp here.nodes
  have cells := here.cells
  obtain ⟨whole, hung⟩ := linked_plug.mp here.linked
  obtain ⟨block, firstLinked, follows⟩ := linked_node.mp whole
  rw [follows_append, follows_cons] at follows
  obtain ⟨frontLinked, middle, child, backLinked⟩ := follows
  simp only [List.map_append, List.map_cons] at block
  have fresh : N.next ∉ (LTree.node ⟨n, first, front ++ (m, u) :: back⟩).labels ++ r.labels :=
    fun mem => absurd (live _ ((Route.labels_plug r _).mem_iff.mpr mem)) (Nat.lt_irrefl _)
  have distinct := List.nodup_cons.mpr ⟨fresh, nodes⟩
  obtain ⟨touched, apart⟩ := untouched (N.next :: n :: (u.labels ++ LTree.labelsOf back))
    (first.labels ++ LTree.labelsOf front ++ r.labels) distinct (by
      classical
      rw [List.perm_iff_count]
      intro b
      simp only [LTree.labels_node, LTree.labelsOf_append, LTree.labelsOf_cons, List.count_append,
        List.count_cons]
      omega)
  have parts : (r.plug (.node ⟨n, first, front ++ (m, u) :: back⟩)).inorder.Perm
      (m :: (first.inorder ++ LTree.inorderAfter front ++ (u.inorder ++
        LTree.inorderAfter back) ++ (r.left ++ r.right))) := by
    classical
    rw [Route.inorder_plug, List.perm_iff_count]
    intro e
    simp only [LTree.inorder_node, LTree.inorderAfter_append, LTree.inorderAfter_cons,
      List.count_append, List.count_cons]
    omega
  obtain ⟨-, apart'⟩ := untouched [m.address] _ cells (parts.map Cell.address)
  replace apart' : ∀ c ∈ first.inorder ++ LTree.inorderAfter front ++ (u.inorder ++
      LTree.inorderAfter back) ++ (r.left ++ r.right), c.address ∉ [m.address] :=
    fun c mem => apart' _ (List.mem_map_of_mem mem)
  simp only [List.mem_append] at apart apart'
  obtain ⟨freshChild, touched⟩ := List.nodup_cons.mp touched
  obtain ⟨apartChild, below⟩ := List.nodup_cons.mp touched
  have changed : Within ⟨N, E⟩ ⟨(N.add ⟨none, []⟩).write N.next ⟨r.above p,
      back.map fun e => e.1.address⟩, Function.update E m.address
        (some ⟨m.key, m.value, some n, some N.next⟩)⟩ [N.next] [m.address] := by
    constructor
    · intro b out
      have other : b ≠ N.next := by simpa using out
      rw [Heap.block_write_other _ _ other, Heap.block_add, if_neg other]
    · intro b out
      exact Function.update_of_ne (by simpa using out) ..
  have freshNode : ∀ b ∈ u.labels ++ LTree.labelsOf back, b ∉ [N.next] := by
    intro b mem
    rw [List.mem_singleton]
    rintro rfl
    exact freshChild (List.mem_cons_of_mem _ mem)
  simp only [List.mem_append] at freshNode
  obtain ⟨⟨N', E'⟩, adopted, linked, followed, within⟩ := adopt_linked
    (child.within changed (fun b mem => freshNode b (.inl mem))
      fun c mem => apart' c (.inl (.inr (.inl mem))))
    (backLinked.within changed (fun b mem => freshNode b (.inr mem))
      fun c mem => apart' c (.inl (.inr (.inr mem)))) any below N.next
  obtain rfl : E' = _ := within.elements_eq
  have kept : N'.block n = some ⟨r.above p, front.map (fun e => e.1.address) ++
      m.address :: back.map fun e => e.1.address⟩ := by
    refine (within.nodes n apartChild).trans ((changed.nodes n ?_).trans block)
    rw [List.mem_singleton]
    rintro rfl
    exact freshChild List.mem_cons_self
  have run := run_splitNode inserted block (by simpa using half) (by simpa using room) middle
    adopted kept
  have last : Within ⟨N', Function.update E m.address
      (some ⟨m.key, m.value, some n, some N.next⟩)⟩
      ⟨N'.write n ⟨r.above p, front.map fun e => e.1.address⟩, Function.update E m.address
        (some ⟨m.key, m.value, some n, some N.next⟩)⟩ [n] [] := by
    constructor
    · exact fun b out => N'.block_write_other _ (by simpa using out)
    · exact fun b out => rfl
  have all := ((changed.mono (show [N.next] ⊆ N.next :: n :: (u.labels ++ LTree.labelsOf back) by simp)
    (List.Subset.refl _)).andThen within (by simp) (List.nil_subset _)).andThen last
    (by simp) (List.nil_subset _)
  refine ⟨_, run, ⟨linked_node.mpr ⟨Heap.block_write_self kept _, firstLinked.within all ?_ ?_,
    frontLinked.within all ?_ ?_⟩, Function.update_self .., linked_node.mpr ⟨?_,
    linked.within last ?_ ?_, followed.within last ?_ ?_⟩, hung.within all ?_ ?_, ?_, ?_⟩⟩
  · exact fun b mem => apart b (.inl (.inl mem))
  · exact fun c mem => apart' c (.inl (.inl (.inl mem)))
  · exact fun b mem => apart b (.inl (.inr mem))
  · exact fun c mem => apart' c (.inl (.inl (.inr mem)))
  · refine (last.nodes N.next ?_).trans ((within.nodes N.next ?_).trans ?_)
    · rw [List.mem_singleton]
      rintro same
      exact freshChild (same ▸ List.mem_cons_self)
    · exact fun mem => freshChild (List.mem_cons_of_mem _ mem)
    · exact Heap.block_write_self (by rw [Heap.block_add, if_pos rfl]) _
  · intro b mem
    rw [List.mem_singleton]
    rintro rfl
    exact apartChild (List.mem_append_left _ mem)
  · exact fun c _ => List.not_mem_nil
  · intro b mem
    rw [List.mem_singleton]
    rintro rfl
    exact apartChild (List.mem_append_right _ mem)
  · exact fun c _ => List.not_mem_nil
  · exact fun b mem => apart b (.inr mem)
  · exact fun c mem => apart' c (.inr (List.mem_append.mp mem))
  · refine List.Perm.nodup ?_ distinct
    classical
    rw [List.perm_iff_count]
    intro b
    simp only [LTree.labels_node, LTree.labelsOf_append, LTree.labelsOf_cons, List.count_append,
      List.count_cons]
    omega
  · rw [Route.inorder_plug] at cells
    simpa using cells

end Splits

section Rounds

theorem exists_middle {α : Type} {l : List α} {k j : Nat} (length : l.length = k + 1 + j) :
    ∃ front m back, l = front ++ m :: back ∧ front.length = k ∧ back.length = j := by
  refine ⟨l.take k, l[k], l.drop (k + 1), ?_, ?_, ?_⟩
  · rw [← List.drop_eq_getElem_cons, List.take_append_drop]
  · rw [List.length_take]
    omega
  · rw [List.length_drop]
    omega

variable {D d k : Nat} {s : Store K V} {p : Option Nat} {o : KeyOrder K}
  {r : Route Nat (Cell K V) D (d + 1)} {g : Gap Nat (Cell K V) (Branch K V d)}
  {x y : Branch K V d} {c : Cell K V}

theorem gap_block (ready : Ready s (.under g r) x c y p) :
    ∃ es, s.nodes.block g.label = some ⟨r.above p, es⟩ ∧ es.length = g.size := by
  refine ⟨_, ready.hung.1, ?_⟩
  simp [Gap.size]

theorem insertElement_room (k top : Nat) (ready : Ready s (.under g r) x c y p)
    (ordered : Ordered o ((Route.under g r).left ++ (x.inorder ++ c :: y.inorder) ++
      (Route.under g r).right)) (room : g.size < maxElementsPerNode) :
    ∃ s', insertElement o (k + 1) top (some g.label) c.address s = some ((top, true), s') ∧
      Proper s' (r.plug (.node (close g.label g.before x ((c, y) :: g.after)))) p := by
  obtain ⟨s', run, proper, -⟩ := nodeInsert_linked ready ordered (Nat.le_of_lt room)
  obtain ⟨es, block, size⟩ := gap_block ready
  refine ⟨s', ?_, proper⟩
  rw [insertElement, run_bind (run_node block), if_pos (size ▸ room), run_bind run, run_pure]
  simp

theorem insertElement_split (k top : Nat) (ready : Ready s (.under g r) x c y p)
    (ordered : Ordered o ((Route.under g r).left ++ (x.inorder ++ c :: y.inorder) ++
      (Route.under g r).right)) (full : g.size = maxElementsPerNode)
    (sized : (∀ e ∈ g.before, LTree.Sized minElementsPerNode maxElementsPerNode e.2) ∧
      x.Sized minElementsPerNode maxElementsPerNode ∧
      ∀ e ∈ (c, y) :: g.after, LTree.Sized minElementsPerNode maxElementsPerNode e.2) :
    ∃ s', ∃ x' : Branch K V (d + 1), ∃ m, ∃ y' : Branch K V (d + 1), ∃ new,
      Ready s' r x' m y' p ∧ root x' = some g.label ∧ root y' = some new ∧
      x'.Sized minElementsPerNode maxElementsPerNode ∧
      y'.Sized minElementsPerNode maxElementsPerNode ∧
      x'.inorder ++ m :: y'.inorder =
        LTree.inorderBefore g.before ++ (x.inorder ++ c :: y.inorder) ++
          LTree.inorderAfter g.after ∧
      insertElement o (k + 1) top (some g.label) c.address s =
        (match r.above p with
        | some p => insertElement o k top (some p) m.address
        | none => do
          let root ← newNode
          setParentNode g.label (some root)
          setParentNode new (some root)
          insertElement o k root (some root) m.address) s' := by
  obtain ⟨s₁, run, proper, -⟩ := nodeInsert_linked ready ordered (Nat.le_of_eq full)
  obtain ⟨es, block, size⟩ := gap_block ready
  have least : minElementsPerNode = 16 := rfl
  have most : maxElementsPerNode = 32 := rfl
  have label : (close g.label g.before x ((c, y) :: g.after)).label = g.label := close_label
  have length : (close g.label g.before x ((c, y) :: g.after)).rest.length = _ := close_length
  have inorder : (LTree.node (close g.label g.before x ((c, y) :: g.after))).inorder = _ :=
    LTree.inorder_close
  have all := (close_all (l := g.label)).mpr sized
  generalize close g.label g.before x ((c, y) :: g.after) = row at *
  obtain ⟨n, first, rest⟩ := row
  obtain rfl : n = g.label := label
  simp only [Gap.size, List.length_cons] at full length
  obtain ⟨front, ⟨m, u⟩, back, rfl, before, after⟩ := exists_middle (l := rest) (k := 16) (j := 16)
    (by omega)
  obtain ⟨firstSized, others⟩ := all
  rw [List.forall_mem_append, List.forall_mem_cons] at others
  obtain ⟨s', split, ready'⟩ := splitNode_linked run proper (before.trans after.symm)
    (by rintro rfl; cases after) (by omega)
  refine ⟨s', _, m, _, _, ready', rfl, rfl, ?_, ?_, ?_, ?_⟩
  · exact LTree.sized_node.mpr ⟨by simp only; omega, firstSized, others.1⟩
  · exact LTree.sized_node.mpr ⟨by simp only; omega, others.2.1, others.2.2⟩
  · simpa using inorder
  · have kept : s'.nodes.block g.label = some ⟨r.above p, _⟩ := (linked_node.mp ready'.left).1
    rw [insertElement, run_bind (run_node block), if_neg (by rw [size, Gap.size]; omega),
      run_bind split, run_bind (run_deref _)]
    simp only
    rw [run_bind (run_node kept)]
    cases r.above p with
    | none => rfl
    | some P => rfl

theorem newRoot_linked {x y : Branch K V D} {n new : Nat} {m : Cell K V}
    (ready : Ready s .top x m y none) (left : root x = some n) (right : root y = some new) :
    ∃ s', (do
        let root ← newNode
        setParentNode n (some root)
        setParentNode new (some root)
        insertElement o k root (some root) m.address : Program K V (Nat × Bool)) s =
      insertElement o k s.nodes.next (some s.nodes.next) m.address s' ∧
      Ready s' (.under ⟨s.nodes.next, [], []⟩ .top) x m y none := by
  obtain ⟨N, E⟩ := s
  obtain ⟨leftLinked, between, rightLinked, -, nodes, cells⟩ := ready
  simp only [Route.labels, List.append_nil] at nodes
  obtain ⟨leftNodes, rightNodes, apart⟩ := List.nodup_append.mp nodes
  have oldLeft := linked_live leftLinked
  have oldRight := linked_live rightLinked
  have added : Within ⟨N, E⟩ ⟨N.add ⟨none, []⟩, E⟩ [N.next] [] := by
    constructor
    · intro b out
      rw [Heap.block_add, if_neg (by simpa using out)]
    · exact fun b _ => rfl
  obtain ⟨s₁, run₁, linked₁, within₁⟩ := adoptChild_linked
    (leftLinked.within added (fun b mem => by simpa using Nat.ne_of_lt (oldLeft b mem)) (by simp))
    leftNodes N.next
  have kept := rightLinked.within added
    (fun b mem => by simpa using Nat.ne_of_lt (oldRight b mem)) (by simp)
  obtain ⟨s₂, run₂, linked₂, within₂⟩ := adoptChild_linked
    (kept.within within₁ (fun b mem there => apart b there b mem rfl) (by simp)) rightNodes N.next
  rw [left, adoptChild] at run₁
  rw [right, adoptChild] at run₂
  have freshLeft : N.next ∉ x.labels := fun mem => Nat.lt_irrefl _ (oldLeft _ mem)
  have freshRight : N.next ∉ y.labels := fun mem => Nat.lt_irrefl _ (oldRight _ mem)
  refine ⟨s₂, ?_, ?_, ?_, linked₂, ⟨?_, precedes_nil, follows_nil, trivial⟩, ?_, ?_⟩
  · rw [run_bind run_newNode, run_bind run₁, run_bind run₂]
  · exact linked₁.within within₂ (fun b mem there => apart b mem b there rfl) (by simp)
  · exact ((between.within added (by simp)).within within₁ (by simp)).within within₂ (by simp)
  · refine (within₂.nodes _ freshRight).trans ((within₁.nodes _ freshLeft).trans ?_)
    rw [Heap.block_add, if_pos rfl]
    rfl
  · simp only [Route.labels, LTree.labelsOf_nil, List.append_nil]
    refine List.nodup_append.mpr ⟨nodes, List.nodup_singleton _, ?_⟩
    rintro a mem b there rfl
    rw [List.mem_singleton] at there
    rcases List.mem_append.mp (there ▸ mem) with mem | mem
    · exact freshLeft mem
    · exact freshRight mem
  · simpa [Route.left, Route.right] using cells

end Rounds

section Recursion

variable {D d k top : Nat} {s : Store K V} {p : Option Nat} {o : KeyOrder K}

def Full {D : Nat} : {d : Nat} → Route Nat (Cell K V) D d → Prop
  | _, .top => True
  | _, .under g r => g.size = maxElementsPerNode ∧ Full r

structure Grown {E : Nat} (s' : Store K V) (T : Branch K V E) (top : Nat) (p : Option Nat)
    (cells : List (Cell K V)) : Prop where
  proper : Proper s' T p
  top : root T = some top
  inorder : T.inorder = cells
  sized : T.RootSized minElementsPerNode maxElementsPerNode

theorem plug_pair_inorder {r : Route Nat (Cell K V) D (d + 1)} {g : Gap Nat (Cell K V) (Branch K V d)}
    {x y : Branch K V d} {c : Cell K V} :
    (r.plug (.node (close g.label g.before x ((c, y) :: g.after)))).inorder =
      (Route.under g r).left ++ (x.inorder ++ c :: y.inorder) ++ (Route.under g r).right := by
  rw [inorder_pair]
  simp [Route.left, Route.right]

theorem insertElement_first (k top : Nat) {x y : Branch K V d} {n : Nat} {c : Cell K V}
    (ready : Ready s (.under ⟨n, [], []⟩ (.top : Route Nat (Cell K V) (d + 1) (d + 1))) x c y p)
    (ordered : Ordered o (x.inorder ++ c :: y.inorder))
    (left : x.Sized minElementsPerNode maxElementsPerNode)
    (right : y.Sized minElementsPerNode maxElementsPerNode) :
    ∃ s', ∃ T : Branch K V (d + 1),
      insertElement o (k + 1) top (some n) c.address s = some ((top, true), s') ∧
      Grown s' T n p (x.inorder ++ c :: y.inorder) := by
  obtain ⟨s', run, proper⟩ := insertElement_room k top ready
    (by simpa [Route.left, Route.right] using ordered) (Nat.succ_pos 31)
  refine ⟨s', _, run, proper, rfl, ?_, ?_⟩
  · rw [plug_pair_inorder]
    simp [Route.left, Route.right]
  · refine LTree.rootSized_node.mpr ⟨⟨fun _ => ?_, ?_⟩, left, ?_⟩
    · exact Nat.le_refl 1
    · exact Nat.succ_pos 31
    · exact List.forall_mem_singleton.mpr right

theorem insertElement_linked (r : Route Nat (Cell K V) D d) {x y : Branch K V d} {c : Cell K V}
    {n : Nat} (ready : Ready s r x c y p) (below : r.above none = some n)
    (ordered : Ordered o (r.left ++ (x.inorder ++ c :: y.inorder) ++ r.right))
    (topNode : root (r.plug x) = some top)
    (sized : r.Sized minElementsPerNode maxElementsPerNode)
    (left : x.Sized minElementsPerNode maxElementsPerNode)
    (right : y.Sized minElementsPerNode maxElementsPerNode) (free : p = none ∨ ¬ Full r)
    (fuel : r.length < k) :
    ∃ s' E top', ∃ T : Branch K V E,
      insertElement o k top (some n) c.address s = some ((top', true), s') ∧
      Grown s' T top' p (r.left ++ (x.inorder ++ c :: y.inorder) ++ r.right) := by
  obtain ⟨k, rfl⟩ := Nat.exists_eq_succ_of_ne_zero (Nat.ne_of_gt (Nat.zero_lt_of_lt fuel))
  induction r generalizing s c n k with
  | top => cases below
  | @under d g r ih =>
    cases below
    obtain ⟨⟨least, enough, most⟩, ⟨front, back⟩, up⟩ := id sized
    rcases Nat.lt_or_ge g.size maxElementsPerNode with room | full
    · obtain ⟨s', run, proper⟩ := insertElement_room k top ready ordered room
      have children : (close g.label g.before x ((c, y) :: g.after)).All
          (LTree.Sized minElementsPerNode maxElementsPerNode) :=
        close_all.mpr ⟨front, left, List.forall_mem_cons.mpr ⟨right, back⟩⟩
      have size : (close g.label g.before x ((c, y) :: g.after)).rest.length = g.size + 1 :=
        close_length
      refine ⟨s', _, top, _, run, proper, ?_, plug_pair_inorder, ?_⟩
      · rw [← topNode]
        apply root_plug
        rw [Gap.fill, root_node, root_node, close_label, close_label]
      · refine Route.rootSized_plug up (fun inner => LTree.sized_node.mpr ⟨?_, children⟩)
          fun _ => LTree.rootSized_node.mpr ⟨?_, children⟩
        · have := enough inner
          rw [size]
          omega
        · rw [size]
          omega
    · have full := Nat.le_antisymm most full
      obtain ⟨s', x', m, y', new, ready', left', right', leftSized, rightSized, inorder, run⟩ :=
        insertElement_split k top ready ordered full
          ⟨front, left, List.forall_mem_cons.mpr ⟨right, back⟩⟩
      have same : r.left ++ (x'.inorder ++ m :: y'.inorder) ++ r.right =
          (Route.under g r).left ++ (x.inorder ++ c :: y.inorder) ++ (Route.under g r).right := by
        rw [inorder]
        simp [Route.left, Route.right]
      rw [← same] at ordered ⊢
      rw [run]
      cases r with
      | top =>
        obtain rfl : p = none := free.resolve_right fun more => more ⟨full, trivial⟩
        obtain ⟨s₁, run₁, ready₁⟩ := newRoot_linked (k := k) (o := o) ready' left' right'
        cases k with
        | zero => exact absurd fuel (by simp [Route.length])
        | succ k =>
        obtain ⟨s₂, T, run₂, grown⟩ := insertElement_first k s'.nodes.next ready₁
          (by simpa [Route.left, Route.right] using ordered) leftSized rightSized
        exact ⟨s₂, _, _, T, run₁.trans run₂, by simpa [Route.left, Route.right] using grown⟩
      | under g' r =>
        cases k with
        | zero => exact absurd fuel (by simp [Route.length])
        | succ k =>
        refine ih (k := k) ready' rfl ordered ?_ up leftSized rightSized ?_ ?_
        · rw [← topNode]
          apply root_plug
          rw [Gap.fill, left', root_node, close_label]
        · exact free.imp_right fun more all => more ⟨full, all⟩
        · rw [Route.length] at fuel
          omega

end Recursion

end BTree
