import UpanLibs.Ds.BTreeLinked

/-!
`Rebalance` of a tree in which one node has an element too few.
-/
namespace BTree
open Memory (Heap)
open LevelTree

variable {K V : Type} {N : Heap BTreeNode} {E : Nat → Option (BTreeElement K V)}

section Moves

variable {a b c e l : Nat} {p q : Option Nat} {ls rs : List Nat} {kc ke kl : K} {vc ve vl : V}
  {x y u v w z : Option Nat}

theorem run_borrowFromRight (left : N.block a = some ⟨p, ls ++ [l]⟩)
    (right : N.block b = some ⟨q, e :: rs⟩) (apart : a ≠ b) (parent : E c = some ⟨kc, vc, x, y⟩)
    (first : E e = some ⟨ke, ve, u, v⟩) (last : E l = some ⟨kl, vl, w, z⟩) (hec : e ≠ c)
    (hle : l ≠ e) (hlc : l ≠ c) (room : ls.length + 1 ≤ maxElementsPerNode)
    (room' : rs.length ≤ maxElementsPerNode) :
    borrowFromRight a b c ⟨N, E⟩ = adoptChild a u
      ⟨(N.write b ⟨q, rs⟩).write a ⟨p, ls ++ [l] ++ [e]⟩, Function.update
        (Function.update E c (some ⟨ke, ve, x, y⟩)) e (some ⟨kc, vc, z, u⟩)⟩ := by
  have removed : (removeByIndex b 0 : Program K V (Option Nat)) ⟨N, E⟩ =
      some (some e, ⟨N.write b ⟨q, rs⟩, E⟩) :=
    run_removeByIndex right rfl (by rw [List.length_cons]; omega)
  have left' : (N.write b ⟨q, rs⟩).block a = some ⟨p, ls ++ [l]⟩ := by
    rw [N.block_write_other _ apart, left]
  have last' : (ls ++ [l]).getLast? = some l := List.getLast?_concat
  have kept : ∀ el, Function.update (Function.update E c (some ⟨ke, ve, x, y⟩)) e el l =
      some ⟨kl, vl, w, z⟩ := by
    intro el
    rw [Function.update_of_ne hle, Function.update_of_ne hlc, last]
  have stored : (ls ++ [l] ++ [e]).length ≤ maxElementsPerNode + 1 := by
    simp only [List.length_append, List.length_singleton]
    omega
  rw [borrowFromRight, run_bind removed, run_bind (run_deref e),
    run_bind (run_swapElement parent first hec), run_bind (run_node left'), last',
    run_bind (run_deref l), run_bind (run_element (Function.update_self ..)),
    run_bind (run_setRightNode (Function.update_self ..) _), Function.update_idem,
    run_bind (run_element (kept _)), run_bind (run_setLeftNode (Function.update_self ..) _),
    Function.update_idem, run_bind (run_setElements left' stored),
    run_bind (run_element (Function.update_self ..))]

theorem run_borrowFromLeft (left : N.block a = some ⟨p, ls ++ [l]⟩)
    (right : N.block b = some ⟨q, e :: rs⟩) (apart : a ≠ b) (parent : E c = some ⟨kc, vc, x, y⟩)
    (first : E e = some ⟨ke, ve, u, v⟩) (last : E l = some ⟨kl, vl, w, z⟩) (hec : e ≠ c)
    (hle : l ≠ e) (hlc : l ≠ c) (room : ls.length ≤ maxElementsPerNode)
    (room' : rs.length + 1 ≤ maxElementsPerNode) :
    borrowFromLeft a b c ⟨N, E⟩ = adoptChild b z
      ⟨(N.write a ⟨p, ls⟩).write b ⟨q, l :: e :: rs⟩, Function.update
        (Function.update E c (some ⟨kl, vl, x, y⟩)) l (some ⟨kc, vc, z, u⟩)⟩ := by
  have at_ : (ls ++ [l])[(ls ++ [l]).length - 1]? = some l := by simp
  have erased : (ls ++ [l]).eraseIdx ((ls ++ [l]).length - 1) = ls := by
    simp [List.eraseIdx_append_of_length_le]
  have removed := run_removeByIndex (E := E) left at_
    (by rw [List.length_append, List.length_singleton]; omega)
  rw [erased] at removed
  have right' : (N.write a ⟨p, ls⟩).block b = some ⟨q, e :: rs⟩ := by
    rw [N.block_write_other _ apart.symm, right]
  have kept : ∀ el, Function.update (Function.update E c (some ⟨kl, vl, x, y⟩)) l el e =
      some ⟨ke, ve, u, v⟩ := by
    intro el
    rw [Function.update_of_ne hle.symm, Function.update_of_ne hec, first]
  have stored : (l :: e :: rs).length ≤ maxElementsPerNode + 1 := by
    simp only [List.length_cons]
    omega
  rw [borrowFromLeft, run_bind (run_node left), run_bind removed, run_bind (run_deref l),
    run_bind (run_swapElement parent last hlc), run_bind (run_node right'), List.head?_cons,
    run_bind (run_deref e), run_bind (run_element (Function.update_self ..)),
    run_bind (run_setLeftNode (Function.update_self ..) _), Function.update_idem,
    run_bind (run_element (kept _)), run_bind (run_setRightNode (Function.update_self ..) _),
    Function.update_idem, run_bind (run_setElements right' stored),
    run_bind (run_element (Function.update_self ..))]

theorem run_join {N' : Heap BTreeNode} (left : N.block a = some ⟨p, ls ++ [l]⟩)
    (right : N.block b = some ⟨q, e :: rs⟩) (adopted : adopt a (e :: rs) ⟨N, E⟩ = some ((), ⟨N', E⟩))
    (left' : N'.block a = some ⟨p, ls ++ [l]⟩) (parent : E c = some ⟨kc, vc, x, y⟩)
    (first : E e = some ⟨ke, ve, u, v⟩) (last : E l = some ⟨kl, vl, w, z⟩) (hec : e ≠ c)
    (room : ls.length + rs.length + 2 ≤ maxElementsPerNode) :
    join a b c ⟨N, E⟩ = some ((), ⟨N'.write a ⟨p, ls ++ [l] ++ c :: e :: rs⟩,
      Function.update E c (some ⟨kc, vc, z, u⟩)⟩) := by
  have last' : (ls ++ [l]).getLast? = some l := List.getLast?_concat
  have kept : ∀ el, Function.update E c el e = some ⟨ke, ve, u, v⟩ := by
    intro el
    rw [Function.update_of_ne hec, first]
  have stored : (ls ++ [l] ++ c :: e :: rs).length ≤ maxElementsPerNode + 1 := by
    simp only [List.length_append, List.length_cons, List.length_nil]
    omega
  rw [join, run_bind (run_node left), run_bind (run_node right), run_bind adopted, last',
    run_bind (run_deref l), run_bind (run_element last), run_bind (run_setLeftNode parent _),
    List.head?_cons, run_bind (run_deref e), run_bind (run_element (kept _)),
    run_bind (run_setRightNode (Function.update_self ..) _), Function.update_idem,
    run_setElements left' stored]

end Moves
section Levels
variable {d : Nat} {s : Store K V} {p q : Option Nat} {a b : Nat} {xf yf : Branch K V d}
  {xs ys : Children K V d} {l e : Cell K V × Branch K V d} {c : Cell K V}

theorem within_update (N : Heap BTreeNode) (E : Nat → Option (BTreeElement K V)) {a b c e : Nat}
    (na nb : BTreeNode) (x y : Option (BTreeElement K V)) : Within ⟨N, E⟩
      ⟨(N.write b nb).write a na, Function.update (Function.update E c x) e y⟩ [a, b] [c, e] := by
  constructor
  · intro n out
    simp only [List.mem_cons, List.not_mem_nil, or_false, not_or] at out
    simp only [Heap.block_write_other _ _ out.1, Heap.block_write_other _ _ out.2]
  · intro n out
    simp only [List.mem_cons, List.not_mem_nil, or_false, not_or] at out
    simp only [Function.update_of_ne out.1, Function.update_of_ne out.2]

theorem untouched {α : Type} {all : List α} (touched rest : List α) (nodup : all.Nodup)
    (parts : all.Perm (touched ++ rest)) : touched.Nodup ∧ ∀ n ∈ rest, n ∉ touched := by
  rw [parts.nodup_iff, List.nodup_append] at nodup
  exact ⟨nodup.1, fun n mem here => nodup.2.2 n here n mem rfl⟩

theorem borrowFromRight_linked (left : Linked s (.node ⟨a, xf, xs ++ [l]⟩) p)
    (right : Linked s (.node ⟨b, yf, e :: ys⟩) q) (between : Between s c (some a) (some b))
    (nodes : ((LTree.node ⟨a, xf, xs ++ [l]⟩).labels ++
      (LTree.node ⟨b, yf, e :: ys⟩).labels).Nodup)
    (cells : (addresses ((LTree.node ⟨a, xf, xs ++ [l]⟩).inorder ++
      c :: (LTree.node ⟨b, yf, e :: ys⟩).inorder)).Nodup)
    (room : xs.length + 1 ≤ maxElementsPerNode) (room' : ys.length ≤ maxElementsPerNode) :
    ∃ s', borrowFromRight a b c.address s = some ((), s') ∧
      Linked s' (.node ⟨a, xf, xs ++ [l] ++ [(⟨e.1.address, c.key, c.value⟩, yf)]⟩) p ∧
      Linked s' (.node ⟨b, e.2, ys⟩) q ∧
      Between s' ⟨c.address, e.1.key, e.1.value⟩ (some a) (some b) ∧
      Within s s' (a :: b :: yf.labels) [c.address, e.1.address] := by
  obtain ⟨N, E⟩ := s
  obtain ⟨lc, lt⟩ := l
  obtain ⟨ec, et⟩ := e
  simp only [linked_node, follows_append, follows_cons, List.map_append, List.map_cons,
    List.map_nil] at left right
  obtain ⟨block, first, follows, last, child, -⟩ := left
  obtain ⟨block', first', head, child', follows'⟩ := right
  obtain ⟨distinct, apart⟩ := untouched (a :: b :: yf.labels)
    (xf.labels ++ LTree.labelsOf xs ++ lt.labels ++ et.labels ++ LTree.labelsOf ys)
    nodes (by
      classical
      rw [List.perm_iff_count]
      intro n
      simp [List.count_cons]
      omega)
  obtain ⟨distinct', apart'⟩ := untouched [c.address, ec.address]
    (addresses (lc :: (xf.inorder ++ LTree.inorderAfter xs ++ lt.inorder ++
      yf.inorder ++ et.inorder ++ LTree.inorderAfter ys))) cells (by
      classical
      rw [List.perm_iff_count]
      intro n
      simp [List.count_cons, addresses]
      omega)
  simp only [List.nodup_cons, List.mem_cons, not_or, List.not_mem_nil, not_false_iff,
    true_and] at distinct distinct'
  have hlc := apart' lc.address (by simp [addresses])
  simp only [List.mem_cons, not_or, List.not_mem_nil, not_false_iff, and_true] at hlc
  have run := run_borrowFromRight (c := c.address) block block' distinct.1.1 between head last
    (Ne.symm (by simpa using distinct'.1)) hlc.2 hlc.1 (by simpa) (by simpa)
  have changed := within_update N E (a := a) (b := b) (c := c.address) (e := ec.address)
    ⟨p, xs.map (fun e => e.1.address) ++ [lc.address] ++ [ec.address]⟩
    ⟨q, ys.map fun e => e.1.address⟩ (some ⟨ec.key, ec.value, some a, some b⟩)
    (some ⟨c.key, c.value, root lt, root yf⟩)
  have moved := first'.within changed
    (fun n mem => by
      have := distinct.2.1
      simp only [List.mem_cons, List.not_mem_nil, or_false]
      grind)
    (fun n mem => apart' _ (by simp [addresses]; grind))
  obtain ⟨s', adopted, linked, within⟩ := adoptChild_linked moved distinct.2.2 a
  have all : Within _ s' (a :: b :: yf.labels) [c.address, ec.address] :=
    changed.trans within (by simp) (by simp) (fun _ mem => mem) (by simp)
  have elements := within.elements_eq
  refine ⟨s', run.trans adopted, ?_, ?_, ?_, all⟩
  · rw [linked_node, follows_append, follows_append, follows_cons, follows_cons]
    refine ⟨?_, first.within all ?_ ?_, ⟨follows.within all ?_ ?_, last.within all ?_,
      child.within all ?_ ?_, follows_nil⟩, ?_, linked, follows_nil⟩
    · rw [within.nodes a (by grind),
        Heap.block_write_self ((N.block_write_other _ (by grind)).trans block)]
      simp
    · exact fun n mem => apart n (by simp [mem])
    · exact fun n mem => apart' n.address (by simp [addresses]; grind)
    · exact fun n mem => apart n (by simp [mem])
    · exact fun n mem => apart' n.address (by simp [addresses]; grind)
    · exact apart' lc.address (by simp [addresses])
    · exact fun n mem => apart n (by simp [mem])
    · exact fun n mem => apart' n.address (by simp [addresses]; grind)
    · simp [Between, elements, lastRoot]
  · rw [linked_node]
    refine ⟨?_, child'.within all ?_ ?_, follows'.within all ?_ ?_⟩
    · rw [within.nodes b (by grind)]
      simp
      rw [Heap.block_write_other _ _ (by grind), Heap.block_write_self block']
    · exact fun n mem => apart n (by simp [mem])
    · exact fun n mem => apart' n.address (by simp [addresses]; grind)
    · exact fun n mem => apart n (by simp [mem])
    · exact fun n mem => apart' n.address (by simp [addresses]; grind)
  · rw [Between, elements]
    simp
    grind

theorem borrowFromLeft_linked (left : Linked s (.node ⟨a, xf, xs ++ [l]⟩) p)
    (right : Linked s (.node ⟨b, yf, e :: ys⟩) q) (between : Between s c (some a) (some b))
    (nodes : ((LTree.node ⟨a, xf, xs ++ [l]⟩).labels ++
      (LTree.node ⟨b, yf, e :: ys⟩).labels).Nodup)
    (cells : (addresses ((LTree.node ⟨a, xf, xs ++ [l]⟩).inorder ++
      c :: (LTree.node ⟨b, yf, e :: ys⟩).inorder)).Nodup)
    (room : xs.length ≤ maxElementsPerNode) (room' : ys.length + 1 ≤ maxElementsPerNode) :
    ∃ s', borrowFromLeft a b c.address s = some ((), s') ∧
      Linked s' (.node ⟨a, xf, xs⟩) p ∧
      Linked s' (.node ⟨b, l.2, (⟨l.1.address, c.key, c.value⟩, yf) :: e :: ys⟩) q ∧
      Between s' ⟨c.address, l.1.key, l.1.value⟩ (some a) (some b) ∧
      Within s s' (a :: b :: l.2.labels) [c.address, l.1.address] := by
  obtain ⟨N, E⟩ := s
  obtain ⟨lc, lt⟩ := l
  obtain ⟨ec, et⟩ := e
  simp only [linked_node, follows_append, follows_cons, List.map_append, List.map_cons,
    List.map_nil] at left right
  obtain ⟨block, first, follows, last, child, -⟩ := left
  obtain ⟨block', first', head, child', follows'⟩ := right
  obtain ⟨distinct, apart⟩ := untouched (a :: b :: lt.labels)
    (xf.labels ++ LTree.labelsOf xs ++ yf.labels ++ et.labels ++ LTree.labelsOf ys)
    nodes (by
      classical
      rw [List.perm_iff_count]
      intro n
      simp [List.count_cons]
      omega)
  obtain ⟨distinct', apart'⟩ := untouched [c.address, lc.address]
    (addresses (ec :: (xf.inorder ++ LTree.inorderAfter xs ++ lt.inorder ++
      yf.inorder ++ et.inorder ++ LTree.inorderAfter ys))) cells (by
      classical
      rw [List.perm_iff_count]
      intro n
      simp [List.count_cons, addresses]
      omega)
  simp only [List.nodup_cons, List.mem_cons, not_or, List.not_mem_nil, not_false_iff,
    true_and] at distinct distinct'
  have hec := apart' ec.address (by simp [addresses])
  simp only [List.mem_cons, not_or, List.not_mem_nil, not_false_iff, and_true] at hec
  have run := run_borrowFromLeft (c := c.address) block block' distinct.1.1 between head last
    hec.1 (Ne.symm hec.2) (Ne.symm (by simpa using distinct'.1)) (by simpa) (by simpa)
  have changed := within_update N E (a := b) (b := a) (c := c.address) (e := lc.address)
    ⟨q, lc.address :: ec.address :: ys.map fun e => e.1.address⟩
    ⟨p, xs.map fun e => e.1.address⟩ (some ⟨lc.key, lc.value, some a, some b⟩)
    (some ⟨c.key, c.value, root lt, root yf⟩)
  have moved := child.within changed
    (fun n mem => by
      have := distinct.2.1
      simp only [List.mem_cons, List.not_mem_nil, or_false]
      grind)
    (fun n mem => apart' _ (by simp [addresses]; grind))
  obtain ⟨s', adopted, linked, within⟩ := adoptChild_linked moved distinct.2.2 b
  have all : Within _ s' (a :: b :: lt.labels) [c.address, lc.address] :=
    changed.trans within (by simp) (by simp) (fun _ mem => mem) (by simp)
  have elements := within.elements_eq
  refine ⟨s', run.trans adopted, ?_, ?_, ?_, all⟩
  · rw [linked_node]
    refine ⟨?_, first.within all ?_ ?_, follows.within all ?_ ?_⟩
    · rw [within.nodes a (by grind)]
      simp
      rw [Heap.block_write_other _ _ (by grind), Heap.block_write_self block]
    · exact fun n mem => apart n (by simp [mem])
    · exact fun n mem => apart' n.address (by simp [addresses]; grind)
    · exact fun n mem => apart n (by simp [mem])
    · exact fun n mem => apart' n.address (by simp [addresses]; grind)
  · rw [linked_node, follows_cons, follows_cons]
    refine ⟨?_, linked, ?_, first'.within all ?_ ?_, head.within all ?_, child'.within all ?_ ?_,
      follows'.within all ?_ ?_⟩
    · rw [within.nodes b (by grind),
        Heap.block_write_self ((N.block_write_other _ (by grind)).trans block')]
      simp
    · simp [Between, elements]
    · exact fun n mem => apart n (by simp [mem])
    · exact fun n mem => apart' n.address (by simp [addresses]; grind)
    · exact apart' ec.address (by simp [addresses])
    · exact fun n mem => apart n (by simp [mem])
    · exact fun n mem => apart' n.address (by simp [addresses]; grind)
    · exact fun n mem => apart n (by simp [mem])
    · exact fun n mem => apart' n.address (by simp [addresses]; grind)
  · rw [Between, elements]
    simp
    grind

theorem join_linked (left : Linked s (.node ⟨a, xf, xs ++ [l]⟩) p)
    (right : Linked s (.node ⟨b, yf, e :: ys⟩) q) (between : Between s c (some a) (some b))
    (nodes : ((LTree.node ⟨a, xf, xs ++ [l]⟩).labels ++
      (LTree.node ⟨b, yf, e :: ys⟩).labels).Nodup)
    (cells : (addresses ((LTree.node ⟨a, xf, xs ++ [l]⟩).inorder ++
      c :: (LTree.node ⟨b, yf, e :: ys⟩).inorder)).Nodup)
    (room : xs.length + ys.length + 2 ≤ maxElementsPerNode) :
    ∃ s', join a b c.address s = some ((), s') ∧
      Linked s' (.node ⟨a, xf, xs ++ [l] ++ (c, yf) :: e :: ys⟩) p ∧
      s'.nodes.block b = s.nodes.block b ∧
      Within s s' (a :: (yf.labels ++ LTree.labelsOf (e :: ys))) [c.address] := by
  obtain ⟨N, E⟩ := s
  obtain ⟨lc, lt⟩ := l
  obtain ⟨ec, et⟩ := e
  obtain ⟨block', first', follows'⟩ := linked_node.mp right
  simp only [linked_node, follows_append, follows_cons, List.map_append, List.map_cons,
    List.map_nil] at left
  obtain ⟨block, first, follows, last, child, -⟩ := left
  obtain ⟨distinct, apart⟩ := untouched (a :: (yf.labels ++ LTree.labelsOf ((ec, et) :: ys)))
    (b :: (xf.labels ++ LTree.labelsOf xs ++ lt.labels))
    nodes (by
      classical
      rw [List.perm_iff_count]
      intro n
      simp [List.count_cons]
      omega)
  obtain ⟨-, apart'⟩ := untouched [c.address]
    (addresses (lc :: ec :: (xf.inorder ++ LTree.inorderAfter xs ++ lt.inorder ++
      yf.inorder ++ et.inorder ++ LTree.inorderAfter ys))) cells (by
      classical
      rw [List.perm_iff_count]
      intro n
      simp [List.count_cons, addresses]
      omega)
  obtain ⟨outside, below⟩ := List.nodup_cons.mp distinct
  obtain ⟨⟨N', E'⟩, adopted, linked, followed, within⟩ :=
    adopt_linked first' follows' (by simp) below a
  obtain rfl : E' = E := within.elements_eq
  have block₁ : N'.block a = _ := (within.nodes a outside).trans block
  have run := run_join (c := c.address) block block' adopted block₁ between
    (follows_cons.mp follows').1 last
    (by simpa using apart' ec.address (by simp [addresses])) (by simp; omega)
  have changed : Within ⟨N', E'⟩ ⟨N'.write a ⟨p, xs.map (fun e => e.1.address) ++ [lc.address] ++
      c.address :: ec.address :: ys.map fun e => e.1.address⟩,
      Function.update E' c.address (some ⟨c.key, c.value, root lt, root yf⟩)⟩ [a] [c.address] := by
    constructor
    · intro n out
      exact N'.block_write_other _ (by simpa using out)
    · intro n out
      exact Function.update_of_ne (by simpa using out) ..
  have all : Within _ _ (a :: (yf.labels ++ LTree.labelsOf ((ec, et) :: ys))) [c.address] :=
    within.trans changed (by simp) (by simp) (by simp) (by simp)
  refine ⟨_, run, ?_, ?_, all⟩
  · rw [linked_node, follows_append, follows_append, follows_cons, follows_cons]
    refine ⟨?_, first.within all ?_ ?_, ⟨follows.within all ?_ ?_, last.within all ?_,
      child.within all ?_ ?_, follows_nil⟩, ?_, linked.within changed ?_ ?_,
      followed.within changed ?_ ?_⟩
    · rw [Heap.block_write_self block₁]
      simp
    · exact fun n mem => apart n (by simp [mem])
    · exact fun n mem => apart' n.address (by simp [addresses]; grind)
    · exact fun n mem => apart n (by simp [mem])
    · exact fun n mem => apart' n.address (by simp [addresses]; grind)
    · exact apart' lc.address (by simp [addresses])
    · exact fun n mem => apart n (by simp [mem])
    · exact fun n mem => apart' n.address (by simp [addresses]; grind)
    · simp [Between, lastRoot]
    · intro n mem
      rw [List.mem_singleton]
      rintro rfl
      exact outside (by simp [mem])
    · exact fun n mem => apart' n.address (by simp [addresses]; grind)
    · intro n mem
      rw [List.mem_singleton]
      rintro rfl
      exact outside (by simp only [List.mem_append]; exact .inr mem)
    · intro n mem
      rw [LTree.inorderAfter_cons] at mem
      exact apart' n.address (by simp [addresses]; grind)
  · exact all.nodes b fun mem => apart b (by simp) mem

end Levels

section Pairs

variable {D d P : Nat} {s s' : Store K V} {p : Option Nat} {r : Route Nat (Cell K V) D (d + 1)}
  {before after : Children K V d} {x y x' y' : Branch K V d} {c c' : Cell K V}

theorem linked_pair : Linked s (r.plug (.node (close P before x ((c, y) :: after)))) p ↔
    (s.nodes.block P = some ⟨r.above p, (before.map fun e => e.1.address).reverse ++
      c.address :: after.map fun e => e.1.address⟩ ∧ Precedes s P before (root x) ∧
      Follows s P (root y) after ∧ Hung s p r (some P)) ∧
    Linked s x (some P) ∧ Between s c (root x) (root y) ∧ Linked s y (some P) := by
  rw [linked_plug, linked_close, follows_cons, root_node, close_label, List.map_cons]
  tauto

theorem labels_pair : (r.plug (.node (close P before x ((c, y) :: after)))).labels.Perm
    ((P :: (x.labels ++ y.labels)) ++
      (LTree.labelsOf before ++ LTree.labelsOf after ++ r.labels)) := by
  refine (Route.labels_plug _ _).trans ((LTree.labels_close.append_right _).trans ?_)
  classical
  rw [List.perm_iff_count]
  intro n
  simp only [LTree.labelsOf_cons, List.count_append, List.count_cons]
  omega

theorem inorder_pair : (r.plug (.node (close P before x ((c, y) :: after)))).inorder =
    r.left ++ (LTree.inorderBefore before ++ (x.inorder ++ c :: y.inorder) ++
      LTree.inorderAfter after) ++ r.right := by
  rw [Route.inorder_plug, LTree.inorder_close]
  simp

theorem pair_apart
    (nodes : (r.plug (.node (close P before x ((c, y) :: after)))).labels.Nodup)
    (cells : (addresses (r.plug (.node (close P before x ((c, y) :: after)))).inorder).Nodup) :
    ((P :: (x.labels ++ y.labels)).Nodup ∧
      ∀ n ∈ LTree.labelsOf before ++ LTree.labelsOf after ++ r.labels,
        n ∉ P :: (x.labels ++ y.labels)) ∧
    (addresses (x.inorder ++ c :: y.inorder)).Nodup ∧
      ∀ e ∈ LTree.inorderAfter before ++ LTree.inorderAfter after ++ (r.left ++ r.right),
        e.address ∉ addresses (x.inorder ++ c :: y.inorder) := by
  refine ⟨untouched _ _ nodes labels_pair, ?_⟩
  obtain ⟨distinct, apart⟩ := untouched (addresses (x.inorder ++ c :: y.inorder))
    (addresses (LTree.inorderAfter before ++ LTree.inorderAfter after ++ (r.left ++ r.right)))
    cells (by
      rw [inorder_pair, ← addresses_append]
      refine List.Perm.map _ ?_
      classical
      rw [List.perm_iff_count]
      intro e
      simp only [List.count_append, LTree.inorderBefore_perm.count_eq]
      omega)
  exact ⟨distinct, fun e mem => apart _ (List.mem_map_of_mem mem)⟩

theorem pair_lent (here : Linked s (r.plug (.node (close P before x ((c, y) :: after)))) p)
    (nodes : (r.plug (.node (close P before x ((c, y) :: after)))).labels.Nodup)
    (cells : (addresses (r.plug (.node (close P before x ((c, y) :: after)))).inorder).Nodup)
    (within : Within s s' (x.labels ++ y.labels) (addresses (x.inorder ++ c :: y.inorder)))
    (left : Linked s' x' (some P)) (right : Linked s' y' (some P))
    (same : root x' = root x) (same' : root y' = root y)
    (between : Between s' c' (root x) (root y)) (address : c'.address = c.address) :
    Linked s' (r.plug (.node (close P before x' ((c', y') :: after)))) p := by
  obtain ⟨⟨block, precedes, follows, hung⟩, -, -, -⟩ := linked_pair.mp here
  obtain ⟨⟨distinct, apart⟩, -, apart'⟩ := pair_apart nodes cells
  have outside : ∀ n ∈ LTree.labelsOf before ++ LTree.labelsOf after ++ r.labels,
      n ∉ x.labels ++ y.labels := fun n mem there => apart n mem (List.mem_cons_of_mem _ there)
  simp only [List.mem_append] at outside apart'
  refine linked_pair.mpr ⟨⟨?_, ?_, ?_, ?_⟩, left, ?_, right⟩
  · rw [within.nodes P (List.nodup_cons.mp distinct).1, block, address]
  · rw [same]
    exact precedes.within within (fun n mem => by simpa using outside n (.inl (.inl mem)))
      fun e mem => apart' e (.inl (.inl mem))
  · rw [same']
    exact follows.within within (fun n mem => by simpa using outside n (.inl (.inr mem)))
      fun e mem => apart' e (.inl (.inr mem))
  · exact hung.within within (fun n mem => by simpa using outside n (.inr mem))
      fun e mem => apart' e (.inr (List.mem_append.mp mem))
  · rw [same, same']
    exact between

def mergeCells (x y : Branch K V d) (c : Cell K V) (after : Children K V d) : List Nat :=
  addresses (x.inorder ++ c :: y.inorder) ++ addresses ((after.take 1).map Prod.fst)

theorem merge_apart
    (cells : (addresses (r.plug (.node (close P before x ((c, y) :: after)))).inorder).Nodup) :
    (mergeCells x y c after).Nodup ∧
      (∀ e ∈ LTree.inorderAfter before ++ (r.left ++ r.right),
        e.address ∉ mergeCells x y c after) ∧
      (∀ e ∈ (after.take 1).map Prod.snd, ∀ e' ∈ e.inorder,
        e'.address ∉ mergeCells x y c after) ∧
      ∀ e ∈ LTree.inorderAfter (after.drop 1), e.address ∉ mergeCells x y c after := by
  obtain ⟨distinct, apart⟩ := untouched (mergeCells x y c after)
    (addresses (LTree.inorderAfter before ++ (r.left ++ r.right) ++
      ((after.take 1).map Prod.snd).flatMap LTree.inorder ++
      LTree.inorderAfter (after.drop 1))) cells (by
      rw [inorder_pair, mergeCells, ← addresses_append, ← addresses_append]
      refine List.Perm.map _ ?_
      classical
      rw [List.perm_iff_count]
      intro e
      cases after with
      | nil =>
        simp only [List.count_append, LTree.inorderBefore_perm.count_eq, List.take_nil,
          List.drop_nil, List.map_nil, List.flatMap_nil, List.count_nil]
        omega
      | cons f after =>
        simp only [List.count_append, LTree.inorderBefore_perm.count_eq, List.take_succ_cons,
          List.take_zero, List.drop_succ_cons, List.drop_zero, List.map_cons, List.map_nil,
          List.flatMap_cons, List.flatMap_nil, List.append_nil, LTree.inorderAfter_cons,
          List.count_cons, List.count_nil]
        omega)
  refine ⟨distinct, ?_, ?_, ?_⟩
  · intro e mem
    exact apart _ (List.mem_map_of_mem (List.mem_append_left _ (List.mem_append_left _ mem)))
  · intro e mem e' inside
    refine apart _ (List.mem_map_of_mem ?_)
    simp only [List.mem_append, List.mem_flatMap]
    exact .inl (.inr ⟨e, mem, inside⟩)
  · intro e mem
    exact apart _ (List.mem_map_of_mem (List.mem_append_right _ mem))

theorem pair_merged (here : Linked s (r.plug (.node (close P before x ((c, y) :: after)))) p)
    (nodes : (r.plug (.node (close P before x ((c, y) :: after)))).labels.Nodup)
    (cells : (addresses (r.plug (.node (close P before x ((c, y) :: after)))).inorder).Nodup)
    (within : Within s s' (P :: (x.labels ++ y.labels)) (mergeCells x y c after))
    (block : s'.nodes.block P = some ⟨r.above p,
      (before.map fun e => e.1.address).reverse ++ after.map fun e => e.1.address⟩)
    (next : ∀ e ∈ after.take 1, Between s' e.1 (root x) (root e.2))
    (merged : Linked s' x' (some P)) (same : root x' = root x) :
    Linked s' (r.plug (.node (close P before x' after))) p := by
  obtain ⟨⟨-, precedes, follows, hung⟩, -, -, -⟩ := linked_pair.mp here
  obtain ⟨⟨-, apart⟩, -⟩ := pair_apart nodes cells
  obtain ⟨-, apart', nextApart, restApart⟩ := merge_apart cells
  simp only [List.mem_append] at apart apart'
  rw [linked_plug, linked_close, root_node, close_label, same]
  refine ⟨⟨block, ?_, merged, ?_⟩, ?_⟩
  · exact precedes.within within (fun n mem => apart n (.inl (.inl mem)))
      fun e mem => apart' e (.inl mem)
  · cases after with
    | nil => exact follows_nil
    | cons f after =>
      obtain ⟨c₁, v⟩ := f
      obtain ⟨-, child, follows⟩ := follows_cons.mp follows
      simp only [LTree.labelsOf_cons, List.mem_append] at apart
      refine follows_cons.mpr ⟨next (c₁, v) List.mem_cons_self, child.within within ?_ ?_,
        follows.within within ?_ ?_⟩
      · exact fun n mem => apart n (.inl (.inr (.inl mem)))
      · exact fun e mem => nextApart v (by simp) e mem
      · exact fun n mem => apart n (.inl (.inr (.inr mem)))
      · exact fun e mem => restApart e mem
  · exact hung.within within (fun n mem => apart n (.inr mem))
      fun e mem => apart' e (.inr (List.mem_append.mp mem))

end Pairs

section Merges

variable {D d P a b : Nat} {s : Store K V} {p : Option Nat}
  {r : Route Nat (Cell K V) D (d + 2)} {before after : Children K V (d + 1)}
  {xf yf : Branch K V d} {xs ys : Children K V d} {l e : Cell K V × Branch K V d} {c : Cell K V}

def elementsOf {d : Nat} (before after : Children K V d) : List Nat :=
  (before.map fun e => e.1.address).reverse ++ after.map fun e => e.1.address

def relink {d : Nat} (after : Children K V d) (n : Nat) : Program K V Unit :=
  match after with
  | [] => pure ()
  | e :: _ => setLeftNode e.1.address (some n)

theorem run_relink {d : Nat} {N : Heap BTreeNode} {E : Nat → Option (BTreeElement K V)}
    {after : Children K V d}
    (live : ∀ e ∈ after.take 1, ∃ q, Between ⟨N, E⟩ e.1 q (root e.2)) (n : Nat) :
    ∃ E', relink after n ⟨N, E⟩ = some ((), ⟨N, E'⟩) ∧
      (∀ a ∉ addresses ((after.take 1).map Prod.fst), E' a = E a) ∧
      ∀ e ∈ after.take 1, E' e.1.address = some ⟨e.1.key, e.1.value, some n, root e.2⟩ := by
  cases after with
  | nil => exact ⟨E, rfl, fun _ _ => rfl, by simp⟩
  | cons e after =>
    obtain ⟨c, u⟩ := e
    obtain ⟨q, between⟩ := live (c, u) List.mem_cons_self
    refine ⟨_, run_setLeftNode between (some n), ?_, ?_⟩
    · intro a out
      exact Function.update_of_ne (by simpa [addresses] using out) ..
    · intro e mem
      simp only [List.take_succ_cons, List.take_zero, List.mem_singleton] at mem
      subst mem
      exact Function.update_self ..

theorem merge_nodes : a :: (yf.labels ++ LTree.labelsOf ys) ⊆
    (LTree.node ⟨a, xf, xs⟩).labels ++ (LTree.node ⟨b, yf, ys⟩).labels := by
  intro n mem
  simp only [LTree.labels_node, List.mem_append, List.mem_cons] at mem ⊢
  rcases mem with mem | mem
  · exact .inl (.inl mem)
  · exact .inr (.inr mem)

theorem merge_cells : (LTree.node ⟨a, xf, xs ++ (c, yf) :: ys⟩).inorder =
    (LTree.node ⟨a, xf, xs⟩).inorder ++ c :: (LTree.node ⟨b, yf, ys⟩).inorder := by
  simp

theorem merge_steps
    (here : Linked s (r.plug (.node (close P before (.node ⟨a, xf, xs ++ [l]⟩)
      ((c, .node ⟨b, yf, e :: ys⟩) :: after)))) p)
    (nodes : (r.plug (.node (close P before (.node ⟨a, xf, xs ++ [l]⟩)
      ((c, .node ⟨b, yf, e :: ys⟩) :: after)))).labels.Nodup)
    (cells : (addresses (r.plug (.node (close P before (.node ⟨a, xf, xs ++ [l]⟩)
      ((c, .node ⟨b, yf, e :: ys⟩) :: after)))).inorder).Nodup)
    (room : xs.length + ys.length + 2 ≤ maxElementsPerNode)
    (short : before.length + after.length ≤ maxElementsPerNode + 1) :
    ∃ s₁ s₂ s₃ s₄, join a b c.address s = some ((), s₁) ∧
      setElements P (elementsOf before after) s₁ = some ((), s₂) ∧
      relink after a s₂ = some ((), s₃) ∧ deleteNode b s₃ = some ((), s₄) ∧
      Linked s₄ (r.plug (.node (close P before
        (.node ⟨a, xf, xs ++ [l] ++ (c, yf) :: e :: ys⟩) after))) p := by
  obtain ⟨⟨block, -, follows, -⟩, left, between, right⟩ := linked_pair.mp here
  obtain ⟨⟨distinct, apart⟩, distinct', -⟩ := pair_apart nodes cells
  obtain ⟨distinct₂, -, nextApart, -⟩ := merge_apart cells
  obtain ⟨parent, distinct⟩ := List.nodup_cons.mp distinct
  obtain ⟨⟨N₁, E₁⟩, joined, linked, kept, within⟩ :=
    join_linked left right between distinct distinct' room
  have block₁ : N₁.block P = _ :=
    (within.nodes P fun mem => parent (merge_nodes mem)).trans block
  have live : N₁.block b = _ := kept.trans (linked_node.mp right).1
  have sized : (elementsOf before after).length ≤ maxElementsPerNode + 1 := by
    simpa [elementsOf] using short
  have next : ∀ e ∈ after.take 1, Between s e.1 (some b) (root e.2) := by
    cases after with
    | nil => simp
    | cons e after => simpa using (follows_cons.mp follows).1
  rw [mergeCells, List.nodup_append] at distinct₂
  obtain ⟨-, -, beside⟩ := distinct₂
  have next₁ : ∀ e ∈ after.take 1, ∃ q, Between ⟨N₁.write P ⟨r.above p, elementsOf before after⟩,
      E₁⟩ e.1 q (root e.2) := by
    intro e mem
    refine ⟨some b, (within.elements _ ?_).trans (next e mem)⟩
    rw [List.mem_singleton]
    exact (beside c.address (by simp [addresses]) _
      (List.mem_map_of_mem (List.mem_map_of_mem mem))).symm
  obtain ⟨E₃, relinked, kept₃, next₃⟩ := run_relink next₁ a
  have live₃ : (N₁.write P ⟨r.above p, elementsOf before after⟩).block b = _ :=
    (N₁.block_write_other _ (by
      rintro rfl
      exact parent (by simp))).trans live
  have changed : Within ⟨N₁, E₁⟩
      ⟨(N₁.write P ⟨r.above p, elementsOf before after⟩).erase b, E₃⟩ [P, b]
      (addresses ((after.take 1).map Prod.fst)) := by
    constructor
    · intro n out
      simp only [List.mem_cons, List.not_mem_nil, or_false, not_or] at out
      rw [Heap.block_erase, if_neg out.2, N₁.block_write_other _ out.1]
    · exact kept₃
  refine ⟨_, _, _, _, joined, run_setElements block₁ sized, relinked, run_deleteNode live₃, ?_⟩
  have apartNodes : ∀ n ∈ (LTree.node ⟨a, xf, xs ++ [l] ++ (c, yf) :: e :: ys⟩).labels,
      n ∉ [P, b] := by
    intro n mem
    simp only [LTree.labels_node, LTree.labelsOf_append, LTree.labelsOf_cons, List.mem_append,
      List.mem_cons, List.not_mem_nil, or_false, not_or, List.nodup_append,
      List.nodup_cons] at mem parent distinct ⊢
    grind
  have apartCells : ∀ f ∈ (LTree.node ⟨a, xf, xs ++ [l] ++ (c, yf) :: e :: ys⟩).inorder,
      f.address ∉ addresses ((after.take 1).map Prod.fst) := by
    intro f mem there
    rw [merge_cells (b := b)] at mem
    exact beside f.address (List.mem_map_of_mem mem) _ there rfl
  refine pair_merged here nodes cells (within.trans changed ?_ ?_ ?_ ?_) ?_ next₃
    (linked.within changed apartNodes apartCells) rfl
  · exact fun n mem => List.mem_cons_of_mem _ (merge_nodes mem)
  · intro n mem
    simp only [List.mem_cons, List.not_mem_nil, or_false] at mem
    rcases mem with rfl | rfl
    · exact List.mem_cons_self
    · simp
  · intro n mem
    rw [List.mem_singleton] at mem
    subst mem
    simp [mergeCells, addresses]
  · exact fun n mem => List.mem_append_right _ mem
  · have other : P ≠ b := by
      rintro rfl
      exact parent (by simp)
    rw [Heap.block_erase, if_neg other, Heap.block_write_self block₁]
    rfl

end Merges

end BTree
