import UpanLibs.Ds.BTreeInsert

/-!
Where the searches of a tree end: at an element with an equal key, at the leaf whose gap the key
belongs to, or at an end of a subtree.
-/
namespace BTree
open Memory (Heap)
open LevelTree

variable {K V : Type}

section Nodes

variable {s : Store K V} {o : KeyOrder K} {key : K} {front back : List Nat} {e : Nat}
  {el : BTreeElement K V}

structure Place (s : Store K V) (o : KeyOrder K) (key : K) (front back : List Nat) : Prop where
  below : ∀ a ∈ front, ∃ el, s.elements a = some el ∧ o.less el.key key = true
  above : ∀ a ∈ back, ∃ el, s.elements a = some el ∧ o.less key el.key = true

theorem search_found (place : Place s o key front back) (live : s.elements e = some el)
    (equal : o.equal key el.key = true) {k i j : Nat} (least : i ≤ front.length)
    (most : front.length ≤ j) (inside : j ≤ front.length + back.length) (fuel : j - i < k) :
    search o key (front ++ e :: back) k i j s = some (some (e, .found), s) := by
  have here : (front ++ e :: back)[front.length]? = some e := by simp
  induction k generalizing i j with
  | zero => omega
  | succ k ih =>
    rw [search]
    by_cases single : i = j
    · obtain rfl : i = front.length := by omega
      rw [if_pos single, here, run_bind (run_deref e), run_bind (run_element live), if_pos equal,
        run_pure]
    · rw [if_neg single, if_pos (by omega)]
      rcases Nat.lt_trichotomy (i + (j - i) / 2) front.length with left | same | right
      · obtain ⟨a, at_⟩ : ∃ a, front[i + (j - i) / 2]? = some a := ⟨_, List.getElem?_eq_getElem left⟩
        obtain ⟨el', live', less⟩ := place.below a (List.mem_of_getElem? at_)
        have middle : (front ++ e :: back)[i + (j - i) / 2]? = some a := by
          rw [List.getElem?_append_left left, at_]
        simp only [middle]
        rw [run_bind (run_deref a), run_bind (run_element live'),
          if_neg (by simp [equal_of_more less]), if_pos less, if_pos (by omega)]
        exact ih (by omega) most inside (by omega)
      · have middle : (front ++ e :: back)[i + (j - i) / 2]? = some e := same ▸ here
        simp only [middle]
        rw [run_bind (run_deref e), run_bind (run_element live), if_pos equal, run_pure]
      · obtain ⟨a, at_⟩ : ∃ a, back[i + (j - i) / 2 - front.length - 1]? = some a :=
          ⟨_, List.getElem?_eq_getElem (by omega)⟩
        obtain ⟨el', live', less⟩ := place.above a (List.mem_of_getElem? at_)
        have middle : (front ++ e :: back)[i + (j - i) / 2]? = some a := by
          rw [List.getElem?_append_right (by omega), ← at_]
          rw [show i + (j - i) / 2 - front.length =
            i + (j - i) / 2 - front.length - 1 + 1 by omega, List.getElem?_cons_succ]
          rfl
        simp only [middle]
        rw [run_bind (run_deref a), run_bind (run_element live'),
          if_neg (by simp [equal_of_less less]), if_neg (by simp [less_asymm less]),
          if_pos (by omega)]
        exact ih least (by omega) (by omega) (by omega)

theorem search_gap (place : Place s o key front back) {k i j : Nat} (ordered : i ≤ j)
    (least : i ≤ front.length) (most : front.length ≤ j + 1)
    (inside : j < front.length + back.length) (fuel : j - i < k) :
    (∃ a, front.getLast? = some a ∧
      search o key (front ++ back) k i j s = some (some (a, .right), s)) ∨
    (∃ a, back.head? = some a ∧
      search o key (front ++ back) k i j s = some (some (a, .left), s)) := by
  have before {a m : Nat} (at_ : (front ++ back)[m]? = some a) (small : m < front.length) :
      ∃ el, s.elements a = some el ∧ o.less el.key key = true := by
    rw [List.getElem?_append_left small] at at_
    exact place.below a (List.mem_of_getElem? at_)
  have after {a m : Nat} (at_ : (front ++ back)[m]? = some a) (large : front.length ≤ m) :
      ∃ el, s.elements a = some el ∧ o.less key el.key = true := by
    rw [List.getElem?_append_right large] at at_
    exact place.above a (List.mem_of_getElem? at_)
  have read {m : Nat} (small : m ≤ j) : ∃ a, (front ++ back)[m]? = some a :=
    ⟨_, List.getElem?_eq_getElem (by rw [List.length_append]; omega)⟩
  induction k generalizing i j with
  | zero => omega
  | succ k ih =>
    rw [search]
    by_cases single : i = j
    · subst single
      obtain ⟨a, at_⟩ := read (Nat.le_refl i)
      simp only [if_true, at_]
      rcases Nat.lt_or_ge i front.length with left | right
      · obtain ⟨el, live, less⟩ := before at_ left
        refine .inl ⟨a, ?_, ?_⟩
        · rw [← at_, List.getLast?_eq_getElem?, List.getElem?_append_left left]
          congr 1
          omega
        · rw [run_bind (run_deref a), run_bind (run_element live), run_pure,
            if_neg (by simp [equal_of_more less]), if_neg (by simp [less_asymm less])]
      · obtain ⟨el, live, less⟩ := after at_ right
        refine .inr ⟨a, ?_, ?_⟩
        · rw [← at_, List.head?_eq_getElem?, List.getElem?_append_right right]
          congr 1
          omega
        · rw [run_bind (run_deref a), run_bind (run_element live), run_pure,
            if_neg (by simp [equal_of_less less]), if_pos less]
    · rw [if_neg single, if_pos (by omega)]
      obtain ⟨a, at_⟩ := read (show i + (j - i) / 2 ≤ j by omega)
      simp only [at_]
      rw [run_bind (run_deref a)]
      rcases Nat.lt_or_ge (i + (j - i) / 2) front.length with left | right
      · obtain ⟨el, live, less⟩ := before at_ left
        rw [run_bind (run_element live), if_neg (by simp [equal_of_more less]), if_pos less,
          if_pos (by omega)]
        exact ih (by omega) (by omega) most inside (by omega) read
      · obtain ⟨el, live, less⟩ := after at_ right
        rw [run_bind (run_element live), if_neg (by simp [equal_of_less less]),
          if_neg (by simp [less_asymm less])]
        by_cases narrow : i < i + (j - i) / 2
        · rw [if_pos narrow]
          exact ih (by omega) least (by omega) (by omega) (by omega)
            fun small => read (by omega)
        · rw [if_neg narrow]
          exact ih (by omega) least (by omega) (by omega) (by omega)
            fun small => read (by omega)

end Nodes

section Places

variable {d l : Nat} {s : Store K V} {o : KeyOrder K} {key : K} {p : Option Nat}
  {before after rest : Children K V d} {t : Branch K V d}

theorem key_cases (o : KeyOrder K) (a b : K) :
    o.less a b = true ∨ o.equal a b = true ∨ o.less b a = true := by
  unfold KeyOrder.equal
  cases o.less a b <;> cases o.less b a <;> simp

theorem exists_place (sorted : rest.Pairwise fun e f => o.less e.1.key f.1.key = true)
    (below : ∀ e ∈ before, o.less e.1.key key = true) :
    (∃ before' t' c u after, close l before t rest = close l before' t' ((c, u) :: after) ∧
      o.equal key c.key = true ∧ (∀ e ∈ before', o.less e.1.key key = true) ∧
      ∀ e ∈ after, o.less key e.1.key = true) ∨
    (∃ before' t' after, close l before t rest = close l before' t' after ∧
      (∀ e ∈ before', o.less e.1.key key = true) ∧ ∀ e ∈ after, o.less key e.1.key = true) := by
  induction rest generalizing before t with
  | nil => exact .inr ⟨before, t, [], rfl, below, by simp⟩
  | cons e rest ih =>
    obtain ⟨c, u⟩ := e
    obtain ⟨above, sorted⟩ := List.pairwise_cons.mp sorted
    rcases key_cases o key c.key with less | equal | more
    · refine .inr ⟨before, t, _, rfl, below, List.forall_mem_cons.mpr ⟨less, ?_⟩⟩
      exact fun e mem => o.trans less (above e mem)
    · refine .inl ⟨before, t, c, u, rest, rfl, equal, below, ?_⟩
      intro e mem
      rcases o.cotrans key (above e mem) with less | less
      · rw [equal_of_more less] at equal
        cases equal
      · exact less
    · have below' : ∀ e ∈ (c, t) :: before, o.less e.1.key key = true :=
        List.forall_mem_cons.mpr ⟨more, below⟩
      exact ih sorted below'

theorem place_of {q : Option Nat} (precedes : Before s before p) (follows : After s q after)
    (below : ∀ e ∈ before, o.less e.1.key key = true)
    (above : ∀ e ∈ after, o.less key e.1.key = true) :
    Place s o key (before.map fun e => e.1.address).reverse (after.map fun e => e.1.address) := by
  constructor
  · intro a mem
    rw [List.mem_reverse, List.mem_map] at mem
    obtain ⟨e, mem, rfl⟩ := mem
    obtain ⟨l, r, live⟩ := before_live precedes e mem
    exact ⟨_, live, below e mem⟩
  · intro a mem
    rw [List.mem_map] at mem
    obtain ⟨e, mem, rfl⟩ := mem
    obtain ⟨l, r, live⟩ := after_live follows e mem
    exact ⟨_, live, above e mem⟩

theorem left_of_gap (ordered : Ordered o (LTree.inorderBefore before))
    (below : ∀ e ∈ before, o.less e.1.key key = true) :
    ∀ c ∈ LTree.inorderBefore before, o.less c.key key = true := by
  cases before with
  | nil => exact fun c mem => by cases mem
  | cons e before =>
    intro c mem
    rw [LTree.inorderBefore_cons] at ordered mem
    rcases List.mem_append.mp mem with mem | mem
    · exact o.trans ((List.pairwise_append.mp ordered).2.2 c mem e.1 (List.mem_singleton_self _))
        (below e List.mem_cons_self)
    · rw [List.mem_singleton.mp mem]
      exact below e List.mem_cons_self

theorem right_of_gap (ordered : Ordered o (LTree.inorderAfter after))
    (above : ∀ e ∈ after, o.less key e.1.key = true) :
    ∀ c ∈ LTree.inorderAfter after, o.less key c.key = true := by
  cases after with
  | nil => exact fun c mem => by cases mem
  | cons e after =>
    intro c mem
    rw [LTree.inorderAfter_cons, List.cons_append] at ordered mem
    rcases List.mem_cons.mp mem with rfl | mem
    · exact above e List.mem_cons_self
    · exact o.trans (above e List.mem_cons_self) ((List.pairwise_cons.mp ordered).1 c mem)

theorem isLeaf_leaf {rest : Children K V 0} (here : After s none rest) :
    isLeaf (rest.map fun e => e.1.address) s = some (true, s) := by
  induction rest with
  | nil => rfl
  | cons e rest ih =>
    rw [List.map_cons, isLeaf, run_bind (run_element here.1), if_neg (by simp [root]),
      if_neg (by simp)]
    exact ih here.2

theorem isLeaf_inner {t : Branch K V (d + 1)} {rest : Children K V (d + 1)}
    (here : After s (root t) rest) (any : rest ≠ []) :
    isLeaf (rest.map fun e => e.1.address) s = some (false, s) := by
  cases rest with
  | nil => exact absurd rfl any
  | cons e rest =>
    have left : root t ≠ none := by simp [root]
    rw [List.map_cons, isLeaf, run_bind (run_element here.1)]
    split
    · rfl
    · rfl

theorem separators_ordered (ordered : Ordered o (LTree.inorderAfter rest)) :
    rest.Pairwise fun e f => o.less e.1.key f.1.key = true := by
  induction rest with
  | nil => exact .nil
  | cons e rest ih =>
    rw [LTree.inorderAfter_cons, List.cons_append] at ordered
    obtain ⟨above, ordered⟩ := List.pairwise_cons.mp ordered
    refine List.pairwise_cons.mpr ⟨fun f mem => above f.1 ?_, ih (List.pairwise_append.mp ordered).2.1⟩
    exact List.mem_append_right _ (List.mem_flatMap.mpr ⟨f, mem, List.mem_cons_self⟩)

theorem row_place (key : K) {n : Row Nat (Cell K V) (Branch K V d)}
    (ordered : Ordered o (LTree.node n).inorder) :
    (∃ l before t c u after, n = close l before t ((c, u) :: after) ∧ o.equal key c.key = true ∧
      (∀ e ∈ before, o.less e.1.key key = true) ∧ ∀ e ∈ after, o.less key e.1.key = true) ∨
    (∃ l before t after, n = close l before t after ∧
      (∀ e ∈ before, o.less e.1.key key = true) ∧ ∀ e ∈ after, o.less key e.1.key = true) := by
  have sorted := separators_ordered (List.pairwise_append.mp ordered).2.1
  have start : ∀ e ∈ ([] : Children K V d), o.less e.1.key key = true := by simp
  rcases exists_place sorted start (l := n.label) (t := n.first) with place | place
  · exact .inl ⟨n.label, place⟩
  · exact .inr ⟨n.label, place⟩

end Places

section Searches

variable {D : Nat} {s : Store K V} {o : KeyOrder K} {key : K} {p : Option Nat}

structure Belongs {d : Nat} (o : KeyOrder K) (r : Route Nat (Cell K V) D d) (key : K) : Prop where
  left : ∀ c ∈ r.left, o.less c.key key = true
  right : ∀ c ∈ r.right, o.less key c.key = true

theorem Belongs.append {d : Nat} {g : Gap Nat (Cell K V) (Branch K V D)}
    {r : Route Nat (Cell K V) D d} (inner : Belongs o r key)
    (ordered : Ordered o (LTree.inorderBefore g.before))
    (ordered' : Ordered o (LTree.inorderAfter g.after))
    (below : ∀ e ∈ g.before, o.less e.1.key key = true)
    (above : ∀ e ∈ g.after, o.less key e.1.key = true) :
    Belongs o (r.append (.under g .top)) key := by
  constructor
  · intro c mem
    rw [Route.left_append] at mem
    rcases List.mem_append.mp mem with mem | mem
    · exact left_of_gap ordered below c (by simpa [Route.left] using mem)
    · exact inner.left c mem
  · intro c mem
    rw [Route.right_append] at mem
    rcases List.mem_append.mp mem with mem | mem
    · exact inner.right c mem
    · exact right_of_gap ordered' above c (by simpa [Route.right] using mem)

variable {d k l : Nat} {before after : Children K V d} {t u : Branch K V d} {c : Cell K V}

theorem findElement_found (here : Linked s (.node (close l before t ((c, u) :: after))) p)
    (below : ∀ e ∈ before, o.less e.1.key key = true) (equal : o.equal key c.key = true)
    (above : ∀ e ∈ after, o.less key e.1.key = true) :
    findElement o key (k + 1) (some l) s = some (some (l, c.address), s) := by
  obtain ⟨block, precedes, -, follows⟩ := linked_close.mp here
  obtain ⟨between, -, follows⟩ := follows_cons.mp follows
  have place := place_of precedes.1 follows.1 below above
  have size : ((before.map fun e => e.1.address).reverse ++
      c.address :: after.map fun e => e.1.address).length = before.length + after.length + 1 := by
    simp only [List.length_append, List.length_reverse, List.length_map, List.length_cons]
    omega
  have found := search_found place between equal (Nat.zero_le _) (j := before.length + after.length)
    (by simp) (by simp) (k := before.length + after.length + 1) (by omega)
  rw [findElement, run_bind (run_node block)]
  simp only [List.map_cons, size]
  rw [if_neg (Nat.succ_ne_zero _), Nat.add_sub_cancel, run_bind found]
  rfl

theorem findElement_gap (here : Linked s (.node (close l before t after)) p)
    (below : ∀ e ∈ before, o.less e.1.key key = true)
    (above : ∀ e ∈ after, o.less key e.1.key = true) (any : before.length + after.length ≠ 0) :
    findElement o key (k + 1) (some l) s = findElement o key k (root t) s := by
  obtain ⟨block, precedes, -, follows⟩ := linked_close.mp here
  have place := place_of precedes.1 follows.1 below above
  have size : ((before.map fun e => e.1.address).reverse ++
      after.map fun e => e.1.address).length = before.length + after.length := by simp
  rw [findElement, run_bind (run_node block)]
  simp only [size]
  rw [if_neg any]
  rcases search_gap place (Nat.zero_le _) (Nat.zero_le _) (j := before.length + after.length - 1)
    (by simp; omega) (by simp; omega) (k := before.length + after.length) (by omega) with
    ⟨a, last, found⟩ | ⟨a, next, found⟩
  · rw [run_bind found]
    cases before with
    | nil => cases last
    | cons e before =>
      rw [List.map_cons, List.reverse_cons, List.getLast?_concat] at last
      cases last
      simp only
      rw [run_bind (run_element precedes.1.1)]
  · rw [run_bind found]
    cases after with
    | nil => cases next
    | cons e after =>
      cases next
      simp only
      rw [run_bind (run_element follows.1.1)]

theorem findElement_linked {k : Nat} {t : Branch K V D} (here : Linked s t p)
    (ordered : Ordered o t.inorder)
    (sized : t.RootSized minElementsPerNode maxElementsPerNode) (fuel : D ≤ k) :
    (∃ d, ∃ r : Route Nat (Cell K V) D (d + 1), ∃ l before x c u after,
      t = r.plug (.node (close l before x ((c, u) :: after))) ∧ o.equal key c.key = true ∧
      findElement o key k (root t) s = some (some (l, c.address), s)) ∨
    (∃ r : Route Nat (Cell K V) D 0, t = r.plug .nil ∧ Belongs o r key ∧
      findElement o key k (root t) s = some (none, s)) := by
  induction D generalizing k p with
  | zero => exact .inr ⟨.top, rfl, ⟨by simp [Route.left], by simp [Route.right]⟩, by cases k <;> rfl⟩
  | succ D ih =>
    obtain ⟨⟨l, first, rest⟩, rfl⟩ := t.exists_node
    obtain ⟨k, rfl⟩ := Nat.exists_eq_succ_of_ne_zero (show k ≠ 0 by omega)
    obtain ⟨⟨least, -⟩, children⟩ := LTree.rootSized_node.mp sized
    rcases row_place key ordered with
      ⟨l', before, x, c, u, after, same, equal, below, above⟩ |
      ⟨l', before, x, after, same, below, above⟩
    · rw [same] at here ⊢
      refine .inl ⟨_, .top, l', before, x, c, u, after, rfl, equal, ?_⟩
      rw [root_node, close_label]
      exact findElement_found here below equal above
    · have count : rest.length = before.length + after.length := by
        rw [← close_length (l := l') (t := x), ← same]
      rw [same] at here ordered children ⊢
      obtain ⟨block, -, child, -⟩ := linked_close.mp here
      obtain ⟨front, sub, back⟩ := close_all.mp children
      rw [LTree.inorder_close] at ordered
      obtain ⟨leftOrdered, rightOrdered, -⟩ := List.pairwise_append.mp ordered
      obtain ⟨leftOrdered, subOrdered, -⟩ := List.pairwise_append.mp leftOrdered
      have append {e : Nat} {r : Route Nat (Cell K V) D e} (inner : Belongs o r key) :
          Belongs o (r.append (.under ⟨l', before, after⟩ .top)) key :=
        inner.append leftOrdered rightOrdered below above
      rw [root_node, close_label]
      by_cases any : before.length + after.length = 0
      · obtain rfl : D = 0 := by
          by_contra inner
          have := least inner
          simp only at this
          omega
        refine .inr ⟨.under ⟨l', before, after⟩ .top, rfl, append (r := .top) ⟨?_, ?_⟩, ?_⟩
        · exact fun c mem => by cases mem
        · exact fun c mem => by cases mem
        · have none' : ((before.map fun e => e.1.address).reverse ++
              after.map fun e => e.1.address).length = 0 := by simpa using any
          rw [findElement, run_bind (run_node block)]
          simp only [none', if_true]
          rfl
      · rw [findElement_gap here below above any]
        rcases ih child subOrdered (rootSized_of_sized sub (by decide)) (Nat.le_of_succ_le_succ fuel) with
          ⟨d, r, m, before', y, c, u, after', same', equal, run⟩ | ⟨r, same', inner, run⟩
        · refine .inl ⟨d, r.append (.under ⟨l', before, after⟩ .top), m, before', y, c, u, after',
            ?_, equal, run⟩
          rw [Route.plug_append, ← same']
          rfl
        · refine .inr ⟨r.append (.under ⟨l', before, after⟩ .top), ?_, append inner, run⟩
          rw [Route.plug_append, ← same']
          rfl

theorem getInsertionNode_gap {t : Branch K V (d + 1)} {before after : Children K V (d + 1)}
    (here : Linked s (.node (close l before t after)) p)
    (below : ∀ e ∈ before, o.less e.1.key key = true)
    (above : ∀ e ∈ after, o.less key e.1.key = true)
    (leaf : isLeaf ((before.map fun e => e.1.address).reverse ++
      after.map fun e => e.1.address) s = some (false, s))
    (any : before.length + after.length ≠ 0) :
    getInsertionNode o l key s = some (root t, s) := by
  obtain ⟨block, precedes, -, follows⟩ := linked_close.mp here
  have place := place_of precedes.1 follows.1 below above
  rw [getInsertionNode, run_bind (run_node block), run_bind leaf, if_neg Bool.false_ne_true]
  cases after with
  | nil =>
    cases before with
    | nil => exact absurd rfl any
    | cons e before =>
      have less := below e List.mem_cons_self
      simp only [List.map_cons, List.reverse_cons, List.map_nil, List.append_nil,
        List.getLast?_concat]
      rw [run_bind (run_deref _), run_bind (run_element precedes.1.1), if_pos (by simp [less]),
        run_pure]
  | cons e after =>
    obtain ⟨front, z, ends⟩ := exists_last (l := (e :: after).map fun e => e.1.address) (by simp)
    obtain ⟨elz, livez, lessz⟩ := place.above z (by simp [ends])
    have more : ¬ (o.less elz.key key || o.equal elz.key key) = true := by
      rw [less_asymm lessz, equal_of_more lessz]
      simp
    have skip : ∀ b ∈ (before.map fun e => e.1.address).reverse,
        ∃ el, s.elements b = some el ∧ o.less key el.key = false := by
      intro b mem
      obtain ⟨el, live, less⟩ := place.below b mem
      exact ⟨el, live, less_asymm less⟩
    have last : ((before.map fun e => e.1.address).reverse ++
        (e :: after).map fun e => e.1.address).getLast? = some z := by
      rw [ends, ← List.append_assoc, List.getLast?_concat]
    have here : ((before.map fun e => e.1.address).reverse ++
        (e :: after).map fun e => e.1.address)[(before.map fun e => e.1.address).reverse.length]? =
          some e.1.address := by simp
    simp only [last]
    rw [run_bind (run_deref z), run_bind (run_element livez), if_neg more, List.map_cons,
      run_bind (firstAbove_here skip follows.1.1 (above e List.mem_cons_self)), Nat.zero_add]
    rw [List.map_cons] at here
    simp only [here]
    rw [run_bind (run_deref _), run_bind (run_element follows.1.1), run_pure]

theorem row_gap {n : Row Nat (Cell K V) (Branch K V d)} (ordered : Ordered o (LTree.node n).inorder)
    (absent : ∀ c ∈ (LTree.node n).inorder, o.equal key c.key = false) :
    ∃ l before t after, n = close l before t after ∧
      (∀ e ∈ before, o.less e.1.key key = true) ∧ ∀ e ∈ after, o.less key e.1.key = true := by
  rcases row_place key ordered with ⟨l, before, x, c, u, after, rfl, equal, -⟩ | place
  · have other := absent c (by rw [LTree.inorder_close]; simp)
    rw [equal] at other
    cases other
  · exact place

theorem insertionLeaf_linked {k : Nat} {t : Branch K V (D + 1)} (here : Linked s t p)
    (ordered : Ordered o t.inorder)
    (sized : t.RootSized minElementsPerNode maxElementsPerNode) (fuel : D + 1 ≤ k)
    (absent : ∀ c ∈ t.inorder, o.equal key c.key = false) :
    ∃ r : Route Nat (Cell K V) (D + 1) 0, ∃ n, t = r.plug .nil ∧ r.above none = some n ∧
      Belongs o r key ∧ insertionLeaf o key k (root t) s = some (n, s) := by
  obtain ⟨k, rfl⟩ := Nat.exists_eq_succ_of_ne_zero (show k ≠ 0 by omega)
  induction D generalizing k p with
  | zero =>
    obtain ⟨⟨l, first, rest⟩, rfl⟩ := t.exists_node
    obtain ⟨l', before, x, after, same, below, above⟩ := row_gap ordered absent
    obtain ⟨block, -, follows⟩ := linked_node.mp here
    have leaf : isLeaf (rest.map fun e => e.1.address) s = some (true, s) := isLeaf_leaf follows.1
    rw [same, LTree.inorder_close] at ordered
    obtain ⟨leftOrdered, rightOrdered, -⟩ := List.pairwise_append.mp ordered
    have inner : Belongs o (.top : Route Nat (Cell K V) 0 0) key :=
      ⟨by simp [Route.left], by simp [Route.right]⟩
    refine ⟨.under ⟨l', before, after⟩ .top, l', ?_, rfl, inner.append
      (List.pairwise_append.mp leftOrdered).1 rightOrdered below above, ?_⟩
    · rw [same]
      rfl
    · have label : l = l' := by rw [← close_label (l := l'), ← same]
      rw [insertionLeaf, root_node, run_bind (run_deref l), run_bind (run_node block),
        run_bind leaf, if_pos rfl, run_pure, label]
  | succ D ih =>
    obtain ⟨⟨l, first, rest⟩, rfl⟩ := t.exists_node
    obtain ⟨k, rfl⟩ := Nat.exists_eq_succ_of_ne_zero (show k ≠ 0 by omega)
    obtain ⟨⟨least, -⟩, children⟩ := LTree.rootSized_node.mp sized
    obtain ⟨l', before, x, after, same, below, above⟩ := row_gap ordered absent
    obtain ⟨-, -, follows⟩ := linked_node.mp here
    have any : rest ≠ [] := List.ne_nil_of_length_pos (least (Nat.succ_ne_zero D))
    have leaf := isLeaf_inner follows.1 any
    have count : rest.length = before.length + after.length := by
      rw [← close_length (l := l') (t := x), ← same]
    have parts : rest.map (fun e => e.1.address) =
        (before.map fun e => e.1.address).reverse ++ after.map fun e => e.1.address := by
      rw [← close_addresses (l := l') (t := x), ← same]
    rw [parts] at leaf
    rw [same] at here ordered children absent ⊢
    obtain ⟨block, -, child, -⟩ := linked_close.mp here
    obtain ⟨-, sub, -⟩ := close_all.mp children
    rw [LTree.inorder_close] at ordered absent
    obtain ⟨leftOrdered, rightOrdered, -⟩ := List.pairwise_append.mp ordered
    obtain ⟨leftOrdered, subOrdered, -⟩ := List.pairwise_append.mp leftOrdered
    obtain ⟨r, n, same', here', inner, run⟩ := ih child subOrdered
      (rootSized_of_sized sub (by decide)) (fun c mem => absent c (by simp [mem])) k
      (Nat.le_of_succ_le_succ fuel)
    refine ⟨r.append (.under ⟨l', before, after⟩ .top), n, ?_, ?_,
      inner.append leftOrdered rightOrdered below above, ?_⟩
    · rw [Route.plug_append, ← same']
      rfl
    · cases r with
      | under g r => exact here'
    · have next := getInsertionNode_gap here below above leaf
        fun none => any (List.length_eq_zero_iff.mp (count.trans none))
      rw [insertionLeaf, root_node, close_label, run_bind (run_deref l'),
        run_bind (run_node block), run_bind leaf, if_neg Bool.false_ne_true, run_bind next]
      exact run

end Searches

section Ends

variable {D : Nat} {s : Store K V} {p : Option Nat}

theorem highest_linked {k : Nat} {t : Branch K V (D + 1)} (here : Linked s t p)
    (sized : t.Sized minElementsPerNode maxElementsPerNode) (fuel : D + 1 ≤ k) :
    ∃ r : Route Nat (Cell K V) (D + 1) 1, ∃ n front c,
      t = r.plug (.node ⟨n, .nil, front ++ [(c, .nil)]⟩) ∧ r.right = [] ∧
      highest k (root t) s = some (some (n, c.address), s) := by
  obtain ⟨k, rfl⟩ := Nat.exists_eq_succ_of_ne_zero (show k ≠ 0 by omega)
  induction D generalizing k p with
  | zero =>
    obtain ⟨⟨n, first, rest⟩, rfl⟩ := t.exists_node
    obtain ⟨⟨least, -⟩, -⟩ := LTree.sized_node.mp sized
    obtain ⟨front, ⟨c, u⟩, rfl⟩ := exists_last (l := rest) (by rintro rfl; cases least)
    obtain ⟨block, -, follows⟩ := linked_node.mp here
    have leaf := isLeaf_leaf follows.1
    obtain ⟨-, last⟩ := follows_append.mp follows
    obtain ⟨between, -, -⟩ := follows_cons.mp last
    refine ⟨.top, n, front, c, rfl, rfl, ?_⟩
    rw [root_node, highest, run_bind (run_node block)]
    simp only [List.map_append, List.map_cons, List.map_nil, List.getLast?_concat] at leaf ⊢
    rw [run_bind (run_element between)]
    simp only [root]
    rw [run_bind leaf, if_pos rfl, run_pure]
  | succ D ih =>
    obtain ⟨⟨n, first, rest⟩, rfl⟩ := t.exists_node
    obtain ⟨⟨least, -⟩, -, children⟩ := LTree.sized_node.mp sized
    obtain ⟨front, ⟨c, u⟩, rfl⟩ := exists_last (l := rest) (by rintro rfl; cases least)
    obtain ⟨k, rfl⟩ := Nat.exists_eq_succ_of_ne_zero (show k ≠ 0 by omega)
    obtain ⟨block, -, follows⟩ := linked_node.mp here
    obtain ⟨-, last⟩ := follows_append.mp follows
    obtain ⟨between, child, -⟩ := follows_cons.mp last
    obtain ⟨r, m, front', c', same, ends, run⟩ := ih child (children (c, u) (by simp)) k
      (Nat.le_of_succ_le_succ fuel)
    obtain ⟨before, closed, -⟩ := close_append (l := n) first front c []
    refine ⟨r.append (.under ⟨n, before, []⟩ .top), m, front', c', ?_, ?_, ?_⟩
    · rw [Route.plug_append, ← same, ← closed u]
      rfl
    · rw [Route.right_append, ends]
      rfl
    · obtain ⟨row, node⟩ := u.exists_node
      rw [root_node, highest, run_bind (run_node block)]
      simp only [List.map_append, List.map_cons, List.map_nil, List.getLast?_concat]
      rw [run_bind (run_element between)]
      rw [node] at run ⊢
      exact run

theorem lowest_linked {k : Nat} {t : Branch K V (D + 1)} (here : Linked s t p)
    (sized : t.Sized minElementsPerNode maxElementsPerNode) (fuel : D + 1 ≤ k) :
    ∃ r : Route Nat (Cell K V) (D + 1) 1, ∃ n c back,
      t = r.plug (.node ⟨n, .nil, (c, .nil) :: back⟩) ∧ r.left = [] ∧
      lowest k (root t) s = some (some (n, c.address), s) := by
  obtain ⟨k, rfl⟩ := Nat.exists_eq_succ_of_ne_zero (show k ≠ 0 by omega)
  induction D generalizing k p with
  | zero =>
    obtain ⟨⟨n, first, rest⟩, rfl⟩ := t.exists_node
    obtain ⟨⟨least, -⟩, -⟩ := LTree.sized_node.mp sized
    cases rest with
    | nil => cases least
    | cons e rest =>
    obtain ⟨c, u⟩ := e
    obtain ⟨block, -, follows⟩ := linked_node.mp here
    have leaf := isLeaf_leaf follows.1
    obtain ⟨between, -, -⟩ := follows_cons.mp follows
    refine ⟨.top, n, c, rest, rfl, rfl, ?_⟩
    rw [root_node, lowest, run_bind (run_node block)]
    simp only [List.map_cons, List.head?_cons] at leaf ⊢
    rw [run_bind (run_element between)]
    simp only [root]
    rw [run_bind leaf, if_pos rfl, run_pure]
  | succ D ih =>
    obtain ⟨⟨n, first, rest⟩, rfl⟩ := t.exists_node
    obtain ⟨⟨least, -⟩, sub, -⟩ := LTree.sized_node.mp sized
    cases rest with
    | nil => cases least
    | cons e rest =>
    obtain ⟨c, u⟩ := e
    obtain ⟨k, rfl⟩ := Nat.exists_eq_succ_of_ne_zero (show k ≠ 0 by omega)
    obtain ⟨block, child, follows⟩ := linked_node.mp here
    obtain ⟨between, -, -⟩ := follows_cons.mp follows
    obtain ⟨r, m, c', back, same, ends, run⟩ := ih child sub k (Nat.le_of_succ_le_succ fuel)
    refine ⟨r.append (.under ⟨n, [], (c, u) :: rest⟩ .top), m, c', back, ?_, ?_, ?_⟩
    · rw [Route.plug_append, ← same]
      rfl
    · rw [Route.left_append, ends]
      rfl
    · obtain ⟨row, node⟩ := LTree.exists_node first
      rw [root_node, lowest, run_bind (run_node block)]
      simp only [List.map_cons, List.head?_cons]
      rw [run_bind (run_element between)]
      simp only at run ⊢
      rw [node] at run ⊢
      exact run

end Ends

end BTree
