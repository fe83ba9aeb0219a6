import UpanLibs.Ds.BTreeSearch

/-!
`Search` in one node, for which the keys of the node's elements suffice, and the step of
`FindElement` that follows it.
-/
namespace BTree
open Memory (Heap)
open LevelTree

variable {K V : Type} {s : Store K V} {o : KeyOrder K} {key : K} {n : Nat} {es : List Nat}

/-- A node with elements whose keys are strictly increasing. -/
structure SortedNode (o : KeyOrder K) (s : Store K V) (n : Nat) (es : List Nat) : Prop where
  block : ∃ p, s.nodes.block n = some ⟨p, es⟩
  any : es ≠ []
  live : ∀ e ∈ es, ∃ el, s.elements e = some el
  increasing : es.Pairwise fun a b => ∀ x y, s.elements a = some x → s.elements b = some y →
    o.less x.key y.key = true

def InSlot (s : Store K V) (o : KeyOrder K) (key : K) (es : List Nat) (slot : Nat) : Prop :=
  slot ≤ es.length ∧ Place s o key (es.take slot) (es.drop slot)

/-- What an answer of `Search` says: the element has the key, or the child on the one side of
    the element is the only one in whose interval the key is. -/
inductive Points (s : Store K V) (o : KeyOrder K) (key : K) (es : List Nat) :
    Nat → Direction → Prop
  | found {e : Nat} {el : BTreeElement K V} (mem : e ∈ es) (live : s.elements e = some el)
      (equal : o.equal key el.key = true) : Points s o key es e .found
  | left {e i : Nat} (at_ : es[i]? = some e) (only : ∀ j, InSlot s o key es j ↔ j = i) :
      Points s o key es e .left
  | right {e i : Nat} (at_ : es[i]? = some e) (only : ∀ j, InSlot s o key es j ↔ j = i + 1) :
      Points s o key es e .right

theorem inSlot_le {i j : Nat} (here : InSlot s o key es i) (there : InSlot s o key es j) :
    i ≤ j := by
  by_contra less
  have inside : j < es.length := Nat.lt_of_lt_of_le (Nat.not_le.mp less) here.1
  obtain ⟨el, live, below⟩ := here.2.below es[j]
    (List.mem_take_iff_getElem.mpr ⟨j, by omega, rfl⟩)
  obtain ⟨el', live', above⟩ := there.2.above es[j]
    (List.mem_drop_iff_getElem.mpr ⟨0, by simpa using inside, rfl⟩)
  rw [live, Option.some.injEq] at live'
  subst live'
  rw [less_asymm below] at above
  cases above

theorem inSlot_only {i : Nat} (here : InSlot s o key es i) (j : Nat) :
    InSlot s o key es j ↔ j = i := by
  constructor
  · intro there
    exact Nat.le_antisymm (inSlot_le there here) (inSlot_le here there)
  · rintro rfl
    exact here

theorem inSlot_append {front back : List Nat} (place : Place s o key front back) :
    InSlot s o key (front ++ back) front.length := by
  refine ⟨by simp, ?_⟩
  rw [List.take_left, List.drop_left]
  exact place

theorem exists_split (key : K) (live : ∀ e ∈ es, ∃ el, s.elements e = some el)
    (increasing : es.Pairwise fun a b => ∀ x y, s.elements a = some x →
      s.elements b = some y → o.less x.key y.key = true) :
    (∃ front e back el, es = front ++ e :: back ∧ Place s o key front back ∧
      s.elements e = some el ∧ o.equal key el.key = true) ∨
    ∃ front back, es = front ++ back ∧ Place s o key front back := by
  induction es with
  | nil => exact .inr ⟨[], [], rfl, by simp, by simp⟩
  | cons e es ih =>
    obtain ⟨⟨el, here⟩, live⟩ := List.forall_mem_cons.mp live
    obtain ⟨more, increasing⟩ := List.pairwise_cons.mp increasing
    have later {c : K} (least : o.less el.key c = false) :
        ∀ a ∈ es, ∃ x, s.elements a = some x ∧ o.less c x.key = true := by
      intro a mem
      obtain ⟨x, there⟩ := live a mem
      refine ⟨x, there, ?_⟩
      rcases o.cotrans c (more a mem el x here there) with less | less
      · rw [least] at less
        cases less
      · exact less
    rcases key_cases o key el.key with less | equal | above
    · refine .inr ⟨[], e :: es, rfl, by simp, ?_⟩
      exact List.forall_mem_cons.mpr ⟨⟨el, here, less⟩, later (less_asymm less)⟩
    · have least : o.less el.key key = false := by
        cases less : o.less el.key key with
        | false => rfl
        | true => rw [equal_of_more less] at equal; cases equal
      exact .inl ⟨[], e, es, el, rfl, ⟨by simp, later least⟩, here, equal⟩
    · have front {l r : List Nat} (place : Place s o key l r) : Place s o key (e :: l) r :=
        ⟨List.forall_mem_cons.mpr ⟨⟨el, here, above⟩, place.below⟩, place.above⟩
      rcases ih live increasing with ⟨l, a, r, x, rfl, place, there, equal⟩ | ⟨l, r, rfl, place⟩
      · exact .inl ⟨e :: l, a, r, x, rfl, front place, there, equal⟩
      · exact .inr ⟨e :: l, r, rfl, front place⟩

theorem search_more {k i j : Nat} {r : Option (Nat × Direction) × Store K V}
    (run : search o key es k i j s = some r) : search o key es (k + 1) i j s = some r := by
  induction k generalizing i j with
  | zero => cases run
  | succ k ih =>
    rw [search] at run ⊢
    by_cases single : i = j
    · rw [if_pos single] at run ⊢
      exact run
    · rw [if_neg single] at run ⊢
      by_cases wide : i < j
      · rw [if_pos wide] at run ⊢
        cases at_ : es[i + (j - i) / 2]? with
        | none =>
          rw [at_] at run
          cases run
        | some e =>
          cases live : s.elements e with
          | none =>
            rw [at_, run_bind (run_deref e)] at run
            simp [element, live, bind, StateT.bind] at run
          | some el =>
            simp only [at_] at run ⊢
            rw [run_bind (run_deref e), run_bind (run_element live)] at run ⊢
            by_cases equal : o.equal key el.key = true
            · rw [if_pos equal] at run ⊢
              exact run
            · rw [if_neg equal] at run ⊢
              by_cases less : o.less el.key key = true
              · rw [if_pos less] at run ⊢
                exact ih run
              · rw [if_neg less] at run ⊢
                exact ih run
      · rw [if_neg wide] at run ⊢
        exact run

theorem search_enough {k m i j : Nat} {r : Option (Nat × Direction) × Store K V}
    (run : search o key es k i j s = some r) (enough : k ≤ m) :
    search o key es m i j s = some r := by
  induction m, enough using Nat.le_induction with
  | base => exact run
  | succ m _ ih => exact search_more ih

theorem search_points (node : SortedNode o s n es) (key : K) :
    ∃ e d, search o key es es.length 0 (es.length - 1) s = some (some (e, d), s) ∧
      Points s o key es e d := by
  obtain ⟨-, any, live, increasing⟩ := node
  have positive := List.length_pos_iff.mpr any
  rcases exists_split key live increasing with
    ⟨front, e, back, el, rfl, place, here, equal⟩ | ⟨front, back, rfl, place⟩
  · have size : (front ++ e :: back).length = front.length + back.length + 1 := by
      rw [List.length_append, List.length_cons]
      omega
    refine ⟨e, .found, ?_, .found (by simp) here equal⟩
    exact search_found place here equal (Nat.zero_le _) (by omega) (by omega) (by omega)
  · have slot := inSlot_only (inSlot_append place)
    rw [List.length_append] at positive ⊢
    rcases search_gap place (Nat.zero_le _) (Nat.zero_le _)
        (j := front.length + back.length - 1) (by omega) (by omega)
        (k := front.length + back.length) (by omega) with ⟨a, last, run⟩ | ⟨a, next, run⟩
    · obtain ⟨before, rfl⟩ := List.getLast?_eq_some_iff.mp last
      rw [List.length_append, List.length_singleton] at slot
      exact ⟨a, .right, run, .right (i := before.length) (by simp) slot⟩
    · obtain ⟨after, rfl⟩ := List.head?_eq_some_iff.mp next
      exact ⟨a, .left, run, .left (i := front.length) (by simp) slot⟩

/-- The step of `FindElement` after an answer of `Search`. -/
def follow (o : KeyOrder K) (key : K) (k n e : Nat) (el : BTreeElement K V) :
    Direction → Program K V (Option (Nat × Nat))
  | .found => pure (some (n, e))
  | .left => findElement o key k el.leftNode
  | .right => findElement o key k el.rightNode

theorem findElement_follows {p : Option Nat} {e : Nat} {d : Direction} {el : BTreeElement K V}
    (block : s.nodes.block n = some ⟨p, es⟩) (any : es ≠ [])
    (run : search o key es es.length 0 (es.length - 1) s = some (some (e, d), s))
    (live : s.elements e = some el) (k : Nat) :
    findElement o key (k + 1) (some n) s = follow o key k n e el d s := by
  rw [findElement, run_bind (run_node block)]
  simp only
  rw [if_neg (fun none => any (List.length_eq_zero_iff.mp none)), run_bind run]
  cases d with
  | found => rfl
  | left => simp only [run_bind (run_element live), follow]
  | right => simp only [run_bind (run_element live), follow]

theorem findElement_only {d : Nat} {row : Row Nat (Cell K V) (Branch K V d)} {p : Option Nat}
    (here : Linked s (.node row) p) (any : row.rest ≠ [])
    (ordered : Ordered o (LTree.node row).inorder) (key : K) :
    (∃ c ∈ row.rest.map Prod.fst, o.equal key c.key = true ∧
      ∀ k, findElement o key (k + 1) (some row.label) s = some (some (row.label, c.address), s)) ∨
    ∃ before t after, row = close row.label before t after ∧
      (∀ k, findElement o key (k + 1) (some row.label) s = findElement o key k (root t) s) ∧
      ∀ c ∈ (LTree.node row).inorder, o.equal key c.key = true → c ∈ t.inorder := by
  rcases row_place key ordered with
    ⟨l, before, x, c, u, after, rfl, equal, below, above⟩ |
    ⟨l, before, x, after, rfl, below, above⟩
  · rw [close_label, close_separators]
    exact .inl ⟨c, by simp, equal, fun k => findElement_found here below equal above⟩
  · have count : before.length + after.length ≠ 0 := by
      rw [← close_length (l := l) (t := x)]
      exact fun none => any (List.length_eq_zero_iff.mp none)
    refine .inr ⟨before, x, after, by rw [close_label], ?_, ?_⟩
    · rw [close_label]
      exact fun k => findElement_gap here below above count
    · intro c mem equal
      obtain ⟨notLess, notMore⟩ : o.less key c.key = false ∧ o.less c.key key = false := by
        simpa [KeyOrder.equal] using equal
      rw [LTree.inorder_close] at ordered mem
      obtain ⟨front, back, -⟩ := List.pairwise_append.mp ordered
      rcases List.mem_append.mp mem with mem | mem
      · rcases List.mem_append.mp mem with mem | mem
        · rw [left_of_gap (List.pairwise_append.mp front).1 below c mem] at notMore
          cases notMore
        · exact mem
      · rw [right_of_gap back above c mem] at notLess
        cases notLess

/-- `Search` in a node, and the step of `FindElement` after it. -/
theorem search_spec (node : SortedNode o s n es) (key : K) :
    (∃ e d el, (∀ k, es.length ≤ k →
          search o key es k 0 (es.length - 1) s = some (some (e, d), s)) ∧
        Points s o key es e d ∧ s.elements e = some el ∧
        ∀ k, findElement o key (k + 1) (some n) s = follow o key k n e el d s) ∧
      ∀ d p, ∀ row : Row Nat (Cell K V) (Branch K V d), Linked s (.node row) p → row.label = n →
        Ordered o (LTree.node row).inorder →
        (∃ c ∈ row.rest.map Prod.fst, o.equal key c.key = true ∧
          ∀ k, findElement o key (k + 1) (some n) s = some (some (n, c.address), s)) ∨
        ∃ before t after, row = close n before t after ∧
          (∀ k, findElement o key (k + 1) (some n) s = findElement o key k (root t) s) ∧
          ∀ c ∈ (LTree.node row).inorder, o.equal key c.key = true → c ∈ t.inorder := by
  obtain ⟨q, block⟩ := node.block
  constructor
  · obtain ⟨e, d, run, points⟩ := search_points node key
    have mem : e ∈ es := by
      cases points with
      | found mem => exact mem
      | left at_ => exact List.mem_of_getElem? at_
      | right at_ => exact List.mem_of_getElem? at_
    obtain ⟨el, live⟩ := node.live e mem
    exact ⟨e, d, el, fun k enough => search_enough run enough, points, live,
      findElement_follows block node.any run live⟩
  · rintro d p row here rfl ordered
    have whole := (linked_node.mp here).1
    rw [block, Option.some.injEq, BTreeNode.mk.injEq] at whole
    refine findElement_only here (fun none => node.any ?_) ordered key
    rw [whole.2, none]
    rfl

def oddKeys : Store Nat Nat where
  nodes := Heap.empty.add ⟨none, [0, 1, 2]⟩
  elements e := if e < 3 then some ⟨2 * e + 1, e, none, none⟩ else none

theorem search_spec_odd :
    (∃ e d el, (∀ k, [0, 1, 2].length ≤ k → search natKeys 4 [0, 1, 2] k 0 2 oddKeys =
          some (some (e, d), oddKeys)) ∧
        Points oddKeys natKeys 4 [0, 1, 2] e d ∧ oddKeys.elements e = some el ∧
        ∀ k, findElement natKeys 4 (k + 1) (some 0) oddKeys =
          follow natKeys 4 k 0 e el d oddKeys) ∧
      ∀ d p, ∀ row : Row Nat (Cell Nat Nat) (Branch Nat Nat d), Linked oddKeys (.node row) p →
        row.label = 0 → Ordered natKeys (LTree.node row).inorder →
        (∃ c ∈ row.rest.map Prod.fst, natKeys.equal 4 c.key = true ∧
          ∀ k, findElement natKeys 4 (k + 1) (some 0) oddKeys =
            some (some (0, c.address), oddKeys)) ∨
        ∃ before t after, row = close 0 before t after ∧
          (∀ k, findElement natKeys 4 (k + 1) (some 0) oddKeys =
            findElement natKeys 4 k (root t) oddKeys) ∧
          ∀ c ∈ (LTree.node row).inorder, natKeys.equal 4 c.key = true → c ∈ t.inorder := by
  refine search_spec ⟨⟨none, rfl⟩, by decide, ?_, ?_⟩ 4
  · intro e mem
    refine ⟨_, if_pos ?_⟩
    simp only [List.mem_cons, List.not_mem_nil, or_false] at mem
    omega
  · simp [oddKeys, natKeys]

end BTree
