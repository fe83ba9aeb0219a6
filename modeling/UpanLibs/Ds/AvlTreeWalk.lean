import UpanLibs.Ds.AvlTreeLinked

/-!
The ways through a linked tree: down to the last node on a side, on to the next one, and to
the first one. An iterator at a node steps to the node of the next element.
-/
namespace AvlTree
open Memory HeightTree HeightTree.HTree

variable {V : Type}

def at_ (l : List (Nat × V)) : Option Nat := l.head?.map Prod.fst

@[simp]
theorem at_nil : at_ ([] : List (Nat × V)) = none := rfl

@[simp]
theorem at_cons (x : Nat × V) (l : List (Nat × V)) : at_ (x :: l) = some x.1 := rfl

theorem at_append (l l' : List (Nat × V)) : at_ (l ++ l') = (at_ l).or (at_ l') := by
  cases l <;> rfl

theorem split_around {α : Type} {l r before after : List α} {x z : α}
    (same : l ++ x :: r = before ++ z :: after) :
    (∃ m, l = before ++ z :: m ∧ after = m ++ x :: r) ∨ (x = z ∧ r = after) ∨
      ∃ m, r = m ++ z :: after := by
  rw [List.append_eq_append_iff] at same
  obtain ⟨m, rfl, rest⟩ | ⟨m, rfl, rest⟩ := same
  · cases m with
    | nil =>
      rw [List.nil_append, List.cons.injEq] at rest
      exact .inr (.inl rest)
    | cons w m =>
      rw [List.cons_append, List.cons.injEq] at rest
      exact .inr (.inr ⟨m, rest.2⟩)
  · cases m with
    | nil =>
      rw [List.nil_append, List.cons.injEq] at rest
      exact .inr (.inl ⟨rest.1.symm, rest.2.symm⟩)
    | cons w m =>
      rw [List.cons_append, List.cons.injEq] at rest
      obtain ⟨rfl, rfl⟩ := rest
      exact .inl ⟨m, rfl, rfl⟩

section Walks

variable {d : Side} {t : Cells V} {p : Option Nat} {h : Heap (Node V)} {a : Nat}

theorem extreme_run (d : Side) : ∀ (rounds : Nat) {t : Cells V} {p : Option Nat} {a : Nat},
    Linked h t p → root t = some a → t.depth ≤ rounds →
    ∃ z rest, t.order d.other = z :: rest ∧ extreme d rounds a h = some (z.1, h) := by
  intro rounds
  induction rounds with
  | zero =>
    intro t p a linked top enough
    cases t with
    | leaf => cases top
    | node l x k r =>
      rw [depth] at enough
      omega
  | succ rounds ih =>
    intro t p a linked top enough
    obtain ⟨c, x, k, o, rfl⟩ := exists_make (t := t) d (by
      rintro rfl
      cases top)
    rw [root_make, Option.some.injEq] at top
    subst top
    obtain ⟨here, low, -⟩ := linked_make.mp linked
    rw [depth_make] at enough
    rw [extreme, run_bind (run_child here d), nodeOf_child, ← make_other, order_make]
    cases down : root c with
    | none =>
      rw [root_eq_none.mp down, order_leaf]
      exact ⟨x, o.order d.other, rfl, rfl⟩
    | some b =>
      obtain ⟨z, rest, first, run⟩ := ih low down (by omega)
      exact ⟨z, rest ++ x :: o.order d.other, by rw [first]; rfl, run⟩

/-- A climb that starts at the root of `t` ends at `up`, after `m` steps at most. -/
def Climbs (d : Side) (h : Heap (Node V)) (t : Cells V) (p up : Option Nat) (m : Nat) : Prop :=
  ∀ a, root t = some a → ∀ rounds, m ≤ rounds → climb d rounds a p h = some (up, h)

theorem climbs_top (d : Side) (h : Heap (Node V)) (t : Cells V) : Climbs d h t none none 1 := by
  intro a top rounds enough
  obtain ⟨rounds, rfl⟩ : ∃ k, rounds = k + 1 := ⟨rounds - 1, by omega⟩
  rfl

variable {c o : Cells V} {x : Nat × V} {k m : Nat} {up : Option Nat}

theorem Climbs.inner (linked : Linked h (make d c x k o) p)
    (climbs : Climbs d h (make d c x k o) p up m) : Climbs d h c (some x.1) up (m + 1) := by
  intro a top rounds enough
  obtain ⟨rounds, rfl⟩ : ∃ k, rounds = k + 1 := ⟨rounds - 1, by omega⟩
  have here := (linked_make.mp linked).1
  rw [climb, run_bind (run_child here d), nodeOf_child, if_pos top, run_bind (run_parent here),
    nodeOf_parent]
  exact climbs x.1 root_make rounds (by omega)

theorem climbs_outer (linked : Linked h (make d c x k o) p)
    (nodup : (ids (make d c x k o)).Nodup) : Climbs d h o (some x.1) (some x.1) 1 := by
  intro a top rounds enough
  obtain ⟨rounds, rfl⟩ : ∃ k, rounds = k + 1 := ⟨rounds - 1, by omega⟩
  obtain ⟨-, -, -, -, apart⟩ := nodup_make.mp nodup
  have other : root c ≠ some a := fun inner => apart a (root_mem inner) (root_mem top)
  rw [climb, run_bind (run_child (linked_make.mp linked).1 d), nodeOf_child, if_neg other]
  rfl

theorem neighbour_run (linked : Linked h t p) (nodup : (ids t).Nodup)
    (climbs : Climbs d h t p up m) {before after : List (Nat × V)} {z : Nat × V}
    (order : t.order d = before ++ z :: after) {rounds : Nat} (enough : m + t.depth ≤ rounds) :
    neighbour d rounds z.1 h = some ((at_ after).or up, h) := by
  induction t using inductSides d generalizing p up m before after with
  | leaf => cases before <;> cases order
  | node c x k o inner outer =>
    obtain ⟨here, low, high⟩ := linked_make.mp linked
    obtain ⟨nodupC, nodupO, -⟩ := nodup_make.mp nodup
    rw [order_make] at order
    rw [depth_make] at enough
    obtain ⟨l, first, rfl⟩ | ⟨rfl, rfl⟩ | ⟨l, last⟩ := split_around order
    · rw [outer high nodupO (climbs_outer linked nodup) first (by omega), at_append, at_cons,
        Option.or_assoc]
      rfl
    · rw [neighbour, run_bind (run_child here d), nodeOf_child]
      cases down : root c with
      | none =>
        rw [root_eq_none.mp down, order_leaf, at_nil, Option.none_or]
        exact (run_bind (run_parent here)).trans
          ((congrArg (climb d rounds x.1 · h) nodeOf_parent).trans
            (climbs x.1 root_make rounds (by omega)))
      | some b =>
        obtain ⟨w, rest, first, run⟩ := extreme_run d.other rounds low down (by omega)
        rw [Side.other_other] at first
        rw [first]
        exact run_bind run
    · exact inner low nodupC (climbs.inner linked) last (by omega)

variable {before after : List (Nat × V)} {z : Nat × V} {n : Nat}

theorem successor_run (linked : Linked h t none) (nodup : (ids t).Nodup)
    (cells : t.cells = before ++ z :: after) (enough : t.depth < n) :
    successor n z.1 h = some (at_ after, h) := by
  rw [← order_right] at cells
  have enough' : 1 + t.depth ≤ n := by omega
  have run := neighbour_run linked nodup (climbs_top .right h t) cells enough'
  rw [Option.or_none] at run
  exact run

theorem predecessor_run (linked : Linked h t none) (nodup : (ids t).Nodup)
    (cells : t.cells = before ++ z :: after) (enough : t.depth < n) :
    predecessor n z.1 h = some (at_ before.reverse, h) := by
  have order : t.order .left = after.reverse ++ z :: before.reverse := by
    rw [order_left, cells]
    simp
  have enough' : 1 + t.depth ≤ n := by omega
  have run := neighbour_run linked nodup (climbs_top .left h t) order enough'
  rw [Option.or_none] at run
  exact run

theorem run_rounds (h : Heap (Node V)) : rounds h = some (h.next + 1, h) := rfl

theorem begin_run (linked : Linked h t p) (nodup : (ids t).Nodup) (n : Nat) :
    Avl.begin ⟨root t, n⟩ h = some (at_ t.cells, h) := by
  have enough := linked.depth_le nodup
  cases top : root t with
  | none =>
    rw [root_eq_none.mp top]
    rfl
  | some a =>
    obtain ⟨z, rest, first, run⟩ := extreme_run .left (h.next + 1) linked top (Nat.le_succ_of_le enough)
    rw [Side.other, order_right] at first
    rw [first, Avl.begin]
    exact (run_bind (run_rounds h)).trans (run_bind run)

theorem preInc_run (linked : Linked h t none) (nodup : (ids t).Nodup)
    (cells : t.cells = before ++ z :: after) :
    Avl.preInc (some z.1) h = some (at_ after, h) := by
  have enough := linked.depth_le nodup
  rw [Avl.preInc, run_bind (run_deref z.1), run_bind (run_rounds h)]
  exact successor_run linked nodup cells (by omega)

theorem postInc_run (linked : Linked h t none) (nodup : (ids t).Nodup)
    (cells : t.cells = before ++ z :: after) :
    Avl.postInc (some z.1) h = some ((some z.1, at_ after), h) := by
  rw [Avl.postInc, run_bind (preInc_run linked nodup cells)]
  rfl

theorem value_run (linked : Linked h t p) (mem : z ∈ t.cells) :
    Avl.value (some z.1) h = some (z.2, h) := by
  obtain ⟨n, here, element⟩ := linked.element mem
  rw [Avl.value, run_bind (run_deref z.1), run_element here, element]

end Walks

end AvlTree
