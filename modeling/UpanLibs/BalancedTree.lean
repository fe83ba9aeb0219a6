import UpanLibs.HeightTree

/-!
Trees whose stored heights are right and whose sides nowhere differ by more than one. Putting
a label in makes such a tree at most one higher, and taking one out at most one lower.
-/
namespace HeightTree.HTree

universe u

variable {α : Type u}

def Balanced : HTree α → Prop
  | leaf => True
  | node l _ k r => l.Balanced ∧ r.Balanced ∧ k = max l.height r.height + 1 ∧
      l.height ≤ r.height + 1 ∧ r.height ≤ l.height + 1

theorem balanced_make {d : Side} {c o : HTree α} {x : α} {k : Nat} :
    (make d c x k o).Balanced ↔ c.Balanced ∧ o.Balanced ∧ k = max c.height o.height + 1 ∧
      c.height ≤ o.height + 1 ∧ o.height ≤ c.height + 1 := by
  cases d
  · rfl
  · simp only [make, Balanced]
    rw [Nat.max_comm]
    grind

theorem balanced_raise {d : Side} {c o : HTree α} {x : α} :
    (raise d c x o).Balanced ↔ c.Balanced ∧ o.Balanced ∧
      c.height ≤ o.height + 1 ∧ o.height ≤ c.height + 1 := by
  rw [raise, balanced_make]
  grind

theorem Balanced.map {t : HTree α} (balanced : t.Balanced) (f : α → α) : (t.map f).Balanced := by
  induction t with
  | leaf => trivial
  | node l x k r left right =>
    obtain ⟨low, high, rest⟩ := balanced
    refine ⟨left low, right high, ?_⟩
    rw [height_map, height_map]
    exact rest

theorem Balanced.settle {d : Side} {c o : HTree α} {x : α} {k : Nat} (low : c.Balanced)
    (high : o.Balanced) (uneven : c.height = o.height + 2) :
    ((make d c x k o).settle d).Balanced ∧
      c.height ≤ ((make d c x k o).settle d).height ∧
      ((make d c x k o).settle d).height ≤ c.height + 1 := by
  obtain ⟨b, y, j, e, rfl⟩ := exists_make (t := c) d (by
    rintro rfl
    rw [height_leaf] at uneven
    omega)
  rw [settle_make, lean_make]
  obtain ⟨outer, inner, rfl, near, near'⟩ := balanced_make.mp low
  rw [height_make] at uneven ⊢
  split
  next =>
    rw [← make_other, ← make_other d b, rotate_make]
    simp only [balanced_raise, height_raise]
    refine ⟨⟨⟨high, inner, ?_, ?_⟩, outer, ?_, ?_⟩, ?_, ?_⟩
    all_goals omega
  next =>
    obtain ⟨f, z, i, g, rfl⟩ := exists_make (t := e) d (by
      rintro rfl
      rw [height_leaf] at *
      omega)
    rw [rotate_make, raise, ← make_other d (raise d b y f), ← make_other, rotate_make]
    obtain ⟨first, second, rfl, close, close'⟩ := balanced_make.mp inner
    rw [height_make] at *
    simp only [balanced_raise, height_raise]
    refine ⟨⟨⟨high, second, ?_, ?_⟩, ⟨outer, first, ?_, ?_⟩, ?_, ?_⟩, ?_, ?_⟩
    all_goals omega

theorem Balanced.rebalance {l r : HTree α} {x : α} {k : Nat} (left : l.Balanced)
    (right : r.Balanced) (near : l.height ≤ r.height + 2) (near' : r.height ≤ l.height + 2) :
    (node l x k r).rebalance.Balanced ∧
      max l.height r.height ≤ (node l x k r).rebalance.height ∧
      (node l x k r).rebalance.height ≤ max l.height r.height + 1 ∧
      (l.height ≤ r.height + 1 → r.height ≤ l.height + 1 →
        (node l x k r).rebalance.height = max l.height r.height + 1) := by
  have onLeft : (raise .left l x r).lean .left = (l.height : Int) - r.height := lean_make .left l r x _
  rw [HTree.rebalance, onLeft]
  split
  next high =>
    obtain ⟨balanced, above, below⟩ := Balanced.settle (d := .left) (x := x)
      (k := max l.height r.height + 1) left right (by omega)
    exact ⟨balanced, by rw [raise]; omega, by rw [raise]; omega, by omega⟩
  split
  next high =>
    obtain ⟨balanced, above, below⟩ := Balanced.settle (d := .right) (x := x)
      (k := max l.height r.height + 1) right left (by omega)
    have same : make .right r x (max l.height r.height + 1) l = raise .left l x r := rfl
    rw [same] at balanced above below
    exact ⟨balanced, by omega, by omega, by omega⟩
  next =>
    rw [height_raise, balanced_raise]
    refine ⟨⟨left, right, ?_, ?_⟩, ?_, ?_, ?_⟩
    all_goals omega

def Shrinks (t t' : HTree α) : Prop :=
  t'.Balanced ∧ t'.height ≤ t.height ∧ t.height ≤ t'.height + 1

def Grows (t t' : HTree α) : Prop :=
  t'.Balanced ∧ t.height ≤ t'.height ∧ t'.height ≤ t.height + 1

theorem Balanced.replace {d : Side} {c c' o : HTree α} {x y : α} {k j : Nat}
    (balanced : (make d c x k o).Balanced) (below : c'.Balanced)
    (near : c'.height ≤ c.height + 1) (near' : c.height ≤ c'.height + 1) :
    (make d c' y j o).rebalance.Balanced ∧
      max c'.height o.height ≤ (make d c' y j o).rebalance.height ∧
      (make d c' y j o).rebalance.height ≤ max c'.height o.height + 1 ∧
      (c'.height ≤ o.height + 1 → o.height ≤ c'.height + 1 →
        (make d c' y j o).rebalance.height = max c'.height o.height + 1) := by
  obtain ⟨-, high, -, close, close'⟩ := balanced_make.mp balanced
  cases d with
  | left => exact Balanced.rebalance below high (by omega) (by omega)
  | right =>
    obtain ⟨balanced', above, under, kept⟩ := Balanced.rebalance (x := y) (k := j) high below
      (by omega) (by omega)
    rw [Nat.max_comm] at above under kept
    exact ⟨balanced', above, under, fun one other => kept other one⟩

theorem Balanced.shrink {d : Side} {c c' o : HTree α} {x y : α} {k j : Nat}
    (balanced : (make d c x k o).Balanced) (shrinks : Shrinks c c') :
    Shrinks (make d c x k o) (make d c' y j o).rebalance := by
  obtain ⟨below, lower, upper⟩ := shrinks
  obtain ⟨balanced', above, under, kept⟩ := balanced.replace (y := y) (j := j) below
    (by omega) upper
  obtain ⟨-, -, rfl, near, near'⟩ := balanced_make.mp balanced
  rw [Shrinks, height_make]
  exact ⟨balanced', by omega, by omega⟩

theorem Balanced.grow {d : Side} {c c' o : HTree α} {x : α} {k j : Nat}
    (balanced : (make d c x k o).Balanced) (grows : Grows c c') :
    Grows (make d c x k o) (make d c' x j o).rebalance := by
  obtain ⟨below, lower, upper⟩ := grows
  obtain ⟨balanced', above, under, kept⟩ := balanced.replace (y := x) (j := j) below
    upper (by omega)
  obtain ⟨-, -, rfl, near, near'⟩ := balanced_make.mp balanced
  rw [Grows, height_make]
  exact ⟨balanced', by omega, by omega⟩

theorem Balanced.only {d : Side} {c : HTree α} {x : α} {k : Nat}
    (balanced : (make d c x k leaf).Balanced) : Shrinks (make d c x k leaf) c := by
  obtain ⟨below, -, rfl, near, -⟩ := balanced_make.mp balanced
  rw [height_leaf] at near
  rw [Shrinks, height_make, height_leaf]
  refine ⟨below, ?_, ?_⟩
  all_goals omega

theorem Balanced.pop {t t' : HTree α} {y : α} (balanced : t.Balanced)
    (first : t.pop = some (y, t')) : Shrinks t t' := by
  induction t generalizing y t' with
  | leaf => cases first
  | node l x k r left _ =>
    rw [HTree.pop] at first
    cases popped : l.pop with
    | none =>
      rw [popped] at first
      cases first
      obtain rfl := pop_leaf_iff.mp popped
      exact Balanced.only (d := .right) balanced
    | some found =>
      obtain ⟨z, l'⟩ := found
      rw [popped] at first
      cases first
      exact Balanced.shrink (d := .left) balanced (left balanced.1 popped)

theorem Balanced.join {l r : HTree α} {x : α} {k : Nat} (balanced : (node l x k r).Balanced) :
    Shrinks (node l x k r) (join l r) := by
  by_cases outer : l = leaf
  · subst outer
    exact Balanced.only (d := .right) balanced
  cases popped : r.pop with
  | none =>
    obtain rfl := pop_leaf_iff.mp popped
    rw [join_leaf]
    exact Balanced.only (d := .left) balanced
  | some found =>
    obtain ⟨y, r'⟩ := found
    rw [join_pop outer popped 0]
    exact Balanced.shrink (d := .right) balanced (balanced.2.1.pop popped)

variable {seek : α → Option Side}

theorem Balanced.erase {t : HTree α} (balanced : t.Balanced) :
    Shrinks t (t.erase seek).1 := by
  induction t with
  | leaf => exact ⟨trivial, Nat.le_refl _, Nat.zero_le _⟩
  | node l x k r left right =>
    obtain ⟨low, high, -⟩ := id balanced
    rw [HTree.erase]
    split
    next =>
      cases found : (l.erase seek).2 with
      | false =>
        rw [erase_absent found]
        exact ⟨balanced, Nat.le_refl _, Nat.le_succ _⟩
      | true => exact Balanced.shrink (d := .left) (j := k) balanced (left low)
    next =>
      cases found : (r.erase seek).2 with
      | false =>
        rw [erase_absent found]
        exact ⟨balanced, Nat.le_refl _, Nat.le_succ _⟩
      | true => exact Balanced.shrink (d := .right) (j := k) balanced (right high)
    next => exact balanced.join

theorem Balanced.insert {y : α} {t : HTree α} (balanced : t.Balanced) :
    Grows t (t.insert seek y).1 := by
  induction t with
  | leaf =>
    exact ⟨⟨trivial, trivial, rfl, Nat.zero_le _, Nat.zero_le _⟩, Nat.zero_le _, Nat.le_refl _⟩
  | node l x k r left right =>
    obtain ⟨low, high, -⟩ := id balanced
    rw [HTree.insert]
    split
    next =>
      cases new : (l.insert seek y).2 with
      | false =>
        rw [insert_absent new]
        exact ⟨balanced, Nat.le_refl _, Nat.le_succ _⟩
      | true => exact Balanced.grow (d := .left) (j := k) balanced (left low)
    next =>
      cases new : (r.insert seek y).2 with
      | false =>
        rw [insert_absent new]
        exact ⟨balanced, Nat.le_refl _, Nat.le_succ _⟩
      | true => exact Balanced.grow (d := .right) (j := k) balanced (right high)
    next => exact ⟨balanced, Nat.le_refl _, Nat.le_succ _⟩

end HeightTree.HTree
