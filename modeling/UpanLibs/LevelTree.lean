import Mathlib.Data.List.Basic
import Mathlib.Data.List.Perm.Basic
import Mathlib.Data.List.Nodup

/-!
Search trees with many children a node, whose leaves are all at one depth: the depth is a part
of the type. A node has a label and its children, with a separator before each but the first.
A gap is a node without one of its children, and a route is the way from a gap to the root.
-/
namespace LevelTree

variable {ι α T : Type}

structure Row (ι α T : Type) where
  label : ι
  first : T
  rest : List (α × T)

/-- What is before the missing child, the nearest first, and what is after it. -/
structure Gap (ι α T : Type) where
  label : ι
  before : List (α × T)
  after : List (α × T)

def Row.All (P : T → Prop) (n : Row ι α T) : Prop := P n.first ∧ ∀ e ∈ n.rest, P e.2

/-- The node with its children before a child, the nearest first, this child, and those after. -/
def close (label : ι) : List (α × T) → T → List (α × T) → Row ι α T
  | [], t, after => ⟨label, t, after⟩
  | (c, u) :: before, t, after => close label before u ((c, t) :: after)

namespace Gap

def fill (g : Gap ι α T) (t : T) : Row ι α T := close g.label g.before t g.after

def size (g : Gap ι α T) : Nat := g.before.length + g.after.length

end Gap

section Close

variable {l : ι} {before after : List (α × T)} {t : T}

@[simp]
theorem close_label : (close l before t after).label = l := by
  induction before generalizing t after with
  | nil => rfl
  | cons e before ih => exact ih

theorem close_separators : (close l before t after).rest.map Prod.fst =
    (before.map Prod.fst).reverse ++ after.map Prod.fst := by
  induction before generalizing t after with
  | nil => rfl
  | cons e before ih =>
    rw [close, ih]
    simp

theorem close_length : (close l before t after).rest.length = before.length + after.length := by
  rw [← List.length_map Prod.fst, close_separators]
  simp

theorem close_all {P : T → Prop} : (close l before t after).All P ↔
    (∀ e ∈ before, P e.2) ∧ P t ∧ ∀ e ∈ after, P e.2 := by
  induction before generalizing t after with
  | nil => simp [close, Row.All]
  | cons e before ih =>
    rw [close, ih]
    simp only [List.forall_mem_cons]
    tauto

theorem close_append (first : T) (front : List (α × T)) (c : α) (after : List (α × T)) :
    ∃ before, (∀ u, close l before u after = ⟨l, first, front ++ (c, u) :: after⟩) ∧
      (before.map Prod.fst).reverse = front.map Prod.fst ++ [c] := by
  suffices ∀ (front : List (α × T)) (first : T) (before : List (α × T)), ∃ before',
      (∀ u, close l before' u after = close l before first (front ++ (c, u) :: after)) ∧
        (before'.map Prod.fst).reverse =
          (before.map Prod.fst).reverse ++ front.map Prod.fst ++ [c] from this front first []
  intro front
  induction front with
  | nil =>
    intro first before
    exact ⟨(c, first) :: before, fun u => rfl, by simp⟩
  | cons e front ih =>
    intro first before
    obtain ⟨before', same, separators⟩ := ih e.2 ((e.1, first) :: before)
    exact ⟨before', same, by simpa using separators⟩

theorem close_front (before : List (α × T)) (t : T) : ∃ first front,
    (∀ after, close l before t after = ⟨l, first, front ++ after⟩) ∧
      front.map Prod.fst = (before.map Prod.fst).reverse := by
  suffices ∀ (before : List (α × T)) (t : T), ∃ first front,
      (∀ after, close l before t after = ⟨l, first, front ++ after⟩) from by
    obtain ⟨first, front, same⟩ := this before t
    refine ⟨first, front, same, ?_⟩
    have separators : (close l before t []).rest.map Prod.fst =
        (before.map Prod.fst).reverse ++ [] := close_separators
    rw [same []] at separators
    simpa using separators
  intro before
  induction before with
  | nil => exact fun t => ⟨t, [], fun after => rfl⟩
  | cons e before ih =>
    intro t
    obtain ⟨first, front, same⟩ := ih e.2
    refine ⟨first, front ++ [(e.1, t)], fun after => ?_⟩
    rw [close, same, List.append_assoc]
    rfl

end Close

def LTree (ι α : Type) : Nat → Type
  | 0 => Unit
  | d + 1 => Row ι α (LTree ι α d)

namespace LTree

variable {d lo hi : Nat}

def nil : LTree ι α 0 := ()

def node (n : Row ι α (LTree ι α d)) : LTree ι α (d + 1) := n

def inorder : {d : Nat} → LTree ι α d → List α
  | 0, _ => []
  | _ + 1, n => inorder (Row.first n) ++ (Row.rest n).flatMap fun e => e.1 :: inorder e.2

def labels : {d : Nat} → LTree ι α d → List ι
  | 0, _ => []
  | _ + 1, n => Row.label n :: (labels (Row.first n) ++ (Row.rest n).flatMap fun e => labels e.2)

/-- Every node has at least `lo` separators and at most `hi`. -/
def Sized (lo hi : Nat) : {d : Nat} → LTree ι α d → Prop
  | 0, _ => True
  | _ + 1, n => (lo ≤ (Row.rest n).length ∧ (Row.rest n).length ≤ hi) ∧ Row.All (Sized lo hi) n

def RootSized (lo hi : Nat) : {d : Nat} → LTree ι α d → Prop
  | 0, _ => True
  | d + 1, n => ((d ≠ 0 → 1 ≤ (Row.rest n).length) ∧ (Row.rest n).length ≤ hi) ∧
      Row.All (Sized lo hi) n

def size : {d : Nat} → LTree ι α d → Nat
  | 0, _ => 0
  | _ + 1, n => (Row.rest n).length

def Loose (low lo hi : Nat) : {d : Nat} → LTree ι α d → Prop
  | 0, _ => True
  | _ + 1, n => (low ≤ (Row.rest n).length ∧ (Row.rest n).length ≤ hi) ∧ Row.All (Sized lo hi) n

def labelsOf (l : List (α × LTree ι α d)) : List ι := l.flatMap fun e => e.2.labels

def inorderAfter (l : List (α × LTree ι α d)) : List α := l.flatMap fun e => e.1 :: e.2.inorder

def inorderBefore (l : List (α × LTree ι α d)) : List α :=
  l.reverse.flatMap fun e => e.2.inorder ++ [e.1]

def Between (R : α → α → Prop) (t : LTree ι α d) : List (α × LTree ι α d) → Prop
  | [] => True
  | (c, u) :: rest => (∀ x ∈ t.inorder, R x c) ∧ (∀ x ∈ u.inorder, R c x) ∧
      (∀ c' ∈ (rest.map Prod.fst).head?, R c c') ∧ Between R u rest

def Separated (R : α → α → Prop) : {d : Nat} → LTree ι α d → Prop
  | 0, _ => True
  | _ + 1, n => Between R (Row.first n) (Row.rest n) ∧ Row.All (Separated R) n

section Equations

variable {n : Row ι α (LTree ι α d)} {l l' : List (α × LTree ι α d)} {e : α × LTree ι α d}

theorem eq_nil (t : LTree ι α 0) : t = nil := rfl

@[simp]
theorem inorder_nil : (nil : LTree ι α 0).inorder = [] := rfl

@[simp]
theorem labels_nil : (nil : LTree ι α 0).labels = [] := rfl

theorem exists_node (t : LTree ι α (d + 1)) : ∃ n, t = node n := ⟨t, rfl⟩

@[simp]
theorem inorder_node : (node n).inorder = n.first.inorder ++ inorderAfter n.rest := rfl

@[simp]
theorem labels_node : (node n).labels = n.label :: (n.first.labels ++ labelsOf n.rest) := rfl

theorem sized_node : (node n).Sized lo hi ↔
    (lo ≤ n.rest.length ∧ n.rest.length ≤ hi) ∧ n.All (Sized lo hi) := Iff.rfl

@[simp]
theorem size_node : (node n).size = n.rest.length := rfl

theorem loose_node {low : Nat} : (node n).Loose low lo hi ↔
    (low ≤ n.rest.length ∧ n.rest.length ≤ hi) ∧ n.All (Sized lo hi) := Iff.rfl

theorem rootSized_node : (node n).RootSized lo hi ↔
    ((d ≠ 0 → 1 ≤ n.rest.length) ∧ n.rest.length ≤ hi) ∧ n.All (Sized lo hi) := Iff.rfl

@[simp]
theorem labelsOf_nil : labelsOf ([] : List (α × LTree ι α d)) = [] := rfl

@[simp]
theorem labelsOf_cons : labelsOf (e :: l) = e.2.labels ++ labelsOf l := List.flatMap_cons

@[simp]
theorem labelsOf_append : labelsOf (l ++ l') = labelsOf l ++ labelsOf l' := List.flatMap_append

@[simp]
theorem inorderAfter_nil : inorderAfter ([] : List (α × LTree ι α d)) = [] := rfl

@[simp]
theorem inorderAfter_cons : inorderAfter (e :: l) = e.1 :: e.2.inorder ++ inorderAfter l :=
  List.flatMap_cons

@[simp]
theorem inorderAfter_append : inorderAfter (l ++ l') = inorderAfter l ++ inorderAfter l' :=
  List.flatMap_append

@[simp]
theorem inorderBefore_nil : inorderBefore ([] : List (α × LTree ι α d)) = [] := rfl

@[simp]
theorem inorderBefore_cons : inorderBefore (e :: l) = inorderBefore l ++ e.2.inorder ++ [e.1] := by
  simp [inorderBefore, List.flatMap_append]

theorem inorderBefore_perm : (inorderBefore l).Perm (inorderAfter l) := by
  induction l with
  | nil => exact .refl _
  | cons e l ih =>
    rw [inorderBefore_cons, inorderAfter_cons, List.append_assoc]
    refine (List.perm_append_comm).trans (.append ?_ ih)
    exact List.perm_append_comm

end Equations

section Order

variable {R : α → α → Prop}

theorem between_iff (trans : ∀ {a b c}, R a b → R b c → R a c) {t : LTree ι α d}
    {rest : List (α × LTree ι α d)} :
    Between R t rest ∧ t.inorder.Pairwise R ∧ (∀ e ∈ rest, e.2.inorder.Pairwise R) ↔
      (t.inorder ++ inorderAfter rest).Pairwise R := by
  induction rest generalizing t with
  | nil => simp [Between]
  | cons e rest ih =>
    obtain ⟨c, u⟩ := e
    rw [Between, List.forall_mem_cons, inorderAfter_cons, List.cons_append, List.pairwise_append,
      List.pairwise_cons, ← ih]
    constructor
    · rintro ⟨⟨left, right, next, between⟩, here, child, others⟩
      have ordered := ih.mp ⟨between, child, others⟩
      have above : ∀ x ∈ u.inorder ++ inorderAfter rest, R c x := by
        intro x mem
        rcases List.mem_append.mp mem with mem | mem
        · exact right x mem
        · cases rest with
          | nil => cases mem
          | cons f rest =>
            have first : R c f.1 := next f.1 rfl
            rw [inorderAfter_cons, List.cons_append, List.mem_cons] at mem
            rcases mem with rfl | mem
            · exact first
            · rw [inorderAfter_cons, List.cons_append, List.pairwise_append,
                List.pairwise_cons] at ordered
              exact trans first (ordered.2.1.1 x mem)
      refine ⟨here, ⟨above, between, child, others⟩, ?_⟩
      intro x mem y there
      rcases List.mem_cons.mp there with rfl | there
      · exact left x mem
      · exact trans (left x mem) (above y there)
    · rintro ⟨here, ⟨above, between, child, others⟩, all⟩
      refine ⟨⟨fun x mem => all x mem c List.mem_cons_self,
        fun x mem => above x (List.mem_append_left _ mem), ?_, between⟩, here, child, others⟩
      intro c' next
      cases rest with
      | nil => cases next
      | cons f rest =>
        cases next
        exact above _ (List.mem_append_right _ List.mem_cons_self)

theorem separated_iff (trans : ∀ {a b c}, R a b → R b c → R a c) {t : LTree ι α d} :
    t.Separated R ↔ t.inorder.Pairwise R := by
  induction d with
  | zero => exact iff_of_true trivial List.Pairwise.nil
  | succ d ih =>
    obtain ⟨n, same⟩ := t.exists_node
    rw [same, inorder_node, ← between_iff @trans, ← ih]
    simp only [← ih]
    exact Iff.rfl

end Order

variable {l : ι} {before after : List (α × LTree ι α d)} {t : LTree ι α d}

theorem inorder_close : (node (close l before t after)).inorder =
    inorderBefore before ++ t.inorder ++ inorderAfter after := by
  induction before generalizing t after with
  | nil => simp [close]
  | cons e before ih =>
    rw [close, ih]
    simp

theorem labels_close : (node (close l before t after)).labels.Perm
    (l :: (labelsOf before ++ t.labels ++ labelsOf after)) := by
  induction before generalizing t after with
  | nil => exact .refl _
  | cons e before ih =>
    rw [close]
    refine ih.trans (.cons _ ?_)
    classical
    rw [List.perm_iff_count]
    intro a
    simp only [labelsOf_cons, List.count_append]
    omega

end LTree

/-- The way from a gap in which a tree of depth `d` is missing to the root of one of depth `D`. -/
inductive Route (ι α : Type) (D : Nat) : Nat → Type
  | top : Route ι α D D
  | under {d : Nat} (g : Gap ι α (LTree ι α d)) (r : Route ι α D (d + 1)) : Route ι α D d

namespace Route
open LTree

variable {D E d lo hi : Nat}

def plug : {d : Nat} → Route ι α D d → LTree ι α d → LTree ι α D
  | _, .top, t => t
  | _, .under g r, t => r.plug (node (g.fill t))

def left : {d : Nat} → Route ι α D d → List α
  | _, .top => []
  | _, .under g r => r.left ++ inorderBefore g.before

def right : {d : Nat} → Route ι α D d → List α
  | _, .top => []
  | _, .under g r => inorderAfter g.after ++ r.right

def labels : {d : Nat} → Route ι α D d → List ι
  | _, .top => []
  | _, .under g r => g.label :: (labelsOf g.before ++ labelsOf g.after) ++ r.labels

def length : {d : Nat} → Route ι α D d → Nat
  | _, .top => 0
  | _, .under _ r => r.length + 1

def above (p : Option ι) : {d : Nat} → Route ι α D d → Option ι
  | _, .top => p
  | _, .under g _ => some g.label

def append : {d : Nat} → Route ι α E d → Route ι α D E → Route ι α D d
  | _, .top, q => q
  | _, .under g r, q => .under g (r.append q)

def Sized (lo hi : Nat) : {d : Nat} → Route ι α D d → Prop
  | _, .top => True
  | _, .under g r => ((r.length = 0 → 1 ≤ g.size) ∧ (r.length ≠ 0 → lo ≤ g.size) ∧ g.size ≤ hi) ∧
      ((∀ e ∈ g.before, LTree.Sized lo hi e.2) ∧ ∀ e ∈ g.after, LTree.Sized lo hi e.2) ∧
      r.Sized lo hi

theorem plug_append (r : Route ι α E d) (q : Route ι α D E) (t : LTree ι α d) :
    (r.append q).plug t = q.plug (r.plug t) := by
  induction r with
  | top => rfl
  | under g r ih => exact ih (node (g.fill t))

theorem left_append (r : Route ι α E d) (q : Route ι α D E) :
    (r.append q).left = q.left ++ r.left := by
  induction r with
  | top => simp [append, left]
  | under g r ih => rw [append, left, ih, left, List.append_assoc]

theorem right_append (r : Route ι α E d) (q : Route ι α D E) :
    (r.append q).right = r.right ++ q.right := by
  induction r with
  | top => rfl
  | under g r ih => rw [append, right, ih, right, List.append_assoc]

theorem inorder_plug (r : Route ι α D d) (t : LTree ι α d) :
    (r.plug t).inorder = r.left ++ t.inorder ++ r.right := by
  induction r with
  | top => simp [plug, left, right]
  | under g r ih =>
    rw [plug, ih, Gap.fill, inorder_close]
    simp [left, right]

theorem labels_plug (r : Route ι α D d) (t : LTree ι α d) :
    (r.plug t).labels.Perm (t.labels ++ r.labels) := by
  induction r with
  | top => simp [plug, labels]
  | under g r ih =>
    rw [plug]
    refine (ih _).trans ((labels_close.append_right _).trans ?_)
    classical
    rw [List.perm_iff_count]
    intro a
    simp only [labels, List.count_append, List.count_cons]
    omega

theorem sized_fill {g : Gap ι α (LTree ι α d)} {t : LTree ι α d} :
    (node (g.fill t)).Sized lo hi ↔ (lo ≤ g.size ∧ g.size ≤ hi) ∧
      (∀ e ∈ g.before, LTree.Sized lo hi e.2) ∧ t.Sized lo hi ∧
        ∀ e ∈ g.after, LTree.Sized lo hi e.2 := by
  simp only [sized_node, Gap.fill, close_length, close_all, Gap.size]

theorem rootSized_fill {g : Gap ι α (LTree ι α d)} {t : LTree ι α d} :
    (node (g.fill t)).RootSized lo hi ↔ ((d ≠ 0 → 1 ≤ g.size) ∧ g.size ≤ hi) ∧
      (∀ e ∈ g.before, LTree.Sized lo hi e.2) ∧ t.Sized lo hi ∧
        ∀ e ∈ g.after, LTree.Sized lo hi e.2 := by
  simp only [rootSized_node, Gap.fill, close_length, close_all, Gap.size]

theorem rootSized_plug {r : Route ι α D d} {t : LTree ι α d} (sized : r.Sized lo hi)
    (inner : r.length ≠ 0 → t.Sized lo hi) (whole : r.length = 0 → t.RootSized lo hi) :
    (r.plug t).RootSized lo hi := by
  induction r with
  | top => exact whole rfl
  | under g r ih =>
    obtain ⟨⟨least, enough, most⟩, ⟨before, after⟩, up⟩ := sized
    have child := inner (Nat.succ_ne_zero _)
    refine ih up (fun below => ?_) fun top => ?_
    · exact sized_fill.mpr ⟨⟨enough below, most⟩, before, child, after⟩
    · exact rootSized_fill.mpr ⟨⟨fun _ => least top, most⟩, before, child, after⟩

theorem sized_of_plug {r : Route ι α D d} {t : LTree ι α d} (whole : (r.plug t).RootSized lo hi)
    (any : d ≠ 0 ∨ 1 ≤ (r.plug t).size) :
    r.Sized lo hi ∧ (r.length ≠ 0 → t.Sized lo hi) ∧ (r.length = 0 → t.RootSized lo hi) := by
  induction r with
  | top => exact ⟨trivial, fun below => absurd rfl below, fun _ => whole⟩
  | @under d g r ih =>
    obtain ⟨up, inner, top⟩ := ih whole (.inl (Nat.succ_ne_zero _))
    by_cases below : r.length = 0
    · obtain ⟨⟨least, most⟩, before, child, after⟩ := rootSized_fill.mp (top below)
      refine ⟨⟨⟨fun _ => ?_, fun inner => absurd below inner, most⟩, ⟨before, after⟩, up⟩,
        fun _ => child, fun none => absurd none (Nat.succ_ne_zero _)⟩
      rcases any with inner | any
      · exact least inner
      · cases r with
        | top =>
          rw [plug, plug, size_node, Gap.fill, close_length] at any
          exact any
        | under g' r => exact absurd below (Nat.succ_ne_zero _)
    · obtain ⟨⟨least, most⟩, before, child, after⟩ := sized_fill.mp (inner below)
      exact ⟨⟨⟨fun none => absurd none below, fun _ => least, most⟩, ⟨before, after⟩, up⟩,
        fun _ => child, fun none => absurd none (Nat.succ_ne_zero _)⟩

end Route

section Map

variable {β : Type} {d D lo hi : Nat} (f : α → β)

def LTree.map : {d : Nat} → LTree ι α d → LTree ι β d
  | 0, t => t
  | _ + 1, n => LTree.node ⟨Row.label n, map (Row.first n),
      (Row.rest n).map fun e => (f e.1, map e.2)⟩

def Gap.map (g : Gap ι α (LTree ι α d)) : Gap ι β (LTree ι β d) :=
  ⟨g.label, g.before.map fun e => (f e.1, e.2.map f), g.after.map fun e => (f e.1, e.2.map f)⟩

def Route.map : {d : Nat} → Route ι α D d → Route ι β D d
  | _, .top => .top
  | _, .under g r => .under (g.map f) r.map

namespace LTree

theorem map_node {n : Row ι α (LTree ι α d)} : (node n).map f =
    node ⟨n.label, n.first.map f, n.rest.map fun e => (f e.1, e.2.map f)⟩ := rfl

theorem map_close {l : ι} {before after : List (α × LTree ι α d)} {t : LTree ι α d} :
    (node (close l before t after)).map f = node (close l
      (before.map fun e => (f e.1, e.2.map f)) (t.map f) (after.map fun e => (f e.1, e.2.map f))) := by
  induction before generalizing t after with
  | nil => rfl
  | cons e before ih =>
    rw [close, ih]
    rfl

theorem inorderAfter_map (all : ∀ t : LTree ι α d, (t.map f).inorder = t.inorder.map f)
    (l : List (α × LTree ι α d)) :
    inorderAfter (l.map fun e => (f e.1, e.2.map f)) = (inorderAfter l).map f := by
  induction l with
  | nil => rfl
  | cons e l ih => simp [ih, all]

theorem inorder_map (t : LTree ι α d) : (t.map f).inorder = t.inorder.map f := by
  induction d with
  | zero => rfl
  | succ d ih =>
    obtain ⟨n, same⟩ := t.exists_node
    rw [same, map_node, inorder_node, inorder_node, List.map_append, ih, inorderAfter_map f ih]

theorem inorderBefore_map (l : List (α × LTree ι α d)) :
    inorderBefore (l.map fun e => (f e.1, e.2.map f)) = (inorderBefore l).map f := by
  induction l with
  | nil => rfl
  | cons e l ih => simp [ih, inorder_map]

theorem labelsOf_map (all : ∀ t : LTree ι α d, (t.map f).labels = t.labels)
    (l : List (α × LTree ι α d)) :
    labelsOf (l.map fun e => (f e.1, e.2.map f)) = labelsOf l := by
  induction l with
  | nil => rfl
  | cons e l ih => simp [ih, all]

theorem labels_map (t : LTree ι α d) : (t.map f).labels = t.labels := by
  induction d with
  | zero => rfl
  | succ d ih =>
    obtain ⟨n, same⟩ := t.exists_node
    rw [same, map_node, labels_node, labels_node, ih, labelsOf_map f ih]

theorem sized_map (t : LTree ι α d) : (t.map f).Sized lo hi ↔ t.Sized lo hi := by
  induction d with
  | zero => exact Iff.rfl
  | succ d ih =>
    obtain ⟨n, same⟩ := t.exists_node
    rw [same, map_node, sized_node, sized_node]
    simp only [Row.All, List.length_map, List.forall_mem_map, ih]

theorem rootSized_map (t : LTree ι α d) : (t.map f).RootSized lo hi ↔ t.RootSized lo hi := by
  cases d with
  | zero => exact Iff.rfl
  | succ d =>
    obtain ⟨n, same⟩ := t.exists_node
    rw [same, map_node, rootSized_node, rootSized_node]
    simp only [Row.All, List.length_map, List.forall_mem_map, sized_map]

end LTree

namespace Route

theorem map_plug (r : Route ι α D d) (t : LTree ι α d) :
    (r.plug t).map f = (r.map f).plug (t.map f) := by
  induction r with
  | top => rfl
  | under g r ih =>
    rw [plug, ih, Gap.fill, LTree.map_close]
    rfl

theorem left_map (r : Route ι α D d) : (r.map f).left = r.left.map f := by
  induction r with
  | top => rfl
  | under g r ih =>
    rw [map, left, left, ih, List.map_append, Gap.map, LTree.inorderBefore_map]

theorem right_map (r : Route ι α D d) : (r.map f).right = r.right.map f := by
  induction r with
  | top => rfl
  | under g r ih =>
    rw [map, right, right, ih, List.map_append, Gap.map,
      LTree.inorderAfter_map f (LTree.inorder_map f)]

end Route

end Map
end LevelTree
