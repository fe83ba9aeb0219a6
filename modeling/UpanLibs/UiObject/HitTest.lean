import UpanLibs.UiObject.UIObjectImpl
import Mathlib.Data.List.Nodup

/-!
The object under the cursor: `uiObjectUnderCursor` over a tree of rectangle canvases below
the root, against the first object in stacking order that shows the pixel. Coordinates and
sizes are unbounded integers.
-/
namespace UIObject

open TextInput (MIN_OBJECT_SIZE)

universe u
variable {ι : Type u}

def MAX_ALPHA : Nat := 0xFF

inductive ResizeMode where
  | NA
  | LEFT
  | RIGHT
  | TOP
  | BOTTOM
  | LEFT_TOP
  | LEFT_BOTTOM
  | RIGHT_TOP
  | RIGHT_BOTTOM
  deriving DecidableEq, Repr

/-- What the hit test reads of an object, with the reference to it. -/
structure Canvas (ι : Type u) where
  id : ι
  x : Int
  y : Int
  width : Int
  height : Int
  borderThickness : Int
  backgroundColorAlpha : Nat
  borderColorAlpha : Nat
  isHResizable : Bool
  isVResizable : Bool
  getVisible : Bool
  captureMouseEvents : Bool
  deriving DecidableEq, Repr

/-- An object and its children, first to last in the order in which they are drawn. -/
inductive Tree (ι : Type u) where
  | node (canvas : Canvas ι) (children : List (Tree ι))

def Canvas.hasAlphaLocal (c : Canvas ι) : Bool :=
  c.backgroundColorAlpha ≠ MAX_ALPHA
    || c.borderThickness > 0 && c.borderColorAlpha ≠ MAX_ALPHA

structure IntersectInfo where
  intersect : Bool
  xLeftDelta : Int
  xRightDelta : Int
  yTopDelta : Int
  yBottomDelta : Int
  deriving DecidableEq, Repr

/-- A canvas with what `drawX`, `drawY` and `isVisible` make of it below its parent. -/
structure Placed (ι : Type u) where
  canvas : Canvas ι
  drawX : Int
  drawY : Int
  isVisible : Bool
  isRoot : Bool
  deriving DecidableEq, Repr

namespace Placed

/-- A `UIRoot`, which draws at the origin and is visible by itself. -/
def root (c : Canvas ι) : Placed ι := ⟨c, 0, 0, c.getVisible, true⟩

def child (p : Placed ι) (c : Canvas ι) : Placed ι :=
  ⟨c, p.drawX + c.x, p.drawY + c.y, if p.isVisible then c.getVisible else false, false⟩

variable (x y : Int) (p : Placed ι)

def captureMouseEvents : Bool := p.isRoot || p.canvas.captureMouseEvents

def inside : Bool :=
  if !p.isVisible then false
  else x ≥ p.drawX && x < p.drawX + p.canvas.width
    && y ≥ p.drawY && y ≤ p.drawY + p.canvas.height

def intersectWithAlpha (alpha : Nat) : Bool := alpha ≠ 0

/-- `intersect` of a `RectangleCanvas`. The one of the root does not look at a border. -/
def intersect : IntersectInfo :=
  let bgAlpha := p.canvas.backgroundColorAlpha
  let brThickness := p.canvas.borderThickness
  let x1 := p.drawX
  let x2 := p.drawX + p.canvas.width
  let y1 := p.drawY
  let y2 := p.drawY + p.canvas.height
  let ix1 := x1 + brThickness
  let ix2 := x2 - brThickness
  let iy1 := y1 + brThickness
  let iy2 := y2 - brThickness
  if !p.isRoot && brThickness > 0 then
    let brAlpha := p.canvas.borderColorAlpha
    if x < ix1 || x > ix2 || y < iy1 || y > iy2 then
      ⟨intersectWithAlpha brAlpha, x - x1, x2 - x, y - y1, y2 - y⟩
    else ⟨intersectWithAlpha bgAlpha, x - ix1, ix2 - x, y - iy1, iy2 - y⟩
  else ⟨intersectWithAlpha bgAlpha, x - x1, x2 - x, y - y1, y2 - y⟩

/-- The resize mode that is set, and what `activateResizer` returns. -/
def activateResizer (info : IntersectInfo) : ResizeMode × Bool :=
  let c := p.canvas
  if !info.intersect then (.NA, false)
  else if !c.isHResizable && !c.isVResizable then (.NA, false)
  else
    let lhresizer := info.xLeftDelta ≥ 0 && info.xLeftDelta < MIN_OBJECT_SIZE
    let rhresizer := info.xRightDelta ≥ 0 && info.xRightDelta < MIN_OBJECT_SIZE
    let tvresizer := info.yTopDelta ≥ 0 && info.yTopDelta < MIN_OBJECT_SIZE
    let bvresizer := info.yBottomDelta ≥ 0 && info.yBottomDelta < MIN_OBJECT_SIZE
    if (lhresizer && tvresizer || rhresizer && bvresizer) && c.isHResizable && c.isVResizable then
      (if lhresizer && tvresizer then .LEFT_TOP else .RIGHT_BOTTOM, true)
    else if (lhresizer && bvresizer || rhresizer && tvresizer)
        && c.isHResizable && c.isVResizable then
      (if lhresizer && bvresizer then .LEFT_BOTTOM else .RIGHT_TOP, true)
    else if (lhresizer || rhresizer) && c.isHResizable then
      (if lhresizer then .LEFT else .RIGHT, true)
    else if (tvresizer || bvresizer) && c.isVResizable then
      (if tvresizer then .TOP else .BOTTOM, true)
    else (.NA, false)

end Placed

/-! The recursion over the tree. A canvas is placed below its parent on the way down. -/

mutual

/-- The resize mode that is left, and the object. -/
def Tree.uiObjectUnderCursor (x y : Int) (place : Canvas ι → Placed ι) :
    Tree ι → ResizeMode × Option ι
  | .node canvas children =>
      let object := place canvas
      if object.captureMouseEvents && object.inside x y then
        let info := object.intersect x y
        match object.activateResizer info with
        | (mode, true) => (mode, some canvas.id)
        | (mode, false) =>
            match childrenUnderCursor x y object.child mode children with
            | (mode, some o) => (mode, some o)
            | (mode, none) => (mode, if info.intersect then some canvas.id else none)
      else (.NA, none)

/-- The loop over the children from `rbegin` to `rend`. -/
def childrenUnderCursor (x y : Int) (place : Canvas ι → Placed ι) (mode : ResizeMode) :
    List (Tree ι) → ResizeMode × Option ι
  | [] => (mode, none)
  | first :: later =>
      match childrenUnderCursor x y place mode later with
      | (mode, some o) => (mode, some o)
      | (_, none) => first.uiObjectUnderCursor x y place

end

/-! What the hit test is for: the objects of the tree from the topmost down, each with its
ancestors, and the pixels that they show. -/

structure Layer (ι : Type u) where
  object : Placed ι
  ancestors : List (Placed ι)

def Layer.chain (l : Layer ι) : List (Placed ι) := l.object :: l.ancestors

mutual

/-- The objects in stacking order: the last child first, an object after its children. -/
def Tree.layers (place : Canvas ι → Placed ι) (above : List (Placed ι)) : Tree ι → List (Layer ι)
  | .node canvas children =>
      childLayers (place canvas).child (place canvas :: above) children ++ [⟨place canvas, above⟩]

def childLayers (place : Canvas ι → Placed ι) (above : List (Placed ι)) :
    List (Tree ι) → List (Layer ι)
  | [] => []
  | first :: later => childLayers place above later ++ first.layers place above

end

mutual

def Tree.canvases : Tree ι → List (Canvas ι)
  | .node canvas children => childCanvases children ++ [canvas]

def childCanvases : List (Tree ι) → List (Canvas ι)
  | [] => []
  | first :: later => childCanvases later ++ first.canvases

end

/-- The object is visible, captures the mouse and has the pixel in its half-open rectangle. -/
def Placed.Holds (x y : Int) (p : Placed ι) : Prop :=
  p.canvas.getVisible = true ∧ p.captureMouseEvents = true
    ∧ p.drawX ≤ x ∧ x < p.drawX + p.canvas.width ∧ p.drawY ≤ y ∧ y < p.drawY + p.canvas.height

instance (x y : Int) (p : Placed ι) : Decidable (p.Holds x y) :=
  inferInstanceAs (Decidable (_ ∧ _))

/-- The same with the row below the rectangle, which `inside` takes in. -/
def Placed.Reaches (x y : Int) (p : Placed ι) : Prop :=
  p.Holds x y ∨ p.canvas.getVisible = true ∧ p.captureMouseEvents = true
    ∧ p.drawX ≤ x ∧ x < p.drawX + p.canvas.width
    ∧ p.drawY ≤ y ∧ y = p.drawY + p.canvas.height

instance (x y : Int) (p : Placed ι) : Decidable (p.Reaches x y) :=
  inferInstanceAs (Decidable (_ ∨ _))

def Layer.Shows (x y : Int) (l : Layer ι) : Prop := ∀ p ∈ l.chain, p.Holds x y

instance (x y : Int) (l : Layer ι) : Decidable (l.Shows x y) :=
  inferInstanceAs (Decidable (∀ p ∈ l.chain, p.Holds x y))

def Layer.Reached (x y : Int) (l : Layer ι) : Prop := ∀ p ∈ l.chain, p.Reaches x y

instance (x y : Int) (l : Layer ι) : Decidable (l.Reached x y) :=
  inferInstanceAs (Decidable (∀ p ∈ l.chain, p.Reaches x y))

def Tree.stack (t : Tree ι) : List (Layer ι) := t.layers Placed.root []

def Tree.topmost (x y : Int) (t : Tree ι) : Option ι :=
  (t.stack.find? fun l => decide (l.Shows x y)).map fun l => l.object.canvas.id

structure Canvas.Plain (c : Canvas ι) : Prop where
  solid : c.hasAlphaLocal = false
  fixed : c.isHResizable = false ∧ c.isVResizable = false

variable {x y : Int} {p : Placed ι} {c : Canvas ι}

theorem intersect_of_solid (solid : p.canvas.hasAlphaLocal = false) :
    (p.intersect x y).intersect = true := by
  have background : p.canvas.backgroundColorAlpha = MAX_ALPHA := by
    simp only [Canvas.hasAlphaLocal, Bool.or_eq_false_iff, decide_eq_false_iff_not] at solid
    simpa using solid.1
  have border : p.canvas.borderThickness > 0 → p.canvas.borderColorAlpha = MAX_ALPHA := by
    intro thick
    simpa [Canvas.hasAlphaLocal, background, thick] using solid
  simp only [Placed.intersect]
  split
  next bordered =>
    have thick : p.canvas.borderThickness > 0 := by
      simp only [Bool.and_eq_true, decide_eq_true_eq] at bordered
      exact bordered.2
    split
    · simp [Placed.intersectWithAlpha, border thick, MAX_ALPHA]
    · simp [Placed.intersectWithAlpha, background, MAX_ALPHA]
  next => simp [Placed.intersectWithAlpha, background, MAX_ALPHA]

theorem activateResizer_of_fixed
    (fixed : p.canvas.isHResizable = false ∧ p.canvas.isVResizable = false)
    (info : IntersectInfo) : p.activateResizer info = (.NA, false) := by
  simp [Placed.activateResizer, fixed.1, fixed.2]

theorem reaches_iff (same : p.isVisible = p.canvas.getVisible) :
    p.Reaches x y ↔ (p.captureMouseEvents && p.inside x y) = true := by
  simp only [Placed.Reaches, Placed.Holds, Placed.inside, same, Bool.and_eq_true]
  cases p.canvas.getVisible <;> cases p.captureMouseEvents <;> simp
  omega

theorem holds_iff : p.Holds x y ↔ p.Reaches x y ∧ y ≠ p.drawY + p.canvas.height := by
  simp only [Placed.Reaches, Placed.Holds]
  constructor
  · intro holds
    exact ⟨.inl holds, by omega⟩
  · rintro ⟨holds | ⟨-, -, -, -, -, edge⟩, off⟩
    · exact holds
    · exact absurd edge off

/-! Every ancestor on the way down stays in the chain of each layer below. -/

mutual

theorem mem_layers {q : Placed ι} {place : Canvas ι → Placed ι} {above : List (Placed ι)}
    (member : q ∈ above) : ∀ t : Tree ι, ∀ l ∈ t.layers place above, q ∈ l.ancestors
  | .node canvas children, l, listed => by
      simp only [Tree.layers, List.mem_append, List.mem_singleton] at listed
      cases listed with
      | inl below =>
        exact mem_childLayers (List.mem_cons_of_mem _ member) children l below
      | inr here =>
        subst here
        exact member

theorem mem_childLayers {q : Placed ι} {place : Canvas ι → Placed ι} {above : List (Placed ι)}
    (member : q ∈ above) : ∀ ts : List (Tree ι), ∀ l ∈ childLayers place above ts, q ∈ l.ancestors
  | [], l, listed => by
      simp only [childLayers, List.not_mem_nil] at listed
  | first :: later, l, listed => by
      simp only [childLayers, List.mem_append] at listed
      cases listed with
      | inl behind => exact mem_childLayers member later l behind
      | inr here => exact mem_layers member first l here

end

mutual

theorem canvases_layers (place : Canvas ι → Placed ι) (above : List (Placed ι))
    (keeps : ∀ c, (place c).canvas = c) :
    ∀ t : Tree ι, (t.layers place above).map (fun l => l.object.canvas) = t.canvases
  | .node canvas children => by
      have below := canvases_childLayers (place canvas).child (place canvas :: above) (fun c => rfl)
        children
      simp only [Tree.layers, Tree.canvases, List.map_append, List.map_cons, List.map_nil, keeps,
        below]

theorem canvases_childLayers (place : Canvas ι → Placed ι) (above : List (Placed ι))
    (keeps : ∀ c, (place c).canvas = c) :
    ∀ ts : List (Tree ι),
      (childLayers place above ts).map (fun l => l.object.canvas) = childCanvases ts
  | [] => rfl
  | first :: later => by
      simp only [childLayers, childCanvases, List.map_append,
        canvases_layers place above keeps first, canvases_childLayers place above keeps later]

end

def firstReached (x y : Int) (ls : List (Layer ι)) : Option ι :=
  (ls.find? fun l => decide (l.Reached x y)).map fun l => l.object.canvas.id

theorem firstReached_append (front behind : List (Layer ι)) :
    firstReached x y (front ++ behind)
      = (firstReached x y front).or (firstReached x y behind) := by
  simp only [firstReached, List.find?_append]
  cases front.find? fun l => decide (l.Reached x y) <;> rfl

theorem firstReached_of_unreached {ls : List (Layer ι)}
    (missed : ∀ l ∈ ls, ∃ p ∈ l.chain, ¬ p.Reaches x y) : firstReached x y ls = none := by
  rw [firstReached, Option.map_eq_none_iff, List.find?_eq_none]
  intro l listed reached
  obtain ⟨p, member, out⟩ := missed l listed
  exact out (of_decide_eq_true reached p member)

theorem node_unreached {place : Canvas ι → Placed ι} {above : List (Placed ι)}
    (out : ¬ (place c).Reaches x y) (children : List (Tree ι)) :
    firstReached x y ((Tree.node c children).layers place above) = none := by
  apply firstReached_of_unreached
  intro l listed
  refine ⟨place c, ?_, out⟩
  simp only [Tree.layers, List.mem_append, List.mem_singleton] at listed
  cases listed with
  | inl below =>
    exact List.mem_cons_of_mem _ (mem_childLayers List.mem_cons_self children l below)
  | inr here =>
    subst here
    exact List.mem_cons_self

/-! The hit test finds the first layer that `inside` reaches: below an object that is reached
a canvas is visible when its own flag says so. -/

mutual

theorem underCursor_reached (place : Canvas ι → Placed ι) {above : List (Placed ι)}
    (keeps : ∀ c, (place c).canvas = c) (shown : ∀ c, (place c).isVisible = c.getVisible)
    (reached : ∀ p ∈ above, p.Reaches x y) :
    ∀ t : Tree ι, (∀ c ∈ t.canvases, c.Plain) →
      (t.uiObjectUnderCursor x y place).2 = firstReached x y (t.layers place above)
  | .node canvas children, plain => by
      have own : canvas.Plain := plain canvas (by simp [Tree.canvases])
      have inner : ∀ c ∈ childCanvases children, c.Plain :=
        fun c member => plain c (by simp [Tree.canvases, member])
      have guard := reaches_iff (x := x) (y := y) (p := place canvas)
        (by rw [shown, keeps])
      by_cases reach : (place canvas).Reaches x y
      · have visible : (place canvas).isVisible = true := by
          rw [shown, ← keeps canvas]
          cases reach with
          | inl holds => exact holds.1
          | inr edge => exact edge.1
        have below := children_reached (place canvas).child (fun c => rfl)
          (fun c => by simp [Placed.child, visible]) (List.forall_mem_cons.mpr ⟨reach, reached⟩)
          ResizeMode.NA children inner
        have fixed := activateResizer_of_fixed (p := place canvas)
          (by rw [keeps]; exact own.fixed)
        have hit := intersect_of_solid (x := x) (y := y) (p := place canvas)
          (by rw [keeps]; exact own.solid)
        have last : firstReached x y [⟨place canvas, above⟩] = some canvas.id := by
          have all : (⟨place canvas, above⟩ : Layer ι).Reached x y :=
            List.forall_mem_cons.mpr ⟨reach, reached⟩
          simp only [firstReached, List.find?_singleton, all, decide_true, if_true,
            Option.map_some, keeps]
        simp only [Tree.uiObjectUnderCursor, Tree.layers, guard.mp reach, if_true, fixed, hit]
        rw [firstReached_append, last, ← below]
        rcases childrenUnderCursor x y (place canvas).child .NA children with ⟨mode, _ | o⟩ <;> rfl
      · rw [node_unreached reach, Tree.uiObjectUnderCursor]
        have closed : ((place canvas).captureMouseEvents && (place canvas).inside x y) = false :=
          Bool.eq_false_iff.mpr fun inside => reach (guard.mpr inside)
        simp only [closed]
        rfl

theorem children_reached (place : Canvas ι → Placed ι) {above : List (Placed ι)}
    (keeps : ∀ c, (place c).canvas = c) (shown : ∀ c, (place c).isVisible = c.getVisible)
    (reached : ∀ p ∈ above, p.Reaches x y) (mode : ResizeMode) :
    ∀ ts : List (Tree ι), (∀ c ∈ childCanvases ts, c.Plain) →
      (childrenUnderCursor x y place mode ts).2 = firstReached x y (childLayers place above ts)
  | [], _ => rfl
  | first :: later, plain => by
      have front := children_reached place keeps shown reached mode later
        (fun c member => plain c (by simp [childCanvases, member]))
      have back := underCursor_reached place keeps shown reached first
        (fun c member => plain c (by simp [childCanvases, member]))
      rw [childrenUnderCursor, childLayers, firstReached_append, ← front, ← back]
      rcases childrenUnderCursor x y place mode later with ⟨mode, _ | o⟩ <;> rfl

end

/-- The first that satisfies the weaker test is the first that satisfies the stronger one
    just when it is not the weaker test alone that finds it. -/
theorem find?_narrow_iff {α : Type u} {weak strong : α → Bool} {as : List α}
    (weaker : ∀ a, strong a = true → weak a = true) :
    as.find? weak = as.find? strong ↔
      ∀ front a behind, as = front ++ a :: behind → weak a = true → strong a = false →
        ∃ b ∈ front, strong b = true := by
  induction as with
  | nil => simp
  | cons a as ih =>
    cases strongest : strong a with
    | true =>
      rw [List.find?_cons_of_pos (weaker a strongest), List.find?_cons_of_pos strongest]
      refine ⟨fun _ front b behind split passes fails => ?_, fun _ => rfl⟩
      cases front with
      | nil =>
        cases split
        exact absurd (strongest.symm.trans fails) (by decide)
      | cons c front =>
        cases split
        exact ⟨a, List.mem_cons_self, strongest⟩
    | false =>
      rw [List.find?_cons_of_neg (p := strong) (by simp [strongest])]
      cases weakest : weak a with
      | true =>
        rw [List.find?_cons_of_pos weakest]
        constructor
        · intro same
          have := List.find?_some same.symm
          exact absurd (strongest.symm.trans this) (by decide)
        · intro covered
          obtain ⟨b, member, _⟩ := covered [] a as rfl weakest strongest
          exact absurd member List.not_mem_nil
      | false =>
        rw [List.find?_cons_of_neg (p := weak) (by simp [weakest]), ih]
        constructor
        · intro covered front b behind split passes fails
          cases front with
          | nil =>
            cases split
            exact absurd (weakest.symm.trans passes) (by decide)
          | cons c front =>
            cases split
            obtain ⟨d, member, holds⟩ := covered front b behind rfl passes fails
            exact ⟨d, List.mem_cons_of_mem _ member, holds⟩
        · intro covered front b behind split passes fails
          obtain ⟨d, member, holds⟩ :=
            covered (a :: front) b behind (congrArg (a :: ·) split) passes fails
          cases member with
          | head => exact absurd (strongest.symm.trans holds) (by decide)
          | tail _ member => exact ⟨d, member, holds⟩

theorem shows_iff {l : Layer ι} :
    l.Shows x y ↔ l.Reached x y ∧ ∀ p ∈ l.chain, y ≠ p.drawY + p.canvas.height := by
  simp only [Layer.Shows, Layer.Reached, holds_iff]
  exact forall₂_and

def Layer.OnEdge (x y : Int) (l : Layer ι) : Prop :=
  l.Reached x y ∧ ∃ p ∈ l.chain, y = p.drawY + p.canvas.height

instance (x y : Int) (l : Layer ι) : Decidable (l.OnEdge x y) :=
  inferInstanceAs (Decidable (_ ∧ ∃ p ∈ l.chain, y = p.drawY + p.canvas.height))

theorem onEdge_iff {l : Layer ι} : l.OnEdge x y ↔ l.Reached x y ∧ ¬ l.Shows x y := by
  rw [shows_iff, Layer.OnEdge]
  constructor
  · rintro ⟨reached, p, member, edge⟩
    exact ⟨reached, fun shows => shows.2 p member edge⟩
  · rintro ⟨reached, hidden⟩
    refine ⟨reached, ?_⟩
    by_contra off
    exact hidden ⟨reached, fun p member edge => off ⟨p, member, edge⟩⟩

/-- Each object that is on the edge is below one that shows the pixel. -/
def Tree.EdgesCovered (x y : Int) (t : Tree ι) : Prop :=
  ∀ front l behind, t.stack = front ++ l :: behind → l.OnEdge x y → ∃ f ∈ front, f.Shows x y

theorem id_eq_iff {t : Tree ι} (distinct : (t.canvases.map Canvas.id).Nodup)
    {s : Option (Layer ι)} {r : Option (Layer ι)} (first : ∀ l ∈ s, l ∈ t.stack)
    (second : ∀ l ∈ r, l ∈ t.stack) :
    s.map (fun l => l.object.canvas.id) = r.map (fun l => l.object.canvas.id) ↔ s = r := by
  constructor
  · intro same
    have nodup : (t.stack.map fun l => l.object.canvas.id).Nodup := by
      rw [← canvases_layers Placed.root [] (fun c => rfl) t,
        List.map_map] at distinct
      exact distinct
    cases s with
    | none =>
      cases r with
      | none => rfl
      | some r => cases same
    | some s =>
      cases r with
      | none => cases same
      | some r =>
        have ids := Option.some.inj same
        exact congrArg _ (List.inj_on_of_nodup_map nodup (first s rfl) (second r rfl) ids)
  · exact congrArg _

/-- With `inside` closed at the bottom, the hit test returns the topmost object just when
    nothing uncovered has the pixel in the row below it. -/
theorem uiObjectUnderCursor_topmost_iff (t : Tree ι) (x y : Int)
    (plain : ∀ c ∈ t.canvases, c.Plain) (distinct : (t.canvases.map Canvas.id).Nodup) :
    (t.uiObjectUnderCursor x y Placed.root).2 = t.topmost x y ↔ t.EdgesCovered x y := by
  have found : (t.uiObjectUnderCursor x y Placed.root).2 = firstReached x y t.stack :=
    underCursor_reached Placed.root (fun c => rfl) (fun c => rfl)
      (fun p member => absurd member List.not_mem_nil) t plain
  rw [found, firstReached, Tree.topmost, id_eq_iff distinct
    (fun l found => List.mem_of_find?_eq_some found)
    (fun l found => List.mem_of_find?_eq_some found)]
  have weaker : ∀ l : Layer ι, decide (l.Shows x y) = true → decide (l.Reached x y) = true := by
    intro l shows
    exact decide_eq_true (shows_iff.mp (of_decide_eq_true shows)).1
  rw [find?_narrow_iff weaker]
  simp only [Tree.EdgesCovered, onEdge_iff, decide_eq_true_eq, decide_eq_false_iff_not, and_imp]

def sheet (id : Nat) (x y width height : Int) : Canvas Nat :=
  ⟨id, x, y, width, height, 0, MAX_ALPHA, MAX_ALPHA, false, false, true, true⟩

/-- Two buttons, one above the other, on the root. -/
def buttons : Tree Nat :=
  .node (sheet 0 0 0 40 40) [.node (sheet 1 10 20 10 10) [], .node (sheet 2 10 10 10 10) []]

theorem buttons_plain : ∀ c ∈ buttons.canvases, c.Plain := by
  intro c member
  simp only [buttons, Tree.canvases, childCanvases, List.nil_append, List.cons_append,
    List.mem_cons, List.not_mem_nil, or_false] at member
  rcases member with rfl | rfl | rfl <;> exact ⟨rfl, rfl, rfl⟩

/-- The first row of the lower button is given to the upper one, which is in front. -/
theorem first_row_given_away :
    (∀ c ∈ buttons.canvases, c.Plain) ∧ (buttons.canvases.map Canvas.id).Nodup
      ∧ (buttons.uiObjectUnderCursor 15 20 Placed.root).2 = some 2
      ∧ buttons.topmost 15 20 = some 1 :=
  ⟨buttons_plain, by decide, by decide, by decide⟩

theorem uiObjectUnderCursor_topmost_iff_buttons :
    (buttons.uiObjectUnderCursor 15 25 Placed.root).2 = buttons.topmost 15 25
      ↔ buttons.EdgesCovered 15 25 :=
  uiObjectUnderCursor_topmost_iff buttons 15 25 buttons_plain (by decide)

end UIObject
