import UpanLibs.Transition
import UpanLibs.UiObject.HitTest
import UpanLibs.UiObject.VerticalScroller

/-!
`resize` of an object with all that is below it, as one drag of the mouse asks for it. Each object
passes the change of its own size on to its children, after its class has done in `onResize` what
it likes with the objects below. An `onResize` that throws is left out.
-/
namespace UIObject

open Machine
open Transition

universe u
variable {ι : Type u}

inductive Objects (ι : Type u) where
  | node (id : ι) (object : UIObjectImpl) (children : List (Objects ι))

def Objects.id : Objects ι → ι
  | .node id _ _ => id

def Objects.object : Objects ι → UIObjectImpl
  | .node _ o _ => o

def Objects.children : Objects ι → List (Objects ι)
  | .node _ _ children => children

def ResizeMode.edges : ResizeMode → Option Edge × Option Edge
  | .NA => (none, none)
  | .LEFT => (some .left, none)
  | .RIGHT => (some .right, none)
  | .TOP => (none, some .top)
  | .BOTTOM => (none, some .bottom)
  | .LEFT_TOP => (some .left, some .top)
  | .LEFT_BOTTOM => (some .left, some .bottom)
  | .RIGHT_TOP => (some .right, some .top)
  | .RIGHT_BOTTOM => (some .right, some .bottom)

structure Resize where
  mode : ResizeMode
  dx : Int
  dy : Int
  deriving DecidableEq, Repr

/-- The switch of `resize`, with what goes on to the children if it does not return. -/
def resizeEdges (resizeEdge : UIObjectImpl → Edge → Int → UIObjectImpl × Int) (o : UIObjectImpl)
    (r : Resize) : UIObjectImpl × Option Resize :=
  match r.mode.edges with
  | (none, none) => (o, none)
  | (some side, none) =>
      let (o, dx) := resizeEdge o side r.dx
      (o, if dx = 0 then none else some { r with dx := dx })
  | (none, some side) =>
      let (o, dy) := resizeEdge o side r.dy
      (o, if dy = 0 then none else some { r with dy := dy })
  | (some side, some upright) =>
      let (o, dx) := resizeEdge o side r.dx
      let (o, dy) := resizeEdge o upright r.dy
      (o, if dx = 0 ∧ dy = 0 then none else some { r with dx := dx, dy := dy })

/-- `resizeLeft` to `resizeBottom` of a `UIRoot`. -/
def rootResizeEdge (f : Frame) (isPrimary : Bool) (o : UIObjectImpl) (edge : Edge) (d : Int) :
    UIObjectImpl × Int :=
  if d = 0 then (o, d) else
    match edge with
    | .left =>
        let (o, dx) := o.resizeWidth f isPrimary (o.width - d)
        ({ o with x := o.x + dx }, dx)
    | .right => UIObjectImpl.opposite (o.resizeWidth f isPrimary (o.width + d))
    | .top =>
        let (o, dy) := o.resizeHeight f isPrimary (o.height - d)
        ({ o with y := o.y + dy }, dy)
    | .bottom => UIObjectImpl.opposite (o.resizeHeight f isPrimary (o.height + d))

mutual

def Objects.count : Objects ι → Nat
  | .node _ _ children => countAll children + 1

def countAll : List (Objects ι) → Nat
  | [] => 0
  | child :: children => child.count + countAll children + 1

end

mutual

def Objects.set (becomes : ι → UIObjectImpl → UIObjectImpl) : Objects ι → Objects ι
  | .node id o children => .node id (becomes id o) (setAll becomes children)

def setAll (becomes : ι → UIObjectImpl → UIObjectImpl) : List (Objects ι) → List (Objects ι)
  | [] => []
  | child :: children => child.set becomes :: setAll becomes children

end

mutual

theorem count_set (becomes : ι → UIObjectImpl → UIObjectImpl) :
    ∀ t : Objects ι, (t.set becomes).count = t.count
  | .node _ _ children => congrArg (· + 1) (countAll_setAll becomes children)

theorem countAll_setAll (becomes : ι → UIObjectImpl → UIObjectImpl) :
    ∀ ts : List (Objects ι), countAll (setAll becomes ts) = countAll ts
  | [] => rfl
  | child :: children =>
      congrArg₂ (· + · + 1) (count_set becomes child) (countAll_setAll becomes children)

end

/-- What `onResize` of an object in its new size makes of each object below it. -/
abbrev OnResize (ι : Type u) := ι → UIObjectImpl → ι → UIObjectImpl → UIObjectImpl

mutual

/-- `resize` of a child. -/
def Objects.follow (f : Frame) (onResize : OnResize ι) (r : Resize) : Objects ι → Objects ι
  | .node id o children =>
      match resizeEdges (fun o => o.resizeEdge f false) o r with
      | (o, none) => .node id o children
      | (o, some r) => .node id o (followAll f onResize r (setAll (onResize id o) children))
termination_by t => t.count
decreasing_by
  rw [countAll_setAll]
  exact Nat.lt_succ_self _

def followAll (f : Frame) (onResize : OnResize ι) (r : Resize) :
    List (Objects ι) → List (Objects ι)
  | [] => []
  | child :: children => child.follow f onResize r :: followAll f onResize r children
termination_by ts => countAll ts
decreasing_by
  · exact Nat.lt_succ_of_le (Nat.le_add_right _ _)
  · exact Nat.lt_succ_of_le (Nat.le_add_left _ _)

end

def Objects.resize (f : Frame) (onResize : OnResize ι) (isRoot : Bool) (t : Objects ι)
    (r : Resize) : Objects ι :=
  match t with
  | .node id o children =>
      let edge := if isRoot then rootResizeEdge f true else fun o => o.resizeEdge f true
      match resizeEdges edge o r with
      | (o, none) => .node id o children
      | (o, some r) => .node id o (followAll f onResize r (setAll (onResize id o) children))

def OnResize.SetsOnly (owned : ι → Bool) (onResize : OnResize ι) : Prop :=
  ∀ id o below x, owned below = false → onResize id o below x = x

mutual

/-- The tree without the owned objects and what is below them. -/
def Objects.without (owned : ι → Bool) : Objects ι → Objects ι
  | .node id o children => .node id o (withoutAll owned children)

def withoutAll (owned : ι → Bool) : List (Objects ι) → List (Objects ι)
  | [] => []
  | child :: children =>
      if owned child.id then withoutAll owned children
      else child.without owned :: withoutAll owned children

end

theorem object_without (owned : ι → Bool) (t : Objects ι) :
    (t.without owned).object = t.object := by
  obtain ⟨id, o, children⟩ := t
  rfl

/-! A drag is one moved edge after the other, through the whole tree. -/

def Resize.moves (r : Resize) : List (Edge × Int) :=
  (r.mode.edges.1.map fun side => (side, r.dx)).toList ++
    (r.mode.edges.2.map fun upright => (upright, r.dy)).toList

mutual

def Objects.move (f : Frame) (e : Edge × Int) : Objects ι → Objects ι
  | .node id o children => .node id (o.drag f e).1 (moveAll f (e.1, (o.drag f e).2) children)

def moveAll (f : Frame) (e : Edge × Int) : List (Objects ι) → List (Objects ι)
  | [] => []
  | child :: children => child.move f e :: moveAll f e children

end

def Objects.moveBy (f : Frame) (edge : UIObjectImpl → Edge → Int → UIObjectImpl × Int)
    (e : Edge × Int) : Objects ι → Objects ι
  | .node id o children =>
      let moved := edge o e.1 e.2
      .node id moved.1 (moveAll f (e.1, moved.2) children)

def passOn (f : Frame) (id : ι) (children : List (Objects ι)) :
    UIObjectImpl × Option Resize → Objects ι
  | (o, none) => .node id o children
  | (o, some r) => .node id o (r.moves.foldl (fun ts e => moveAll f e ts) children)

def topEdge (f : Frame) (isRoot : Bool) : UIObjectImpl → Edge → Int → UIObjectImpl × Int :=
  if isRoot then rootResizeEdge f true else fun o => o.resizeEdge f true

variable {f : Frame} {isRoot : Bool}

theorem drag_zero (o : UIObjectImpl) (edge : Edge) : o.drag f (edge, 0) = (o, 0) := by
  cases edge <;> rfl

mutual

theorem move_zero (edge : Edge) : ∀ t : Objects ι, t.move f (edge, 0) = t
  | .node id o children => by
      rw [Objects.move, drag_zero]
      simp only [moveAll_zero edge children]

theorem moveAll_zero (edge : Edge) : ∀ ts : List (Objects ι), moveAll f (edge, 0) ts = ts
  | [] => rfl
  | child :: children => by rw [moveAll, move_zero edge child, moveAll_zero edge children]

end

theorem foldl_moveAll (es : List (Edge × Int)) (child : Objects ι) (children : List (Objects ι)) :
    es.foldl (fun ts e => moveAll f e ts) (child :: children) =
      es.foldl (fun t e => t.move f e) child :: es.foldl (fun ts e => moveAll f e ts) children := by
  induction es generalizing child children with
  | nil => rfl
  | cons e es ih => exact ih _ _

theorem foldl_moveAll_nil (es : List (Edge × Int)) :
    es.foldl (fun ts e => moveAll f e ts) ([] : List (Objects ι)) = [] := by
  induction es with
  | nil => rfl
  | cons e es ih => exact ih

theorem passOn_moves (edge : UIObjectImpl → Edge → Int → UIObjectImpl × Int)
    (o : UIObjectImpl) (r : Resize) (id : ι) (children : List (Objects ι)) :
    passOn f id children (resizeEdges edge o r) =
      r.moves.foldl (fun t e => t.moveBy f edge e) (.node id o children) := by
  obtain ⟨mode, dx, dy⟩ := r
  unfold resizeEdges Resize.moves
  simp only []
  rcases edges : mode.edges with ⟨_ | side, _ | upright⟩
  · rfl
  · simp only [Option.map_none, Option.toList_none, Option.map_some, Option.toList_some,
      List.nil_append, List.foldl_cons, List.foldl_nil]
    by_cases still : (edge o upright dy).2 = 0
    · rw [if_pos still, passOn, Objects.moveBy, still, moveAll_zero]
    · rw [if_neg still]
      simp [passOn, Resize.moves, Objects.moveBy, edges]
  · simp only [Option.map_none, Option.toList_none, Option.map_some, Option.toList_some,
      List.append_nil, List.foldl_cons, List.foldl_nil]
    by_cases still : (edge o side dx).2 = 0
    · rw [if_pos still, passOn, Objects.moveBy, still, moveAll_zero]
    · rw [if_neg still]
      simp [passOn, Resize.moves, Objects.moveBy, edges]
  · simp only [Option.map_some, Option.toList_some, List.cons_append, List.nil_append,
      List.foldl_cons, List.foldl_nil]
    by_cases still : (edge o side dx).2 = 0 ∧
        (edge (edge o side dx).1 upright dy).2 = 0
    · rw [if_pos still, passOn, Objects.moveBy, Objects.moveBy, still.1, still.2, moveAll_zero,
        moveAll_zero]
    · rw [if_neg still]
      simp [passOn, Resize.moves, Objects.moveBy, edges]

theorem withoutAll_setAll {owned : ι → Bool} {becomes : ι → UIObjectImpl → UIObjectImpl}
    (sets : ∀ id x, owned id = false → becomes id x = x) :
    ∀ ts : List (Objects ι), withoutAll owned (setAll becomes ts) = withoutAll owned ts
  | [] => rfl
  | .node id o children :: rest => by
      have below := withoutAll_setAll sets children
      have after := withoutAll_setAll sets rest
      cases own : owned id with
      | true => simp [setAll, Objects.set, withoutAll, Objects.id, own, after]
      | false =>
        have same := sets id o own
        simp [setAll, Objects.set, withoutAll, Objects.id, Objects.without, own, same, below, after]

theorem id_follow (onResize : OnResize ι) (r : Resize) (t : Objects ι) :
    (t.follow f onResize r).id = t.id := by
  obtain ⟨id, o, children⟩ := t
  rw [Objects.follow]
  rcases resizeEdges (fun o => o.resizeEdge f false) o r with ⟨o, _ | r⟩ <;> rfl

mutual

theorem follow_moves {owned : ι → Bool} {onResize : OnResize ι} (sets : onResize.SetsOnly owned)
    (r : Resize) : ∀ t : Objects ι, (t.follow f onResize r).without owned =
      r.moves.foldl (fun t e => t.move f e) (t.without owned)
  | .node id o children => by
      have all (o : UIObjectImpl) (r : Resize) :=
        followAll_moves sets r (setAll (onResize id o) children)
      have unset (o : UIObjectImpl) := withoutAll_setAll (sets id o) children
      have same : (fun (t : Objects ι) e => t.move f e) =
          fun t e => t.moveBy f (fun o => o.resizeEdge f false) e := by
        funext t e
        cases t
        rfl
      rw [same, Objects.without, ← passOn_moves, Objects.follow]
      rcases resizeEdges (fun o => o.resizeEdge f false) o r with ⟨o, _ | r⟩
      · rfl
      · simp only [passOn, Objects.without, all, unset]
termination_by t => t.count
decreasing_by
  rw [countAll_setAll]
  exact Nat.lt_succ_self _

theorem followAll_moves {owned : ι → Bool} {onResize : OnResize ι}
    (sets : onResize.SetsOnly owned) (r : Resize) : ∀ ts : List (Objects ι),
      withoutAll owned (followAll f onResize r ts) =
        r.moves.foldl (fun ts e => moveAll f e ts) (withoutAll owned ts)
  | [] => by rw [followAll, withoutAll, foldl_moveAll_nil]
  | child :: children => by
      have first := follow_moves sets r child
      have rest := followAll_moves sets r children
      rw [followAll, withoutAll, withoutAll, id_follow, first, rest]
      split
      · rfl
      · rw [foldl_moveAll]
termination_by ts => countAll ts
decreasing_by
  · exact Nat.lt_succ_of_le (Nat.le_add_right _ _)
  · exact Nat.lt_succ_of_le (Nat.le_add_left _ _)

end

theorem resize_moves {owned : ι → Bool} {onResize : OnResize ι} (sets : onResize.SetsOnly owned)
    (r : Resize) (t : Objects ι) : (t.resize f onResize isRoot r).without owned =
      r.moves.foldl (fun t e => t.moveBy f (topEdge f isRoot) e) (t.without owned) := by
  obtain ⟨id, o, children⟩ := t
  rw [Objects.without, ← passOn_moves, Objects.resize, topEdge]
  rcases resizeEdges (if isRoot then rootResizeEdge f true else fun o => o.resizeEdge f true) o r
    with ⟨o, _ | r⟩
  · rfl
  · have unset := withoutAll_setAll (sets id o) children
    simp only [passOn, Objects.without, followAll_moves sets, unset]

/-! What a moved edge does to the place and the size of an object. -/

def Edge.axis : Edge → Axis
  | .left | .right => .horizontal
  | .top | .bottom => .vertical

def growth (e : Edge × Int) (a : Axis) : Int :=
  if e.1.axis = a then
    match e.1 with
    | .left | .top => -e.2
    | .right | .bottom => e.2
  else 0

namespace UIObjectImpl

def pos (o : UIObjectImpl) : Axis → Int
  | .horizontal => o.x
  | .vertical => o.y

def vSize (o : UIObjectImpl) (a : Axis) : Int := (o.extent a).vSize

def holdsNear (o : UIObjectImpl) : Axis → Bool
  | .horizontal =>
      match o.horizontalPlacementType with
      | .LEFT_FIXED | .LEFT_STRETCHED | .STRETCHED => true
      | .ABSOLUTE | .RIGHT_FIXED | .RIGHT_STRETCHED => false
  | .vertical =>
      match o.verticalPlacementType with
      | .TOP_FIXED | .TOP_STRETCHED | .STRETCHED => true
      | .ABSOLUTE | .BOTTOM_FIXED | .BOTTOM_STRETCHED => false

def holdsFar (o : UIObjectImpl) : Axis → Bool
  | .horizontal =>
      match o.horizontalPlacementType with
      | .RIGHT_FIXED | .RIGHT_STRETCHED | .STRETCHED => true
      | .ABSOLUTE | .LEFT_FIXED | .LEFT_STRETCHED => false
  | .vertical =>
      match o.verticalPlacementType with
      | .BOTTOM_FIXED | .BOTTOM_STRETCHED | .STRETCHED => true
      | .ABSOLUTE | .TOP_FIXED | .TOP_STRETCHED => false

def isStretched (o : UIObjectImpl) : Axis → Bool
  | .horizontal =>
      match o.horizontalPlacementType with
      | .LEFT_STRETCHED | .RIGHT_STRETCHED | .STRETCHED => true
      | .ABSOLUTE | .LEFT_FIXED | .RIGHT_FIXED => false
  | .vertical =>
      match o.verticalPlacementType with
      | .TOP_STRETCHED | .BOTTOM_STRETCHED | .STRETCHED => true
      | .ABSOLUTE | .TOP_FIXED | .BOTTOM_FIXED => false

def farGap (p o : UIObjectImpl) (a : Axis) : Int := p.size a - (o.pos a + o.vSize a)

end UIObjectImpl

namespace UIObjectImpl

variable {o : UIObjectImpl}

theorem pos_drag_of_near (e : Edge × Int) {a : Axis} (near : o.holdsNear a = true) :
    (o.drag f e).1.pos a = o.pos a := by
  obtain ⟨x, y, h, v, hp, vp⟩ := o
  obtain ⟨edge, d⟩ := e
  simp only [drag, resizeEdge, pos]
  cases a with
  | horizontal =>
    cases edge with
    | left | right =>
      by_cases zero : d = 0 <;> cases hp <;>
        simp_all [resizeLeft, resizeRight, holdsNear, resizeWidth, opposite]
    | top | bottom =>
      by_cases zero : d = 0 <;> cases vp <;>
        simp [resizeTop, resizeBottom, zero, resizeHeight, opposite]
  | vertical =>
    cases edge with
    | left | right =>
      by_cases zero : d = 0 <;> cases hp <;>
        simp [resizeLeft, resizeRight, zero, resizeWidth, opposite]
    | top | bottom =>
      by_cases zero : d = 0 <;> cases vp <;>
        simp_all [resizeTop, resizeBottom, holdsNear, resizeHeight, opposite]

theorem pos_drag_of_far (e : Edge × Int) {a : Axis} (far : o.holdsFar a = true) :
    (o.drag f e).1.pos a + total a (o.asked e.1 e.2) = o.pos a + growth e a := by
  obtain ⟨x, y, h, v, hp, vp⟩ := o
  obtain ⟨edge, d⟩ := e
  simp only [drag, resizeEdge, pos]
  cases a with
  | horizontal =>
    cases edge with
    | left | right =>
      by_cases zero : d = 0 <;> cases hp <;>
        simp_all [resizeLeft, resizeRight, holdsFar, resizeWidth, opposite, asked, total, growth,
          Edge.axis, Delta.on] <;> omega
    | top | bottom =>
      by_cases zero : d = 0 <;> cases vp <;>
        simp [resizeTop, resizeBottom, zero, resizeHeight, opposite, asked, total, growth,
          Edge.axis, Delta.on]
  | vertical =>
    cases edge with
    | left | right =>
      by_cases zero : d = 0 <;> cases hp <;>
        simp [resizeLeft, resizeRight, zero, resizeWidth, opposite, asked, total, growth,
          Edge.axis, Delta.on]
    | top | bottom =>
      by_cases zero : d = 0 <;> cases vp <;>
        simp_all [resizeTop, resizeBottom, holdsFar, resizeHeight, opposite, asked, total, growth,
          Edge.axis, Delta.on] <;> omega

theorem extent_drag_of_fixed (e : Edge × Int) {a : Axis} (fixed : o.isStretched a = false) :
    (o.drag f e).1.extent a = o.extent a := by
  obtain ⟨x, y, h, v, hp, vp⟩ := o
  obtain ⟨edge, d⟩ := e
  simp only [drag, resizeEdge]
  cases a with
  | horizontal =>
    cases edge with
    | left | right =>
      by_cases zero : d = 0 <;> cases hp <;>
        simp_all [resizeLeft, resizeRight, isStretched, extent]
    | top | bottom =>
      by_cases zero : d = 0 <;> cases vp <;>
        simp [resizeTop, resizeBottom, zero, resizeHeight, opposite, extent]
  | vertical =>
    cases edge with
    | left | right =>
      by_cases zero : d = 0 <;> cases hp <;>
        simp [resizeLeft, resizeRight, zero, resizeWidth, opposite, extent]
    | top | bottom =>
      by_cases zero : d = 0 <;> cases vp <;>
        simp_all [resizeTop, resizeBottom, isStretched, extent]

theorem placement_drag (o : UIObjectImpl) (e : Edge × Int) :
    (o.drag f e).1.horizontalPlacementType = o.horizontalPlacementType ∧
      (o.drag f e).1.verticalPlacementType = o.verticalPlacementType := by
  obtain ⟨x, y, h, v, hp, vp⟩ := o
  obtain ⟨edge, d⟩ := e
  simp only [drag, resizeEdge]
  cases edge with
  | left | right =>
    by_cases zero : d = 0 <;> cases hp <;>
      simp [resizeLeft, resizeRight, zero, resizeWidth, opposite]
  | top | bottom =>
    by_cases zero : d = 0 <;> cases vp <;>
      simp [resizeTop, resizeBottom, zero, resizeHeight, opposite]

theorem size_resizeWidth (isPrimary : Bool) (o : UIObjectImpl) (w : Int) (a : Axis) :
    (o.resizeWidth f isPrimary w).1.size a =
      o.size a - if a = .horizontal then (o.resizeWidth f isPrimary w).2 else 0 := by
  have report := Extent.returned_resize (e := o.horizontal) f.width w isPrimary
  cases a <;> simp [resizeWidth, size, extent] at report ⊢
  omega

theorem size_resizeHeight (isPrimary : Bool) (o : UIObjectImpl) (h : Int) (a : Axis) :
    (o.resizeHeight f isPrimary h).1.size a =
      o.size a - if a = .vertical then (o.resizeHeight f isPrimary h).2 else 0 := by
  have report := Extent.returned_resize (e := o.vertical) f.height h isPrimary
  cases a <;> simp [resizeHeight, size, extent] at report ⊢
  omega

def stretchEdge (f : Frame) (isPrimary : Bool) (o : UIObjectImpl) (d : Int) :
    Edge → UIObjectImpl × Int
  | .left => o.resizeWidth f isPrimary (o.width - d)
  | .right => opposite (o.resizeWidth f isPrimary (o.width + d))
  | .top => o.resizeHeight f isPrimary (o.height - d)
  | .bottom => opposite (o.resizeHeight f isPrimary (o.height + d))

theorem resizeEdge_cases (isPrimary : Bool) (o : UIObjectImpl) (edge : Edge) (d : Int) :
    o.resizeEdge f isPrimary edge d = stretchEdge f isPrimary o d edge ∨
      ∃ x y, o.resizeEdge f isPrimary edge d = ({ o with x := x, y := y }, 0) := by
  by_cases zero : d = 0
  · subst zero
    refine .inr ⟨o.x, o.y, ?_⟩
    cases edge <;> rfl
  obtain ⟨x, y, h, v, hp, vp⟩ := o
  simp only [resizeEdge]
  cases edge with
  | left =>
    unfold resizeLeft
    rw [if_neg zero]
    cases hp with
    | LEFT_FIXED => exact .inr ⟨x, y, rfl⟩
    | ABSOLUTE | RIGHT_FIXED | RIGHT_STRETCHED => exact .inr ⟨x - d, y, rfl⟩
    | LEFT_STRETCHED | STRETCHED => exact .inl rfl
  | right =>
    unfold resizeRight
    rw [if_neg zero]
    cases hp with
    | ABSOLUTE | LEFT_FIXED | LEFT_STRETCHED => exact .inr ⟨x, y, rfl⟩
    | RIGHT_FIXED => exact .inr ⟨x + d, y, rfl⟩
    | RIGHT_STRETCHED | STRETCHED => exact .inl rfl
  | top =>
    unfold resizeTop
    rw [if_neg zero]
    cases vp with
    | TOP_FIXED => exact .inr ⟨x, y, rfl⟩
    | ABSOLUTE | BOTTOM_FIXED | BOTTOM_STRETCHED => exact .inr ⟨x, y - d, rfl⟩
    | TOP_STRETCHED | STRETCHED => exact .inl rfl
  | bottom =>
    unfold resizeBottom
    rw [if_neg zero]
    cases vp with
    | ABSOLUTE | TOP_FIXED | TOP_STRETCHED => exact .inr ⟨x, y, rfl⟩
    | BOTTOM_FIXED => exact .inr ⟨x, y + d, rfl⟩
    | BOTTOM_STRETCHED | STRETCHED => exact .inl rfl

theorem size_resizeEdge (isPrimary : Bool) (o : UIObjectImpl) (edge : Edge) (d : Int) (a : Axis) :
    (o.resizeEdge f isPrimary edge d).1.size a =
      o.size a + growth (edge, (o.resizeEdge f isPrimary edge d).2) a := by
  obtain sized | ⟨x, y, moved⟩ := resizeEdge_cases (f := f) isPrimary o edge d
  · rw [sized]
    cases edge <;> cases a <;>
      simp [stretchEdge, opposite, size_resizeWidth, size_resizeHeight, growth, Edge.axis] <;>
      omega
  · rw [moved]
    cases edge <;> cases a <;> simp [growth, Edge.axis, size, extent]

theorem size_rootResizeEdge (isPrimary : Bool) (o : UIObjectImpl) (edge : Edge) (d : Int)
    (a : Axis) :
    (rootResizeEdge f isPrimary o edge d).1.size a =
      o.size a + growth (edge, (rootResizeEdge f isPrimary o edge d).2) a := by
  have width := size_resizeWidth (f := f) isPrimary o
  have height := size_resizeHeight (f := f) isPrimary o
  unfold rootResizeEdge
  split
  next zero => cases edge <;> cases a <;> simp [growth, Edge.axis, zero]
  · have same (o : UIObjectImpl) (x y : Int) : size { o with x := x, y := y } a = o.size a := by
      cases a <;> rfl
    cases edge with
    | left =>
      have moved := same (o.resizeWidth f isPrimary (o.width - d)).1
      simp only [moved, width]
      cases a <;> simp [growth, Edge.axis]
      omega
    | right =>
      simp only [opposite, width]
      cases a <;> simp [growth, Edge.axis]
      omega
    | top =>
      have moved := same (o.resizeHeight f isPrimary (o.height - d)).1
      simp only [moved, height]
      cases a <;> simp [growth, Edge.axis]
      omega
    | bottom =>
      simp only [opposite, height]
      cases a <;> simp [growth, Edge.axis]
      omega

end UIObjectImpl

variable (f isRoot) in
theorem size_topEdge (o : UIObjectImpl) (edge : Edge) (d : Int) (a : Axis) :
    (topEdge f isRoot o edge d).1.size a =
      o.size a + growth (edge, (topEdge f isRoot o edge d).2) a := by
  unfold topEdge
  split
  · exact UIObjectImpl.size_rootResizeEdge true o edge d a
  · exact UIObjectImpl.size_resizeEdge true o edge d a

/-! What a child keeps when its parent becomes another. -/

structure Kept (p p' o o' : UIObjectImpl) : Prop where
  placement : o'.horizontalPlacementType = o.horizontalPlacementType ∧
    o'.verticalPlacementType = o.verticalPlacementType
  near : ∀ a, o.holdsNear a = true → o'.pos a = o.pos a
  far : ∀ a, o.holdsFar a = true → p'.farGap o' a = p.farGap o a
  fixed : ∀ a, o.isStretched a = false → o'.extent a = o.extent a
  minSize : ∀ a, o'.minSize a = o.minSize a
  follows : ∀ a, o'.size a = max (o'.minSize a) (o'.vSize a)

mutual

def Objects.Kept (p p' : UIObjectImpl) : Objects ι → Objects ι → Prop
  | .node id o children, .node id' o' children' =>
      id' = id ∧ UIObject.Kept p p' o o' ∧ KeptAll o o' children children'

def KeptAll (p p' : UIObjectImpl) : List (Objects ι) → List (Objects ι) → Prop
  | [], [] => True
  | child :: children, child' :: children' =>
      child.Kept p p' child' ∧ KeptAll p p' children children'
  | [], _ :: _ => False
  | _ :: _, [] => False

end

/-- The same for the object that is dragged and all below it. -/
def Objects.KeptBelow : Objects ι → Objects ι → Prop
  | .node id o children, .node id' o' children' => id' = id ∧ KeptAll o o' children children'

mutual

def Objects.All (P : UIObjectImpl → Prop) : Objects ι → Prop
  | .node _ o children => P o ∧ AllBelow P children

def AllBelow (P : UIObjectImpl → Prop) : List (Objects ι) → Prop
  | [] => True
  | child :: children => child.All P ∧ AllBelow P children

end

mutual

def Objects.InFrame (f : Frame) (e : Edge × Int) : Objects ι → Prop
  | .node _ o children => o.EdgeInFrame f e ∧ AllInFrame f (e.1, (o.drag f e).2) children

def AllInFrame (f : Frame) (e : Edge × Int) : List (Objects ι) → Prop
  | [] => True
  | child :: children => child.InFrame f e ∧ AllInFrame f e children

end

instance (o : UIObjectImpl) (e : Edge × Int) : Decidable (o.EdgeInFrame f e) :=
  inferInstanceAs (Decidable (Admitted _ _ _ _))

mutual

def Objects.decideInFrame (f : Frame) : ∀ (e : Edge × Int) (t : Objects ι),
    Decidable (t.InFrame f e)
  | e, .node _ o children =>
      have := decideAllInFrame f (e.1, (o.drag f e).2) children
      inferInstanceAs (Decidable (_ ∧ _))

def decideAllInFrame (f : Frame) : ∀ (e : Edge × Int) (ts : List (Objects ι)),
    Decidable (AllInFrame f e ts)
  | _, [] => .isTrue trivial
  | e, child :: children =>
      have := child.decideInFrame f e
      have := decideAllInFrame f e children
      inferInstanceAs (Decidable (_ ∧ _))

end

variable {p p' p'' o o' o'' : UIObjectImpl}

theorem holds_of_placement (same : o'.horizontalPlacementType = o.horizontalPlacementType ∧
    o'.verticalPlacementType = o.verticalPlacementType) (a : Axis) :
    o'.holdsNear a = o.holdsNear a ∧ o'.holdsFar a = o.holdsFar a ∧
      o'.isStretched a = o.isStretched a := by
  obtain ⟨h, v⟩ := same
  cases a <;> simp [UIObjectImpl.holdsNear, UIObjectImpl.holdsFar, UIObjectImpl.isStretched, h, v]

theorem Kept.trans (first : Kept p p' o o') (second : Kept p' p'' o' o'') : Kept p p'' o o'' := by
  have same := holds_of_placement first.placement
  constructor
  · exact ⟨second.placement.1.trans first.placement.1, second.placement.2.trans first.placement.2⟩
  · intro a near
    exact (second.near a ((same a).1.trans near)).trans (first.near a near)
  · intro a far
    exact (second.far a ((same a).2.1.trans far)).trans (first.far a far)
  · intro a fixed
    exact (second.fixed a ((same a).2.2.trans fixed)).trans (first.fixed a fixed)
  · exact fun a => (second.minSize a).trans (first.minSize a)
  · exact second.follows

theorem drag_kept {e : Edge × Int} (grown : ∀ a, p'.size a = p.size a + growth e a)
    (fits : o.EdgeInFrame f e) (follows : ∀ a, (o.extent a).Follows) :
    Kept p p' o (o.drag f e).1 := by
  have all : Admitted (UIObjectImpl.drag f) (UIObjectImpl.EdgeInFrame f) o [e] := ⟨fits, trivial⟩
  have step a := UIObjectImpl.answers_drag (follows a) all
  refine ⟨UIObjectImpl.placement_drag o e, fun a => UIObjectImpl.pos_drag_of_near e, ?_,
    fun a => UIObjectImpl.extent_drag_of_fixed e, fun a => (step a).minSize,
    fun a => (step a).follows⟩
  intro a far
  have moved := UIObjectImpl.pos_drag_of_far (f := f) e far
  have sized := (step a).vSize
  rw [List.flatMap_singleton] at sized
  unfold UIObjectImpl.farGap
  rw [grown]
  have vSize : (o.drag f e).1.vSize a = o.vSize a + total a (o.asked e.1 e.2) := sized
  omega

mutual

theorem Objects.Kept.trans : ∀ {p p' p'' : UIObjectImpl} {t t' t'' : Objects ι},
    t.Kept p p' t' → t'.Kept p' p'' t'' → t.Kept p p'' t''
  | _, _, _, .node .., .node .., .node .., ⟨first, own, below⟩, ⟨second, own', below'⟩ =>
      ⟨second.trans first, UIObject.Kept.trans own own', keptAll_trans below below'⟩

theorem keptAll_trans : ∀ {p p' p'' : UIObjectImpl} {ts ts' ts'' : List (Objects ι)},
    KeptAll p p' ts ts' → KeptAll p' p'' ts' ts'' → KeptAll p p'' ts ts''
  | _, _, _, [], [], [], _, _ => trivial
  | _, _, _, _ :: _, _ :: _, _ :: _, ⟨first, rest⟩, ⟨first', rest'⟩ =>
      ⟨first.trans first', keptAll_trans rest rest'⟩

end

mutual

theorem move_kept : ∀ (t : Objects ι) {p p' : UIObjectImpl} {e : Edge × Int},
    (∀ a, p'.size a = p.size a + growth e a) → t.InFrame f e →
      t.All (fun o => ∀ a, (o.extent a).Follows) → t.Kept p p' (t.move f e)
  | .node _ o children, _, _, e, grown, ⟨fits, below⟩, ⟨follows, rest⟩ =>
      ⟨rfl, drag_kept grown fits follows,
        moveAll_kept children (UIObjectImpl.size_resizeEdge false o e.1 e.2) below rest⟩

theorem moveAll_kept : ∀ (ts : List (Objects ι)) {p p' : UIObjectImpl} {e : Edge × Int},
    (∀ a, p'.size a = p.size a + growth e a) → AllInFrame f e ts →
      AllBelow (fun o => ∀ a, (o.extent a).Follows) ts → KeptAll p p' ts (moveAll f e ts)
  | [], _, _, _, _, _, _ => trivial
  | child :: children, _, _, _, grown, ⟨fits, below⟩, ⟨follows, rest⟩ =>
      ⟨move_kept child grown fits follows, moveAll_kept children grown below rest⟩

end

mutual

theorem Objects.Kept.follows : ∀ {p p' : UIObjectImpl} {t t' : Objects ι}, t.Kept p p' t' →
    t'.All fun o => ∀ a, (o.extent a).Follows
  | _, _, .node .., .node .., ⟨_, own, below⟩ => ⟨own.follows, keptAll_follows below⟩

theorem keptAll_follows : ∀ {p p' : UIObjectImpl} {ts ts' : List (Objects ι)},
    KeptAll p p' ts ts' → AllBelow (fun o => ∀ a, (o.extent a).Follows) ts'
  | _, _, [], [], _ => trivial
  | _, _, _ :: _, _ :: _, ⟨first, rest⟩ => ⟨first.follows, keptAll_follows rest⟩

end

mutual

theorem kept_refl : ∀ (t : Objects ι) {p : UIObjectImpl},
    t.All (fun o => ∀ a, (o.extent a).Follows) → t.Kept p p t
  | .node _ _ children, _, ⟨own, below⟩ =>
      ⟨rfl, ⟨⟨rfl, rfl⟩, fun _ _ => rfl, fun _ _ => rfl, fun _ _ => rfl, fun _ => rfl, own⟩,
        keptAll_refl children below⟩

theorem keptAll_refl : ∀ (ts : List (Objects ι)) {p : UIObjectImpl},
    AllBelow (fun o => ∀ a, (o.extent a).Follows) ts → KeptAll p p ts ts
  | [], _, _ => trivial
  | child :: children, _, ⟨first, rest⟩ => ⟨kept_refl child first, keptAll_refl children rest⟩

end

def Objects.TopInFrame (f : Frame) (isRoot : Bool) (t : Objects ι) (e : Edge × Int) : Prop :=
  AllInFrame f (e.1, (topEdge f isRoot t.object e.1 e.2).2) t.children

instance (t : Objects ι) (e : Edge × Int) : Decidable (t.TopInFrame f isRoot e) :=
  decideAllInFrame f _ t.children

def Objects.Resizes (f : Frame) (isRoot : Bool) (t : Objects ι) (r : Resize) : Prop :=
  Admitted (fun t e => (t.moveBy f (topEdge f isRoot) e, ())) (Objects.TopInFrame f isRoot) t
    r.moves

instance (t : Objects ι) (r : Resize) : Decidable (t.Resizes f isRoot r) :=
  inferInstanceAs (Decidable (Admitted _ _ _ _))

/-- The objects below have their own minimum or what is left of their parent for a size. -/
def Objects.Rest (t : Objects ι) : Prop :=
  AllBelow (fun o => ∀ a, (o.extent a).Follows) t.children

theorem topMove_kept {e : Edge × Int} {t : Objects ι} (fits : t.TopInFrame f isRoot e)
    (rest : t.Rest) : t.KeptBelow (t.moveBy f (topEdge f isRoot) e) := by
  obtain ⟨id, o, children⟩ := t
  exact ⟨rfl, moveAll_kept children (size_topEdge _ _ o e.1 e.2) fits rest⟩

theorem Objects.KeptBelow.rest {t t' : Objects ι} (kept : t.KeptBelow t') : t'.Rest := by
  obtain ⟨id, o, children⟩ := t
  obtain ⟨id', o', children'⟩ := t'
  exact keptAll_follows kept.2

theorem Objects.KeptBelow.trans {t t' t'' : Objects ι} (first : t.KeptBelow t')
    (second : t'.KeptBelow t'') : t.KeptBelow t'' := by
  obtain ⟨id, o, children⟩ := t
  obtain ⟨id', o', children'⟩ := t'
  obtain ⟨id'', o'', children''⟩ := t''
  exact ⟨second.1.trans first.1, keptAll_trans first.2 second.2⟩

theorem Objects.KeptBelow.refl {t : Objects ι} (rest : t.Rest) : t.KeptBelow t := by
  obtain ⟨id, o, children⟩ := t
  exact ⟨rfl, keptAll_refl children rest⟩

/-- One drag of the mouse, and what the overrides of `onResize` do in it. -/
structure Drag (ι : Type u) where
  resize : Resize
  onResize : OnResize ι

def Objects.drag (f : Frame) (isRoot : Bool) (t : Objects ι) (d : Drag ι) : Objects ι :=
  t.resize f d.onResize isRoot d.resize

/-- The sizes that the drag asks for are within the frame, except those of owned objects. -/
structure Objects.Drags (f : Frame) (isRoot : Bool) (owned : ι → Bool) (t : Objects ι)
    (d : Drag ι) : Prop where
  sets : d.onResize.SetsOnly owned
  fits : (t.without owned).Resizes f isRoot d.resize

theorem drag_kept_below {owned : ι → Bool} {t : Objects ι} {d : Drag ι}
    (drags : t.Drags f isRoot owned d) (rest : (t.without owned).Rest) :
    (t.without owned).KeptBelow ((t.drag f isRoot d).without owned) := by
  obtain ⟨sets, fits⟩ := drags
  rw [Objects.drag, resize_moves sets]
  unfold Objects.Resizes at fits
  generalize t.without owned = t at fits rest
  generalize d.resize.moves = es at fits
  induction es generalizing t with
  | nil => exact .refl rest
  | cons e es ih =>
    have first := topMove_kept fits.1 rest
    exact first.trans (ih _ first.rest fits.2)

/-- However the mouse drags an object, and however often: each object below keeps its distance from
    the edges that hold it, and its size unless it is stretched, and has no other size than its own
    minimum or what these distances leave of its parent. An object that an override of `onResize`
    sets is left out with all that is below it. -/
theorem resize_keeps_gaps {owned : ι → Bool} {t t' : Objects ι} {ds : List (Drag ι)}
    (rest : (t.without owned).Rest)
    (run : Run (Guarded (Objects.Drags f isRoot owned) fun t d t' => t' = t.drag f isRoot d)
      t ds t') : (t.without owned).KeptBelow (t'.without owned) := by
  apply run_invariant (fun t' => (t.without owned).KeptBelow (t'.without owned)) _ run
    (.refl rest)
  intro mid d next kept taken
  rw [taken.2]
  exact kept.trans (drag_kept_below taken.1 kept.rest)

/-- A window with a button on the right and a scroller, in which there is a label. The canvas of
    the scroller holds the scroll bar. -/
def window : Objects Nat :=
  .node 0 ((UIObjectImpl.create ⟨200, 200⟩ 10 10 100 80 .STRETCHED .STRETCHED).minHeight 60).1
    [.node 1 (.create ⟨200, 200⟩ 70 0 30 30 .RIGHT_FIXED .TOP_FIXED) [],
      .node 2 ((UIObjectImpl.create ⟨200, 200⟩ 0 30 60 50 .STRETCHED .STRETCHED).minHeight 40).1
        [.node 3 (.create ⟨200, 200⟩ 5 5 40 20 .ABSOLUTE .ABSOLUTE) [],
          .node 4 (.create ⟨200, 200⟩ 50 0 10 50 .RIGHT_FIXED .STRETCHED)
            [.node 5 (.create ⟨200, 200⟩ 0 10 10 30 .ABSOLUTE .TOP_FIXED) []]]]

def isScrollBar (id : Nat) : Bool := id = 5

/-- `VerticalScroller::onResize` for a child of the height 20 -/
def windowOnResize : OnResize Nat
  | 2, scroller, 5, scrollBar =>
      let s : Scroller.VerticalScroller := ⟨scroller, 10, 10, 40, 30, 8, scrollBar, some ⟨0, 20⟩⟩
      match s.onResize ⟨200, 200⟩ with
      | .ok s => s.scrollBar
      | .error _ => scrollBar
  | _, _, _, o => o

theorem windowOnResize_sets : windowOnResize.SetsOnly isScrollBar := by
  intro id o below x other
  unfold windowOnResize
  split
  next => cases other
  next => rfl

theorem window_rest : (window.without isScrollBar).Rest := by
  refine And.intro (And.intro (fun a => ?_) trivial) (And.intro (And.intro (fun a => ?_)
    (And.intro (And.intro (fun a => ?_) trivial) (And.intro (And.intro (fun a => ?_) trivial)
      trivial))) trivial)
  · cases a <;> rfl
  · cases a <;> rfl
  · cases a <;> rfl
  · cases a <;> rfl

def windowDrag (resize : Resize) : Drag Nat := ⟨resize, windowOnResize⟩

theorem resize_keeps_gaps_window :
    (window.without isScrollBar).KeptBelow ((([⟨.LEFT_TOP, 70, -15⟩, ⟨.RIGHT, 20, 0⟩].map
      windowDrag).foldl (Objects.drag ⟨200, 200⟩ true) window).without isScrollBar) := by
  have first : window.Drags ⟨200, 200⟩ true isScrollBar (windowDrag ⟨.LEFT_TOP, 70, -15⟩) :=
    ⟨windowOnResize_sets, by decide +kernel⟩
  have second : (window.drag ⟨200, 200⟩ true (windowDrag ⟨.LEFT_TOP, 70, -15⟩)).Drags ⟨200, 200⟩
      true isScrollBar (windowDrag ⟨.RIGHT, 20, 0⟩) := by
    refine ⟨windowOnResize_sets, ?_⟩
    rw [Objects.drag, windowDrag, resize_moves windowOnResize_sets]
    decide +kernel
  exact resize_keeps_gaps window_rest (.cons ⟨first, rfl⟩ (.cons ⟨second, rfl⟩ (.nil _)))

end UIObject
