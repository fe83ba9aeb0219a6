import Mathlib.Algebra.Order.Ring.Int
import UpanLibs.Machine
import UpanLibs.TextArea.Input
import Mathlib.Algebra.BigOperators.Group.List.Basic

/-!
The size of a `UIObjectImpl` and how it follows its parent. On each axis the object keeps
its size, the minimum and a virtual size, which goes on below the minimum. Sizes are
unbounded integers; what is drawn and notified is left out.
-/
namespace UIObject

open Machine
open TextInput (MIN_OBJECT_SIZE)

/-- `_width`, `_minWidth` and `_vWidth`, or the same three of the height. -/
structure Extent where
  size : Int
  minSize : Int
  vSize : Int
  deriving DecidableEq, Repr

namespace Extent

/-- The second half of `resizeWidth`: the size is set, with the change reported. -/
def assign (size : Int) (isPrimary : Bool) (e : Extent) : Extent × Int :=
  let size := if size < e.minSize then e.minSize else size
  let dx := e.size - size
  if dx ≠ 0 then
    ({ e with size := size, vSize := if isPrimary then size else e.vSize }, dx)
  else (e, dx)

/-- `resizeWidth`, or `resizeHeight`, in a frame that is `frame` wide or high. -/
def resize (frame size : Int) (isPrimary : Bool) (e : Extent) : Extent × Int :=
  let size := if size > frame then frame else size
  if isPrimary then e.assign size true
  else
    let adx := size - e.size
    let e := { e with vSize := e.vSize + adx }
    if adx ≥ 0 then
      if e.vSize < e.minSize then (e, 0) else e.assign e.vSize false
    else e.assign size false

/-- `minWidth`, or `minHeight`. -/
def setMin (minSize : Int) (e : Extent) : Extent × Int :=
  let minSize := if minSize > e.size then e.size else minSize
  let minSize := if minSize < MIN_OBJECT_SIZE then MIN_OBJECT_SIZE else minSize
  ({ e with minSize := minSize }, e.minSize - minSize)

/-- What the constructor makes of one of its sizes. -/
def create (frame size : Int) (fixed : Bool) : Extent :=
  let size := if size > frame then frame else size
  let size := if size < MIN_OBJECT_SIZE then MIN_OBJECT_SIZE else size
  ⟨size, if fixed then size else MIN_OBJECT_SIZE, size⟩

structure Settled (e : Extent) : Prop where
  virtual : e.vSize = e.size
  least : e.minSize ≤ e.size
  object : MIN_OBJECT_SIZE ≤ e.minSize

def Follows (e : Extent) : Prop := e.size = max e.minSize e.vSize

variable {e : Extent} {frame size : Int}

theorem settled_create (frame size : Int) (fixed : Bool) : (create frame size fixed).Settled := by
  refine ⟨rfl, ?_, ?_⟩ <;> cases fixed <;> simp only [create] <;> split <;> simp <;> omega

theorem settled_setMin (settled : e.Settled) (m : Int) : (e.setMin m).1.Settled := by
  have enough := settled.least
  have object := settled.object
  refine ⟨settled.virtual, ?_, ?_⟩ <;> simp only [setMin] <;> split <;> split <;> omega

theorem minSize_assign (size : Int) (isPrimary : Bool) :
    (e.assign size isPrimary).1.minSize = e.minSize := by
  simp only [assign]
  generalize (if size < e.minSize then e.minSize else size) = size
  split <;> rfl

theorem size_assign (size : Int) (isPrimary : Bool) :
    (e.assign size isPrimary).1.size = max e.minSize size := by
  unfold assign
  simp only
  split <;> split at * <;> simp only at * <;> omega

theorem vSize_assign_false (size : Int) : (e.assign size false).1.vSize = e.vSize := by
  simp only [assign]
  generalize (if size < e.minSize then e.minSize else size) = size
  split <;> rfl

theorem vSize_assign_true (virtual : e.vSize = e.size) (size : Int) :
    (e.assign size true).1.vSize = (e.assign size true).1.size := by
  simp only [assign]
  generalize (if size < e.minSize then e.minSize else size) = size
  split
  · rfl
  · exact virtual

theorem settled_resize (settled : e.Settled) (frame size : Int) :
    (e.resize frame size true).1.Settled := by
  have virtual := settled.virtual
  have least := settled.least
  have object := settled.object
  refine ⟨?_, ?_, ?_⟩
  · simp only [resize, if_true]
    exact vSize_assign_true virtual _
  · simp only [resize, if_true]
    rw [minSize_assign, size_assign]
    exact Int.le_max_left _ _
  · simp only [resize, if_true]
    rwa [minSize_assign]

theorem size_resize_true (frame size : Int) :
    (e.resize frame size true).1.size = max e.minSize (min size frame) := by
  simp only [resize, if_true]
  rw [size_assign]
  split <;> omega

theorem Settled.follows (settled : e.Settled) : e.Follows := by
  unfold Follows
  rw [settled.virtual]
  exact (Int.max_eq_right settled.least).symm

theorem returned_assign (size : Int) (isPrimary : Bool) :
    (e.assign size isPrimary).2 = e.size - (e.assign size isPrimary).1.size := by
  simp only [assign]
  generalize (if size < e.minSize then e.minSize else size) = size
  split
  · rfl
  next same =>
    simp only [ne_eq, Decidable.not_not] at same
    simp only [same, sub_self]

theorem returned_resize (frame size : Int) (isPrimary : Bool) :
    (e.resize frame size isPrimary).2 = e.size - (e.resize frame size isPrimary).1.size := by
  simp only [resize]
  -- the two branches with `assign` get an extent of the same size
  generalize (if size > frame then frame else size) = size
  split
  · exact returned_assign _ _
  · split
    · split
      · simp only [sub_self]
      · exact returned_assign (e := ⟨e.size, e.minSize, e.vSize + (size - e.size)⟩) _ _
    · exact returned_assign (e := ⟨e.size, e.minSize, e.vSize + (size - e.size)⟩) _ _

theorem minSize_resize (frame size : Int) (isPrimary : Bool) :
    (e.resize frame size isPrimary).1.minSize = e.minSize := by
  simp only [resize]
  generalize (if size > frame then frame else size) = size
  split
  · exact minSize_assign _ _
  · split
    · split
      · rfl
      · exact minSize_assign (e := ⟨e.size, e.minSize, e.vSize + (size - e.size)⟩) _ _
    · exact minSize_assign (e := ⟨e.size, e.minSize, e.vSize + (size - e.size)⟩) _ _

theorem vSize_resize (fits : size ≤ frame) :
    (e.resize frame size false).1.vSize = e.vSize + (size - e.size) := by
  have same : (if size > frame then frame else size) = size := if_neg (by omega)
  simp only [resize, same, Bool.false_eq_true, if_false]
  split
  · split
    · rfl
    · exact vSize_assign_false _
  · exact vSize_assign_false _

theorem follows_resize (follows : e.Follows) (fits : size ≤ frame) :
    (e.resize frame size false).1.Follows := by
  unfold Follows at follows ⊢
  rw [vSize_resize fits, minSize_resize]
  have same : (if size > frame then frame else size) = size := if_neg (by omega)
  simp only [resize, same, Bool.false_eq_true, if_false]
  split
  next growing =>
    split
    next below =>
      simp only at below ⊢
      omega
    next above => rw [size_assign]
  next shrinking =>
    rw [size_assign]
    simp only
    omega

end Extent

inductive HorizontalPlacementType where
  | ABSOLUTE | LEFT_FIXED | LEFT_STRETCHED | RIGHT_FIXED | RIGHT_STRETCHED | STRETCHED
  deriving DecidableEq, Repr

inductive VerticalPlacementType where
  | ABSOLUTE | TOP_FIXED | TOP_STRETCHED | BOTTOM_FIXED | BOTTOM_STRETCHED | STRETCHED
  deriving DecidableEq, Repr

structure Frame where
  width : Int
  height : Int
  deriving DecidableEq, Repr

structure UIObjectImpl where
  x : Int
  y : Int
  horizontal : Extent
  vertical : Extent
  horizontalPlacementType : HorizontalPlacementType
  verticalPlacementType : VerticalPlacementType
  deriving DecidableEq, Repr

namespace UIObjectImpl

def width (o : UIObjectImpl) : Int := o.horizontal.size
def height (o : UIObjectImpl) : Int := o.vertical.size

def create (f : Frame) (x y width height : Int) (horizontal : HorizontalPlacementType)
    (vertical : VerticalPlacementType) : UIObjectImpl where
  x := x
  y := y
  horizontal := .create f.width width (horizontal = .ABSOLUTE ∨ horizontal = .RIGHT_FIXED ∨
    horizontal = .LEFT_FIXED)
  vertical := .create f.height height (vertical = .ABSOLUTE ∨ vertical = .TOP_FIXED ∨
    vertical = .BOTTOM_FIXED)
  horizontalPlacementType := horizontal
  verticalPlacementType := vertical

variable (f : Frame) (isPrimary : Bool) (o : UIObjectImpl)

def resizeWidth (width : Int) : UIObjectImpl × Int :=
  let (e, dx) := o.horizontal.resize f.width width isPrimary
  ({ o with horizontal := e }, dx)

def resizeHeight (height : Int) : UIObjectImpl × Int :=
  let (e, dy) := o.vertical.resize f.height height isPrimary
  ({ o with vertical := e }, dy)

def minWidth (minWidth : Int) : UIObjectImpl × Int :=
  let (e, dx) := o.horizontal.setMin minWidth
  ({ o with horizontal := e }, dx)

def minHeight (minHeight : Int) : UIObjectImpl × Int :=
  let (e, dy) := o.vertical.setMin minHeight
  ({ o with vertical := e }, dy)

/-- The new size with the change as `UIElement` reports it at the far edge. -/
def opposite (r : UIObjectImpl × Int) : UIObjectImpl × Int := (r.1, -r.2)

def resizeLeft (dx : Int) : UIObjectImpl × Int :=
  if dx = 0 then (o, dx) else
    match o.horizontalPlacementType with
    | .LEFT_FIXED => (o, 0)
    | .ABSOLUTE | .RIGHT_FIXED | .RIGHT_STRETCHED => ({ o with x := o.x - dx }, 0)
    | .LEFT_STRETCHED | .STRETCHED => o.resizeWidth f isPrimary (o.width - dx)

def resizeRight (dx : Int) : UIObjectImpl × Int :=
  if dx = 0 then (o, dx) else
    match o.horizontalPlacementType with
    | .ABSOLUTE | .LEFT_FIXED | .LEFT_STRETCHED => (o, 0)
    | .RIGHT_FIXED => ({ o with x := o.x + dx }, 0)
    | .RIGHT_STRETCHED | .STRETCHED => opposite (o.resizeWidth f isPrimary (o.width + dx))

def resizeTop (dy : Int) : UIObjectImpl × Int :=
  if dy = 0 then (o, dy) else
    match o.verticalPlacementType with
    | .TOP_FIXED => (o, 0)
    | .ABSOLUTE | .BOTTOM_FIXED | .BOTTOM_STRETCHED => ({ o with y := o.y - dy }, 0)
    | .TOP_STRETCHED | .STRETCHED => o.resizeHeight f isPrimary (o.height - dy)

def resizeBottom (dy : Int) : UIObjectImpl × Int :=
  if dy = 0 then (o, dy) else
    match o.verticalPlacementType with
    | .ABSOLUTE | .TOP_FIXED | .TOP_STRETCHED => (o, 0)
    | .BOTTOM_FIXED => ({ o with y := o.y + dy }, 0)
    | .BOTTOM_STRETCHED | .STRETCHED => opposite (o.resizeHeight f isPrimary (o.height + dy))

/-- The setters that fix an object before it follows its parent. -/
inductive Setup where
  | minWidth (minWidth : Int)
  | minHeight (minHeight : Int)
  | resizeWidth (width : Int)
  | resizeHeight (height : Int)
  deriving DecidableEq, Repr

def setup (o : UIObjectImpl) : Setup → UIObjectImpl
  | .minWidth w => (o.minWidth w).1
  | .minHeight h => (o.minHeight h).1
  | .resizeWidth w => (o.resizeWidth f true w).1
  | .resizeHeight h => (o.resizeHeight f true h).1

end UIObjectImpl

inductive Axis where
  | horizontal | vertical
  deriving DecidableEq, Repr

/-- What one change of the parent asks of a child. -/
structure Delta where
  axis : Axis
  amount : Int
  deriving DecidableEq, Repr

/-- A value that belongs to the delta, as far as it is about the axis. -/
def Delta.on (a : Axis) (d : Delta) (value : Int) : Int := if d.axis = a then value else 0

def total (a : Axis) (ds : List Delta) : Int := (ds.map fun d => d.on a d.amount).sum

def Frame.size (f : Frame) : Axis → Int
  | .horizontal => f.width
  | .vertical => f.height

namespace UIObjectImpl

def extent (o : UIObjectImpl) : Axis → Extent
  | .horizontal => o.horizontal
  | .vertical => o.vertical

def size (o : UIObjectImpl) (a : Axis) : Int := (o.extent a).size
def minSize (o : UIObjectImpl) (a : Axis) : Int := (o.extent a).minSize

variable (f : Frame)

/-- The object is resized as a child, by as much as the delta says. -/
def follow (o : UIObjectImpl) (d : Delta) : UIObjectImpl × Int :=
  match d.axis with
  | .horizontal => o.resizeWidth f false (o.width + d.amount)
  | .vertical => o.resizeHeight f false (o.height + d.amount)

/-- The size asked for does not exceed the frame. -/
def InFrame (o : UIObjectImpl) (d : Delta) : Prop :=
  o.size d.axis + d.amount ≤ f.size d.axis

instance : DecidablePred (InFrame f o) := fun _ => inferInstanceAs (Decidable (_ ≤ _))

def Settled (o : UIObjectImpl) : Prop := o.horizontal.Settled ∧ o.vertical.Settled

variable {f} {o : UIObjectImpl}

theorem settled_initial (f : Frame) (x y width height : Int) (h : HorizontalPlacementType)
    (v : VerticalPlacementType) : (create f x y width height h v).Settled :=
  ⟨Extent.settled_create .., Extent.settled_create ..⟩

theorem settled_setup (settled : o.Settled) (s : Setup) : (o.setup f s).Settled := by
  cases s with
  | minWidth w => exact ⟨Extent.settled_setMin settled.1 w, settled.2⟩
  | minHeight h => exact ⟨settled.1, Extent.settled_setMin settled.2 h⟩
  | resizeWidth w => exact ⟨Extent.settled_resize settled.1 _ w, settled.2⟩
  | resizeHeight h => exact ⟨settled.1, Extent.settled_resize settled.2 _ h⟩

theorem settled_prepared (settled : o.Settled) (ss : List Setup) :
    (ss.foldl (setup f) o).Settled := by
  induction ss generalizing o with
  | nil => exact settled
  | cons s ss ih => exact ih (settled_setup settled s)

theorem Settled.extent (settled : o.Settled) (a : Axis) : (o.extent a).Settled := by
  cases a with
  | horizontal => exact settled.1
  | vertical => exact settled.2

theorem extent_follow (o : UIObjectImpl) (d : Delta) (a : Axis) :
    (o.follow f d).1.extent a =
      if d.axis = a then
        ((o.extent a).resize (f.size a) (o.size a + d.amount) false).1
      else o.extent a := by
  obtain ⟨axis, amount⟩ := d
  cases axis <;> cases a <;> rfl

theorem follow_reports (o : UIObjectImpl) (d : Delta) :
    (o.follow f d).2 = o.size d.axis - (o.follow f d).1.size d.axis := by
  obtain ⟨axis, amount⟩ := d
  cases axis with
  | horizontal => exact Extent.returned_resize (e := o.horizontal) f.width (o.width + amount) false
  | vertical => exact Extent.returned_resize (e := o.vertical) f.height (o.height + amount) false

theorem size_follow_other {d : Delta} {a : Axis} (other : d.axis ≠ a) :
    (o.follow f d).1.size a = o.size a := by
  unfold size
  rw [extent_follow, if_neg other]

theorem minSize_follow (d : Delta) (a : Axis) :
    (o.follow f d).1.minSize a = o.minSize a := by
  unfold minSize
  rw [extent_follow]
  split
  · exact Extent.minSize_resize _ _ _
  · rfl

theorem vSize_follow {d : Delta} (fits : InFrame f o d) (a : Axis) :
    ((o.follow f d).1.extent a).vSize = (o.extent a).vSize + d.on a d.amount := by
  rw [extent_follow]
  unfold Delta.on
  split
  next here =>
    subst here
    rw [Extent.vSize_resize fits]
    simp only [size]
    omega
  next => omega

theorem follows_follow {d : Delta} (fits : InFrame f o d) {a : Axis}
    (follows : (o.extent a).Follows) : ((o.follow f d).1.extent a).Follows := by
  rw [extent_follow]
  split
  next here =>
    subst here
    exact Extent.follows_resize follows fits
  next => exact follows

/-- The state after a whole list of deltas, seen from one axis. -/
structure Followed (o t : UIObjectImpl) (ds : List Delta) (a : Axis) : Prop where
  follows : (t.extent a).Follows
  minSize : t.minSize a = o.minSize a
  vSize : (t.extent a).vSize = (o.extent a).vSize + total a ds

theorem answers_followed {ds : List Delta} {a : Axis} (follows : (o.extent a).Follows)
    (fits : Admitted (follow f) (InFrame f) o ds) :
    Followed o (answers (follow f) o ds).1 ds a := by
  induction ds generalizing o with
  | nil => exact ⟨follows, rfl, by simp [answers, total]⟩
  | cons d ds ih =>
    obtain ⟨first, rest⟩ := fits
    have after := ih (follows_follow first follows) rest
    refine ⟨after.follows, after.minSize.trans (minSize_follow d a), ?_⟩
    have tail := after.vSize
    rw [vSize_follow first a] at tail
    rw [show total a (d :: ds) = d.on a d.amount + total a ds from List.sum_cons, ← add_assoc]
    exact tail

theorem Followed.size {t : UIObjectImpl} {ds : List Delta} {a : Axis}
    (followed : Followed o t ds a) (settled : o.Settled) :
    t.size a = max (o.minSize a) (o.size a + total a ds) := by
  have follows : t.size a = max (t.minSize a) (t.extent a).vSize := followed.follows
  rw [follows, followed.minSize, followed.vSize, (settled.extent a).virtual]
  rfl

theorem reports_telescope (o : UIObjectImpl) (ds : List Delta) (a : Axis) :
    (List.zipWith (Delta.on a) ds (answers (follow f) o ds).2).sum =
      o.size a - (answers (follow f) o ds).1.size a := by
  induction ds generalizing o with
  | nil => simp [answers]
  | cons d ds ih =>
    have rest := ih (o.follow f d).1
    simp only [answers, List.zipWith_cons_cons, List.sum_cons]
    rw [rest]
    unfold Delta.on
    split
    next here =>
      subst here
      rw [follow_reports]
      omega
    next other =>
      rw [size_follow_other other]
      omega

/-- An object that its constructor and its setters leave at rest follows its parent
    without drift. -/
theorem drag_resize_exact (f : Frame) (x y width height : Int) (h : HorizontalPlacementType)
    (v : VerticalPlacementType) (ss : List Setup) (ds : List Delta) :
    let o := ss.foldl (setup f) (create f x y width height h v)
    let after := answers (follow f) o ds
    (∀ before d rest, ds = before ++ d :: rest →
      let old := (answers (follow f) o before).1
      (old.follow f d).2 = old.size d.axis - (old.follow f d).1.size d.axis) ∧
    (∀ a, (List.zipWith (Delta.on a) ds after.2).sum = o.size a - after.1.size a) ∧
    (Admitted (follow f) (InFrame f) o ds → ∀ a,
      after.1.minSize a = o.minSize a ∧
      after.1.size a = max (o.minSize a) (o.size a + total a ds) ∧
      (total a ds = 0 → after.1.size a = o.size a)) := by
  intro o after
  have settled : o.Settled := settled_prepared (settled_initial f x y width height h v) ss
  refine ⟨fun before d rest _ => follow_reports _ d, fun a => reports_telescope o ds a, ?_⟩
  intro fits a
  have followed := answers_followed (settled.extent a).follows fits
  have size := followed.size settled
  refine ⟨followed.minSize, size, fun zero => ?_⟩
  rw [zero, add_zero] at size
  rw [size]
  exact Int.max_eq_right (settled.extent a).least

theorem drag_resize_exact_overshot :
    let o := create ⟨100, 100⟩ 0 0 50 40 .STRETCHED .TOP_STRETCHED
    let ds : List Delta := [⟨.horizontal, -70⟩, ⟨.vertical, 12⟩, ⟨.horizontal, 30⟩, ⟨.horizontal, 40⟩]
    Admitted (follow ⟨100, 100⟩) (InFrame ⟨100, 100⟩) o ds ∧
      (answers (follow ⟨100, 100⟩) o ds).1.size .horizontal = 50 := by
  refine ⟨by decide, ?_⟩
  exact ((drag_resize_exact ⟨100, 100⟩ 0 0 50 40 .STRETCHED .TOP_STRETCHED [] _).2.2
    (by decide) .horizontal).2.2 (by decide)

/-- All sizes are within the frame, those of the object and those that it should have, but the
    second delta asks for 130: it is cut to the frame before the debt of 70 is paid. -/
theorem clamp_forgets_debt :
    let f : Frame := ⟨100, 100⟩
    let o := (create f 0 0 60 60 .STRETCHED .STRETCHED).setup f (.minWidth 40)
    let ds : List Delta := [⟨.horizontal, -90⟩, ⟨.horizontal, 90⟩]
    (∀ before ∈ ds.inits, ∀ a, (answers (follow f) o before).1.size a ≤ f.size a ∧
      max (o.minSize a) (o.size a + total a before) ≤ f.size a) ∧
    total .horizontal ds = 0 ∧ o.size .horizontal = 60 ∧ o.minSize .horizontal = 40 ∧
    (answers (follow f) o ds).1.size .horizontal = 40 := by
  intro f o ds
  refine ⟨fun before mem a => ?_, by decide⟩
  cases a with
  | horizontal =>
    revert before
    decide
  | vertical =>
    revert before
    decide

end UIObjectImpl

inductive Edge where
  | left | right | top | bottom
  deriving DecidableEq, Repr

namespace UIObjectImpl

def resizeEdge (f : Frame) (isPrimary : Bool) (o : UIObjectImpl) (edge : Edge) (d : Int) :
    UIObjectImpl × Int :=
  match edge with
  | .left => o.resizeLeft f isPrimary d
  | .right => o.resizeRight f isPrimary d
  | .top => o.resizeTop f isPrimary d
  | .bottom => o.resizeBottom f isPrimary d

def asked (o : UIObjectImpl) (edge : Edge) (d : Int) : List Delta :=
  if d = 0 then [] else
    match edge, o.horizontalPlacementType, o.verticalPlacementType with
    | .left, .LEFT_STRETCHED, _ | .left, .STRETCHED, _ => [⟨.horizontal, -d⟩]
    | .right, .RIGHT_STRETCHED, _ | .right, .STRETCHED, _ => [⟨.horizontal, d⟩]
    | .top, _, .TOP_STRETCHED | .top, _, .STRETCHED => [⟨.vertical, -d⟩]
    | .bottom, _, .BOTTOM_STRETCHED | .bottom, _, .STRETCHED => [⟨.vertical, d⟩]
    | _, _, _ => []

variable {f : Frame}

theorem extent_resizeEdge (o : UIObjectImpl) (edge : Edge) (d : Int) (a : Axis) :
    (o.resizeEdge f false edge d).1.extent a =
      (answers (follow f) o (o.asked edge d)).1.extent a := by
  obtain ⟨x, y, h, v, hp, vp⟩ := o
  by_cases zero : d = 0
  · cases edge <;> simp [resizeEdge, resizeLeft, resizeRight, resizeTop, resizeBottom, asked,
      answers, zero]
  · cases edge <;> cases hp <;> cases vp <;> cases a <;>
      simp [resizeEdge, resizeLeft, resizeRight, resizeTop, resizeBottom, asked, answers, zero,
        opposite, follow, extent, resizeWidth, resizeHeight, width, height, sub_eq_add_neg]

def drag (f : Frame) (o : UIObjectImpl) (e : Edge × Int) : UIObjectImpl × Int :=
  o.resizeEdge f false e.1 e.2

def EdgeInFrame (f : Frame) (o : UIObjectImpl) (e : Edge × Int) : Prop :=
  Admitted (follow f) (InFrame f) o (o.asked e.1 e.2)

theorem asked_drag (o : UIObjectImpl) (e : Edge × Int) :
    (o.drag f e).1.asked = o.asked := by
  obtain ⟨x, y, h, v, hp, vp⟩ := o
  obtain ⟨edge, d⟩ := e
  by_cases zero : d = 0
  · cases edge <;> simp [drag, resizeEdge, resizeLeft, resizeRight, resizeTop, resizeBottom, zero]
  · cases edge <;> cases hp <;> cases vp <;>
      simp [drag, resizeEdge, resizeLeft, resizeRight, resizeTop, resizeBottom, zero, opposite,
        resizeWidth, resizeHeight] <;> rfl

theorem total_append (a : Axis) (ds es : List Delta) :
    total a (ds ++ es) = total a ds + total a es := by
  simp only [total, List.map_append, List.sum_append]

theorem answers_drag {o : UIObjectImpl} {es : List (Edge × Int)} {a : Axis}
    (follows : (o.extent a).Follows) (fits : Admitted (drag f) (EdgeInFrame f) o es) :
    Followed o (answers (drag f) o es).1 (es.flatMap fun e => o.asked e.1 e.2) a := by
  induction es generalizing o with
  | nil => exact ⟨follows, rfl, by simp [answers, total]⟩
  | cons e es ih =>
    obtain ⟨first, rest⟩ := fits
    have step := answers_followed follows first
    have same := extent_resizeEdge (f := f) o e.1 e.2 a
    have after := ih (o := (o.drag f e).1) (by rw [drag, same]; exact step.follows) rest
    have least : (o.drag f e).1.minSize a = o.minSize a := by
      rw [← step.minSize, UIObjectImpl.minSize, drag, same]
      rfl
    refine ⟨after.follows, after.minSize.trans least, ?_⟩
    have owed := after.vSize
    rw [asked_drag, drag, same, step.vSize] at owed
    rw [List.flatMap_cons, total_append, ← add_assoc]
    exact owed

end UIObjectImpl
end UIObject
