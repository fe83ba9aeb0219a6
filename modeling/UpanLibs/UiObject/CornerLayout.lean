import UpanLibs.UiObject.ResizeTree

/-!
Drags at the right and the bottom edge. However many there are, the objects below end as one
layout of the first tree in the last size.
-/
namespace UIObject

open Machine

universe u
variable {ι : Type u}

def Extent.grown (d : Int) (e : Extent) : Extent :=
  { e with size := max e.minSize (e.vSize + d), vSize := e.vSize + d }

namespace UIObjectImpl

def stretchesFar (o : UIObjectImpl) : Axis → Bool
  | .horizontal =>
      o.horizontalPlacementType = .RIGHT_STRETCHED || o.horizontalPlacementType = .STRETCHED
  | .vertical =>
      o.verticalPlacementType = .BOTTOM_STRETCHED || o.verticalPlacementType = .STRETCHED

/-- The object in a parent that has grown by `dw` and `dh`. -/
def laidOut (dw dh : Int) (o : UIObjectImpl) : UIObjectImpl where
  x := if o.horizontalPlacementType = .RIGHT_FIXED then o.x + dw else o.x
  y := if o.verticalPlacementType = .BOTTOM_FIXED then o.y + dh else o.y
  horizontal := if o.stretchesFar .horizontal then o.horizontal.grown dw else o.horizontal
  vertical := if o.stretchesFar .vertical then o.vertical.grown dh else o.vertical
  horizontalPlacementType := o.horizontalPlacementType
  verticalPlacementType := o.verticalPlacementType

end UIObjectImpl

mutual

def Objects.laidOut (dw dh : Int) : Objects ι → Objects ι
  | .node id o children =>
      let o' := o.laidOut dw dh
      .node id o' (layOut (o'.width - o.width) (o'.height - o.height) children)

def layOut (dw dh : Int) : List (Objects ι) → List (Objects ι)
  | [] => []
  | child :: children => child.laidOut dw dh :: layOut dw dh children

end

variable {f : Frame} {isRoot : Bool} {o : UIObjectImpl}

theorem Extent.grown_grown (c d : Int) (e : Extent) : (e.grown c).grown d = e.grown (c + d) := by
  simp only [grown, Int.add_assoc]

theorem Extent.grown_zero {e : Extent} (follows : e.Follows) : e.grown 0 = e := by
  unfold Follows at follows
  simp only [grown, Int.add_zero, ← follows]

theorem Extent.resize_grown {e : Extent} (frame d : Int) (follows : e.Follows)
    (fits : e.size + d ≤ frame) : (e.resize frame (e.size + d) false).1 = e.grown d := by
  have vSize := vSize_resize (e := e) fits
  have least := minSize_resize (e := e) frame (e.size + d) false
  have after := follows_resize follows fits
  unfold Follows at after
  rw [vSize, least] at after
  generalize (e.resize frame (e.size + d) false).1 = e' at vSize least after
  obtain ⟨size, minSize, v⟩ := e'
  simp only at vSize least after
  have same : e.vSize + (e.size + d - e.size) = e.vSize + d := by omega
  rw [same] at vSize after
  simp only [grown, vSize, least, after]

namespace UIObjectImpl

theorem laidOut_laidOut (a b c d : Int) (o : UIObjectImpl) :
    (o.laidOut a b).laidOut c d = o.laidOut (a + c) (b + d) := by
  obtain ⟨x, y, h, v, hp, vp⟩ := o
  cases hp <;> cases vp <;> simp [laidOut, stretchesFar, Extent.grown_grown] <;> omega

theorem laidOut_zero (follows : ∀ a, (o.extent a).Follows) : o.laidOut 0 0 = o := by
  have h : o.horizontal.grown 0 = o.horizontal := Extent.grown_zero (follows .horizontal)
  have v : o.vertical.grown 0 = o.vertical := Extent.grown_zero (follows .vertical)
  simp [laidOut, h, v]

theorem drag_right {d : Int} (fits : o.EdgeInFrame f (.right, d))
    (follows : ∀ a, (o.extent a).Follows) : (o.drag f (.right, d)).1 = o.laidOut d 0 := by
  have v : o.vertical.grown 0 = o.vertical := Extent.grown_zero (follows .vertical)
  by_cases zero : d = 0
  · subst zero
    rw [drag_zero, laidOut_zero follows]
  have grown := Extent.resize_grown f.width d (follows .horizontal)
  obtain ⟨x, y, h, v', hp, vp⟩ := o
  unfold EdgeInFrame at fits
  cases hp <;> simp [drag, resizeEdge, resizeRight, zero, laidOut, stretchesFar, v, opposite,
    resizeWidth, width, asked, Admitted, InFrame, size, extent, Frame.size] at fits grown ⊢
  case RIGHT_STRETCHED => exact grown fits
  case STRETCHED => exact grown fits

theorem drag_bottom {d : Int} (fits : o.EdgeInFrame f (.bottom, d))
    (follows : ∀ a, (o.extent a).Follows) : (o.drag f (.bottom, d)).1 = o.laidOut 0 d := by
  have h : o.horizontal.grown 0 = o.horizontal := Extent.grown_zero (follows .horizontal)
  by_cases zero : d = 0
  · subst zero
    rw [drag_zero, laidOut_zero follows]
  have grown := Extent.resize_grown f.height d (follows .vertical)
  obtain ⟨x, y, h', v, hp, vp⟩ := o
  unfold EdgeInFrame at fits
  cases vp <;> simp [drag, resizeEdge, resizeBottom, zero, laidOut, stretchesFar, h, opposite,
    resizeHeight, height, asked, Admitted, InFrame, size, extent, Frame.size] at fits grown ⊢
  case BOTTOM_STRETCHED => exact grown fits
  case STRETCHED => exact grown fits

end UIObjectImpl

theorem drag_laidOut {e : Edge × Int} (corner : e.1 = .right ∨ e.1 = .bottom)
    (fits : o.EdgeInFrame f e) (follows : ∀ a, (o.extent a).Follows) :
    (o.drag f e).1 = o.laidOut (growth e .horizontal) (growth e .vertical) := by
  obtain ⟨edge, d⟩ := e
  obtain rfl | rfl : edge = .right ∨ edge = .bottom := corner
  · exact UIObjectImpl.drag_right fits follows
  · exact UIObjectImpl.drag_bottom fits follows

mutual

theorem move_laidOut : ∀ (t : Objects ι) {e : Edge × Int}, (e.1 = .right ∨ e.1 = .bottom) →
    t.InFrame f e → t.All (fun o => ∀ a, (o.extent a).Follows) →
      t.move f e = t.laidOut (growth e .horizontal) (growth e .vertical)
  | .node id o children, e, corner, ⟨fits, below⟩, ⟨follows, rest⟩ => by
      have own := drag_laidOut corner fits follows
      have report := UIObjectImpl.size_resizeEdge (f := f) false o e.1 e.2
      have wider := report .horizontal
      have higher := report .vertical
      have after := moveAll_laidOut children (e := (e.1, (o.drag f e).2)) corner below rest
      simp only [Objects.move, Objects.laidOut]
      rw [after, own]
      have drag : o.resizeEdge f false e.1 e.2 = o.drag f e := rfl
      rw [drag, own] at wider higher
      congr 2
      · exact (Int.sub_eq_iff_eq_add'.mpr wider).symm
      · exact (Int.sub_eq_iff_eq_add'.mpr higher).symm

theorem moveAll_laidOut : ∀ (ts : List (Objects ι)) {e : Edge × Int},
    (e.1 = .right ∨ e.1 = .bottom) → AllInFrame f e ts →
      AllBelow (fun o => ∀ a, (o.extent a).Follows) ts →
        moveAll f e ts = layOut (growth e .horizontal) (growth e .vertical) ts
  | [], _, _, _, _ => rfl
  | child :: children, _, corner, ⟨fits, below⟩, ⟨follows, rest⟩ => by
      rw [moveAll, layOut, move_laidOut child corner fits follows,
        moveAll_laidOut children corner below rest]

end

mutual

theorem laidOut_twice : ∀ (t : Objects ι) (a b c d : Int),
    (t.laidOut a b).laidOut c d = t.laidOut (a + c) (b + d)
  | .node id o children, a, b, c, d => by
      simp only [Objects.laidOut]
      rw [layOut_twice children, UIObjectImpl.laidOut_laidOut]
      congr 2
      · omega
      · omega

theorem layOut_twice : ∀ (ts : List (Objects ι)) (a b c d : Int),
    layOut c d (layOut a b ts) = layOut (a + c) (b + d) ts
  | [], _, _, _, _ => rfl
  | child :: children, a, b, c, d => by
      rw [layOut, layOut, layOut, laidOut_twice child, layOut_twice children]

end

mutual

theorem laidOut_zero : ∀ (t : Objects ι), t.All (fun o => ∀ a, (o.extent a).Follows) →
    t.laidOut 0 0 = t
  | .node id o children, ⟨follows, rest⟩ => by
      simp only [Objects.laidOut, UIObjectImpl.laidOut_zero follows, Int.sub_self]
      rw [layOut_zero children rest]

theorem layOut_zero : ∀ (ts : List (Objects ι)),
    AllBelow (fun o => ∀ a, (o.extent a).Follows) ts → layOut 0 0 ts = ts
  | [], _ => rfl
  | child :: children, ⟨follows, rest⟩ => by
      rw [layOut, laidOut_zero child follows, layOut_zero children rest]

end

/-! Where everything lies within its parent, no size is beyond the frame. -/

structure Lies (p o : UIObjectImpl) (a : Axis) : Prop where
  least : o.minSize a ≤ p.minSize a
  near : 0 ≤ o.pos a
  far : 0 ≤ p.farGap o a

mutual

def Objects.Nested (p : UIObjectImpl) : Objects ι → Prop
  | .node _ o children => (∀ a, o.stretchesFar a = true → Lies p o a) ∧ NestedAll o children

def NestedAll (p : UIObjectImpl) : List (Objects ι) → Prop
  | [] => True
  | child :: children => child.Nested p ∧ NestedAll p children

end

variable {p p' o' : UIObjectImpl}

theorem stretchesFar_laidOut (dw dh : Int) (a : Axis) :
    (o.laidOut dw dh).stretchesFar a = o.stretchesFar a := by
  cases a <;> rfl

theorem minSize_laidOut (dw dh : Int) (a : Axis) :
    (o.laidOut dw dh).minSize a = o.minSize a := by
  cases a <;>
    simp [UIObjectImpl.laidOut, UIObjectImpl.minSize, UIObjectImpl.extent, Extent.grown] <;>
    split <;> rfl

def added (dw dh : Int) : Axis → Int
  | .horizontal => dw
  | .vertical => dh

theorem laidOut_stretched (dw dh : Int) {a : Axis} (stretches : o.stretchesFar a = true) :
    (o.laidOut dw dh).pos a = o.pos a ∧
      (o.laidOut dw dh).vSize a = o.vSize a + added dw dh a ∧
      (o.laidOut dw dh).size a = max (o.minSize a) (o.vSize a + added dw dh a) := by
  obtain ⟨x, y, h, v, hp, vp⟩ := o
  cases a with
  | horizontal =>
    cases hp <;> simp [UIObjectImpl.stretchesFar] at stretches
    all_goals exact ⟨rfl, rfl, rfl⟩
  | vertical =>
    cases vp <;> simp [UIObjectImpl.stretchesFar] at stretches
    all_goals exact ⟨rfl, rfl, rfl⟩

theorem laidOut_unstretched {dw dh : Int} {a : Axis} (fixed : o.stretchesFar a = false) :
    (o.laidOut dw dh).size a = o.size a := by
  cases a <;> simp [UIObjectImpl.laidOut, fixed, UIObjectImpl.size, UIObjectImpl.extent]

theorem Lies.laidOut {dw dh : Int} {a : Axis} (lies : Lies p o a)
    (least : p'.minSize a = p.minSize a) (wider : p'.size a = p.size a + added dw dh a)
    (stretches : o.stretchesFar a = true) : Lies p' (o.laidOut dw dh) a := by
  obtain ⟨pos, vSize, -⟩ := laidOut_stretched dw dh stretches
  have far := lies.far
  refine ⟨?_, by rw [pos]; exact lies.near, ?_⟩
  · rw [minSize_laidOut, least]
    exact lies.least
  · unfold UIObjectImpl.farGap at far ⊢
    rw [pos, vSize, wider]
    omega

mutual

theorem nested_laidOut : ∀ (t : Objects ι) {p p' : UIObjectImpl} {dw dh : Int}, t.Nested p →
    (∀ a, p'.minSize a = p.minSize a) → (∀ a, p'.size a = p.size a + added dw dh a) →
      (t.laidOut dw dh).Nested p'
  | .node id o children, _, _, dw, dh, ⟨own, below⟩, least, wider => by
      refine ⟨fun a stretches => ?_, ?_⟩
      · rw [stretchesFar_laidOut] at stretches
        exact (own a stretches).laidOut (least a) (wider a) stretches
      · apply nestedAll_laidOut children below (minSize_laidOut dw dh)
        intro a
        cases a with
        | horizontal => exact (add_sub_cancel _ _).symm
        | vertical => exact (add_sub_cancel _ _).symm

theorem nestedAll_laidOut : ∀ (ts : List (Objects ι)) {p p' : UIObjectImpl} {dw dh : Int},
    NestedAll p ts → (∀ a, p'.minSize a = p.minSize a) →
      (∀ a, p'.size a = p.size a + added dw dh a) → NestedAll p' (layOut dw dh ts)
  | [], _, _, _, _, _, _, _ => trivial
  | child :: children, _, _, _, _, ⟨own, below⟩, least, wider =>
      ⟨nested_laidOut child own least wider, nestedAll_laidOut children below least wider⟩

end

mutual

theorem inFrame_zero (edge : Edge) : ∀ t : Objects ι, t.InFrame f (edge, 0)
  | .node id o children => by
      refine ⟨?_, ?_⟩
      · unfold UIObjectImpl.EdgeInFrame UIObjectImpl.asked
        exact trivial
      · rw [drag_zero]
        exact allInFrame_zero edge children

theorem allInFrame_zero (edge : Edge) : ∀ ts : List (Objects ι), AllInFrame f (edge, 0) ts
  | [] => trivial
  | child :: children => ⟨inFrame_zero edge child, allInFrame_zero edge children⟩

end

theorem edgeInFrame_of_lies {e : Edge × Int} (corner : e.1 = .right ∨ e.1 = .bottom)
    (lies : ∀ a, o.stretchesFar a = true → Lies p o a)
    (follows : ∀ a, (o.extent a).Follows) (least : ∀ a, p.minSize a ≤ p.size a)
    (fits : p.size e.1.axis + e.2 ≤ f.size e.1.axis) : o.EdgeInFrame f e := by
  have room {a : Axis} (axis : e.1.axis = a) (stretches : o.stretchesFar a = true) :
      o.size a + e.2 ≤ f.size a := by
    obtain ⟨smaller, near, far⟩ := lies a stretches
    have size : o.size a = max (o.minSize a) (o.vSize a) := follows a
    have own := least a
    rw [axis] at fits
    unfold UIObjectImpl.farGap at far
    omega
  obtain ⟨edge, d⟩ := e
  obtain ⟨x, y, h, v, hp, vp⟩ := o
  unfold UIObjectImpl.EdgeInFrame UIObjectImpl.asked
  split
  · exact trivial
  · obtain rfl | rfl : edge = .right ∨ edge = .bottom := corner
    · cases hp with
      | RIGHT_STRETCHED | STRETCHED => exact ⟨room (a := .horizontal) rfl rfl, trivial⟩
      | ABSOLUTE | LEFT_FIXED | LEFT_STRETCHED | RIGHT_FIXED => exact trivial
    · cases vp with
      | BOTTOM_STRETCHED | STRETCHED => exact ⟨room (a := .vertical) rfl rfl, trivial⟩
      | ABSOLUTE | TOP_FIXED | TOP_STRETCHED | BOTTOM_FIXED => exact trivial

theorem growth_corner {e : Edge × Int} (corner : e.1 = .right ∨ e.1 = .bottom) (a : Axis) :
    growth e a = added (growth e .horizontal) (growth e .vertical) a ∧
      growth e e.1.axis = e.2 := by
  obtain ⟨edge, d⟩ := e
  obtain rfl | rfl : edge = .right ∨ edge = .bottom := corner
  · cases a <;> exact ⟨rfl, rfl⟩
  · cases a <;> exact ⟨rfl, rfl⟩

theorem passed_fits {e : Edge × Int} (corner : e.1 = .right ∨ e.1 = .bottom)
    (own : (o.drag f e).1 = o.laidOut (growth e .horizontal) (growth e .vertical))
    (lies : ∀ a, o.stretchesFar a = true → Lies p o a) (least : ∀ a, p.minSize a ≤ p.size a)
    (wide : p.minSize e.1.axis ≤ f.size e.1.axis)
    (fits : p.size e.1.axis + e.2 ≤ f.size e.1.axis) :
    (o.drag f e).2 = 0 ∨ o.minSize e.1.axis ≤ f.size e.1.axis ∧
      o.size e.1.axis + (o.drag f e).2 ≤ f.size e.1.axis := by
  have report := UIObjectImpl.size_resizeEdge (f := f) false o e.1 e.2 e.1.axis
  have drag : o.resizeEdge f false e.1 e.2 = o.drag f e := rfl
  rw [drag, own, (growth_corner (e := (e.1, (o.drag f e).2)) corner e.1.axis).2] at report
  by_cases stretches : o.stretchesFar e.1.axis = true
  · obtain ⟨smaller, near, far⟩ := lies _ stretches
    obtain ⟨-, -, size⟩ := laidOut_stretched (growth e .horizontal)
      (growth e .vertical) stretches
    have own := least e.1.axis
    rw [← (growth_corner corner e.1.axis).1, (growth_corner corner e.1.axis).2] at size
    unfold UIObjectImpl.farGap at far
    right
    omega
  · left
    rw [laidOut_unstretched (Bool.eq_false_iff.mpr stretches)] at report
    omega

mutual

theorem inFrame_of_nested : ∀ (t : Objects ι) {p : UIObjectImpl} {e : Edge × Int},
    (e.1 = .right ∨ e.1 = .bottom) → t.Nested p → t.All (fun o => ∀ a, (o.extent a).Follows) →
      (∀ a, p.minSize a ≤ p.size a) → p.minSize e.1.axis ≤ f.size e.1.axis →
        p.size e.1.axis + e.2 ≤ f.size e.1.axis → t.InFrame f e
  | .node id o children, p, e, corner, ⟨lies, below⟩, ⟨follows, rest⟩, least, wide, fits => by
      have own := edgeInFrame_of_lies corner lies follows least fits
      refine ⟨own, ?_⟩
      have moved := drag_laidOut corner own follows
      obtain still | ⟨wide', room⟩ := passed_fits corner moved lies least wide fits
      · rw [still]
        exact allInFrame_zero e.1 children
      · have least' (a : Axis) : o.minSize a ≤ o.size a := by
          have size : o.size a = max (o.minSize a) (o.vSize a) := follows a
          omega
        exact allInFrame_of_nested children (e := (e.1, (o.drag f e).2)) corner below rest least'
          wide' room

theorem allInFrame_of_nested : ∀ (ts : List (Objects ι)) {p : UIObjectImpl} {e : Edge × Int},
    (e.1 = .right ∨ e.1 = .bottom) → NestedAll p ts →
      AllBelow (fun o => ∀ a, (o.extent a).Follows) ts →
        (∀ a, p.minSize a ≤ p.size a) → p.minSize e.1.axis ≤ f.size e.1.axis →
          p.size e.1.axis + e.2 ≤ f.size e.1.axis → AllInFrame f e ts
  | [], _, _, _, _, _, _, _, _ => trivial
  | child :: children, _, _, corner, ⟨own, below⟩, ⟨follows, rest⟩, least, wide, fits =>
      ⟨inFrame_of_nested child corner own follows least wide fits,
        allInFrame_of_nested children corner below rest least wide fits⟩

end

/-! The object that is dragged. -/

/-- The object is in the frame, and so is everything below it. -/
structure Objects.Fitting (f : Frame) (t : Objects ι) : Prop where
  least : ∀ a, t.object.minSize a ≤ t.object.size a
  wide : ∀ a, t.object.minSize a ≤ f.size a
  nested : NestedAll t.object t.children
  rest : AllBelow (fun o => ∀ a, (o.extent a).Follows) t.children

variable (f isRoot) in
theorem topEdge_corner (o : UIObjectImpl) {edge : Edge} (corner : edge = .right ∨ edge = .bottom)
    (d : Int) : topEdge f isRoot o edge d = UIObjectImpl.stretchEdge f true o d edge ∨
      ∃ x y, topEdge f isRoot o edge d = ({ o with x := x, y := y }, 0) := by
  unfold topEdge
  split
  · unfold rootResizeEdge
    split
    next zero => exact .inr ⟨o.x, o.y, by rw [zero]⟩
    next => obtain rfl | rfl := corner <;> exact .inl rfl
  · exact UIObjectImpl.resizeEdge_cases true o edge d

theorem minSize_stretchEdge (isPrimary : Bool) (o : UIObjectImpl) (edge : Edge) (d : Int)
    (a : Axis) : (UIObjectImpl.stretchEdge f isPrimary o d edge).1.minSize a = o.minSize a := by
  have width (w : Int) := Extent.minSize_resize (e := o.horizontal) f.width w isPrimary
  have height (h : Int) := Extent.minSize_resize (e := o.vertical) f.height h isPrimary
  cases edge <;> cases a <;>
    simp [UIObjectImpl.stretchEdge, UIObjectImpl.opposite, UIObjectImpl.resizeWidth,
      UIObjectImpl.resizeHeight, UIObjectImpl.minSize, UIObjectImpl.extent, width, height]

variable (f isRoot) in
theorem topEdge_fits (o : UIObjectImpl) {edge : Edge} (corner : edge = .right ∨ edge = .bottom)
    (d : Int) (least : ∀ a, o.minSize a ≤ o.size a) (wide : ∀ a, o.minSize a ≤ f.size a) :
    let moved := topEdge f isRoot o edge d
    (∀ a, moved.1.minSize a = o.minSize a ∧ o.minSize a ≤ moved.1.size a) ∧
      (moved.2 = 0 ∨ moved.1.size edge.axis ≤ f.size edge.axis) := by
  simp only []
  obtain sized | ⟨x, y, same⟩ := topEdge_corner f isRoot o corner d
  · rw [sized]
    have width := Extent.size_resize_true (e := o.horizontal) f.width (o.width + d)
    have height := Extent.size_resize_true (e := o.vertical) f.height (o.height + d)
    have bounds (a : Axis) := And.intro (least a) (wide a)
    have h : o.horizontal.minSize ≤ o.horizontal.size ∧ o.horizontal.minSize ≤ f.width :=
      bounds .horizontal
    have v : o.vertical.minSize ≤ o.vertical.size ∧ o.vertical.minSize ≤ f.height :=
      bounds .vertical
    obtain rfl | rfl := corner
    · refine ⟨fun a => ?_, .inr ?_⟩
      · cases a with
        | horizontal =>
          refine ⟨minSize_stretchEdge true o .right d .horizontal, ?_⟩
          simp only [UIObjectImpl.stretchEdge, UIObjectImpl.opposite, UIObjectImpl.resizeWidth,
            UIObjectImpl.size, UIObjectImpl.minSize, UIObjectImpl.extent, width]
          omega
        | vertical => exact ⟨rfl, v.1⟩
      · simp only [UIObjectImpl.stretchEdge, UIObjectImpl.opposite, UIObjectImpl.resizeWidth,
          UIObjectImpl.size, UIObjectImpl.extent, Edge.axis, Frame.size, width]
        omega
    · refine ⟨fun a => ?_, .inr ?_⟩
      · cases a with
        | horizontal => exact ⟨rfl, h.1⟩
        | vertical =>
          refine ⟨minSize_stretchEdge true o .bottom d .vertical, ?_⟩
          simp only [UIObjectImpl.stretchEdge, UIObjectImpl.opposite, UIObjectImpl.resizeHeight,
            UIObjectImpl.size, UIObjectImpl.minSize, UIObjectImpl.extent, height]
          omega
      · simp only [UIObjectImpl.stretchEdge, UIObjectImpl.opposite, UIObjectImpl.resizeHeight,
          UIObjectImpl.size, UIObjectImpl.extent, Edge.axis, Frame.size, height]
        omega
  · rw [same]
    refine ⟨fun a => ?_, .inl rfl⟩
    cases a
    · exact ⟨rfl, least .horizontal⟩
    · exact ⟨rfl, least .vertical⟩

structure LaidOut (t t' : Objects ι) : Prop where
  below : t'.children = layOut (t'.object.width - t.object.width)
    (t'.object.height - t.object.height) t.children

mutual

theorem follows_laidOut : ∀ (t : Objects ι) {dw dh : Int},
    t.All (fun o => ∀ a, (o.extent a).Follows) →
      (t.laidOut dw dh).All fun o => ∀ a, (o.extent a).Follows
  | .node id o children, dw, dh, ⟨follows, rest⟩ => by
      refine ⟨fun a => ?_, followsAll_laidOut children rest⟩
      have own := follows a
      cases a with
      | horizontal =>
        simp only [UIObjectImpl.laidOut, UIObjectImpl.extent]
        split
        · rfl
        · exact own
      | vertical =>
        simp only [UIObjectImpl.laidOut, UIObjectImpl.extent]
        split
        · rfl
        · exact own

theorem followsAll_laidOut : ∀ (ts : List (Objects ι)) {dw dh : Int},
    AllBelow (fun o => ∀ a, (o.extent a).Follows) ts →
      AllBelow (fun o => ∀ a, (o.extent a).Follows) (layOut dw dh ts)
  | [], _, _, _ => trivial
  | child :: children, _, _, ⟨follows, rest⟩ =>
      ⟨follows_laidOut child follows, followsAll_laidOut children rest⟩

end

variable (isRoot) in
theorem topMove_laidOut {t : Objects ι} (fitting : t.Fitting f) {e : Edge × Int}
    (corner : e.1 = .right ∨ e.1 = .bottom) :
    (t.moveBy f (topEdge f isRoot) e).Fitting f ∧
      LaidOut t (t.moveBy f (topEdge f isRoot) e) := by
  obtain ⟨id, o, children⟩ := t
  obtain ⟨least, wide, nested, rest⟩ := fitting
  obtain ⟨keeps, fits⟩ := topEdge_fits f isRoot o corner e.2 least wide
  have report := size_topEdge f isRoot o e.1 e.2
  have below : AllInFrame f (e.1, (topEdge f isRoot o e.1 e.2).2) children := by
    obtain still | room := fits
    · rw [still]
      exact allInFrame_zero e.1 children
    · apply allInFrame_of_nested children (e := (e.1, (topEdge f isRoot o e.1 e.2).2)) corner
        nested rest least (wide _)
      rwa [report, (growth_corner (e := (e.1, (topEdge f isRoot o e.1 e.2).2)) corner
        e.1.axis).2] at room
  have laid := moveAll_laidOut children (e := (e.1, (topEdge f isRoot o e.1 e.2).2)) corner below
    rest
  have wider : (topEdge f isRoot o e.1 e.2).1.width - o.width =
      growth (e.1, (topEdge f isRoot o e.1 e.2).2) .horizontal :=
    Int.sub_eq_iff_eq_add'.mpr (report .horizontal)
  have higher : (topEdge f isRoot o e.1 e.2).1.height - o.height =
      growth (e.1, (topEdge f isRoot o e.1 e.2).2) .vertical :=
    Int.sub_eq_iff_eq_add'.mpr (report .vertical)
  refine ⟨⟨fun a => ?_, fun a => ?_, ?_, ?_⟩, ⟨?_⟩⟩
  · have own := keeps a
    simp only [Objects.moveBy, Objects.object]
    omega
  · have own := keeps a
    have frame := wide a
    simp only [Objects.moveBy, Objects.object] at frame ⊢
    omega
  · simp only [Objects.moveBy, Objects.object, Objects.children]
    rw [laid]
    apply nestedAll_laidOut children nested (fun a => (keeps a).1)
    intro a
    rw [report, (growth_corner (e := (e.1, (topEdge f isRoot o e.1 e.2).2)) corner a).1]
    rfl
  · simp only [Objects.moveBy, Objects.children]
    rw [laid]
    exact followsAll_laidOut children rest
  · simp only [Objects.moveBy, Objects.object, Objects.children]
    rw [laid, wider, higher]

theorem LaidOut.trans {t t' t'' : Objects ι} (first : LaidOut t t') (second : LaidOut t' t'') :
    LaidOut t t'' := by
  constructor
  rw [second.below, first.below, layOut_twice]
  congr 1
  · omega
  · omega

theorem LaidOut.refl {t : Objects ι} (rest : t.Rest) : LaidOut t t := by
  constructor
  rw [Int.sub_self, Int.sub_self, layOut_zero t.children rest]

/-- A mode that moves no edge but the right and the bottom one. -/
def ResizeMode.isCorner : ResizeMode → Bool
  | .NA | .RIGHT | .BOTTOM | .RIGHT_BOTTOM => true
  | .LEFT | .TOP | .LEFT_TOP | .LEFT_BOTTOM | .RIGHT_TOP => false

theorem moves_corner {r : Resize} (corner : r.mode.isCorner = true) :
    ∀ e ∈ r.moves, e.1 = .right ∨ e.1 = .bottom := by
  obtain ⟨mode, dx, dy⟩ := r
  cases mode <;> simp [ResizeMode.isCorner] at corner <;>
    simp [Resize.moves, ResizeMode.edges]

theorem drag_laidOut_below {owned : ι → Bool} {t : Objects ι} (fitting : (t.without owned).Fitting f)
    {d : Drag ι} (sets : d.onResize.SetsOnly owned) (corner : d.resize.mode.isCorner = true) :
    ((t.drag f isRoot d).without owned).Fitting f ∧
      LaidOut (t.without owned) ((t.drag f isRoot d).without owned) := by
  have all := moves_corner corner
  rw [Objects.drag, resize_moves sets]
  generalize t.without owned = t at fitting
  generalize d.resize.moves = es at all
  induction es generalizing t with
  | nil => exact ⟨fitting, .refl fitting.rest⟩
  | cons e es ih =>
    obtain ⟨fitting', first⟩ := topMove_laidOut isRoot fitting
      (all e List.mem_cons_self)
    obtain ⟨fitting'', after⟩ := ih _ fitting' fun e member =>
      all e (List.mem_cons_of_mem _ member)
    exact ⟨fitting'', first.trans after⟩

/-- However the mouse drags a corner to and fro, what is below ends as one layout of the first tree
    in the last size: nothing drifts, and where the size is as at first, all is as at first. -/
theorem corner_drags_lay_out {owned : ι → Bool} {t : Objects ι}
    (fitting : (t.without owned).Fitting f) {ds : List (Drag ι)}
    (sets : ∀ d ∈ ds, d.onResize.SetsOnly owned)
    (corner : ∀ d ∈ ds, d.resize.mode.isCorner = true) :
    let t' := ds.foldl (Objects.drag f isRoot) t
    (t'.without owned).children =
      layOut (t'.object.width - t.object.width) (t'.object.height - t.object.height)
        (t.without owned).children := by
  suffices all : ((ds.foldl (Objects.drag f isRoot) t).without owned).Fitting f ∧
      LaidOut (t.without owned) ((ds.foldl (Objects.drag f isRoot) t).without owned) by
    simpa only [object_without] using all.2.below
  induction ds generalizing t with
  | nil => exact ⟨fitting, .refl fitting.rest⟩
  | cons d ds ih =>
    obtain ⟨fitting', first⟩ := drag_laidOut_below fitting
      (sets d List.mem_cons_self) (corner d List.mem_cons_self)
    obtain ⟨fitting'', after⟩ := ih fitting'
      (fun d member => sets d (List.mem_cons_of_mem _ member))
      (fun d member => corner d (List.mem_cons_of_mem _ member))
    exact ⟨fitting'', first.trans after⟩

theorem window_fitting : (window.without isScrollBar).Fitting ⟨200, 200⟩ := by
  refine ⟨fun a => ?_, fun a => ?_, ?_, window_rest⟩
  · cases a <;> decide
  · cases a <;> decide
  · refine And.intro (And.intro (fun a => ?_) trivial) (And.intro (And.intro (fun a _ => ?_)
      (And.intro (And.intro (fun a => ?_) trivial) (And.intro (And.intro (fun a => ?_) trivial)
        trivial))) trivial)
    · cases a <;> exact fun stretches => absurd stretches (by decide)
    · cases a <;> exact ⟨by decide, by decide, by decide⟩
    · cases a <;> exact fun stretches => absurd stretches (by decide)
    · cases a
      · exact fun stretches => absurd stretches (by decide)
      · exact fun _ => ⟨by decide, by decide, by decide⟩

def cornerDrags : List (Drag Nat) :=
  [⟨.RIGHT_BOTTOM, -90, -60⟩, ⟨.RIGHT, 50, 0⟩, ⟨.RIGHT_BOTTOM, 40, 20⟩].map windowDrag

theorem corner_drags_lay_out_window :
    ((cornerDrags.foldl (Objects.drag ⟨200, 200⟩ true) window).without isScrollBar).children =
      (window.without isScrollBar).children := by
  have back : (cornerDrags.foldl (Objects.drag ⟨200, 200⟩ true) window).object =
      window.object := by
    rw [← object_without isScrollBar]
    simp only [cornerDrags, windowDrag, List.map_cons, List.map_nil, List.foldl_cons,
      List.foldl_nil, Objects.drag, resize_moves windowOnResize_sets]
    rfl
  have sets (d : Drag Nat) (member : d ∈ cornerDrags) : d.onResize.SetsOnly isScrollBar := by
    obtain ⟨resize, -, rfl⟩ := List.mem_map.mp member
    exact windowOnResize_sets
  refine (corner_drags_lay_out window_fitting sets (by decide)).trans ?_
  rw [back]
  rfl

end UIObject
