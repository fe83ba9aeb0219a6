import UpanLibs.Fallible
import UpanLibs.Transition
import UpanLibs.UiObject.UIObjectImpl

/-!
The scroll bar of a `VerticalScroller`. Of its child the scroller reads the height of the
content and the offset. Buttons and canvas are left out, except for where they are drawn
when the mouse is used.
-/
namespace Scroller

open UIObject Fallible Transition
open TextInput (MIN_OBJECT_SIZE)

inductive Fault where
  | invalidDimensions
  | secondChild
  | optionIsEmpty
  | divisionByZero
  deriving DecidableEq, Repr

def Fault.message : Fault → String
  | .invalidDimensions => "Invalid vertical scroll bar dimensions"
  | .secondChild => "Scroller can have only scrollable child"
  | .optionIsEmpty => "Option is empty"
  | .divisionByZero => ""

def divide (a b : Int) : Except Fault Int :=
  if b = 0 then .error .divisionByZero else .ok (a.tdiv b)

structure Child where
  scrollY : Int
  scrollHeight : Int
  deriving DecidableEq, Repr

/-- `object` is the scroller itself. -/
structure VerticalScroller where
  object : UIObjectImpl
  scrollBarWidth : Int
  scrollBarMinY : Int
  scrollBarMaxY : Int
  scrollBarMaxHeight : Int
  scrollMultiplier : Int
  scrollBar : UIObjectImpl
  scrollableChild : Option Child
  deriving DecidableEq, Repr

structure Geometry where
  x : Int
  y : Int
  width : Int
  height : Int
  scrollBarWidth : Int
  horizontalPlacementType : HorizontalPlacementType
  verticalPlacementType : VerticalPlacementType

/-- The constructor and `init`. The constructor does not limit the height it computes with. -/
def create (f : Frame) (g : Geometry) : Except Fault VerticalScroller :=
  let object := UIObjectImpl.create f g.x g.y g.width g.height g.horizontalPlacementType
    g.verticalPlacementType
  let scrollBarMinY := g.scrollBarWidth
  let scrollBarMaxHeight := g.height - g.scrollBarWidth * 2
  if object.height ≤ 0 ∨ object.width ≤ g.scrollBarWidth ∨ g.scrollBarWidth = 0 then
    .error .invalidDimensions
  else
    let scrollBar := UIObjectImpl.create f 0 scrollBarMinY g.scrollBarWidth scrollBarMaxHeight
      .ABSOLUTE .TOP_FIXED
    .ok
      { object := (object.minHeight (g.scrollBarWidth * 4)).1
        scrollBarWidth := g.scrollBarWidth
        scrollBarMinY := scrollBarMinY
        scrollBarMaxY := g.height - g.scrollBarWidth
        scrollBarMaxHeight := scrollBarMaxHeight
        scrollMultiplier := 8
        scrollBar := (scrollBar.minHeight (g.scrollBarWidth.tdiv 2)).1
        scrollableChild := none }

namespace VerticalScroller

def setScrollPosition (newY : Int) (s : VerticalScroller) : VerticalScroller :=
  if newY ≠ s.scrollBar.y then
    let newY :=
      if newY < s.scrollBarMinY then s.scrollBarMinY
      else if newY + s.scrollBar.height ≥ s.scrollBarMaxY then
        s.scrollBarMaxY - s.scrollBar.height
      else newY
    { s with scrollBar := { s.scrollBar with y := newY } }
  else s

def updateScrollPosition (newY : Int) (s : VerticalScroller) : Except Fault VerticalScroller := do
  let scrollNewY ← divide newY s.scrollMultiplier
  .ok (s.setScrollPosition (scrollNewY + s.scrollBarMinY))

def calibrateScrollbar (f : Frame) (s : VerticalScroller) : Except Fault VerticalScroller :=
  match s.scrollableChild with
  | none => .error .optionIsEmpty
  | some child => do
    let scrollBarMaxRunway := s.scrollBarMaxHeight - s.scrollBar.minSize .vertical
    let scrollContentHeight :=
      if child.scrollHeight ≥ s.object.height then child.scrollHeight - s.object.height else 0
    let scrollBarRequiredRunway := scrollContentHeight.tdiv 8
    if scrollBarRequiredRunway > scrollBarMaxRunway then
      let scrollBar :=
        if s.scrollBarMaxHeight = s.scrollBar.height then
          (s.scrollBar.resizeHeight f true (s.scrollBar.minSize .vertical)).1
        else s.scrollBar
      let scrollMultiplier ← divide scrollContentHeight (s.scrollBarMaxHeight - scrollBar.height)
      updateScrollPosition child.scrollY
        { s with scrollBar := scrollBar, scrollMultiplier := scrollMultiplier }
    else
      let scrollBarHeight := s.scrollBarMaxHeight - scrollBarRequiredRunway
      updateScrollPosition child.scrollY
        { s with
          scrollBar := (s.scrollBar.resizeHeight f true scrollBarHeight).1
          scrollMultiplier := 8 }

def add (f : Frame) (child : Child) (s : VerticalScroller) : Except Fault VerticalScroller :=
  match s.scrollableChild with
  | some _ => .error .secondChild
  | none => calibrateScrollbar f { s with scrollableChild := some child }

def onResize (f : Frame) (s : VerticalScroller) : Except Fault VerticalScroller :=
  let scrollBarMaxHeight := s.object.height - s.scrollBarWidth * 2
  let scrollBar := (s.scrollBar.resizeHeight f true scrollBarMaxHeight).1
  calibrateScrollbar f
    { s with
      scrollBarMaxY := s.object.height - s.scrollBarWidth
      scrollBarMaxHeight := scrollBarMaxHeight
      scrollBar := { scrollBar with y := s.scrollBarMinY } }

end VerticalScroller

inductive Sender where
  | scrollUpBt | scrollDownBt | scrollBar | scrollerCanvas
  deriving DecidableEq, Repr

inductive State where
  | NORMAL | PRESSED | HOLD | RELEASED
  deriving DecidableEq, Repr

structure MouseEvent where
  sender : Sender
  leftButtonState : State
  viewY : Int
  deltaY : Int
  scrollUpDrawY : Int
  scrollDownDrawY : Int
  canvasDrawY : Int
  deriving DecidableEq, Repr

namespace VerticalScroller

def mouseY (e : MouseEvent) (s : VerticalScroller) : Int :=
  match e.sender with
  | .scrollUpBt => s.scrollBar.y - 1
  | .scrollDownBt => s.scrollBar.y + 1
  | .scrollBar =>
      if e.viewY ≥ e.scrollUpDrawY + s.scrollBarWidth ∧ e.viewY < e.scrollDownDrawY then
        s.scrollBar.y + e.deltaY
      else s.scrollBar.y
  | .scrollerCanvas =>
      if e.leftButtonState = .PRESSED then
        let newY := e.viewY - e.canvasDrawY
        let bottomY := s.scrollBar.y + s.scrollBar.height
        if newY > bottomY then s.scrollBar.y + (newY - bottomY) else newY
      else s.scrollBar.y

/-- `handleMouseEvent`, with the rows by which the child is told to scroll. -/
def handleMouseEvent (e : MouseEvent) (s : VerticalScroller) : VerticalScroller × Option Int :=
  if e.leftButtonState = .PRESSED ∨ e.leftButtonState = .HOLD then
    let t := s.setScrollPosition (s.mouseY e)
    (t, t.scrollableChild.map fun child =>
      if t.scrollBar.y = t.scrollBarMinY then child.scrollY
      else if t.scrollBar.y + t.scrollBar.height = t.scrollBarMaxY then
        t.object.height - (child.scrollHeight - child.scrollY)
      else (s.scrollBar.y - t.scrollBar.y) * t.scrollMultiplier)
  else (s, none)

def childAt (scrollY : Int) (s : VerticalScroller) : VerticalScroller :=
  { s with scrollableChild := s.scrollableChild.map ({ · with scrollY := scrollY }) }

end VerticalScroller

/-- The content changes, the child scrolls, the scroller is resized, or the mouse is used.
    `scrollY` is where the child is then; a child answers `vscroll` in its own way. -/
inductive Event where
  | content (scrollHeight scrollY : Int)
  | scrolled (scrollY : Int)
  | resize (height : Int) (isPrimary widthChanged : Bool)
  | mouse (e : MouseEvent) (scrollY : Int)
  deriving DecidableEq, Repr

def next (f : Frame) (s : VerticalScroller) : Event → Except Fault VerticalScroller
  | .content scrollHeight scrollY =>
      { s with scrollableChild := s.scrollableChild.map fun _ => ⟨scrollY, scrollHeight⟩ }
        |>.calibrateScrollbar f
  | .scrolled scrollY => (s.childAt scrollY).updateScrollPosition scrollY
  | .resize height isPrimary widthChanged =>
      let (object, dy) := s.object.resizeHeight f isPrimary height
      let s := { s with object := object }
      if dy = 0 ∧ widthChanged = false then .ok s else s.onResize f
  | .mouse e scrollY =>
      let (t, rows) := s.handleMouseEvent e
      .ok (if rows.isSome then t.childAt scrollY else t)

namespace VerticalScroller

/-- The content height beyond what the scroller shows, as `calibrateScrollbar` takes it. -/
def maxOffset (s : VerticalScroller) : Int :=
  match s.scrollableChild with
  | none => 0
  | some child =>
      if child.scrollHeight ≥ s.object.height then child.scrollHeight - s.object.height else 0

def Inside (s : VerticalScroller) : Prop :=
  s.scrollBarMinY ≤ s.scrollBar.y ∧ s.scrollBar.y + s.scrollBar.height ≤ s.scrollBarMaxY

/-- The thumb is in its track, and its position is the right function of the offset. -/
structure Sound (s : VerticalScroller) : Prop where
  inside : s.Inside
  defined : ∀ off, ∃ t, s.updateScrollPosition off = .ok t
  monotone : ∀ off off' t t', off ≤ off' → s.updateScrollPosition off = .ok t →
    s.updateScrollPosition off' = .ok t' → t.scrollBar.y ≤ t'.scrollBar.y
  top : ∃ t, s.updateScrollPosition 0 = .ok t ∧ t.scrollBar.y = t.scrollBarMinY
  bottom : ∃ t, s.updateScrollPosition s.maxOffset = .ok t ∧
    t.scrollBar.y + t.scrollBar.height = t.scrollBarMaxY

/-- The thumb is where the offset of the child puts it. -/
def Calibrated (s : VerticalScroller) : Prop :=
  ∃ child, s.scrollableChild = some child ∧ s.updateScrollPosition child.scrollY = .ok s

/-- There is room in a track for a thumb that has to shrink for the content. -/
def Room (f : Frame) (thumb track content : Int) : Prop :=
  thumb ≤ track ∧ track ≤ f.height ∧ (thumb = track → content < 8)

instance (f : Frame) (thumb track content : Int) : Decidable (Room f thumb track content) :=
  inferInstanceAs (Decidable (_ ∧ _ ∧ (_ → _)))

def contentHeight (s : VerticalScroller) : Int :=
  s.scrollableChild.elim 0 Child.scrollHeight

/-- The offset of changed content lies within it, and wherever the thumb is fitted to
    the track there is room. -/
def Fitting (f : Frame) (s : VerticalScroller) : Event → Prop
  | .content scrollHeight scrollY =>
      0 ≤ scrollY ∧ scrollY ≤ max 0 (scrollHeight - s.object.height) ∧
      Room f (s.scrollBar.minSize .vertical) s.scrollBarMaxHeight (scrollHeight - s.object.height)
  | .resize height isPrimary widthChanged =>
      let (object, dy) := s.object.resizeHeight f isPrimary height
      dy = 0 ∧ widthChanged = false ∨
        Room f (s.scrollBar.minSize .vertical) (object.height - s.scrollBarWidth * 2)
          (s.contentHeight - object.height)
  | .scrolled _ | .mouse _ _ => True

def clampY (s : VerticalScroller) (y : Int) : Int :=
  max s.scrollBarMinY (min y (s.scrollBarMaxY - s.scrollBar.height))

def moved (s : VerticalScroller) (y : Int) : VerticalScroller :=
  { s with scrollBar := { s.scrollBar with y := y } }

structure Track (f : Frame) (s : VerticalScroller) : Prop where
  starts : s.scrollBarMinY = s.scrollBarWidth
  span : s.scrollBarMaxY = s.scrollBarMinY + s.scrollBarMaxHeight
  object : MIN_OBJECT_SIZE ≤ s.scrollBar.minSize .vertical
  frame : s.scrollBarMaxHeight ≤ f.height
  least : s.scrollBar.minSize .vertical ≤ s.scrollBar.height
  most : s.scrollBar.height ≤ s.scrollBarMaxHeight

structure Fitted (f : Frame) (s : VerticalScroller) : Prop extends Track f s where
  child : s.scrollableChild ≠ none
  scaled : 0 < s.scrollMultiplier
  reaches : s.scrollBarMaxHeight - s.scrollBar.height ≤ s.maxOffset.tdiv s.scrollMultiplier

structure Inv (f : Frame) (s : VerticalScroller) : Prop extends Fitted f s where
  inside : s.Inside

variable {f : Frame} {s : VerticalScroller}

theorem setScrollPosition_moved {y : Int} (stays : y = s.scrollBar.y → s.Inside)
    (fits : s.scrollBar.height ≤ s.scrollBarMaxY - s.scrollBarMinY) :
    s.setScrollPosition y = s.moved (s.clampY y) := by
  unfold setScrollPosition clampY
  split
  next moves =>
    simp only [moved]
    congr 2
    split
    · omega
    · split <;> omega
  next here =>
    simp only [ne_eq, Decidable.not_not] at here
    obtain ⟨above, below⟩ := stays here
    have same : max s.scrollBarMinY (min y (s.scrollBarMaxY - s.scrollBar.height))
        = s.scrollBar.y := by omega
    rw [same]
    rfl

theorem inside_clampY (y : Int) (fits : s.scrollBar.height ≤ s.scrollBarMaxY - s.scrollBarMinY) :
    (s.moved (s.clampY y)).Inside := by
  constructor
  · exact Int.le_max_left _ _
  · change max _ (min _ _) + s.scrollBar.height ≤ s.scrollBarMaxY
    omega

theorem Track.fits (track : Track f s) :
    s.scrollBar.height ≤ s.scrollBarMaxY - s.scrollBarMinY := by
  have span := track.span
  have most := track.most
  omega

theorem Fitted.update {off : Int} (fitted : Fitted f s)
    (stays : off.tdiv s.scrollMultiplier + s.scrollBarMinY = s.scrollBar.y → s.Inside) :
    s.updateScrollPosition off =
      .ok (s.moved (s.clampY (off.tdiv s.scrollMultiplier + s.scrollBarMinY))) := by
  have apart : s.scrollMultiplier ≠ 0 := by
    have scaled := fitted.scaled
    omega
  simp only [updateScrollPosition, divide, if_neg apart, bind, Except.bind]
  rw [setScrollPosition_moved stays fitted.fits]

theorem Fitted.moved (fitted : Fitted f s) (y : Int) : Inv f (s.moved (s.clampY y)) :=
  ⟨⟨⟨fitted.starts, fitted.span, fitted.object, fitted.frame, fitted.least, fitted.most⟩,
    fitted.child, fitted.scaled, fitted.reaches⟩, inside_clampY y fitted.fits⟩

section

variable (inv : Inv f s)
include inv

theorem Inv.update (off : Int) :
    s.updateScrollPosition off =
      .ok (s.moved (s.clampY (off.tdiv s.scrollMultiplier + s.scrollBarMinY))) :=
  inv.toFitted.update fun _ => inv.inside

theorem Inv.sound : s.Sound := by
  have span := inv.span
  have most := inv.most
  have reaches := inv.reaches
  refine ⟨inv.inside, fun off => ⟨_, inv.update off⟩, ?_, ⟨_, inv.update 0, ?_⟩,
    ⟨_, inv.update s.maxOffset, ?_⟩⟩
  · intro off off' t t' ordered first second
    cases Except.ok.inj ((inv.update off).symm.trans first)
    cases Except.ok.inj ((inv.update off').symm.trans second)
    have scaled : off.tdiv s.scrollMultiplier ≤ off'.tdiv s.scrollMultiplier :=
      Int.tdiv_le_tdiv inv.scaled ordered
    simp only [moved, clampY]
    omega
  · simp only [moved, clampY, Int.zero_tdiv]
    omega
  · change max _ (min _ _) + s.scrollBar.height = s.scrollBarMaxY
    omega

theorem Inv.childAt (scrollY : Int) : Inv f (s.childAt scrollY) := by
  have same : (s.childAt scrollY).maxOffset = s.maxOffset := by
    simp only [maxOffset, VerticalScroller.childAt]
    cases s.scrollableChild <;> rfl
  refine { inv with child := ?_, reaches := ?_ }
  · simpa [VerticalScroller.childAt] using inv.child
  · rw [same]
    exact inv.reaches

end

theorem Fitted.settles {child : Child} (fitted : Fitted f s)
    (here : s.scrollableChild = some child)
    (stays : child.scrollY.tdiv s.scrollMultiplier + s.scrollBarMinY = s.scrollBar.y → s.Inside) :
    ∃ t, s.updateScrollPosition child.scrollY = .ok t ∧ Inv f t ∧ t.Calibrated := by
  refine ⟨_, fitted.update stays, fitted.moved _, child, here, ?_⟩
  exact (fitted.moved _).update child.scrollY

theorem tdiv_tdiv_ge (content run : Int) (positive : 0 < run) (long : run ≤ content) :
    0 < content.tdiv run ∧ run ≤ content.tdiv (content.tdiv run) := by
  rw [Int.tdiv_eq_ediv_of_nonneg (by omega : 0 ≤ content)]
  have quotient : 1 ≤ content / run := (Int.le_ediv_iff_mul_le positive).mpr (by omega)
  refine ⟨quotient, ?_⟩
  rw [Int.tdiv_eq_ediv_of_nonneg (by omega : 0 ≤ content)]
  rw [Int.le_ediv_iff_mul_le quotient, Int.mul_comm]
  exact Int.ediv_mul_le content (by omega)

theorem height_resizeHeight (o : UIObjectImpl) (height : Int) :
    (o.resizeHeight f true height).1.height = max (o.minSize .vertical) (min height f.height) :=
  Extent.size_resize_true f.height height

theorem minSize_resizeHeight (o : UIObjectImpl) (height : Int) :
    (o.resizeHeight f true height).1.minSize .vertical = o.minSize .vertical :=
  Extent.minSize_resize f.height height true

/-- A thumb that fits its track is fitted to the content. An offset beyond the content may
    be met where the thumb is at the top. -/
theorem calibrate_spec {child : Child} (track : Track f s) (here : s.scrollableChild = some child)
    (inside : s.Inside)
    (room : s.scrollBar.minSize .vertical = s.scrollBarMaxHeight →
      child.scrollHeight - s.object.height < 8)
    (within : s.scrollBar.y = s.scrollBarMinY ∨ child.scrollY ≤ s.maxOffset) :
    ∃ t, s.calibrateScrollbar f = .ok t ∧ Inv f t ∧ t.Calibrated := by
  have least := track.least
  have most := track.most
  have frame := track.frame
  have object := track.object
  have span := track.span
  obtain ⟨top, bottom⟩ := inside
  have content : s.maxOffset = max 0 (child.scrollHeight - s.object.height) := by
    simp only [maxOffset, here]
    split <;> omega
  have eighth : s.maxOffset.tdiv 8 = s.maxOffset / 8 :=
    Int.tdiv_eq_ediv_of_nonneg (by omega)
  have same : (if child.scrollHeight ≥ s.object.height then child.scrollHeight - s.object.height
      else 0) = s.maxOffset := by
    simp only [maxOffset, here]
  simp only [calibrateScrollbar, here]
  rw [same]
  split
  next long =>
    generalize bar_def : (if s.scrollBarMaxHeight = s.scrollBar.height then
      (s.scrollBar.resizeHeight f true (s.scrollBar.minSize .vertical)).1 else s.scrollBar) = bar
    have shape : bar.y = s.scrollBar.y ∧ bar.minSize .vertical = s.scrollBar.minSize .vertical ∧
        bar.minSize .vertical ≤ bar.height ∧ bar.height ≤ s.scrollBar.height ∧
        bar.height < s.scrollBarMaxHeight := by
      rw [← bar_def]
      split
      next full =>
        refine ⟨rfl, minSize_resizeHeight _ _, ?_⟩
        rw [minSize_resizeHeight, height_resizeHeight]
        omega
      next => exact ⟨rfl, rfl, least, by omega, by omega⟩
    obtain ⟨sameY, sameMin, tall, noTaller, short⟩ := shape
    have run := tdiv_tdiv_ge s.maxOffset (s.scrollBarMaxHeight - bar.height)
      (by omega) (by omega)
    have apart : s.scrollBarMaxHeight - bar.height ≠ 0 := by omega
    simp only [divide, if_neg apart, bind, Except.bind]
    refine Fitted.settles (s := { s with
      scrollBar := bar
      scrollMultiplier := s.maxOffset.tdiv (s.scrollBarMaxHeight - bar.height)
      scrollableChild := some child }) ?_ rfl ?_
    · refine ⟨⟨track.starts, span, by simp only [sameMin, object], frame, tall, ?_⟩, by simp, run.1, ?_⟩
      · exact Int.le_of_lt short
      · simp only [maxOffset, here] at run ⊢
        exact run.2
    · intro _
      constructor
      · simp only [sameY, top]
      · simp only [sameY]
        omega
  next short =>
    have height := height_resizeHeight (f := f) s.scrollBar
      (s.scrollBarMaxHeight - s.maxOffset.tdiv 8)
    generalize bar_def : (s.scrollBar.resizeHeight f true
      (s.scrollBarMaxHeight - s.maxOffset.tdiv 8)).1 = bar at height
    have sameMin : bar.minSize .vertical = s.scrollBar.minSize .vertical := by
      rw [← bar_def]
      exact minSize_resizeHeight _ _
    have sameY : bar.y = s.scrollBar.y := by
      rw [← bar_def]
      rfl
    refine Fitted.settles (s := { s with
      scrollBar := bar
      scrollMultiplier := 8
      scrollableChild := some child }) ?_ rfl ?_
    · refine ⟨⟨track.starts, span, by simp only [sameMin, object], frame, ?_, ?_⟩, by simp, by simp, ?_⟩
      · simp only
        omega
      · simp only
        omega
      · have bound : s.scrollBarMaxHeight - bar.height ≤ s.maxOffset.tdiv 8 := by omega
        simp only [maxOffset, here] at bound ⊢
        exact bound
    · intro stays
      have scaled : child.scrollY ≤ s.maxOffset → child.scrollY.tdiv 8 ≤ s.maxOffset.tdiv 8 :=
        Int.tdiv_le_tdiv (by omega)
      constructor
      · simp only [sameY, top]
      · simp only [sameY] at stays ⊢
        rcases within with atTop | within
        · omega
        · have := scaled within
          omega

theorem handleMouseEvent_moved (inv : Inv f s) (e : MouseEvent) :
    (s.handleMouseEvent e).1 = s ∨ ∃ y, (s.handleMouseEvent e).1 = s.moved (s.clampY y) := by
  unfold handleMouseEvent
  split
  · exact .inr ⟨s.mouseY e, setScrollPosition_moved (fun _ => inv.inside) inv.fits⟩
  · exact .inl rfl

theorem inv_mouse (inv : Inv f s) (e : MouseEvent) : Inv f (s.handleMouseEvent e).1 := by
  obtain same | ⟨y, same⟩ := handleMouseEvent_moved inv e
  · rwa [same]
  · rw [same]
    exact inv.toFitted.moved y

theorem height_of_unreported (o : UIObjectImpl) {height : Int} {isPrimary : Bool}
    (none : (o.resizeHeight f isPrimary height).2 = 0) :
    (o.resizeHeight f isPrimary height).1.height = o.height := by
  have reported : (o.resizeHeight f isPrimary height).2 =
      o.height - (o.resizeHeight f isPrimary height).1.height :=
    Extent.returned_resize (e := o.vertical) f.height height isPrimary
  omega

theorem onResize_spec (inv : Inv f s) {object : UIObjectImpl}
    (room : Room f (s.scrollBar.minSize .vertical) (object.height - s.scrollBarWidth * 2)
      (s.contentHeight - object.height)) :
    ∃ t, onResize f { s with object := object } = .ok t ∧ Inv f t ∧ t.Calibrated := by
  obtain ⟨child, here⟩ := Option.ne_none_iff_exists'.mp inv.child
  obtain ⟨enough, frame, exact⟩ := room
  have starts := inv.starts
  have height := height_resizeHeight (f := f) s.scrollBar (object.height - s.scrollBarWidth * 2)
  have least := minSize_resizeHeight (f := f) s.scrollBar (object.height - s.scrollBarWidth * 2)
  unfold onResize
  simp only
  generalize (s.scrollBar.resizeHeight f true (object.height - s.scrollBarWidth * 2)).1 = bar
    at height least
  have full : bar.height = object.height - s.scrollBarWidth * 2 := by omega
  refine calibrate_spec ⟨starts, ?_, ?_, frame, ?_, Int.le_of_eq full⟩ here
    ⟨Int.le_refl _, ?_⟩ ?_ (.inl rfl)
  · simp only
    omega
  · exact least.symm ▸ inv.object
  · change bar.minSize .vertical ≤ bar.height
    omega
  · change s.scrollBarMinY + bar.height ≤ object.height - s.scrollBarWidth
    omega
  · change bar.minSize .vertical = object.height - s.scrollBarWidth * 2 →
      child.scrollHeight - object.height < 8
    have same : s.contentHeight = child.scrollHeight := by
      simp only [contentHeight, here, Option.elim]
    rw [least, ← same]
    exact exact

end VerticalScroller

/-- The event makes the scroller place the thumb by the offset of the child. -/
def Event.Places (s t : VerticalScroller) : Event → Prop
  | .content _ _ | .scrolled _ => True
  | .resize _ _ widthChanged => widthChanged = true ∨ t.object.height ≠ s.object.height
  | .mouse _ _ => False

namespace VerticalScroller

theorem next_spec (inv : Inv f s) {e : Event} (fitting : Fitting f s e) :
    ∃ t, next f s e = .ok t ∧ Inv f t ∧ (e.Places s t → t.Calibrated) := by
  obtain ⟨child, here⟩ := Option.ne_none_iff_exists'.mp inv.child
  cases e with
  | content scrollHeight scrollY =>
    obtain ⟨_, within, -, -, exact⟩ := fitting
    have sameChild : s.scrollableChild.map (fun _ => (⟨scrollY, scrollHeight⟩ : Child)) =
        some ⟨scrollY, scrollHeight⟩ := by rw [here]; rfl
    have track : Track f { s with
        scrollableChild := s.scrollableChild.map fun _ => ⟨scrollY, scrollHeight⟩ } :=
      ⟨inv.starts, inv.span, inv.object, inv.frame, inv.least, inv.most⟩
    obtain ⟨t, done, after, calibrated⟩ := calibrate_spec track sameChild inv.inside exact
      (.inr (by simp only [maxOffset, sameChild]; split <;> omega))
    exact ⟨t, done, after, fun _ => calibrated⟩
  | scrolled scrollY =>
    have fitted := (inv.childAt scrollY).toFitted
    have sameChild : (s.childAt scrollY).scrollableChild = some { child with scrollY := scrollY } := by
      simp only [VerticalScroller.childAt, here, Option.map_some]
    obtain ⟨t, done, after, calibrated⟩ := fitted.settles sameChild fun _ => inv.inside
    exact ⟨t, done, after, fun _ => calibrated⟩
  | resize height isPrimary widthChanged =>
    simp only [next]
    split
    next unchanged =>
      have same := height_of_unreported s.object unchanged.1
      refine ⟨_, rfl, ⟨⟨⟨inv.starts, inv.span, inv.object, inv.frame, inv.least, inv.most⟩,
        inv.child, inv.scaled, ?_⟩, inv.inside⟩, ?_⟩
      · have reaches := inv.reaches
        simp only [maxOffset, here, same] at reaches ⊢
        exact reaches
      · rintro (changed | changed)
        · simp [unchanged.2] at changed
        · exact absurd same changed
    next changed =>
      obtain ⟨t, done, after, calibrated⟩ := onResize_spec inv
        (fitting.resolve_left changed)
      exact ⟨t, done, after, fun _ => calibrated⟩
  | mouse e scrollY =>
    have after := inv_mouse inv e
    refine ⟨_, rfl, ?_, False.elim⟩
    split
    · exact after.childAt scrollY
    · exact after

theorem create_spec {g : Geometry} {s : VerticalScroller} (created : create f g = .ok s)
    (room : s.scrollBar.minSize .vertical ≤ s.scrollBarMaxHeight ∧
      s.scrollBarMaxHeight ≤ f.height) :
    Track f s ∧ s.Inside ∧ s.scrollableChild = none ∧ s.scrollBar.y = s.scrollBarMinY := by
  unfold create at created
  simp only at created
  split at created
  · cases created
  · cases created
    obtain ⟨enough, frame⟩ := room
    simp only [UIObjectImpl.minHeight, UIObjectImpl.create, UIObjectImpl.minSize,
      UIObjectImpl.extent, Extent.create, Extent.setMin, MIN_OBJECT_SIZE] at enough frame ⊢
    refine ⟨⟨rfl, by simp only; omega, ?_, frame, ?_, ?_⟩, ⟨Int.le_refl _, ?_⟩, trivial, trivial⟩ <;>
      simp only [UIObjectImpl.minSize, UIObjectImpl.extent, UIObjectImpl.height,
        MIN_OBJECT_SIZE] <;>
      omega

theorem add_spec {g : Geometry} {s : VerticalScroller} {child : Child}
    (created : create f g = .ok s)
    (room : Room f (s.scrollBar.minSize .vertical) s.scrollBarMaxHeight
      (child.scrollHeight - s.object.height)) :
    ∃ t, s.add f child = .ok t ∧ Inv f t ∧ t.Calibrated := by
  obtain ⟨enough, frame, exact⟩ := room
  obtain ⟨track, inside, alone, top⟩ := create_spec created ⟨enough, frame⟩
  simp only [add, alone]
  exact calibrate_spec ⟨track.starts, track.span, track.object, track.frame, track.least,
    track.most⟩ rfl inside exact (.inl top)

/-- Where there is room for the thumb whenever it is fitted, nothing divides by zero, and in
    every state the thumb is in its track and follows the offset from end to end. -/
theorem thumb_follows_offset (f : Frame) (g : Geometry) (child : Child) (s₁ : VerticalScroller)
    (created : create f g = .ok s₁)
    (room : Room f (s₁.scrollBar.minSize .vertical) s₁.scrollBarMaxHeight
      (child.scrollHeight - s₁.object.height)) :
    ∃ s₀, s₁.add f child = .ok s₀ ∧ s₀.Sound ∧ s₀.Calibrated ∧
      ∀ es s, Run (Guarded (Fitting f) (Steps fun s e => (next f s e).toOption)) s₀ es s →
        s.Sound ∧ ∀ e, Fitting f s e → ∃ t, next f s e = .ok t ∧ (e.Places s t → t.Calibrated) := by
  obtain ⟨s₀, added, start, calibrated⟩ := add_spec created room
  refine ⟨s₀, added, start.sound, calibrated, ?_⟩
  intro es s run
  have inv : Inv f s := by
    refine run_invariant (Inv f) ?_ run start
    rintro s e t inv ⟨fitting, step⟩
    obtain ⟨t', done, after, -⟩ := next_spec inv fitting
    cases Except.ok.inj (done.symm.trans (toOption_some.mp step))
    exact after
  refine ⟨inv.sound, fun e fitting => ?_⟩
  obtain ⟨t, done, -, placed⟩ := next_spec inv fitting
  exact ⟨t, done, placed⟩

theorem thumb_follows_offset_long :
    ∃ s₁, create ⟨800, 600⟩ ⟨0, 0, 300, 200, 20, .STRETCHED, .STRETCHED⟩ = .ok s₁ ∧
      ∃ s₀, s₁.add ⟨800, 600⟩ ⟨40, 5000⟩ = .ok s₀ ∧ s₀.Sound ∧
        ∃ t, next ⟨800, 600⟩ s₀ (.scrolled 900) = .ok t ∧ t.Calibrated := by
  refine ⟨_, rfl, ?_⟩
  obtain ⟨s₀, added, sound, -, runs⟩ := thumb_follows_offset ⟨800, 600⟩
    ⟨0, 0, 300, 200, 20, .STRETCHED, .STRETCHED⟩ ⟨40, 5000⟩ _ rfl (by decide)
  obtain ⟨-, steps⟩ := runs [] s₀ (.nil s₀)
  obtain ⟨t, done, placed⟩ := steps (.scrolled 900) trivial
  exact ⟨s₀, added, sound, t, done, placed trivial⟩

/-- A track as short as the shortest thumb: the content is divided by nothing. -/
theorem thumb_without_runway :
    ∃ s₁, create ⟨800, 600⟩ ⟨0, 0, 100, 50, 20, .STRETCHED, .STRETCHED⟩ = .ok s₁ ∧
      s₁.add ⟨800, 600⟩ ⟨0, 100⟩ = .error .divisionByZero :=
  ⟨_, rfl, rfl⟩

end VerticalScroller
end Scroller
