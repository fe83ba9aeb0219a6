import Mathlib.Logic.Function.Basic
import UpanLibs.UiObject.ResizeTree

/-!
`UIObjectManager::dispatch` with the menus of `UIRoot`: what one event of the keyboard or the mouse
makes of the focus, the open menu and the colours, and which methods and handlers it calls. The
handlers of the application are a parameter: each performs any list of the five actions of
`Request`. Objects are not created or destroyed meanwhile, no `onResize` throws, and all canvases
are rectangular.
-/
namespace Dispatch

open UIObject

universe u v
variable {ι : Type u} {κ : Type v} [DecidableEq ι]

inductive ButtonState where
  | NORMAL | PRESSED | HOLD | RELEASED
  deriving DecidableEq, Repr

structure MouseData where
  x : Int
  y : Int
  deltaX : Int
  deltaY : Int
  leftButtonState : ButtonState
  rightButtonState : ButtonState
  middleButtonState : ButtonState
  isShiftPressed : Bool
  isCtrlPressed : Bool
  isDoubleClick : Bool
  deriving DecidableEq, Repr

namespace MouseData

variable (d : MouseData)

def anyButtonPressed : Bool :=
  d.leftButtonState = .PRESSED || d.rightButtonState = .PRESSED || d.middleButtonState = .PRESSED

def anyButtonHeld : Bool :=
  d.leftButtonState = .HOLD || d.rightButtonState = .HOLD || d.middleButtonState = .HOLD

end MouseData

structure MouseEvent where
  data : MouseData
  viewX : Int
  viewY : Int
  deriving DecidableEq, Repr

/-- The classes with methods of their own for the mouse. A menu has its panel. -/
inductive Kind (ι : Type u) where
  | menu (uiPanel : ι)
  | menuEntry (id : Int) (name : String)
  | button
  | canvas
  deriving DecidableEq, Repr

/-- What the objects are set up with, and the handlers that are registered. -/
structure Setting (ι : Type u) where
  frame : Frame
  kind : ι → Kind ι
  parent : ι → ι
  borderThickness : ι → Int
  backgroundColorAlpha : ι → Nat
  borderColorAlpha : ι → Nat
  isHResizable : ι → Bool
  isVResizable : ι → Bool
  captureMouseEvents : ι → Bool
  isKeyboardFocusable : ι → Bool
  hasMouseEventHandler : ι → Bool
  /-- What the overrides of `onResize` do in each resize, first to last. -/
  onResize : Nat → OnResize ι

/-- What is called: methods of the objects, and the handlers of the application. -/
inductive Callback (ι : Type u) (κ : Type v) where
  | onMouseFocus (o : ι)
  | onLoseMouseFocus (o : ι)
  | onMouseEvent (o : ι) (event : MouseEvent)
  | onKeyboardEvent (o : ι) (event : κ)
  | select (menu : ι) (selected : Bool)
  | invoke (entry : ι) (id : Int) (name : String)
  | onEvent (o : ι) (event : MouseEvent)
  deriving DecidableEq, Repr

/-- One action of a handler. Handlers that do anything else (add an entry to a menu, click on a menu
    themselves, switch the capture of mouse events) are left out. -/
inductive Request (ι : Type u) where
  | setFocus (o : ι)
  | setVisible (o : ι) (visible : Bool)
  | backgroundColor (o : ι) (color : Nat)
  | xy (o : ι) (x y : Int)
  | closeActiveMenu
  deriving DecidableEq, Repr

structure Gui (ι : Type u) (κ : Type v) where
  objects : Objects ι
  visible : ι → Bool
  backgroundColor : ι → Nat
  /-- The colour of the text on a menu entry. -/
  fgColor : ι → Nat
  hover : ι → Bool
  leftClickHold : ι → Bool
  activeMenu : Option ι
  keyboardFocusedObject : Option ι
  mouseFocusedObject : Option ι
  resizeMode : ResizeMode
  /-- How many there were so far. -/
  resizes : Nat
  calls : List (Callback ι κ)

def canvasOf (c : Setting ι) (visible : ι → Bool) (id : ι) (o : UIObjectImpl) : Canvas ι :=
  ⟨id, o.x, o.y, o.width, o.height, c.borderThickness id, c.backgroundColorAlpha id,
    c.borderColorAlpha id, c.isHResizable id, c.isVResizable id, visible id,
    c.captureMouseEvents id⟩

mutual

def hitTree (c : Setting ι) (visible : ι → Bool) : Objects ι → UIObject.Tree ι
  | .node id o children => .node (canvasOf c visible id o) (hitTrees c visible children)

def hitTrees (c : Setting ι) (visible : ι → Bool) : List (Objects ι) → List (UIObject.Tree ι)
  | [] => []
  | child :: children => hitTree c visible child :: hitTrees c visible children

end

mutual

def alter (target : ι) (becomes : Objects ι → Objects ι) : Objects ι → Objects ι
  | .node id o children =>
      if id = target then becomes (.node id o children)
      else .node id o (alterAll target becomes children)

def alterAll (target : ι) (becomes : Objects ι → Objects ι) : List (Objects ι) → List (Objects ι)
  | [] => []
  | child :: children => alter target becomes child :: alterAll target becomes children

end

def placeAt (x y : Int) : Objects ι → Objects ι
  | .node id o children => .node id { o with x := x, y := y } children

namespace Gui

variable (c : Setting ι) (s : Gui ι κ)

def called (callback : Callback ι κ) : Gui ι κ := { s with calls := s.calls ++ [callback] }

def setVisible (o : ι) (visible : Bool) : Gui ι κ :=
  { s with visible := Function.update s.visible o visible }

def setBackgroundColor (o : ι) (color : Nat) : Gui ι κ :=
  { s with backgroundColor := Function.update s.backgroundColor o color }

/-- `Menu::select` -/
def select (menu : ι) (selected : Bool) : Gui ι κ :=
  let s := s.called (.select menu selected)
  let s := s.setBackgroundColor menu
    (if selected then 0xD2D1C8 else s.backgroundColor (c.parent menu))
  match c.kind menu with
  | .menu uiPanel => s.setVisible uiPanel selected
  | _ => s

def closeActiveMenu : Gui ι κ :=
  match s.activeMenu with
  | some menu =>
      let s := s.select c menu false
      { s with activeMenu := none }
  | none => s

def onMenuClick (menu : ι) : Gui ι κ :=
  if s.activeMenu = some menu then s.closeActiveMenu c
  else
    let s := s.closeActiveMenu c
    let s := { s with activeMenu := some menu }
    s.select c menu true

def onMenuHover (menu : ι) : Gui ι κ :=
  match s.activeMenu with
  | some active =>
      if active ≠ menu then
        let s := s.closeActiveMenu c
        let s := { s with activeMenu := some menu }
        s.select c menu true
      else s
  | none => s

def isModelActive : Bool := s.activeMenu.isSome

def perform (s : Gui ι κ) : Request ι → Gui ι κ
  | .setFocus o => { s with keyboardFocusedObject := some o }
  | .setVisible o visible => s.setVisible o visible
  | .backgroundColor o color => s.setBackgroundColor o color
  | .xy o x y => { s with objects := alter o (placeAt x y) s.objects }
  | .closeActiveMenu => s.closeActiveMenu c

/-- A handler of the application, which knows all that was called so far. -/
def handle (app : List (Callback ι κ) → List (Request ι)) (callback : Callback ι κ) : Gui ι κ :=
  let s := s.called callback
  (app s.calls).foldl (perform c) s

variable (app : List (Callback ι κ) → List (Request ι))

/-- `onMouseEvent` of `UIObjectImpl` -/
def handleEvent (o : ι) (event : MouseEvent) : Gui ι κ :=
  if c.hasMouseEventHandler o then s.handle c app (.onEvent o event) else s

def onMouseEvent (o : ι) (event : MouseEvent) : Gui ι κ :=
  let s := s.called (.onMouseEvent o event)
  match c.kind o with
  | .menu _ =>
      let s := if event.data.leftButtonState = .PRESSED then s.onMenuClick c o else s
      s.handleEvent c app o event
  | .menuEntry id name =>
      let s :=
        if event.data.leftButtonState = .PRESSED then
          (s.handle c app (.invoke o id name)).closeActiveMenu c
        else s
      s.handleEvent c app o event
  | .button =>
      let held := event.data.leftButtonState = .HOLD
      let s := { s with leftClickHold := Function.update s.leftClickHold o held }
      s.handleEvent c app o event
  | .canvas => s.handleEvent c app o event

def onMouseFocus (o : ι) : Gui ι κ :=
  let s := s.called (.onMouseFocus o)
  match c.kind o with
  | .menu _ => s.onMenuHover c o
  | .menuEntry _ _ =>
      let s := s.setBackgroundColor o 0x0000FF
      { s with fgColor := Function.update s.fgColor o 0xFFFFFF }
  | .button => { s with hover := Function.update s.hover o true }
  | .canvas => s

def onLoseMouseFocus (o : ι) : Gui ι κ :=
  let s := s.called (.onLoseMouseFocus o)
  match c.kind o with
  | .menuEntry _ _ =>
      let s := s.setBackgroundColor o (s.backgroundColor (c.parent o))
      { s with fgColor := Function.update s.fgColor o 0 }
  | .button => { s with hover := Function.update s.hover o false }
  | .menu _ | .canvas => s

/-- `UIRoot::handleMouseEvent` -/
def handleMouseEvent (event : MouseEvent) (eventObject : ι) : Gui ι κ :=
  if event.data.anyButtonPressed then
    match c.kind eventObject with
    | .menu _ | .menuEntry _ _ => s
    | .button | .canvas => s.closeActiveMenu c
  else s

/-- The part of `dispatch` that finds the object the event is for. -/
def findEventObject (data : MouseData) : Gui ι κ × Option ι :=
  if !data.anyButtonHeld then
    let root := s.objects.object
    let (mode, hit) := (hitTree c s.visible s.objects).uiObjectUnderCursor (data.x - root.x)
      (data.y - root.y) Placed.root
    let s := { s with resizeMode := mode }
    match hit with
    | some o =>
        if data.anyButtonPressed && c.isKeyboardFocusable o then
          ({ s with keyboardFocusedObject := some o }, some o)
        else (s, some o)
    | none => (s, none)
  else (s, s.mouseFocusedObject)

def moveMouseFocus (eventObject : Option ι) : Gui ι κ :=
  match eventObject, s.mouseFocusedObject with
  | none, none => s
  | none, some old =>
      let s := s.onLoseMouseFocus c old
      { s with mouseFocusedObject := none }
  | some o, none =>
      let s := { s with mouseFocusedObject := some o }
      s.onMouseFocus c o
  | some o, some old =>
      if old ≠ o then
        let s := s.onLoseMouseFocus c old
        let s := { s with mouseFocusedObject := some o }
        s.onMouseFocus c o
      else s

def resize (o : ι) (r : Resize) : Gui ι κ :=
  let isRoot : Bool := o = s.objects.id
  { s with
    objects := alter o (fun t => t.resize c.frame (c.onResize s.resizes) isRoot r) s.objects
    resizes := s.resizes + 1 }

/-- `dispatch` of the data of the mouse -/
def dispatchMouse (data : MouseData) : Gui ι κ :=
  let root := s.objects.object
  let (s, eventObject) := s.findEventObject c data
  let s := s.moveMouseFocus c eventObject
  match eventObject with
  | none => s
  | some o =>
      if data.anyButtonHeld && s.resizeMode ≠ .NA then
        s.resize c o ⟨s.resizeMode, data.deltaX, data.deltaY⟩
      else
        let event : MouseEvent := ⟨data, data.x - root.x, data.y - root.y⟩
        let s := s.onMouseEvent c app o event
        s.handleMouseEvent c event o

/-- `dispatch` of a keyboard event -/
def dispatchKeyboard (event : κ) : Gui ι κ :=
  if !s.isModelActive then
    match s.keyboardFocusedObject with
    | some o => s.handle c app (.onKeyboardEvent o event)
    | none => s
  else s

end Gui

inductive Event (κ : Type v) where
  | mouse (data : MouseData)
  | keyboard (event : κ)
  deriving DecidableEq, Repr

/-- One event that the loop of the `EventManager` reads. -/
def dispatch (c : Setting ι) (app : List (Callback ι κ) → List (Request ι)) (s : Gui ι κ) :
    Event κ → Gui ι κ
  | .mouse data => s.dispatchMouse c app data
  | .keyboard event => s.dispatchKeyboard c app event

end Dispatch
