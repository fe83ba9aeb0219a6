import Mathlib.Tactic.Common

/-!
What the two text areas share: positions in the text, the selected area, the keys that
`doHandleInput` tells apart and the exceptions that end the delivery of an event.
-/
namespace TextInput

/-- The exceptions of `TextLines::get`, `vector` and `validateCursorPos`; `noReturn` stands
    for a recursion that does not come to an end. -/
inductive Fault where
  | invalidLineIndex (index : Int)
  | vectorIndexOutOfBounds (index : Int)
  | invalidIndexForInsert (index : Nat)
  | invalidCursorRow (row : Nat)
  | invalidCursorColumn (column row : Nat)
  | noReturn
  deriving DecidableEq, Repr

def DEFAULT_FONT_SIZE : Nat := 16
def DEFAULT_LINE_SPACE : Nat := 4
def MIN_OBJECT_SIZE : Int := 5

/-- `minWidth(minWidth)` on an object of the given width, and `minHeight` likewise. -/
def minSize (wanted size : Int) : Int := max (min wanted size) MIN_OBJECT_SIZE

structure UIPosition (α : Type) where
  x : α
  y : α
  deriving DecidableEq, Repr

/-- `operator<=` of `UIPosition`. -/
def UIPosition.le (p q : UIPosition Nat) : Bool :=
  (if p.y = q.y then p.x < q.x else p.y < q.y) || p = q

structure SelectedArea where
  pivot : UIPosition Nat
  p1 : UIPosition Nat
  p2 : UIPosition Nat
  present : Bool
  deriving DecidableEq, Repr

def SelectedArea.setRange (area : SelectedArea) (pa pb : UIPosition Nat) : SelectedArea :=
  let p1 := if pa.le pb then pa else pb
  let p2 := if pa.le pb then pb else pa
  { area with p1 := p1, p2 := p2, present := if p1 = p2 then false else area.present }

/-- The keys that `doHandleInput` tells apart, without the two that change the font;
    `other` is every key of its default branch. -/
inductive Key where
  | up | down | left | right | home | end_ | pageUp | pageDown
  | del | backspace | selectAll | cut | copy | paste
  | other (ch : Nat)
  deriving DecidableEq, Repr

def Keyboard_CTRL_J : Nat := 10
def Keyboard_ENTER : Nat := 13
def Keyboard_SPACE : Nat := 32
def Keyboard_TILDE : Nat := 126

def is_command_key (ch : Nat) : Bool := ch < Keyboard_SPACE || Keyboard_TILDE < ch
def is_new_line (ch : Nat) : Bool := ch == Keyboard_ENTER || ch == Keyboard_CTRL_J
def isInsertableKey (ch : Nat) : Bool := !is_command_key ch || is_new_line ch

def isSelectKey : Key → Bool
  | .up | .down | .left | .right | .home | .end_ | .pageUp | .pageDown => true
  | _ => false

def isTextModifyKey : Key → Bool
  | .del | .backspace | .cut | .paste => true
  | .other ch => isInsertableKey ch
  | _ => false

structure LineInfo where
  lineIndex : Int
  lineTopY : Int
  lineBaseY : Int
  deriving DecidableEq, Repr

end TextInput
