import UpanLibs.TextArea.Fixed.FixedTextArea

/-!
A `Terminal`: a `FixedTextArea` whose last lines are a prompt and the command that is typed
behind it. What it overrides is here, with the calls of the base class that come back to it.
The characters that `printf` writes go to the area one by one.
-/
namespace FixedText

open TextInput

def FixedTextLine.toString (line : FixedTextLine) (pos : Nat) : List Nat :=
  (line.chars.drop pos).map FixedCharacter.ch

namespace Terminal

open FixedTextArea

def setPrompt (prompt : List Nat) : List Nat := prompt ++ [62, 32]

def isPrimaryCommandLine (s : FixedTextArea) : Except Fault Bool :=
  match s.characterPos.y with
  | 0 => .ok true
  | above + 1 => do
      let prevLine ← get s.lines above
      .ok !prevLine.wrapped

section

variable (c : Config) (prompt : List Nat)

/-- `isPrimaryCommandLine() && fixedCharacterPos().x() == _prompt.length()`. -/
def isAtPrompt (s : FixedTextArea) : Except Fault Bool := do
  let primary ← isPrimaryCommandLine s
  .ok (primary && s.characterPos.x == prompt.length)

def moveleft (s : FixedTextArea) : Except Fault FixedTextArea := do
  let atPrompt ← isAtPrompt prompt s
  if atPrompt then .ok s
  else if s.characterPos.x = 0 then do
    let s ← FixedTextArea.moveup c s
    inlinemoveend c s
  else FixedTextArea.moveleft c s

/-- The loop of `movehome`, which goes up one line each time. -/
def moveToPrimary : Nat → FixedTextArea → Except Fault FixedTextArea
  | 0, s => .ok s
  | rounds + 1, s => do
      let primary ← isPrimaryCommandLine s
      if primary then .ok s
      else do
        let s ← FixedTextArea.moveup c s
        moveToPrimary rounds s

def moverights : Nat → FixedTextArea → Except Fault FixedTextArea
  | 0, s => .ok s
  | count + 1, s => do
      let s ← moveright c s
      moverights count s

def movehome (s : FixedTextArea) : Except Fault FixedTextArea := do
  let s ← moveToPrimary c s.characterPos.y s
  let s ← inlinemovehome c s
  moverights c prompt.length s

/-- The loop of `moveend`, which goes down one line each time. -/
def moveToLast : Nat → FixedTextArea → Except Fault FixedTextArea
  | 0, s => .ok s
  | rounds + 1, s =>
      if s.characterPos.y + 1 < s.lines.length then do
        let s ← movedown c s
        moveToLast rounds s
      else .ok s

def moveend (s : FixedTextArea) : Except Fault FixedTextArea := do
  let s ← moveToLast c s.lines.length s
  inlinemoveend c s

def enter (s : FixedTextArea) : Except Fault FixedTextArea := do
  let s ← moveend c s
  FixedTextArea.enter c s

/-- The guard, and then `backspace` of the base class, which calls `moveleft` above. -/
def backspace (s : FixedTextArea) : Except Fault FixedTextArea := do
  let atPrompt ← isAtPrompt prompt s
  if atPrompt then .ok s
  else if s.characterPos.x = 0 ∧ s.characterPos.y = 0 then .ok s
  else do
    let s ← moveleft c prompt s
    removech c s

def editSelection (s : FixedTextArea) : FixedTextArea := { s with selectedArea.present := false }

def insert (ch : FixedCharacter) (s : FixedTextArea) : Except Fault FixedTextArea :=
  if is_new_line ch.ch then enter c s else doInsert c ch s

def insertKey (ch : Nat) (s : FixedTextArea) : Except Fault FixedTextArea :=
  if isInsertableKey ch then insert c ⟨ch, c.textFGColor, c.textBGColor⟩ (editSelection s)
  else .ok s

def insertEach : List FixedCharacter → FixedTextArea → Except Fault FixedTextArea
  | [], s => .ok s
  | ch :: chars, s => do
      let s ← insert c ch s
      insertEach chars s

/-- The switch of `doHandleInput`. `moveup` does nothing, and `cutSelection` copies. -/
def doKey (key : Key) (s : FixedTextArea) : Except Fault FixedTextArea :=
  match key with
  | .up => .ok s
  | .down => movedown c s
  | .left => moveleft c prompt s
  | .right => moveright c s
  | .home => movehome c prompt s
  | .end_ => moveend c s
  | .pageUp => pageup c s
  | .pageDown => pagedown c s
  | .del => if s.selectedArea.present then .ok (editSelection s) else removech c s
  | .backspace =>
      if s.selectedArea.present then .ok (editSelection s) else backspace c prompt s
  | .selectAll => .ok (selectAll s)
  | .cut | .copy => copySelection c s
  | .paste => insertEach c s.copyBuffer s
  | .other ch => insertKey c ch s

def handleInput (key : Key) (isShiftPressed : Bool) (s : FixedTextArea) :
    Except Fault FixedTextArea := do
  validateCursorPos s
  let prevCharPos := s.characterPos
  let s ← scrollToCaret c key s
  let s ← doKey c prompt key s
  .ok (updateSelectedArea isShiftPressed (isSelectKey key) prevCharPos s.characterPos s)

def processOutput : List Nat → FixedTextArea → Except Fault FixedTextArea
  | [], s => .ok s
  | ch :: chars, s => do
      let s ← handleInput c prompt (.other ch) false s
      processOutput chars s

/-- `printf("\n%s", _prompt.c_str())`. -/
def displayCommandLine (s : FixedTextArea) : Except Fault FixedTextArea :=
  processOutput c prompt (Keyboard_CTRL_J :: prompt) s

end

/-- The loop of `getCommandLine` that goes up to the first line of the last paragraph. -/
def commandLineStart (lines : List FixedTextLine) : Nat → Except Fault Nat
  | 0 => .ok 0
  | above + 1 => do
      let prevLine ← get lines above
      if prevLine.wrapped then commandLineStart lines above else .ok (above + 1)

def commandLineText (prompt : List Nat) : List FixedTextLine → List Nat
  | [] => []
  | first :: below => first.toString prompt.length ++ below.flatMap (·.toString 0)

def getCommandLine (prompt : List Nat) (s : FixedTextArea) : Except Fault (List Nat) := do
  let i ← commandLineStart s.lines (s.lines.length - 1)
  .ok (commandLineText prompt (s.lines.drop i))

end Terminal
end FixedText
