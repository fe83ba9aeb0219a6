import UpanLibs.CString
import UpanLibs.Transition

/-!
The class `string`: a buffer, a length and a capacity, over the C string functions.
A reference argument may be the object itself. Lengths and capacities are unbounded.
-/
namespace UString
open Memory RawSlots CString

structure Str where
  buffer : Option Nat
  len : Nat
  capacity : Nat
  deriving DecidableEq

/-- An argument of type `const string&`. -/
inductive Ref where
  | this
  | other (r : Str)

def Ref.get (s : Str) : Ref → Str
  | .this => s
  | .other r => r

inductive Reply where
  | done
  | thrown (text : String)
  deriving DecidableEq

def invalidInsert (pos : Int) : String := "invalid string insert position: " ++ toString pos

def invalidErase (pos : Int) : String := "invalid string erase position: " ++ toString pos

namespace Str

def c_str (s : Str) : Source := .buffer s.buffer

def newBuffer (capacity : Nat) : Program Bytes Nat := alloc (raw capacity)

def init : Program Bytes Str := do
  let buffer ← newBuffer 8
  putByte (some buffer) 0 0
  pure ⟨some buffer, 0, 8⟩

/-- `string(const char*)`, of a text or of the null pointer. -/
def ofText : Option (List UInt8) → Program Bytes Str
  | none => init
  | some v => do
    let len ← strlen (.text v)
    let buffer ← newBuffer (len + 1)
    strcpy (some buffer) (.text v)
    pure ⟨some buffer, len, len + 1⟩

/-- `string(const char*, int)`. -/
def ofPrefix (v : List UInt8) (len : Nat) : Program Bytes Str := do
  let buffer ← newBuffer (len + 1)
  strncpy (some buffer) v len
  putByte (some buffer) len 0
  pure ⟨some buffer, len, len + 1⟩

def copy (r : Str) : Program Bytes Str := do
  let len := r.len
  let buffer ← newBuffer (len + 1)
  strcpy (some buffer) r.c_str
  pure ⟨some buffer, len, len + 1⟩

/-- What a move leaves: the buffer is gone, the length and the capacity stay. -/
def released (r : Str) : Str := { r with buffer := none }

def assign (s : Str) (r : Ref) : Program Bytes Str := do
  let s := { s with len := (r.get s).len }
  let s ← if s.capacity ≤ s.len then do
      delete s.buffer
      let buffer ← newBuffer (s.len + 1)
      pure { s with buffer := some buffer, capacity := s.len + 1 }
    else pure s
  strcpy s.buffer (r.get s).c_str
  pure s

def expandAndCopy (s : Str) (r : Source) (rlen : Nat) : Program Bytes Str := do
  let s := { s with len := s.len + rlen }
  let s ← if s.capacity ≤ s.len then do
      let capacity := (s.len + 1) * 3 / 2
      let temp ← newBuffer capacity
      strcpy (some temp) s.c_str
      delete s.buffer
      pure { s with buffer := some temp, capacity := capacity }
    else pure s
  strcat s.buffer r
  pure s

/-- `operator+=(const string&)`. -/
def append (s : Str) (r : Ref) : Program Bytes Str :=
  if 0 < (r.get s).len then s.expandAndCopy (r.get s).c_str (r.get s).len else pure s

/-- `operator+=(const char*)`. -/
def appendText (s : Str) (r : Source) : Program Bytes Str := do
  let rlen ← strlen r
  if 0 < rlen then s.expandAndCopy r rlen else pure s

def appendChar (s : Str) (r : UInt8) : Program Bytes Str := s.expandAndCopy (.text [r]) 1

def insert (s : Str) (pos : Int) (str : Ref) : Program Bytes (Str × Reply) :=
  if pos < 0 ∨ (s.len : Int) < pos then pure (s, .thrown (invalidInsert pos))
  else do
    let pos := pos.toNat
    let remaining := s.len - pos
    let s ← s.expandAndCopy (str.get s).c_str (str.get s).len
    if 0 < remaining then
      memmove s.buffer (pos + (str.get s).len) s.buffer pos remaining
      memmove s.buffer pos (str.get s).buffer 0 (str.get s).len
    pure (s, .done)

/-- `insert` of a text, or of the text of one character: the string made for the call is
    destroyed after it. -/
def insertText (s : Str) (pos : Int) (v : List UInt8) : Program Bytes (Str × Reply) := do
  let temp ← ofText (some v)
  let r ← s.insert pos (.other temp)
  delete temp.buffer
  pure r

def erase (s : Str) (pos len : Int) : Program Bytes (Str × Reply) :=
  if pos < 0 ∨ len ≤ 0 ∨ (s.len : Int) ≤ pos then pure (s, .thrown (invalidErase pos))
  else do
    let pos := pos.toNat
    let remaining := s.len - pos
    let len := if (remaining : Int) < len then remaining else len.toNat
    memmove s.buffer pos s.buffer (pos + len) (remaining - len)
    let s := { s with len := s.len - len }
    putByte s.buffer s.len 0
    pure (s, .done)

def popBack (s : Str) : Program Bytes Str :=
  if 0 < s.len then do
    let s := { s with len := s.len - 1 }
    putByte s.buffer s.len 0
    pure s
  else pure s

def clear (s : Str) : Program Bytes Str := do
  let s := { s with len := 0 }
  putByte s.buffer 0 0
  pure s

end Str

/-- A C string: a text elsewhere, or the characters of `x`. -/
inductive CArg (V : Type) where
  | text (v : List UInt8)
  | c_str (x : V)

inductive Op (V : Type) where
  | ofText (x : V) (v : Option (List UInt8))
  | ofPrefix (x : V) (v : List UInt8) (len : Nat)
  | copyConstruct (x y : V)
  | moveConstruct (x y : V)
  | destruct (x : V)
  | assign (x y : V)
  | moveAssign (x y : V)
  | append (x y : V)
  | appendText (x : V) (r : CArg V)
  | appendChar (x : V) (r : UInt8)
  | insert (x : V) (pos : Int) (y : V)
  | insertText (x : V) (pos : Int) (v : List UInt8)
  | erase (x : V) (pos len : Int)
  | popBack (x : V)
  | clear (x : V)

section Code

variable {V : Type} [DecidableEq V]

abbrev State (V : Type) := World V Str Bytes

def initial : State V := ⟨.empty, fun _ => none⟩

/-- The object `y` as an argument of a call on `x`. -/
def State.ref (s : State V) (x y : V) : Option Ref :=
  if y = x then some .this else (s.object y).map .other

def State.source (s : State V) : CArg V → Option Source
  | .text v => some (.text v)
  | .c_str y => (s.object y).map Str.c_str

def State.run (s : State V) (x : V) (f : Str → Program Bytes Str) : Option (State V × Reply) :=
  s.call x fun o => (f o).map fun o => (o, .done)

def step (s : State V) : Op V → Option (State V × Reply)
  | .ofText x v => (s.build x (Str.ofText v)).map (·, .done)
  | .ofPrefix x v len => (s.build x (Str.ofPrefix v len)).map (·, .done)
  | .copyConstruct x y => match s.object y with
    | none => none
    | some r => (s.build x r.copy).map (·, .done)
  | .moveConstruct x y => match s.object x, s.object y with
    | none, some r => some ((s.update x s.heap (some r)).update y s.heap (some r.released), .done)
    | _, _ => none
  | .destruct x => match s.object x with
    | none => none
    | some o => (delete o.buffer s.heap).map fun (_, h) => (s.update x h none, .done)
  | .assign x y => match s.ref x y with
    | none => none
    | some r => s.run x fun o => o.assign r
  | .moveAssign x y => match s.object x, s.object y with
    | some o, some r => (delete o.buffer s.heap).map fun (_, h) =>
      ((s.update x h (some r)).update y h (some r.released), .done)
    | _, _ => none
  | .append x y => match s.ref x y with
    | none => none
    | some r => s.run x fun o => o.append r
  | .appendText x r => match s.source r with
    | none => none
    | some r => s.run x fun o => o.appendText r
  | .appendChar x r => s.run x fun o => o.appendChar r
  | .insert x pos y => match s.ref x y with
    | none => none
    | some r => s.call x fun o => o.insert pos r
  | .insertText x pos v => s.call x fun o => o.insertText pos v
  | .erase x pos len => s.call x fun o => o.erase pos len
  | .popBack x => s.run x Str.popBack
  | .clear x => s.run x Str.clear

end Code

end UString
