import UpanLibs.Machine
import UpanLibs.RawSlots

/-!
The class `vector` over raw storage: growth, insertion and erasure in place, copies,
moves and swaps. Element copies do not throw, and sizes and capacities are unbounded.
A reference to an element of a vector is read when the call copies it.
-/
namespace Vector
open Memory RawSlots

structure Vec where
  size : Nat
  capacity : Nat
  buffer : Option Nat
  deriving DecidableEq

inductive Reply (α : Type) where
  | done
  | element (v : α)
  | thrown (text : String)
  deriving DecidableEq

def invalidReserve (reserve : Int) : String :=
  "invalid vector reserve size: " ++ toString reserve ++ " - must be > 0"

def invalidIndex (index : Int) : String := "invalid index " ++ toString index ++ " for insert"

def outOfBounds (index : Int) : String :=
  "vector index " ++ toString index ++ " is out-of-bounds"

def outOfRange (index : Int) : String := "vector index " ++ toString index ++ " out of range"

def outOfErase (first last : Int) : String :=
  "vector index first:" ++ toString first ++ " and last:" ++ toString last ++
    " out of bounds while deleting elements"

variable {α : Type}

namespace Vec

/-- `vector()`, and what a move leaves. -/
def new : Vec := ⟨0, 0, none⟩

variable (sizeofT : Nat)

/-- `new char[bytes]`, as slots. -/
def newBuffer (bytes : Nat) : Program (Slots α) Nat := alloc (raw (bytes / sizeofT))

def reserve (reserve : Int) : Program (Slots α) (Vec × Reply α) :=
  if reserve < 0 then pure (new, .thrown (invalidReserve reserve))
  else if 0 < reserve then do
    let capacity := sizeofT * reserve.toNat
    let buffer ← newBuffer sizeofT capacity
    pure (⟨0, capacity, some buffer⟩, .done)
  else pure (new, .done)

def copy (rhs : Vec) : Program (Slots α) Vec :=
  if rhs.capacity = 0 then pure new
  else do
    let buffer ← newBuffer sizeofT rhs.capacity
    copySlots rhs.buffer (some buffer) rhs.size 0
    pure ⟨rhs.size, rhs.capacity, some buffer⟩

def clear (v : Vec) : Program (Slots α) Vec := do
  destroyFrom v.buffer v.size 0
  pure { v with size := 0 }

def destroy (v : Vec) : Program (Slots α) Unit := do
  let v ← v.clear
  deleteSlots v.buffer

def expandIfNeeded (v : Vec) : Program (Slots α) Vec :=
  if v.capacity ≤ v.size * sizeofT then do
    -- `_size * 1.5`, converted to int
    let newCapacity := sizeofT * (if v.size ≤ 1 then 2 else v.size * 3 / 2)
    let tempBuffer ← newBuffer sizeofT newCapacity
    copySlots v.buffer (some tempBuffer) v.size 0
    v.destroy
    pure ⟨v.size, newCapacity, some tempBuffer⟩
  else pure v

/-- `saved` is the copy that the call makes of its argument first. -/
def insert (v : Vec) (index : Int) (saved : α) : Program (Slots α) (Vec × Reply α) := do
  let v ← v.expandIfNeeded sizeofT
  if index < 0 ∨ (v.size : Int) < index then pure (v, .thrown (invalidIndex index))
  else if index = v.size then do
    construct v.buffer index.toNat saved
    pure ({ v with size := v.size + 1 }, .done)
  else do
    let last ← readSlot v.buffer (v.size - 1)
    construct v.buffer v.size last
    let v := { v with size := v.size + 1 }
    shiftUp v.buffer (v.size - 2 - index.toNat) (v.size - 2)
    assign v.buffer index.toNat saved
    pure (v, .done)

def pushBack (v : Vec) (saved : α) : Program (Slots α) (Vec × Reply α) :=
  v.insert sizeofT v.size saved

def erase (v : Vec) (first last : Int) : Program (Slots α) (Vec × Reply α) :=
  if first < 0 ∨ last < first ∨ (v.size : Int) < last then
    pure (v, .thrown (outOfErase first last))
  else do
    let count := (last - first).toNat
    if count = 0 then pure (v, .done)
    else do
      shiftDown v.buffer count (v.size - last.toNat) last.toNat
      let newSize := v.size - count
      destroyBelow v.buffer (v.size - newSize) v.size
      pure ({ v with size := newSize }, .done)

/-- `erase(end() - 1)`: the iterator `end() - 1` is checked first, then the one after it. -/
def popBack (v : Vec) : Program (Slots α) (Vec × Reply α) :=
  let it := (v.size : Int) - 1
  if it < 0 ∨ (v.size : Int) < it then pure (v, .thrown (outOfRange it))
  else if it + 1 < 0 ∨ (v.size : Int) < it + 1 then pure (v, .thrown (outOfRange (it + 1)))
  else v.erase it (it + 1)

def index (v : Vec) (index : Int) : Program (Slots α) (Reply α) :=
  if index < 0 ∨ (v.size : Int) ≤ index then pure (.thrown (outOfBounds index))
  else do
    let e ← readSlot v.buffer index.toNat
    pure (.element e)

end Vec

/-- An argument of type `const T&`: a value elsewhere, or the element `x[i]`. -/
inductive Arg (V α : Type) where
  | value (v : α)
  | element (x : V) (i : Int)

inductive Op (V α : Type) where
  | construct (x : V)
  | reserve (x : V) (n : Int)
  | copyConstruct (x y : V)
  | moveConstruct (x y : V)
  | destruct (x : V)
  | copyAssign (x y : V)
  | moveAssign (x y : V)
  | swap (x y : V)
  | insert (x : V) (i : Int) (v : Arg V α)
  | pushBack (x : V) (v : Arg V α)
  | erase (x : V) (first last : Int)
  | popBack (x : V)
  | clear (x : V)
  | index (x : V) (i : Int)

section Code

variable {V : Type} [DecidableEq V] (sizeofT : Nat)

abbrev State (V α : Type) := World V Vec (Slots α)

def initial : State V α := ⟨.empty, fun _ => none⟩

/-- A constructor of `x`; an object whose constructor throws does not begin to live. -/
def constructing (s : State V α) (x : V) (f : Program (Slots α) (Vec × Reply α)) :
    Option (State V α × Reply α) :=
  match s.object x with
  | some _ => none
  | none => (f s.heap).map fun ((v, r), h) => match r with
    | .thrown _ => (s.update x h none, r)
    | _ => (s.update x h (some v), r)

/-- A call with a reference argument; `operator[]` may throw before the call. -/
def passing (s : State V α) (arg : Arg V α) (f : α → Option (State V α × Reply α)) :
    Option (State V α × Reply α) :=
  match arg with
  | .value v => f v
  | .element y i => match s.object y with
    | none => none
    | some v => match (v.index i s.heap : Option (Reply α × Heap (Slots α))) with
      | some (.element e, _) => f e
      | some (r, _) => some (s, r)
      | none => none

def step (s : State V α) : Op V α → Option (State V α × Reply α)
  | .construct x => constructing s x (pure (.new, .done))
  | .reserve x n => constructing s x (Vec.reserve sizeofT n)
  | .copyConstruct x y => match s.object y with
    | none => none
    | some rhs => constructing s x ((rhs.copy sizeofT).map fun v => (v, .done))
  | .moveConstruct x y => match s.object x, s.object y with
    | none, some rhs =>
      some ((s.update x s.heap (some rhs)).update y s.heap (some .new), .done)
    | _, _ => none
  | .destruct x => match s.object x with
    | none => none
    | some v => (v.destroy s.heap).map fun (_, h) => (s.update x h none, .done)
  | .copyAssign x y => match s.object y with
    | none => none
    | some rhs => s.call x fun v => do
      let temp ← rhs.copy sizeofT
      -- the swap leaves the old contents in `temp`, which is destroyed
      v.destroy
      pure (temp, .done)
  | .moveAssign x y => match s.object x, s.object y with
    | some v, some rhs => (v.destroy s.heap).map fun (_, h) =>
      ((s.update x h (some rhs)).update y h (some .new), .done)
    | _, _ => none
  | .swap x y => match s.object x, s.object y with
    | some v, some other =>
      some ((s.update y s.heap (some v)).update x s.heap (some other), .done)
    | _, _ => none
  | .insert x i arg => passing s arg fun saved => s.call x fun v => v.insert sizeofT i saved
  | .pushBack x arg => passing s arg fun saved => s.call x fun v => v.pushBack sizeofT saved
  | .erase x first last => s.call x fun v => v.erase first last
  | .popBack x => s.call x Vec.popBack
  | .clear x => s.call x fun v => v.clear.map fun v => (v, .done)
  | .index x i => s.call x fun v => (v.index i).map fun r => (v, r)

end Code

end Vector
