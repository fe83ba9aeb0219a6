import UpanLibs.NodeRing

/-!
The class `list`: a ring of nodes with a counter and a pointer to the first one. An
iterator is the node it is at, or none at the end. The counter is unbounded. A loop
has as many rounds as the counter says, and fails when its iterator is not at the end
by then.
-/
namespace LinkedList
open Memory NodeRing

structure Lst where
  size : Nat
  first : Option Nat
  deriving DecidableEq

variable {α : Type}

namespace Lst

def new : Lst := ⟨0, none⟩

def last (l : Lst) : Program (Node α) (Option Nat) :=
  match l.first with
  | none => pure none
  | some a => prev (some a)

/-- `pre_inc` of a forward iterator that is not at the end. -/
def preInc (l : Lst) (i : Nat) : Program (Node α) (Option Nat) := do
  let n ← next (some i)
  if l.first = n then pure none else next (some i)

/-- `pre_inc` of a reverse iterator that is not at the end. -/
def preIncReverse (l : Lst) (i : Nat) : Program (Node α) (Option Nat) := do
  let last ← l.last
  let p ← prev (some i)
  if last = p then pure none else prev (some i)

def pushBack (l : Lst) (value : α) : Program (Node α) Lst := do
  let n ← alloc ⟨value, none, none⟩
  let n := some n
  if l.size = 0 then
    setNext n n
    setPrev n n
    pure { l with size := l.size + 1, first := n }
  else
    let last ← l.last
    setNext last n
    setPrev n last
    setNext n l.first
    setPrev l.first n
    pure { l with size := l.size + 1 }

def pushFront (l : Lst) (value : α) : Program (Node α) Lst := do
  let l ← l.pushBack value
  let first ← prev l.first
  pure { l with first := first }

/-- `cur->prev()->next(cur->next())` and `cur->next()->prev(cur->prev())`. -/
def unlink (cur : Option Nat) : Program (Node α) Unit := do
  let p ← prev cur
  let n ← next cur
  setNext p n
  let n ← next cur
  let p ← prev cur
  setPrev n p

def discard (l : Lst) (cur : Option Nat) : Program (Node α) (Lst × Bool) := do
  delete cur
  pure ({ l with size := l.size - 1 }, true)

/-- The first node when `cur` goes: the one after it, if it was the first. -/
def firstWithout (l : Lst) (wasFirst : Bool) (cur : Option Nat) : Program (Node α) (Option Nat) :=
  if wasFirst then next cur else pure l.first

def deleteNode (l : Lst) (cur : Option Nat) : Program (Node α) (Lst × Bool) :=
  if l.size = 1 then
    if l.first = cur then discard { l with first := none } cur else pure (l, false)
  else do
    unlink cur
    let first ← l.firstWithout (cur == l.first) cur
    discard { l with first := first } cur

/-- `erase` at an iterator, forward or reverse: both compare with their end, the null node. -/
def eraseAt (l : Lst) (it : Option Nat) : Program (Node α) (Lst × Bool) :=
  if it = none then pure (l, false)
  else if l.size = 0 then pure (l, false)
  else l.deleteNode it

def nodeAt (l : Lst) (front : Bool) : Program (Node α) (Option Nat) :=
  if front then pure l.first else prev l.first

def pop (l : Lst) (front : Bool) : Program (Node α) (Lst × Bool) :=
  if l.size = 0 then pure (l, false)
  else do
    let cur ← l.nodeAt front
    if l.size = 1 then discard { l with first := none } cur
    else
      unlink cur
      let first ← l.firstWithout front cur
      discard { l with first := first } cur

/-- The loops of `find` and of the sorted insertions: the iterator they stop at. -/
def findFrom (l : Lst) (stop : α → Bool) : Nat → Option Nat → Program (Node α) (Option Nat)
  | _, none => pure none
  | 0, some _ => failure
  | rounds + 1, some i => do
    let v ← value (some i)
    if stop v then pure (some i)
    else
      let i ← l.preInc i
      findFrom l stop rounds i

def eraseValue (l : Lst) (same : α → Bool) : Program (Node α) (Lst × Bool) := do
  let i ← l.findFrom same l.size l.first
  l.eraseAt i

def insert (l : Lst) (pos : Option Nat) (v : α) : Program (Node α) (Lst × Option Nat) :=
  match pos with
  | none => do
    let l ← l.pushBack v
    let last ← l.last
    pure (l, last)
  | some cur =>
    if some cur = l.first then do
      let l ← l.pushFront v
      pure (l, l.first)
    else do
      let n ← alloc ⟨v, none, none⟩
      let p ← prev (some cur)
      setNext p (some n)
      let p ← prev (some cur)
      setPrev (some n) p
      setNext (some n) (some cur)
      setPrev (some cur) (some n)
      pure ({ l with size := l.size + 1 }, some n)

def sortedInsert (l : Lst) (stop : α → Bool) (v : α) : Program (Node α) (Lst × Option Nat) := do
  let i ← l.findFrom stop l.size l.first
  l.insert i v

def sortedInsertAsc (lt : α → α → Bool) (l : Lst) (v : α) : Program (Node α) (Lst × Option Nat) :=
  l.sortedInsert (fun e => lt v e || !lt e v) v

def sortedInsertDesc (lt : α → α → Bool) (l : Lst) (v : α) : Program (Node α) (Lst × Option Nat) :=
  l.sortedInsert (fun e => lt e v || !lt v e) v

def sortedInsertComp (comp : α → α → Bool) (l : Lst) (v : α) :
    Program (Node α) (Lst × Option Nat) :=
  l.sortedInsert (fun e => comp v e) v

def clearFrom (l : Lst) : Nat → Option Nat → Program (Node α) Unit
  | _, none => pure ()
  | 0, some _ => failure
  | rounds + 1, some i => do
    let it ← l.preInc i
    delete (some i)
    clearFrom l rounds it

def clear (l : Lst) : Program (Node α) Lst := do
  clearFrom l l.size l.first
  pure ⟨0, none⟩

def readFrom (inc : Nat → Program (Node α) (Option Nat)) :
    Nat → Option Nat → Program (Node α) (List α)
  | _, none => pure []
  | 0, some _ => failure
  | rounds + 1, some i => do
    let v ← value (some i)
    let it ← inc i
    let rest ← readFrom inc rounds it
    pure (v :: rest)

def forward (l : Lst) : Program (Node α) (List α) := readFrom l.preInc l.size l.first

def backward (l : Lst) : Program (Node α) (List α) := do
  let last ← l.last
  readFrom l.preIncReverse l.size last

/-- A loop that erases with `erase(it++)` where it chooses to, after what it has seen, and
    the elements it visits. -/
def eraseLoop (chosen : List α → α → Bool) :
    Nat → Lst → List α → Option Nat → Program (Node α) (Lst × List α)
  | _, l, seen, none => pure (l, seen)
  | 0, _, _, some _ => failure
  | rounds + 1, l, seen, some i => do
    let v ← value (some i)
    let it ← l.preInc i
    if chosen seen v then
      let r ← l.eraseAt (some i)
      eraseLoop chosen rounds r.1 (seen ++ [v]) it
    else eraseLoop chosen rounds l (seen ++ [v]) it

end Lst

inductive Op (α : Type) where
  | pushBack (v : α)
  | pushFront (v : α)
  | popBack
  | popFront
  | insert (pos : Option Nat) (v : α)
  | sortedInsertAsc (v : α)
  | sortedInsertDesc (v : α)
  | sortedInsertComp (comp : α → α → Bool) (v : α)
  | eraseAt (it : Option Nat)
  | eraseReverseAt (it : Option Nat)
  | eraseValue (v : α)
  | clear
  | forward
  | backward
  | eraseLoop (chosen : List α → α → Bool)

inductive Reply (α : Type) where
  | done
  | erased (b : Bool)
  | iterator (it : Option Nat)
  | values (l : List α)
  deriving DecidableEq

def answering (l : Lst) : Lst × Reply α := (l, .done)

def erasing (r : Lst × Bool) : Lst × Reply α := (r.1, .erased r.2)

def placing (r : Lst × Option Nat) : Lst × Reply α := (r.1, .iterator r.2)

def reading (r : Lst × List α) : Lst × Reply α := (r.1, .values r.2)

structure State (α : Type) where
  heap : Heap (Node α)
  lst : Lst

def initial : State α := ⟨.empty, .new⟩

def Op.code (lt eq : α → α → Bool) (l : Lst) : Op α → Program (Node α) (Lst × Reply α)
  | .pushBack v => (l.pushBack v).map answering
  | .pushFront v => (l.pushFront v).map answering
  | .popBack => (l.pop false).map erasing
  | .popFront => (l.pop true).map erasing
  | .insert pos v => (l.insert pos v).map placing
  | .sortedInsertAsc v => (l.sortedInsertAsc lt v).map placing
  | .sortedInsertDesc v => (l.sortedInsertDesc lt v).map placing
  | .sortedInsertComp comp v => (l.sortedInsertComp comp v).map placing
  | .eraseAt it | .eraseReverseAt it => (l.eraseAt it).map erasing
  | .eraseValue v => (l.eraseValue fun e => eq e v).map erasing
  | .clear => l.clear.map answering
  | .forward => l.forward.map fun r => reading (l, r)
  | .backward => l.backward.map fun r => reading (l, r)
  | .eraseLoop chosen => (Lst.eraseLoop chosen l.size l [] l.first).map reading

def step (lt eq : α → α → Bool) (s : State α) (op : Op α) : Option (State α × Reply α) :=
  (op.code lt eq s.lst s.heap).map fun ((l, r), h) => (⟨h, l⟩, r)

end LinkedList
