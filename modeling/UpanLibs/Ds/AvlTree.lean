import UpanLibs.HeightTree
import UpanLibs.Memory

/-!
The class `_tree` under `map` and `set`: nodes with links to their parent and to two
children. An iterator is the node it is at, or none at the end. What the source writes once
for each side is written once for both. A loop or a recursion has as many rounds as
addresses were ever given out, and fails when these do not suffice; the counter `_size` is
unbounded.
-/
namespace AvlTree
open Memory HeightTree

/-- The template argument `_c_type` with the order of its keys, a strict weak one. -/
structure CType (V K : Type) where
  getKey : V → K
  less : K → K → Bool
  irrefl : ∀ a, less a a = false
  trans : ∀ {a b c}, less a b → less b c → less a c
  cotrans : ∀ {a c} (b), less a c → less a b ∨ less b c

def numbers : CType Nat Nat where
  getKey := id
  less a b := decide (a < b)
  irrefl a := by simp
  trans := by
    intro a b c first second
    simp only [decide_eq_true_eq] at *
    omega
  cotrans := by
    intro a c b less
    simp only [decide_eq_true_eq] at *
    omega

structure Node (V : Type) where
  element : V
  height : Nat
  parent : Option Nat
  left : Option Nat
  right : Option Nat
  deriving DecidableEq, Repr

variable {V K : Type}

namespace Node

def new (element : V) : Node V := ⟨element, 1, none, none, none⟩

def child (n : Node V) : Side → Option Nat
  | .left => n.left
  | .right => n.right

def withChild (n : Node V) (d : Side) (c : Option Nat) : Node V :=
  match d with
  | .left => { n with left := c }
  | .right => { n with right := c }

end Node

def element (a : Nat) : Program (Node V) V := do
  let n ← load a
  pure n.element

def parent (a : Nat) : Program (Node V) (Option Nat) := do
  let n ← load a
  pure n.parent

/-- `left` and `right`, read. -/
def child (d : Side) (a : Nat) : Program (Node V) (Option Nat) := do
  let n ← load a
  pure (n.child d)

def setParent (a : Nat) (p : Option Nat) : Program (Node V) Unit := do
  let n ← load a
  store a { n with parent := p }

/-- `left` and `right`, written. -/
def setChild (d : Side) (a : Nat) (c : Option Nat) : Program (Node V) Unit := do
  let n ← load a
  store a (n.withChild d c)
  match c with
  | none => pure ()
  | some c => setParent c (some a)

def height : Option Nat → Program (Node V) Nat
  | none => pure 0
  | some a => do
    let n ← load a
    pure n.height

def balanceFactor (a : Nat) : Program (Node V) Int := do
  let n ← load a
  let l ← height n.left
  let r ← height n.right
  pure ((l : Int) - r)

def updateHeight (a : Nat) : Program (Node V) Unit := do
  let n ← load a
  let l ← height n.left
  let r ← height n.right
  store a { n with height := max l r + 1 }

/-- `while(cur->left() != nullptr) cur = cur->left()`, or with the other side. -/
def extreme (d : Side) : Nat → Nat → Program (Node V) Nat
  | 0, _ => failure
  | rounds + 1, cur => do
    let c ← child d cur
    match c with
    | none => pure cur
    | some c => extreme d rounds c

/-- `while(p && p->right() == c)`, or with the other side. -/
def climb (d : Side) : Nat → Nat → Option Nat → Program (Node V) (Option Nat)
  | 0, _, _ => failure
  | _ + 1, _, none => pure none
  | rounds + 1, c, some p => do
    let r ← child d p
    if r = some c then
      let p' ← parent p
      climb d rounds p p'
    else pure (some p)

def neighbour (d : Side) (rounds : Nat) (a : Nat) : Program (Node V) (Option Nat) := do
  let r ← child d a
  match r with
  | some cur => do
    let cur ← extreme d.other rounds cur
    pure (some cur)
  | none =>
    let p ← parent a
    climb d rounds a p

def successor (rounds a : Nat) : Program (Node V) (Option Nat) := neighbour .right rounds a

def predecessor (rounds a : Nat) : Program (Node V) (Option Nat) := neighbour .left rounds a

/-- `rotate_left` and `rotate_right`. -/
def rotate (d : Side) (n : Nat) : Program (Node V) Nat := do
  let r ← child d.other n
  let r ← deref r
  let b ← child d r
  setChild d.other n b
  setChild d r (some n)
  updateHeight n
  updateHeight r
  pure r

/-- A balance factor, counted from the side `d`. -/
def toward (d : Side) (bf : Int) : Int :=
  match d with
  | .left => bf
  | .right => -bf

/-- The branches of `rebalance` for a node whose side `d` is too high: left - left and
    left - right, or right - right and right - left. -/
def settle (d : Side) (n : Nat) : Program (Node V) Nat := do
  let c ← child d n
  let c ← deref c
  let bf ← balanceFactor c
  if 0 ≤ toward d bf then rotate d.other n
  else
    let m ← rotate d c
    setChild d n (some m)
    rotate d.other n

def rebalance : Option Nat → Program (Node V) (Option Nat)
  | none => pure none
  | some n => do
    updateHeight n
    let bf ← balanceFactor n
    if 1 < bf then
      let m ← settle .left n
      pure (some m)
    else if bf < -1 then
      let m ← settle .right n
      pure (some m)
    else pure (some n)

/-- The end of the private `insert` and `erase`. -/
def finish (n : Nat) (changed : Bool) : Program (Node V) (Option Nat) :=
  if !changed then pure (some n) else rebalance (some n)

variable (t : CType V K)

/-- The private `insert`: the root, and the iterator and the flag of the result. -/
def insertAt (value : V) : Nat → Option Nat → Program (Node V) (Option Nat × Option Nat × Bool)
  | 0, _ => failure
  | _ + 1, none => do
    let nw ← alloc (.new value)
    pure (some nw, some nw, true)
  | rounds + 1, some n => do
    let e ← element n
    if t.less (t.getKey value) (t.getKey e) then
      let l ← child .left n
      let (l, r) ← insertAt value rounds l
      setChild .left n l
      let n ← finish n r.2
      pure (n, r)
    else if t.less (t.getKey e) (t.getKey value) then
      let l ← child .right n
      let (l, r) ← insertAt value rounds l
      setChild .right n l
      let n ← finish n r.2
      pure (n, r)
    else pure (some n, some n, false)

/-- The successor `s` of `n` takes its children, and `n` takes the place of the successor. -/
def relink (n s : Nat) (nLeft nRight sLeft sRight : Option Nat) : Program (Node V) Unit := do
  setChild .left s nLeft
  setChild .right s nRight
  let p ← parent s
  let p ← deref p
  setChild .left p (some n)
  setChild .left n sLeft
  setChild .right n sRight

/-- The private `erase` at the node with the key: the last branch, which erases the node
    again once it waits at the place of its successor. -/
def eraseNode (eraseAt : Option Nat → K → Program (Node V) (Option Nat × Bool)) (rounds n : Nat) :
    Program (Node V) (Option Nat × Bool) := do
  let nLeft ← child .left n
  let nRight ← child .right n
  if nLeft = none ∨ nRight = none then
    free n
    pure (if nLeft ≠ none then nLeft else nRight, true)
  else
    let s ← successor rounds n
    let s ← deref s
    let sLeft ← child .left s
    let sRight ← child .right s
    if some s = nRight then
      setChild .left s nLeft
      free n
      let s ← finish s true
      pure (s, true)
    else
      relink n s nLeft nRight sLeft sRight
      let e ← element n
      let r ← child .right s
      let (r, deleted) ← eraseAt r (t.getKey e)
      setChild .right s r
      let s ← finish s deleted
      pure (s, deleted)

/-- The private `erase`: the root and the flag `deleted`. -/
def eraseAt : Nat → Option Nat → K → Program (Node V) (Option Nat × Bool)
  | 0, _, _ => failure
  | _ + 1, none, _ => pure (none, false)
  | rounds + 1, some n, key => do
    let e ← element n
    if t.less key (t.getKey e) then
      let l ← child .left n
      let (l, deleted) ← eraseAt rounds l key
      setChild .left n l
      let n ← finish n deleted
      pure (n, deleted)
    else if t.less (t.getKey e) key then
      let l ← child .right n
      let (l, deleted) ← eraseAt rounds l key
      setChild .right n l
      let n ← finish n deleted
      pure (n, deleted)
    else eraseNode t (eraseAt rounds) rounds n

def clearAt : Nat → Option Nat → Program (Node V) Unit
  | _, none => pure ()
  | 0, some _ => failure
  | rounds + 1, some n => do
    let l ← child .left n
    clearAt rounds l
    let r ← child .right n
    clearAt rounds r
    free n

def findNode (key : K) : Nat → Option Nat → Program (Node V) (Option Nat)
  | _, none => pure none
  | 0, some _ => failure
  | rounds + 1, some cur => do
    let e ← element cur
    if t.less key (t.getKey e) then
      let l ← child .left cur
      findNode key rounds l
    else if t.less (t.getKey e) key then
      let r ← child .right cur
      findNode key rounds r
    else pure (some cur)

/-- The loop of the two bound searches: `fits` at `cur` makes it the result so far, and sends
    the search to the left. -/
def boundNode (fits : V → Bool) : Nat → Option Nat → Option Nat → Program (Node V) (Option Nat)
  | _, none, result => pure result
  | 0, some _, _ => failure
  | rounds + 1, some cur, result => do
    let e ← element cur
    if fits e then
      let l ← child .left cur
      boundNode fits rounds l (some cur)
    else
      let r ← child .right cur
      boundNode fits rounds r result

def lowerBoundNode (key : K) (rounds : Nat) (cur : Option Nat) : Program (Node V) (Option Nat) :=
  boundNode (fun e => !t.less (t.getKey e) key) rounds cur none

def upperBoundNode (key : K) (rounds : Nat) (cur : Option Nat) : Program (Node V) (Option Nat) :=
  boundNode (fun e => t.less key (t.getKey e)) rounds cur none

structure Avl where
  root : Option Nat
  size : Nat
  deriving DecidableEq, Repr

def rounds : Program (Node V) Nat := do
  let h ← get
  pure (h.next + 1)

/-- `if(_root) _root->parent(nullptr)`. -/
def uproot : Option Nat → Program (Node V) Unit
  | none => pure ()
  | some root => setParent root none

namespace Avl

def new : Avl := ⟨none, 0⟩

def insert (m : Avl) (value : V) : Program (Node V) (Avl × Option Nat × Bool) := do
  let k ← rounds
  let (root, r) ← insertAt t value k m.root
  uproot root
  pure (⟨root, if r.2 then m.size + 1 else m.size⟩, r)

def erase (m : Avl) (key : K) : Program (Node V) (Avl × Bool) := do
  let k ← rounds
  let (root, deleted) ← eraseAt t k m.root key
  uproot root
  pure (⟨root, if deleted then m.size - 1 else m.size⟩, deleted)

/-- `*it`: `check_end` throws at the end. -/
def value (it : Option Nat) : Program (Node V) V := do
  let a ← deref it
  element a

/-- `erase` at an iterator. -/
def eraseIt (m : Avl) (it : Option Nat) : Program (Node V) (Avl × Bool) := do
  let e ← value it
  m.erase t (t.getKey e)

def find (m : Avl) (key : K) : Program (Node V) (Option Nat) := do
  let k ← rounds
  findNode t key k m.root

def lowerBound (m : Avl) (key : K) : Program (Node V) (Option Nat) := do
  let k ← rounds
  lowerBoundNode t key k m.root

def upperBound (m : Avl) (key : K) : Program (Node V) (Option Nat) := do
  let k ← rounds
  upperBoundNode t key k m.root

def begin (m : Avl) : Program (Node V) (Option Nat) :=
  match m.root with
  | none => pure none
  | some root => do
    let k ← rounds
    let a ← extreme .left k root
    pure (some a)

def preInc (it : Option Nat) : Program (Node V) (Option Nat) := do
  let a ← deref it
  let k ← rounds
  successor k a

def preDec (it : Option Nat) : Program (Node V) (Option Nat) := do
  let a ← deref it
  let k ← rounds
  predecessor k a

def postInc (it : Option Nat) : Program (Node V) (Option Nat × Option Nat) := do
  let next ← preInc it
  pure (it, next)

def clear (m : Avl) : Program (Node V) Avl := do
  let k ← rounds
  clearAt k m.root
  pure .new

/-- `operator[]` of `map`, what it gives, and a write to this, which leaves the key. -/
def index (m : Avl) (value : V) (write : V → V) : Program (Node V) (Avl × V) := do
  let (m, it, _) ← m.insert t value
  let a ← deref it
  let n ← load a
  store a { n with element := write n.element }
  pure (m, n.element)

/-- `for(auto i = begin(); i != end(); ++i)`: the elements met. -/
def foreachFrom : Nat → Option Nat → Program (Node V) (List V)
  | _, none => pure []
  | 0, some _ => failure
  | n + 1, some i => do
    let e ← value (some i)
    let i ← preInc (some i)
    let rest ← foreachFrom n i
    pure (e :: rest)

def foreach (m : Avl) : Program (Node V) (List V) := do
  let i ← m.begin
  foreachFrom m.size i

/-- `for(; i != last; ++i)`: the elements met. At the end the iterator can not be moved on. -/
def rangeFrom (last : Option Nat) : Nat → Option Nat → Program (Node V) (List V)
  | 0, i => if i = last then pure [] else failure
  | n + 1, i =>
    if i = last then pure []
    else do
      let e ← value i
      let i ← preInc i
      let rest ← rangeFrom last n i
      pure (e :: rest)

/-- From the lower bound of `a` to the one of `b`. -/
def range (m : Avl) (a b : K) : Program (Node V) (List V) := do
  let i ← m.lowerBound t a
  let last ← m.lowerBound t b
  rangeFrom last m.size i

/-- The loop of `operator=`. -/
def copyLoop : Nat → Avl → Option Nat → Program (Node V) Avl
  | _, m, none => pure m
  | 0, _, some _ => failure
  | n + 1, m, some i => do
    let e ← value (some i)
    let (m, _) ← m.insert t e
    let i ← preInc (some i)
    copyLoop n m i

/-- `operator=` of two objects, and the copy constructor of an empty one. -/
def assign (m other : Avl) : Program (Node V) Avl := do
  let m ← m.clear
  let i ← other.begin
  copyLoop t other.size m i

/-- `while(it != end())` with `erase(it++)` for the elements that `pred` selects and `++it`
    for the others: the elements met, in this order. -/
def eraseLoop (pred : V → Bool) : Nat → Avl → Option Nat → Program (Node V) (Avl × List V)
  | _, m, none => pure (m, [])
  | 0, _, some _ => failure
  | n + 1, m, some it => do
    let e ← value (some it)
    if pred e then
      let (old, next) ← postInc (some it)
      let (m, _) ← m.eraseIt t old
      let (m, met) ← eraseLoop pred n m next
      pure (m, e :: met)
    else
      let next ← preInc (some it)
      let (m, met) ← eraseLoop pred n m next
      pure (m, e :: met)

/-- The loop of `IterativeErase`, from `begin`, with as many rounds as there are elements. -/
def eraseWhere (m : Avl) (pred : V → Bool) : Program (Node V) (Avl × List V) := do
  let it ← m.begin
  eraseLoop t pred m.size m it

end Avl
end AvlTree
