import UpanLibs.Memory
import UpanLibs.Transition

/-!
The class `shared_ptr` over any kinds of handles and objects. A handle may be a member of
an object: it is destroyed when the object is deleted, and cannot be used after that.
Reference counts are on the heap, and unbounded.
-/
namespace SharedPtr
open Memory

variable {H O : Type}

/-- Which handles are members of which objects, in the order in which they are destroyed. -/
structure Layout (H O : Type) where
  members : O → List H
  home : H → Option O
  mem_members : ∀ h o, h ∈ members o ↔ home h = some o

structure Handle (O : Type) where
  ptr : Option O
  refCount : Option Nat
  deriving DecidableEq

def Handle.empty : Handle O := ⟨none, none⟩

/-- The handles that are alive, the reference counts, the objects that were given to a
    constructor or `reset`, and how often each object was deleted. -/
structure World (H O : Type) where
  handles : H → Option (Handle O)
  counts : Heap Nat
  adopted : List O
  deletes : O → Nat

inductive Op (H O : Type) where
  | construct (h : H) (ptr : Option O)
  | copyConstruct (h r : H)
  | moveConstruct (h r : H)
  | cast (h r : H) (found : Bool)
  | assign (h r : H)
  | moveAssign (h r : H)
  | reset (h : H) (newPtr : Option O)
  | destruct (h : H)

namespace World

def empty : World H O := ⟨fun _ => none, .empty, [], fun _ => 0⟩

variable [DecidableEq H]

def put (w : World H O) (h : H) (p : Option (Handle O)) : World H O :=
  { w with handles := Function.update w.handles h p }

@[simp]
theorem put_self (w : World H O) (h : H) (p : Option (Handle O)) : (w.put h p).handles h = p :=
  Function.update_self ..

@[simp]
theorem put_other (w : World H O) {h k : H} (p : Option (Handle O)) (other : k ≠ h) :
    (w.put h p).handles k = w.handles k := Function.update_of_ne other ..

/-- `_refCount->inc()`, if there is one. -/
def inc (w : World H O) : Option Nat → Option (World H O)
  | none => some w
  | some c => (w.counts.block c).map fun n => { w with counts := w.counts.write c (n + 1) }

/-- `delete _refCount`. -/
def deleteCount (w : World H O) : Option Nat → Option (World H O)
  | none => some w
  | some c => (w.counts.block c).map fun _ => { w with counts := w.counts.erase c }

def own (w : World H O) (h : H) : Option O → World H O
  | none => w.put h (some .empty)
  | some o => { w with
      counts := w.counts.add 1
      adopted := o :: w.adopted }.put h (some ⟨some o, some w.counts.next⟩)

end World

section Destroy

variable [DecidableEq H] [DecidableEq O] (layout : Layout H O)

/-- The members of an object that are alive are destroyed one after the other. -/
def destroyMembers (destroy : World H O → H → Option (World H O)) :
    World H O → List H → Option (World H O)
  | w, [] => some w
  | w, m :: ms =>
    match w.handles m with
    | none => destroyMembers destroy w ms
    | some _ =>
      match destroy w m with
      | none => none
      | some w => destroyMembers destroy (w.put m none) ms

/-- `delete _ptr`. -/
def deleteObject (destroy : World H O → H → Option (World H O)) (w : World H O) :
    Option O → Option (World H O)
  | none => some w
  | some o => destroyMembers destroy
      { w with deletes := Function.update w.deletes o (w.deletes o + 1) } (layout.members o)

/-- What `destroy` does after `delete _ptr`: the handle must still be there. -/
def forget (w : World H O) (h : H) : Option (World H O) :=
  match w.handles h with
  | none => none
  | some p => (w.deleteCount p.refCount).map fun w => w.put h (some .empty)

/-- `destroy()`. Deleting an object destroys the handles in it, and so on, to a depth. -/
def destroy : Nat → World H O → H → Option (World H O)
  | 0, _, _ => none
  | depth + 1, w, h =>
    match w.handles h with
    | none => none
    | some p =>
      match p.refCount with
      | none => some w
      | some c =>
        match w.counts.block c with
        | none => none
        | some n =>
          let w := { w with counts := w.counts.write c (n - 1) }
          if n = 1 then
            match deleteObject layout (destroy depth) w p.ptr with
            | none => none
            | some w => forget w h
          else some w

def World.destroy (w : World H O) (h : H) : Option (World H O) :=
  SharedPtr.destroy layout (w.adopted.length + 1) w h

/-- One call; it has no result when it uses a handle that is not alive, or a reference
    count that was deleted. -/
def step (w : World H O) : Op H O → Option (World H O)
  | .construct h ptr => match w.handles h with
    | some _ => none
    | none => some (w.own h ptr)
  | .copyConstruct h r => match w.handles h, w.handles r with
    | none, some q => (w.put h (some q)).inc q.refCount
    | _, _ => none
  | .moveConstruct h r => match w.handles h, w.handles r with
    | none, some q => some ((w.put h (some q)).put r (some .empty))
    | _, _ => none
  | .cast h r found => match w.handles h, w.handles r with
    | none, some q =>
      if q.ptr.isSome ∧ found then (w.put h (some q)).inc q.refCount
      else some (w.put h (some .empty))
    | _, _ => none
  | .assign h r =>
    if h = r then (w.handles h).map fun _ => w
    else match w.destroy layout h with
      | none => none
      | some w => match w.handles h, w.handles r with
        | some _, some q => (w.put h (some q)).inc q.refCount
        | _, _ => none
  | .moveAssign h r => match w.destroy layout h with
    | none => none
    | some w => match w.handles h, w.handles r with
      | some _, some q => some ((w.put h (some q)).put r (some .empty))
      | _, _ => none
  | .reset h newPtr => match w.handles h with
    | none => none
    | some p =>
      if p.ptr = newPtr then some w
      else match w.destroy layout h with
        | none => none
        | some w => (w.handles h).map fun _ => w.own h newPtr
  | .destruct h => (w.destroy layout h).map fun w => w.put h none

end Destroy

end SharedPtr
