import Mathlib.Data.List.AList
import Mathlib.Data.List.Sort
import Mathlib.Logic.Function.Basic
import Mathlib.Logic.Relation
import UpanLibs.Fallible
import UpanLibs.Machine

/-!
The class `UIObjectManager` over any type of object references. An object is drawn through
its recorded parents and its children; what it draws, its locks and the events dispatched to
it are left out.
-/
namespace UIObjectManager

universe u
variable {α : Type u}

def MAX_OBJECTS_UPDATE_QUEUE : Nat := 20

inductive Fault where
  | noParent
  | sameObject
  | alreadyChild
  deriving DecidableEq

def Fault.message : Fault → String
  | .noParent => "there is no parent UIObject for this child"
  | .sameObject => "parent and child can't be same"
  | .alreadyChild => "UIObject is already a child of another UIObject"

/-- The maps, the focused objects and the redraw queue, with the z-index that each object
    has. The last three are the history of the run: the z-index an object had when it was
    added, the objects that `remove` took out and that were not added since, and the
    objects that were deleted. -/
structure Manager (α : Type u) [DecidableEq α] where
  parentChildMap : AList fun _ : α => List α
  childParentMap : AList fun _ : α => α
  keyboardFocusedObject : Option α
  mouseFocusedObject : Option α
  modifiedUIObjects : List α
  zIndex : α → Int
  zAdded : α → Int
  removed : List α
  destroyed : List α

variable [DecidableEq α]

namespace Manager

def listOf (s : Manager α) (p : α) : List α := (s.parentChildMap.lookup p).getD []

def parentOf (s : Manager α) (c : α) : Option α := s.childParentMap.lookup c

def setList (s : Manager α) (p : α) (list : List α) : Manager α :=
  { s with parentChildMap := s.parentChildMap.insert p list }

def forget (s : Manager α) (c : α) : Manager α :=
  { s with childParentMap := s.childParentMap.erase c }

def parent (s : Manager α) (c : α) : Except Fault α :=
  match s.parentOf c with
  | none => .error .noParent
  | some p => .ok p

/-- The `operator[]` of the map enters an empty list for a parent it does not have. -/
def children (s : Manager α) (p : α) : Manager α × List α :=
  (s.setList p (s.listOf p), s.listOf p)

def comp (s : Manager α) (nv ev : α) : Prop := s.zIndex nv < s.zIndex ev

instance (s : Manager α) : DecidableRel s.comp :=
  fun nv ev => inferInstanceAs (Decidable (s.zIndex nv < s.zIndex ev))

def add (s : Manager α) (p c : α) : Except Fault (Manager α) :=
  if p = c then .error .sameObject
  else
    match s.parentOf c with
    | some _ => .error .alreadyChild
    | none =>
        let s' := s.setList p ((s.listOf p).orderedInsert s.comp c)
        .ok { s' with
          childParentMap := s.childParentMap.insert c p
          zAdded := Function.update s.zAdded c (s.zIndex c)
          removed := s.removed.filter (· ≠ c) }

def remove (s : Manager α) (c : α) : Except Fault (Manager α) := do
  let p ← s.parent c
  .ok (s.setList p ((s.listOf p).erase c))

def unfocused (focus : Option α) (o : α) : Option α := if focus = some o then none else focus

/-- What `destroy` does after the children, up to `delete`. -/
def purge (s : Manager α) (o : α) : Manager α :=
  { s with
    parentChildMap := s.parentChildMap.erase o
    modifiedUIObjects := s.modifiedUIObjects.erase o
    keyboardFocusedObject := unfocused s.keyboardFocusedObject o
    mouseFocusedObject := unfocused s.mouseFocusedObject o
    destroyed := o :: s.destroyed }

def records (s : Manager α) : Nat := s.childParentMap.keys.length

/-- `destroy` in a state with at most that many child to parent records: each call erases
    one, and with none left `remove` throws. -/
def destroyWith : Nat → Manager α → α → Except Fault (Manager α)
  | 0, _, _ => .error .noParent
  | n + 1, s, o => do
      let s ← s.remove o
      let s := s.forget o
      let s ← (s.listOf o).foldlM (destroyWith n) s
      .ok (s.purge o)

def destroy (s : Manager α) (o : α) : Except Fault (Manager α) := destroyWith s.records s o

variable (root : α)

def queueForRedraw (s : Manager α) (o : α) : Manager α :=
  if s.modifiedUIObjects.length = MAX_OBJECTS_UPDATE_QUEUE ∨ root = o then
    { s with modifiedUIObjects := [root] }
  else if s.modifiedUIObjects = [] ∨ s.modifiedUIObjects.getLast? ≠ some o then
    { s with modifiedUIObjects := s.modifiedUIObjects ++ [o] }
  else s

def draw (s : Manager α) : Manager α × List α :=
  ({ s with modifiedUIObjects := [] },
    s.modifiedUIObjects.dedup ++ if s.modifiedUIObjects = [] then [] else [root])

def new (proxyParent : α) (autoRefresh : Bool) (zIndex : α → Int) : Except Fault (Manager α) := do
  let s : Manager α := ⟨∅, ∅, some root, none, [], zIndex, zIndex, [], []⟩
  let s ← s.add proxyParent root
  let s := s.setList root []
  .ok (if autoRefresh then s.queueForRedraw root root else s)

end Manager

inductive Op (α : Type u) where
  | add (p c : α)
  | remove (c : α)
  | destroy (o : α)
  | queueForRedraw (o : α)
  | draw
  | setKeyboardFocus (o : α)
  | setMouseFocus (o : α)
  | children (p : α)
  | zIndex (o : α) (z : Int)

def Op.args : Op α → List α
  | .add p c => [p, c]
  | .remove c => [c]
  | .destroy o | .queueForRedraw o | .setKeyboardFocus o | .setMouseFocus o => [o]
  | .draw => []
  | .children p => [p]
  | .zIndex o _ => [o]

def settle (s : Manager α) : Except Fault (Manager α) → Manager α × Except Fault (List α)
  | .error fault => (s, .error fault)
  | .ok t => (t, .ok [])

def Manager.taken (s : Manager α) (c : α) : Manager α := { s with removed := c :: s.removed }

/-- A call answers with the objects it draws or lists. -/
def step (root : α) (s : Manager α) : Op α → Manager α × Except Fault (List α)
  | .add p c => settle s (s.add p c)
  | .remove c => settle s ((s.remove c).map (·.taken c))
  | .destroy o => settle s (s.destroy o)
  | .queueForRedraw o => (s.queueForRedraw root o, .ok [])
  | .draw => ((s.draw root).1, .ok (s.draw root).2)
  | .setKeyboardFocus o => ({ s with keyboardFocusedObject := some o }, .ok [])
  | .setMouseFocus o => ({ s with mouseFocusedObject := some o }, .ok [])
  | .children p => ((s.children p).1, .ok (s.children p).2)
  | .zIndex o z => ({ s with zIndex := Function.update s.zIndex o z }, .ok [])

end UIObjectManager
