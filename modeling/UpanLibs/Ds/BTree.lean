import UpanLibs.Memory
import UpanLibs.Mem.MemPool

/-!
`BTree`: nodes with at most 32 elements, in an array with a slot more, and elements that a
`MemPool` gives out. The array of a node is the list of the slots below `m_iNoOfElements`;
reading another slot has no result, nor has a use of a node or an element that is not live.
`new` succeeds, keys and values are copied with their pointers, and a tree has no
`DestroyKeyValue`. A recursion or a walk through nodes has as many rounds as nodes were ever
made, and fails when these do not suffice.
-/
namespace BTree
open Memory (Heap)

/-- `operator <` of the keys, a strict weak order; `operator ==` is that of `BTreeKey`. -/
structure KeyOrder (K : Type) where
  less : K → K → Bool
  irrefl : ∀ a, less a a = false
  trans : ∀ {a b c}, less a b → less b c → less a c
  cotrans : ∀ {a c} (b), less a c → less a b ∨ less b c

def KeyOrder.equal {K : Type} (o : KeyOrder K) (a b : K) : Bool := !(o.less a b || o.less b a)

theorem natLess_irrefl (a : Nat) : decide (a < a) = false := by
  simp

theorem natLess_trans {a b c : Nat} (first : decide (a < b) = true)
    (second : decide (b < c) = true) : decide (a < c) = true := by
  simp only [decide_eq_true_eq] at *
  omega

theorem natLess_cotrans {a c : Nat} (b : Nat) (less : decide (a < c) = true) :
    decide (a < b) = true ∨ decide (b < c) = true := by
  simp only [decide_eq_true_eq] at *
  omega

def natKeys : KeyOrder Nat where
  less a b := decide (a < b)
  irrefl := natLess_irrefl
  trans := @natLess_trans
  cotrans := @natLess_cotrans

def maxElementsPerNode : Nat := 32

def minElementsPerNode : Nat := maxElementsPerNode / 2

structure BTreeNode where
  parentNode : Option Nat
  elements : List Nat
  deriving DecidableEq, Repr

structure BTreeElement (K V : Type) where
  key : K
  value : V
  leftNode : Option Nat
  rightNode : Option Nat
  deriving DecidableEq, Repr

structure Store (K V : Type) where
  nodes : Heap BTreeNode
  elements : Nat → Option (BTreeElement K V)

abbrev Program (K V : Type) := StateT (Store K V) Option

variable {K V σ : Type}

def deref {α : Type} (p : Option α) : Program K V α := fun s => p.map (·, s)

def node (n : Nat) : Program K V BTreeNode := fun s => (s.nodes.block n).map (·, s)

def setNode (n : Nat) (nd : BTreeNode) : Program K V Unit := fun s =>
  (s.nodes.block n).map fun _ => ((), { s with nodes := s.nodes.write n nd })

def newNode : Program K V Nat := fun s =>
  some (s.nodes.next, { s with nodes := s.nodes.add ⟨none, []⟩ })

def deleteNode (n : Nat) : Program K V Unit := fun s =>
  (s.nodes.block n).map fun _ => ((), { s with nodes := s.nodes.erase n })

def element (e : Nat) : Program K V (BTreeElement K V) := fun s => (s.elements e).map (·, s)

def setElement (e : Nat) (el : BTreeElement K V) : Program K V Unit := fun s =>
  (s.elements e).map fun _ => ((), { s with elements := Function.update s.elements e (some el) })

def setParentNode (n : Nat) (p : Option Nat) : Program K V Unit := do
  let nd ← node n
  setNode n { nd with parentNode := p }

def setElements (n : Nat) (es : List Nat) : Program K V Unit := do
  let nd ← node n
  if es.length ≤ maxElementsPerNode + 1 then setNode n { nd with elements := es } else failure

def setLeftNode (e : Nat) (p : Option Nat) : Program K V Unit := do
  let el ← element e
  setElement e { el with leftNode := p }

def setRightNode (e : Nat) (p : Option Nat) : Program K V Unit := do
  let el ← element e
  setElement e { el with rightNode := p }

def rounds : Program K V Nat := fun s => some (s.nodes.next + 1, s)

section Nodes

def isLeaf : List Nat → Program K V Bool
  | [] => pure true
  | e :: es => do
    let el ← element e
    if es = [] ∧ el.rightNode ≠ none then pure false
    else if el.leftNode ≠ none then pure false
    else isLeaf es

/-- `if(pChild) pChild->SetParentNode(a)`. -/
def adoptChild (a : Nat) : Option Nat → Program K V Unit
  | none => pure ()
  | some c => setParentNode c (some a)

/-- `SetParentNode(a)` for the children of all these elements. -/
def adopt (a : Nat) : List Nat → Program K V Unit
  | [] => pure ()
  | e :: es => do
    let el ← element e
    adoptChild a el.leftNode
    if es = [] then adoptChild a el.rightNode else adopt a es

def removeByIndex (n i : Nat) : Program K V (Option Nat) := do
  let nd ← node n
  match nd.elements[i]? with
  | none => pure none
  | some e =>
    setElements n (nd.elements.eraseIdx i)
    pure (some e)

variable (o : KeyOrder K)

/-- The first of the elements whose key is greater, counted from `i`. -/
def firstAbove (key : K) : List Nat → Nat → Program K V (Option Nat)
  | [], _ => pure none
  | e :: es, i => do
    let el ← element e
    if o.less key el.key then pure (some i) else firstAbove key es (i + 1)

/-- The first of the elements whose key is equal, counted from `i`. -/
def firstEqual (key : K) : List Nat → Nat → Program K V (Option Nat)
  | [], _ => pure none
  | e :: es, i => do
    let el ← element e
    if o.equal key el.key then pure (some i) else firstEqual key es (i + 1)

/-- `BTreeNode::Insert`. -/
def nodeInsert (n e : Nat) : Program K V Int := do
  let nd ← node n
  if nd.elements.length = maxElementsPerNode + 1 then pure (-1)
  else
    match nd.elements.getLast? with
    | none =>
      setElements n [e]
      pure 0
    | some last =>
      let lastElement ← element last
      let new ← element e
      if o.less lastElement.key new.key || o.equal lastElement.key new.key then
        setElements n (nd.elements ++ [e])
        setRightNode last new.leftNode
        pure nd.elements.length
      else
        let i ← firstAbove o new.key nd.elements 0
        match i with
        | none => pure (-2)
        | some i =>
          setElements n (nd.elements.take i ++ e :: nd.elements.drop i)
          if let some before := (nd.elements.take i).getLast? then
            setRightNode before new.leftNode
          if let some next := (nd.elements.drop i).head? then
            setLeftNode next new.rightNode
          pure i

/-- `BTreeNode::Remove`. -/
def remove (n : Nat) (key : K) : Program K V (Option Nat) := do
  let nd ← node n
  match nd.elements.head?, nd.elements.getLast? with
  | some first, some last =>
    let firstElement ← element first
    let lastElement ← element last
    if o.less key firstElement.key || o.less lastElement.key key then pure none
    else
      let i ← firstEqual o key nd.elements 0
      match i with
      | none => pure none
      | some i => removeByIndex n i
  | _, _ => pure none

def getInsertionNode (n : Nat) (key : K) : Program K V (Option Nat) := do
  let nd ← node n
  let leaf ← isLeaf nd.elements
  if leaf then pure (some n)
  else
    let last ← deref nd.elements.getLast?
    let lastElement ← element last
    if o.less lastElement.key key || o.equal lastElement.key key then pure lastElement.rightNode
    else
      let i ← firstAbove o key nd.elements 0
      match i with
      | none => pure none
      | some i =>
        let e ← deref nd.elements[i]?
        let el ← element e
        pure el.leftNode

/-- `iDirection`: 0 for found, 1 for left and 2 for right. -/
inductive Direction where
  | found
  | left
  | right
  deriving DecidableEq, Repr

def search (key : K) (elements : List Nat) : Nat → Nat → Nat →
    Program K V (Option (Nat × Direction))
  | 0, _, _ => failure
  | k + 1, iStart, iEnd => do
    if iStart = iEnd then
      let e ← deref elements[iStart]?
      let el ← element e
      pure (some (e, if o.equal key el.key then .found
        else if o.less key el.key then .left else .right))
    else if iStart < iEnd then
      let iMid := iStart + (iEnd - iStart) / 2
      let e ← deref elements[iMid]?
      let el ← element e
      if o.equal key el.key then pure (some (e, .found))
      else if o.less el.key key then
        search key elements k (if iMid < iEnd then iMid + 1 else iMid) iEnd
      else
        search key elements k iStart (if iStart < iMid then iMid - 1 else iMid)
    else pure none

def splitNode (n e : Nat) : Program K V (Option (Nat × Nat)) := do
  let i ← nodeInsert o n e
  if i < 0 then pure none
  else
    let new ← newNode
    let nd ← node n
    let iMid := nd.elements.length / 2
    let mid ← deref nd.elements[iMid]?
    setElements new (nd.elements.drop (iMid + 1))
    setLeftNode mid (some n)
    setRightNode mid (some new)
    setParentNode new nd.parentNode
    adopt new (nd.elements.drop (iMid + 1))
    setElements n (nd.elements.take iMid)
    pure (some (new, mid))

end Nodes

section Searching

variable (o : KeyOrder K)

def findElement (key : K) : Nat → Option Nat → Program K V (Option (Nat × Nat))
  | _, none => pure none
  | 0, some _ => failure
  | k + 1, some n => do
    let nd ← node n
    if nd.elements.length = 0 then pure none
    else
      let found ← search o key nd.elements nd.elements.length 0 (nd.elements.length - 1)
      match found with
      | none => pure none
      | some (e, .found) => pure (some (n, e))
      | some (e, .left) => do
        let el ← element e
        findElement key k el.leftNode
      | some (e, .right) => do
        let el ← element e
        findElement key k el.rightNode

/-- `while(!pNode->IsLeaf()) pNode = pNode->GetInsertionNode(*pKey)`. -/
def insertionLeaf (key : K) : Nat → Option Nat → Program K V Nat
  | 0, _ => failure
  | k + 1, n => do
    let n ← deref n
    let nd ← node n
    let leaf ← isLeaf nd.elements
    if leaf then pure n
    else
      let next ← getInsertionNode o n key
      insertionLeaf key k next

def highest : Nat → Option Nat → Program K V (Option (Nat × Nat))
  | _, none => pure none
  | 0, some _ => failure
  | k + 1, some n => do
    let nd ← node n
    match nd.elements.getLast? with
    | none => pure none
    | some e =>
      let el ← element e
      match el.rightNode with
      | some r => highest k (some r)
      | none =>
        let leaf ← isLeaf nd.elements
        pure (if leaf then some (n, e) else none)

def lowest : Nat → Option Nat → Program K V (Option (Nat × Nat))
  | _, none => pure none
  | 0, some _ => failure
  | k + 1, some n => do
    let nd ← node n
    match nd.elements.head? with
    | none => pure none
    | some e =>
      let el ← element e
      match el.leftNode with
      | some l => lowest k (some l)
      | none =>
        let leaf ← isLeaf nd.elements
        pure (if leaf then some (n, e) else none)

end Searching

section Balance

variable (o : KeyOrder K)

def swapElement (e1 e2 : Nat) : Program K V Unit := do
  let kv ← element e1
  let el2 ← element e2
  setElement e1 { kv with key := el2.key, value := el2.value }
  let el2 ← element e2
  setElement e2 { el2 with key := kv.key, value := kv.value }

/-- The index in the parent of the element beside a child, and `bLeftChild`. -/
def childIndex (n : Nat) : List Nat → Nat → Program K V (Option (Nat × Bool))
  | [], _ => pure none
  | e :: es, i => do
    let el ← element e
    if el.leftNode = some n then pure (some (i, true))
    else if es = [] ∧ el.rightNode = some n then pure (some (i, false))
    else childIndex n es (i + 1)

/-- The first element of the right node goes through the parent's to the end of the left. -/
def borrowFromRight (leftNode rightNode parentElement : Nat) : Program K V Unit := do
  let rightElement ← removeByIndex rightNode 0
  let rightElement ← deref rightElement
  swapElement parentElement rightElement
  let left ← node leftNode
  let last ← deref left.elements.getLast?
  let el ← element rightElement
  setRightNode rightElement el.leftNode
  let lastElement ← element last
  setLeftNode rightElement lastElement.rightNode
  setElements leftNode (left.elements ++ [rightElement])
  let el ← element rightElement
  adoptChild leftNode el.rightNode

/-- The last element of the left node goes through the parent's to the front of the right. -/
def borrowFromLeft (leftNode rightNode parentElement : Nat) : Program K V Unit := do
  let left ← node leftNode
  let leftElement ← removeByIndex leftNode (left.elements.length - 1)
  let leftElement ← deref leftElement
  swapElement parentElement leftElement
  let right ← node rightNode
  let first ← deref right.elements.head?
  let el ← element leftElement
  setLeftNode leftElement el.rightNode
  let firstElement ← element first
  setRightNode leftElement firstElement.leftNode
  setElements rightNode (leftElement :: right.elements)
  let el ← element leftElement
  adoptChild rightNode el.leftNode

/-- The parent's element and those of the right node go to the end of the left node. -/
def join (leftNode rightNode parentElement : Nat) : Program K V Unit := do
  let left ← node leftNode
  let right ← node rightNode
  adopt leftNode right.elements
  let last ← deref left.elements.getLast?
  let lastElement ← element last
  setLeftNode parentElement lastElement.rightNode
  let first ← deref right.elements.head?
  let firstElement ← element first
  setRightNode parentElement firstElement.leftNode
  setElements leftNode (left.elements ++ parentElement :: right.elements)

def rebalance (root : Nat) : Nat → Nat → Program K V (Nat × Bool)
  | 0, _ => failure
  | k + 1, n =>
    if n = root then pure (root, true)
    else do
      let nd ← node n
      if minElementsPerNode ≤ nd.elements.length then pure (root, true)
      else
        let p ← deref nd.parentNode
        let parent ← node p
        let found ← childIndex n parent.elements 0
        match found with
        | none => pure (root, false)
        | some (iParentIndex, bLeftChild) =>
          let parentElement ← deref parent.elements[iParentIndex]?
          let pe ← element parentElement
          if bLeftChild then
            let rightNode ← deref pe.rightNode
            let right ← node rightNode
            if minElementsPerNode < right.elements.length then
              borrowFromRight n rightNode parentElement
              pure (root, true)
            else
              join n rightNode parentElement
              let others := parent.elements.eraseIdx iParentIndex
              setElements p others
              if others.length = 0 then
                deleteNode rightNode
                pure (n, true)
              else
                if let some next := others[iParentIndex]? then setLeftNode next (some n)
                deleteNode rightNode
                rebalance root k p
          else
            let leftNode ← deref pe.leftNode
            let left ← node leftNode
            if minElementsPerNode < left.elements.length then
              borrowFromLeft leftNode n parentElement
              pure (root, true)
            else
              join leftNode n parentElement
              let others := parent.elements.dropLast
              setElements p others
              if others.length = 0 then
                deleteNode n
                pure (n, true)
              else if iParentIndex ≠ others.length then pure (root, false)
              else
                deleteNode n
                rebalance root k p

def insertElement : Nat → Nat → Option Nat → Nat → Program K V (Nat × Bool)
  | _, root, none, _ => pure (root, false)
  | 0, _, some _, _ => failure
  | k + 1, root, some n, e => do
    let nd ← node n
    if nd.elements.length < maxElementsPerNode then
      let i ← nodeInsert o n e
      pure (root, 0 ≤ i)
    else
      let split ← splitNode o n e
      let (new, mid) ← deref split
      let nd ← node n
      match nd.parentNode with
      | some p => insertElement k root (some p) mid
      | none =>
        let root ← newNode
        setParentNode n (some root)
        setParentNode new (some root)
        insertElement k root (some root) mid

end Balance

section Trees

structure Tree (K V : Type) where
  store : Store K V
  pool : MemPool.Pool
  rootNode : Nat
  totalElements : Nat
  maxElements : Int
  leftDeletion : Bool

inductive Outcome where
  | returned (b : Bool)
  | threw (text : String)
  deriving DecidableEq, Repr

/-- The pool that the constructor makes: one chunk with all elements. -/
def poolSetup (iMaxElements : Int) (sizeofT : Nat) (malloc : Nat → Nat) : MemPool.Setup :=
  let n := if iMaxElements < 1 then 1024 else iMaxElements.toNat
  ⟨n, n, sizeofT, malloc⟩

def create (iMaxElements : Int) : Tree K V where
  store := ⟨Heap.empty.add ⟨none, []⟩, fun _ => none⟩
  pool := ⟨[], [], 0, []⟩
  rootNode := 0
  totalElements := 0
  maxElements := iMaxElements
  leftDeletion := true

def setMaxElements (t : Tree K V) (iSize : Int) : Tree K V :=
  if 0 < iSize then { t with maxElements := iSize } else t

def validateTreeSize (t : Tree K V) : Bool :=
  if t.maxElements < 0 then true else (t.totalElements : Int) < t.maxElements

/-- The element, if the pool has one, is constructed with the key and the value. -/
def createElement (c : MemPool.Setup) (t : Tree K V) (key : K) (value : V) :
    Tree K V × Option Nat :=
  match MemPool.allocate c t.pool false with
  | (pool, .object e) =>
    ({ t with
        pool := pool
        store := { t.store with
          elements := Function.update t.store.elements e (some ⟨key, value, none, none⟩) } }, some e)
  | (pool, _) => ({ t with pool := pool }, none)

/-- `m_pElementMemPool->release`, which throws when the element is not of the pool. -/
def destroyElement (t : Tree K V) (e : Nat) : Tree K V × Option String :=
  match MemPool.release t.pool e with
  | (pool, .error text) => ({ t with pool := pool }, some text)
  | (pool, _) =>
    ({ t with
        pool := pool
        store := { t.store with elements := Function.update t.store.elements e none } }, none)

variable (o : KeyOrder K) (c : MemPool.Setup)

def insert (t : Tree K V) (key : K) (value : V) : Option (Tree K V × Outcome) :=
  if !validateTreeSize t then some (t, .returned false)
  else
    match createElement c t key value with
    | (t, none) =>
      some (t, .threw "BTree::CreateElement: Failed to allocate memory for BTreeElement")
    | (t, some e) => do
      let ((root, ok), store) ← (do
        let k ← rounds
        let n ← insertionLeaf o key k (some t.rootNode)
        insertElement o k t.rootNode (some n) e : Program K V (Nat × Bool)) t.store
      let total := if ok then t.totalElements + 1 else t.totalElements
      some ({ t with store := store, rootNode := root, totalElements := total }, .returned ok)

def find (t : Tree K V) (key : K) : Option (Option V) := do
  let (found, store) ← (do
    let k ← rounds
    findElement o key k (some t.rootNode) : Program K V (Option (Nat × Nat))) t.store
  match found with
  | none => some none
  | some (_, e) => do
    let el ← store.elements e
    some (some el.value)

def setValue (t : Tree K V) (key : K) (value : V) : Option (Tree K V × Bool) := do
  let (found, store) ← (do
    let k ← rounds
    findElement o key k (some t.rootNode) : Program K V (Option (Nat × Nat))) t.store
  match found with
  | none => some (t, false)
  | some (_, e) => do
    let el ← store.elements e
    let (_, store) ← setElement e { el with value := value } store
    some ({ t with store := store }, true)

def deleteFromLeaf (t : Tree K V) (n : Nat) (key : K) : Option (Tree K V × Outcome) := do
  let (removed, store) ← (do
    let nd ← node n
    let leaf ← isLeaf nd.elements
    if leaf then remove o n key else pure none : Program K V (Option Nat)) t.store
  match removed with
  | none => some (t, .returned false)
  | some e =>
    match destroyElement { t with store := store } e with
    | (t, some text) => some (t, .threw text)
    | (t, none) => do
      let ((root, ok), store) ← (do
        let k ← rounds
        rebalance t.rootNode k n : Program K V (Nat × Bool)) t.store
      some ({ t with store := store, rootNode := root, totalElements := t.totalElements - 1 },
        .returned ok)

/-- The node where a deletion takes an element away, after the swap that an inner node needs,
    and the element that was swapped. -/
def nodeForDelete (t : Tree K V) (n e : Nat) : Program K V (Option (Nat × Option Nat)) := do
  let nd ← node n
  let leaf ← isLeaf nd.elements
  if leaf then pure (some (n, none))
  else
    let k ← rounds
    let el ← element e
    let child ← if t.leftDeletion then highest k el.leftNode else lowest k el.rightNode
    match child with
    | none => pure none
    | some (n, e') => pure (some (n, some e'))

def delete (t : Tree K V) (key : K) : Option (Tree K V × Outcome) := do
  let (found, _) ← (do
    let k ← rounds
    findElement o key k (some t.rootNode) : Program K V (Option (Nat × Nat))) t.store
  match found with
  | none => some (t, .returned false)
  | some (n, e) => do
    let (place, _) ← nodeForDelete t n e t.store
    match place with
    | none => some ({ t with leftDeletion := !t.leftDeletion }, .returned false)
    | some (n, none) => deleteFromLeaf o t n key
    | some (n, some e') => do
      let (_, store) ← swapElement e e' t.store
      deleteFromLeaf o { t with store := store, leftDeletion := !t.leftDeletion } n key

end Trees

section Traversal

/-- An `InOrderVisitor`: its state after a visit, and whether it aborts. -/
structure Visitor (K V σ : Type) where
  visit : σ → K → V → σ
  abort : σ → Bool

variable (v : Visitor K V σ)

/-- The loop over the elements of a node, with the visit of a child. -/
def traverseElements (child : Option Nat → σ → Program K V σ) : List Nat → σ → Program K V σ
  | [], st => pure st
  | e :: es, st => do
    let el ← element e
    let st ← child el.leftNode st
    if v.abort st then pure st
    else
      let st := v.visit st el.key el.value
      if es = [] then child el.rightNode st else traverseElements child es st

def traverse : Nat → Option Nat → σ → Program K V σ
  | k, n, st =>
    if v.abort st then pure st
    else
      match k, n with
      | _, none => pure st
      | 0, some _ => failure
      | k + 1, some n => do
        let nd ← node n
        traverseElements v (traverse k) nd.elements st

def inOrderTraverse (t : Tree K V) (st : σ) : Option σ := do
  let (st, _) ← (do
    let k ← rounds
    traverse v k (some t.rootNode) st : Program K V σ) t.store
  some st

end Traversal
end BTree
