import Mathlib.Data.List.Induction
import UpanLibs.Memory
import UpanLibs.SplitList

/-!
Blocks of raw storage, slot by slot: a slot is raw or holds a constructed element. An
element is constructed in a raw slot only, and read, assigned or destroyed where there
is one; a block is given back when all its slots are raw again. So a program with a
result destroys every element it constructs exactly once.
-/
namespace RawSlots
open Memory SplitList

variable {α : Type}

abbrev Slots (α : Type) := List (Option α)

def raw (room : Nat) : Slots α := List.replicate room none

/-- The elements of a list in the first slots, and raw slots after them. -/
def filled (l : List α) (room : Nat) : Slots α := l.map some ++ raw room

def readSlot (p : Option Nat) (i : Nat) : Program (Slots α) α := do
  let a ← deref p
  let slots ← load a
  match slots[i]? with
  | some (some v) => pure v
  | _ => failure

def setSlot (expected : Option α → Bool) (p : Option Nat) (i : Nat) (new : Option α) :
    Program (Slots α) Unit := do
  let a ← deref p
  let slots ← load a
  match slots[i]? with
  | some old => if expected old then store a (slots.set i new) else failure
  | none => failure

def construct (p : Option Nat) (i : Nat) (v : α) : Program (Slots α) Unit :=
  setSlot Option.isNone p i (some v)

def assign (p : Option Nat) (i : Nat) (v : α) : Program (Slots α) Unit :=
  setSlot Option.isSome p i (some v)

def destroySlot (p : Option Nat) (i : Nat) : Program (Slots α) Unit :=
  setSlot Option.isSome p i none

/-- `delete[]` of a buffer whose elements are destroyed. -/
def deleteSlots (p : Option Nat) : Program (Slots α) Unit :=
  match p with
  | none => pure ()
  | some a => do
    let slots ← load a
    if slots.all Option.isNone then free a else failure

section Runs

variable {h : Heap (Slots α)} {a i : Nat} {before after : Slots α} {v : α} {old : Option α}

theorem run_readSlot (here : h.block a = some (before ++ some v :: after))
    (at_ : before.length = i) : readSlot (some a) i h = some (v, h) := by
  subst at_
  rw [readSlot, run_bind (run_deref a), run_bind (run_load here), get_length]
  rfl

theorem run_setSlot {expected : Option α → Bool} (fits : expected old = true)
    (here : h.block a = some (before ++ old :: after)) (at_ : before.length = i)
    (new : Option α) :
    setSlot expected (some a) i new h = some ((), h.write a (before ++ new :: after)) := by
  subst at_
  rw [setSlot, run_bind (run_deref a), run_bind (run_load here), get_length]
  simp only [fits, if_true, set_length]
  exact run_store here _

theorem run_construct (here : h.block a = some (before ++ none :: after))
    (at_ : before.length = i) (v : α) :
    construct (some a) i v h = some ((), h.write a (before ++ some v :: after)) :=
  run_setSlot rfl here at_ _

theorem run_assign (here : h.block a = some (before ++ some v :: after))
    (at_ : before.length = i) (v' : α) :
    assign (some a) i v' h = some ((), h.write a (before ++ some v' :: after)) :=
  run_setSlot rfl here at_ _

theorem run_destroySlot (here : h.block a = some (before ++ some v :: after))
    (at_ : before.length = i) :
    destroySlot (some a) i h = some ((), h.write a (before ++ none :: after)) :=
  run_setSlot rfl here at_ _

theorem run_deleteSlots {room : Nat} (here : h.block a = some (raw room)) :
    deleteSlots (some a) h = some ((), h.erase a) := by
  have empty : (raw room : Slots α).all Option.isNone = true := by simp [raw]
  rw [deleteSlots, run_bind (run_load here), if_pos empty]
  exact run_free here

end Runs

section Loops

/-- Elements `i`, `i + 1`, ... of one buffer constructed in the same slots of another. -/
def copySlots (src dst : Option Nat) : Nat → Nat → Program (Slots α) Unit
  | 0, _ => pure ()
  | n + 1, i => do
    let v ← readSlot src i
    construct dst i v
    copySlots src dst n (i + 1)

def destroyFrom (p : Option Nat) : Nat → Nat → Program (Slots α) Unit
  | 0, _ => pure ()
  | n + 1, i => do
    destroySlot p i
    destroyFrom p n (i + 1)

/-- The last elements destroyed, from slot `i - 1` downwards. -/
def destroyBelow (p : Option Nat) : Nat → Nat → Program (Slots α) Unit
  | 0, _ => pure ()
  | n + 1, i => do
    destroySlot p (i - 1)
    destroyBelow p n (i - 1)

/-- Elements `i`, `i + 1`, ... each assigned to the slot `count` before it. -/
def shiftDown (p : Option Nat) (count : Nat) : Nat → Nat → Program (Slots α) Unit
  | 0, _ => pure ()
  | n + 1, i => do
    let v ← readSlot p i
    assign p (i - count) v
    shiftDown p count n (i + 1)

/-- Slots `i`, `i - 1`, ... each assigned the element before it. -/
def shiftUp (p : Option Nat) : Nat → Nat → Program (Slots α) Unit
  | 0, _ => pure ()
  | n + 1, i => do
    let v ← readSlot p (i - 1)
    assign p i v
    shiftUp p n (i - 1)

variable {h : Heap (Slots α)} {a b : Nat}

theorem filled_cons (l : List α) (v : α) (rest : List α) (room : Nat) :
    filled (l ++ v :: rest) room = l.map some ++ some v :: filled rest room := by
  simp [filled]

theorem filled_room (l : List α) (room : Nat) :
    (filled l (room + 1) : Slots α) = l.map some ++ none :: raw room := by
  simp [filled, raw, List.replicate_succ]

theorem filled_grow (l : List α) (v : α) (room : Nat) :
    l.map some ++ some v :: raw room = filled (l ++ [v]) room := by
  simp [filled]

theorem run_copySlots {l rest : List α} {room room' : Nat} (apart : a ≠ b)
    (src : h.block a = some (filled (l ++ rest) room))
    (dst : h.block b = some (filled l (rest.length + room'))) :
    copySlots (some a) (some b) rest.length l.length h =
      some ((), h.write b (filled (l ++ rest) room')) := by
  induction rest generalizing h l with
  | nil =>
    rw [List.length_nil, Nat.zero_add] at dst
    rw [List.append_nil, h.write_same dst]
    rfl
  | cons v rest ih =>
    have from_ : h.block a = some (l.map some ++ some v :: filled rest room) := by
      rw [src, filled_cons]
    have into : h.block b = some (l.map some ++ none :: raw (rest.length + room')) := by
      rw [dst, List.length_cons, ← filled_room]
      congr 2
      omega
    rw [List.length_cons, copySlots, run_bind (run_readSlot from_ (by simp)),
      run_bind (run_construct into (by simp) v), filled_grow]
    have next := ih (h := h.write b (filled (l ++ [v]) (rest.length + room'))) (l := l ++ [v])
      (by rw [h.block_write_other _ apart, src]; simp) (Heap.block_write_self dst _)
    rw [List.length_append, List.length_singleton] at next
    rw [next, Heap.write_write, List.append_assoc]
    rfl

theorem run_destroyFrom {before after : Slots α} {l : List α}
    (here : h.block a = some (before ++ l.map some ++ after)) :
    destroyFrom (some a) l.length before.length h =
      some ((), h.write a (before ++ raw l.length ++ after)) := by
  induction l generalizing h before with
  | nil =>
    rw [List.map_nil] at here
    rw [List.length_nil, raw, List.replicate_zero, h.write_same here]
    rfl
  | cons v l ih =>
    have first : h.block a = some (before ++ some v :: (l.map some ++ after)) := by
      rw [here]
      simp
    rw [List.length_cons, destroyFrom, run_bind (run_destroySlot first rfl)]
    have rest : (h.write a (before ++ none :: (l.map some ++ after))).block a =
        some (before ++ [none] ++ l.map some ++ after) := by
      rw [Heap.block_write_self first]
      simp
    have next := ih rest
    rw [List.length_append, List.length_singleton] at next
    rw [next, Heap.write_write]
    simp [raw, List.replicate_succ]

theorem run_destroyBelow {l gone : List α} {room : Nat}
    (here : h.block a = some (filled (l ++ gone) room)) :
    destroyBelow (some a) gone.length (l.length + gone.length) h =
      some ((), h.write a (filled l (gone.length + room))) := by
  induction gone using List.reverseRecOn generalizing h room with
  | nil =>
    rw [List.append_nil] at here
    rw [List.length_nil, Nat.zero_add, h.write_same here]
    rfl
  | append_singleton gone v ih =>
    have last : h.block a = some ((l ++ gone).map some ++ some v :: raw room) := by
      rw [here, filled_grow, List.append_assoc]
    rw [List.length_append, List.length_singleton, destroyBelow,
      run_bind (run_destroySlot last (by simp)), ← filled_room]
    have next := ih (Heap.block_write_self last (filled (l ++ gone) (room + 1)))
    rw [show l.length + (gone.length + 1) - 1 = l.length + gone.length by omega, next,
      Heap.write_write]
    congr 3
    simp only [filled]
    congr 2
    omega

theorem run_shiftDown {l gap rest : List α} {room : Nat} (some_ : gap ≠ [])
    (here : h.block a = some (filled (l ++ gap ++ rest) room)) :
    ∃ gap' : List α, gap'.length = gap.length ∧
      shiftDown (some a) gap.length rest.length (l.length + gap.length) h =
        some ((), h.write a (filled (l ++ rest ++ gap') room)) := by
  induction rest generalizing h l gap with
  | nil =>
    refine ⟨gap, rfl, ?_⟩
    rw [List.append_nil] at here ⊢
    rw [h.write_same here]
    rfl
  | cons v rest ih =>
    obtain ⟨g, gap, rfl⟩ := List.exists_cons_of_ne_nil some_
    have from_ : h.block a = some ((l ++ g :: gap).map some ++ some v :: filled rest room) := by
      rw [here, filled_cons]
    have into : h.block a = some (l.map some ++ some g :: filled (gap ++ v :: rest) room) := by
      rw [here, ← filled_cons]
      simp
    have moved : l.map some ++ some v :: filled (gap ++ v :: rest) room =
        filled (l ++ [v] ++ (gap ++ [v]) ++ rest) room := by
      rw [← filled_cons]
      simp
    have rest' := Heap.block_write_self here (filled (l ++ [v] ++ (gap ++ [v]) ++ rest) room)
    obtain ⟨gap', length, next⟩ := ih (by simp) rest'
    refine ⟨gap', by simpa using length, ?_⟩
    have place : l.length + (g :: gap).length - (g :: gap).length = l.length := by omega
    rw [List.length_cons (a := v), shiftDown, run_bind (run_readSlot from_ (by simp)), place,
      run_bind (run_assign into (by simp) v), moved]
    have shift : (l ++ [v]).length + (gap ++ [v]).length = l.length + (g :: gap).length + 1 := by
      simp
      omega
    have count : (gap ++ [v]).length = (g :: gap).length := by simp
    rw [shift, count] at next
    rw [next, Heap.write_write]
    simp

theorem run_shiftUp {l mid rest : List α} {v : α} {room : Nat}
    (here : h.block a = some (filled (l ++ mid ++ v :: rest) room)) :
    ∃ u, shiftUp (some a) mid.length (l.length + mid.length) h =
      some ((), h.write a (filled (l ++ u :: mid ++ rest) room)) := by
  induction mid using List.reverseRecOn generalizing h v rest with
  | nil =>
    refine ⟨v, ?_⟩
    rw [List.append_nil] at here
    have same : l ++ [v] ++ rest = l ++ v :: rest := by simp
    rw [same, h.write_same here]
    rfl
  | append_singleton mid m ih =>
    have from_ : h.block a = some ((l ++ mid).map some ++ some m :: filled (v :: rest) room) := by
      rw [here, ← filled_cons]
      simp
    have into : h.block a = some ((l ++ mid ++ [m]).map some ++ some v :: filled rest room) := by
      rw [here, ← filled_cons]
      simp
    have moved : (l ++ mid ++ [m]).map some ++ some m :: filled rest room =
        filled (l ++ mid ++ m :: m :: rest) room := by
      rw [← filled_cons]
      simp
    obtain ⟨u, next⟩ := ih (h := h.write a (filled (l ++ mid ++ m :: m :: rest) room))
      (Heap.block_write_self here _)
    refine ⟨u, ?_⟩
    have place : l.length + (mid.length + 1) - 1 = l.length + mid.length := by omega
    rw [List.length_append, List.length_singleton, shiftUp, place,
      run_bind (run_readSlot from_ (by simp)), run_bind (run_assign into (by simp) m), moved,
      next, Heap.write_write]
    simp

end Loops

end RawSlots
