import UpanLibs.Machine
import UpanLibs.RingWindow

/-!
The class `queue`, a ring buffer of fixed size, with single and batch transfers.
-/
namespace BoundedQueue

universe u
variable {α : Type u}

/-- The value of an integer in a `uint32_t`. -/
def uint32 (n : Int) : Nat := (n % 2 ^ 32).toNat

structure Queue (α : Type u) where
  readEnd : Nat
  writeEnd : Nat
  size : Nat
  count : Nat
  buffer : List α
  deriving DecidableEq, Repr

/-- `queue(size)` with the elements that `new T[size]` leaves in the buffer. -/
def Queue.new (buffer : List α) : Queue α := ⟨0, 0, buffer.length, 0, buffer⟩

inductive Op (α : Type u) where
  | pushBack (data : α)
  | popFront
  | front
  | write (input : List α) (n : Int)
  | read (n : Int)
  | clear
  deriving DecidableEq, Repr

/-- What a call returns, with what `read` puts in its array. -/
inductive Reply (α : Type u) where
  | done (ok : Bool)
  | element (data : α)
  | queueIsEmpty
  | transferred (n : Int) (out : List α)
  deriving DecidableEq, Repr

namespace Queue

def empty (q : Queue α) : Bool := q.count == 0

def full (q : Queue α) : Bool := q.count == q.size

def availableCapacity (q : Queue α) : Nat := uint32 (q.size - q.count)

/-- `(end + 1) % _size`. -/
def advance (size place : Nat) : Nat := uint32 (place + 1) % size

/-- The loop of `read`; it yields the array `out` and the new read end. -/
def readLoop (buffer : List α) (size : Nat) : Nat → Nat → Option (List α × Nat)
  | 0, readEnd => some ([], readEnd)
  | n + 1, readEnd =>
      match buffer[readEnd]? with
      | none => none
      | some data => (readLoop buffer size n (advance size readEnd)).map fun r =>
          (data :: r.1, r.2)

def read (n : Int) (q : Queue α) : Option (Queue α × Reply α) :=
  if n ≤ 0 ∨ q.empty then some (q, .transferred 0 [])
  else
    let n := if uint32 n > q.count then q.count else uint32 n
    match readLoop q.buffer q.size n q.readEnd with
    | none => none
    | some (out, readEnd) =>
        some ({ q with readEnd := readEnd, count := uint32 (q.count + uint32 (-n)) },
          .transferred n out)

/-- The loop of `write` over the elements of the array `in`. -/
def writeLoop : List α → Queue α → Option (Queue α)
  | [], q => some q
  | data :: input, q =>
      if q.writeEnd < q.buffer.length then
        writeLoop input { q with
          buffer := q.buffer.set q.writeEnd data, writeEnd := advance q.size q.writeEnd }
      else none

def write (input : List α) (n : Int) (q : Queue α) : Option (Queue α × Reply α) :=
  if n ≤ 0 ∨ q.full then some (q, .transferred 0 [])
  else
    let remaining := q.availableCapacity
    let n := if uint32 n > remaining then remaining else uint32 n
    if input.length < n then none
    else (writeLoop (input.take n) q).map fun q =>
      ({ q with count := uint32 (q.count + n) }, .transferred n [])

def popFront (q : Queue α) : Queue α × Reply α :=
  if q.empty then (q, .done false)
  else ({ q with readEnd := advance q.size q.readEnd, count := uint32 (q.count - 1) }, .done true)

def pushBack (data : α) (q : Queue α) : Option (Queue α × Reply α) :=
  if q.full then some (q, .done false)
  else if q.writeEnd < q.buffer.length then
    some ({ q with buffer := q.buffer.set q.writeEnd data,
                   writeEnd := advance q.size q.writeEnd, count := uint32 (q.count + 1) }, .done true)
  else none

def front (q : Queue α) : Option (Queue α × Reply α) :=
  if q.empty then some (q, .queueIsEmpty)
  else (q.buffer[q.readEnd]?).map fun data => (q, .element data)

def clear (q : Queue α) : Queue α := { q with readEnd := 0, writeEnd := 0, count := 0 }

/-- No result stands for an access outside the buffer or outside the array `in`. -/
def step (q : Queue α) : Op α → Option (Queue α × Reply α)
  | .pushBack data => pushBack data q
  | .popFront => some (popFront q)
  | .front => front q
  | .write input n => write input n q
  | .read n => read n q
  | .clear => some (clear q, .done true)

end Queue

def fifo (capacity : Nat) (xs : List α) : Op α → List α × Reply α
  | .pushBack data =>
      if xs.length = capacity then (xs, .done false) else (xs ++ [data], .done true)
  | .popFront => if xs = [] then (xs, .done false) else (xs.tail, .done true)
  | .front =>
      match xs with
      | [] => (xs, .queueIsEmpty)
      | data :: _ => (xs, .element data)
  | .write input n =>
      let stored := min n.toNat (capacity - xs.length)
      (xs ++ input.take stored, .transferred stored [])
  | .read n =>
      let delivered := min n.toNat xs.length
      (xs.drop delivered, .transferred delivered (xs.take delivered))
  | .clear => ([], .done true)

/-- The number is an `int`, and the array `in` has that many elements. -/
def Op.Proper : Op α → Prop
  | .write input n => n < 2 ^ 31 ∧ n ≤ input.length
  | .read n => n < 2 ^ 31
  | _ => True

/-- The queue holds `xs`. -/
structure Represents (capacity : Nat) (q : Queue α) (xs : List α) : Prop where
  size : q.size = capacity
  buffer : q.buffer.length = capacity
  count : q.count = xs.length
  bounded : xs.length ≤ capacity
  readEnd : q.readEnd < capacity ∨ q.readEnd = 0
  writeEnd : q.writeEnd = (q.readEnd + xs.length) % capacity
  holds : RingWindow.Holds q.buffer q.readEnd xs

theorem uint32_of_lt {n : Nat} (small : n < 2 ^ 32) : uint32 n = n := by
  unfold uint32
  omega

variable {capacity : Nat} {q : Queue α} {xs : List α}

namespace Represents

theorem empty_iff (h : Represents capacity q xs) : q.empty = true ↔ xs = [] := by
  rw [Queue.empty, beq_iff_eq, h.count, List.length_eq_zero_iff]

theorem full_iff (h : Represents capacity q xs) : q.full = true ↔ xs.length = capacity := by
  rw [Queue.full, beq_iff_eq, h.count, h.size]

theorem advance_eq (h : Represents capacity q xs) (small : capacity < 2 ^ 32) {place : Nat}
    (inside : place < capacity) : Queue.advance q.size place = (place + 1) % capacity := by
  unfold Queue.advance
  rw [h.size, ← Int.natCast_one, ← Int.natCast_add, uint32_of_lt (by omega)]

theorem readEnd_lt (h : Represents capacity q xs) (some_ : xs ≠ []) : q.readEnd < capacity := by
  have positive := List.length_pos_iff.mpr some_
  have bounded := h.bounded
  have readEnd := h.readEnd
  omega

theorem pop {x : α} {xs : List α} (h : Represents capacity q (x :: xs))
    (small : capacity < 2 ^ 32) :
    q.buffer[q.readEnd]? = some x ∧
      Represents capacity { q with readEnd := Queue.advance q.size q.readEnd, count := xs.length } xs := by
  have inside := h.readEnd_lt (by simp)
  have bounded := h.bounded
  rw [List.length_cons] at bounded
  have next := h.advance_eq small inside
  refine ⟨RingWindow.holds_head (h.buffer ▸ inside) h.holds, h.size, h.buffer, rfl,
    Nat.le_of_succ_le bounded, .inl ?_, ?_, ?_⟩
  · rw [next]
    exact Nat.mod_lt _ (by omega)
  · rw [h.writeEnd, next, Nat.mod_add_mod, List.length_cons]
    congr 1
    omega
  · rw [next, ← h.buffer]
    exact RingWindow.holds_tail h.holds

theorem push (h : Represents capacity q xs) (small : capacity < 2 ^ 32)
    (room : xs.length < capacity) (x : α) :
    q.writeEnd < q.buffer.length ∧
      Represents capacity { q with
        buffer := q.buffer.set q.writeEnd x, writeEnd := Queue.advance q.size q.writeEnd,
        count := xs.length + 1 } (xs ++ [x]) := by
  have inside : q.writeEnd < capacity := by
    rw [h.writeEnd]
    exact Nat.mod_lt _ (by omega)
  have pushed := RingWindow.holds_push (h.buffer ▸ room) h.holds x
  rw [h.buffer, ← h.writeEnd] at pushed
  refine ⟨h.buffer ▸ inside, h.size, ?_, ?_, ?_, h.readEnd, ?_, pushed⟩
  · rw [List.length_set, h.buffer]
  · rw [List.length_append, List.length_singleton]
  · rw [List.length_append, List.length_singleton]
    exact room
  · rw [h.advance_eq small inside, h.writeEnd, Nat.mod_add_mod, List.length_append,
      List.length_singleton, Nat.add_assoc]

end Represents

theorem Represents.stale (h : Represents capacity q xs) :
    Represents capacity { q with count := xs.length } xs :=
  ⟨h.size, h.buffer, rfl, h.bounded, h.readEnd, h.writeEnd, h.holds⟩

theorem readLoop_delivers (h : Represents capacity q xs) (small : capacity < 2 ^ 32) (n : Nat)
    (enough : n ≤ xs.length) :
    ∃ readEnd, Queue.readLoop q.buffer q.size n q.readEnd = some (xs.take n, readEnd) ∧
      Represents capacity { q with readEnd := readEnd, count := xs.length - n } (xs.drop n) := by
  induction n generalizing q xs with
  | zero => exact ⟨q.readEnd, rfl, h.stale⟩
  | succ n ih =>
    cases xs with
    | nil => simp at enough
    | cons x xs =>
      obtain ⟨here, popped⟩ := h.pop small
      obtain ⟨readEnd, rest, left⟩ := ih popped (Nat.le_of_succ_le_succ enough)
      simp only at rest
      refine ⟨readEnd, ?_, ?_⟩
      · rw [Queue.readLoop, here]
        simp only [rest, Option.map_some, List.take_succ_cons]
      · simpa using left

theorem read_delivers (h : Represents capacity q xs) (small : capacity < 2 ^ 32) {n : Int}
    (int : n < 2 ^ 31) :
    ∃ q', q.read n = some (q', (fifo capacity xs (.read n)).2) ∧
      Represents capacity q' (fifo capacity xs (.read n)).1 := by
  have bounded := h.bounded
  have count := h.count
  simp only [fifo]
  unfold Queue.read
  by_cases nothing : n ≤ 0 ∨ q.empty = true
  · have none_ : min n.toNat xs.length = 0 := by
      rcases nothing with negative | empty
      · omega
      · simp [h.empty_iff.mp empty]
    rw [if_pos nothing, none_]
    exact ⟨q, rfl, h⟩
  · obtain ⟨positive, _⟩ := not_or.mp nothing
    have taken : (if uint32 n > q.count then q.count else uint32 n) = min n.toNat xs.length := by
      have same : uint32 n = n.toNat := by
        unfold uint32
        omega
      rw [same, count]
      split <;> omega
    rw [if_neg nothing]
    simp only [taken]
    generalize delivered_ : min n.toNat xs.length = delivered
    have enough : delivered ≤ xs.length := by omega
    obtain ⟨readEnd, rest, left⟩ := readLoop_delivers h small delivered enough
    have less : uint32 (q.count + uint32 (-delivered)) = xs.length - delivered := by
      rw [count]
      unfold uint32
      omega
    rw [rest]
    simp only [less]
    exact ⟨_, rfl, left⟩

theorem writeLoop_stores (h : Represents capacity { q with count := xs.length } xs)
    (small : capacity < 2 ^ 32) (input : List α) (room : xs.length + input.length ≤ capacity) :
    ∃ q', Queue.writeLoop input q = some q' ∧ q'.count = q.count ∧
      Represents capacity { q' with count := xs.length + input.length } (xs ++ input) := by
  induction input generalizing q xs with
  | nil =>
    rw [List.append_nil]
    exact ⟨q, rfl, rfl, h⟩
  | cons data input ih =>
    rw [List.length_cons] at room
    obtain ⟨inside, pushed⟩ := h.push small (by omega) data
    have room' : (xs ++ [data]).length + input.length ≤ capacity := by
      rw [List.length_append, List.length_singleton]
      omega
    have stored : Represents capacity { q with
        buffer := q.buffer.set q.writeEnd data, writeEnd := Queue.advance q.size q.writeEnd,
        count := (xs ++ [data]).length } (xs ++ [data]) := pushed.stale
    obtain ⟨q', rest, count, done⟩ := ih (q := { q with
      buffer := q.buffer.set q.writeEnd data, writeEnd := Queue.advance q.size q.writeEnd })
      stored room'
    rw [List.append_assoc, List.singleton_append] at done
    refine ⟨q', ?_, count, ?_⟩
    · rw [Queue.writeLoop, if_pos inside]
      exact rest
    · convert done using 2
      simp
      omega

theorem write_stores (h : Represents capacity q xs) (small : capacity < 2 ^ 32)
    {input : List α} {n : Int} (int : n < 2 ^ 31) (array : n ≤ input.length) :
    ∃ q', q.write input n = some (q', (fifo capacity xs (.write input n)).2) ∧
      Represents capacity q' (fifo capacity xs (.write input n)).1 := by
  have bounded := h.bounded
  have count := h.count
  simp only [fifo]
  unfold Queue.write
  by_cases nothing : n ≤ 0 ∨ q.full = true
  · have none_ : min n.toNat (capacity - xs.length) = 0 := by
      rcases nothing with negative | full
      · omega
      · rw [h.full_iff.mp full]
        omega
    rw [if_pos nothing, none_, List.take_zero, List.append_nil]
    exact ⟨q, rfl, h⟩
  · obtain ⟨positive, _⟩ := not_or.mp nothing
    have room : q.availableCapacity = capacity - xs.length := by
      unfold Queue.availableCapacity uint32
      rw [h.size, count]
      omega
    have taken : (if uint32 n > q.availableCapacity then q.availableCapacity else uint32 n) =
        min n.toNat (capacity - xs.length) := by
      have same : uint32 n = n.toNat := by
        unfold uint32
        omega
      rw [same, room]
      split <;> omega
    rw [if_neg nothing]
    simp only [taken]
    generalize stored_ : min n.toNat (capacity - xs.length) = stored
    have within : stored ≤ input.length := by omega
    have length : (input.take stored).length = stored := by
      rw [List.length_take]
      omega
    obtain ⟨q', rest, count', done⟩ :=
      writeLoop_stores h.stale small (input.take stored) (by omega)
    have more : uint32 (q'.count + stored) = xs.length + (input.take stored).length := by
      rw [count', count, length]
      unfold uint32
      omega
    rw [if_neg (Nat.not_lt.mpr within), rest]
    simp only [Option.map_some, more]
    exact ⟨_, rfl, done⟩

theorem pushBack_pushes (h : Represents capacity q xs) (small : capacity < 2 ^ 32) (data : α) :
    ∃ q', q.pushBack data = some (q', (fifo capacity xs (.pushBack data)).2) ∧
      Represents capacity q' (fifo capacity xs (.pushBack data)).1 := by
  have bounded := h.bounded
  simp only [fifo]
  unfold Queue.pushBack
  by_cases full : xs.length = capacity
  · rw [if_pos (h.full_iff.mpr full), if_pos full]
    exact ⟨q, rfl, h⟩
  · obtain ⟨inside, pushed⟩ := h.push small (by omega) data
    have more : uint32 (q.count + 1) = xs.length + 1 := by
      rw [h.count]
      unfold uint32
      omega
    rw [if_neg (mt h.full_iff.mp full), if_neg full, if_pos inside, more]
    exact ⟨_, rfl, pushed⟩

theorem popFront_pops (h : Represents capacity q xs) (small : capacity < 2 ^ 32) :
    (q.popFront).2 = (fifo capacity xs .popFront).2 ∧
      Represents capacity (q.popFront).1 (fifo capacity xs .popFront).1 := by
  have bounded := h.bounded
  simp only [fifo]
  unfold Queue.popFront
  by_cases empty : xs = []
  · rw [if_pos (h.empty_iff.mpr empty), if_pos empty]
    exact ⟨rfl, h⟩
  · have count := h.count
    rw [if_neg (mt h.empty_iff.mp empty), if_neg empty]
    obtain ⟨x, xs, rfl⟩ := List.exists_cons_of_ne_nil empty
    rw [List.length_cons] at bounded count
    have less : uint32 (q.count - 1) = xs.length := by
      rw [count]
      unfold uint32
      omega
    rw [less]
    exact ⟨rfl, (h.pop small).2⟩

theorem front_peeks (h : Represents capacity q xs) (small : capacity < 2 ^ 32) :
    q.front = some (q, (fifo capacity xs .front).2) := by
  unfold Queue.front
  cases xs with
  | nil => rw [if_pos (h.empty_iff.mpr rfl)]; rfl
  | cons x xs =>
    rw [if_neg (mt h.empty_iff.mp (by simp)), (h.pop small).1]
    rfl

theorem represents_new (buffer : List α) :
    Represents buffer.length (Queue.new buffer) [] :=
  ⟨rfl, rfl, rfl, Nat.zero_le _, .inr rfl, by simp [Queue.new], RingWindow.holds_nil _ _⟩

theorem step_refines (small : capacity < 2 ^ 32) (q : Queue α) (xs : List α) (op : Op α)
    (h : Represents capacity q xs) (proper : op.Proper) :
    ∃ q', q.step op = some (q', (fifo capacity xs op).2) ∧
      Represents capacity q' (fifo capacity xs op).1 := by
  cases op with
  | pushBack data => exact pushBack_pushes h small data
  | popFront =>
    obtain ⟨reply, popped⟩ := popFront_pops h small
    exact ⟨_, by rw [Queue.step, ← reply], popped⟩
  | front =>
    have peeked := front_peeks h small
    cases xs with
    | nil => exact ⟨q, peeked, h⟩
    | cons x xs => exact ⟨q, peeked, h⟩
  | write input n => exact write_stores h small proper.1 proper.2
  | read n => exact read_delivers h small proper
  | clear =>
    exact ⟨q.clear, rfl, h.size, h.buffer, rfl, Nat.zero_le _, .inr rfl, by simp [Queue.clear, fifo],
      RingWindow.holds_nil _ _⟩

theorem queue_refines_fifo (buffer : List α) (small : buffer.length < 2 ^ 32) (ops : List (Op α))
    (proper : ∀ op ∈ ops, op.Proper) :
    ∃ q, Machine.serve Queue.step (Queue.new buffer) ops =
        some (q, (Machine.answers (fifo buffer.length) [] ops).2) ∧
      let xs := (Machine.answers (fifo buffer.length) [] ops).1
      q.count = xs.length ∧ q.count ≤ q.size ∧ q.size = buffer.length ∧
        q.writeEnd = (q.readEnd + q.count) % q.size ∧
        RingWindow.Holds q.buffer q.readEnd xs := by
  obtain ⟨q, served, h⟩ := Machine.serve_refines (Represents buffer.length)
    (step_refines small) (represents_new buffer) (Machine.admitted_of_all proper [])
  refine ⟨q, served, h.count, ?_, h.size, ?_, h.holds⟩
  · rw [h.count, h.size]
    exact h.bounded
  · rw [h.count, h.size]
    exact h.writeEnd

theorem queue_refines_fifo_wrapped :
    ∃ q, Machine.serve Queue.step (Queue.new [0, 0, 0])
        [.write [1, 2] 2, .popFront, .write [3, 4, 5] 3, .read 2, .pushBack 6, .front] =
        some (q, (Machine.answers (fifo 3) []
          [.write [1, 2] 2, .popFront, .write [3, 4, 5] 3, .read 2, .pushBack 6, .front]).2) ∧
      let xs := (Machine.answers (fifo 3) []
          [.write [1, 2] 2, .popFront, .write [3, 4, 5] 3, .read 2, .pushBack 6, .front]).1
      q.count = xs.length ∧ q.count ≤ q.size ∧ q.size = 3 ∧
        q.writeEnd = (q.readEnd + q.count) % q.size ∧
        RingWindow.Holds q.buffer q.readEnd xs :=
  queue_refines_fifo [0, 0, 0] (by decide)
    [.write [1, 2] 2, .popFront, .write [3, 4, 5] 3, .read 2, .pushBack 6, .front]
    (by simp [Op.Proper])

end BoundedQueue
