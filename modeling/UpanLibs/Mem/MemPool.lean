import Mathlib.Data.List.Sort
import Mathlib.Data.List.Nodup
import Mathlib.Tactic.Ring

/-!
`MemPool`: a free vector and an ordered set of addresses over chunks that `malloc`
returns. The vector and the set are lists, the set in the order of its keys. A
factory constructs at the address it is given or throws, and neither it nor a
destructor calls the pool. `malloc i` is the block of the `i`-th chunk.
-/
namespace MemPool

/-- What does not change in the life of a pool. -/
structure Setup where
  maxElements : Nat
  chunkSize : Nat
  sizeofT : Nat
  malloc : Nat → Nat

structure Pool where
  freePool : List Nat
  allocatedPool : List Nat
  allocatedChunkCount : Nat
  allocatedChunks : List Nat
  deriving DecidableEq

inductive Outcome where
  | empty
  | object (address : Nat)
  | factoryThrew
  | released
  | error (text : String)
  deriving DecidableEq

/-- `set::insert` and `set::erase`; the latter tells whether the key was there. -/
def setInsert (key : Nat) (keys : List Nat) : List Nat :=
  if key ∈ keys then keys else keys.orderedInsert (· ≤ ·) key

def setErase (key : Nat) (keys : List Nat) : List Nat × Bool :=
  (keys.erase key, decide (key ∈ keys))

variable (c : Setup)

def Setup.maxChunks : Nat := c.maxElements / c.chunkSize

def create : Except String Pool :=
  if c.maxElements % c.chunkSize ≠ 0 then
    .error ("MemPool creation failed. MemPool size: " ++ toString c.maxElements ++
      " is not a multiple of chunk size: " ++ toString c.chunkSize)
  else .ok ⟨[], [], 0, []⟩

/-- The slots of the chunk at `address`, in the order in which they are pushed. -/
def Setup.chunk (address : Nat) : List Nat :=
  (List.range c.chunkSize).map fun i => address + i * c.sizeofT

def allocateChunk (p : Pool) : Pool × Bool :=
  if 0 < c.maxElements ∧ p.allocatedChunkCount = c.maxChunks then (p, false)
  else
    let address := c.malloc p.allocatedChunkCount
    ({ p with
        allocatedChunks := p.allocatedChunks ++ [address]
        freePool := p.freePool ++ c.chunk address
        allocatedChunkCount := p.allocatedChunkCount + 1 }, true)

/-- `throws` is whether the factory throws. -/
def allocate (p : Pool) (throws : Bool) : Pool × Outcome :=
  let p := if p.freePool.isEmpty then (allocateChunk c p).1 else p
  match p.freePool.getLast? with
  | none => (p, .empty)
  | some allocatedAddress =>
    if throws then (p, .factoryThrew)
    else
      ({ p with
          freePool := p.freePool.dropLast
          allocatedPool := setInsert allocatedAddress p.allocatedPool },
        .object allocatedAddress)

def release (p : Pool) (address : Nat) : Pool × Outcome :=
  let (allocatedPool, erased) := setErase address p.allocatedPool
  if erased then
    ({ p with
        allocatedPool := allocatedPool
        freePool := p.freePool ++ [address] }, .released)
  else
    (p, .error ("MemPool release failed. address: 0x" ++ String.ofList (Nat.toDigits 16 address) ++
      " is not allocated"))

inductive Op where
  | allocate (throws : Bool)
  | release (address : Nat)

def perform (p : Pool) : Op → Pool × Outcome
  | .allocate throws => allocate c p throws
  | .release address => release p address

def run (p : Pool) (ops : List Op) : Pool := ops.foldl (fun p op => (perform c p op).1) p

def Pool.slots (p : Pool) : List Nat := p.allocatedChunks.flatMap c.chunk

/-- The sizes are those of a pool, and `malloc` returns disjoint blocks. -/
structure Setup.Sound : Prop where
  chunkSize : 0 < c.chunkSize
  maxElements : 0 < c.maxElements
  multiple : c.maxElements % c.chunkSize = 0
  sizeofT : 0 < c.sizeofT
  disjoint : ∀ i j, i < c.maxChunks → j < c.maxChunks → i ≠ j →
    c.malloc i + c.chunkSize * c.sizeofT ≤ c.malloc j ∨
      c.malloc j + c.chunkSize * c.sizeofT ≤ c.malloc i

structure Invariant (p : Pool) : Prop where
  chunks : p.allocatedChunks = (List.range p.allocatedChunkCount).map c.malloc
  bounded : p.allocatedChunkCount ≤ c.maxChunks
  parts : (p.freePool ++ p.allocatedPool).Perm (p.slots c)

variable {c}

theorem mem_chunk {address a : Nat} :
    a ∈ c.chunk address ↔ ∃ i < c.chunkSize, address + i * c.sizeofT = a := by
  simp [Setup.chunk]

theorem chunk_inside {address a : Nat} (sound : c.Sound) (inside : a ∈ c.chunk address) :
    address ≤ a ∧ a < address + c.chunkSize * c.sizeofT := by
  obtain ⟨i, small, rfl⟩ := mem_chunk.mp inside
  have room := Nat.mul_le_mul_right c.sizeofT (Nat.succ_le_of_lt small)
  have size := sound.sizeofT
  rw [Nat.succ_mul] at room
  omega

theorem chunk_nodup (sound : c.Sound) (address : Nat) : (c.chunk address).Nodup := by
  refine List.nodup_range.map ?_
  intro i j same
  have scaled : i * c.sizeofT = j * c.sizeofT := Nat.add_left_cancel same
  exact Nat.eq_of_mul_eq_mul_right sound.sizeofT scaled

theorem slots_nodup {p : Pool} (sound : c.Sound) (inv : Invariant c p) : (p.slots c).Nodup := by
  rw [Pool.slots, inv.chunks, List.nodup_flatMap]
  constructor
  · intro address _
    exact chunk_nodup sound address
  · rw [List.pairwise_map]
    refine List.nodup_range.imp_of_mem ?_
    intro i j hi hj different a here there
    have hi := Nat.lt_of_lt_of_le (List.mem_range.mp hi) inv.bounded
    have hj := Nat.lt_of_lt_of_le (List.mem_range.mp hj) inv.bounded
    have here := chunk_inside sound here
    have there := chunk_inside sound there
    have apart := sound.disjoint i j hi hj different
    omega

theorem slots_length {p : Pool} (inv : Invariant c p) :
    p.freePool.length + p.allocatedPool.length = p.allocatedChunkCount * c.chunkSize := by
  rw [← List.length_append, inv.parts.length_eq, Pool.slots, inv.chunks, List.flatMap_map]
  simp [List.length_flatMap, Setup.chunk]

theorem invariant_create : Invariant c ⟨[], [], 0, []⟩ := by
  constructor
  · rfl
  · exact Nat.zero_le _
  · exact .nil

theorem invariant_allocateChunk {p : Pool} (sound : c.Sound) (inv : Invariant c p) :
    Invariant c (allocateChunk c p).1 := by
  unfold allocateChunk
  split
  next => exact inv
  next more =>
    have more : p.allocatedChunkCount ≠ c.maxChunks := fun full => more ⟨sound.maxElements, full⟩
    constructor
    · rw [List.range_succ, List.map_append, ← inv.chunks]
      rfl
    · have bounded := inv.bounded
      simp only
      omega
    · have slots : (p.allocatedChunks ++ [c.malloc p.allocatedChunkCount]).flatMap c.chunk =
          p.slots c ++ c.chunk (c.malloc p.allocatedChunkCount) := by
        simp [Pool.slots]
      rw [Pool.slots, slots]
      refine List.Perm.trans ?_ (inv.parts.append_right _)
      rw [List.append_assoc, List.append_assoc]
      exact List.perm_append_comm.append_left _

/-- The pool after the refill with which `allocate` begins. -/
def refill (c : Setup) (p : Pool) : Pool :=
  if p.freePool.isEmpty then (allocateChunk c p).1 else p

theorem refill_allocated (p : Pool) : (refill c p).allocatedPool = p.allocatedPool := by
  unfold refill allocateChunk
  split
  · split <;> rfl
  · rfl

theorem invariant_refill {p : Pool} (sound : c.Sound) (inv : Invariant c p) :
    Invariant c (refill c p) := by
  unfold refill
  split
  · exact invariant_allocateChunk sound inv
  · exact inv

theorem refill_empty_iff {p : Pool} (sound : c.Sound) (inv : Invariant c p) :
    (refill c p).freePool = [] ↔ p.allocatedPool.length = c.maxElements := by
  have whole : c.maxChunks * c.chunkSize = c.maxElements :=
    Nat.div_mul_cancel (Nat.dvd_of_mod_eq_zero sound.multiple)
  have count := slots_length inv
  have room := Nat.mul_le_mul_right c.chunkSize inv.bounded
  by_cases free : p.freePool = []
  · rw [free, List.length_nil, Nat.zero_add] at count
    by_cases full : p.allocatedChunkCount = c.maxChunks
    · rw [full, whole] at count
      simp [refill, allocateChunk, free, full, sound.maxElements, count]
    · have fewer : p.allocatedChunkCount + 1 ≤ c.maxChunks := by
        have bounded := inv.bounded
        omega
      have more := Nat.mul_le_mul_right c.chunkSize fewer
      have size := sound.chunkSize
      rw [Nat.add_mul, Nat.one_mul] at more
      constructor
      · intro empty
        simp [refill, allocateChunk, free, full, Setup.chunk] at empty
        omega
      · intro all
        omega
  · have some := List.length_pos_iff.mpr free
    constructor
    · intro empty
      simp only [refill, List.isEmpty_iff, if_neg free] at empty
      exact absurd empty free
    · intro all
      omega

theorem allocate_eq (p : Pool) (throws : Bool) :
    allocate c p throws = match (refill c p).freePool.getLast? with
      | none => (refill c p, .empty)
      | some a => if throws then (refill c p, .factoryThrew)
        else (⟨(refill c p).freePool.dropLast, setInsert a p.allocatedPool,
          (refill c p).allocatedChunkCount, (refill c p).allocatedChunks⟩, .object a) := by
  rw [← refill_allocated (c := c)]
  rfl

theorem allocate_cases {p : Pool} (sound : c.Sound) (inv : Invariant c p) (throws : Bool) :
    ((refill c p).freePool = [] ∧ allocate c p throws = (refill c p, .empty)) ∨
    ((refill c p).freePool ≠ [] ∧ allocate c p throws = (refill c p, .factoryThrew)) ∨
    ∃ front a, (refill c p).freePool = front ++ [a] ∧ a ∉ p.allocatedPool ∧
      allocate c p throws = (⟨front, p.allocatedPool.orderedInsert (· ≤ ·) a,
        (refill c p).allocatedChunkCount, (refill c p).allocatedChunks⟩, .object a) := by
  rw [allocate_eq]
  obtain none | ⟨front, a, last⟩ := List.eq_nil_or_concat (refill c p).freePool
  · rw [none]
    exact .inl ⟨rfl, rfl⟩
  rw [List.concat_eq_append] at last
  cases throws with
  | true =>
    rw [last, List.getLast?_concat]
    exact .inr (.inl ⟨by simp, rfl⟩)
  | false =>
    have parts := (invariant_refill sound inv).parts
    have nodup := parts.nodup_iff.mpr (slots_nodup sound (invariant_refill sound inv))
    rw [last, refill_allocated] at nodup
    have fresh : a ∉ p.allocatedPool :=
      fun taken => List.disjoint_of_nodup_append nodup (by simp) taken
    have inserted : setInsert a p.allocatedPool = p.allocatedPool.orderedInsert (· ≤ ·) a :=
      if_neg fresh
    rw [last, List.getLast?_concat, List.dropLast_concat]
    refine .inr (.inr ⟨front, a, rfl, fresh, ?_⟩)
    rw [← inserted]
    rfl

theorem invariant_allocate {p : Pool} (sound : c.Sound) (inv : Invariant c p) (throws : Bool) :
    Invariant c (allocate c p throws).1 := by
  have filled := invariant_refill sound inv
  obtain ⟨_, out⟩ | ⟨_, out⟩ | ⟨front, a, last, _, out⟩ := allocate_cases sound inv throws
  · rw [out]
    exact filled
  · rw [out]
    exact filled
  · rw [out]
    constructor
    · exact filled.chunks
    · exact filled.bounded
    · have parts := filled.parts
      rw [last, refill_allocated, List.append_assoc] at parts
      exact ((List.perm_orderedInsert _ _ _).append_left _).trans parts

theorem release_absent {p : Pool} {address : Nat} (absent : address ∉ p.allocatedPool) :
    ∃ text, release p address = (p, .error text) := by
  simp [release, setErase, absent]

theorem release_present {p : Pool} {address : Nat} (present : address ∈ p.allocatedPool) :
    release p address = ({ p with
      allocatedPool := p.allocatedPool.erase address
      freePool := p.freePool ++ [address] }, .released) := by
  simp [release, setErase, present]

theorem invariant_release {p : Pool} (inv : Invariant c p) (address : Nat) :
    Invariant c (release p address).1 := by
  by_cases present : address ∈ p.allocatedPool
  · rw [release_present present]
    constructor
    · exact inv.chunks
    · exact inv.bounded
    · refine List.Perm.trans ?_ inv.parts
      rw [List.append_assoc]
      exact (List.perm_cons_erase present).symm.append_left _
  · obtain ⟨text, out⟩ := release_absent present
    rw [out]
    exact inv

/-- What the callers of a pool see in a run. -/
def history (c : Setup) (p : Pool) : List Op → List (Op × Outcome)
  | [] => []
  | op :: ops => (op, (perform c p op).2) :: history c (perform c p op).1 ops

def lentAfter (lent : List Nat) : Op × Outcome → List Nat
  | (_, .object address) => address :: lent
  | (.release address, .released) => lent.erase address
  | _ => lent

/-- The objects that were handed out and not taken back since. -/
def lent (events : List (Op × Outcome)) : List Nat := events.foldl lentAfter []

/-- The free slots and the objects that are `held` are all slots, and the next operation
    does what the callers count on. -/
structure Partitioned (c : Setup) (p : Pool) (held : List Nat) : Prop where
  distinct : (p.slots c).Nodup
  parts : (p.freePool ++ held).Perm (p.slots c)
  owned : p.allocatedPool.Perm held
  gives : held.length < c.maxElements → ∃ a, a ∉ held ∧ (allocate c p false).2 = .object a ∧
    (allocate c p false).1.allocatedPool.Perm (a :: held)
  throws : held.length < c.maxElements → (allocate c p true).2 = .factoryThrew ∧
    (allocate c p true).1.allocatedPool.Perm held
  empty_iff : ∀ throws, (allocate c p throws).2 = .empty ↔ held.length = c.maxElements
  takes_back : ∀ a ∈ held, (release p a).2 = .released ∧
    (release p a).1.freePool = p.freePool ++ [a] ∧
    (release p a).1.allocatedPool.Perm (held.erase a)
  refuses : ∀ a, a ∉ held → ∃ text, release p a = (p, .error text)

theorem empty_iff_full {p : Pool} (sound : c.Sound) (inv : Invariant c p) (throws : Bool) :
    (allocate c p throws).2 = .empty ↔ p.allocatedPool.length = c.maxElements := by
  rw [← refill_empty_iff sound inv]
  obtain ⟨none, out⟩ | ⟨some, out⟩ | ⟨front, b, last, _, out⟩ := allocate_cases sound inv throws
  · simp [out, none]
  · simp [out, some]
  · simp [out, last]

theorem outcome_allocate (p : Pool) (throws : Bool) : (allocate c p throws).2 = .empty ∨
    (allocate c p throws).2 = if throws then .factoryThrew
      else .object ((refill c p).freePool.getLast?.getD 0) := by
  rw [allocate_eq]
  cases (refill c p).freePool.getLast? with
  | none => exact .inl rfl
  | some a => cases throws <;> exact .inr rfl

theorem allocated_allocate {p : Pool} (sound : c.Sound) (inv : Invariant c p) (throws : Bool) :
    (allocate c p throws).1.allocatedPool.Perm
      (lentAfter p.allocatedPool (.allocate throws, (allocate c p throws).2)) := by
  obtain ⟨_, out⟩ | ⟨_, out⟩ | ⟨front, b, _, _, out⟩ := allocate_cases sound inv throws
  · rw [out, refill_allocated]
    exact .refl _
  · rw [out, refill_allocated]
    exact .refl _
  · rw [out]
    exact List.perm_orderedInsert _ _ _

theorem object_fresh {p : Pool} (sound : c.Sound) (inv : Invariant c p) {throws : Bool} {a : Nat}
    (got : (allocate c p throws).2 = .object a) : a ∉ p.allocatedPool := by
  obtain ⟨_, out⟩ | ⟨_, out⟩ | ⟨front, b, _, fresh, out⟩ := allocate_cases sound inv throws
  · cases out ▸ got
  · cases out ▸ got
  · rw [out] at got
    cases got
    exact fresh

theorem partitioned {p : Pool} {held : List Nat} (sound : c.Sound) (inv : Invariant c p)
    (owned : p.allocatedPool.Perm held) : Partitioned c p held := by
  have count := owned.length_eq
  have member (a : Nat) : a ∈ p.allocatedPool ↔ a ∈ held := owned.mem_iff
  constructor
  · exact slots_nodup sound inv
  · exact (owned.append_left _).symm.trans inv.parts
  · exact owned
  · intro room
    obtain none | given := outcome_allocate (c := c) p false
    · have full := (empty_iff_full sound inv false).mp none
      omega
    · refine ⟨_, fun taken => object_fresh sound inv given ((member _).mpr taken), given, ?_⟩
      have grown := allocated_allocate sound inv false
      rw [given] at grown
      exact grown.trans (owned.cons _)
  · intro room
    obtain none | threw := outcome_allocate (c := c) p true
    · have full := (empty_iff_full sound inv true).mp none
      omega
    · have same := allocated_allocate sound inv true
      rw [threw] at same
      exact ⟨threw, same.trans owned⟩
  · intro throws
    rw [empty_iff_full sound inv throws, count]
  · intro a here
    rw [release_present ((member a).mpr here)]
    exact ⟨rfl, rfl, owned.erase a⟩
  · intro a absent
    exact release_absent fun taken => absent ((member a).mp taken)

theorem owned_perform {p : Pool} {held : List Nat} (sound : c.Sound) (inv : Invariant c p)
    (owned : p.allocatedPool.Perm held) (op : Op) :
    (perform c p op).1.allocatedPool.Perm (lentAfter held (op, (perform c p op).2)) := by
  cases op with
  | allocate throws =>
    refine (allocated_allocate sound inv throws).trans ?_
    rw [perform]
    obtain none | some := outcome_allocate (c := c) p throws
    · rw [none]
      exact owned
    · rw [some]
      cases throws with
      | true => exact owned
      | false => exact owned.cons _
  | release a =>
    by_cases present : a ∈ p.allocatedPool
    · rw [perform, release_present present]
      exact owned.erase a
    · obtain ⟨text, out⟩ := release_absent present
      rw [perform, out]
      exact owned

theorem invariant_perform {p : Pool} (sound : c.Sound) (inv : Invariant c p) (op : Op) :
    Invariant c (perform c p op).1 := by
  cases op with
  | allocate throws => exact invariant_allocate sound inv throws
  | release address => exact invariant_release inv address

theorem partitioned_run {p : Pool} {held : List Nat} (sound : c.Sound) (inv : Invariant c p)
    (owned : p.allocatedPool.Perm held) (ops : List Op) :
    Partitioned c (run c p ops) ((history c p ops).foldl lentAfter held) := by
  induction ops generalizing p held with
  | nil => exact partitioned sound inv owned
  | cons op ops ih => exact ih (invariant_perform sound inv op) (owned_perform sound inv owned op)

/-- After every sequence of operations on a pool that was created. -/
theorem pool_partitioned {p : Pool} (sound : c.Sound) (created : create c = .ok p)
    (ops : List Op) : Partitioned c (run c p ops) (lent (history c p ops)) := by
  rw [create, if_neg (not_not.mpr sound.multiple)] at created
  cases created
  exact partitioned_run sound invariant_create (.refl _) ops

/-- Four elements of eight bytes in chunks of two, every chunk on a page of its own. -/
def pages : Setup := ⟨4, 2, 8, fun i => 4096 * (i + 1)⟩

theorem pages_sound : pages.Sound := by
  constructor
  · decide
  · decide
  · decide
  · decide
  · intro i j _ _ different
    simp only [pages]
    omega

def pagesUse : List Op :=
  [.allocate false, .allocate true, .allocate false, .allocate false, .release 4104,
    .release 4104, .release 5]

theorem pool_partitioned_pages :
    lent (history pages ⟨[], [], 0, []⟩ pagesUse) = [8200, 4096] ∧
      Partitioned pages (run pages ⟨[], [], 0, []⟩ pagesUse)
        (lent (history pages ⟨[], [], 0, []⟩ pagesUse)) :=
  ⟨by decide, pool_partitioned pages_sound rfl pagesUse⟩

end MemPool
