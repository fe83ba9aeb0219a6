import UpanLibs.Memory
import Mathlib.Data.List.Cycle

/-!
Doubly linked rings. A ring is a list of distinct places, each linked to the one after
it and the last to the first; where it is cut open does not matter. Nodes of a heap are
seen through what they hold: their values, and the two link functions.
-/
namespace NodeRing
open Memory

section Links

variable {A : Type} {next prev next' prev' : A → Option A}

def Linked (next prev : A → Option A) (p q : A) : Prop := next p = some q ∧ prev q = some p

structure Ring (next prev : A → Option A) (c : List A) : Prop where
  nodup : c.Nodup
  chain : Cycle.Chain (Linked next prev) (c : Cycle A)

theorem ring_nil : Ring next prev [] := ⟨List.nodup_nil, Cycle.Chain.nil _⟩

theorem ring_singleton {x : A} (self : Linked next prev x x) : Ring next prev [x] :=
  ⟨List.nodup_singleton x, (Cycle.chain_singleton _ x).mpr self⟩

theorem Ring.rotate {l l' : List A} (ring : Ring next prev (l ++ l')) :
    Ring next prev (l' ++ l) := by
  constructor
  · exact List.nodup_append_comm.mp ring.nodup
  · have same : ((l' ++ l : List A) : Cycle A) = (l ++ l' : List A) :=
      Cycle.coe_eq_coe.mpr List.isRotated_append
    rw [same]
    exact ring.chain

theorem ring_cons {p : A} {l : List A} : Ring next prev (p :: l) ↔ (p :: l).Nodup ∧
    Linked next prev ((p :: l).getLast (List.cons_ne_nil p l)) p ∧
    List.IsChain (Linked next prev) (p :: l) := by
  constructor
  · intro ring
    have chain := (Cycle.chain_ne_nil _ (List.cons_ne_nil p l)).mp ring.chain
    rw [List.isChain_cons_cons] at chain
    exact ⟨ring.nodup, chain⟩
  · intro ⟨nodup, closed, chain⟩
    refine ⟨nodup, (Cycle.chain_ne_nil _ (List.cons_ne_nil p l)).mpr ?_⟩
    rw [List.isChain_cons_cons]
    exact ⟨closed, chain⟩

theorem Ring.closed {p : A} {l : List A} (ring : Ring next prev (p :: l)) :
    Linked next prev ((p :: l).getLast (List.cons_ne_nil p l)) p := (ring_cons.mp ring).2.1

theorem Ring.follows {p q : A} {l l' : List A} (ring : Ring next prev (l ++ p :: q :: l')) :
    Linked next prev p q := by
  have turned := ring.rotate
  rw [List.cons_append, List.cons_append] at turned
  exact (List.isChain_cons_cons.mp (ring_cons.mp turned).2.2).1

theorem Ring.frame {c : List A} (ring : Ring next prev c) (kept : ∀ a ∈ c, next' a = next a)
    (kept' : ∀ a ∈ c, prev' a = prev a) : Ring next' prev' c := by
  refine ⟨ring.nodup, ?_⟩
  cases c with
  | nil => exact Cycle.Chain.nil _
  | cons p l =>
    have chain := ring.chain
    rw [Cycle.chain_coe_cons] at chain ⊢
    have inside : ∀ a ∈ p :: (l ++ [p]), a ∈ p :: l := by
      intro a mem
      simpa [or_comm, or_assoc] using mem
    refine chain.imp_of_mem_imp ?_
    intro a b here there link
    exact ⟨(kept a (inside a here)).trans link.1, (kept' b (inside b there)).trans link.2⟩

theorem chain_frame {c : List A} (chain : List.IsChain (Linked next prev) c)
    (kept : ∀ a ∈ c.dropLast, next' a = next a) (kept' : ∀ a ∈ c.tail, prev' a = prev a) :
    List.IsChain (Linked next' prev') c := by
  induction c with
  | nil => exact .nil
  | cons a c ih =>
    cases c with
    | nil => exact .singleton a
    | cons b c =>
      rw [List.isChain_cons_cons] at chain ⊢
      obtain ⟨link, chain⟩ := chain
      constructor
      · have from_ := kept a (by simp)
        have to_ := kept' b (by simp)
        exact ⟨from_.trans link.1, to_.trans link.2⟩
      · apply ih chain
        · intro d mem
          exact kept d (by simp [mem])
        · intro d mem
          exact kept' d (by simp [List.mem_of_mem_tail mem])

theorem last_not_before {p : A} {l : List A} (nodup : (p :: l).Nodup) {a : A}
    (mem : a ∈ (p :: l).dropLast) : a ≠ (p :: l).getLast (List.cons_ne_nil p l) := by
  rintro rfl
  have whole := List.dropLast_append_getLast (List.cons_ne_nil p l)
  rw [← whole] at nodup
  exact List.disjoint_of_nodup_append nodup mem (List.mem_singleton_self _)

variable [DecidableEq A]

theorem Ring.insert {p x : A} {l : List A} (ring : Ring next prev (p :: l)) (new : x ∉ p :: l) :
    let q := (p :: l).getLast (List.cons_ne_nil p l)
    Ring (Function.update (Function.update next q (some x)) x (some p))
      (Function.update (Function.update prev x (some q)) p (some x)) (p :: l ++ [x]) := by
  intro q
  obtain ⟨nodup, -, chain⟩ := ring_cons.mp ring
  have last : q ∈ p :: l := List.getLast_mem _
  have apart : q ≠ x := by
    rintro same
    exact new (same ▸ last)
  have first : p ≠ x := by
    rintro rfl
    exact new (by simp)
  rw [List.cons_append, ring_cons]
  refine ⟨?_, ?_, ?_⟩
  · rw [← List.cons_append, List.nodup_append]
    refine ⟨nodup, List.nodup_singleton x, ?_⟩
    intro a mem b single same
    rw [List.mem_singleton] at single
    exact new (single ▸ same ▸ mem)
  · have final : (p :: (l ++ [x])).getLast (List.cons_ne_nil p _) = x :=
      List.getLast_append_singleton (p :: l)
    simp [Linked, final]
  · rw [← List.cons_append]
    apply List.IsChain.append
    · apply chain_frame chain
      · intro a mem
        have before := last_not_before nodup mem
        have here : a ≠ x := by
          rintro rfl
          exact new (List.mem_of_mem_dropLast mem)
        rw [Function.update_of_ne here, Function.update_of_ne before]
      · intro a mem
        have here : a ≠ x := by
          rintro rfl
          exact new (List.mem_of_mem_tail mem)
        have behind : a ≠ p := by
          rintro rfl
          exact (List.nodup_cons.mp nodup).1 mem
        rw [Function.update_of_ne behind, Function.update_of_ne here]
    · exact .singleton x
    · intro a isLast b isFirst
      cases isFirst
      rw [List.getLast?_eq_some_getLast (List.cons_ne_nil p l)] at isLast
      cases isLast
      simp [Linked, apart, first.symm, q]

theorem Ring.remove {p x : A} {l : List A} (ring : Ring next prev (x :: p :: l)) :
    let q := (p :: l).getLast (List.cons_ne_nil p l)
    Ring (Function.update next q (some p)) (Function.update prev p (some q)) (p :: l) := by
  intro q
  obtain ⟨nodup, -, chain⟩ := ring_cons.mp ring
  have nodup' := (List.nodup_cons.mp nodup).2
  rw [ring_cons]
  refine ⟨nodup', ?_, ?_⟩
  · simp [Linked, q]
  · apply chain_frame (List.isChain_cons_cons.mp chain).2
    · intro a mem
      exact Function.update_of_ne (last_not_before nodup' mem) _ _
    · intro a mem
      have behind : a ≠ p := by
        rintro rfl
        exact (List.nodup_cons.mp nodup').1 mem
      exact Function.update_of_ne behind _ _

end Links

structure Node (α : Type) where
  value : α
  next : Option Nat
  prev : Option Nat

section Nodes

variable {α : Type}

def value (p : Option Nat) : Program (Node α) α := do
  let a ← deref p
  let n ← load a
  pure n.value

def next (p : Option Nat) : Program (Node α) (Option Nat) := do
  let a ← deref p
  let n ← load a
  pure n.next

def prev (p : Option Nat) : Program (Node α) (Option Nat) := do
  let a ← deref p
  let n ← load a
  pure n.prev

def setNext (p q : Option Nat) : Program (Node α) Unit := do
  let a ← deref p
  let n ← load a
  store a { n with next := q }

def setPrev (p q : Option Nat) : Program (Node α) Unit := do
  let a ← deref p
  let n ← load a
  store a { n with prev := q }

/-- What the live nodes of a heap hold, and the place of the next one that is made. -/
structure Shape (h : Heap (Node α)) (fresh : Nat) (values : Nat → Option α)
    (nexts prevs : Nat → Option Nat) : Prop where
  fresh : h.next = fresh
  values : ∀ a, (h.block a).map Node.value = values a
  nexts : ∀ a, (h.block a).bind Node.next = nexts a
  prevs : ∀ a, (h.block a).bind Node.prev = prevs a

variable {h : Heap (Node α)} {fresh a : Nat} {values : Nat → Option α}
  {nexts prevs : Nat → Option Nat} {v : α}

theorem Shape.node (shape : Shape h fresh values nexts prevs) (live : values a = some v) :
    h.block a = some ⟨v, nexts a, prevs a⟩ := by
  have here := shape.values a
  rw [live, Option.map_eq_some_iff] at here
  obtain ⟨n, block, rfl⟩ := here
  have after := shape.nexts a
  have before := shape.prevs a
  rw [block, Option.bind_some] at after before
  rw [block, ← after, ← before]

theorem Shape.fresh_none (shape : Shape h fresh values nexts prevs) : values fresh = none := by
  rw [← shape.values, ← shape.fresh, h.block_next, Option.map_none]

theorem run_value (shape : Shape h fresh values nexts prevs) (live : values a = some v) :
    value (some a) h = some (v, h) := by
  rw [value, run_bind (run_deref a), run_bind (run_load (shape.node live))]
  rfl

theorem run_next (shape : Shape h fresh values nexts prevs) (live : values a = some v) :
    next (some a) h = some (nexts a, h) := by
  rw [next, run_bind (run_deref a), run_bind (run_load (shape.node live))]
  rfl

theorem run_prev (shape : Shape h fresh values nexts prevs) (live : values a = some v) :
    prev (some a) h = some (prevs a, h) := by
  rw [prev, run_bind (run_deref a), run_bind (run_load (shape.node live))]
  rfl

theorem shape_write (shape : Shape h fresh values nexts prevs) (live : values a = some v)
    (q r : Option Nat) : Shape (h.write a ⟨v, q, r⟩) fresh values (Function.update nexts a q)
      (Function.update prevs a r) := by
  have here := shape.node live
  constructor
  · exact shape.fresh
  all_goals
    intro c
    by_cases same : c = a
    · subst same
      simp [Heap.block_write_self here, live]
    · rw [Heap.block_write_other _ _ same]
      simp [same, shape.values, shape.nexts, shape.prevs]

theorem run_setNext (shape : Shape h fresh values nexts prevs) (live : values a = some v)
    (q : Option Nat) : ∃ h', setNext (some a) q h = some ((), h') ∧
      Shape h' fresh values (Function.update nexts a q) prevs := by
  have here := shape.node live
  have written := shape_write shape live q (prevs a)
  rw [Function.update_eq_self] at written
  refine ⟨h.write a ⟨v, q, prevs a⟩, ?_, written⟩
  rw [setNext, run_bind (run_deref a), run_bind (run_load here), run_store here]

theorem run_setPrev (shape : Shape h fresh values nexts prevs) (live : values a = some v)
    (r : Option Nat) : ∃ h', setPrev (some a) r h = some ((), h') ∧
      Shape h' fresh values nexts (Function.update prevs a r) := by
  have here := shape.node live
  have written := shape_write shape live (nexts a) r
  rw [Function.update_eq_self] at written
  refine ⟨h.write a ⟨v, nexts a, r⟩, ?_, written⟩
  rw [setPrev, run_bind (run_deref a), run_bind (run_load here), run_store here]

theorem shape_alloc (shape : Shape h fresh values nexts prevs) (v : α) :
    Shape (h.add ⟨v, none, none⟩) (fresh + 1) (Function.update values fresh (some v))
      (Function.update nexts fresh none) (Function.update prevs fresh none) := by
  obtain ⟨rfl, values_, nexts_, prevs_⟩ := shape
  constructor
  · rfl
  all_goals
    intro c
    by_cases same : c = h.next
    · simp [same]
    · simp [same, values_, nexts_, prevs_]

theorem run_freeNode (shape : Shape h fresh values nexts prevs) (live : values a = some v) :
    ∃ h', delete (some a) h = some ((), h') ∧ Shape h' fresh (Function.update values a none)
      (Function.update nexts a none) (Function.update prevs a none) := by
  refine ⟨_, run_free (shape.node live), ?_⟩
  constructor
  · exact shape.fresh
  all_goals
    intro c
    by_cases same : c = a
    · simp [same]
    · simp [same, shape.values, shape.nexts, shape.prevs]

end Nodes

end NodeRing
