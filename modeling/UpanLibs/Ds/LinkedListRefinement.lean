import UpanLibs.Ds.LinkedListMethods
import UpanLibs.Machine
import Mathlib.Order.Defs.Unbundled
import Mathlib.Data.List.TakeWhile

/-!
Every run of operations on a list against the same operations on a sequence. The
elements of the sequence carry the places of their nodes, so that an iterator that was
kept over other operations names the same element.
-/
namespace LinkedList
open Memory NodeRing

variable {α : Type}

structure Seq (α : Type) where
  cells : Cells α
  fresh : Nat

namespace Seq

def empty : Seq α := ⟨[], 0⟩

def values (t : Seq α) : List α := t.cells.map Prod.snd

/-- A new element before the first one where `stop` holds, or at the end. -/
def insertBefore (stop : Nat × α → Bool) (v : α) (t : Seq α) : Seq α × Reply α :=
  (⟨t.cells.takeWhile (fun c => !stop c) ++ (t.fresh, v) :: t.cells.dropWhile (fun c => !stop c),
    t.fresh + 1⟩, .iterator (some t.fresh))

def eraseFirst (which : Nat × α → Bool) (t : Seq α) : Seq α × Reply α :=
  (⟨t.cells.eraseP which, t.fresh⟩, .erased (t.cells.any which))

end Seq

def next (lt eq : α → α → Bool) (t : Seq α) : Op α → Seq α × Reply α
  | .pushBack v => (⟨t.cells ++ [(t.fresh, v)], t.fresh + 1⟩, .done)
  | .pushFront v => (⟨(t.fresh, v) :: t.cells, t.fresh + 1⟩, .done)
  | .popBack => (⟨t.cells.dropLast, t.fresh⟩, .erased !t.cells.isEmpty)
  | .popFront => (⟨t.cells.tail, t.fresh⟩, .erased !t.cells.isEmpty)
  | .insert pos v => t.insertBefore (fun c => some c.1 == pos) v
  | .sortedInsertAsc v => t.insertBefore (fun c => lt v c.2 || !lt c.2 v) v
  | .sortedInsertDesc v => t.insertBefore (fun c => lt c.2 v || !lt v c.2) v
  | .sortedInsertComp comp v => t.insertBefore (fun c => comp v c.2) v
  | .eraseAt it | .eraseReverseAt it => t.eraseFirst fun c => some c.1 == it
  | .eraseValue v => t.eraseFirst fun c => eq c.2 v
  | .clear => (⟨[], t.fresh⟩, .done)
  | .forward => (t, .values t.values)
  | .backward => (t, .values t.values.reverse)
  | .eraseLoop chosen => (⟨sweep chosen [] t.cells, t.fresh⟩, .values t.values)

/-- An iterator that is given is at the end or at a node of the list. -/
def Admits (t : Seq α) : Op α → Prop
  | .insert it _ | .eraseAt it | .eraseReverseAt it => ∀ a ∈ it, a ∈ places t.cells
  | _ => True

section Sorted

variable {R : α → α → Prop} {stop : α → Bool} {v : α}

theorem values_insertBefore (t : Seq α) (stop : α → Bool) (v : α) :
    (t.insertBefore (fun c => stop c.2) v).1.values =
      t.values.takeWhile (fun e => !stop e) ++ v :: t.values.dropWhile (fun e => !stop e) := by
  simp only [Seq.insertBefore, Seq.values, List.map_append, List.map_cons, List.takeWhile_map,
    List.dropWhile_map]
  rfl

/-- An insertion before the first element that the new one may stand before, when all
    elements that it may not stand before may stand before it. -/
theorem pairwise_insert [IsTrans α R] (before : ∀ e, stop e = false → R e v)
    (after : ∀ e, stop e = true → R v e) {l : List α} (sorted : l.Pairwise R) :
    (l.takeWhile (fun e => !stop e) ++ v :: l.dropWhile (fun e => !stop e)).Pairwise R := by
  induction l with
  | nil => simp
  | cons e l ih =>
    obtain ⟨first, rest⟩ := List.pairwise_cons.mp sorted
    cases stops : stop e with
    | true =>
      have behind : ∀ d ∈ e :: l, R v d := by
        intro d mem
        obtain rfl | mem := List.mem_cons.mp mem
        · exact after d stops
        · exact IsTrans.trans _ _ _ (after e stops) (first d mem)
      simpa [stops] using And.intro (by simpa using behind) sorted
    | false =>
      have ahead : ∀ d ∈ l.takeWhile (fun e => !stop e) ++ v :: l.dropWhile (fun e => !stop e),
          R e d := by
        intro d mem
        rw [List.mem_append, List.mem_cons] at mem
        rcases mem with front | rfl | back
        · exact first d ((List.takeWhile_sublist _).mem front)
        · exact before e stops
        · exact first d ((List.dropWhile_sublist _).mem back)
      simpa [stops] using And.intro ahead (ih rest)

variable {r : α → α → Prop}

/-- `b` does not have to stand before `a`. -/
def InOrder (r : α → α → Prop) (a b : α) : Prop := ¬ r b a

instance [IsStrictWeakOrder α r] : IsTrans α (InOrder r) where
  trans a b c ab bc := by
    intro ca
    by_cases ba : r a b
    · exact bc (IsTrans.trans _ _ _ ca ba)
    by_cases cb : r b c
    · exact ab (IsTrans.trans _ _ _ cb ca)
    · exact (IsStrictWeakOrder.incomp_trans a b c ⟨ba, ab⟩ ⟨cb, bc⟩).2 ca

def Inserts (t t' : Seq α) (v : α) : Prop :=
  ∃ l₁ l₂, t.values = l₁ ++ l₂ ∧ t'.values = l₁ ++ v :: l₂

/-- What the sorted insertions do to a list that is sorted by the same order. The order of
    `sorted_insert_comp` may be strict or not. -/
structure SortedInsertions (lt eq : α → α → Bool) (t : Seq α) (v : α) : Prop where
  asc : IsStrictWeakOrder α (fun a b => lt a b = true) →
    t.values.Pairwise (InOrder fun a b => lt a b = true) →
    (next lt eq t (.sortedInsertAsc v)).1.values.Pairwise (InOrder fun a b => lt a b = true)
  desc : IsStrictWeakOrder α (fun a b => lt a b = true) →
    t.values.Pairwise (InOrder fun a b => lt b a = true) →
    (next lt eq t (.sortedInsertDesc v)).1.values.Pairwise (InOrder fun a b => lt b a = true)
  comp : ∀ comp : α → α → Bool, IsStrictWeakOrder α (fun a b => comp a b = true) →
    t.values.Pairwise (InOrder fun a b => comp a b = true) →
    (next lt eq t (.sortedInsertComp comp v)).1.values.Pairwise
      (InOrder fun a b => comp a b = true)
  compTotal : ∀ comp : α → α → Bool, IsTrans α (fun a b => comp a b = true) →
    (∀ a b, comp a b = true ∨ comp b a = true) →
    t.values.Pairwise (fun a b => comp a b = true) →
    (next lt eq t (.sortedInsertComp comp v)).1.values.Pairwise fun a b => comp a b = true
  inserts : ∀ op, (op = .sortedInsertAsc v ∨ op = .sortedInsertDesc v ∨
    ∃ comp, op = .sortedInsertComp comp v) → Inserts t (next lt eq t op).1 v

theorem inserts_insertBefore (t : Seq α) (stop : α → Bool) (v : α) :
    Inserts t (t.insertBefore (fun c => stop c.2) v).1 v :=
  ⟨_, _, List.takeWhile_append_dropWhile.symm, values_insertBefore t stop v⟩

theorem sortedInsert_pairwise [IsTrans α R] (t : Seq α) (before : ∀ e, stop e = false → R e v)
    (after : ∀ e, stop e = true → R v e) (sorted : t.values.Pairwise R) :
    (t.insertBefore (fun c => stop c.2) v).1.values.Pairwise R := by
  rw [values_insertBefore]
  exact pairwise_insert before after sorted

theorem not_both [IsStrictWeakOrder α r] {a b : α} (first : r a b) : ¬ r b a := by
  intro second
  exact Std.Irrefl.irrefl a (IsTrans.trans _ _ _ first second)

theorem insertAsc_pairwise (lt : α → α → Bool) [IsStrictWeakOrder α fun a b => lt a b = true]
    (t : Seq α) (v : α) (sorted : t.values.Pairwise (InOrder fun a b => lt a b = true)) :
    (t.insertBefore (fun c => lt v c.2 || !lt c.2 v) v).1.values.Pairwise
      (InOrder fun a b => lt a b = true) := by
  have before : ∀ e, (lt v e || !lt e v) = false → InOrder (fun a b => lt a b = true) e v := by
    intro e stays
    simp only [Bool.or_eq_false_iff] at stays
    simp [InOrder, stays.1]
  have after : ∀ e, (lt v e || !lt e v) = true → InOrder (fun a b => lt a b = true) v e := by
    intro e stops
    rw [Bool.or_eq_true, Bool.not_eq_true'] at stops
    intro below
    obtain above | notBelow := stops
    · exact not_both (r := fun a b => lt a b = true) above below
    · rw [notBelow] at below
      cases below
  exact sortedInsert_pairwise t before after sorted

theorem sortedInsertions (lt eq : α → α → Bool) (t : Seq α) (v : α) :
    SortedInsertions lt eq t v := by
  constructor
  · intro order sorted
    exact insertAsc_pairwise lt t v sorted
  · intro order sorted
    have swapped : IsStrictWeakOrder α fun a b => lt b a = true :=
      inferInstanceAs (IsStrictWeakOrder α (Function.swap fun a b => lt a b = true))
    exact insertAsc_pairwise (fun a b => lt b a) t v sorted
  · intro comp order sorted
    have before : ∀ e, comp v e = false → InOrder (fun a b => comp a b = true) e v := by
      intro e stays
      simp [InOrder, stays]
    have after : ∀ e, comp v e = true → InOrder (fun a b => comp a b = true) v e := by
      intro e stops
      exact not_both (r := fun a b => comp a b = true) stops
    exact sortedInsert_pairwise t before after sorted
  · intro comp order total sorted
    have before : ∀ e, comp v e = false → comp e v = true := by
      intro e stays
      obtain above | below := total v e
      · rw [above] at stays
        cases stays
      · exact below
    exact sortedInsert_pairwise (R := fun a b => comp a b = true) t before (fun _ stops => stops)
      sorted
  · rintro op (rfl | rfl | ⟨comp, rfl⟩)
    · exact inserts_insertBefore t (fun e => lt v e || !lt e v) v
    · exact inserts_insertBefore t (fun e => lt e v || !lt v e) v
    · exact inserts_insertBefore t (fun e => comp v e) v

end Sorted

section Runs

variable {h : Heap (Node α)} {l : Lst} {t : Seq α}

theorem insertBefore_holds (holds : Holds h t.fresh l t.cells) (stop : Nat × α → Bool) (v : α) :
    ∃ l' h', l.insert (places (t.cells.dropWhile fun c => !stop c)).head? v h =
        some ((l', some t.fresh), h') ∧
      Holds h' (t.fresh + 1) l' (t.insertBefore stop v).1.cells := by
  have split : t.cells = t.cells.takeWhile (fun c => !stop c) ++
      t.cells.dropWhile fun c => !stop c := List.takeWhile_append_dropWhile.symm
  rw [split] at holds
  exact insert_holds holds v

theorem sortedInsert_holds (holds : Holds h t.fresh l t.cells) (stop : α → Bool) (v : α) :
    ∃ l' h', l.sortedInsert stop v h = some ((l', some t.fresh), h') ∧
      Holds h' (t.fresh + 1) l' (t.insertBefore (fun c => stop c.2) v).1.cells := by
  obtain ⟨l', h', run, holds'⟩ := insertBefore_holds holds (fun c => stop c.2) v
  have found := run_findFrom holds stop (List.nil_append t.cells).symm
    (Nat.le_of_eq holds.1.size.symm)
  rw [← holds.1.first] at found
  refine ⟨l', h', ?_, holds'⟩
  rw [Lst.sortedInsert, run_bind found, run]

theorem erase_holds (holds : Holds h t.fresh l t.cells) (which : Nat × α → Bool) :
    ∃ l' h', l.eraseAt (places (t.cells.dropWhile fun c => !which c)).head? h =
        some ((l', t.cells.any which), h') ∧
      Holds h' t.fresh l' (t.cells.eraseP which) := by
  by_cases found : t.cells.any which = true
  · obtain ⟨c, mem, is⟩ := List.any_eq_true.mp found
    obtain ⟨c, c₁, c₂, others, is, split, left⟩ := List.exists_of_eraseP mem is
    have rest : t.cells.dropWhile (fun c => !which c) = c :: c₂ := by
      rw [split, List.dropWhile_append_of_pos, List.dropWhile_cons_of_neg]
      · simp [is]
      · intro d mem
        simpa using others d mem
    rw [found, rest, left]
    rw [split] at holds
    exact eraseAt_holds holds
  · have none_ : ∀ c ∈ t.cells, which c = false := by
      intro c mem
      by_contra is
      exact found (List.any_eq_true.mpr ⟨c, mem, by simpa using is⟩)
    have rest : t.cells.dropWhile (fun c => !which c) = [] := by
      rw [List.dropWhile_eq_nil_iff]
      intro c mem
      simp [none_ c mem]
    have left : t.cells.eraseP which = t.cells := by
      apply List.eraseP_of_forall_not
      intro c mem
      simp [none_ c mem]
    rw [rest, left]
    refine ⟨l, h, ?_, holds⟩
    simp only [Bool.not_eq_true] at found
    rw [found]
    rfl

theorem iterator_place {it : Option Nat} {cells : Cells α} (valid : ∀ a ∈ it, a ∈ places cells) :
    (places (cells.dropWhile fun c => !(some c.1 == it))).head? = it := by
  induction cells with
  | nil =>
    cases it with
    | none => rfl
    | some a => exact absurd (valid a rfl) List.not_mem_nil
  | cons c cells ih =>
    by_cases same : some c.1 = it
    · simp [← same]
    · rw [List.dropWhile_cons_of_pos (by simpa using same)]
      apply ih
      intro a here
      obtain first | rest := List.mem_cons.mp (valid a here)
      · exact absurd (first ▸ here.symm) same
      · exact rest

def Related (s : State α) (t : Seq α) : Prop := Holds s.heap t.fresh s.lst t.cells

variable {lt eq : α → α → Bool} {s : State α}

theorem step_of_code {op : Op α} {t' : Seq α} {r : Reply α}
    (code : ∃ l' h', op.code lt eq s.lst s.heap = some ((l', r), h') ∧ Holds h' t'.fresh l' t'.cells) :
    ∃ s', step lt eq s op = some (s', r) ∧ Related s' t' := by
  obtain ⟨l', h', run, holds⟩ := code
  refine ⟨⟨h', l'⟩, ?_, holds⟩
  rw [step, run]
  rfl

theorem step_refines (related : Related s t) {op : Op α} (admits : Admits t op) :
    ∃ s', step lt eq s op = some (s', (next lt eq t op).2) ∧ Related s' (next lt eq t op).1 := by
  have rounds : t.cells.length ≤ s.lst.size := Nat.le_of_eq related.1.size.symm
  apply step_of_code
  cases op with
  | pushBack v =>
    obtain ⟨l', h', run, holds⟩ := pushBack_holds related v
    exact ⟨l', h', run_map run answering, holds⟩
  | pushFront v =>
    obtain ⟨h', run, holds⟩ := pushFront_holds related v
    exact ⟨_, h', run_map run answering, holds⟩
  | popBack =>
    obtain ⟨l', h', run, holds⟩ := popBack_holds related
    exact ⟨l', h', run_map run erasing, holds⟩
  | popFront =>
    obtain ⟨l', h', run, holds⟩ := popFront_holds related
    exact ⟨l', h', run_map run erasing, holds⟩
  | insert pos v =>
    obtain ⟨l', h', run, holds⟩ := insertBefore_holds related (fun c => some c.1 == pos) v
    rw [iterator_place admits] at run
    exact ⟨l', h', run_map run placing, holds⟩
  | sortedInsertAsc v =>
    obtain ⟨l', h', run, holds⟩ := sortedInsert_holds related (fun e => lt v e || !lt e v) v
    exact ⟨l', h', run_map run placing, holds⟩
  | sortedInsertDesc v =>
    obtain ⟨l', h', run, holds⟩ := sortedInsert_holds related (fun e => lt e v || !lt v e) v
    exact ⟨l', h', run_map run placing, holds⟩
  | sortedInsertComp comp v =>
    obtain ⟨l', h', run, holds⟩ := sortedInsert_holds related (fun e => comp v e) v
    exact ⟨l', h', run_map run placing, holds⟩
  | eraseAt it | eraseReverseAt it =>
    obtain ⟨l', h', run, holds⟩ := erase_holds related fun c => some c.1 == it
    rw [iterator_place admits] at run
    exact ⟨l', h', run_map run erasing, holds⟩
  | eraseValue v =>
    obtain ⟨l', h', run, holds⟩ := erase_holds related fun c => eq c.2 v
    have found := run_findFrom related (fun e => eq e v) (List.nil_append t.cells).symm rounds
    rw [← related.1.first] at found
    have whole : s.lst.eraseValue (fun e => eq e v) s.heap = _ := (run_bind found).trans run
    exact ⟨l', h', run_map whole erasing, holds⟩
  | clear =>
    obtain ⟨h', run, holds⟩ := clear_holds related
    exact ⟨_, h', run_map run answering, holds⟩
  | forward =>
    have run := forward_holds related
    exact ⟨s.lst, s.heap, run_map run (fun r => reading (s.lst, r)), related⟩
  | backward =>
    have run := backward_holds related
    exact ⟨s.lst, s.heap, run_map run (fun r => reading (s.lst, r)), related⟩
  | eraseLoop chosen =>
    have whole : Holds s.heap t.fresh s.lst ([] ++ t.cells) := related
    obtain ⟨l', h', run, holds⟩ := eraseLoop_holds chosen whole [] rounds
    rw [← related.1.first] at run
    exact ⟨l', h', run_map run reading, holds⟩

/-- In every sequence of operations with valid iterators each answer is that of the
    sequence, the nodes are its ring afterwards, and it is read forward and backward. A
    sorted insertion keeps a list sorted, and the old elements in their order. -/
theorem lists_refine_sequences (lt eq : α → α → Bool) {ops : List (Op α)}
    (admitted : Machine.Admitted (next lt eq) Admits .empty ops) :
    ∃ s, Machine.serve (step lt eq) initial ops =
        some (s, (Machine.answers (next lt eq) .empty ops).2) ∧
      let t := (Machine.answers (next lt eq) .empty ops).1
      Rep s.heap s.lst t.cells ∧
      s.lst.forward s.heap = some (t.values, s.heap) ∧
      s.lst.backward s.heap = some (t.values.reverse, s.heap) ∧
      ∀ v, SortedInsertions lt eq t v := by
  have start : Related (initial : State α) .empty := by
    refine ⟨?_, rfl⟩
    constructor
    · exact ring_nil
    · intro a v
      simp [initial, Heap.empty, Seq.empty]
    · rfl
    · rfl
  obtain ⟨s, run, related⟩ : ∃ s, Machine.serve (step lt eq) initial ops =
      some (s, (Machine.answers (next lt eq) .empty ops).2) ∧
        Related s (Machine.answers (next lt eq) .empty ops).1 := by
    refine Machine.serve_refines Related ?_ start admitted
    intro s t op related admits
    exact step_refines related admits
  exact ⟨s, run, related.1, forward_holds related, backward_holds related,
    sortedInsertions lt eq _⟩

end Runs

instance (t : Seq α) : ∀ op : Op α, Decidable (Admits t op)
  | .insert it _ | .eraseAt it | .eraseReverseAt it =>
    inferInstanceAs (Decidable (∀ a ∈ it, a ∈ places t.cells))
  | .pushBack _ | .pushFront _ | .popBack | .popFront | .sortedInsertAsc _ | .sortedInsertDesc _
  | .sortedInsertComp _ _ | .eraseValue _ | .clear | .forward | .backward | .eraseLoop _ =>
    .isTrue trivial

/-- Iterators kept over other operations, a loop that erases every second element, and a
    list that gets empty and grows again. -/
def editedList : List (Op Nat) :=
  [.pushBack 10, .pushFront 30, .insert (some 0) 20, .sortedInsertComp (· ≤ ·) 25, .backward,
   .eraseLoop fun seen _ => seen.length % 2 == 1, .eraseReverseAt (some 2), .popBack, .popFront,
   .sortedInsertAsc 7, .sortedInsertAsc 3, .insert none 9, .eraseValue 7, .forward]

theorem lists_refine_sequences_edited :
    ∃ s, Machine.serve (step (fun a b => decide (a < b)) (· == ·)) initial editedList =
        some (s, [.done, .done, .iterator (some 2), .iterator (some 3), .values [10, 20, 30, 25],
          .values [25, 30, 20, 10], .erased true, .erased true, .erased false,
          .iterator (some 4), .iterator (some 5), .iterator (some 6), .erased true,
          .values [3, 9]]) ∧
      Rep s.heap s.lst [(5, 3), (6, 9)] := by
  have admitted : Machine.Admitted (next (fun a b => decide (a < b)) (· == ·)) Admits .empty
      editedList := by
    decide
  obtain ⟨s, run, rep, -⟩ := lists_refine_sequences _ _ admitted
  exact ⟨s, run, rep⟩

end LinkedList
