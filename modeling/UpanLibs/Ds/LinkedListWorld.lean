import UpanLibs.Framing
import UpanLibs.Transition
import UpanLibs.Ds.LinkedListRefinement

/-!
Any number of named lists in one heap. A method of a list works on its own nodes. The class has
no `operator=`, so an assignment copies the counter and the pointer.
-/
namespace LinkedList
open Memory NodeRing

variable {α : Type}

section Frames

theorem framed_value (p : Option Nat) : Framed (value p : Program (Node α) α) :=
  framed_bind (framed_deref p) fun a => framed_bind (framed_load a) fun _ => framed_pure _

theorem framed_next (p : Option Nat) : Framed (NodeRing.next p : Program (Node α) (Option Nat)) :=
  framed_bind (framed_deref p) fun a => framed_bind (framed_load a) fun _ => framed_pure _

theorem framed_prev (p : Option Nat) : Framed (prev p : Program (Node α) (Option Nat)) :=
  framed_bind (framed_deref p) fun a => framed_bind (framed_load a) fun _ => framed_pure _

theorem framed_setNext (p q : Option Nat) : Framed (setNext p q : Program (Node α) Unit) :=
  framed_bind (framed_deref p) fun a => framed_bind (framed_load a) fun _ => framed_store a _

theorem framed_setPrev (p q : Option Nat) : Framed (setPrev p q : Program (Node α) Unit) :=
  framed_bind (framed_deref p) fun a => framed_bind (framed_load a) fun _ => framed_store a _

variable (l : Lst)

theorem framed_last : Framed (l.last : Program (Node α) (Option Nat)) := by
  unfold Lst.last
  split
  · exact framed_pure none
  · exact framed_prev _

theorem framed_preInc (i : Nat) : Framed (l.preInc i : Program (Node α) (Option Nat)) :=
  framed_bind (framed_next _) fun _ => framed_ite (framed_pure none) (framed_next _)

theorem framed_preIncReverse (i : Nat) :
    Framed (l.preIncReverse i : Program (Node α) (Option Nat)) :=
  framed_bind (framed_last l) fun _ => framed_bind (framed_prev _) fun _ =>
    framed_ite (framed_pure none) (framed_prev _)

theorem framed_pushBack (v : α) : Framed (l.pushBack v) := by
  refine framed_bind (framed_alloc _) fun n => framed_ite ?_ ?_
  · exact framed_bind (framed_setNext _ _) fun _ => framed_bind (framed_setPrev _ _) fun _ =>
      framed_pure _
  · exact framed_bind (framed_last l) fun _ => framed_bind (framed_setNext _ _) fun _ =>
      framed_bind (framed_setPrev _ _) fun _ => framed_bind (framed_setNext _ _) fun _ =>
        framed_bind (framed_setPrev _ _) fun _ => framed_pure _

theorem framed_pushFront (v : α) : Framed (l.pushFront v) :=
  framed_bind (framed_pushBack l v) fun l => framed_bind (framed_prev l.first) fun _ =>
    framed_pure _

theorem framed_unlink (cur : Option Nat) : Framed (Lst.unlink cur : Program (Node α) Unit) :=
  framed_bind (framed_prev cur) fun _ => framed_bind (framed_next cur) fun _ =>
    framed_bind (framed_setNext _ _) fun _ => framed_bind (framed_next cur) fun _ =>
      framed_bind (framed_prev cur) fun _ => framed_setPrev _ _

theorem framed_discard (cur : Option Nat) :
    Framed (l.discard cur : Program (Node α) (Lst × Bool)) :=
  framed_bind (framed_delete cur) fun _ => framed_pure _

theorem framed_firstWithout (wasFirst : Bool) (cur : Option Nat) :
    Framed (l.firstWithout wasFirst cur : Program (Node α) (Option Nat)) :=
  framed_ite (framed_next cur) (framed_pure _)

theorem framed_deleteNode (cur : Option Nat) :
    Framed (l.deleteNode cur : Program (Node α) (Lst × Bool)) := by
  refine framed_ite (framed_ite (framed_discard _ cur) (framed_pure _)) ?_
  exact framed_bind (framed_unlink cur) fun _ => framed_bind (framed_firstWithout l _ cur) fun _ =>
    framed_discard _ cur

theorem framed_eraseAt (it : Option Nat) :
    Framed (l.eraseAt it : Program (Node α) (Lst × Bool)) :=
  framed_ite (framed_pure _) (framed_ite (framed_pure _) (framed_deleteNode l it))

theorem framed_pop (front : Bool) : Framed (l.pop front : Program (Node α) (Lst × Bool)) := by
  refine framed_ite (framed_pure _) (framed_bind ?_ fun cur => ?_)
  · exact framed_ite (framed_pure _) (framed_prev _)
  · exact framed_ite (framed_discard _ cur) (framed_bind (framed_unlink cur) fun _ =>
      framed_bind (framed_firstWithout l _ cur) fun _ => framed_discard _ cur)

theorem framed_findFrom (stop : α → Bool) (rounds : Nat) (i : Option Nat) :
    Framed (l.findFrom stop rounds i) := by
  induction rounds generalizing i with
  | zero =>
    cases i with
    | none => exact framed_pure none
    | some i => exact framed_failure
  | succ rounds ih =>
    cases i with
    | none => exact framed_pure none
    | some i =>
      exact framed_bind (framed_value _) fun _ => framed_ite (framed_pure _)
        (framed_bind (framed_preInc l i) fun i => ih i)

theorem framed_insert (pos : Option Nat) (v : α) : Framed (l.insert pos v) := by
  cases pos with
  | none => exact framed_bind (framed_pushBack l v) fun l => framed_bind (framed_last l) fun _ =>
      framed_pure _
  | some cur =>
    refine framed_ite (framed_bind (framed_pushFront l v) fun _ => framed_pure _) ?_
    exact framed_bind (framed_alloc _) fun n => framed_bind (framed_prev _) fun _ =>
      framed_bind (framed_setNext _ _) fun _ => framed_bind (framed_prev _) fun _ =>
        framed_bind (framed_setPrev _ _) fun _ => framed_bind (framed_setNext _ _) fun _ =>
          framed_bind (framed_setPrev _ _) fun _ => framed_pure _

theorem framed_sortedInsert (stop : α → Bool) (v : α) : Framed (l.sortedInsert stop v) :=
  framed_bind (framed_findFrom l stop _ _) fun i => framed_insert l i v

theorem framed_clearFrom (rounds : Nat) (i : Option Nat) :
    Framed (l.clearFrom rounds i : Program (Node α) Unit) := by
  induction rounds generalizing i with
  | zero =>
    cases i with
    | none => exact framed_pure ()
    | some i => exact framed_failure
  | succ rounds ih =>
    cases i with
    | none => exact framed_pure ()
    | some i => exact framed_bind (framed_preInc l i) fun it =>
        framed_bind (framed_delete _) fun _ => ih it

theorem framed_clear : Framed (l.clear : Program (Node α) Lst) :=
  framed_bind (framed_clearFrom l _ _) fun _ => framed_pure _

theorem framed_readFrom {inc : Nat → Program (Node α) (Option Nat)} (framed : ∀ i, Framed (inc i))
    (rounds : Nat) (i : Option Nat) : Framed (Lst.readFrom inc rounds i) := by
  induction rounds generalizing i with
  | zero =>
    cases i with
    | none => exact framed_pure []
    | some i => exact framed_failure
  | succ rounds ih =>
    cases i with
    | none => exact framed_pure []
    | some i => exact framed_bind (framed_value _) fun _ => framed_bind (framed i) fun it =>
        framed_bind (ih it) fun _ => framed_pure _

theorem framed_forward : Framed (l.forward : Program (Node α) (List α)) :=
  framed_readFrom (framed_preInc l) _ _

theorem framed_backward : Framed (l.backward : Program (Node α) (List α)) :=
  framed_bind (framed_last l) fun _ => framed_readFrom (framed_preIncReverse l) _ _

theorem framed_eraseLoop (chosen : List α → α → Bool) (rounds : Nat) (l : Lst) (seen : List α)
    (i : Option Nat) : Framed (Lst.eraseLoop chosen rounds l seen i) := by
  induction rounds generalizing l seen i with
  | zero =>
    cases i with
    | none => exact framed_pure _
    | some i => exact framed_failure
  | succ rounds ih =>
    cases i with
    | none => exact framed_pure _
    | some i =>
      exact framed_bind (framed_value _) fun v => framed_bind (framed_preInc l i) fun it =>
        framed_ite (framed_bind (framed_eraseAt l _) fun r => ih r.1 _ it) (ih l _ it)

theorem framed_code (lt eq : α → α → Bool) (op : Op α) : Framed (op.code lt eq l) := by
  cases op with
  | pushBack v => exact framed_map (framed_pushBack l v) _
  | pushFront v => exact framed_map (framed_pushFront l v) _
  | popBack | popFront => exact framed_map (framed_pop l _) _
  | insert pos v => exact framed_map (framed_insert l pos v) _
  | sortedInsertAsc v | sortedInsertDesc v | sortedInsertComp comp v =>
    exact framed_map (framed_sortedInsert l _ v) _
  | eraseAt it | eraseReverseAt it => exact framed_map (framed_eraseAt l it) _
  | eraseValue v =>
    exact framed_map (framed_bind (framed_findFrom l _ _ _) fun i => framed_eraseAt l i) _
  | clear => exact framed_map (framed_clear l) _
  | forward => exact framed_map (framed_forward l) fun r => reading (l, r)
  | backward => exact framed_map (framed_backward l) fun r => reading (l, r)
  | eraseLoop chosen => exact framed_map (framed_eraseLoop chosen _ l [] _) _

end Frames

namespace Lst

/-- The iterators from `begin` to `end`. -/
def iteratorsFrom (l : Lst) : Nat → Option Nat → Program (Node α) (List Nat)
  | _, none => pure []
  | 0, some _ => failure
  | rounds + 1, some i => do
    let it ← l.preInc i
    let rest ← iteratorsFrom l rounds it
    pure (i :: rest)

def iterators (l : Lst) : Program (Node α) (List Nat) := iteratorsFrom l l.size l.first

/-- The loop of the copy constructor over the elements of `rhs`. -/
def copyLoop (rhs : Lst) : Nat → Lst → Option Nat → Program (Node α) Lst
  | _, l, none => pure l
  | 0, _, some _ => failure
  | rounds + 1, l, some i => do
    let v ← value (some i)
    let l ← l.pushBack v
    let it ← rhs.preInc i
    copyLoop rhs rounds l it

def copy (rhs : Lst) : Program (Node α) Lst := copyLoop rhs rhs.size .new rhs.first

end Lst

section Parts

variable {h h' : Heap (Node α)} {l l' : Lst} {cells cells' : Cells α}

theorem Rep.live_iff (rep : Rep h l cells) (a : Nat) : h.block a ≠ none ↔ a ∈ places cells := by
  constructor
  · intro live
    obtain ⟨n, here⟩ := Option.ne_none_iff_exists'.mp live
    exact List.mem_map_of_mem ((rep.nodes a n.value).mp (by rw [here, Option.map_some]))
  · intro mem nothing
    obtain ⟨c, inside, rfl⟩ := List.mem_map.mp mem
    have value := (rep.nodes c.1 c.2).mpr inside
    rw [nothing] at value
    cases value

def At (h : Heap (Node α)) (l : Lst) (cells : Cells α) : Prop :=
  Rep (h.restrict (places cells)) l cells

theorem At.holds (here : At h l cells) : Holds (h.restrict (places cells)) h.next l cells :=
  ⟨here, rfl⟩

theorem At.live (here : At h l cells) : ∀ a ∈ places cells, h.block a ≠ none := by
  intro a mem
  have live := (Rep.live_iff here a).mpr mem
  rwa [Heap.block_restrict, if_pos mem] at live

theorem At.frame (here : At h l cells) (same : ∀ a ∈ places cells, h'.block a = h.block a) :
    At h' l cells := by
  have blocks : (h'.restrict (places cells)).block = (h.restrict (places cells)).block := by
    funext a
    by_cases mem : a ∈ places cells
    · simp [mem, same a mem]
    · simp [mem]
  obtain ⟨ring, nodes, size, first⟩ := here
  refine ⟨?_, ?_, size, first⟩
  · rw [blocks]
    exact ring
  · rw [blocks]
    exact nodes

theorem at_new (h : Heap (Node α)) : At h .new [] :=
  ⟨ring_nil, by simp, rfl, rfl⟩

theorem At.run {γ : Type} {f : Program (Node α) γ} (framed : Framed f) {r : γ}
    {h₁ : Heap (Node α)} (run : f (h.restrict (places cells)) = some (r, h₁))
    (rep : Rep h₁ l' cells') : ∃ h', f h = some (r, h') ∧ At h' l' cells' ∧
      Changes h h' (places cells) (places cells') := by
  obtain ⟨h', run', same, changes⟩ := framed.part run rep.live_iff
  refine ⟨h', run', ?_, changes⟩
  rw [At, same]
  exact rep

theorem iteratorsFrom_run {fresh : Nat} (holds : Holds h fresh l cells) {c₁ c₂ : Cells α}
    (split : cells = c₁ ++ c₂) {rounds : Nat} (enough : c₂.length ≤ rounds) :
    l.iteratorsFrom rounds (places c₂).head? h = some (places c₂, h) := by
  induction c₂ generalizing c₁ rounds with
  | nil =>
    rw [Lst.iteratorsFrom.eq_def]
    rfl
  | cons c c₂ ih =>
    obtain ⟨rounds, rfl⟩ : ∃ n, rounds = n + 1 := ⟨rounds - 1, by simp at enough; omega⟩
    have here : Holds h fresh l (c₁ ++ c :: c₂) := split ▸ holds
    have rest := ih (split.trans (List.append_cons c₁ c c₂)) (by simpa using enough)
    simp only [places_cons, List.head?_cons, Lst.iteratorsFrom]
    rw [run_bind (run_preInc here), run_bind rest]
    rfl

theorem framed_iteratorsFrom (l : Lst) (rounds : Nat) (i : Option Nat) :
    Framed (l.iteratorsFrom rounds i : Program (Node α) (List Nat)) := by
  induction rounds generalizing i with
  | zero =>
    cases i with
    | none => exact framed_pure []
    | some i => exact framed_failure
  | succ rounds ih =>
    cases i with
    | none => exact framed_pure []
    | some i => exact framed_bind (framed_preInc l i) fun it => framed_bind (ih it) fun _ =>
        framed_pure _

theorem At.iterators (here : At h l cells) : l.iterators h = some (places cells, h) := by
  have run := iteratorsFrom_run here.holds (List.nil_append cells).symm (Nat.le_refl _)
  rw [← Rep.first here, ← Rep.size here] at run
  exact (framed_iteratorsFrom l _ _).read run

theorem At.forward (here : At h l cells) : l.forward h = some (cells.map Prod.snd, h) :=
  (framed_forward l).read (forward_holds here.holds)

theorem At.places_eq (here : At h l cells) (here' : At h l cells') :
    places cells = places cells' := by
  have same := here.iterators.symm.trans here'.iterators
  rw [Option.some.injEq, Prod.mk.injEq] at same
  exact same.1

theorem At.new_of_places (here : At h l cells) (nothing : places cells = []) : l = .new := by
  have first := Rep.first here
  have size := Rep.size here
  rw [nothing] at first
  rw [List.map_eq_nil_iff.mp nothing] at size
  cases l
  cases first
  cases size
  rfl

theorem At.pushBack (here : At h l cells) (v : α) : ∃ l' h' a, l.pushBack v h = some (l', h') ∧
    At h' l' (cells ++ [(a, v)]) ∧
    Changes h h' (places cells) (places (cells ++ [(a, v)])) := by
  obtain ⟨l', h₁, run, holds⟩ := pushBack_holds here.holds v
  obtain ⟨h', run', at', changes⟩ := At.run (framed_pushBack l v) run holds.1
  exact ⟨l', h', h.next, run', at', changes⟩

theorem copyLoop_run {rhs : Lst} {theirs c₁ c₂ : Cells α} {rounds : Nat} (here : At h l cells)
    (there : At h rhs theirs) (apart : ∀ a ∈ places theirs, a ∉ places cells)
    (split : theirs = c₁ ++ c₂) (enough : c₂.length ≤ rounds) :
    ∃ h' l' cells', Lst.copyLoop rhs rounds l (places c₂).head? h = some (l', h') ∧
      At h' l' cells' ∧ cells'.map Prod.snd = cells.map Prod.snd ++ c₂.map Prod.snd ∧
      Changes h h' (places cells) (places cells') := by
  induction c₂ generalizing c₁ rounds h l cells with
  | nil =>
    refine ⟨h, l, cells, ?_, here, by simp, .refl h _⟩
    rw [Lst.copyLoop.eq_def]
    rfl
  | cons c c₂ ih =>
    obtain ⟨x, v⟩ := c
    obtain ⟨rounds, rfl⟩ : ∃ n, rounds = n + 1 := ⟨rounds - 1, by simp at enough; omega⟩
    obtain ⟨l₁, h₁, a, push, here₁, changes₁⟩ := here.pushBack v
    have kept := changes₁.apart there.live apart
    have there₁ := there.frame fun a mem => (kept a mem).2
    rw [split] at there there₁
    have read : value (some x) h = some (v, h) := by
      obtain ⟨-, values, nexts, prevs, shaped⟩ := there.holds.cases
      exact (framed_value _).read (run_value shaped.shape ((shaped.nodes x v).mpr (by simp)))
    have step : rhs.preInc x h₁ = some ((places c₂).head?, h₁) :=
      (framed_preInc rhs x).read (run_preInc there₁.holds)
    have split' : theirs = c₁ ++ [(x, v)] ++ c₂ := split.trans (List.append_cons c₁ (x, v) c₂)
    obtain ⟨h', l', cells', run, here', values, changes⟩ := ih here₁
      (split ▸ there₁) (fun a mem => (kept a mem).1) split' (by simpa using enough)
    refine ⟨h', l', cells', ?_, here', by simp [values], changes₁.trans changes⟩
    simp only [places_cons, List.head?_cons, Lst.copyLoop]
    rw [run_bind read, run_bind push, run_bind step]
    exact run

theorem copy_run {rhs : Lst} {theirs : Cells α} (there : At h rhs theirs) :
    ∃ h' l' cells', rhs.copy h = some (l', h') ∧ At h' l' cells' ∧
      cells'.map Prod.snd = theirs.map Prod.snd ∧ Changes h h' [] (places cells') := by
  obtain ⟨h', l', cells', run, here', values, changes⟩ := copyLoop_run (at_new h) there (by simp)
    (List.nil_append theirs).symm (Nat.le_of_eq (Rep.size there).symm)
  rw [← Rep.first there] at run
  exact ⟨h', l', cells', run, here', by simpa using values, changes⟩

end Parts

section Worlds

variable {X : Type}

/-- What is done to named lists. The class has no members that move. -/
inductive ListOp (X α : Type) where
  | construct (x : X)
  | copy (x y : X)
  | assign (x y : X)
  | call (x : X) (op : Op α)
  | destruct (x : X)

def ListOp.target : ListOp X α → X
  | .construct x | .copy x _ | .assign x _ | .call x _ | .destruct x => x

def startLists : World X Lst (Node α) := ⟨.empty, fun _ => none⟩

def Op.iterators : Op α → Option Nat
  | .insert it _ | .eraseAt it | .eraseReverseAt it => it
  | _ => none

/-- The names are those of objects that live, or do not live yet, and an iterator is one of its
    list. -/
def ListAllowed (w : World X Lst (Node α)) : ListOp X α → Prop
  | .construct x => w.object x = none
  | .copy x y => w.object x = none ∧ w.object y ≠ none
  | .assign x y => w.object x ≠ none ∧ w.object y ≠ none
  | .call x op => w.object x ≠ none ∧ ∀ a ∈ op.iterators, ∀ l ∈ w.object x,
      ∃ r ∈ l.iterators w.heap, a ∈ r.1
  | .destruct x => w.object x ≠ none

def ListOwned (w : World X Lst (Node α)) : ListOp X α → Prop
  | .assign x y => x = y ∨ w.object x = some .new ∧ w.object y = some .new
  | _ => True

/-- The nodes of different lists are different, and every live node is in a list. -/
structure Separate (w : World X Lst (Node α)) (cells : X → Cells α) : Prop where
  lists : ∀ x l, w.object x = some l → At w.heap l (cells x)
  none_ : ∀ x, w.object x = none → cells x = []
  owners : Owners w.heap fun x => places (cells x)

variable {w : World X Lst (Node α)} {cells : X → Cells α} {lt eq : α → α → Bool}

theorem separate_start : Separate (startLists : World X Lst (Node α)) fun _ => [] := by
  refine ⟨?_, fun _ _ => rfl, ?_, ?_, ?_⟩
  · intro x l here
    cases here
  · intro x a mem
    cases mem
  · intro x y _ a mem
    cases mem
  · intro a live
    exact absurd rfl live

theorem admits_of_iterators {t : Seq α} {op : Op α}
    (all : ∀ a ∈ op.iterators, a ∈ places t.cells) : Admits t op := by
  cases op <;> first | exact all | trivial

theorem At.call {h : Heap (Node α)} {l : Lst} {c : Cells α} (here : At h l c)
    (lt eq : α → α → Bool) {op : Op α} (valid : ∀ a ∈ op.iterators, a ∈ places c) :
    ∃ h' l' r c', op.code lt eq l h = some ((l', r), h') ∧ At h' l' c' ∧
      Changes h h' (places c) (places c') := by
  have related : Related ⟨h.restrict (places c), l⟩ ⟨c, h.next⟩ := here.holds
  obtain ⟨s', run, related'⟩ := step_refines related (admits_of_iterators valid)
  obtain ⟨⟨⟨l', r⟩, h₁⟩, code, same⟩ := Option.map_eq_some_iff.mp run
  obtain ⟨rfl, -⟩ := Prod.mk.inj same
  obtain ⟨h', run', at', changes⟩ := At.run (framed_code l lt eq op) code related'.1
  exact ⟨h', l', r, _, run', at', changes⟩

theorem At.clear {h : Heap (Node α)} {l : Lst} {c : Cells α} (here : At h l c) :
    ∃ h', l.clear h = some (.new, h') ∧ Changes h h' (places c) [] := by
  obtain ⟨h₁, run, holds⟩ := clear_holds here.holds
  obtain ⟨h', run', -, changes⟩ := At.run (framed_clear l) run holds.1
  exact ⟨h', run', changes⟩

def listContents (w : World X Lst (Node α)) (x : X) : Option (List α) :=
  (w.object x).bind fun l => (l.forward w.heap).map Prod.fst

theorem Separate.contents (separate : Separate w cells) (x : X) :
    listContents w x = (w.object x).map fun _ => (cells x).map Prod.snd := by
  rw [listContents]
  cases object : w.object x with
  | none => rfl
  | some l => rw [Option.bind_some, (separate.lists x l object).forward]; rfl

variable [DecidableEq X]

def nextList (lt eq : α → α → Bool) (w : World X Lst (Node α)) :
    ListOp X α → Option (World X Lst (Node α))
  | .construct x => w.build x (pure .new)
  | .copy x y =>
      match w.object y with
      | none => none
      | some rhs => w.build x rhs.copy
  | .assign x y =>
      match w.object x, w.object y with
      | some _, some rhs => some (w.update x w.heap (some rhs))
      | _, _ => none
  | .call x op => (w.call x fun l => op.code lt eq l).map Prod.fst
  | .destruct x =>
      match w.object x with
      | none => none
      | some l => (l.clear w.heap).map fun (_, h) => w.update x h none

theorem Separate.update (separate : Separate w cells) {x : X} {h' : Heap (Node α)}
    {o : Option Lst} {c : Cells α} (changes : Changes w.heap h' (places (cells x)) (places c))
    (here : ∀ l, o = some l → At h' l c) (nothing : o = none → c = []) :
    Separate (w.update x h' o) (Function.update cells x c) := by
  have live : ∀ a ∈ places c, h'.block a ≠ none := by
    cases o with
    | none =>
      rw [nothing rfl]
      exact fun a mem => by cases mem
    | some l => exact (here l rfl).live
  have others : ∀ y, y ≠ x → ∀ a ∈ places (cells y), h'.block a = w.heap.block a :=
    fun y other a mem => (changes.apart (separate.owners.live y)
      (separate.owners.apart y x other) a mem).2
  constructor
  · intro y l object
    by_cases same : y = x
    · subst same
      simp only [World.update, Function.update_self] at object ⊢
      exact here l object
    · simp only [World.update, Function.update_of_ne same] at object ⊢
      exact (separate.lists y l object).frame (others y same)
  · intro y object
    by_cases same : y = x
    · subst same
      simp only [World.update, Function.update_self] at object ⊢
      exact nothing object
    · simp only [World.update, Function.update_of_ne same] at object ⊢
      exact separate.none_ y object
  · have owners := separate.owners.update changes live
    have same : (Function.update (fun x => places (cells x)) x (places c)) =
        fun y => places (Function.update cells x c y) := by
      funext y
      exact (Function.apply_update (fun _ => places) cells x c y).symm
    rw [← same]
    exact owners

theorem step_separate (separate : Separate w cells) {op : ListOp X α} (allowed : ListAllowed w op)
    (owned : ListOwned w op) : ∃ w' c, nextList lt eq w op = some w' ∧
      Separate w' (Function.update cells op.target c) ∧
      ∀ y, y ≠ op.target → w'.object y = w.object y := by
  have kept (x : X) (h' : Heap (Node α)) (o : Option Lst) :
      ∀ y, y ≠ x → (w.update x h' o).object y = w.object y :=
    fun y other => Function.update_of_ne other _ _
  cases op with
  | construct x =>
    have nothing := separate.none_ x allowed
    refine ⟨w.update x w.heap (some .new), [], ?_, separate.update ?_ ?_ ?_, kept x _ _⟩
    · rw [nextList, World.build, allowed]
      rfl
    · rw [nothing]
      exact .refl w.heap []
    · rintro l ⟨⟩
      exact at_new w.heap
    · exact fun _ => rfl
  | copy x y =>
    obtain ⟨fresh, live⟩ := allowed
    obtain ⟨rhs, object⟩ := Option.ne_none_iff_exists'.mp live
    obtain ⟨h', l', c, run, here, -, changes⟩ := copy_run (separate.lists y rhs object)
    refine ⟨w.update x h' (some l'), c, ?_, separate.update ?_ ?_ ?_, kept x _ _⟩
    · simp only [nextList, object, World.build, fresh, run, Option.map_some]
    · rw [separate.none_ x fresh]
      exact changes
    · rintro l ⟨⟩
      exact here
    · rintro ⟨⟩
  | assign x y =>
    obtain ⟨live, live'⟩ := allowed
    obtain ⟨l, object⟩ := Option.ne_none_iff_exists'.mp live
    obtain ⟨rhs, object'⟩ := Option.ne_none_iff_exists'.mp live'
    have same : rhs = l := by
      rcases owned with rfl | ⟨mine, theirs⟩
      · exact Option.some.inj (object'.symm.trans object)
      · exact Option.some.inj (object'.symm.trans (theirs.trans (mine.symm.trans object)))
    subst same
    refine ⟨w.update x w.heap (some rhs), cells x, ?_, separate.update (.refl w.heap _) ?_ ?_,
      kept x _ _⟩
    · simp only [nextList, object, object']
    · rintro l ⟨⟩
      exact separate.lists x rhs object
    · rintro ⟨⟩
  | call x op =>
    obtain ⟨live, valid⟩ := allowed
    obtain ⟨l, object⟩ := Option.ne_none_iff_exists'.mp live
    have here := separate.lists x l object
    have inside : ∀ a ∈ op.iterators, a ∈ places (cells x) := by
      intro a mem
      obtain ⟨r, walk, inside⟩ := valid a mem l object
      rw [here.iterators, Option.mem_some_iff] at walk
      rwa [← walk] at inside
    obtain ⟨h', l', r, c, run, here', changes⟩ := here.call lt eq inside
    refine ⟨w.update x h' (some l'), c, ?_, separate.update changes ?_ ?_, kept x _ _⟩
    · simp only [nextList, World.call, object, run, Option.map_some]
    · rintro l ⟨⟩
      exact here'
    · rintro ⟨⟩
  | destruct x =>
    obtain ⟨l, object⟩ := Option.ne_none_iff_exists'.mp allowed
    obtain ⟨h', run, changes⟩ := (separate.lists x l object).clear
    refine ⟨w.update x h' none, [], ?_, separate.update changes ?_ ?_, kept x _ _⟩
    · simp only [nextList, object, run, Option.map_some]
    · rintro l ⟨⟩
    · exact fun _ => rfl

theorem owned_of_separate (separate : Separate w cells) {op : ListOp X α}
    (allowed : ListAllowed w op) {w' : World X Lst (Node α)} (taken : nextList lt eq w op = some w')
    {cells' : X → Cells α} (separate' : Separate w' cells') : ListOwned w op := by
  cases op with
  | construct | copy | call | destruct => trivial
  | assign x y =>
    obtain ⟨live, live'⟩ := allowed
    obtain ⟨l, object⟩ := Option.ne_none_iff_exists'.mp live
    obtain ⟨rhs, object'⟩ := Option.ne_none_iff_exists'.mp live'
    by_cases same : x = y
    · exact .inl same
    simp only [nextList, object, object', Option.some.injEq] at taken
    subst taken
    have after (z : X) (other : z ≠ x) : (w.update x w.heap (some rhs)).object z = w.object z :=
      Function.update_of_ne other _ _
    have mine := separate'.lists x rhs (Function.update_self _ _ _)
    have theirs := separate'.lists y rhs ((after y (Ne.symm same)).trans object')
    have nothing : places (cells' x) = [] := by
      refine List.eq_nil_iff_forall_not_mem.mpr fun a mem => ?_
      refine separate'.owners.apart x y same a mem ?_
      rwa [mine.places_eq theirs] at mem
    have nodes := (separate.lists y rhs object').places_eq mine
    refine .inr ⟨?_, object'.trans (congrArg some (mine.new_of_places nothing))⟩
    refine object.trans (congrArg some ((separate.lists x l object).new_of_places ?_))
    refine List.eq_nil_iff_forall_not_mem.mpr fun a mem => ?_
    obtain ⟨z, owned⟩ := separate'.owners.owned a (separate.owners.live x a mem)
    have other : z ≠ x := by
      rintro rfl
      rw [nothing] at owned
      cases owned
    obtain ⟨lz, objectz⟩ : ∃ lz, w.object z = some lz := by
      refine Option.ne_none_iff_exists'.mp fun gone => ?_
      rw [separate'.none_ z ((after z other).trans gone)] at owned
      cases owned
    have kept := (separate'.lists z lz ((after z other).trans objectz)).places_eq
      (separate.lists z lz objectz)
    rw [kept] at owned
    exact separate.owners.apart z x other a owned mem

end Worlds
end LinkedList
