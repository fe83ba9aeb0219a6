import UpanLibs.Ds.Vector

/-!
The vectors refine mathematical lists: exactly the slots below the size hold
elements, and every call answers as it does on lists.
-/
namespace Vector
open Memory RawSlots SplitList

variable {α : Type}

/-- The elements of a vector are in the first slots of its buffer, whose bytes are its
    capacity. -/
structure Rep (sizeofT : Nat) (h : Heap (Slots α)) (v : Vec) (l : List α) : Prop where
  size : v.size = l.length
  null : v.buffer = none → l = [] ∧ v.capacity = 0
  slots : ∀ a, v.buffer = some a → ∃ room, h.block a = some (filled l room) ∧
    v.capacity = sizeofT * (l.length + room)

variable {sizeofT : Nat}

theorem owning_rep : Owning Vec.buffer (Rep sizeofT (α := α)) := by
  constructor
  · intro h v l a rep has
    obtain ⟨room, here, _⟩ := rep.slots a has
    simp [here]
  · intro h h' v l rep same
    constructor
    · exact rep.size
    · exact rep.null
    · intro a has
      rw [same a has]
      exact rep.slots a has

theorem rep_new (h : Heap (Slots α)) : Rep sizeofT h .new [] := by
  constructor
  · rfl
  · intro _
    exact ⟨rfl, rfl⟩
  · intro a has
    cases has

theorem rep_buffer (sizeofT : Nat) {h : Heap (Slots α)} {a room : Nat} {l : List α}
    (here : h.block a = some (filled l room)) :
    Rep sizeofT h ⟨l.length, sizeofT * (l.length + room), some a⟩ l := by
  constructor
  · rfl
  · intro null
    cases null
  · intro b has
    cases has
    exact ⟨room, here, rfl⟩

theorem rep_cases {h : Heap (Slots α)} {v : Vec} {l : List α} (rep : Rep sizeofT h v l) :
    v = .new ∧ l = [] ∨ ∃ a room, h.block a = some (filled l room) ∧
      v = ⟨l.length, sizeofT * (l.length + room), some a⟩ := by
  obtain ⟨size, capacity, buffer⟩ := v
  obtain ⟨rfl, null, slots⟩ := rep
  cases buffer with
  | none =>
    obtain ⟨rfl, rfl⟩ := null rfl
    exact .inl ⟨rfl, rfl⟩
  | some a =>
    obtain ⟨room, here, rfl⟩ := slots a rfl
    exact .inr ⟨a, room, here, rfl⟩

section Methods

variable {h : Heap (Slots α)} {v : Vec} {l : List α}

theorem run_newBuffer (positive : 0 < sizeofT) (n : Nat) :
    Vec.newBuffer (α := α) sizeofT (sizeofT * n) h = some (h.next, h.add (raw n)) := by
  rw [Vec.newBuffer, Nat.mul_div_cancel_left n positive]
  rfl

theorem clear_rep (rep : Rep sizeofT h v l) :
    ∃ h', v.clear h = some ({ v with size := 0 }, h') ∧ Effect h h' v.buffer v.buffer ∧
      Rep sizeofT h' { v with size := 0 } [] := by
  obtain ⟨rfl, rfl⟩ | ⟨a, room, here, rfl⟩ := rep_cases rep
  · exact ⟨h, rfl, .refl h _, rep_new h⟩
  · have place : h.block a = some ([] ++ l.map some ++ raw room) := here
    have cleared := run_destroyFrom place
    refine ⟨_, run_bind cleared, .write h a _, ?_⟩
    have now : (h.write a (raw l.length ++ raw room)).block a =
        some (filled [] (l.length + room)) := by
      rw [Heap.block_write_self here]
      simp [filled, raw]
    have rep := rep_buffer sizeofT now
    rwa [List.length_nil, Nat.zero_add] at rep

theorem destroy_effect (rep : Rep sizeofT h v l) :
    ∃ h', v.destroy h = some ((), h') ∧ Effect h h' v.buffer none := by
  obtain ⟨h₁, run, effect, cleared⟩ := clear_rep rep
  cases buffer : v.buffer with
  | none =>
    rw [buffer] at effect
    refine ⟨h₁, ?_, effect⟩
    rw [Vec.destroy, run_bind run]
    simp only [buffer]
    rfl
  | some a =>
    obtain ⟨room, here, _⟩ := cleared.slots a buffer
    rw [buffer] at effect
    have gone := run_deleteSlots here
    refine ⟨h₁.erase a, ?_, effect.trans (.erase h₁ a)⟩
    rw [Vec.destroy, run_bind run, ← gone]
    simp only [buffer]

theorem run_copyToNew (rep : Rep sizeofT h v l) {n : Nat}
    (room : l.length ≤ n) :
    ∃ h', copySlots v.buffer (some h.next) v.size 0 (h.add (raw n)) = some ((), h') ∧
      Effect h h' none (some h.next) ∧
      h'.block h.next = some (filled l (n - l.length)) := by
  have dst : (h.add (raw n)).block h.next = some (filled [] (l.length + (n - l.length))) := by
    rw [Heap.block_add, if_pos rfl, Nat.add_sub_cancel' room]
    rfl
  obtain ⟨rfl, rfl⟩ | ⟨a, free, here, rfl⟩ := rep_cases rep
  · refine ⟨h.add (raw n), rfl, .alloc h _, ?_⟩
    rw [dst]
    simp
  have apart : a ≠ h.next := by
    rintro rfl
    rw [h.block_next] at here
    cases here
  have src : (h.add (raw n)).block a = some (filled ([] ++ l) free) := by
    rw [Heap.block_add, if_neg apart, here]
    rfl
  have copied := run_copySlots apart src dst
  exact ⟨_, copied, (Effect.alloc h _).trans (.write _ h.next _), Heap.block_write_self dst _⟩

theorem copy_rep (positive : 0 < sizeofT) (rep : Rep sizeofT h v l) :
    ∃ v' h', v.copy sizeofT h = some (v', h') ∧ Effect h h' none v'.buffer ∧
      Rep sizeofT h' v' l := by
  obtain ⟨rfl, rfl⟩ | ⟨a, room, here, same⟩ := rep_cases rep
  · exact ⟨.new, h, rfl, .refl h none, rep_new h⟩
  have size : v.size = l.length := rep.size
  have capacity : v.capacity = sizeofT * (l.length + room) := by rw [same]
  by_cases null : v.capacity = 0
  · have nothing : l.length + room = 0 := by
      rw [capacity, Nat.mul_eq_zero] at null
      omega
    have empty : l = [] := List.length_eq_zero_iff.mp (by omega)
    refine ⟨.new, h, ?_, .refl h none, empty ▸ rep_new h⟩
    rw [Vec.copy, if_pos null]
    rfl
  · obtain ⟨h', copied, effect, filled_⟩ :=
      run_copyToNew rep (Nat.le_add_right l.length room)
    rw [Nat.add_sub_cancel_left] at filled_
    refine ⟨⟨l.length, sizeofT * (l.length + room), some h.next⟩, h', ?_, effect,
      rep_buffer sizeofT filled_⟩
    rw [Vec.copy, if_neg null, capacity, run_bind (run_newBuffer positive _), run_bind copied, size]
    rfl

theorem assign_rep (positive : 0 < sizeofT) (rep : Rep sizeofT h v l) {rhs : Vec} {l' : List α}
    (source : Rep sizeofT h rhs l') :
    ∃ temp h₁ h₂, rhs.copy sizeofT h = some (temp, h₁) ∧ v.destroy h₁ = some ((), h₂) ∧
      Effect h h₂ v.buffer temp.buffer ∧ Rep sizeofT h₂ temp l' := by
  obtain ⟨temp, h₁, copied, effect, copy⟩ := copy_rep positive source
  obtain ⟨h₂, gone, freed⟩ := destroy_effect (owning_rep.beside rep effect)
  refine ⟨temp, h₁, h₂, copied, gone, effect.exchange freed, ?_⟩
  apply owning_rep.frame copy
  intro a has
  apply freed.frame a _ (by simp)
  intro mine
  exact effect.apart (owning_rep.live rep mine) has

theorem expand_rep (positive : 0 < sizeofT) (rep : Rep sizeofT h v l) :
    ∃ a room h', v.expandIfNeeded sizeofT h =
        some (⟨l.length, sizeofT * (l.length + (room + 1)), some a⟩, h') ∧
      Effect h h' v.buffer (some a) ∧ h'.block a = some (filled l (room + 1)) := by
  have size : v.size = l.length := rep.size
  by_cases full : v.capacity ≤ v.size * sizeofT
  · obtain ⟨n, grown⟩ : ∃ n, (if v.size ≤ 1 then 2 else v.size * 3 / 2) = l.length + (n + 1) := by
      rw [size]
      split
      · exact ⟨1 - l.length, by omega⟩
      · exact ⟨l.length * 3 / 2 - l.length - 1, by omega⟩
    obtain ⟨h₁, copied, effect, filled_⟩ :=
      run_copyToNew rep (Nat.le_add_right l.length (n + 1))
    rw [Nat.add_sub_cancel_left] at filled_
    have kept : Rep sizeofT h₁ v l := owning_rep.beside rep effect
    obtain ⟨h₂, gone, freed⟩ := destroy_effect kept
    refine ⟨h.next, n, h₂, ?_, effect.exchange freed, ?_⟩
    · rw [Vec.expandIfNeeded, if_pos full, grown]
      rw [run_bind (run_newBuffer positive _), run_bind copied, run_bind gone, size]
      rfl
    · have apart : v.buffer ≠ some h.next := by
        intro has
        exact effect.apart (owning_rep.live rep has) rfl
      rw [freed.frame _ apart (by simp), filled_]
  · obtain ⟨rfl, rfl⟩ | ⟨a, room, here, rfl⟩ := rep_cases rep
    · exact absurd (Nat.zero_le _) full
    · cases room with
      | zero =>
        refine absurd ?_ full
        simp only [Nat.add_zero, Nat.mul_comm, Nat.le_refl]
      | succ room =>
        refine ⟨a, room, h, ?_, .refl h _, here⟩
        rw [Vec.expandIfNeeded, if_neg full]
        rfl

end Methods

def Refines (sizeofT : Nat) (f : Vec → Program (Slots α) (Vec × Reply α))
    (g : List α → List α × Reply α) : Prop :=
  ∀ h v l, Rep sizeofT h v l → ∃ v' h', f v h = some ((v', (g l).2), h') ∧
    Effect h h' v.buffer v'.buffer ∧ Rep sizeofT h' v' (g l).1

def insertAt (i : Int) (v : α) (l : List α) : List α × Reply α :=
  if i < 0 ∨ (l.length : Int) < i then (l, .thrown (invalidIndex i))
  else (l.insertIdx i.toNat v, .done)

def eraseRange (first last : Int) (l : List α) : List α × Reply α :=
  if first < 0 ∨ last < first ∨ (l.length : Int) < last then
    (l, .thrown (outOfErase first last))
  else (l.take first.toNat ++ l.drop last.toNat, .done)

def dropBack (l : List α) : List α × Reply α :=
  if l = [] then (l, .thrown (outOfRange (-1))) else (l.dropLast, .done)

def elementAt (i : Int) (l : List α) : Reply α :=
  match l[i.toNat]? with
  | some v => if i < 0 then .thrown (outOfBounds i) else .element v
  | none => .thrown (outOfBounds i)

section Methods

variable {h : Heap (Slots α)} {l : List α} {a room : Nat}

theorem run_insertInside {γ : Type} {before after : List α} {last : α} (saved : α)
    (here : h.block a = some (filled (before ++ (after ++ [last])) (room + 1)))
    (rest : Program (Slots α) γ) :
    (do
      let tail ← readSlot (some a) (before.length + after.length)
      construct (some a) (before.length + after.length + 1) tail
      shiftUp (some a) after.length (before.length + after.length)
      assign (some a) before.length saved
      rest) h = rest (h.write a (filled (before ++ saved :: (after ++ [last])) room)) := by
  have tail : h.block a = some ((before ++ after).map some ++ some last :: raw (room + 1)) := by
    rw [here, filled_grow]
    simp
  have place : h.block a =
      some ((before ++ (after ++ [last])).map some ++ none :: raw room) := by
    rw [here, filled_room]
  rw [run_bind (run_readSlot tail (by simp)),
    run_bind (run_construct place (by simp; omega) last), filled_grow]
  have grown : (h.write a (filled (before ++ (after ++ [last]) ++ [last]) room)).block a =
      some (filled (before ++ after ++ last :: [last]) room) := by
    rw [Heap.block_write_self here]
    simp
  obtain ⟨u, shifted⟩ := run_shiftUp grown
  rw [run_bind shifted, Heap.write_write]
  have moved : (h.write a (filled (before ++ u :: after ++ [last]) room)).block a =
      some (before.map some ++ some u :: filled (after ++ [last]) room) := by
    rw [Heap.block_write_self here, ← filled_cons]
    simp
  rw [run_bind (run_assign moved (by simp) saved), Heap.write_write, ← filled_cons]

theorem split_inside {k : Nat} (inside : k < l.length) :
    ∃ before after last, l = before ++ (after ++ [last]) ∧ before.length = k := by
  have some_ : l.drop k ≠ [] := by simpa using inside
  refine ⟨l.take k, (l.drop k).dropLast, (l.drop k).getLast some_, ?_, by simp; omega⟩
  rw [List.dropLast_append_getLast, List.take_append_drop]

theorem insert_refines (positive : 0 < sizeofT) (i : Int) (saved : α) :
    Refines sizeofT (fun v => v.insert sizeofT i saved) (insertAt i saved) := by
  intro h v l rep
  obtain ⟨a, room, h₁, run, effect, here⟩ := expand_rep positive rep
  have expanded : ∀ rest : Vec → Program (Slots α) (Vec × Reply α),
      (v.expandIfNeeded sizeofT >>= rest) h =
        rest ⟨l.length, sizeofT * (l.length + (room + 1)), some a⟩ h₁ := fun rest => run_bind run
  simp only [Vec.insert]
  rw [expanded]
  by_cases out : i < 0 ∨ (l.length : Int) < i
  · rw [if_pos out, insertAt, if_pos out]
    exact ⟨_, h₁, rfl, effect, rep_buffer sizeofT here⟩
  rw [if_neg out, insertAt, if_neg out]
  obtain ⟨k, rfl⟩ := Int.eq_ofNat_of_zero_le (by omega : 0 ≤ i)
  have inside : k ≤ l.length := by omega
  have bytes : sizeofT * (l.length + (room + 1)) = sizeofT * (l.length + 1 + room) := by
    rw [Nat.add_right_comm, Nat.add_assoc]
  rw [bytes]
  by_cases end_ : (k : Int) = l.length
  · have end_ : k = l.length := by omega
    subst end_
    rw [if_pos rfl, Int.toNat_natCast]
    have slot : h₁.block a = some (l.map some ++ none :: raw room) := by
      rw [here, filled_room]
    have built : construct (some a) l.length saved h₁ = _ := run_construct slot (by simp) saved
    rw [filled_grow] at built
    refine ⟨_, _, run_bind built, effect.trans (.write _ a _), ?_⟩
    have rep := rep_buffer sizeofT
      (Heap.block_write_self here (filled (l ++ [saved]) room))
    simpa using rep
  · obtain ⟨before, after, last, rfl, rfl⟩ :=
      split_inside (l := l) (k := k) (by omega)
    rw [if_neg end_, Int.toNat_natCast, insertIdx_length]
    have size : (before ++ (after ++ [last])).length = before.length + after.length + 1 := by
      simp
      omega
    have up : before.length + after.length + 1 + 1 - 2 = before.length + after.length := by omega
    have count : before.length + after.length - before.length = after.length := by omega
    have down : before.length + after.length + 1 - 1 = before.length + after.length := by omega
    simp only [size, up, count, down]
    rw [run_insertInside saved here]
    refine ⟨_, _, rfl, effect.trans (.write _ a _), ?_⟩
    have rep := rep_buffer sizeofT
      (Heap.block_write_self here (filled (before ++ saved :: (after ++ [last])) room))
    have size : (before ++ saved :: (after ++ [last])).length =
        before.length + after.length + 1 + 1 := by
      simp
      omega
    rwa [size] at rep

theorem pushBack_refines (positive : 0 < sizeofT) (saved : α) :
    Refines sizeofT (fun v => v.pushBack sizeofT saved) (fun l => (l ++ [saved], .done)) := by
  intro h v l rep
  have appended : insertAt (v.size : Int) saved l = (l ++ [saved], .done) := by
    rw [rep.size, insertAt, if_neg (by omega), Int.toNat_natCast, List.insertIdx_length_self]
  have pushed := insert_refines positive v.size saved h v l rep
  rw [appended] at pushed
  exact pushed

theorem erase_refines (first last : Int) :
    Refines sizeofT (fun v => v.erase first last) (eraseRange (α := α) first last) := by
  intro h v l rep
  have size := rep.size
  simp only [Vec.erase]
  by_cases out : first < 0 ∨ last < first ∨ (l.length : Int) < last
  · rw [size, if_pos out, eraseRange, if_pos out]
    exact ⟨v, h, rfl, .refl h _, rep⟩
  rw [size, if_neg out, eraseRange, if_neg out]
  obtain ⟨k, rfl⟩ := Int.eq_ofNat_of_zero_le (by omega : 0 ≤ first)
  obtain ⟨n, rfl⟩ := Int.eq_ofNat_of_zero_le (by omega : 0 ≤ last)
  obtain ⟨before, gap, rest, rfl, rfl, rfl⟩ :
      ∃ before gap rest, l = before ++ gap ++ rest ∧ before.length = k ∧
        before.length + gap.length = n := by
    refine ⟨l.take k, (l.drop k).take (n - k), l.drop n, ?_, by simp; omega, by simp; omega⟩
    have back : l.drop n = (l.drop k).drop (n - k) := by
      rw [List.drop_drop, Nat.add_sub_cancel' (by omega)]
    rw [back, List.append_assoc, List.take_append_drop, List.take_append_drop]
  have count : ((before.length + gap.length : Nat) - before.length : Int).toNat = gap.length := by
    omega
  have taken : (before ++ gap ++ rest).take before.length = before := by simp
  have dropped : (before ++ gap ++ rest).drop (before.length + gap.length) = rest := by
    rw [← List.length_append, List.drop_left]
  simp only [Int.toNat_natCast, count, taken, dropped]
  cases gap with
  | nil =>
    rw [List.append_nil] at rep
    exact ⟨v, h, rfl, .refl h _, rep⟩
  | cons g gap =>
    rw [if_neg (by simp)]
    obtain ⟨rfl, empty⟩ | ⟨a, room, here, rfl⟩ := rep_cases rep
    · simp at empty
    have length : (before ++ g :: gap ++ rest).length =
        before.length + (g :: gap).length + rest.length := by
      simp only [List.length_append]
    obtain ⟨gone, same, shifted⟩ := run_shiftDown (by simp) here
    have moved : (h.write a (filled (before ++ rest ++ gone) room)).block a =
        some (filled (before ++ rest ++ gone) room) := Heap.block_write_self here _
    have destroyed := run_destroyBelow moved
    have left : before.length + (g :: gap).length + rest.length -
        (before.length + (g :: gap).length) = rest.length := by omega
    have fewer : before.length + (g :: gap).length + rest.length - (g :: gap).length =
        (before ++ rest).length := by
      rw [List.length_append]
      omega
    have top : (before ++ rest).length + gone.length =
        before.length + (g :: gap).length + rest.length := by
      rw [List.length_append, same]
      omega
    have times : before.length + (g :: gap).length + rest.length - (before ++ rest).length =
        gone.length := by
      omega
    simp only [length, left, fewer, times]
    rw [run_bind shifted, ← top, run_bind destroyed, Heap.write_write]
    refine ⟨_, _, rfl, .write h a _, ?_⟩
    have rep := rep_buffer sizeofT
      (Heap.block_write_self here (filled (before ++ rest) (gone.length + room)))
    rwa [← Nat.add_assoc] at rep

theorem popBack_refines : Refines sizeofT Vec.popBack (dropBack (α := α)) := by
  intro h v l rep
  have size := rep.size
  by_cases empty : l = []
  · subst empty
    refine ⟨v, h, ?_, .refl h _, rep⟩
    rw [Vec.popBack, size]
    rfl
  · have some_ : 0 < l.length := List.length_pos_iff.mpr empty
    have below : ¬ ((v.size : Int) - 1 < 0 ∨ (v.size : Int) < (v.size : Int) - 1) := by omega
    have end_ : ¬ ((v.size : Int) - 1 + 1 < 0 ∨ (v.size : Int) < (v.size : Int) - 1 + 1) := by omega
    have inside : ¬ ((v.size : Int) - 1 < 0 ∨ (v.size : Int) - 1 + 1 < (v.size : Int) - 1 ∨
        (l.length : Int) < (v.size : Int) - 1 + 1) := by omega
    have erased := erase_refines ((v.size : Int) - 1) ((v.size : Int) - 1 + 1) h v l rep
    have front : ((v.size : Int) - 1).toNat = l.length - 1 := by omega
    have back : ((v.size : Int) - 1 + 1).toNat = l.length := by omega
    rw [eraseRange, if_neg inside, front, back, List.drop_length, List.append_nil,
      ← List.dropLast_eq_take] at erased
    rw [dropBack, if_neg empty]
    simp only [Vec.popBack, if_neg below, if_neg end_]
    exact erased

theorem clear_refines :
    Refines sizeofT (fun v => v.clear.map fun v => (v, .done)) (fun _ : List α => ([], .done)) := by
  intro h v l rep
  obtain ⟨h', run, effect, rep⟩ := clear_rep rep
  exact ⟨_, h', run_map run _, effect, rep⟩

theorem run_index {v : Vec} (rep : Rep sizeofT h v l) (i : Int) :
    v.index i h = some (elementAt i l, h) := by
  have size := rep.size
  rw [Vec.index, size, elementAt]
  by_cases out : i < 0 ∨ (l.length : Int) ≤ i
  · rw [if_pos out]
    split
    next e here =>
      have inside := (List.getElem?_eq_some_iff.mp here).1
      rw [if_pos (by omega)]
      rfl
    next => rfl
  · rw [if_neg out]
    have inside : i.toNat < l.length := by omega
    obtain ⟨before, e, after, rfl, same⟩ : ∃ before e after, l = before ++ e :: after ∧
        before.length = i.toNat := by
      obtain ⟨before, after, split_, same⟩ := split_at (List.getElem?_eq_getElem inside)
      exact ⟨before, _, after, split_, same⟩
    obtain ⟨rfl, empty⟩ | ⟨a, room, here, rfl⟩ := rep_cases rep
    · simp at empty
    rw [filled_cons] at here
    rw [run_bind (run_readSlot here (by simpa using same)), ← same, get_length]
    have below : ¬ i < 0 := by omega
    simp only [if_neg below]
    rfl

theorem index_refines (i : Int) :
    Refines sizeofT (fun v => (v.index i).map fun r => (v, r))
      (fun l : List α => (l, elementAt i l)) := by
  intro h v l rep
  exact ⟨v, h, run_map (run_index rep i) _, .refl h _, rep⟩

end Methods

section Model

variable {V : Type}

abbrev Model (V α : Type) := V → Option (List α)

def onList [DecidableEq V] (m : Model V α) (x : V) (g : List α → List α × Reply α) : Model V α × Reply α :=
  match m x with
  | none => (m, .done)
  | some l => (Function.update m x (some (g l).1), (g l).2)

def withArg (m : Model V α) (arg : Arg V α) (f : α → Model V α × Reply α) :
    Model V α × Reply α :=
  match arg with
  | .value v => f v
  | .element y i => match elementAt i ((m y).getD []) with
    | .element e => f e
    | r => (m, r)

def next [DecidableEq V] (m : Model V α) : Op V α → Model V α × Reply α
  | .construct x => (Function.update m x (some []), .done)
  | .reserve x n =>
    if n < 0 then (m, .thrown (invalidReserve n)) else (Function.update m x (some []), .done)
  | .copyConstruct x y => (Function.update m x (m y), .done)
  | .moveConstruct x y => (Function.update (Function.update m x (m y)) y (some []), .done)
  | .destruct x => (Function.update m x none, .done)
  | .copyAssign x y => (Function.update m x (m y), .done)
  | .moveAssign x y => (Function.update (Function.update m x (m y)) y (some []), .done)
  | .swap x y => (Function.update (Function.update m y (m x)) x (m y), .done)
  | .insert x i arg => withArg m arg fun v => onList m x (insertAt i v)
  | .pushBack x arg => withArg m arg fun v => onList m x fun l => (l ++ [v], .done)
  | .erase x first last => onList m x (eraseRange first last)
  | .popBack x => onList m x dropBack
  | .clear x => onList m x fun _ => ([], .done)
  | .index x i => onList m x fun l => (l, elementAt i l)

def Arg.Lives (m : Model V α) : Arg V α → Prop
  | .value _ => True
  | .element y _ => (m y).isSome

/-- The objects of the operation live, those it constructs do not, and a move is between
    two vectors. -/
def Admits (m : Model V α) : Op V α → Prop
  | .construct x | .reserve x _ => m x = none
  | .copyConstruct x y | .moveConstruct x y => m x = none ∧ (m y).isSome
  | .destruct x | .erase x _ _ | .popBack x | .clear x | .index x _ => (m x).isSome
  | .copyAssign x y | .swap x y => (m x).isSome ∧ (m y).isSome
  | .moveAssign x y => (m x).isSome ∧ (m y).isSome ∧ x ≠ y
  | .insert x _ arg | .pushBack x arg => (m x).isSome ∧ arg.Lives m

/-- The vectors represent the lists: each in its own buffer, and no buffer without one. -/
abbrev Holds (sizeofT : Nat) : State V α → Model V α → Prop :=
  Represents Vec.buffer (Rep sizeofT)

variable {s : State V α} {m : Model V α} {x y : V}

theorem passing_refines {arg : Arg V α} {f : α → Option (State V α × Reply α)}
    {g : α → Model V α × Reply α} (held : Holds sizeofT s m) (lives : arg.Lives m)
    (refines : ∀ v, ∃ s', f v = some (s', (g v).2) ∧ Holds sizeofT s' (g v).1) :
    ∃ s', passing s arg f = some (s', (withArg m arg g).2) ∧
      Holds sizeofT s' (withArg m arg g).1 := by
  cases arg with
  | value v => exact refines v
  | element y i =>
    obtain ⟨l, here⟩ := Option.isSome_iff_exists.mp lives
    obtain ⟨v, object, rep⟩ := held.some_of here
    simp only [passing, object, withArg, here, Option.getD_some, run_index rep]
    cases elementAt i l with
    | element e => exact refines e
    | done => exact ⟨s, rfl, held⟩
    | thrown text => exact ⟨s, rfl, held⟩

variable [DecidableEq V]

theorem calling_refines {f : Vec → Program (Slots α) (Vec × Reply α)}
    {g : List α → List α × Reply α} (held : Holds sizeofT s m) (lives : (m x).isSome)
    (refines : Refines sizeofT f g) :
    ∃ s', s.call x f = some (s', (onList m x g).2) ∧ Holds sizeofT s' (onList m x g).1 := by
  obtain ⟨l, here⟩ := Option.isSome_iff_exists.mp lives
  obtain ⟨v, object, rep⟩ := held.some_of here
  obtain ⟨v', h', run, effect, rep'⟩ := refines s.heap v l rep
  simp only [onList, here]
  exact ⟨_, held.call owning_rep object run effect rep'⟩

theorem constructing_refines {f : Program (Slots α) (Vec × Reply α)} {v : Vec} {l : List α}
    {h' : Heap (Slots α)} (held : Holds sizeofT s m) (fresh : m x = none)
    (run : f s.heap = some ((v, .done), h')) (effect : Effect s.heap h' none v.buffer)
    (rep : Rep sizeofT h' v l) :
    ∃ s', constructing s x f = some (s', .done) ∧
      Holds sizeofT s' (Function.update m x (some l)) := by
  have object := held.none_of fresh
  have nothing : (s.object x).bind Vec.buffer = none := by rw [object]; rfl
  refine ⟨s.update x h' (some v), ?_, ?_⟩
  · simp only [constructing, object, run, Option.map_some]
  · exact held.update owning_rep (by rw [nothing]; exact effect) (.some rep)

theorem step_refines (positive : 0 < sizeofT) (held : Holds sizeofT s m) {op : Op V α}
    (admits : Admits m op) :
    ∃ s', step sizeofT s op = some (s', (next m op).2) ∧ Holds sizeofT s' (next m op).1 := by
  cases op with
  | construct x => exact constructing_refines held admits rfl (.refl _ _) (rep_new _)
  | reserve x n =>
    by_cases negative : n < 0
    · refine ⟨s.update x s.heap none, ?_, ?_⟩
      · simp only [step, constructing, held.none_of admits, Vec.reserve, if_pos negative, next]
        rfl
      · rw [World.update_self (held.none_of admits)]
        simpa only [next, if_pos negative] using held
    simp only [next, if_neg negative]
    by_cases positive_ : 0 < n
    · have run : Vec.reserve sizeofT n s.heap = some ((⟨0, sizeofT * n.toNat, some s.heap.next⟩,
          (.done : Reply α)), s.heap.add (raw n.toNat)) := by
        rw [Vec.reserve, if_neg negative, if_pos positive_, run_bind (run_newBuffer positive _)]
        rfl
      refine constructing_refines held admits run (.alloc _ _) ?_
      have here : (s.heap.add (raw n.toNat)).block s.heap.next = some (filled [] n.toNat) :=
        if_pos rfl
      have rep := rep_buffer sizeofT here
      rwa [List.length_nil, Nat.zero_add] at rep
    · have run : Vec.reserve sizeofT n s.heap = some ((.new, (.done : Reply α)), s.heap) := by
        rw [Vec.reserve, if_neg negative, if_neg positive_]
        rfl
      exact constructing_refines held admits run (.refl _ _) (rep_new _)
  | copyConstruct x y =>
    obtain ⟨fresh, lives⟩ := admits
    obtain ⟨l, here⟩ := Option.isSome_iff_exists.mp lives
    obtain ⟨rhs, object, rep⟩ := held.some_of here
    obtain ⟨v, h', run, effect, rep'⟩ := copy_rep positive rep
    simp only [step, object, next, here]
    exact constructing_refines held fresh (run_map run _) effect rep'
  | moveConstruct x y =>
    obtain ⟨fresh, lives⟩ := admits
    obtain ⟨l, here⟩ := Option.isSome_iff_exists.mp lives
    obtain ⟨rhs, object, rep⟩ := held.some_of here
    have apart : x ≠ y := by
      rintro rfl
      rw [fresh] at here
      cases here
    have moved := held.move owning_rep apart (held.none_of fresh) rfl (rep_new s.heap)
    rw [object] at moved
    refine ⟨_, ?_, moved⟩
    simp only [step, held.none_of fresh, object]
    rfl
  | destruct x =>
    obtain ⟨l, here⟩ := Option.isSome_iff_exists.mp admits
    obtain ⟨v, object, rep⟩ := held.some_of here
    obtain ⟨h', run, effect⟩ := destroy_effect rep
    refine ⟨s.update x h' none, ?_, held.destroy owning_rep object effect⟩
    simp only [step, object, run]
    rfl
  | copyAssign x y =>
    obtain ⟨lives, source⟩ := admits
    obtain ⟨l, here⟩ := Option.isSome_iff_exists.mp source
    obtain ⟨rhs, object, rep⟩ := held.some_of here
    obtain ⟨l', mine⟩ := Option.isSome_iff_exists.mp lives
    obtain ⟨v, object', rep'⟩ := held.some_of mine
    obtain ⟨temp, h₁, h₂, copied, gone, effect, assigned⟩ := assign_rep positive rep' rep
    have run : (rhs.copy sizeofT >>= fun temp => v.destroy >>= fun _ =>
        pure (temp, (.done : Reply α))) s.heap = some ((temp, .done), h₂) := by
      rw [run_bind copied, run_bind gone]
      rfl
    simp only [step, object, next, here]
    exact ⟨_, held.call owning_rep object' run effect assigned⟩
  | moveAssign x y =>
    obtain ⟨lives, source, apart⟩ := admits
    obtain ⟨l, here⟩ := Option.isSome_iff_exists.mp source
    obtain ⟨rhs, object, rep⟩ := held.some_of here
    obtain ⟨l', mine⟩ := Option.isSome_iff_exists.mp lives
    obtain ⟨v, object', rep'⟩ := held.some_of mine
    obtain ⟨h', run, effect⟩ := destroy_effect rep'
    have moved := held.moveOver owning_rep apart object' object effect rfl (rep_new h')
    refine ⟨_, ?_, moved⟩
    simp only [step, object, object', run]
    rfl
  | swap x y =>
    obtain ⟨lives, source⟩ := admits
    obtain ⟨l, here⟩ := Option.isSome_iff_exists.mp source
    obtain ⟨rhs, object, rep⟩ := held.some_of here
    obtain ⟨l', mine⟩ := Option.isSome_iff_exists.mp lives
    obtain ⟨v, object', rep'⟩ := held.some_of mine
    refine ⟨(s.update y s.heap (some v)).update x s.heap (some rhs), ?_, ?_⟩
    · simp only [step, object, object']
      rfl
    · rw [← object, ← object', ← World.swap_eq]
      simp only [next, ← Equiv.comp_swap_eq_update]
      exact held.swap x y
  | insert x i arg =>
    exact passing_refines held admits.2 fun v =>
      calling_refines held admits.1 (insert_refines positive i v)
  | pushBack x arg =>
    exact passing_refines held admits.2 fun v =>
      calling_refines held admits.1 (pushBack_refines positive v)
  | erase x first last => exact calling_refines held admits (erase_refines first last)
  | popBack x => exact calling_refines held admits popBack_refines
  | clear x => exact calling_refines held admits clear_refines
  | index x i => exact calling_refines held admits (index_refines i)

/-- In every sequence of admitted operations on any number of vectors each answer is
    that of the lists, and the vectors represent the lists afterwards. -/
theorem vectors_refine_lists (positive : 0 < sizeofT) {ops : List (Op V α)}
    (admitted : Machine.Admitted next Admits (fun _ => none) ops) :
    ∃ s, Machine.serve (step sizeofT) initial ops =
        some (s, (Machine.answers next (fun _ => none) ops).2) ∧
      Represents Vec.buffer (Rep sizeofT) s (Machine.answers next (fun _ => none) ops).1 := by
  refine Machine.serve_refines (Holds sizeofT) ?_ represents_empty admitted
  intro s m op held admits
  exact step_refines positive held admits

end Model

def Arg.livesDecidable {V : Type} (m : Model V α) : ∀ arg : Arg V α, Decidable (arg.Lives m)
  | .value _ => .isTrue trivial
  | .element y _ => inferInstanceAs (Decidable ((m y).isSome = true))

instance {V : Type} [DecidableEq V] (m : Model V α) : ∀ op : Op V α, Decidable (Admits m op)
  | .construct x | .reserve x _ => inferInstanceAs (Decidable (m x = none))
  | .copyConstruct x y | .moveConstruct x y =>
    inferInstanceAs (Decidable (m x = none ∧ (m y).isSome = true))
  | .destruct x | .erase x _ _ | .popBack x | .clear x | .index x _ =>
    inferInstanceAs (Decidable ((m x).isSome = true))
  | .copyAssign x y | .swap x y =>
    inferInstanceAs (Decidable ((m x).isSome = true ∧ (m y).isSome = true))
  | .moveAssign x y =>
    inferInstanceAs (Decidable ((m x).isSome = true ∧ (m y).isSome = true ∧ x ≠ y))
  | .insert x _ arg | .pushBack x arg =>
    have := arg.livesDecidable m
    inferInstanceAs (Decidable ((m x).isSome = true ∧ arg.Lives m))

def grownWithOwnElement : List (Op Bool Nat) :=
  [.reserve true 2, .pushBack true (.value 7), .pushBack true (.value 8),
   .insert true 1 (.element true 0), .copyConstruct false true, .erase true 0 2,
   .erase true 1 9, .moveAssign true false, .popBack false, .index true 1]

theorem vectors_refine_lists_grown :
    ∃ s, Machine.serve (step 8) initial grownWithOwnElement =
        some (s, [.done, .done, .done, .done, .done, .done, .thrown (outOfErase 1 9), .done,
          .thrown (outOfRange (-1)), .element 7]) ∧
      Represents Vec.buffer (Rep 8) s
        (Machine.answers next (fun _ => none) grownWithOwnElement).1 :=
  vectors_refine_lists (by decide) (by decide)

end Vector
