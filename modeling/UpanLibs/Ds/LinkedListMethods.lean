import UpanLibs.Ds.LinkedList

/-!
What each method does to a list whose nodes are in a ring, with its elements in the
order of the ring.
-/
namespace LinkedList
open Memory NodeRing

variable {α : Type}

/-- The elements of a list in order, each with the place of its node. -/
abbrev Cells (α : Type) := List (Nat × α)

def places (cells : Cells α) : List Nat := cells.map Prod.fst

@[simp]
theorem places_nil : places ([] : Cells α) = [] := rfl

@[simp]
theorem places_cons (c : Nat × α) (cells : Cells α) : places (c :: cells) = c.1 :: places cells := rfl

@[simp]
theorem places_append (cells cells' : Cells α) :
    places (cells ++ cells') = places cells ++ places cells' := List.map_append

@[simp]
theorem length_places (cells : Cells α) : (places cells).length = cells.length := List.length_map _

/-- The live nodes are those of the elements, in a ring in their order. -/
structure Rep (h : Heap (Node α)) (l : Lst) (cells : Cells α) : Prop where
  ring : Ring (fun a => (h.block a).bind Node.next) (fun a => (h.block a).bind Node.prev)
    (places cells)
  nodes : ∀ a v, (h.block a).map Node.value = some v ↔ (a, v) ∈ cells
  size : l.size = cells.length
  first : l.first = (places cells).head?

structure Shaped (h : Heap (Node α)) (fresh : Nat) (cells : Cells α) (values : Nat → Option α)
    (nexts prevs : Nat → Option Nat) : Prop where
  shape : Shape h fresh values nexts prevs
  nodes : ∀ a v, values a = some v ↔ (a, v) ∈ cells
  ring : Ring nexts prevs (places cells)

section Methods

variable {h : Heap (Node α)} {l : Lst} {cells : Cells α} {fresh : Nat} {values : Nat → Option α}
  {nexts prevs : Nat → Option Nat}

theorem Shaped.rep (shaped : Shaped h fresh cells values nexts prevs) :
    Rep h ⟨cells.length, (places cells).head?⟩ cells := by
  obtain ⟨⟨-, values_, nexts_, prevs_⟩, nodes, ring⟩ := shaped
  constructor
  · rw [funext nexts_, funext prevs_]
    exact ring
  · intro a v
    rw [values_]
    exact nodes a v
  · rfl
  · rfl

theorem Rep.shaped (rep : Rep h l cells) : Shaped h h.next cells
    (fun a => (h.block a).map Node.value) (fun a => (h.block a).bind Node.next)
    (fun a => (h.block a).bind Node.prev) := by
  refine ⟨?_, rep.nodes, rep.ring⟩
  constructor
  · rfl
  all_goals
    intro a
    rfl

theorem Rep.lst (rep : Rep h l cells) : l = ⟨cells.length, (places cells).head?⟩ := by
  obtain ⟨size, first⟩ := l
  rw [Lst.mk.injEq]
  exact ⟨rep.size, rep.first⟩

theorem Shaped.live (shaped : Shaped h fresh cells values nexts prevs) {a : Nat}
    (mem : a ∈ places cells) : ∃ v, values a = some v := by
  obtain ⟨⟨b, v⟩, here, rfl⟩ := List.mem_map.mp mem
  exact ⟨v, (shaped.nodes b v).mpr here⟩

theorem Shaped.new (shaped : Shaped h fresh cells values nexts prevs) : fresh ∉ places cells := by
  intro mem
  obtain ⟨v, here⟩ := shaped.live mem
  rw [shaped.shape.fresh_none] at here
  cases here

theorem Shaped.turn {c₁ c₂ : Cells α} (shaped : Shaped h fresh (c₁ ++ c₂) values nexts prevs) :
    Shaped h fresh (c₂ ++ c₁) values nexts prevs := by
  refine ⟨shaped.shape, ?_, ?_⟩
  · intro a v
    rw [shaped.nodes, List.mem_append, List.mem_append, or_comm]
  · have ring := shaped.ring
    rw [places_append] at ring ⊢
    exact ring.rotate

theorem Shaped.alloc (shaped : Shaped h fresh cells values nexts prevs) (v : α) :
    Shape (h.add ⟨v, none, none⟩) (fresh + 1) (Function.update values fresh (some v))
      (Function.update nexts fresh none) (Function.update prevs fresh none) ∧
    Ring (Function.update nexts fresh none) (Function.update prevs fresh none) (places cells) := by
  refine ⟨shape_alloc shaped.shape v, shaped.ring.frame ?_ ?_⟩
  all_goals
    intro a mem
    have other : a ≠ fresh := by
      rintro rfl
      exact shaped.new mem
    exact Function.update_of_ne other _ _

theorem Shaped.linked {p q : Nat} {w v : α} {cs : Cells α} {h' : Heap (Node α)}
    (shaped : Shaped h fresh ((p, w) :: cs) values nexts prevs)
    (last : q = (places ((p, w) :: cs)).getLast (List.cons_ne_nil p (places cs)))
    (shape : Shape h' (fresh + 1) (Function.update values fresh (some v))
      (Function.update (Function.update (Function.update nexts fresh none) q (some fresh)) fresh
        (some p))
      (Function.update (Function.update (Function.update prevs fresh none) fresh (some q)) p
        (some fresh))) :
    ∃ values nexts prevs, Shaped h' (fresh + 1) ((p, w) :: cs ++ [(fresh, v)]) values nexts prevs := by
  subst last
  obtain ⟨-, ring⟩ := shaped.alloc v
  have ring' := ring.insert shaped.new
  refine ⟨_, _, _, shape, ?_, by rw [places_append]; exact ring'⟩
  intro a u
  have same := shaped.nodes a u
  have new := shaped.new
  by_cases here : a = fresh
  · subst here
    have none_ : (a, u) ∉ (p, w) :: cs := by
      intro mem
      exact new (List.mem_map_of_mem mem)
    rw [List.mem_append, or_iff_right none_]
    simp [eq_comm]
  · rw [Function.update_of_ne here, same]
    simp [here]

theorem last_mem {p : Nat} {w : α} {cs : Cells α} :
    (places ((p, w) :: cs)).getLast (List.cons_ne_nil p (places cs)) ∈ places ((p, w) :: cs) :=
  List.getLast_mem _

theorem run_last (shape : Shape h fresh values nexts prevs) {p : Nat} {v : α}
    (live : values p = some v) (n : Nat) : Lst.last ⟨n, some p⟩ h = some (prevs p, h) :=
  run_prev shape live

theorem Shaped.last (shaped : Shaped h fresh cells values nexts prevs) {p q : Nat} {w : α}
    {cs : Cells α} (first : cells = (p, w) :: cs)
    (last : q = (places ((p, w) :: cs)).getLast (List.cons_ne_nil p (places cs))) :
    (∃ u, values q = some u) ∧ Linked nexts prevs q p := by
  subst first last
  exact ⟨shaped.live last_mem, shaped.ring.closed⟩

/-- The list and the place of the node that is made next. -/
def Holds (h : Heap (Node α)) (fresh : Nat) (l : Lst) (cells : Cells α) : Prop :=
  Rep h l cells ∧ h.next = fresh

theorem Holds.cases (holds : Holds h fresh l cells) :
    l = ⟨cells.length, (places cells).head?⟩ ∧
      ∃ values nexts prevs, Shaped h fresh cells values nexts prevs := by
  obtain ⟨rep, rfl⟩ := holds
  exact ⟨rep.lst, _, _, _, rep.shaped⟩

theorem Shaped.holds (shaped : Shaped h fresh cells values nexts prevs) :
    Holds h fresh ⟨cells.length, (places cells).head?⟩ cells := ⟨shaped.rep, shaped.shape.fresh⟩

theorem pushBack_spec (holds : Holds h fresh l cells) (v : α) :
    ∃ h', l.pushBack v h =
        some (⟨cells.length + 1, (places (cells ++ [(fresh, v)])).head?⟩, h') ∧
      ∃ values nexts prevs, Shaped h' (fresh + 1) (cells ++ [(fresh, v)]) values nexts prevs := by
  obtain ⟨rfl, values, nexts, prevs, shaped⟩ := holds.cases
  obtain ⟨shape, -⟩ := shaped.alloc v
  have made : Memory.alloc ⟨v, none, none⟩ h = some (fresh, h.add ⟨v, none, none⟩) := by
    rw [run_alloc, shaped.shape.fresh]
  have live : Function.update values fresh (some v) fresh = some v := Function.update_self ..
  cases cells with
  | nil =>
    obtain ⟨h₁, first, shape₁⟩ := run_setNext shape live (some fresh)
    obtain ⟨h₂, second, shape₂⟩ := run_setPrev shape₁ live (some fresh)
    refine ⟨h₂, ?_, _, _, _, shape₂, ?_, ring_singleton ?_⟩
    · rw [Lst.pushBack, run_bind made]
      simp only [List.length_nil, if_true]
      rw [run_bind first, run_bind second]
      rfl
    · intro a u
      have none_ : ∀ u, values a ≠ some u := by
        intro u here
        exact List.not_mem_nil ((shaped.nodes a u).mp here)
      by_cases here : a = fresh
      · subst here
        simp [eq_comm]
      · simp [here, none_]
    · simp [Linked]
  | cons c cs =>
    obtain ⟨p, w⟩ := c
    obtain ⟨q, last⟩ : ∃ q, q = (places ((p, w) :: cs)).getLast (List.cons_ne_nil p (places cs)) :=
      ⟨_, rfl⟩
    obtain ⟨⟨u, lastLive⟩, closed⟩ := shaped.last rfl last
    have firstLive : values p = some w := (shaped.nodes p w).mpr (by simp)
    have first_ : p ≠ fresh := by
      rintro rfl
      exact shaped.new (by simp)
    have last_ : q ≠ fresh := by
      rintro rfl
      exact shaped.new (last ▸ last_mem)
    have readLast : Lst.last ⟨cs.length + 1, some p⟩ (h.add ⟨v, none, none⟩) =
        some (some q, h.add ⟨v, none, none⟩) := by
      have read := run_last shape (v := w) (by rw [Function.update_of_ne first_, firstLive])
        (cs.length + 1)
      rwa [Function.update_of_ne first_, closed.2] at read
    obtain ⟨h₁, step₁, shape₁⟩ := run_setNext shape (a := q) (v := u)
      (by rw [Function.update_of_ne last_, lastLive]) (some fresh)
    obtain ⟨h₂, step₂, shape₂⟩ := run_setPrev shape₁ live (some q)
    obtain ⟨h₃, step₃, shape₃⟩ := run_setNext shape₂ live (some p)
    obtain ⟨h₄, step₄, shape₄⟩ := run_setPrev shape₃ (a := p) (v := w)
      (by rw [Function.update_of_ne first_, firstLive]) (some fresh)
    obtain ⟨values', nexts', prevs', shaped'⟩ := shaped.linked last shape₄
    refine ⟨h₄, ?_, values', nexts', prevs', shaped'⟩
    rw [Lst.pushBack, run_bind made]
    simp only [List.length_cons, Nat.add_one_ne_zero, if_false, places_cons, List.head?_cons]
    rw [run_bind readLast, run_bind step₁, run_bind step₂, run_bind step₃, run_bind step₄]
    rfl

theorem pushBack_holds (holds : Holds h fresh l cells) (v : α) :
    ∃ l' h', l.pushBack v h = some (l', h') ∧ Holds h' (fresh + 1) l' (cells ++ [(fresh, v)]) := by
  obtain ⟨h', run, _, _, _, shaped⟩ := pushBack_spec holds v
  have holds' := shaped.holds
  rw [List.length_append, List.length_singleton] at holds'
  exact ⟨_, h', run, holds'⟩

theorem Shaped.ends {x : Nat} {v : α} {front : Cells α}
    (shaped : Shaped h fresh (front ++ [(x, v)]) values nexts prevs) : ∃ p w,
      (places (front ++ [(x, v)])).head? = some p ∧ values p = some w ∧ Linked nexts prevs x p := by
  obtain ⟨p, w, cs, first⟩ : ∃ p w cs, front ++ [(x, v)] = (p, w) :: cs := by
    cases front with
    | nil => exact ⟨_, _, _, rfl⟩
    | cons c cs => exact ⟨c.1, c.2, cs ++ [(x, v)], rfl⟩
  have last : x = (places ((p, w) :: cs)).getLast (List.cons_ne_nil p (places cs)) := by
    simp only [← first, places_append, places_cons, places_nil, List.getLast_append_singleton]
  refine ⟨p, w, by rw [first]; rfl, ?_, (shaped.last first last).2⟩
  rw [shaped.nodes, first]
  simp

theorem pushFront_holds (holds : Holds h fresh l cells) (v : α) :
    ∃ h', l.pushFront v h = some (⟨cells.length + 1, some fresh⟩, h') ∧
      Holds h' (fresh + 1) ⟨cells.length + 1, some fresh⟩ ((fresh, v) :: cells) := by
  obtain ⟨h', run, values, nexts, prevs, shaped⟩ := pushBack_spec holds v
  have holds' := shaped.turn.holds
  refine ⟨h', ?_, holds'⟩
  obtain ⟨p, w, first, live, closed⟩ := shaped.ends
  rw [Lst.pushFront, run_bind run, first, run_bind (run_prev shaped.shape live), closed.2]
  rfl

theorem unlink_spec {x p q : Nat} {v w : α} {cs : Cells α}
    (shaped : Shaped h fresh ((x, v) :: (p, w) :: cs) values nexts prevs)
    (last : q = (places ((p, w) :: cs)).getLast (List.cons_ne_nil p (places cs))) :
    ∃ h', Lst.unlink (some x) h = some ((), h') ∧
      Shape h' fresh values (Function.update nexts q (some p)) (Function.update prevs p (some q)) ∧
      Function.update nexts q (some p) x = some p := by
  have live : values x = some v := (shaped.nodes x v).mpr (by simp)
  have live' : values p = some w := (shaped.nodes p w).mpr (by simp)
  have inside : q ∈ places ((p, w) :: cs) := last ▸ last_mem
  obtain ⟨u, lastLive⟩ := shaped.live (List.mem_cons_of_mem x inside)
  have nodup := (List.nodup_cons.mp shaped.ring.nodup).1
  have behind : x ≠ q := by
    rintro rfl
    exact nodup inside
  have before : x ≠ p := by
    rintro rfl
    exact nodup (by simp)
  have after : nexts x = some p := (shaped.ring.follows (l := [])).1
  have closing : prevs x = some q := by
    have closed := shaped.ring.closed.2
    rw [closed, last]
    rfl
  have kept : Function.update nexts q (some p) x = some p := by
    rw [Function.update_of_ne behind, after]
  obtain ⟨h₁, step₁, shape₁⟩ := run_setNext shaped.shape lastLive (some p)
  obtain ⟨h₂, step₂, shape₂⟩ := run_setPrev shape₁ live' (some q)
  refine ⟨h₂, ?_, shape₂, kept⟩
  rw [Lst.unlink, run_bind (run_prev shaped.shape live), run_bind (run_next shaped.shape live),
    closing, after, run_bind step₁, run_bind (run_next shape₁ live),
    run_bind (run_prev shape₁ live), kept, closing, step₂]

theorem Shaped.removed {x p q : Nat} {v w : α} {cs : Cells α} {h' : Heap (Node α)}
    (shaped : Shaped h fresh ((x, v) :: (p, w) :: cs) values nexts prevs)
    (last : q = (places ((p, w) :: cs)).getLast (List.cons_ne_nil p (places cs)))
    (shape : Shape h' fresh (Function.update values x none)
      (Function.update (Function.update nexts q (some p)) x none)
      (Function.update (Function.update prevs p (some q)) x none)) :
    ∃ values nexts prevs, Shaped h' fresh ((p, w) :: cs) values nexts prevs := by
  subst last
  have nodup := (List.nodup_cons.mp shaped.ring.nodup).1
  refine ⟨_, _, _, shape, ?_, shaped.ring.remove.frame ?_ ?_⟩
  · intro a u
    by_cases here : a = x
    · subst here
      have none_ : (a, u) ∉ (p, w) :: cs := by
        intro mem
        have there : (a, u).1 ∈ places ((p, w) :: cs) := List.mem_map_of_mem mem
        exact nodup there
      simp [none_]
    · rw [Function.update_of_ne here, shaped.nodes, List.mem_cons]
      simp [here]
  all_goals
    intro a mem
    have other : a ≠ x := by
      rintro rfl
      exact nodup mem
    exact Function.update_of_ne other _ _

theorem run_discard (shape : Shape h fresh values nexts prevs) {x : Nat} {v : α}
    (live : values x = some v) (l : Lst) :
    ∃ h', l.discard (some x) h = some (({ l with size := l.size - 1 }, true), h') ∧
      Shape h' fresh (Function.update values x none) (Function.update nexts x none)
        (Function.update prevs x none) := by
  obtain ⟨h', run, shape'⟩ := run_freeNode shape live
  refine ⟨h', ?_, shape'⟩
  rw [Lst.discard, run_bind run]
  rfl

theorem discard_only {x : Nat} {v : α} (holds : Holds h fresh l [(x, v)]) :
    ∃ h', Lst.discard { l with first := none } (some x) h = some ((.new, true), h') ∧
      Holds h' fresh .new [] := by
  obtain ⟨rfl, values, nexts, prevs, shaped⟩ := holds.cases
  obtain ⟨h', run, shape⟩ := run_discard shaped.shape ((shaped.nodes x v).mpr (by simp)) ⟨1, none⟩
  have empty : ∀ a u, Function.update values x none a = some u ↔ (a, u) ∈ ([] : Cells α) := by
    intro a u
    by_cases here : a = x
    · simp [here]
    · rw [Function.update_of_ne here, shaped.nodes]
      simp [here]
  exact ⟨h', run, Shaped.holds ⟨shape, empty, ring_nil⟩⟩

theorem remove_holds {x : Nat} {v : α} {c₁ c₂ : Cells α} {wasFirst : Bool}
    (holds : Holds h fresh l (c₁ ++ (x, v) :: c₂)) (more : c₂ ++ c₁ ≠ [])
    (atFirst : wasFirst = true ↔ c₁ = []) :
    ∃ l' h', (Lst.unlink (some x) >>= fun _ => l.firstWithout wasFirst (some x) >>= fun first =>
        Lst.discard { l with first := first } (some x)) h = some ((l', true), h') ∧
      Holds h' fresh l' (c₁ ++ c₂) := by
  obtain ⟨rfl, values, nexts, prevs, shaped⟩ := holds.cases
  have turned := shaped.turn
  rw [List.cons_append] at turned
  obtain ⟨⟨p, w⟩, cs, rest⟩ := List.exists_cons_of_ne_nil more
  rw [rest] at turned
  obtain ⟨q, last⟩ : ∃ q, q = (places ((p, w) :: cs)).getLast (List.cons_ne_nil p (places cs)) :=
    ⟨_, rfl⟩
  obtain ⟨h₁, unlinked, shape₁, after⟩ := unlink_spec turned last
  have live : values x = some v := (turned.nodes x v).mpr (by simp)
  have firstRun : Lst.firstWithout ⟨(c₁ ++ (x, v) :: c₂).length,
      (places (c₁ ++ (x, v) :: c₂)).head?⟩ wasFirst (some x) h₁ =
        some ((places (c₁ ++ c₂)).head?, h₁) := by
    rw [Lst.firstWithout]
    by_cases here : wasFirst = true
    · rw [if_pos here, run_next shape₁ live, after, atFirst.mp here]
      rw [atFirst.mp here, List.append_nil] at rest
      simp [rest]
    · rw [if_neg here]
      obtain ⟨c, c₁', first⟩ := List.exists_cons_of_ne_nil (fun empty => here (atFirst.mpr empty))
      rw [first]
      rfl
  obtain ⟨h₂, discarded, shape₂⟩ := run_discard shape₁ live
    ⟨(c₁ ++ (x, v) :: c₂).length, (places (c₁ ++ c₂)).head?⟩
  obtain ⟨_, _, _, shaped'⟩ := turned.removed last shape₂
  rw [← rest] at shaped'
  have size : (c₁ ++ (x, v) :: c₂).length - 1 = (c₁ ++ c₂).length := by simp
  rw [size] at discarded
  refine ⟨_, h₂, ?_, shaped'.turn.holds⟩
  rw [run_bind unlinked, run_bind firstRun, discarded]

theorem first_place {x : Nat} {v : α} {c₁ c₂ : Cells α}
    (holds : Holds h fresh l (c₁ ++ (x, v) :: c₂)) : (some x == l.first) = true ↔ c₁ = [] := by
  rw [beq_iff_eq]
  obtain ⟨rfl, values, nexts, prevs, shaped⟩ := holds.cases
  cases c₁ with
  | nil => simp
  | cons c c₁ =>
    have nodup := shaped.ring.nodup
    have apart : x ≠ c.1 := by
      rintro rfl
      exact (List.nodup_cons.mp nodup).1 (by simp)
    simpa using apart

theorem deleteNode_holds {x : Nat} {v : α} {c₁ c₂ : Cells α}
    (holds : Holds h fresh l (c₁ ++ (x, v) :: c₂)) :
    ∃ l' h', l.deleteNode (some x) h = some ((l', true), h') ∧ Holds h' fresh l' (c₁ ++ c₂) := by
  have size : l.size = c₂.length + c₁.length + 1 := by
    rw [holds.1.size]
    simp only [List.length_append, List.length_cons]
    omega
  by_cases only : l.size = 1
  · obtain rfl : c₁ = [] := List.length_eq_zero_iff.mp (by omega)
    obtain rfl : c₂ = [] := List.length_eq_zero_iff.mp (by omega)
    obtain ⟨h', run, holds'⟩ := discard_only holds
    refine ⟨_, h', ?_, holds'⟩
    have first : l.first = some x := holds.1.first
    rw [Lst.deleteNode, if_pos only, if_pos first, run]
  · have more : c₂ ++ c₁ ≠ [] := by
      intro empty
      have none_ := congrArg List.length empty
      rw [List.length_append, List.length_nil] at none_
      omega
    obtain ⟨l', h', run, holds'⟩ := remove_holds holds more (first_place holds)
    refine ⟨l', h', ?_, holds'⟩
    rw [Lst.deleteNode, if_neg only, run]

theorem eraseAt_holds {x : Nat} {v : α} {c₁ c₂ : Cells α}
    (holds : Holds h fresh l (c₁ ++ (x, v) :: c₂)) :
    ∃ l' h', l.eraseAt (some x) h = some ((l', true), h') ∧ Holds h' fresh l' (c₁ ++ c₂) := by
  have some_ : ¬ l.size = 0 := by
    rw [holds.1.size]
    simp
  rw [Lst.eraseAt, if_neg (Option.some_ne_none x), if_neg some_]
  exact deleteNode_holds holds

theorem pop_holds {front : Bool} {x : Nat} {v : α} {c₁ c₂ : Cells α}
    (holds : Holds h fresh l (c₁ ++ (x, v) :: c₂)) (node : l.nodeAt front h = some (some x, h))
    (ending : if front then c₁ = [] else c₂ = []) :
    ∃ l' h', l.pop front h = some ((l', true), h') ∧ Holds h' fresh l' (c₁ ++ c₂) := by
  have size : l.size = c₂.length + c₁.length + 1 := by
    rw [holds.1.size]
    simp only [List.length_append, List.length_cons]
    omega
  have some_ : ¬ l.size = 0 := by omega
  simp only [Lst.pop, if_neg some_]
  rw [run_bind node]
  by_cases only : l.size = 1
  · obtain rfl : c₁ = [] := List.length_eq_zero_iff.mp (by omega)
    obtain rfl : c₂ = [] := List.length_eq_zero_iff.mp (by omega)
    obtain ⟨h', run, holds'⟩ := discard_only holds
    refine ⟨_, h', ?_, holds'⟩
    rw [if_pos only, run]
  · have more : c₂ ++ c₁ ≠ [] := by
      intro empty
      have none_ := congrArg List.length empty
      rw [List.length_append, List.length_nil] at none_
      omega
    have atFirst : front = true ↔ c₁ = [] := by
      cases front with
      | true => simpa using ending
      | false =>
        have back : c₂ = [] := ending
        constructor
        · intro no
          cases no
        · rintro rfl
          exact absurd (by rw [back, List.append_nil]) more
    obtain ⟨l', h', run, holds'⟩ := remove_holds holds more atFirst
    refine ⟨l', h', ?_, holds'⟩
    rw [if_neg only, run]

theorem pop_empty (holds : Holds h fresh l []) (front : Bool) :
    l.pop front h = some ((l, false), h) := by
  have none_ : l.size = 0 := holds.1.size
  rw [Lst.pop, if_pos none_]
  rfl

theorem popFront_holds (holds : Holds h fresh l cells) :
    ∃ l' h', l.pop true h = some ((l', !cells.isEmpty), h') ∧ Holds h' fresh l' cells.tail := by
  cases cells with
  | nil => exact ⟨l, h, pop_empty holds true, holds⟩
  | cons c cs =>
    have first : l.first = some c.1 := holds.1.first
    have node : l.nodeAt true h = some (some c.1, h) := by
      rw [Lst.nodeAt, if_pos rfl, first]
      rfl
    have whole : Holds h fresh l ([] ++ c :: cs) := holds
    exact pop_holds whole node rfl

theorem popBack_holds (holds : Holds h fresh l cells) :
    ∃ l' h', l.pop false h = some ((l', !cells.isEmpty), h') ∧ Holds h' fresh l' cells.dropLast := by
  obtain rfl | ⟨front, ⟨x, v⟩, rfl⟩ := List.eq_nil_or_concat' cells
  · exact ⟨l, h, pop_empty holds false, holds⟩
  · have node : l.nodeAt false h = some (some x, h) := by
      obtain ⟨rfl, values, nexts, prevs, shaped⟩ := holds.cases
      obtain ⟨p, w, first, live, closed⟩ := shaped.ends
      simp only [Lst.nodeAt, Bool.false_eq_true, if_false, first]
      rw [run_prev shaped.shape live, closed.2]
    have kept : (!(front ++ [(x, v)]).isEmpty) = true := by simp
    rw [kept, List.dropLast_concat]
    have popped := pop_holds holds node rfl
    rwa [List.append_nil] at popped

theorem insert_holds {c₁ c₂ : Cells α} (holds : Holds h fresh l (c₁ ++ c₂)) (v : α) :
    ∃ l' h', l.insert (places c₂).head? v h = some ((l', some fresh), h') ∧
      Holds h' (fresh + 1) l' (c₁ ++ (fresh, v) :: c₂) := by
  cases c₂ with
  | nil =>
    rw [List.append_nil] at holds
    obtain ⟨h', run, values, nexts, prevs, shaped⟩ := pushBack_spec holds v
    obtain ⟨p, w, first, live, closed⟩ := shaped.ends
    have read := run_last shaped.shape live (c₁.length + 1)
    rw [closed.2] at read
    have holds' := shaped.holds
    rw [List.length_append, List.length_singleton, first] at holds'
    refine ⟨_, h', ?_, holds'⟩
    rw [first] at run
    simp only [places_nil, List.head?_nil, Lst.insert]
    rw [run_bind run, run_bind read]
    rfl
  | cons c c₂ =>
    obtain ⟨a, w⟩ := c
    simp only [places_cons, List.head?_cons, Lst.insert]
    cases c₁ with
    | nil =>
      have first : some a = l.first := holds.1.first.symm
      obtain ⟨h', run, holds'⟩ := pushFront_holds holds v
      refine ⟨_, h', ?_, holds'⟩
      rw [if_pos first, run_bind run]
      rfl
    | cons c c₁ =>
      have notFirst : ¬ some a = l.first := by
        intro same
        exact List.cons_ne_nil _ _ ((first_place holds).mp (beq_iff_eq.mpr same))
      obtain ⟨rfl, values, nexts, prevs, shaped⟩ := holds.cases
      have turned := shaped.turn
      rw [List.cons_append] at turned
      obtain ⟨q, last⟩ : ∃ q, q = (places ((a, w) :: (c₂ ++ c :: c₁))).getLast
          (List.cons_ne_nil a _) := ⟨_, rfl⟩
      obtain ⟨⟨u, lastLive⟩, closed⟩ := turned.last rfl last
      obtain ⟨shape, -⟩ := turned.alloc v
      have made : alloc ⟨v, none, none⟩ h = some (fresh, h.add ⟨v, none, none⟩) := by
        rw [run_alloc, shaped.shape.fresh]
      have live : Function.update values fresh (some v) fresh = some v := Function.update_self ..
      have other : a ≠ fresh := by
        rintro rfl
        exact turned.new (by simp)
      have last_ : q ≠ fresh := by
        rintro rfl
        exact turned.new (last ▸ last_mem)
      have curLive : Function.update values fresh (some v) a = some w := by
        rw [Function.update_of_ne other, turned.nodes]
        simp
      have before : Function.update prevs fresh none a = some q := by
        rw [Function.update_of_ne other, closed.2]
      obtain ⟨h₁, step₁, shape₁⟩ := run_setNext shape (a := q) (v := u)
        (by rw [Function.update_of_ne last_, lastLive]) (some fresh)
      obtain ⟨h₂, step₂, shape₂⟩ := run_setPrev shape₁ live (some q)
      obtain ⟨h₃, step₃, shape₃⟩ := run_setNext shape₂ live (some a)
      obtain ⟨h₄, step₄, shape₄⟩ := run_setPrev shape₃ curLive (some fresh)
      obtain ⟨_, _, _, shaped'⟩ := turned.linked last shape₄
      have around : (a, w) :: (c₂ ++ c :: c₁) ++ [(fresh, v)] =
          ((a, w) :: c₂) ++ (c :: c₁ ++ [(fresh, v)]) := by simp
      rw [around] at shaped'
      have holds' := shaped'.turn.holds
      rw [List.append_assoc] at holds'
      refine ⟨_, h₄, ?_, holds'⟩
      rw [if_neg notFirst, run_bind made, run_bind (run_prev shape curLive), before,
        run_bind step₁, run_bind (run_prev shape₁ curLive), before, run_bind step₂,
        run_bind step₃, run_bind step₄, run_pure]
      simp [Nat.add_assoc]

theorem run_preInc {x : Nat} {v : α} {c₁ c₂ : Cells α}
    (holds : Holds h fresh l (c₁ ++ (x, v) :: c₂)) :
    l.preInc x h = some ((places c₂).head?, h) := by
  obtain ⟨rfl, values, nexts, prevs, shaped⟩ := holds.cases
  have live : values x = some v := (shaped.nodes x v).mpr (by simp)
  have ring := shaped.ring
  rw [places_append, places_cons] at ring
  cases c₂ with
  | nil =>
    obtain ⟨p, w, first, -, closed⟩ := shaped.ends
    rw [Lst.preInc, run_bind (run_next shaped.shape live), closed.1, if_pos first]
    rfl
  | cons c c₂ =>
    have after := (ring.follows (p := x) (q := c.1)).1
    have apart : ¬ (places (c₁ ++ (x, v) :: c :: c₂)).head? = some c.1 := by
      have nodup := ring.nodup
      intro same
      cases c₁ with
      | nil =>
        cases same
        exact (List.nodup_cons.mp nodup).1 (by simp)
      | cons b c₁ =>
        have same : b.1 = c.1 := Option.some.inj same
        apply (List.nodup_cons.mp nodup).1
        rw [same]
        simp
    rw [Lst.preInc, run_bind (run_next shaped.shape live), after, if_neg apart,
      run_next shaped.shape live, after]
    rfl

theorem run_preIncReverse {x : Nat} {v : α} {c₁ c₂ : Cells α}
    (holds : Holds h fresh l (c₁ ++ (x, v) :: c₂)) :
    l.preIncReverse x h = some ((places c₁).getLast?, h) := by
  obtain ⟨rfl, values, nexts, prevs, shaped⟩ := holds.cases
  have live : values x = some v := (shaped.nodes x v).mpr (by simp)
  obtain ⟨front, ⟨z, u⟩, ending⟩ : ∃ front c, (x, v) :: c₂ = front ++ [c] :=
    ⟨_, _, (List.dropLast_append_getLast (List.cons_ne_nil (x, v) c₂)).symm⟩
  have whole : c₁ ++ (x, v) :: c₂ = (c₁ ++ front) ++ [(z, u)] := by
    rw [ending, List.append_assoc]
  have shaped' := shaped
  rw [whole] at shaped'
  obtain ⟨p, w, first, firstLive, closed⟩ := shaped'.ends
  rw [← whole] at first
  have read : Lst.last ⟨(c₁ ++ (x, v) :: c₂).length, (places (c₁ ++ (x, v) :: c₂)).head?⟩ h =
      some (some z, h) := by
    rw [first, run_last shaped.shape firstLive, closed.2]
  rw [Lst.preIncReverse, run_bind read, run_bind (run_prev shaped.shape live)]
  obtain rfl | ⟨c₁, ⟨y, t⟩, rfl⟩ := List.eq_nil_or_concat' c₁
  · have same : x = p := Option.some.inj first
    rw [same, closed.2, if_pos rfl]
    rfl
  · have ring := shaped.ring
    rw [List.append_assoc, places_append, List.singleton_append, places_cons, places_cons] at ring
    have before : prevs x = some y := ring.follows.2
    have apart : ¬ some z = some y := by
      intro same
      have there : y ∈ places ((x, v) :: c₂) := by
        rw [ending, ← Option.some.inj same]
        simp
      have nodup := ring.nodup
      rw [List.nodup_append] at nodup
      exact (List.nodup_cons.mp nodup.2.1).1 there
    rw [before, if_neg apart, run_prev shaped.shape live, before]
    simp [places]

theorem run_findFrom (holds : Holds h fresh l cells) (stop : α → Bool) {c₁ c₂ : Cells α}
    (split : cells = c₁ ++ c₂) {rounds : Nat} (enough : c₂.length ≤ rounds) :
    l.findFrom stop rounds (places c₂).head? h =
      some ((places (c₂.dropWhile fun c => !stop c.2)).head?, h) := by
  induction c₂ generalizing c₁ rounds with
  | nil =>
    rw [Lst.findFrom.eq_def]
    rfl
  | cons c c₂ ih =>
    obtain ⟨x, v⟩ := c
    obtain ⟨rounds, rfl⟩ : ∃ n, rounds = n + 1 := ⟨rounds - 1, by simp at enough; omega⟩
    have here : Holds h fresh l (c₁ ++ (x, v) :: c₂) := split ▸ holds
    obtain ⟨-, values, nexts, prevs, shaped⟩ := here.cases
    have live : values x = some v := (shaped.nodes x v).mpr (by simp)
    have split' : cells = c₁ ++ [(x, v)] ++ c₂ := by simp [split]
    have enough' : c₂.length ≤ rounds := by simpa using enough
    have rest := ih split' enough'
    simp only [places_cons, List.head?_cons, Lst.findFrom]
    rw [run_bind (run_value shaped.shape live)]
    cases stops : stop v with
    | true =>
      simp [stops, run_pure]
    | false =>
      simp only [Bool.false_eq_true, if_false]
      rw [run_bind (run_preInc here), rest]
      simp [stops]

theorem run_forward (holds : Holds h fresh l cells) {c₁ c₂ : Cells α} (split : cells = c₁ ++ c₂)
    {rounds : Nat} (enough : c₂.length ≤ rounds) :
    Lst.readFrom l.preInc rounds (places c₂).head? h = some (c₂.map Prod.snd, h) := by
  induction c₂ generalizing c₁ rounds with
  | nil =>
    rw [Lst.readFrom.eq_def]
    rfl
  | cons c c₂ ih =>
    obtain ⟨x, v⟩ := c
    obtain ⟨rounds, rfl⟩ : ∃ n, rounds = n + 1 := ⟨rounds - 1, by simp at enough; omega⟩
    have here : Holds h fresh l (c₁ ++ (x, v) :: c₂) := split ▸ holds
    obtain ⟨-, values, nexts, prevs, shaped⟩ := here.cases
    have live : values x = some v := (shaped.nodes x v).mpr (by simp)
    have split' : cells = c₁ ++ [(x, v)] ++ c₂ := by simp [split]
    have enough' : c₂.length ≤ rounds := by simpa using enough
    have rest := ih split' enough'
    simp only [places_cons, List.head?_cons, Lst.readFrom]
    rw [run_bind (run_value shaped.shape live), run_bind (run_preInc here), run_bind rest]
    rfl

theorem run_backward (holds : Holds h fresh l cells) {c₁ c₂ : Cells α} (split : cells = c₁ ++ c₂)
    {rounds : Nat} (enough : c₁.length ≤ rounds) :
    Lst.readFrom l.preIncReverse rounds (places c₁).getLast? h =
      some ((c₁.map Prod.snd).reverse, h) := by
  induction c₁ using List.reverseRecOn generalizing c₂ rounds with
  | nil =>
    rw [Lst.readFrom.eq_def]
    rfl
  | append_singleton c₁ c ih =>
    obtain ⟨x, v⟩ := c
    obtain ⟨rounds, rfl⟩ : ∃ n, rounds = n + 1 := ⟨rounds - 1, by simp at enough; omega⟩
    have here : Holds h fresh l (c₁ ++ (x, v) :: c₂) := by
      rw [split, List.append_assoc] at holds
      exact holds
    obtain ⟨-, values, nexts, prevs, shaped⟩ := here.cases
    have live : values x = some v := (shaped.nodes x v).mpr (by simp)
    have split' : cells = c₁ ++ (x, v) :: c₂ := by simp [split]
    have enough' : c₁.length ≤ rounds := by simpa using enough
    have rest := ih split' enough'
    have last : (places (c₁ ++ [(x, v)])).getLast? = some x := by simp
    rw [last]
    simp only [Lst.readFrom]
    rw [run_bind (run_value shaped.shape live), run_bind (run_preIncReverse here), run_bind rest,
      List.map_append, List.map_singleton, List.reverse_concat]
    rfl

theorem forward_holds (holds : Holds h fresh l cells) :
    l.forward h = some (cells.map Prod.snd, h) := by
  rw [Lst.forward, holds.1.first]
  exact run_forward holds (List.nil_append cells).symm (Nat.le_of_eq holds.1.size.symm)

theorem backward_holds (holds : Holds h fresh l cells) :
    l.backward h = some ((cells.map Prod.snd).reverse, h) := by
  have last : l.last h = some ((places cells).getLast?, h) := by
    obtain ⟨rfl, values, nexts, prevs, shaped⟩ := holds.cases
    obtain rfl | ⟨front, ⟨x, v⟩, rfl⟩ := List.eq_nil_or_concat' cells
    · rfl
    · obtain ⟨p, w, first, live, closed⟩ := shaped.ends
      rw [first, run_last shaped.shape live, closed.2]
      simp
  rw [Lst.backward, run_bind last]
  exact run_backward holds (List.append_nil cells).symm (Nat.le_of_eq holds.1.size.symm)

def sweep (chosen : List α → α → Bool) : List α → Cells α → Cells α
  | _, [] => []
  | seen, c :: cells =>
    let rest := sweep chosen (seen ++ [c.2]) cells
    if chosen seen c.2 then rest else c :: rest

theorem eraseLoop_holds (chosen : List α → α → Bool) {c₁ c₂ : Cells α}
    (holds : Holds h fresh l (c₁ ++ c₂)) (seen : List α) {rounds : Nat}
    (enough : c₂.length ≤ rounds) :
    ∃ l' h', Lst.eraseLoop chosen rounds l seen (places c₂).head? h =
        some ((l', seen ++ c₂.map Prod.snd), h') ∧
      Holds h' fresh l' (c₁ ++ sweep chosen seen c₂) := by
  induction c₂ generalizing h l c₁ seen rounds with
  | nil =>
    rw [Lst.eraseLoop.eq_def]
    refine ⟨l, h, ?_, holds⟩
    simp [run_pure]
  | cons c c₂ ih =>
    obtain ⟨x, v⟩ := c
    obtain ⟨rounds, rfl⟩ : ∃ n, rounds = n + 1 := ⟨rounds - 1, by simp at enough; omega⟩
    obtain ⟨-, values, nexts, prevs, shaped⟩ := holds.cases
    have live : values x = some v := (shaped.nodes x v).mpr (by simp)
    have enough' : c₂.length ≤ rounds := by simpa using enough
    have visited : seen ++ ((x, v) :: c₂).map Prod.snd = seen ++ [v] ++ c₂.map Prod.snd := by simp
    simp only [places_cons, List.head?_cons, Lst.eraseLoop, visited]
    rw [run_bind (run_value shaped.shape live), run_bind (run_preInc holds)]
    cases takes : chosen seen v with
    | true =>
      obtain ⟨l₁, h₁, run, holds₁⟩ := eraseAt_holds holds
      obtain ⟨l', h', rest, holds'⟩ := ih holds₁ (seen ++ [v]) enough'
      refine ⟨l', h', ?_, ?_⟩
      · simp only [if_true]
        rw [run_bind run]
        exact rest
      · simpa [sweep, takes] using holds'
    | false =>
      have holds₁ : Holds h fresh l (c₁ ++ [(x, v)] ++ c₂) := by
        rw [List.append_assoc]
        exact holds
      obtain ⟨l', h', rest, holds'⟩ := ih holds₁ (seen ++ [v]) enough'
      refine ⟨l', h', rest, ?_⟩
      simpa [sweep, takes] using holds'

theorem chain_freed {c : List Nat} {f x : Nat} (new : x ∉ c)
    (chain : List.IsChain (fun p q => nexts p = some q) (c ++ [f])) :
    List.IsChain (fun p q => Function.update nexts x none p = some q) (c ++ [f]) := by
  induction c with
  | nil => exact .singleton f
  | cons a c ih =>
    have other : a ≠ x := by
      rintro rfl
      exact new (by simp)
    obtain ⟨b, rest, next⟩ : ∃ b rest, c ++ [f] = b :: rest :=
      List.exists_cons_of_ne_nil (by simp)
    rw [List.cons_append, next, List.isChain_cons_cons] at chain ⊢
    rw [Function.update_of_ne other]
    refine ⟨chain.1, ?_⟩
    rw [← next] at chain ⊢
    exact ih (fun mem => new (by simp [mem])) chain.2

theorem clearFrom_spec {f : Nat} (first : l.first = some f) {c : Cells α}
    (shape : Shape h fresh values nexts prevs) (nodes : ∀ a v, values a = some v ↔ (a, v) ∈ c)
    (nodup : (places c).Nodup) (chain : List.IsChain (fun p q => nexts p = some q) (places c ++ [f]))
    (apart : f ∉ (places c).tail) {rounds : Nat} (enough : c.length ≤ rounds) :
    ∃ h' values nexts prevs, l.clearFrom rounds (places c).head? h = some ((), h') ∧
      Shape h' fresh values nexts prevs ∧ ∀ a v, values a ≠ some v := by
  induction c generalizing h values nexts prevs rounds with
  | nil =>
    refine ⟨h, values, nexts, prevs, ?_, shape, ?_⟩
    · rw [Lst.clearFrom.eq_def]
      rfl
    · intro a v here
      exact List.not_mem_nil ((nodes a v).mp here)
  | cons c cs ih =>
    obtain ⟨x, v⟩ := c
    obtain ⟨rounds, rfl⟩ : ∃ n, rounds = n + 1 := ⟨rounds - 1, by simp at enough; omega⟩
    have live : values x = some v := (nodes x v).mpr (by simp)
    obtain ⟨new, nodup'⟩ := List.nodup_cons.mp nodup
    have enough' : cs.length ≤ rounds := by simpa using enough
    have step : l.preInc x h = some ((places cs).head?, h) := by
      cases cs with
      | nil =>
        have after : nexts x = some f := (List.isChain_cons_cons.mp chain).1
        rw [Lst.preInc, run_bind (run_next shape live), after, if_pos first]
        rfl
      | cons d cs =>
        have after : nexts x = some d.1 := (List.isChain_cons_cons.mp chain).1
        have other : ¬ l.first = some d.1 := by
          rw [first]
          intro same
          apply apart
          rw [Option.some.inj same]
          simp
        rw [Lst.preInc, run_bind (run_next shape live), after, if_neg other,
          run_next shape live, after]
        rfl
    obtain ⟨h₁, freed, shape₁⟩ := run_freeNode shape live
    have nodes₁ : ∀ a u, Function.update values x none a = some u ↔ (a, u) ∈ cs := by
      intro a u
      by_cases here : a = x
      · subst here
        have none_ : (a, u) ∉ cs := by
          intro mem
          have there : (a, u).1 ∈ places cs := List.mem_map_of_mem mem
          exact new there
        simp [none_]
      · rw [Function.update_of_ne here, nodes]
        simp [here]
    have chain₁ : List.IsChain (fun p q => Function.update nexts x none p = some q)
        (places cs ++ [f]) := chain_freed new (List.isChain_cons.mp chain).2
    obtain ⟨h', values', nexts', prevs', rest, shape', none_⟩ :=
      ih shape₁ nodes₁ nodup' chain₁ (fun mem => apart (List.mem_of_mem_tail mem)) enough'
    refine ⟨h', values', nexts', prevs', ?_, shape', none_⟩
    simp only [places_cons, List.head?_cons, Lst.clearFrom]
    rw [run_bind step, run_bind freed, rest]

theorem clear_holds (holds : Holds h fresh l cells) :
    ∃ h', l.clear h = some (.new, h') ∧ Holds h' fresh .new [] := by
  obtain ⟨rfl, values, nexts, prevs, shaped⟩ := holds.cases
  cases cells with
  | nil =>
    refine ⟨h, ?_, holds⟩
    have nothing : Lst.clearFrom ⟨0, none⟩ 0 none h = some ((), h) := rfl
    exact run_bind nothing
  | cons c cs =>
    have ring := shaped.ring
    have chain := ring.chain
    rw [places_cons, Cycle.chain_coe_cons] at chain
    obtain ⟨h', values', nexts', prevs', run, shape, none_⟩ :=
      clearFrom_spec (l := ⟨(c :: cs).length, (places (c :: cs)).head?⟩) (f := c.1) rfl
        shaped.shape shaped.nodes ring.nodup (chain.imp fun _ _ link => link.1)
        (List.nodup_cons.mp ring.nodup).1 (Nat.le_refl (c :: cs).length)
    have empty : ∀ a u, values' a = some u ↔ (a, u) ∈ ([] : Cells α) := by
      intro a u
      simp [none_]
    refine ⟨h', ?_, Shaped.holds ⟨shape, empty, ring_nil⟩⟩
    rw [Lst.clear, run_bind run]
    rfl

end Methods

end LinkedList
