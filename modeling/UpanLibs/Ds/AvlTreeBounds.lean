import UpanLibs.Ds.AvlTreeMap
import UpanLibs.Ds.AvlTreeWorld

/-!
The two bound searches of a `_tree`, and the elements between two lower bounds.
-/
namespace AvlTree
open Memory HeightTree HeightTree.HTree Transition

variable {V K : Type} {C : CType V K} {h : Heap (Node V)} {m : Avl} {t : Cells V}

structure SplitAt (fits : V → Bool) (l before after : List (Nat × V)) : Prop where
  whole : l = before ++ after
  low : ∀ x ∈ before, fits x.2 = false
  high : ∀ x ∈ after, fits x.2 = true

theorem SplitAt.filter {fits : V → Bool} {l before after : List (Nat × V)}
    (split : SplitAt fits l before after) : l.filter (fun x => fits x.2) = after := by
  have none_ : before.filter (fun x => fits x.2) = [] := by
    rw [List.filter_eq_nil_iff]
    intro x member
    rw [split.low x member]
    decide
  rw [split.whole, List.filter_append, none_, List.filter_eq_self.mpr split.high]
  rfl

theorem SplitAt.find {fits : V → Bool} {l before after : List (Nat × V)}
    (split : SplitAt fits l before after) :
    (l.find? fun x => fits x.2).map Prod.fst = at_ after := by
  rw [← List.head?_filter, split.filter]
  rfl

theorem exists_split {fits : V → Bool} {l : List (Nat × V)}
    (upward : l.Pairwise fun x y => fits x.2 = true → fits y.2 = true) :
    ∃ before after, SplitAt fits l before after := by
  induction l with
  | nil => exact ⟨[], [], rfl, by simp, by simp⟩
  | cons x l ih =>
    obtain ⟨first, rest⟩ := List.pairwise_cons.mp upward
    cases here : fits x.2 with
    | true =>
      refine ⟨[], x :: l, rfl, by simp, ?_⟩
      intro y member
      rcases List.mem_cons.mp member with rfl | later
      · exact here
      · exact first y later here
    | false =>
      obtain ⟨before, after, split⟩ := ih rest
      refine ⟨x :: before, after, by rw [split.whole, List.cons_append], ?_, split.high⟩
      intro y member
      rcases List.mem_cons.mp member with rfl | later
      · exact here
      · exact split.low y later

theorem boundNode_run {fits : V → Bool} : ∀ (rounds : Nat) {t : Cells V} {p result : Option Nat}
    {before after : List (Nat × V)}, t.depth ≤ rounds → Linked h t p →
    SplitAt fits t.cells before after →
    boundNode fits rounds (root t) result h = some ((at_ after).or result, h) := by
  intro rounds t
  induction t generalizing rounds with
  | leaf =>
    intro p result before after _ _ split
    obtain ⟨-, rfl⟩ := List.append_eq_nil_iff.mp split.whole.symm
    cases rounds <;> rfl
  | node l x k r left right =>
    intro p result before after enough linked split
    obtain ⟨here, low, high⟩ := linked
    rw [depth] at enough
    obtain ⟨rounds, rfl⟩ : ∃ n, rounds = n + 1 := ⟨rounds - 1, by omega⟩
    have cells : l.cells ++ x :: r.cells = before ++ after := split.whole
    rw [root, boundNode, run_bind (run_element here), nodeOf_element]
    rw [List.append_eq_append_iff] at cells
    cases fit : fits x.2 with
    | true =>
      -- the element is not before the place, so that the place is in the left subtree or here
      have inner : ∃ m, l.cells = before ++ m ∧ after = m ++ x :: r.cells := by
        obtain ⟨m, first, rest⟩ | found := cells
        · cases m with
          | nil =>
            rw [List.append_nil] at first
            exact ⟨[], by rw [first, List.append_nil], rest.symm⟩
          | cons y m =>
            rw [List.cons_append] at rest
            obtain ⟨rfl, -⟩ := List.cons.inj rest
            have unfit := split.low x (by simp [first])
            rw [fit] at unfit
            cases unfit
        · exact found
      obtain ⟨m, first, rfl⟩ := inner
      have split' : SplitAt fits l.cells before m :=
        ⟨first, split.low, fun y member => split.high y (List.mem_append_left _ member)⟩
      rw [if_pos rfl, at_append, at_cons, Option.or_assoc]
      exact (run_bind (run_child here .left)).trans (left rounds (by omega) low split')
    | false =>
      have outer : ∃ m, before = l.cells ++ x :: m ∧ r.cells = m ++ after := by
        obtain ⟨m, first, rest⟩ | ⟨m, first, rest⟩ := cells
        · cases m with
          | nil =>
            have fit' := split.high x (by rw [← List.nil_append after, ← rest]; simp)
            rw [fit] at fit'
            cases fit'
          | cons y m =>
            rw [List.cons_append] at rest
            obtain ⟨rfl, later⟩ := List.cons.inj rest
            exact ⟨m, first, later⟩
        · have fit' := split.high x (by simp [rest])
          rw [fit] at fit'
          cases fit'
      obtain ⟨m, rfl, rest⟩ := outer
      have split' : SplitAt fits r.cells m after :=
        ⟨rest, fun y member => split.low y (by simp [member]), split.high⟩
      rw [if_neg (by decide)]
      exact (run_bind (run_child here .right)).trans (right rounds (by omega) high split')

theorem bound_run (holds : Holds C h m t) {fits : V → Bool} {before after : List (Nat × V)}
    (split : SplitAt fits t.cells before after) :
    boundNode fits (h.next + 1) m.root none h = some (at_ after, h) := by
  have enough := holds.linked.depth_le holds.nodup
  have run : boundNode fits (h.next + 1) (root t) none h = some ((at_ after).or none, h) :=
    boundNode_run (h.next + 1) (by omega) holds.linked split
  rw [holds.root, run, Option.or_none]

def CType.above (C : CType V K) (key : K) (e : V) : Bool := !C.less (C.getKey e) key

theorem split_lower (sorted : C.Sorted t.cells) (key : K) :
    ∃ before after, SplitAt (C.above key) t.cells before after := by
  apply exists_split
  refine sorted.imp ?_
  intro x y less above
  rw [CType.above, Bool.not_eq_true'] at above ⊢
  cases back : C.less (C.getKey y.2) key with
  | false => rfl
  | true =>
    rw [C.trans less back] at above
    cases above

theorem split_upper (sorted : C.Sorted t.cells) (key : K) :
    ∃ before after, SplitAt (fun e => C.less key (C.getKey e)) t.cells before after := by
  apply exists_split
  refine sorted.imp ?_
  intro x y less more
  exact C.trans more less

theorem lowerBound_run (holds : Holds C h m t) {key : K} {before after : List (Nat × V)}
    (split : SplitAt (C.above key) t.cells before after) :
    m.lowerBound C key h = some (at_ after, h) := by
  rw [Avl.lowerBound, run_bind (run_rounds h)]
  exact bound_run holds split

theorem upperBound_run (holds : Holds C h m t) {key : K} {before after : List (Nat × V)}
    (split : SplitAt (fun e => C.less key (C.getKey e)) t.cells before after) :
    m.upperBound C key h = some (at_ after, h) := by
  rw [Avl.upperBound, run_bind (run_rounds h)]
  exact bound_run holds split

/-! From one lower bound to another. -/

theorem at_ne {before mid rest : List (Nat × V)} {x : Nat × V} (nodup : (ids t).Nodup)
    (cells : t.cells = before ++ x :: mid ++ rest) : some x.1 ≠ at_ rest := by
  intro same
  cases rest with
  | nil => cases same
  | cons y rest =>
    have same : x.1 = y.1 := Option.some.inj same
    rw [ids, cells, List.append_assoc, List.map_append] at nodup
    have apart := (List.nodup_append.mp nodup).2.1
    rw [List.cons_append, List.map_cons, List.nodup_cons] at apart
    apply apart.1
    rw [same]
    simp

theorem rangeFrom_run (holds : Holds C h m t) {rest : List (Nat × V)} :
    ∀ (mid : List (Nat × V)) {n : Nat} {before : List (Nat × V)},
    t.cells = before ++ mid ++ rest → mid.length ≤ n →
    Avl.rangeFrom (at_ rest) n (at_ (mid ++ rest)) h = some (mid.map Prod.snd, h) := by
  intro mid
  induction mid with
  | nil =>
    intro n before _ _
    cases n with
    | zero => exact congrFun (if_pos rfl) h
    | succ n => exact congrFun (if_pos rfl) h
  | cons x mid ih =>
    intro n before cells enough
    obtain ⟨n, rfl⟩ : ∃ k, n = k + 1 := ⟨n - 1, by
      simp only [List.length_cons] at enough
      omega⟩
    have cells' : t.cells = before ++ x :: (mid ++ rest) := by simp [cells]
    have next : t.cells = (before ++ [x]) ++ mid ++ rest := by simp [cells]
    rw [List.cons_append, at_cons, Avl.rangeFrom, if_neg (at_ne holds.nodup cells)]
    exact (run_bind (value_run holds.linked (z := x) (by simp [cells']))).trans
      ((run_bind (preInc_run holds.linked holds.nodup cells')).trans
        (run_bind (ih next (by simpa using enough))))

theorem rangeFrom_behind (holds : Holds C h m t) : ∀ (rest : List (Nat × V)) {n : Nat}
    {before mid : List (Nat × V)} {x : Nat × V}, t.cells = before ++ x :: mid ++ rest →
    Avl.rangeFrom (some x.1) n (at_ rest) h = none := by
  intro rest
  induction rest with
  | nil =>
    intro n before mid x _
    cases n <;> rfl
  | cons y rest ih =>
    intro n before mid x cells
    have apart := (at_ne holds.nodup cells).symm
    have cells' : t.cells = (before ++ x :: mid) ++ y :: rest := cells
    have next : t.cells = before ++ x :: (mid ++ [y]) ++ rest := by simp [cells]
    cases n with
    | zero => exact congrFun (if_neg apart) h
    | succ n =>
      rw [Avl.rangeFrom, if_neg apart]
      exact (run_bind (value_run holds.linked (z := y) (by simp [cells']))).trans
        ((run_bind (preInc_run holds.linked holds.nodup cells')).trans
          (run_bind_none (ih next)))

def between (C : CType V K) (l : List V) (a b : K) : List V :=
  l.filter fun e => C.above a e && C.less (C.getKey e) b

section Between

variable {a b : K} {lowA highA lowB highB mid : List (Nat × V)}

theorem above_iff {key : K} {e : V} : C.above key e = false ↔ C.less (C.getKey e) key = true := by
  rw [CType.above, Bool.not_eq_false']

theorem between_places (splitA : SplitAt (C.above a) t.cells lowA highA)
    (splitB : SplitAt (C.above b) t.cells lowB highB) (first : lowB = lowA ++ mid)
    (rest : highA = mid ++ highB) : between C (values t) a b = mid.map Prod.snd := by
  have cells : t.cells = lowA ++ mid ++ highB := by rw [splitA.whole, rest, List.append_assoc]
  have before : lowA.filter (fun x => C.above a x.2 && C.less (C.getKey x.2) b) = [] := by
    rw [List.filter_eq_nil_iff]
    intro x member
    rw [splitA.low x member, Bool.false_and]
    decide
  have inside : mid.filter (fun x => C.above a x.2 && C.less (C.getKey x.2) b) = mid := by
    rw [List.filter_eq_self]
    intro x member
    have high := splitA.high x (by simp [rest, member])
    have low := splitB.low x (by simp [first, member])
    rw [high, above_iff.mp low]
    rfl
  have behind : highB.filter (fun x => C.above a x.2 && C.less (C.getKey x.2) b) = [] := by
    rw [List.filter_eq_nil_iff]
    intro x member
    have high := splitB.high x member
    rw [CType.above, Bool.not_eq_true'] at high
    rw [high, Bool.and_false]
    decide
  rw [between, values, List.filter_map, cells]
  simp only [Function.comp_def, List.filter_append, before, inside, behind, List.nil_append,
    List.append_nil]

theorem range_run (holds : Holds C h m t) (a b : K) :
    (C.less b a = false → m.range C a b h = some (between C (values t) a b, h))
      ∧ ∀ l h', m.range C a b h = some (l, h') → l = between C (values t) a b ∧ h' = h := by
  obtain ⟨lowA, highA, splitA⟩ := split_lower holds.sorted a
  obtain ⟨lowB, highB, splitB⟩ := split_lower holds.sorted b
  have run : m.range C a b h = Avl.rangeFrom (at_ highB) m.size (at_ highA) h := by
    rw [Avl.range, run_bind (lowerBound_run holds splitA), run_bind (lowerBound_run holds splitB)]
  have forward : ∀ mid, lowB = lowA ++ mid → highA = mid ++ highB →
      m.range C a b h = some (between C (values t) a b, h) := by
    intro mid first rest
    have cells : t.cells = lowA ++ mid ++ highB := by rw [splitA.whole, rest, List.append_assoc]
    have size : mid.length ≤ m.size := by
      rw [holds.size, cells, List.length_append, List.length_append]
      omega
    rw [run, rest, rangeFrom_run holds mid cells size, between_places splitA splitB first rest]
  have whole : lowA ++ highA = lowB ++ highB := splitA.whole.symm.trans splitB.whole
  have cases_ : m.range C a b h = some (between C (values t) a b, h)
      ∨ m.range C a b h = none ∧ C.less b a = true := by
    rw [List.append_eq_append_iff] at whole
    obtain ⟨mid, first, rest⟩ | ⟨mid, first, rest⟩ := whole
    · exact .inl (forward mid first rest)
    · cases mid with
      | nil => exact .inl (forward [] (by simp [first]) (by simp [rest]))
      | cons x mid =>
        -- the loop starts behind the place where it would have to stop
        right
        have cells : t.cells = lowB ++ x :: mid ++ highA := by
          rw [splitB.whole, rest, List.append_assoc]
        constructor
        · rw [run, rest, List.cons_append, at_cons]
          exact rangeFrom_behind holds highA cells
        · have low := above_iff.mp (splitA.low x (by simp [first]))
          have high := splitB.high x (by simp [rest])
          rw [CType.above, Bool.not_eq_true'] at high
          rcases C.cotrans b low with less | less
          · rw [high] at less
            cases less
          · exact less
  rcases cases_ with visited | ⟨fails, behind⟩
  · refine ⟨fun _ => visited, ?_⟩
    intro l h' result
    rw [visited] at result
    cases result
    exact ⟨rfl, rfl⟩
  · rw [fails, behind]
    exact ⟨nofun, nofun⟩

end Between

/-- In every reachable tree the bounds are the first elements in the order of iteration with a
    key that is not less, and with one that is greater. The loop from one lower bound to another
    meets the elements between the keys, in ascending order; it only ends otherwise when it is
    started behind the place where it would have to stop. -/
theorem bounds_spec {X : Type} [DecidableEq X] {ops : List (Op X V K)}
    {w : World X Avl (Node V)} (run : Runs C ops w) {x : X} (object : w.object x = some m) :
    ∃ t, Holds C w.heap m t ∧ m.foreach w.heap = some (values t, w.heap) ∧
      (∀ key, m.lowerBound C key w.heap =
        some ((t.cells.find? fun y => !C.less (C.getKey y.2) key).map Prod.fst, w.heap)) ∧
      (∀ key, m.upperBound C key w.heap =
        some ((t.cells.find? fun y => C.less key (C.getKey y.2)).map Prod.fst, w.heap)) ∧
      ∀ a b, Ascending C (between C (values t) a b) ∧
        (C.less b a = false → m.range C a b w.heap = some (between C (values t) a b, w.heap)) ∧
        ∀ l h', m.range C a b w.heap = some (l, h') →
          l = between C (values t) a b ∧ h' = w.heap := by
  obtain ⟨trees, sound⟩ := runs_sound run
  have holds := sound.holds x m object
  refine ⟨trees x, holds, foreach_run holds, ?_, ?_, ?_⟩
  · intro key
    obtain ⟨before, after, split⟩ := split_lower holds.sorted key
    rw [lowerBound_run holds split, ← split.find]
    rfl
  · intro key
    obtain ⟨before, after, split⟩ := split_upper holds.sorted key
    rw [upperBound_run holds split, ← split.find]
  · intro a b
    have ascending : Ascending C (values (trees x)) := by
      rw [Ascending, values, List.pairwise_map]
      exact holds.sorted
    exact ⟨ascending.filter _, range_run holds a b⟩

theorem bounds_spec_numbers : ∃ (w : World Unit Avl (Node Nat)) (m : Avl),
    w.object () = some m ∧ m.size = 3 ∧ ∃ t, Holds numbers w.heap m t ∧
      m.foreach w.heap = some (values t, w.heap) ∧
      (∀ key, m.lowerBound numbers key w.heap =
        some ((t.cells.find? fun y => !numbers.less (numbers.getKey y.2) key).map Prod.fst,
          w.heap)) ∧
      (∀ key, m.upperBound numbers key w.heap =
        some ((t.cells.find? fun y => numbers.less key (numbers.getKey y.2)).map Prod.fst,
          w.heap)) ∧
      ∀ a b, Ascending numbers (between numbers (values t) a b) ∧
        (numbers.less b a = false →
          m.range numbers a b w.heap = some (between numbers (values t) a b, w.heap)) ∧
        ∀ l h', m.range numbers a b w.heap = some (l, h') →
          l = between numbers (values t) a b ∧ h' = w.heap := by
  obtain ⟨w, run, object⟩ := runs_numbers
  exact ⟨w, _, object, rfl, bounds_spec run object⟩

end AvlTree
