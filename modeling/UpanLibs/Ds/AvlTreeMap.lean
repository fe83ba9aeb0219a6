import UpanLibs.Ds.AvlTreeMethods
import UpanLibs.Machine

/-!
`map` and `set` against finite maps. A finite map is the list of its elements in the order of
their keys; each request to a tree is answered as the map answers it.
-/
namespace AvlTree
open Memory HeightTree HeightTree.HTree Machine

variable {V K : Type}

inductive Request (V K : Type) where
  | insert (value : V)
  | index (value : V) (write : V → V)
  | erase (key : K)
  | clear
  | find (key : K)
  | exists_ (key : K)
  | size
  | foreach
  | turn (key : K)

/-- The elements at the iterators, and what else the methods give. -/
inductive Reply (V : Type) where
  | inserted (at_ : V) (new : Bool)
  | element (e : V)
  | erased (deleted : Bool)
  | done
  | found (at_ : Option V)
  | present (b : Bool)
  | count (n : Nat)
  | elements (l : List V)
  | returned (b : Option Bool)
  deriving DecidableEq, Repr

section Maps

variable (C : CType V K)

def CType.same (a b : K) : Bool := !C.less a b && !C.less b a

def lookup (l : List V) (key : K) : Option V := l.find? fun e => C.same key (C.getKey e)

def put (l : List V) (value : V) : List V :=
  l.filter (fun e => C.less (C.getKey e) (C.getKey value)) ++
    value :: l.filter (fun e => C.less (C.getKey value) (C.getKey e))

def without (l : List V) (key : K) : List V := l.filter fun e => !C.same key (C.getKey e)

/-- The map with the element added, unless its key is there. -/
def add (l : List V) (value : V) : List V :=
  if (lookup C l (C.getKey value)).isSome then l else put C l value

def Ascending (l : List V) : Prop := l.Pairwise fun a b => C.less (C.getKey a) (C.getKey b)

def respond (l : List V) : Request V K → List V × Reply V
  | .insert value =>
      (add C l value, .inserted ((lookup C l (C.getKey value)).getD value)
        (lookup C l (C.getKey value)).isNone)
  | .index value write =>
      ((add C l value).map fun e => if C.same (C.getKey value) (C.getKey e) then write e else e,
        .element ((lookup C l (C.getKey value)).getD value))
  | .erase key => (without C l key, .erased (lookup C l key).isSome)
  | .clear => ([], .done)
  | .find key => (l, .found (lookup C l key))
  | .exists_ key => (l, .present (lookup C l key).isSome)
  | .size => (l, .count l.length)
  | .foreach => (l, .elements l)
  | .turn key =>
      (l, .returned
        (if (lookup C l key).isNone ∨ l.head?.any (fun e => C.same key (C.getKey e)) then none
        else some true))

end Maps

/-- A request to the tree, and what is at the iterators it gives. From an element that is not
    the first, `turn` goes back with `--` and on with `++`, and compares. -/
def answer (C : CType V K) (m : Avl) : Request V K → Program (Node V) (Avl × Reply V)
  | .insert value => do
    let (m, it, new) ← m.insert C value
    let e ← Avl.value it
    pure (m, .inserted e new)
  | .index value write => do
    let (m, e) ← m.index C value write
    pure (m, .element e)
  | .erase key => do
    let (m, deleted) ← m.erase C key
    pure (m, .erased deleted)
  | .clear => do
    let m ← m.clear
    pure (m, .done)
  | .find key => do
    let it ← m.find C key
    match it with
    | none => pure (m, .found none)
    | some a => do
      let e ← Avl.value (some a)
      pure (m, .found (some e))
  | .exists_ key => do
    let it ← m.find C key
    pure (m, .present it.isSome)
  | .size => pure (m, .count m.size)
  | .foreach => do
    let l ← m.foreach
    pure (m, .elements l)
  | .turn key => do
    let it ← m.find C key
    let first ← m.begin
    if it = none ∨ it = first then pure (m, .returned none)
    else
      let p ← Avl.preDec it
      let back ← Avl.preInc p
      pure (m, .returned (some (back == it)))

def step (C : CType V K) (s : Heap (Node V) × Avl) (r : Request V K) :
    Option ((Heap (Node V) × Avl) × Reply V) :=
  (answer C s.2 r s.1).map fun ((m, reply), h) => ((h, m), reply)

section Lookup

variable {C : CType V K} {h : Heap (Node V)} {m : Avl} {t : Cells V} {p : Option Nat} {key : K}

theorem seek_isNone (key : K) (x : Nat × V) :
    (C.seek key x).isNone = C.same key (C.getKey x.2) := by
  unfold CType.seek CType.same
  cases C.less key (C.getKey x.2) <;> cases C.less (C.getKey x.2) key <;> rfl

theorem seek_isSome (key : K) (x : Nat × V) :
    (C.seek key x).isSome = !C.same key (C.getKey x.2) := by
  rw [← seek_isNone, Option.not_isNone]

def cellOf (C : CType V K) (t : Cells V) (key : K) : Option (Nat × V) :=
  t.cells.find? fun x => C.same key (C.getKey x.2)

theorem lookup_values (C : CType V K) (t : Cells V) (key : K) :
    lookup C (values t) key = (cellOf C t key).map Prod.snd := by
  rw [lookup, values, List.find?_map]
  rfl

theorem find_apart {l : List (Nat × V)} {d : Side} (apart : ∀ x ∈ l, C.seek key x = some d) :
    l.find? (fun x => C.same key (C.getKey x.2)) = none := by
  rw [List.find?_eq_none]
  intro x mem
  rw [← seek_isNone, apart x mem]
  nofun

theorem findNode_run : ∀ (rounds : Nat) {t : Cells V} {p : Option Nat}, t.depth ≤ rounds →
    Linked h t p → C.Sorted t.cells →
    findNode C key rounds (root t) h = some ((cellOf C t key).map Prod.fst, h) := by
  intro rounds t
  induction t generalizing rounds with
  | leaf =>
    intro p _ _ _
    cases rounds <;> rfl
  | node l x k r left right =>
    intro p enough linked sorted
    obtain ⟨here, low, high⟩ := linked
    obtain ⟨sortedL, sortedR⟩ := sorted.sides
    have splits := sorted.splits key
    rw [depth] at enough
    obtain ⟨rounds, rfl⟩ : ∃ n, rounds = n + 1 := ⟨rounds - 1, by omega⟩
    rw [root, findNode, run_bind (run_element here), nodeOf_element, cellOf, cells_node,
      List.find?_append, List.find?_cons]
    by_cases less : C.less key (C.getKey x.2) = true
    · have side : C.seek key x = some .left := if_pos less
      have other : C.same key (C.getKey x.2) = false := by simp [CType.same, less]
      rw [if_pos less, other, find_apart (splits_left splits side)]
      exact (run_bind (run_child here .left)).trans
        ((left rounds (by omega) low sortedL).trans (by rw [cellOf, Option.or_none]))
    rw [if_neg less]
    by_cases more : C.less (C.getKey x.2) key = true
    · have side : C.seek key x = some .right := by rw [CType.seek, if_neg less, if_pos more]
      have other : C.same key (C.getKey x.2) = false := by simp [CType.same, more]
      rw [if_pos more, other, find_apart (splits_right splits side)]
      exact (run_bind (run_child here .right)).trans
        ((right rounds (by omega) high sortedR).trans (by rw [cellOf, Option.none_or]))
    · have side : C.seek key x = none := by rw [CType.seek, if_neg less, if_neg more]
      have found : C.same key (C.getKey x.2) = true := by simp [CType.same, less, more]
      rw [if_neg more, found, find_apart (splits_none splits side).1]
      rfl

theorem find_run (holds : Holds C h m t) (key : K) :
    m.find C key h = some ((cellOf C t key).map Prod.fst, h) := by
  have enough := holds.linked.depth_le holds.nodup
  rw [Avl.find, run_bind (run_rounds h), holds.root]
  exact findNode_run (h.next + 1) (by omega) holds.linked holds.sorted

theorem foreachFrom_run (holds : Holds C h m t) : ∀ (rest : List (Nat × V)) {n : Nat}
    {before : List (Nat × V)}, t.cells = before ++ rest → rest.length ≤ n →
    Avl.foreachFrom n (at_ rest) h = some (rest.map Prod.snd, h) := by
  intro rest
  induction rest with
  | nil =>
    intro n before _ _
    cases n <;> rfl
  | cons x rest ih =>
    intro n before cells enough
    obtain ⟨n, rfl⟩ : ∃ k, n = k + 1 := ⟨n - 1, by
      simp only [List.length_cons] at enough
      omega⟩
    rw [at_cons, Avl.foreachFrom, run_bind (value_run holds.linked (z := x) (by simp [cells]))]
    exact (run_bind (preInc_run holds.linked holds.nodup cells)).trans
      (run_bind (ih (cells.trans (List.append_cons before x rest)) (by simpa using enough)))

theorem holds_begin (holds : Holds C h m t) : m.begin h = some (at_ t.cells, h) := by
  have first := begin_run holds.linked holds.nodup m.size
  rw [← holds.root] at first
  exact first

theorem foreach_run (holds : Holds C h m t) : m.foreach h = some (values t, h) := by
  rw [Avl.foreach, run_bind (holds_begin holds)]
  exact foreachFrom_run holds t.cells (List.nil_append _).symm (Nat.le_of_eq holds.size.symm)

theorem turn_run (holds : Holds C h m t) {before after : List (Nat × V)} {y z : Nat × V}
    (cells : t.cells = before ++ y :: z :: after) :
    Avl.preDec (some z.1) h = some (some y.1, h) ∧ Avl.preInc (some y.1) h = some (some z.1, h) := by
  have enough := holds.linked.depth_le holds.nodup
  constructor
  · have there : t.cells = (before ++ [y]) ++ z :: after := by simp [cells]
    have run := predecessor_run holds.linked holds.nodup there (n := h.next + 1) (by omega)
    rw [List.reverse_append] at run
    exact run
  · exact preInc_run holds.linked holds.nodup cells

theorem seek_right {x : Nat × V} (side : C.seek key x = some .right) :
    C.less (C.getKey x.2) key = true := by
  rw [CType.seek] at side
  grind

theorem seek_left {x : Nat × V} (side : C.seek key x = some .left) :
    C.less key (C.getKey x.2) = true := by
  rw [CType.seek] at side
  grind

theorem insert_flag (sorted : C.Sorted t.cells) (value : V) (a : Nat) :
    (t.insert (C.seek (C.getKey value)) (a, value)).2 =
      (lookup C (values t) (C.getKey value)).isNone := by
  rw [lookup_values, Option.isNone_map]
  cases flag : (t.insert (C.seek (C.getKey value)) (a, value)).2 with
  | false =>
    obtain ⟨x, mem, same⟩ := (insert_old (sorted.splits _)).mp flag
    symm
    rw [Option.isNone_eq_false_iff, cellOf, List.find?_isSome]
    exact ⟨x, mem, by rw [← seek_isNone, same]; rfl⟩
  | true =>
    symm
    rw [Option.isNone_iff_eq_none, cellOf, List.find?_eq_none]
    intro x mem found
    rw [← seek_isNone, Option.isNone_iff_eq_none] at found
    have old := (insert_old (y := (a, value)) (sorted.splits _)).mpr ⟨x, mem, found⟩
    rw [flag] at old
    cases old

theorem values_insert (sorted : C.Sorted t.cells) (value : V) (a : Nat) :
    values (t.insert (C.seek (C.getKey value)) (a, value)).1 = add C (values t) value := by
  have same := insert_flag sorted value a
  rw [add, ← Option.not_isNone, ← same]
  cases flag : (t.insert (C.seek (C.getKey value)) (a, value)).2 with
  | false =>
    rw [insert_absent flag]
    rfl
  | true =>
    obtain ⟨l, r, cells, inserted, before, after⟩ := insert_new (sorted.splits _) flag
    have low : ∀ x ∈ l, C.less (C.getKey x.2) (C.getKey value) = true := fun x mem =>
      seek_right (before x mem)
    have high : ∀ x ∈ r, C.less (C.getKey value) (C.getKey x.2) = true := fun x mem =>
      seek_left (after x mem)
    rw [if_neg (by simp), put, values, values, cells, inserted]
    simp only [List.map_append, List.map_cons, List.filter_append]
    have first : (l.map Prod.snd).filter (fun e => C.less (C.getKey e) (C.getKey value)) =
        l.map Prod.snd := by
      rw [List.filter_eq_self]
      intro e mem
      obtain ⟨x, inside, rfl⟩ := List.mem_map.mp mem
      exact low x inside
    have second : (r.map Prod.snd).filter (fun e => C.less (C.getKey e) (C.getKey value)) = [] := by
      rw [List.filter_eq_nil_iff]
      intro e mem
      obtain ⟨x, inside, rfl⟩ := List.mem_map.mp mem
      rw [C.asymm (high x inside)]
      exact Bool.false_ne_true
    have third : (l.map Prod.snd).filter (fun e => C.less (C.getKey value) (C.getKey e)) = [] := by
      rw [List.filter_eq_nil_iff]
      intro e mem
      obtain ⟨x, inside, rfl⟩ := List.mem_map.mp mem
      rw [C.asymm (low x inside)]
      exact Bool.false_ne_true
    have fourth : (r.map Prod.snd).filter (fun e => C.less (C.getKey value) (C.getKey e)) =
        r.map Prod.snd := by
      rw [List.filter_eq_self]
      intro e mem
      obtain ⟨x, inside, rfl⟩ := List.mem_map.mp mem
      exact high x inside
    rw [first, second, third, fourth, List.append_nil, List.nil_append]

theorem values_erase (sorted : C.Sorted t.cells) (key : K) :
    values (t.erase (C.seek key)).1 = without C (values t) key ∧
      (t.erase (C.seek key)).2 = (lookup C (values t) key).isSome := by
  obtain ⟨cells, found⟩ := erase_spec (sorted.splits key)
  constructor
  · rw [values, cells, without, values, List.filter_map]
    simp only [seek_isSome]
    rfl
  · rw [found, lookup_values, Option.isSome_map, cellOf]
    simp only [seek_isNone]
    rw [Bool.eq_iff_iff, List.any_eq_true, List.find?_isSome]

theorem cellOf_mem {x : Nat × V} (found : cellOf C t key = some x) :
    x ∈ t.cells ∧ C.seek key x = none := by
  refine ⟨List.mem_of_find?_eq_some found, ?_⟩
  have same := List.find?_some found
  rw [← seek_isNone, Option.isNone_iff_eq_none] at same
  exact same

theorem cellOf_eq (sorted : C.Sorted t.cells) {x : Nat × V} (mem : x ∈ t.cells)
    (sought : C.seek key x = none) : cellOf C t key = some x := by
  obtain ⟨before, after, cells⟩ := List.append_of_mem mem
  have splits := sorted.splits key
  rw [cells, Splits, List.pairwise_append] at splits
  have apart : before.find? (fun y => C.same key (C.getKey y.2)) = none := by
    rw [List.find?_eq_none]
    intro y inside
    rw [← seek_isNone, Option.isNone_iff_eq_none]
    exact (splits.2.2 y inside x (by simp)).2.2.resolve_right fun other => other sought
  have here : C.same key (C.getKey x.2) = true := by
    rw [← seek_isNone, sought]
    rfl
  rw [cellOf, cells, List.find?_append, apart, List.find?_cons, here]
  rfl

end Lookup

section Refinement

variable {C : CType V K} {h : Heap (Node V)} {m : Avl} {t : Cells V}

/-- What a request does to the tree, and its reply, are those of the map. -/
def Simulates (C : CType V K) (s : Heap (Node V) × Avl) (l : List V) : Prop :=
  ∃ t, Holds C s.1 s.2 t ∧ values t = l

theorem inserted_element (holds : Holds C h m t) {value : V} {x : Nat × V}
    (inserted : Inserted C h t value x) :
    x.2 = (lookup C (values t) (C.getKey value)).getD value := by
  obtain ⟨mem, which⟩ := inserted
  have flag := insert_flag holds.sorted value h.next
  cases new : (t.insert (C.seek (C.getKey value)) (h.next, value)).2 with
  | true =>
    rw [new] at flag
    rw [new, if_pos rfl] at which
    rw [Option.isNone_iff_eq_none.mp flag.symm, which]
    rfl
  | false =>
    rw [new, if_neg nofun] at which
    rw [insert_absent new] at mem
    rw [lookup_values, cellOf_eq holds.sorted mem which]
    rfl

theorem inserted_relabel (holds : Holds C h m t) {value : V} {x : Nat × V} {write : V → V}
    (inserted : Inserted C h t value x) :
    values ((t.insert (C.seek (C.getKey value)) (h.next, value)).1.map (relabel x.1 write)) =
      (add C (values t) value).map
        fun e => if C.same (C.getKey value) (C.getKey e) then write e else e := by
  rw [← values_insert holds.sorted value h.next, values, cells_map, values, List.map_map,
    List.map_map]
  apply List.map_congr_left
  intro y mem
  have sorted := holds.sorted.insert (h.next, value)
  have nodup := nodup_insert (x := (h.next, value)) holds.nodup holds.sorted holds.linked.new
  have here : C.seek (C.getKey value) x = none := by
    have which := inserted.2
    split at which
    next =>
      rw [which]
      exact seek_self (h.next, value)
    next => exact which
  have one : y.1 = x.1 ↔ C.same (C.getKey value) (C.getKey y.2) = true := by
    rw [← seek_isNone, Option.isNone_iff_eq_none]
    constructor
    · intro same
      rw [List.inj_on_of_nodup_map nodup mem inserted.1 same]
      exact here
    · intro sought
      have first := cellOf_eq sorted mem sought
      rw [cellOf_eq sorted inserted.1 here, Option.some.injEq] at first
      rw [first]
  simp only [Function.comp, relabel, one]
  split <;> rfl

def Answers (C : CType V K) (h : Heap (Node V)) (m : Avl) (l : List V) (r : Request V K) : Prop :=
  ∃ h' m' t', answer C m r h = some ((m', (respond C l r).2), h') ∧ Holds C h' m' t' ∧
    values t' = (respond C l r).1

theorem answer_insert (holds : Holds C h m t) (value : V) :
    Answers C h m (values t) (.insert value) := by
  obtain ⟨h', m', x, run, holds', -, inserted⟩ := insert_run holds value
  refine ⟨h', m', _, ?_, holds', values_insert holds.sorted value _⟩
  rw [answer, run_bind run]
  refine (run_bind (value_run holds'.linked inserted.1)).trans ?_
  rw [inserted_element holds inserted, insert_flag holds.sorted]
  rfl

theorem answer_index (holds : Holds C h m t) (value : V) {write : V → V}
    (keeps : ∀ e, C.getKey (write e) = C.getKey e) :
    Answers C h m (values t) (.index value write) := by
  obtain ⟨h', m', x, run, holds', -, inserted⟩ := index_run holds value keeps
  refine ⟨h', m', _, ?_, holds', inserted_relabel holds inserted⟩
  rw [answer, run_bind run, inserted_element holds inserted]
  rfl

theorem answer_erase (holds : Holds C h m t) (key : K) :
    Answers C h m (values t) (.erase key) := by
  obtain ⟨h', m', run, holds', -⟩ := erase_run holds key
  obtain ⟨without_, found⟩ := values_erase holds.sorted key
  refine ⟨h', m', _, ?_, holds', without_⟩
  rw [answer, run_bind run, found]
  rfl

theorem answer_clear (holds : Holds C h m t) : Answers C h m (values t) .clear := by
  obtain ⟨h', run, -⟩ := clear_run holds
  exact ⟨h', .new, leaf, run_bind run, holds_new C h', rfl⟩

theorem answer_find (holds : Holds C h m t) (key : K) :
    Answers C h m (values t) (.find key) := by
  refine ⟨h, m, t, ?_, holds, rfl⟩
  rw [answer, run_bind (find_run holds key), respond, lookup_values]
  cases found : cellOf C t key with
  | none => rfl
  | some x => exact run_bind (value_run holds.linked (cellOf_mem found).1)

theorem answer_exists (holds : Holds C h m t) (key : K) :
    Answers C h m (values t) (.exists_ key) := by
  refine ⟨h, m, t, ?_, holds, rfl⟩
  rw [answer, run_bind (find_run holds key), respond, lookup_values, Option.isSome_map,
    Option.isSome_map]
  rfl

theorem answer_size (holds : Holds C h m t) : Answers C h m (values t) (.size : Request V K) := by
  refine ⟨h, m, t, ?_, holds, rfl⟩
  rw [answer, respond, holds.size, values, List.length_map]
  rfl

theorem answer_foreach (holds : Holds C h m t) :
    Answers C h m (values t) (.foreach : Request V K) :=
  ⟨h, m, t, run_bind (foreach_run holds), holds, rfl⟩

theorem answer_turn (holds : Holds C h m t) (key : K) :
    Answers C h m (values t) (.turn key) := by
  refine ⟨h, m, t, ?_, holds, rfl⟩
  rw [answer, run_bind (find_run holds key), run_bind (holds_begin holds), respond, lookup_values]
  cases found : cellOf C t key with
  | none => rfl
  | some z =>
    obtain ⟨mem, sought⟩ := cellOf_mem found
    have same : C.same key (C.getKey z.2) = true := by
      rw [← seek_isNone, sought]
      rfl
    obtain ⟨before, after, cells⟩ := List.append_of_mem mem
    cases before with
    | nil => simp [values, cells, same, at_cons, run_pure]
    | cons f before =>
      have nodup := holds.nodup
      rw [ids, cells] at nodup
      simp only [List.cons_append, List.map_cons, List.nodup_cons] at nodup
      have other : z.1 ≠ f.1 := by
        intro same
        apply nodup.1
        rw [← same]
        exact List.mem_map_of_mem (by simp)
      have apart : C.same key (C.getKey f.2) = false := by
        rw [Bool.eq_false_iff]
        intro same
        rw [← seek_isNone, Option.isNone_iff_eq_none] at same
        have first := cellOf_eq holds.sorted (by simp [cells]) same
        rw [found, Option.some.injEq] at first
        exact other (congrArg Prod.fst first)
      obtain ⟨b, y, last⟩ : ∃ b y, f :: before = b ++ [y] :=
        ⟨_, _, (List.dropLast_append_getLast (List.cons_ne_nil f before)).symm⟩
      have there : t.cells = b ++ y :: z :: after := by
        rw [cells, last]
        simp
      obtain ⟨back, forth⟩ := turn_run holds there
      have begin_ : at_ t.cells = some f.1 := by rw [cells, List.cons_append, at_cons]
      have noEnd : ¬(some z.1 = none ∨ some z.1 = some f.1) := by simp [other]
      have noFirst : ¬((some z.2).isNone = true ∨
          (values t).head?.any (fun e => C.same key (C.getKey e)) = true) := by
        simp [values, cells, apart]
      rw [Option.map_some, Option.map_some, begin_, if_neg noEnd, if_neg noFirst]
      exact (run_bind back).trans ((run_bind forth).trans (by rw [BEq.rfl]; rfl))

def Keeps (C : CType V K) : Request V K → Prop
  | .index _ write => ∀ e, C.getKey (write e) = C.getKey e
  | _ => True

theorem answer_simulates (holds : Holds C h m t) {r : Request V K} (keeps : Keeps C r) :
    Answers C h m (values t) r := by
  cases r with
  | insert value => exact answer_insert holds value
  | index value write => exact answer_index holds value keeps
  | erase key => exact answer_erase holds key
  | clear => exact answer_clear holds
  | find key => exact answer_find holds key
  | exists_ key => exact answer_exists holds key
  | size => exact answer_size holds
  | foreach => exact answer_foreach holds
  | turn key => exact answer_turn holds key

theorem Simulates.ascending {s : Heap (Node V) × Avl} {l : List V} (simulates : Simulates C s l) :
    Ascending C l := by
  obtain ⟨t, holds, rfl⟩ := simulates
  exact List.pairwise_map.mpr holds.sorted

/-- `map` and `set` are finite maps: every list of requests, from an empty one, is answered
    as the map answers it, whose elements ascend. -/
theorem map_is_finite_map (C : CType V K) (requests : List (Request V K))
    (keeps : ∀ r ∈ requests, Keeps C r) :
    ∃ s, serve (step C) (.empty, .new) requests = some (s, (answers (respond C) [] requests).2) ∧
      Simulates C s (answers (respond C) [] requests).1 ∧
      Ascending C (answers (respond C) [] requests).1 := by
  have simulated : ∀ (s : Heap (Node V) × Avl) (l : List V) (r : Request V K), Simulates C s l →
      Keeps C r → ∃ s', step C s r = some (s', (respond C l r).2) ∧
        Simulates C s' (respond C l r).1 := by
    intro s l r ⟨t, holds, same⟩ kept
    subst same
    obtain ⟨h', m', t', run, holds', map⟩ := answer_simulates holds kept
    refine ⟨(h', m'), ?_, t', holds', map⟩
    rw [step, run]
    rfl
  have empty : Simulates C (.empty, .new) [] := ⟨leaf, holds_new C .empty, rfl⟩
  obtain ⟨s, run, related⟩ := serve_refines (Simulates C) simulated empty
    (admitted_of_all keeps [])
  exact ⟨s, run, related, related.ascending⟩

end Refinement

theorem map_is_finite_map_numbers : ∃ s, serve (step numbers) (.empty, .new)
      [.insert 2, .index 1 id, .insert 3, .erase 2, .turn 3, .foreach] =
        some (s, [.inserted 2 true, .element 1, .inserted 3 true, .erased true,
          .returned (some true), .elements [1, 3]]) ∧
      Simulates numbers s [1, 3] ∧ Ascending numbers [1, 3] := by
  refine map_is_finite_map numbers [.insert 2, .index 1 id, .insert 3, .erase 2, .turn 3, .foreach] ?_
  simp [Keeps]

end AvlTree
