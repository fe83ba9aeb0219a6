import UpanLibs.BalancedTree
import UpanLibs.Ds.AvlTreeErase

/-!
The public methods of a `_tree` that holds a balanced search tree: each has a result, leaves
such a tree, and touches no node but its own.
-/
namespace AvlTree
open Memory HeightTree HeightTree.HTree

variable {V K : Type}

/-- What every `_tree` is: nodes of its own, linked as a balanced search tree, and counted. -/
structure Holds (C : CType V K) (h : Heap (Node V)) (m : Avl) (t : Cells V) : Prop where
  root : m.root = root t
  size : m.size = t.cells.length
  linked : Linked h t none
  nodup : (ids t).Nodup
  sorted : C.Sorted t.cells
  balanced : t.Balanced

section Insert

variable {C : CType V K} {h : Heap (Node V)} {t : Cells V} {p : Option Nat}

theorem Linked.new (linked : Linked h t p) : h.next ∉ ids t := fun mem =>
  Nat.lt_irrefl _ (linked.below mem)

theorem CType.Sorted.insert (sorted : C.Sorted t.cells) (x : Nat × V) :
    C.Sorted (t.insert (C.seek (C.getKey x.2)) x).1.cells := by
  cases new : (t.insert (C.seek (C.getKey x.2)) x).2 with
  | false =>
    rw [insert_absent new]
    exact sorted
  | true =>
    obtain ⟨l, r, cells, inserted, before, after⟩ := insert_new (sorted.splits _) new
    rw [cells, CType.Sorted, List.pairwise_append] at sorted
    rw [inserted, CType.Sorted, List.pairwise_append, List.pairwise_cons]
    have less : ∀ y ∈ l, C.less (C.getKey y.2) (C.getKey x.2) := by
      intro y mem
      have side := before y mem
      rw [CType.seek] at side
      grind
    have more : ∀ y ∈ r, C.less (C.getKey x.2) (C.getKey y.2) := by
      intro y mem
      have side := after y mem
      rw [CType.seek] at side
      grind
    refine ⟨sorted.1, ⟨more, sorted.2.1⟩, ?_⟩
    intro y mem z mem'
    rw [List.mem_cons] at mem'
    obtain rfl | mem' := mem'
    · exact less y mem
    · exact sorted.2.2 y mem z mem'

theorem CType.Sorted.erase (sorted : C.Sorted t.cells) (key : K) :
    C.Sorted (t.erase (C.seek key)).1.cells := by
  rw [cells_erase sorted]
  exact sorted.filter _

theorem nodup_insert {x : Nat × V} (nodup : (ids t).Nodup) (sorted : C.Sorted t.cells)
    (out : x.1 ∉ ids t) : (ids (t.insert (C.seek (C.getKey x.2)) x).1).Nodup := by
  cases new : (t.insert (C.seek (C.getKey x.2)) x).2 with
  | false =>
    rw [insert_absent new]
    exact nodup
  | true =>
    obtain ⟨l, r, cells, inserted, -⟩ := insert_new (sorted.splits _) new
    rw [ids, cells, List.map_append] at nodup out
    rw [ids, inserted, List.map_append, List.map_cons]
    exact List.nodup_middle.mpr (List.nodup_cons.mpr ⟨out, nodup⟩)

theorem insertAt_linked (C : CType V K) (value : V) : ∀ (rounds : Nat) {t : Cells V}
    {p : Option Nat} {h : Heap (Node V)}, t.depth < rounds → Linked h t p → (ids t).Nodup →
    C.Sorted t.cells →
    ∃ h' q a, insertAt C value rounds (root t) h =
        some ((root (t.insert (C.seek (C.getKey value)) (h.next, value)).1, some a,
          (t.insert (C.seek (C.getKey value)) (h.next, value)).2), h') ∧
      Linked h' (t.insert (C.seek (C.getKey value)) (h.next, value)).1 q ∧
      Effects h h' (ids t) (ids (t.insert (C.seek (C.getKey value)) (h.next, value)).1) ∧
      if (t.insert (C.seek (C.getKey value)) (h.next, value)).2 then a = h.next
      else ∃ e, (a, e) ∈ t.cells ∧ C.seek (C.getKey value) (a, e) = none := by
  intro rounds
  induction rounds with
  | zero =>
    intro t p h enough
    cases enough
  | succ rounds ih =>
    intro t p h enough linked nodup sorted
    cases t with
    | leaf =>
      refine ⟨h.add (.new value), none, h.next, rfl, ⟨?_, trivial, trivial⟩, ?_, rfl⟩
      · exact if_pos rfl
      · refine ⟨?_, ?_, ?_⟩
        · intro a mem
          obtain rfl := List.mem_singleton.mp mem
          exact .inr h.block_next
        · intro a _ out
          exact if_neg fun same => out (List.mem_singleton.mpr same)
        · intro a mem
          cases mem
    | node l x k r =>
      obtain ⟨here, low, high⟩ := linked
      obtain ⟨nodupL, nodupR, -⟩ := nodup_node.mp nodup
      obtain ⟨sortedL, sortedR⟩ := sorted.sides
      rw [depth] at enough
      rw [root, insertAt, run_bind (run_element here), nodeOf_element, HTree.insert]
      by_cases less : C.less (C.getKey value) (C.getKey x.2) = true
      · have side : C.seek (C.getKey value) x = some .left := if_pos less
        obtain ⟨h₁, q, a, run₁, linked₁, effects₁, it⟩ := ih (by omega) low nodupL sortedL
        obtain ⟨h₂, h', q', run₂, run₃, linked', effects⟩ := finish_linked (d := .left)
          ⟨here, low, high⟩ nodup linked₁ (nodup_insert (x := (h.next, value)) nodupL sortedL low.new)
          effects₁ (l.insert (C.seek (C.getKey value)) (h.next, value)).2
        rw [if_pos less, side]
        refine ⟨h', q', a, ?_, linked', by rwa [ids_finish], ?_⟩
        · exact (run_bind (run_child here .left)).trans ((run_bind run₁).trans
            ((run_bind run₂).trans (run_bind run₃)))
        · split at it
          next new => rw [if_pos new, it]
          next old =>
            obtain ⟨e, mem, same⟩ := it
            rw [if_neg old]
            exact ⟨e, by simp [mem], same⟩
      rw [if_neg less]
      by_cases more : C.less (C.getKey x.2) (C.getKey value) = true
      · have side : C.seek (C.getKey value) x = some .right := by
          rw [CType.seek, if_neg less, if_pos more]
        obtain ⟨h₁, q, a, run₁, linked₁, effects₁, it⟩ := ih (by omega) high nodupR sortedR
        obtain ⟨h₂, h', q', run₂, run₃, linked', effects⟩ := finish_linked (d := .right) (o := l)
          ⟨here, low, high⟩ nodup linked₁ (nodup_insert (x := (h.next, value)) nodupR sortedR high.new)
          effects₁ (r.insert (C.seek (C.getKey value)) (h.next, value)).2
        rw [if_pos more, side]
        refine ⟨h', q', a, ?_, linked', by rwa [ids_finish], ?_⟩
        · exact (run_bind (run_child here .right)).trans ((run_bind run₁).trans
            ((run_bind run₂).trans (run_bind run₃)))
        · split at it
          next new => rw [if_pos new, it]
          next old =>
            obtain ⟨e, mem, same⟩ := it
            rw [if_neg old]
            exact ⟨e, by simp [mem], same⟩
      have side : C.seek (C.getKey value) x = none := by
        rw [CType.seek, if_neg less, if_neg more]
      rw [if_neg more, side]
      exact ⟨h, p, x.1, rfl, ⟨here, low, high⟩, Within.effects fun a _ => rfl, x.2, by simp, side⟩

end Insert

section Methods

variable {C : CType V K} {h : Heap (Node V)} {m : Avl} {t : Cells V} {p : Option Nat}

theorem holds_new (C : CType V K) (h : Heap (Node V)) : Holds C h .new leaf := by
  constructor
  · rfl
  · rfl
  · trivial
  · exact List.nodup_nil
  · exact List.Pairwise.nil
  · trivial

theorem uproot_linked (linked : Linked h t p) (nodup : (ids t).Nodup) :
    ∃ h', uproot (root t) h = some ((), h') ∧ Linked h' t none ∧ Within h h' (ids t) := by
  cases top : root t with
  | none =>
    rw [root_eq_none.mp top]
    exact ⟨h, rfl, trivial, fun a _ => rfl⟩
  | some a =>
    obtain ⟨h', run, linked', within⟩ := setParent_linked linked nodup top none
    exact ⟨h', run, linked', within.mono (by simp [root_mem top])⟩

/-- What an iterator that `insert` gives is at: the new element, or the old one. -/
def Inserted (C : CType V K) (h : Heap (Node V)) (t : Cells V) (value : V) (x : Nat × V) : Prop :=
  x ∈ (t.insert (C.seek (C.getKey value)) (h.next, value)).1.cells ∧
    if (t.insert (C.seek (C.getKey value)) (h.next, value)).2 then x = (h.next, value)
    else C.seek (C.getKey value) x = none

theorem insert_run (holds : Holds C h m t) (value : V) :
    ∃ h' m' x, m.insert C value h =
        some ((m', some x.1, (t.insert (C.seek (C.getKey value)) (h.next, value)).2), h') ∧
      Holds C h' m' (t.insert (C.seek (C.getKey value)) (h.next, value)).1 ∧
      Effects h h' (ids t) (ids (t.insert (C.seek (C.getKey value)) (h.next, value)).1) ∧
      Inserted C h t value x := by
  obtain ⟨top, size, linked, nodup, sorted, balanced⟩ := holds
  have enough := linked.depth_le nodup
  obtain ⟨h₁, q, a, run₁, linked₁, effects₁, it⟩ :=
    insertAt_linked C value (h.next + 1) (by omega) linked nodup sorted
  have nodup₁ := nodup_insert (x := (h.next, value)) nodup sorted linked.new
  obtain ⟨h₂, run₂, linked₂, within₂⟩ := uproot_linked linked₁ nodup₁
  have run : m.insert C value h =
      some ((⟨root (t.insert (C.seek (C.getKey value)) (h.next, value)).1,
        if (t.insert (C.seek (C.getKey value)) (h.next, value)).2 then m.size + 1 else m.size⟩,
        some a, (t.insert (C.seek (C.getKey value)) (h.next, value)).2), h₂) := by
    rw [Avl.insert, run_bind (run_rounds h), top, run_bind run₁]
    exact run_bind run₂
  cases new : (t.insert (C.seek (C.getKey value)) (h.next, value)).2 with
  | false =>
    rw [new, if_neg nofun] at it
    obtain ⟨e, mem, same⟩ := it
    rw [new] at run
    refine ⟨h₂, _, (a, e), run, ⟨rfl, ?_, linked₂, nodup₁, sorted.insert (h.next, value),
      balanced.insert.1⟩, effects₁.trans within₂.effects, ?_, ?_⟩
    · rw [insert_absent new]
      exact size
    · rw [insert_absent new]
      exact mem
    · rw [new, if_neg nofun]
      exact same
  | true =>
    rw [new, if_pos rfl] at it
    obtain ⟨l, r, cells, inserted, -⟩ := insert_new (sorted.splits _) new
    rw [new, it] at run
    refine ⟨h₂, _, (h.next, value), run, ⟨rfl, ?_, linked₂, nodup₁, sorted.insert (h.next, value),
      balanced.insert.1⟩, effects₁.trans within₂.effects, ?_, ?_⟩
    · rw [if_pos rfl, size, cells, inserted]
      simp only [List.length_append, List.length_cons]
      omega
    · simp [inserted]
    · rw [new, if_pos rfl]

theorem cells_found (sorted : C.Sorted t.cells) {key : K} (found : (t.erase (C.seek key)).2 = true) :
    ∃ before x after, t.cells = before ++ x :: after ∧ C.seek key x = none ∧
      (t.erase (C.seek key)).1.cells = before ++ after := by
  rw [(erase_spec (sorted.splits key)).2, List.any_eq_true] at found
  obtain ⟨x, mem, sought⟩ := found
  rw [Option.isNone_iff_eq_none] at sought
  obtain ⟨before, after, cells⟩ := List.append_of_mem mem
  have splits := sorted.splits key
  rw [cells, Splits, List.pairwise_append, List.pairwise_cons] at splits
  refine ⟨before, x, after, cells, sought, ?_⟩
  rw [cells_erase sorted, cells, List.filter_append, List.filter_cons, if_neg (by simp [sought])]
  congr 1
  all_goals
    rw [List.filter_eq_self]
    intro y mem
    rw [Option.isSome_iff_ne_none]
  · exact (splits.2.2 y mem x (by simp)).2.2.resolve_right fun apart => apart sought
  · exact (splits.2.1.1 y mem).2.2.resolve_left fun apart => apart sought

theorem erase_run (holds : Holds C h m t) (key : K) :
    ∃ h' m', m.erase C key h = some ((m', (t.erase (C.seek key)).2), h') ∧
      Holds C h' m' (t.erase (C.seek key)).1 ∧
      Effects h h' (ids t) (ids (t.erase (C.seek key)).1) := by
  obtain ⟨top, size, linked, nodup, sorted, balanced⟩ := holds
  have enough := linked.depth_le nodup
  obtain ⟨h₁, q, run₁, linked₁, effects₁⟩ :=
    eraseAt_linked C (h.next + 1) key (by omega) linked nodup sorted
  have nodup₁ := nodup_erase nodup sorted key
  obtain ⟨h₂, run₂, linked₂, within₂⟩ := uproot_linked linked₁ nodup₁
  refine ⟨h₂, ⟨root (t.erase (C.seek key)).1,
    if (t.erase (C.seek key)).2 then m.size - 1 else m.size⟩, ?_, ?_,
    effects₁.trans within₂.effects⟩
  · rw [Avl.erase, run_bind (run_rounds h), top, run_bind run₁]
    exact run_bind run₂
  · refine ⟨rfl, ?_, linked₂, nodup₁, sorted.erase key, balanced.erase.1⟩
    cases found : (t.erase (C.seek key)).2 with
    | false =>
      rw [erase_absent found]
      exact size
    | true =>
      obtain ⟨before, x, after, cells, -, erased⟩ := cells_found sorted found
      rw [if_pos rfl, size, cells, erased]
      simp only [List.length_append, List.length_cons]
      omega

theorem eraseIt_run (holds : Holds C h m t) {before after : List (Nat × V)} {x : Nat × V}
    (cells : t.cells = before ++ x :: after) :
    ∃ h' m' t', m.eraseIt C (some x.1) h = some ((m', true), h') ∧ Holds C h' m' t' ∧
      t'.cells = before ++ after ∧ Effects h h' (ids t) (ids t') := by
  obtain ⟨h', m', run, holds', effects⟩ := erase_run holds (C.getKey x.2)
  have found : (t.erase (C.seek (C.getKey x.2))).2 = true := by
    rw [(erase_spec (holds.sorted.splits _)).2, List.any_eq_true]
    exact ⟨x, by simp [cells], by rw [seek_self]; rfl⟩
  obtain ⟨b, y, a, cells', sought, erased⟩ := cells_found holds.sorted found
  have splits := holds.sorted.splits (C.getKey x.2)
  have same : b = before ∧ a = after := by
    rw [cells'] at cells splits
    rw [Splits, List.pairwise_append, List.pairwise_cons] at splits
    obtain ⟨m, rfl, rfl⟩ | ⟨rfl, rfl⟩ | ⟨m, rfl⟩ := split_around cells
    · have apart := (splits.2.2 x (by simp) y (by simp)).2.2
      simp [sought, seek_self] at apart
    · exact ⟨List.append_cancel_right cells, rfl⟩
    · have apart := (splits.2.1.1 x (by simp)).2.2
      simp [sought, seek_self] at apart
  rw [found] at run
  refine ⟨h', m', _, ?_, holds', ?_, effects⟩
  · rw [Avl.eraseIt, run_bind (value_run holds.linked (z := x) (by simp [cells])), run]
  · rw [erased, same.1, same.2]

theorem clearAt_run : ∀ (rounds : Nat) {t : Cells V} {p : Option Nat} {h : Heap (Node V)},
    t.depth ≤ rounds → Linked h t p → (ids t).Nodup →
    ∃ h', clearAt rounds (root t) h = some ((), h') ∧ Effects h h' (ids t) [] := by
  intro rounds t
  induction t generalizing rounds with
  | leaf =>
    intro p h _ _ _
    exact ⟨h, by cases rounds <;> rfl, Within.effects fun a _ => rfl⟩
  | node l x k r left right =>
    intro p h enough linked nodup
    obtain ⟨here, low, high⟩ := linked
    obtain ⟨nodupL, nodupR, outL, outR, apart⟩ := nodup_node.mp nodup
    rw [depth] at enough
    obtain ⟨rounds, rfl⟩ : ∃ n, rounds = n + 1 := ⟨rounds - 1, by omega⟩
    obtain ⟨h₁, run₁, effects₁⟩ := left rounds (by omega) low nodupL
    have here₁ := (effects₁.frame x.1 outL (by simp)).trans here
    have high₁ : Linked h₁ r (some x.1) := by
      apply high.congr
      intro a mem
      exact effects₁.frame a (fun was => apart a was mem) (by simp)
    obtain ⟨h₂, run₂, effects₂⟩ := right rounds (by omega) high₁ nodupR
    have here₂ := (effects₂.frame x.1 outR (by simp)).trans here₁
    refine ⟨h₂.erase x.1, ?_, ?_⟩
    · rw [root, clearAt, run_bind (run_child here .left)]
      refine (run_bind run₁).trans ((run_bind (run_child here₁ .right)).trans ?_)
      exact (run_bind run₂).trans (run_free here₂)
    · have first : Effects h h₁ (ids (node l x k r)) (x.1 :: ids r) := by
        apply effects₁.among (x.1 :: ids r)
        · intro a
          rw [mem_ids_node, List.mem_cons]
        · intro a
          simp
      have second : Effects h₁ h₂ (x.1 :: ids r) [x.1] := by
        apply effects₂.among [x.1]
        all_goals
          intro a
          simp [or_comm]
      refine (first.trans second).trans (effects_free ?_)
      simp

theorem clear_run (holds : Holds C h m t) :
    ∃ h', m.clear h = some (.new, h') ∧ Effects h h' (ids t) [] := by
  have enough := holds.linked.depth_le holds.nodup
  obtain ⟨h', run, effects⟩ := clearAt_run (h.next + 1) (by omega) holds.linked
    holds.nodup
  refine ⟨h', ?_, effects⟩
  rw [Avl.clear, run_bind (run_rounds h), holds.root, run_bind run]
  rfl

def relabel (a : Nat) (write : V → V) (x : Nat × V) : Nat × V :=
  if x.1 = a then (x.1, write x.2) else x

theorem relabel_fst (a : Nat) (write : V → V) (x : Nat × V) : (relabel a write x).1 = x.1 := by
  unfold relabel
  split <;> rfl

@[simp]
theorem ids_relabel (a : Nat) (write : V → V) (t : Cells V) :
    ids (t.map (relabel a write)) = ids t := by
  simp only [ids, cells_map, List.map_map]
  congr 1
  funext x
  exact relabel_fst a write x

theorem root_relabel (a : Nat) (write : V → V) (t : Cells V) :
    root (t.map (relabel a write)) = root t := by
  cases t with
  | leaf => rfl
  | node l x k r => exact congrArg some (relabel_fst a write x)

theorem Linked.relabel {a : Nat} {n : Node V} {write : V → V} (linked : Linked h t p)
    (nodup : (ids t).Nodup) (here : h.block a = some n) :
    Linked (h.write a { n with element := write n.element }) (t.map (relabel a write)) p := by
  induction t generalizing p with
  | leaf => trivial
  | node l x k r left right =>
    obtain ⟨there, low, high⟩ := linked
    obtain ⟨nodupL, nodupR, -⟩ := nodup_node.mp nodup
    have fst := relabel_fst a write x
    refine ⟨?_, ?_, ?_⟩
    · rw [fst]
      by_cases same : x.1 = a
      · subst same
        rw [here, Option.some.injEq] at there
        subst there
        rw [Heap.block_write_self here, AvlTree.relabel, if_pos rfl]
        simp only [nodeOf, root_relabel]
      · rw [Heap.block_write_other _ _ same, there, AvlTree.relabel, if_neg same]
        simp only [nodeOf, root_relabel]
    · rw [fst]
      exact left low nodupL
    · rw [fst]
      exact right high nodupR

theorem CType.Sorted.relabel {a : Nat} {write : V → V} (sorted : C.Sorted t.cells)
    (keeps : ∀ e, C.getKey (write e) = C.getKey e) :
    C.Sorted (t.map (relabel a write)).cells := by
  rw [cells_map, CType.Sorted, List.pairwise_map]
  have key : ∀ x : Nat × V, C.getKey (AvlTree.relabel a write x).2 = C.getKey x.2 := by
    intro x
    unfold AvlTree.relabel
    split
    · exact keeps x.2
    · rfl
  simp only [key]
  exact sorted

theorem index_run (holds : Holds C h m t) (value : V) {write : V → V}
    (keeps : ∀ e, C.getKey (write e) = C.getKey e) :
    ∃ h' m' x, m.index C value write h = some ((m', x.2), h') ∧
      Holds C h' m' ((t.insert (C.seek (C.getKey value)) (h.next, value)).1.map
        (relabel x.1 write)) ∧
      Effects h h' (ids t) (ids (t.insert (C.seek (C.getKey value)) (h.next, value)).1) ∧
      Inserted C h t value x := by
  obtain ⟨h₁, m', ⟨a, e⟩, run₁, holds₁, effects₁, mem, which⟩ := insert_run holds value
  obtain ⟨top, size, linked, nodup, sorted, balanced⟩ := holds₁
  obtain ⟨n, here, element⟩ := linked.element mem
  have within := within_write h₁ a { n with element := write n.element }
  refine ⟨_, m', (a, e), ?_, ⟨?_, ?_, linked.relabel nodup here, ?_, sorted.relabel keeps,
    balanced.map _⟩, effects₁.trans (within.mono ?_).effects, mem, which⟩
  · rw [Avl.index, run_bind run₁, ← element]
    exact (run_bind (run_deref a)).trans ((run_bind (run_load here)).trans
      (run_bind (run_store here _)))
  · rw [top, root_relabel]
  · rw [size, cells_map, List.length_map]
  · rw [ids_relabel]
    exact nodup
  · simpa using mem_ids.mpr ⟨e, mem⟩

theorem Holds.frame {h' : Heap (Node V)} (holds : Holds C h m t)
    (same : ∀ a ∈ ids t, h'.block a = h.block a) : Holds C h' m t :=
  ⟨holds.root, holds.size, holds.linked.congr same, holds.nodup, holds.sorted, holds.balanced⟩

theorem Effects.apart {h' : Heap (Node V)} {old new : List Nat} (effects : Effects h h' old new)
    (linked : Linked h t p) (out : ∀ a ∈ ids t, a ∉ old) :
    (∀ a ∈ ids t, a ∉ new) ∧ ∀ a ∈ ids t, h'.block a = h.block a := by
  have outside : ∀ a ∈ ids t, a ∉ new := by
    intro a mem now
    obtain was | nothing := effects.fresh a now
    · exact out a mem was
    · obtain ⟨n, live⟩ := linked.live mem
      rw [live] at nothing
      cases nothing
  exact ⟨outside, fun a mem => effects.frame a (out a mem) (outside a mem)⟩

def values (t : Cells V) : List V := t.cells.map Prod.snd

theorem Holds.at_end (holds : Holds C h m t) {value : V}
    (last : ∀ x ∈ t.cells, C.less (C.getKey x.2) (C.getKey value)) :
    (t.insert (C.seek (C.getKey value)) (h.next, value)).1.cells = t.cells ++ [(h.next, value)] := by
  have before : ∀ x ∈ t.cells, C.seek (C.getKey value) x = some .right := by
    intro x mem
    rw [CType.seek, C.asymm (last x mem), if_neg Bool.false_ne_true, if_pos (last x mem)]
  have splits := holds.sorted.splits (C.getKey value)
  cases new : (t.insert (C.seek (C.getKey value)) (h.next, value)).2 with
  | false =>
    obtain ⟨x, mem, same⟩ := (insert_old splits).mp new
    rw [before x mem] at same
    cases same
  | true =>
    obtain ⟨l, r, cells, inserted, -, after⟩ := insert_new splits new
    have nothing : r = [] := by
      rw [List.eq_nil_iff_forall_not_mem]
      intro x mem
      have side := before x (by simp [cells, mem])
      rw [after x mem] at side
      cases side
    rw [inserted, cells, nothing, List.append_nil]

theorem copyLoop_run {other : Cells V} {o : Avl} : ∀ (rest : List (Nat × V)) {n : Nat} {h : Heap (Node V)}
    {m : Avl} {t : Cells V} {done : List (Nat × V)}, Holds C h m t → Holds C h o other →
    (∀ a ∈ ids other, a ∉ ids t) → other.cells = done ++ rest →
    values t = done.map Prod.snd → rest.length ≤ n →
    ∃ h' m' t', Avl.copyLoop C n m (at_ rest) h = some (m', h') ∧ Holds C h' m' t' ∧
      values t' = values other ∧ Effects h h' (ids t) (ids t') := by
  intro rest
  induction rest with
  | nil =>
    intro n h m t done holds _ _ cells copied _
    refine ⟨h, m, t, by cases n <;> rfl, holds, ?_, Within.effects fun a _ => rfl⟩
    rw [copied, values, cells, List.append_nil]
  | cons x rest ih =>
    intro n h m t done holds from_ apart cells copied enough
    obtain ⟨n, rfl⟩ : ∃ k, n = k + 1 := ⟨n - 1, by
      simp only [List.length_cons] at enough
      omega⟩
    obtain ⟨h₁, m₁, z, run₁, holds₁, effects₁, -⟩ := insert_run holds x.2
    obtain ⟨apart₁, same⟩ := effects₁.apart from_.linked apart
    have from₁ := from_.frame same
    have last : ∀ y ∈ t.cells, C.less (C.getKey y.2) (C.getKey x.2) := by
      intro y mem
      have sorted := from_.sorted
      rw [cells, CType.Sorted, List.pairwise_append] at sorted
      have among : y.2 ∈ done.map Prod.snd := by
        rw [← copied]
        exact List.mem_map_of_mem mem
      obtain ⟨z, inside, value⟩ := List.mem_map.mp among
      rw [← value]
      exact sorted.2.2 z inside x (by simp)
    have added := holds.at_end last
    obtain ⟨h', m', t', run', holds', copied', effects'⟩ := ih (n := n) holds₁ from₁ apart₁
      (cells.trans (List.append_cons done x rest))
      (by rw [values, added, List.map_append, ← values, copied]; simp)
      (by simpa using enough)
    refine ⟨h', m', t', ?_, holds', copied', effects₁.trans effects'⟩
    have read := value_run from_.linked (z := x) (by simp [cells])
    have step := preInc_run from₁.linked from₁.nodup cells
    rw [at_cons, Avl.copyLoop, run_bind read, run_bind run₁]
    exact (run_bind step).trans run'

theorem assign_run {other : Cells V} {o : Avl} (holds : Holds C h m t) (from_ : Holds C h o other)
    (apart : ∀ a ∈ ids other, a ∉ ids t) :
    ∃ h' m' t', m.assign C o h = some (m', h') ∧ Holds C h' m' t' ∧ values t' = values other ∧
      Effects h h' (ids t) (ids t') := by
  obtain ⟨h₁, run₁, effects₁⟩ := clear_run holds
  obtain ⟨-, same⟩ := effects₁.apart from_.linked apart
  have from₁ := from_.frame same
  obtain ⟨h', m', t', run', holds', copied, effects'⟩ := copyLoop_run other.cells (holds_new C h₁)
    from₁ (by simp) (rfl : other.cells = [] ++ other.cells) rfl (Nat.le_of_eq from₁.size.symm)
  refine ⟨h', m', t', ?_, holds', copied, effects₁.trans effects'⟩
  have start := begin_run from₁.linked from₁.nodup o.size
  rw [← from₁.root] at start
  rw [Avl.assign, run_bind run₁, run_bind start, run']

end Methods

end AvlTree
