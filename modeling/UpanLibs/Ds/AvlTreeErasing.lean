import UpanLibs.Ds.AvlTreeWorld

/-!
Erasing while iterating. Every other element stays in its node, so that an iterator that was
moved on before its old element was erased goes on from where it is.
-/
namespace AvlTree
open Memory HeightTree HeightTree.HTree Transition

variable {V K : Type} {C : CType V K} {h : Heap (Node V)} {m : Avl} {t : Cells V}

theorem eraseLoop_run (pred : V → Bool) : ∀ (rest : List (Nat × V)) {n : Nat} {h : Heap (Node V)}
    {m : Avl} {t : Cells V} {kept : List (Nat × V)}, Holds C h m t → t.cells = kept ++ rest →
    rest.length ≤ n →
    ∃ h' m' t', Avl.eraseLoop C pred n m (at_ rest) h = some ((m', rest.map Prod.snd), h') ∧
      Holds C h' m' t' ∧ t'.cells = kept ++ rest.filter (fun x => !pred x.2) ∧
      Effects h h' (ids t) (ids t') := by
  intro rest
  induction rest with
  | nil =>
    intro n h m t kept holds cells _
    exact ⟨h, m, t, by cases n <;> rfl, holds, cells, Within.effects fun a _ => rfl⟩
  | cons x rest ih =>
    intro n h m t kept holds cells enough
    obtain ⟨n, rfl⟩ : ∃ k, n = k + 1 := ⟨n - 1, by
      simp only [List.length_cons] at enough
      omega⟩
    have left_ : rest.length ≤ n := by simpa using enough
    have read := value_run holds.linked (z := x) (by simp [cells])
    cases selected : pred x.2 with
    | true =>
      -- the iterator moves on, and then its old element goes
      obtain ⟨h₁, m₁, t₁, run₁, holds₁, cells₁, effects₁⟩ := eraseIt_run holds cells
      obtain ⟨h', m', t', run', holds', cells', effects'⟩ := ih holds₁ cells₁ left_
      refine ⟨h', m', t', ?_, holds', ?_, effects₁.trans effects'⟩
      · rw [at_cons, Avl.eraseLoop, run_bind read, if_pos selected]
        exact (run_bind (postInc_run holds.linked holds.nodup cells)).trans
          ((run_bind run₁).trans (run_bind run'))
      · rw [cells', List.filter_cons, if_neg (by simp [selected])]
    | false =>
      obtain ⟨h', m', t', run', holds', cells', effects'⟩ :=
        ih holds (cells.trans (List.append_cons kept x rest)) left_
      refine ⟨h', m', t', ?_, holds', ?_, effects'⟩
      · rw [at_cons, Avl.eraseLoop, run_bind read, if_neg (by simp [selected])]
        exact (run_bind (preInc_run holds.linked holds.nodup cells)).trans (run_bind run')
      · rw [cells', List.filter_cons, if_pos (by simp [selected]), List.append_assoc]
        rfl

theorem eraseWhere_run (holds : Holds C h m t) (pred : V → Bool) :
    ∃ h' m' t', m.eraseWhere C pred h = some ((m', values t), h') ∧ Holds C h' m' t' ∧
      t'.cells = t.cells.filter (fun x => !pred x.2) ∧ Effects h h' (ids t) (ids t') := by
  obtain ⟨h', m', t', run, holds', cells, effects⟩ := eraseLoop_run pred t.cells holds
    (List.nil_append t.cells).symm (Nat.le_of_eq holds.size.symm)
  refine ⟨h', m', t', ?_, holds', cells, effects⟩
  have first := begin_run holds.linked holds.nodup m.size
  rw [← holds.root] at first
  rw [Avl.eraseWhere, run_bind first, run]
  rfl

/-- An iterator at an element, in a tree that may have changed since: it gives the element,
    and steps to the elements beside it. -/
def Valid (h : Heap (Node V)) (t : Cells V) (x : Nat × V) : Prop :=
  Avl.value (some x.1) h = some (x.2, h) ∧
    ∃ before after, t.cells = before ++ x :: after ∧
      Avl.preInc (some x.1) h = some (at_ after, h)

theorem Holds.valid (holds : Holds C h m t) {x : Nat × V} (mem : x ∈ t.cells) : Valid h t x := by
  obtain ⟨before, after, cells⟩ := List.append_of_mem mem
  exact ⟨value_run holds.linked mem, before, after, cells,
    preInc_run holds.linked holds.nodup cells⟩

/-- Erasing leaves every other element in its own node, whose iterators stay valid. The loop
    that erases the selected elements meets every element once, in ascending order, and
    leaves the others. -/
theorem erase_keeps_nodes {X : Type} [DecidableEq X] {ops : List (Op X V K)}
    {w : World X Avl (Node V)} (run : Runs C ops w) {x : X} (object : w.object x = some m) :
    ∃ t, Holds C w.heap m t ∧
      (∀ key, ∃ h' m' t' deleted, m.erase C key w.heap = some ((m', deleted), h') ∧
        Holds C h' m' t' ∧ t'.cells = t.cells.filter (fun y => (C.seek key y).isSome) ∧
        (deleted = true ↔ ∃ y ∈ t.cells, C.seek key y = none) ∧
        ∀ y ∈ t.cells, C.seek key y ≠ none → Valid h' t' y) ∧
      ∀ pred : V → Bool, ∃ h' m' t', m.eraseWhere C pred w.heap = some ((m', values t), h') ∧
        Holds C h' m' t' ∧ t'.cells = t.cells.filter fun y => !pred y.2 := by
  obtain ⟨trees, sound⟩ := runs_sound run
  have holds := sound.holds x m object
  refine ⟨trees x, holds, ?_, ?_⟩
  · intro key
    obtain ⟨h', m', erased, holds', -⟩ := erase_run holds key
    have cells := cells_erase holds.sorted key
    refine ⟨h', m', _, _, erased, holds', cells, ?_, ?_⟩
    · rw [(erase_spec (holds.sorted.splits key)).2, List.any_eq_true]
      simp only [Option.isNone_iff_eq_none]
    · intro y mem other
      apply holds'.valid
      rw [cells, List.mem_filter, Option.isSome_iff_ne_none]
      exact ⟨mem, other⟩
  · intro pred
    obtain ⟨h', m', t', run', holds', cells, -⟩ := eraseWhere_run holds pred
    exact ⟨h', m', t', run', holds', cells⟩

theorem erase_keeps_nodes_numbers : ∃ (w : World Unit Avl (Node Nat)) (m : Avl),
    w.object () = some m ∧ m.size = 3 ∧ ∃ t, Holds numbers w.heap m t ∧
      (∀ key, ∃ h' m' t' deleted, m.erase numbers key w.heap = some ((m', deleted), h') ∧
        Holds numbers h' m' t' ∧ t'.cells = t.cells.filter (fun y => (numbers.seek key y).isSome) ∧
        (deleted = true ↔ ∃ y ∈ t.cells, numbers.seek key y = none) ∧
        ∀ y ∈ t.cells, numbers.seek key y ≠ none → Valid h' t' y) ∧
      ∀ pred : Nat → Bool, ∃ h' m' t', m.eraseWhere numbers pred w.heap = some ((m', values t), h') ∧
        Holds numbers h' m' t' ∧ t'.cells = t.cells.filter fun y => !pred y.2 := by
  obtain ⟨w, run, object⟩ := runs_numbers
  exact ⟨w, _, object, rfl, erase_keeps_nodes run object⟩

end AvlTree
