import Mathlib.Tactic.Common
import Mathlib.Data.List.Basic

/-!
Lists split at a position: what reading and writing at an index does to the part
before it, the element there and the part after it.
-/
namespace SplitList

universe u
variable {α : Type u}

theorem split_at {xs : List α} {i : Nat} {a : α} (here : xs[i]? = some a) :
    ∃ before after, xs = before ++ a :: after ∧ before.length = i := by
  obtain ⟨inside, rfl⟩ := List.getElem?_eq_some_iff.mp here
  refine ⟨xs.take i, xs.drop (i + 1), ?_, by simp; omega⟩
  rw [List.getElem_cons_drop, List.take_append_drop]

theorem split_two {xs : List α} {i : Nat} {b : α} (here : xs[i + 1]? = some b) :
    ∃ before a after, xs = before ++ a :: b :: after ∧ before.length = i := by
  obtain ⟨above, after, rfl, length⟩ := split_at here
  rcases List.eq_nil_or_concat above with rfl | ⟨before, a, rfl⟩
  · simp at length
  · refine ⟨before, a, after, by simp, ?_⟩
    simpa using length

@[simp]
theorem get_length (before after : List α) (a : α) :
    (before ++ a :: after)[before.length]? = some a := by
  simp

theorem take_length_succ (before after : List α) (a : α) :
    (before ++ a :: after).take (before.length + 1) = before ++ [a] := by
  induction before with
  | nil => rfl
  | cons b before ih => simp [ih]

theorem drop_length_succ (before after : List α) (a : α) :
    (before ++ a :: after).drop (before.length + 1) = after := by
  induction before with
  | nil => rfl
  | cons b before ih => simp [ih]

@[simp]
theorem insertIdx_length (before after : List α) (a : α) :
    (before ++ after).insertIdx before.length a = before ++ a :: after := by
  induction before with
  | nil => rfl
  | cons b before ih => simp [ih]

@[simp]
theorem eraseIdx_length (before after : List α) (a : α) :
    (before ++ a :: after).eraseIdx before.length = before ++ after := by
  induction before with
  | nil => rfl
  | cons b before ih => simp [ih]

@[simp]
theorem set_length (before after : List α) (a b : α) :
    (before ++ a :: after).set before.length b = before ++ b :: after := by
  induction before with
  | nil => rfl
  | cons b before ih => simp [ih]

@[simp]
theorem modify_length (before after : List α) (a : α) (f : α → α) :
    (before ++ a :: after).modify before.length f = before ++ f a :: after := by
  induction before with
  | nil => rfl
  | cons b before ih => simp [ih]

end SplitList
