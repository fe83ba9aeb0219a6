import Mathlib.Data.List.Basic
import Mathlib.Tactic.Common

/-!
A text split into lines at every separator. The last line need not be ended by one, but
is not empty then.
-/
namespace LineSplit

universe u
variable {α : Type u} [DecidableEq α] (sep : α)

def lines : List α → List (List α)
  | [] => []
  | c :: text =>
    if c = sep then [] :: lines text
    else match lines text with
      | [] => [[c]]
      | line :: below => (c :: line) :: below

def unfinished : List α → List α
  | [] => []
  | c :: text =>
    if sep ∈ text then unfinished text
    else if c = sep then text
    else c :: text

variable {sep} {line text more : List α}

theorem lines_ended (plain : sep ∉ line) (text : List α) :
    lines sep (line ++ sep :: text) = line :: lines sep text := by
  induction line with
  | nil => simp [lines]
  | cons c line ih =>
    rw [List.mem_cons, not_or] at plain
    rw [List.cons_append, lines, if_neg (Ne.symm plain.1), ih plain.2]

theorem lines_unended (plain : sep ∉ text) :
    lines sep text = if text = [] then [] else [text] := by
  induction text with
  | nil => rfl
  | cons c text ih =>
    have other : c ≠ sep := fun same => plain (same ▸ List.mem_cons_self)
    rw [lines, if_neg other, ih fun mem => plain (List.mem_cons_of_mem c mem)]
    by_cases last : text = [] <;> simp [last]

theorem lines_eq_nil : lines sep text = [] ↔ text = [] := by
  constructor
  · intro none_
    cases text with
    | nil => rfl
    | cons c text =>
      rw [lines] at none_
      split at none_
      · cases none_
      · split at none_ <;> cases none_
  · rintro rfl
    rfl

theorem first_line (mem : sep ∈ text) :
    ∃ line rest, text = line ++ sep :: rest ∧ sep ∉ line := by
  induction text with
  | nil => cases mem
  | cons c text ih =>
    by_cases same : c = sep
    · exact ⟨[], text, by rw [same, List.nil_append], by simp⟩
    · have later : sep ∈ text := by
        obtain rfl | later := List.mem_cons.mp mem
        · exact absurd rfl same
        · exact later
      obtain ⟨line, rest, rfl, plain⟩ := ih later
      refine ⟨c :: line, rest, rfl, ?_⟩
      rw [List.mem_cons, not_or]
      exact ⟨Ne.symm same, plain⟩

theorem lines_rendered {ls : List (List α)} (plain : ∀ line ∈ ls, sep ∉ line) :
    lines sep (ls.flatMap fun line => line ++ [sep]) = ls := by
  induction ls with
  | nil => rfl
  | cons line ls ih =>
    have here := plain line List.mem_cons_self
    have below : ∀ line ∈ ls, sep ∉ line := fun l mem => plain l (List.mem_cons_of_mem line mem)
    rw [List.flatMap_cons, List.append_assoc, List.singleton_append, lines_ended here, ih below]

theorem mem_lines_plain (mem : line ∈ lines sep text) : sep ∉ line := by
  induction text generalizing line with
  | nil => cases mem
  | cons c text ih =>
    rw [lines] at mem
    split at mem
    next =>
      obtain rfl | mem := List.mem_cons.mp mem
      · exact List.not_mem_nil
      · exact ih mem
    next other =>
      cases rest_ : lines sep text with
      | nil =>
        rw [rest_] at mem
        rw [List.mem_singleton.mp mem, List.mem_singleton]
        exact Ne.symm other
      | cons first below =>
        rw [rest_] at mem ih
        obtain rfl | mem := List.mem_cons.mp mem
        · rw [List.mem_cons, not_or]
          exact ⟨Ne.symm other, ih List.mem_cons_self⟩
        · exact ih (List.mem_cons_of_mem first mem)

theorem length_lines_le (text : List α) : (lines sep text).length ≤ text.length := by
  induction text with
  | nil => exact Nat.le_refl 0
  | cons c text ih =>
    rw [lines]
    split
    · exact Nat.succ_le_succ ih
    · cases rest_ : lines sep text with
      | nil => simp
      | cons line below =>
        rw [rest_] at ih
        exact Nat.le_succ_of_le ih

theorem unfinished_plain (plain : sep ∉ text) : unfinished sep text = text := by
  cases text with
  | nil => rfl
  | cons c text =>
    have other : c ≠ sep := fun same => plain (same ▸ List.mem_cons_self)
    rw [unfinished, if_neg fun mem => plain (List.mem_cons_of_mem c mem), if_neg other]

theorem unfinished_ended (before text : List α) :
    unfinished sep (before ++ sep :: text) = unfinished sep text := by
  induction before with
  | nil =>
    rw [List.nil_append, unfinished]
    split
    next => rfl
    next plain => rw [if_pos rfl, unfinished_plain plain]
  | cons c before ih =>
    rw [List.cons_append, unfinished, if_pos (by simp), ih]

theorem unfinished_append (text more : List α) :
    unfinished sep (unfinished sep text ++ more) = unfinished sep (text ++ more) := by
  induction text with
  | nil => rfl
  | cons c text ih =>
    rw [unfinished]
    by_cases mem : sep ∈ text
    · rw [if_pos mem, ih]
      obtain ⟨line, rest, rfl, -⟩ := first_line mem
      rw [← List.cons_append, List.append_assoc, List.append_assoc, List.cons_append,
        unfinished_ended, unfinished_ended]
    · rw [if_neg mem]
      split
      next same => rw [same, ← List.nil_append ((sep :: text) ++ more), List.cons_append,
        unfinished_ended]
      next => rfl

theorem unfinished_eq_nil : unfinished sep text = [] ↔ text = [] ∨ text.getLast? = some sep := by
  induction text with
  | nil => simp [unfinished]
  | cons c text ih =>
    rw [unfinished]
    by_cases mem : sep ∈ text
    · have more : text ≠ [] := List.ne_nil_of_mem mem
      rw [if_pos mem, ih, List.getLast?_cons_of_ne_nil more]
      simp [more]
    · have last : (c :: text).getLast? = some sep → c = sep ∧ text = [] := by
        intro ended
        cases text with
        | nil => exact ⟨Option.some.inj ended, rfl⟩
        | cons d text =>
          rw [List.getLast?_cons_cons] at ended
          exact absurd (List.mem_of_getLast? ended) mem
      rw [if_neg mem]
      split
      next same =>
        constructor
        · rintro rfl
          exact .inr (congrArg some same)
        · intro ended
          obtain no | ended := ended
          · cases no
          · exact (last ended).2
      next other =>
        constructor
        · intro no
          cases no
        · intro ended
          obtain no | ended := ended
          · cases no
          · exact absurd (last ended).1 other

end LineSplit
