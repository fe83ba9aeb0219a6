import Mathlib.Tactic.Common
import Mathlib.Data.List.Basic

/-!
A plain editor of one line: what is before its caret and what is after it.
-/
namespace LineEditor

universe u v

structure Line (α : Type u) where
  before : List α
  after : List α
  deriving DecidableEq, Repr

inductive Press (α : Type u) where
  | chr (a : α)
  | backspace | left | right | home | end_
  deriving DecidableEq, Repr

variable {α : Type u}

namespace Line

def empty : Line α := ⟨[], []⟩

def text (line : Line α) : List α := line.before ++ line.after

def press (line : Line α) : Press α → Line α
  | .chr a => ⟨line.before ++ [a], line.after⟩
  | .backspace => ⟨line.before.dropLast, line.after⟩
  | .left =>
      match line.before.getLast? with
      | none => line
      | some a => ⟨line.before.dropLast, a :: line.after⟩
  | .right =>
      match line.after with
      | [] => line
      | a :: after => ⟨line.before ++ [a], after⟩
  | .home => ⟨[], line.text⟩
  | .end_ => ⟨line.text, []⟩

variable (a : α) (before after : List α)

@[simp]
theorem press_backspace_start : (⟨[], after⟩ : Line α).press .backspace = ⟨[], after⟩ := rfl

@[simp]
theorem press_backspace : (⟨before ++ [a], after⟩ : Line α).press .backspace = ⟨before, after⟩ := by
  simp [press]

@[simp]
theorem press_left_start : (⟨[], after⟩ : Line α).press .left = ⟨[], after⟩ := rfl

@[simp]
theorem press_left : (⟨before ++ [a], after⟩ : Line α).press .left = ⟨before, a :: after⟩ := by
  simp [press]

@[simp]
theorem press_right_end : (⟨before, []⟩ : Line α).press .right = ⟨before, []⟩ := rfl

@[simp]
theorem press_right : (⟨before, a :: after⟩ : Line α).press .right = ⟨before ++ [a], after⟩ := rfl

end Line

/-! The same editor over other characters. -/

section

variable {β : Type v} (f : α → β)

def Line.map (line : Line α) : Line β := ⟨line.before.map f, line.after.map f⟩

def Press.map : Press α → Press β
  | .chr a => .chr (f a)
  | .backspace => .backspace
  | .left => .left
  | .right => .right
  | .home => .home
  | .end_ => .end_

theorem Line.map_text (line : Line α) : (line.map f).text = line.text.map f := by
  simp [Line.map, Line.text]

theorem Line.map_press (line : Line α) (key : Press α) :
    (line.map f).press (key.map f) = (line.press key).map f := by
  obtain ⟨before, after⟩ := line
  cases key with
  | chr a => simp [Line.map, Press.map, press]
  | backspace => simp [Line.map, Press.map, press, List.map_dropLast]
  | left =>
    rcases List.eq_nil_or_concat before with rfl | ⟨first, last, rfl⟩
    · rfl
    · rw [List.concat_eq_append]
      have mapped : Line.map f ⟨first ++ [last], after⟩ =
          ⟨first.map f ++ [f last], after.map f⟩ := by
        simp [Line.map]
      rw [mapped]
      exact (press_left _ _ _).trans (congrArg (Line.map f) (press_left _ _ _)).symm
  | right => cases after <;> simp [Line.map, Press.map, press]
  | home => simp [Line.map, Press.map, press, text]
  | end_ => simp [Line.map, Press.map, press, text]

end

end LineEditor
