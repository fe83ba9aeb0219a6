import Mathlib.Order.Monotone.Basic
import UpanLibs.TextArea.Styled.LinesText

/-!
What is left of lines when characters are taken from the front of the first one, one by
one, and each wrapped line is filled up from the next one after every character it gave.
-/
namespace StyledText

open TextInput Fallible
open WrappedText (Layout Sym)
open WrappedText.Layout (symbols)

variable (maxLineCharWidth : Nat)

def room : Nat → List Character → Nat
  | _, [] => 0
  | width, ch :: characters =>
      if width + ch.chWidth < maxLineCharWidth then room (width + ch.chWidth) characters + 1 else 0

def paragraph : List TextLine → List Character
  | [] => []
  | line :: below => line.characters ++ if line.wrapped then paragraph below else []

def window (line : TextLine) (below : List TextLine) (given got : Nat) : List Character :=
  (line.characters ++ (paragraph below).take got).drop given

def pulls (line : TextLine) (below : List TextLine) : Nat → Nat
  | 0 => 0
  | given + 1 =>
      let got := pulls line below given
      got + room maxLineCharWidth
        (MIN_CURSOR_WIDTH_BUFFER + chWidths (window line below (given + 1) got))
        ((paragraph below).drop got)

def front (line : TextLine) (below : List TextLine) (given : Nat) : List Character :=
  if line.wrapped then window line below given (pulls maxLineCharWidth line below given)
  else line.characters.drop given

def Empties : Nat → List TextLine → Prop
  | _, [] => False
  | given, line :: below =>
      if line.wrapped then
        0 < given ∧ Empties (pulls maxLineCharWidth line below given) below
      else line.size ≤ given

/-- The lines can give so many characters: no wrapped line is left without characters on
    the way, and the last line of the paragraph is not left empty before the last one. -/
def Gives : Nat → List TextLine → Prop
  | _, [] => True
  | given, line :: below => line.wrapped = true →
      (∀ n ≤ given, n < line.size + pulls maxLineCharWidth line below n) ∧
      (0 < given → Gives (pulls maxLineCharWidth line below given) below) ∧
      (1 < given → ¬ Empties maxLineCharWidth
        (pulls maxLineCharWidth line below (given - 1)) below)

def wanted (maxLineCharWidth : Nat) (top : TextLine) (given : Nat) (lines : List TextLine) : Nat :=
  room maxLineCharWidth (MIN_CURSOR_WIDTH_BUFFER + chWidths top.characters)
    ((paragraph lines).drop given)

def Refills (x : Nat) (top : TextLine) (lines : List TextLine) : Prop :=
  Gives maxLineCharWidth (wanted maxLineCharWidth top 0 lines) lines ∧
    ¬ (wanted maxLineCharWidth top 0 lines = 0 ∧ 0 < nextSize lines ∧ x = top.size)

def TakesOne (x : Nat) (top : TextLine) (lines : List TextLine) : Prop :=
  wanted maxLineCharWidth top 0 lines = 0 ∧ 0 < nextSize lines ∧ x = top.size ∧
    Gives maxLineCharWidth 1 lines

instance decidableEmpties : ∀ given lines, Decidable (Empties maxLineCharWidth given lines)
  | _, [] => .isFalse id
  | given, line :: below =>
      have := decidableEmpties (pulls maxLineCharWidth line below given) below
      if wrapped : line.wrapped then
        decidable_of_iff (0 < given ∧
          Empties maxLineCharWidth (pulls maxLineCharWidth line below given) below)
          (by rw [Empties, if_pos wrapped])
      else decidable_of_iff (line.size ≤ given) (by rw [Empties, if_neg wrapped])

instance decidableGives : ∀ given lines, Decidable (Gives maxLineCharWidth given lines)
  | _, [] => .isTrue trivial
  | given, line :: below =>
      have := decidableGives (pulls maxLineCharWidth line below given) below
      inferInstanceAs (Decidable (_ → (∀ n ≤ given, _) ∧ (_ → _) ∧ (_ → _)))

instance decidableRefills (x : Nat) (top : TextLine) (lines : List TextLine) :
    Decidable (Refills maxLineCharWidth x top lines) :=
  have := decidableGives maxLineCharWidth (wanted maxLineCharWidth top 0 lines) lines
  inferInstanceAs (Decidable (_ ∧ _))

instance decidableTakesOne (x : Nat) (top : TextLine) (lines : List TextLine) :
    Decidable (TakesOne maxLineCharWidth x top lines) :=
  have := decidableGives maxLineCharWidth 1 lines
  inferInstanceAs (Decidable (_ ∧ _))

theorem room_le (width : Nat) (characters : List Character) :
    room maxLineCharWidth width characters ≤ characters.length := by
  induction characters generalizing width with
  | nil => exact Nat.le_refl _
  | cons ch characters ih =>
    rw [room]
    split
    · exact Nat.succ_le_succ (ih (width + ch.chWidth))
    · exact Nat.zero_le _

theorem pulls_le (line : TextLine) (below : List TextLine) (given : Nat) :
    pulls maxLineCharWidth line below given ≤ (paragraph below).length := by
  induction given with
  | zero => exact Nat.zero_le _
  | succ given ih =>
    have more := room_le maxLineCharWidth (MIN_CURSOR_WIDTH_BUFFER + chWidths
      (window line below (given + 1) (pulls maxLineCharWidth line below given)))
      ((paragraph below).drop (pulls maxLineCharWidth line below given))
    rw [List.length_drop] at more
    rw [pulls]
    omega

theorem pulls_mono (line : TextLine) (below : List TextLine) :
    Monotone (pulls maxLineCharWidth line below) :=
  monotone_nat_of_le_succ fun _ => Nat.le_add_right _ _

variable {maxLineCharWidth}

theorem Empties.mono {lines : List TextLine} {a b : Nat} (le : a ≤ b)
    (empties : Empties maxLineCharWidth a lines) : Empties maxLineCharWidth b lines := by
  induction lines generalizing a b with
  | nil => exact empties
  | cons line below ih =>
    by_cases wrapped : line.wrapped = true
    · rw [Empties, if_pos wrapped] at empties ⊢
      exact ⟨Nat.lt_of_lt_of_le empties.1 le, ih (pulls_mono _ _ _ le) empties.2⟩
    · rw [Empties, if_neg wrapped] at empties ⊢
      exact Nat.le_trans empties le

theorem Gives.anti {lines : List TextLine} {a b : Nat} (le : a ≤ b)
    (gives : Gives maxLineCharWidth b lines) : Gives maxLineCharWidth a lines := by
  induction lines generalizing a b with
  | nil => trivial
  | cons line below ih =>
    intro wrapped
    obtain ⟨some_, lower, once⟩ := gives wrapped
    refine ⟨fun n small => some_ n (Nat.le_trans small le), fun positive => ?_, fun more early => ?_⟩
    · exact ih (pulls_mono _ _ _ le) (lower (Nat.lt_of_lt_of_le positive le))
    · exact once (by omega) (early.mono (pulls_mono _ _ _ (by omega)))

theorem Gives.not_empties {line : TextLine} {below : List TextLine} {given : Nat}
    (gives : Gives maxLineCharWidth (given + 1) (line :: below)) (wrapped : line.wrapped = true) :
    ¬ Empties maxLineCharWidth given (line :: below) := by
  rw [Empties, if_pos wrapped]
  rintro ⟨positive, empties⟩
  exact (gives wrapped).2.2 (by omega) empties

/-- `current` is left of `lines`, with every flag as it was. -/
def Given (maxLineCharWidth : Nat) : Nat → List TextLine → List TextLine → Prop
  | _, [], current => current = []
  | given, line :: below, current => ∃ first rest, current = first :: rest ∧
      first.wrapped = line.wrapped ∧ first.characters = front maxLineCharWidth line below given ∧
      if line.wrapped then Given maxLineCharWidth (pulls maxLineCharWidth line below given) below rest
      else rest = below

theorem front_wrapped {line : TextLine} {below : List TextLine} (wrapped : line.wrapped = true)
    (given : Nat) : front maxLineCharWidth line below given =
      window line below given (pulls maxLineCharWidth line below given) := by
  rw [front, if_pos wrapped]

theorem front_unwrapped {line : TextLine} {below : List TextLine} (unwrapped : line.wrapped = false)
    (given : Nat) : front maxLineCharWidth line below given = line.characters.drop given := by
  simp [front, unwrapped]

theorem given_zero (lines : List TextLine) : Given maxLineCharWidth 0 lines lines := by
  induction lines with
  | nil => rfl
  | cons line below ih =>
    refine ⟨line, below, rfl, rfl, ?_⟩
    cases wrapped : line.wrapped with
    | true => exact ⟨by simp [front_wrapped wrapped, window, pulls], ih⟩
    | false => exact ⟨by simp [front_unwrapped wrapped], rfl⟩

theorem window_append {line : TextLine} {below : List TextLine} {given got : Nat}
    (inside : given ≤ line.size + got) (enough : got ≤ (paragraph below).length) :
    window line below given got ++ (paragraph below).drop got =
      (line.characters ++ paragraph below).drop given := by
  have length : given ≤ (line.characters ++ (paragraph below).take got).length := by
    have size : line.characters.length = line.size := rfl
    rw [List.length_append, List.length_take]
    omega
  rw [window, ← List.drop_append_of_le_length length, List.append_assoc, List.take_append_drop]

theorem paragraph_wrapped {line : TextLine} (below : List TextLine) (wrapped : line.wrapped = true) :
    paragraph (line :: below) = line.characters ++ paragraph below := by
  rw [paragraph, if_pos wrapped]

theorem paragraph_unwrapped {line : TextLine} (below : List TextLine)
    (unwrapped : line.wrapped = false) : paragraph (line :: below) = line.characters := by
  simp [paragraph, unwrapped]

theorem text_paragraph (lines : List TextLine) :
    ∃ tail, layout.text lines = symbols (paragraph lines) ++ tail := by
  induction lines with
  | nil => exact ⟨[], rfl⟩
  | cons line below ih =>
    cases wrapped : line.wrapped with
    | true =>
      cases below with
      | nil => exact ⟨[], by simp [Layout.text, paragraph, layout]⟩
      | cons next below =>
        obtain ⟨tail, text⟩ := ih
        refine ⟨tail, ?_⟩
        rw [layout.text_line, layout.tailText_wrapped wrapped (by simp), text,
          paragraph_wrapped _ wrapped, Layout.symbols_append, List.append_assoc]
        rfl
    | false =>
      refine ⟨layout.tailText line below, ?_⟩
      rw [layout.text_line, paragraph_unwrapped below wrapped]
      rfl

theorem text_wrapped {line : TextLine} (below : List TextLine) (wrapped : line.wrapped = true) :
    layout.text (line :: below) = symbols line.characters ++ layout.text below := by
  cases below with
  | nil => simp [Layout.text, layout]
  | cons next below =>
    rw [layout.text_line, layout.tailText_wrapped wrapped (by simp)]
    rfl

theorem symbols_drop (characters : List Character) (n : Nat) :
    symbols (characters.drop n) = (symbols characters).drop n := by
  simp [symbols, List.map_drop]

theorem text_window {line : TextLine} {below : List TextLine} {given got : Nat}
    (inside : given ≤ line.size + got) (enough : got ≤ (paragraph below).length) :
    symbols (window line below given got) ++ (layout.text below).drop got =
      (symbols line.characters ++ layout.text below).drop given := by
  obtain ⟨tail, split⟩ := text_paragraph below
  have length : given ≤ (symbols line.characters ++ symbols (paragraph below)).length := by
    have size : line.characters.length = line.size := rfl
    rw [List.length_append, Layout.symbols_length, Layout.symbols_length, size]
    omega
  rw [split, ← List.append_assoc, List.drop_append_of_le_length length, ← Layout.symbols_append,
    ← symbols_drop, ← window_append inside enough, Layout.symbols_append,
    symbols_drop (paragraph below), List.drop_append_of_le_length
      (by rw [Layout.symbols_length]; exact enough), List.append_assoc]

theorem Gives.inside {line : TextLine} {below : List TextLine} {given : Nat}
    (gives : 0 < given → Gives maxLineCharWidth given (line :: below))
    (wrapped : line.wrapped = true) :
    given ≤ line.size + pulls maxLineCharWidth line below given := by
  rcases Nat.eq_zero_or_pos given with rfl | positive
  · exact Nat.zero_le _
  · exact Nat.le_of_lt ((gives positive wrapped).1 given (Nat.le_refl _))

theorem Gives.below {line : TextLine} {below : List TextLine} {given : Nat}
    (gives : 0 < given → Gives maxLineCharWidth given (line :: below))
    (wrapped : line.wrapped = true) (positive : 0 < pulls maxLineCharWidth line below given) :
    Gives maxLineCharWidth (pulls maxLineCharWidth line below given) below := by
  have some_ : 0 < given := by
    by_contra none_
    rw [Nat.eq_zero_of_not_pos none_] at positive
    exact Nat.lt_irrefl _ positive
  exact (gives some_ wrapped).2.1 some_

theorem Given.text {lines current : List TextLine} {given : Nat}
    (left : Given maxLineCharWidth given lines current)
    (gives : 0 < given → Gives maxLineCharWidth given lines)
    (few : given ≤ (paragraph lines).length) :
    layout.text current = (layout.text lines).drop given := by
  induction lines generalizing given current with
  | nil =>
    rw [show current = [] from left]
    simp [Layout.text]
  | cons line below ih =>
    obtain ⟨first, rest, rfl, same, characters, left⟩ := left
    cases wrapped : line.wrapped with
    | true =>
      rw [if_pos wrapped] at left
      have enough := pulls_le maxLineCharWidth line below given
      rw [text_wrapped rest (same.trans wrapped), text_wrapped below wrapped, characters,
        front_wrapped wrapped, ih left (Gives.below gives wrapped) enough]
      exact text_window (Gives.inside gives wrapped) enough
    | false =>
      rw [if_neg (by simp [wrapped])] at left
      rw [paragraph_unwrapped below wrapped] at few
      rw [layout.text_line, layout.text_line, layout.tailText_same rest same, left,
        List.drop_append_of_le_length (by rw [Layout.symbols_length]; exact few), ← symbols_drop]
      rw [front_unwrapped wrapped] at characters
      exact congrArg (symbols · ++ _) characters

theorem Given.paragraph_left {lines current : List TextLine} {given : Nat}
    (left : Given maxLineCharWidth given lines current)
    (gives : 0 < given → Gives maxLineCharWidth given lines) :
    paragraph current = (paragraph lines).drop given := by
  induction lines generalizing given current with
  | nil =>
    rw [show current = [] from left]
    simp [paragraph]
  | cons line below ih =>
    obtain ⟨first, rest, rfl, same, characters, left⟩ := left
    cases wrapped : line.wrapped with
    | true =>
      rw [if_pos wrapped] at left
      rw [paragraph_wrapped rest (same.trans wrapped), paragraph_wrapped below wrapped, characters,
        front_wrapped wrapped, ih left (Gives.below gives wrapped)]
      exact window_append (Gives.inside gives wrapped) (pulls_le maxLineCharWidth line below given)
    | false =>
      rw [paragraph_unwrapped rest (same.trans wrapped), paragraph_unwrapped below wrapped,
        characters, front_unwrapped wrapped]

theorem Given.flags {lines current : List TextLine} {given : Nat}
    (left : Given maxLineCharWidth given lines current) :
    current.map (·.wrapped) = lines.map (·.wrapped) := by
  induction lines generalizing given current with
  | nil => rw [show current = [] from left]
  | cons line below ih =>
    obtain ⟨first, rest, rfl, same, -, left⟩ := left
    rw [List.map_cons, List.map_cons, same]
    split at left
    · rw [ih left]
    · rw [left]

end StyledText
