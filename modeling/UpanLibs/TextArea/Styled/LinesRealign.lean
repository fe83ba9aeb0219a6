import UpanLibs.TextArea.Styled.LinesValid

/-!
The lines of a `TextArea` after its width has changed: they hold the same characters,
and each fits in the new width.
-/
namespace StyledText

open TextInput Fallible

variable {maxLineCharWidth : Nat}

theorem fitting_prefix (availableWidth : Int) (characters : List Character) :
    fitting availableWidth characters ++
      characters.drop (fitting availableWidth characters).length = characters := by
  induction characters generalizing availableWidth with
  | nil => rfl
  | cons ch characters ih =>
    rw [fitting]
    split
    · rfl
    · simp [ih]

theorem fitting_width {availableWidth : Int} (some_ : 0 ≤ availableWidth)
    (characters : List Character) :
    (chWidths (fitting availableWidth characters) : Int) ≤ availableWidth := by
  induction characters generalizing availableWidth with
  | nil => simpa [fitting] using some_
  | cons ch characters ih =>
    rw [fitting]
    split
    · simpa using some_
    next enough =>
      have rest := ih (Int.not_lt.mp enough)
      simp only [chWidths_cons, Int.natCast_add]
      omega

theorem foldl_push {line : TextLine} (exact_ : Exact line) (moved : List Character) :
    (moved.foldl (·.push ·) line).characters = line.characters ++ moved ∧
      Exact (moved.foldl (·.push ·) line) ∧
      (moved.foldl (·.push ·) line).wrapped = line.wrapped := by
  induction moved generalizing line with
  | nil => exact ⟨by simp, exact_, rfl⟩
  | cons ch moved ih =>
    obtain ⟨chars, exact', wrapped⟩ := ih (exact_push exact_ ch)
    refine ⟨?_, exact', wrapped⟩
    rw [List.foldl_cons, chars]
    simp [TextLine.push]

/-- The line that took the first characters of the next one, and what is left of that. -/
structure Drawn (maxLineCharWidth : Nat) (line nextLine line' left : TextLine) : Prop where
  fits : Fits maxLineCharWidth line'
  wrapped : line'.wrapped = line.wrapped
  leftFits : Fits maxLineCharWidth left
  leftWrapped : left.wrapped = nextLine.wrapped
  all : line'.characters ++ left.characters = line.characters ++ nextLine.characters

theorem drawn {line nextLine : TextLine} (fits : Fits maxLineCharWidth line)
    (nextFits : Fits maxLineCharWidth nextLine) :
    let moved := fitting ((maxLineCharWidth : Int) - line.width) nextLine.characters
    Drawn maxLineCharWidth line nextLine (moved.foldl (·.push ·) line)
      (nextLine.remove 0 moved.length) := by
  intro moved
  obtain ⟨chars, exact', wrapped⟩ := foldl_push fits.1 moved
  have within := fits.2
  have width : (chWidths moved : Int) ≤ (maxLineCharWidth : Int) - line.width :=
    fitting_width (by omega) nextLine.characters
  refine ⟨⟨exact', ?_⟩, wrapped, remove_fits nextFits (Nat.zero_le _), remove_wrapped _ _ _, ?_⟩
  · have exact_ := fits.1
    unfold Exact at exact' exact_
    rw [chars, chWidths_append] at exact'
    omega
  · rw [chars, remove_characters (Nat.zero_le _), List.take_zero, List.nil_append,
      List.append_assoc, fitting_prefix]

theorem Drawn.emptied {line nextLine line' left : TextLine}
    (h : Drawn maxLineCharWidth line nextLine line' left) (none_ : ¬ 0 < left.size) :
    line'.characters = line.characters ++ nextLine.characters := by
  have empty : left.characters = [] := List.length_eq_zero_iff.mp (Nat.eq_zero_of_not_pos none_)
  rw [← h.all, empty, List.append_nil]

theorem realignOnWidthIncrease_holds (li : Nat) (line : TextLine) (below : List TextLine)
    (sound : Sound maxLineCharWidth (line :: below)) :
    Returns (realignOnWidthIncrease maxLineCharWidth li line below)
      (Holds maxLineCharWidth (allCharacters (line :: below))) := by
  fun_induction realignOnWidthIncrease maxLineCharWidth li line below with
  | case1 li line wrapped => exact absurd (sound.ends line rfl) (by simp [layout, wrapped])
  | case2 li line unwrapped => exact .ok ⟨by simp, sound.fits, sound.ends, rfl⟩
  | case3 li line next below wrapped moved line' left some_ =>
    rename_i ih
    have drawn := drawn (sound.fits line (by simp)) (sound.fits next (by simp))
    have shorter : Sound maxLineCharWidth (left :: below) :=
      sound.tail.head drawn.leftFits drawn.leftWrapped
    obtain ⟨r, rest, holds⟩ := ih shorter
    have all := holds.cons drawn.fits
    rw [allCharacters_cons, ← List.append_assoc, drawn.all, List.append_assoc] at all
    rw [rest]
    exact .ok all
  | case4 li line next below wrapped moved line' left none_ nextWrapped =>
    rename_i ih
    have drawn := drawn (sound.fits line (by simp)) (sound.fits next (by simp))
    have wrapped' : next.wrapped = true := drawn.leftWrapped.symm.trans nextWrapped
    have more := layout.ends_wrapped_more sound.tail.ends wrapped'
    have all := ih (.cons more drawn.fits sound.tail.tail)
    rwa [allCharacters_cons, drawn.emptied none_, List.append_assoc] at all
  | case5 li line next wrapped moved line' left none_ nextUnwrapped =>
    have drawn := drawn (sound.fits line (by simp)) (sound.fits next (by simp))
    have fits : Fits maxLineCharWidth { line' with wrapped := false } :=
      drawn.fits.of_same rfl rfl
    have all : line'.characters = allCharacters [line, next] := by
      simp [line', moved, drawn.emptied none_]
    exact .ok (all ▸ holds_single fits rfl)
  | case6 li line next wrapped moved line' left none_ nextUnwrapped following below =>
    rename_i ih
    have drawn := drawn (sound.fits line (by simp)) (sound.fits next (by simp))
    have fits : Fits maxLineCharWidth { line' with wrapped := false } :=
      drawn.fits.of_same rfl rfl
    obtain ⟨r, rest, holds⟩ := ih sound.tail.tail
    have all : line'.characters ++ allCharacters (following :: below) =
        allCharacters (line :: next :: following :: below) := by
      rw [drawn.emptied none_, List.append_assoc]
      rfl
    rw [rest]
    exact .ok (all ▸ holds.cons fits)
  | case7 li line next below unwrapped =>
    rename_i ih
    obtain ⟨r, rest, holds⟩ := ih sound.tail
    rw [rest]
    exact .ok (holds.cons (sound.fits line (by simp)))

/-- Lines of a new width for `characters`; there are some where there were lines before. -/
structure Realigned (maxLineCharWidth : Nat) (characters : List Character)
    (lines lines' : List TextLine) : Prop where
  nonempty : lines ≠ [] → lines' ≠ []
  sound : Sound maxLineCharWidth lines'
  all : allCharacters lines' = characters

theorem Realigned.cons {line kept : TextLine} {characters : List Character}
    {below below' : List TextLine} (h : Realigned maxLineCharWidth characters below below')
    (fits : Fits maxLineCharWidth kept) (wrapped : kept.wrapped = line.wrapped)
    (ends : layout.Ends (line :: below)) :
    Realigned maxLineCharWidth (kept.characters ++ characters) (line :: below)
      (kept :: below') := by
  refine ⟨by simp, ?_, by rw [allCharacters_cons, h.all]⟩
  by_cases more : below' = []
  · have none_ : below = [] := not_imp_not.mp h.nonempty more
    subst more none_
    exact ⟨by simpa using fits, layout.ends_head wrapped ends⟩
  · exact .cons more fits h.sound

theorem realignOnWidthDecrease_ok (room : MIN_CURSOR_WIDTH_BUFFER ≤ maxLineCharWidth)
    (fontSize : Nat) (carried : List Character) (lines : List TextLine)
    (exact_ : ∀ line ∈ lines, Exact line) (ends : layout.Ends lines)
    (some_ : carried ≠ [] → lines ≠ [])
    (fit : ∀ ch ∈ carried ++ allCharacters lines, CharFits maxLineCharWidth ch) :
    Returns (realignOnWidthDecrease maxLineCharWidth fontSize carried lines)
      (Realigned maxLineCharWidth (carried ++ allCharacters lines) lines) := by
  induction lines generalizing carried with
  | nil =>
    have none_ : carried = [] := by
      by_contra more
      exact some_ more rfl
    subst none_
    exact .ok ⟨id, ⟨by simp, ends⟩, rfl⟩
  | cons line below ih =>
    obtain ⟨filled, kept, over_, refilled⟩ := refill room (exact_ line (by simp)) 0 []
      line.characters carried rfl rfl
    have all := refilled.all
    have wrapped' : kept.wrapped = line.wrapped := refilled.kept.wrapped.trans refilled.wrapped
    have belowEnds : layout.Ends below := by
      by_cases more : below = []
      · simp [more, WrappedText.Layout.Ends]
      · exact (layout.ends_cons more).mp ends
    have belowExact : ∀ l ∈ below, Exact l := fun l mem => exact_ l (by simp [mem])
    rw [List.nil_append] at all
    have split : carried ++ allCharacters (line :: below) =
        kept.characters ++ (over_ ++ allCharacters below) := by
      rw [allCharacters_cons, ← List.append_assoc, ← all, List.append_assoc]
    rw [split] at fit ⊢
    have belowFit : ∀ ch ∈ allCharacters below, CharFits maxLineCharWidth ch :=
      fun ch mem => fit ch (by simp [mem])
    simp only [realignOnWidthDecrease, refilled.inserted, refilled.taken, bind, Except.bind]
    cases over_ with
    | nil =>
      obtain ⟨r, rest, holds⟩ := ih [] belowExact belowEnds (by simp) (by simpa using belowFit)
      simp only [List.isEmpty_nil, if_true, rest]
      exact .ok (holds.cons refilled.kept.fits wrapped' ends)
    | cons next over_ =>
      simp only [List.isEmpty_cons, Bool.false_eq_true, if_false]
      by_cases wrapped : kept.wrapped = true
      · have more := layout.ends_wrapped_more ends (wrapped'.symm.trans wrapped)
        obtain ⟨r, rest, holds⟩ := ih (next :: over_) belowExact belowEnds (fun _ => more)
          (fun ch mem => fit ch (List.mem_append_right _ mem))
        rw [if_pos wrapped, rest]
        exact .ok (holds.cons refilled.kept.fits wrapped' ends)
      · obtain ⟨added, new, holds⟩ := newLines_holds room fontSize _ (next :: over_)
          (Nat.le_refl _) (by simp)
          (fun ch mem => fit ch (List.mem_append_right _ (List.mem_append_left _ mem)))
        obtain ⟨r, rest, holds'⟩ := ih [] belowExact belowEnds (by simp)
          (by simpa using belowFit)
        have both := (holds.append holds'.sound.fits holds'.sound.ends).cons
          (show Fits maxLineCharWidth { kept with wrapped := true } from
            refilled.kept.fits.of_same rfl rfl)
        rw [if_neg wrapped, new]
        simp only [rest]
        refine .ok ⟨fun _ => both.nonempty, ⟨both.fits, both.ends⟩, both.all.trans ?_⟩
        rw [holds'.all, List.nil_append]

end StyledText
