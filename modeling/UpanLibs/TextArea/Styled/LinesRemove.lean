import UpanLibs.TextArea.Styled.LinesFlow

/-!
What `wrapremovech` leaves of the text where the lines below can fill up each other: they
give exactly the characters that have room above them.
-/
namespace StyledText

open TextInput Fallible
open WrappedText (Layout Sym)
open WrappedText.Layout (symbols)

variable {maxLineCharWidth : Nat}

def Reports (maxLineCharWidth given : Nat) : List TextLine → Prop
  | [] => False
  | line :: below => line.wrapped = true ∧ Empties maxLineCharWidth given (line :: below)

theorem Gives.not_reports {lines : List TextLine} {given : Nat}
    (gives : Gives maxLineCharWidth (given + 1) lines) : ¬ Reports maxLineCharWidth given lines := by
  cases lines with
  | nil => exact id
  | cons line below => exact fun ⟨wrapped, empties⟩ => gives.not_empties wrapped empties

theorem not_reports_zero (lines : List TextLine) : ¬ Reports maxLineCharWidth 0 lines := by
  cases lines with
  | nil => exact id
  | cons line below =>
    rintro ⟨wrapped, empties⟩
    rw [Empties, if_pos wrapped] at empties
    exact Nat.lt_irrefl _ empties.1

/-- What a line and those below it are once they gave so many characters one by one. -/
structure Popped (maxLineCharWidth given : Nat) (line : TextLine) (below : List TextLine)
    (r : List TextLine × Option Nat) : Prop where
  text : layout.text (settled r) = (layout.text (line :: below)).drop given
  head : ∃ first rest, r.1 = first :: rest ∧
    first.characters = front maxLineCharWidth line below given
  left : ¬ Reports maxLineCharWidth given (line :: below) →
    r.2 = none ∧ Given maxLineCharWidth given (line :: below) r.1
  reports : Reports maxLineCharWidth given (line :: below) → r.2.isSome
  sound : Sound maxLineCharWidth r.1
  flows : Flows (endings (line :: below)) r

theorem Given.popped {line : TextLine} {below current : List TextLine} {given : Nat}
    (left : Given maxLineCharWidth given (line :: below) current)
    (gives : 0 < given → Gives maxLineCharWidth given (line :: below))
    (few : given ≤ (paragraph (line :: below)).length)
    (quiet : ¬ Reports maxLineCharWidth given (line :: below))
    (sound : Sound maxLineCharWidth current) :
    Popped maxLineCharWidth given line below (current, none) := by
  refine ⟨left.text gives few, ?_, fun _ => ⟨rfl, left⟩, fun report => absurd report quiet, sound,
    ⟨Nat.le_of_eq (flags_endings left.flags).symm, by simp⟩⟩
  obtain ⟨first, rest, same, -, characters, -⟩ := left
  exact ⟨first, rest, same, characters⟩

theorem popped_zero {line : TextLine} {below : List TextLine}
    (sound : Sound maxLineCharWidth (line :: below)) :
    Popped maxLineCharWidth 0 line below (line :: below, none) :=
  (given_zero _).popped nofun (Nat.zero_le _)
    (not_reports_zero _) sound

theorem front_paragraph {line : TextLine} {below : List TextLine} {given : Nat}
    (gives : Gives maxLineCharWidth given (line :: below)) :
    ∃ more, (paragraph (line :: below)).drop given =
      front maxLineCharWidth line below given ++ more ∧
        (front maxLineCharWidth line below given = [] → more = [] ∧ line.wrapped = false) := by
  cases wrapped : line.wrapped with
  | true =>
    have inside := (gives wrapped).1 given (Nat.le_refl _)
    have enough := pulls_le maxLineCharWidth line below given
    refine ⟨(paragraph below).drop (pulls maxLineCharWidth line below given), ?_, ?_⟩
    · rw [front_wrapped wrapped, window_append (Nat.le_of_lt inside) enough,
        paragraph_wrapped below wrapped]
    · intro none_
      have length := congrArg List.length none_
      have size : line.characters.length = line.size := rfl
      rw [front_wrapped wrapped, window, List.length_drop, List.length_append, List.length_take,
        List.length_nil, size] at length
      omega
  | false =>
    refine ⟨[], ?_, fun _ => ⟨rfl, rfl⟩⟩
    rw [front_unwrapped wrapped, paragraph_unwrapped below wrapped, List.append_nil]

def Pops (maxLineCharWidth : Nat) (line : TextLine) (below : List TextLine)
    (remove : List TextLine → List TextLine × Option Nat) : Prop :=
  ∀ given current, Sound maxLineCharWidth current →
    Given maxLineCharWidth given (line :: below) current →
    ¬ Reports maxLineCharWidth given (line :: below) →
    Gives maxLineCharWidth (given + 1) (line :: below) →
    front maxLineCharWidth line below given ≠ [] →
    Popped maxLineCharWidth (given + 1) line below (remove current)

variable (maxLineCharWidth) in
theorem wanted_cons {top : TextLine} (exact_ : Exact top) {lines : List TextLine} {given : Nat}
    {ch : Character} {more : List Character}
    (here : (paragraph lines).drop given = ch :: more) :
    wanted maxLineCharWidth top given lines =
      if top.width + ch.chWidth < maxLineCharWidth
      then wanted maxLineCharWidth (top.push ch) (given + 1) lines + 1 else 0 := by
  have rest : (paragraph lines).drop (given + 1) = more := by
    rw [← List.drop_drop, here]
    rfl
  unfold Exact at exact_
  rw [wanted, wanted, here, rest, room, exact_]
  simp [TextLine.push, Nat.add_assoc]

/-- The line above and what is left below once it is filled up. -/
structure Filled (maxLineCharWidth given : Nat) (top line : TextLine) (below : List TextLine)
    (moved : Bool) (filled : TextLine × List TextLine × Option Nat × Bool) : Prop where
  characters : filled.1.characters = top.characters ++
    ((paragraph (line :: below)).drop given).take
      (wanted maxLineCharWidth top given (line :: below))
  wrapped : filled.1.wrapped = top.wrapped
  fits : Fits maxLineCharWidth filled.1
  popped : Popped maxLineCharWidth (given + wanted maxLineCharWidth top given (line :: below))
    line below (filled.2.1, filled.2.2.1)
  moved : filled.2.2.2 = (moved || decide (0 < wanted maxLineCharWidth top given (line :: below)))

theorem filled_stop {top line : TextLine} {below : List TextLine} {given : Nat} {moved : Bool}
    {r : List TextLine × Option Nat} (fits : Fits maxLineCharWidth top)
    (popped : Popped maxLineCharWidth given line below r)
    (none_ : wanted maxLineCharWidth top given (line :: below) = 0) :
    Filled maxLineCharWidth given top line below moved (top, r.1, r.2, moved) := by
  refine ⟨?_, rfl, fits, ?_, ?_⟩
  · rw [none_, List.take_zero, List.append_nil]
  · rw [none_]
    exact popped
  · simp [none_]

theorem pull_filled {line : TextLine} {below : List TextLine}
    {remove : List TextLine → List TextLine × Option Nat}
    (pops : Pops maxLineCharWidth line below remove) (fuel given : Nat) (top : TextLine)
    (r : List TextLine × Option Nat) (moved : Bool) (fits : Fits maxLineCharWidth top)
    (popped : Popped maxLineCharWidth given line below r)
    (enough : wanted maxLineCharWidth top given (line :: below) ≤ fuel)
    (gives : Gives maxLineCharWidth
      (given + wanted maxLineCharWidth top given (line :: below)) (line :: below)) :
    Filled maxLineCharWidth given top line below moved
      (pull maxLineCharWidth remove fuel top r.1 r.2 moved) := by
  induction fuel generalizing given top r moved with
  | zero =>
    rw [pull]
    exact filled_stop fits popped (Nat.le_zero.mp enough)
    simp
  | succ fuel ih =>
    obtain ⟨first, rest, lines, characters⟩ := popped.head
    obtain ⟨more, here, last⟩ := front_paragraph (gives.anti (Nat.le_add_right _ _))
    rw [lines, pull, characters]
    cases front_ : front maxLineCharWidth line below given with
    | nil =>
      rw [front_, (last front_).1] at here
      rw [← lines]
      exact filled_stop fits popped (by rw [wanted, here]; rfl)
    | cons ch chs =>
      rw [front_] at here
      have count := wanted_cons maxLineCharWidth fits.1 here
      simp only
      by_cases narrow : top.width + ch.chWidth < maxLineCharWidth
      · rw [if_pos narrow] at count ⊢
        have next : Gives maxLineCharWidth (given + 1) (line :: below) :=
          gives.anti (by omega)
        have quiet := next.not_reports
        obtain ⟨-, left⟩ := popped.left quiet
        rw [lines] at left
        have removed := pops given (first :: rest) (lines ▸ popped.sound) left quiet next
          (by simp [front_])
        have fits' : Fits maxLineCharWidth (top.push ch) :=
          ⟨exact_push fits.1 ch, Nat.le_of_lt narrow⟩
        have filled := ih (given + 1) (top.push ch) (remove (first :: rest)) true fits' removed
          (by omega) (by rwa [Nat.add_assoc, Nat.add_comm 1, ← count])
        refine ⟨?_, filled.wrapped, filled.fits, ?_, ?_⟩
        · rw [filled.characters, count, here]
          simp [TextLine.push, ← List.drop_drop, here]
        · have popped' := filled.popped
          rwa [Nat.add_assoc, Nat.add_comm 1, ← count] at popped'
        · rw [filled.moved, count]
          simp
      · rw [if_neg narrow] at count ⊢
        rw [← lines]
        exact filled_stop fits popped count

/-- What `wrapremovech` leaves when the lines below the first one gave so many characters. -/
structure Left (maxLineCharWidth given : Nat) (top : TextLine) (lines : List TextLine)
    (r : List TextLine × Option Nat) : Prop where
  text : layout.text (settled r) = symbols top.characters ++ (layout.text lines).drop given
  quiet : ¬ Empties maxLineCharWidth given lines → r.2 = none ∧ ∃ rest, r.1 = top :: rest ∧
    Given maxLineCharWidth given lines rest
  reports : Empties maxLineCharWidth given lines → r.2.isSome
  first : ∃ first rest, r.1 = first :: rest ∧ first.characters = top.characters

theorem front_empty {line : TextLine} {below : List TextLine} {given : Nat}
    (gives : Gives maxLineCharWidth given (line :: below)) :
    front maxLineCharWidth line below given = [] ↔ line.wrapped = false ∧ line.size ≤ given := by
  constructor
  · intro none_
    obtain ⟨_, _, last⟩ := front_paragraph gives
    have unwrapped := (last none_).2
    rw [front_unwrapped unwrapped, List.drop_eq_nil_iff] at none_
    exact ⟨unwrapped, none_⟩
  · rintro ⟨unwrapped, small⟩
    rw [front_unwrapped unwrapped, List.drop_eq_nil_iff]
    exact small

theorem closed_left {top line : TextLine} {below : List TextLine} {given : Nat}
    {removed : List TextLine × Option Nat} (wrapped : top.wrapped = true)
    (popped : Popped maxLineCharWidth given line below removed)
    (gives : Gives maxLineCharWidth given (line :: below)) :
    Left maxLineCharWidth given top (line :: below) (closed top removed) := by
  obtain ⟨first, rest, lines, characters⟩ := popped.head
  have size : nextSize removed.1 = 0 ↔ line.wrapped = false ∧ line.size ≤ given := by
    rw [lines, nextSize, TextLine.size, characters, List.length_eq_zero_iff, front_empty gives]
  unfold closed
  by_cases emptied : line.wrapped = false ∧ line.size ≤ given
  · obtain ⟨unwrapped, small⟩ := emptied
    have report : Empties maxLineCharWidth given (line :: below) := by
      rw [Empties, if_neg (by simp [unwrapped])]
      exact small
    obtain ⟨none_, first', rest', lines', same, characters', below'⟩ :=
      popped.left fun reports => by simp [reports.1] at unwrapped
    rw [if_pos (size.mpr ⟨unwrapped, small⟩)]
    refine ⟨?_, fun quiet => absurd report quiet, fun _ => rfl, _, _, rfl, rfl⟩
    have empty : first'.characters = [] := by
      rw [characters', front_empty gives]
      exact ⟨unwrapped, small⟩
    have text := popped.text
    rw [if_neg (by simp [unwrapped])] at below'
    rw [settled, none_] at text
    rw [← text, lines', below', settled]
    simp only [List.eraseIdx_cons_succ, List.eraseIdx_cons_zero]
    rw [layout.text_line, layout.text_line first']
    have none_ : symbols (layout.chars first') = [] := by
      rw [show layout.chars first' = first'.characters from rfl, empty]
      rfl
    rw [none_, layout.tailText_same below
      (show layout.wrapped { top with wrapped := false } = layout.wrapped first' from
        (same.trans unwrapped).symm)]
    rfl
  · rw [if_neg (size.not.mpr emptied)]
    have empties : Empties maxLineCharWidth given (line :: below) ↔
        Reports maxLineCharWidth given (line :: below) := by
      refine ⟨fun empties => ⟨?_, empties⟩, And.right⟩
      by_contra unwrapped
      rw [Empties, if_neg unwrapped] at empties
      exact emptied ⟨by simpa using unwrapped, empties⟩
    refine ⟨?_, fun quiet => ?_, fun report => ?_, top, removed.1, rfl, rfl⟩
    · rw [settled_cons, text_wrapped _ wrapped, popped.text]
    · obtain ⟨none_, left⟩ := popped.left (empties.not.mp quiet)
      exact ⟨by rw [none_]; rfl, removed.1, rfl, left⟩
    · simpa using popped.reports (empties.mp report)

theorem paragraph_le (lines : List TextLine) : (paragraph lines).length ≤ totalCharacters lines := by
  induction lines with
  | nil => exact Nat.le_refl _
  | cons line below ih =>
    rw [totalCharacters_cons, paragraph, List.length_append]
    have size : line.characters.length = line.size := rfl
    split
    · omega
    · simp only [List.length_nil]
      omega

theorem wanted_le {top : TextLine} {lines current : List TextLine} {given : Nat}
    (left : Given maxLineCharWidth given lines current)
    (gives : 0 < given → Gives maxLineCharWidth given lines) :
    wanted maxLineCharWidth top given lines ≤ totalCharacters current := by
  have small := room_le maxLineCharWidth (MIN_CURSOR_WIDTH_BUFFER + chWidths top.characters)
    ((paragraph lines).drop given)
  rw [← left.paragraph_left gives] at small
  exact Nat.le_trans (by rwa [wanted, ← left.paragraph_left gives]) (paragraph_le current)

theorem window_more {line : TextLine} {below : List TextLine} {given got : Nat}
    (inside : given ≤ line.size + got) (enough : got ≤ (paragraph below).length) (more : Nat) :
    window line below given got ++ ((paragraph below).drop got).take more =
      window line below given (got + more) := by
  have length : given ≤ (line.characters ++ (paragraph below).take got).length := by
    have size : line.characters.length = line.size := rfl
    rw [List.length_append, List.length_take]
    omega
  rw [window, window, List.take_add, ← List.append_assoc, List.drop_append_of_le_length length]

theorem remove_first (line : TextLine) : (line.remove 0 1).characters = line.characters.drop 1 := by
  rw [remove_characters (Nat.zero_le 1), List.take_zero, List.nil_append]

/-- A wrapped line that gave some characters, without the first one of those left. -/
structure Opened (maxLineCharWidth given : Nat) (line next : TextLine) (below : List TextLine)
    (top : TextLine) (rest : List TextLine) : Prop where
  characters : top.characters = window line (next :: below) (given + 1)
    (pulls maxLineCharWidth line (next :: below) given)
  wrapped : top.wrapped = true
  fits : Fits maxLineCharWidth top
  popped : Popped maxLineCharWidth (pulls maxLineCharWidth line (next :: below) given) next below
    (rest, none)
  more : rest ≠ []
  inside : given < line.size + pulls maxLineCharWidth line (next :: below) given
  step : pulls maxLineCharWidth line (next :: below) (given + 1) =
    pulls maxLineCharWidth line (next :: below) given +
      wanted maxLineCharWidth top (pulls maxLineCharWidth line (next :: below) given) (next :: below)
  enough : wanted maxLineCharWidth top (pulls maxLineCharWidth line (next :: below) given)
    (next :: below) ≤ totalCharacters rest

theorem Given.opened {line : TextLine} {below current : List TextLine} {given : Nat}
    (wrapped : line.wrapped = true) (sound : Sound maxLineCharWidth current)
    (left : Given maxLineCharWidth given (line :: below) current)
    (quiet : ¬ Reports maxLineCharWidth given (line :: below))
    (gives : 0 < given → Gives maxLineCharWidth given (line :: below))
    (some_ : front maxLineCharWidth line below given ≠ []) :
    ∃ first rest next below', current = first :: rest ∧ below = next :: below' ∧
      Opened maxLineCharWidth given line next below' (first.remove 0 1) rest := by
  obtain ⟨first, rest, rfl, same, characters, lower⟩ := left
  rw [if_pos wrapped] at lower
  have more := layout.ends_wrapped_more sound.ends
    (show layout.wrapped first = true from same.trans wrapped)
  cases below with
  | nil => exact absurd lower more
  | cons next below =>
    have few := pulls_le maxLineCharWidth line (next :: below) given
    have lowerGives := Gives.below gives wrapped
    have lowerQuiet : ¬ Reports maxLineCharWidth
        (pulls maxLineCharWidth line (next :: below) given) (next :: below) := by
      rcases Nat.eq_zero_or_pos given with rfl | positive
      · exact not_reports_zero _
      · rintro ⟨-, empties⟩
        refine quiet ⟨wrapped, ?_⟩
        rw [Empties, if_pos wrapped]
        exact ⟨positive, empties⟩
    have chars : (first.remove 0 1).characters = window line (next :: below) (given + 1)
        (pulls maxLineCharWidth line (next :: below) given) := by
      rw [remove_first, characters, front_wrapped wrapped, window, window, List.drop_drop]
    refine ⟨first, rest, next, below, rfl, rfl, chars, (remove_wrapped _ _ _).trans
      (same.trans wrapped), remove_fits (sound.fits first (by simp)) (Nat.zero_le 1),
      lower.popped lowerGives few lowerQuiet sound.tail, more, ?_, ?_, wanted_le lower lowerGives⟩
    · have length := List.length_pos_iff.mpr some_
      have size : line.characters.length = line.size := rfl
      rw [front_wrapped wrapped, window, List.length_drop, List.length_append, List.length_take,
        size] at length
      omega
    · rw [wanted, chars]
      rfl

theorem Left.popped {top line : TextLine} {below : List TextLine} {given : Nat}
    {r : List TextLine × Option Nat}
    (left : Left maxLineCharWidth (pulls maxLineCharWidth line below given) top below r)
    (wrapped : line.wrapped = true) (same : top.wrapped = line.wrapped)
    (characters : top.characters =
      window line below given (pulls maxLineCharWidth line below given))
    (gives : 0 < given → Gives maxLineCharWidth given (line :: below)) (positive : 0 < given)
    (sound : Sound maxLineCharWidth r.1) (flows : Flows (endings (line :: below)) r) :
    Popped maxLineCharWidth given line below r := by
  have empties : Reports maxLineCharWidth given (line :: below) ↔
      Empties maxLineCharWidth (pulls maxLineCharWidth line below given) below := by
    rw [Reports, Empties, if_pos wrapped]
    exact ⟨fun report => report.2.2, fun empties => ⟨wrapped, positive, empties⟩⟩
  refine ⟨?_, ?_, fun quiet => ?_, fun report => left.reports (empties.mp report), sound, flows⟩
  · rw [left.text, characters, text_wrapped below wrapped]
    exact text_window (Gives.inside gives wrapped) (pulls_le maxLineCharWidth line below given)
  · rw [front_wrapped wrapped, ← characters]
    exact left.first
  · obtain ⟨none_, rest, lines, lower⟩ := left.quiet (empties.not.mp quiet)
    refine ⟨none_, top, rest, lines, same, ?_, ?_⟩
    · rw [front_wrapped wrapped, characters]
    · rw [if_pos wrapped]
      exact lower

theorem takeOne_none {remove : List TextLine → List TextLine × Option Nat} {x : Nat}
    {filled : TextLine × List TextLine × Option Nat × Bool} (apart : x ≠ filled.1.size) :
    takeOne remove x filled = (filled.2.1, filled.2.2.1) :=
  if_neg fun again => apart again.2.2

theorem Given.removed {line : TextLine} {below current : List TextLine} {given depth : Nat}
    (left : Given maxLineCharWidth given (line :: below) current) (enough : below.length < depth)
    (sound : Sound maxLineCharWidth current) :
    let r := wrapremovech maxLineCharWidth depth 0 current
    Sound maxLineCharWidth r.1 ∧ Flows (endings (line :: below)) r := by
  have flows := (wrapremovech_flows maxLineCharWidth depth 0 current).1
  rw [flags_endings left.flags] at flows
  refine ⟨?_, flows⟩
  have length : current.length = below.length + 1 := by
    have count := congrArg List.length left.flags
    simpa using count
  obtain ⟨first, rest, rfl⟩ := List.exists_cons_of_ne_nil
    (List.ne_nil_of_length_pos (by omega : 0 < current.length))
  rw [List.length_cons] at length
  exact (wrapremovech_removed depth 0 first rest (by omega) sound).sound

theorem wrapremovech_pops_last (depth : Nat) {line : TextLine} {below : List TextLine}
    (unwrapped : line.wrapped = false) (enough : below.length < depth + 1) :
    Pops maxLineCharWidth line below (wrapremovech maxLineCharWidth (depth + 1) 0) := by
  intro given current sound left quiet gives some_
  have sound' := (left.removed enough sound).1
  obtain ⟨first, rest, rfl, same, characters, rest_⟩ := left
  rw [if_neg (by simp [unwrapped])] at rest_
  rw [wrapremovech_last (.inl (same.trans unwrapped))] at sound' ⊢
  rw [front_unwrapped unwrapped] at characters some_
  have left' : Given maxLineCharWidth (given + 1) (line :: below) (first.remove 0 1 :: rest) := by
    refine ⟨_, _, rfl, (remove_wrapped _ _ _).trans same, ?_, ?_⟩
    · rw [remove_first, characters, front_unwrapped unwrapped, List.drop_drop]
    · rw [if_neg (by simp [unwrapped])]
      exact rest_
  refine left'.popped (fun _ => gives) ?_ (fun report => by simp [report.1] at unwrapped) sound'
  rw [paragraph_unwrapped below unwrapped]
  exact Nat.lt_of_not_le (List.drop_eq_nil_iff.not.mp some_)

theorem Opened.filled {given : Nat} {line next top : TextLine} {below rest : List TextLine}
    (opened : Opened maxLineCharWidth given line next below top rest)
    {filled : TextLine × List TextLine × Option Nat × Bool}
    (done : Filled maxLineCharWidth (pulls maxLineCharWidth line (next :: below) given) top next
      below false filled) :
    filled.1.characters = window line (next :: below) (given + 1)
        (pulls maxLineCharWidth line (next :: below) (given + 1)) ∧
      filled.1.size = line.size + pulls maxLineCharWidth line (next :: below) (given + 1) -
        (given + 1) := by
  have few := pulls_le maxLineCharWidth line (next :: below) given
  have few' := pulls_le maxLineCharWidth line (next :: below) (given + 1)
  have characters := done.characters
  rw [opened.characters, window_more opened.inside few, ← opened.step] at characters
  refine ⟨characters, ?_⟩
  have size : line.characters.length = line.size := rfl
  rw [TextLine.size, characters, window, List.length_drop, List.length_append, List.length_take,
    size, Nat.min_eq_left few']

variable (maxLineCharWidth) in
theorem wrapremovech_pops (depth : Nat) (line : TextLine) (below : List TextLine)
    (enough : below.length < depth) :
    Pops maxLineCharWidth line below (wrapremovech maxLineCharWidth depth 0) := by
  induction depth generalizing line below with
  | zero => omega
  | succ depth ih =>
    cases wrapped : line.wrapped with
    | false => exact wrapremovech_pops_last depth wrapped enough
    | true =>
      intro given current sound left quiet gives some_
      obtain ⟨sound', flows⟩ := left.removed enough sound
      obtain ⟨first, rest, next, below, rfl, rfl, opened⟩ :=
        left.opened wrapped sound quiet (fun _ => gives.anti (Nat.le_succ _)) some_
      rw [List.length_cons] at enough
      obtain ⟨some_, lower, -⟩ := gives wrapped
      have lower := lower (Nat.succ_pos _)
      have inside := some_ (given + 1) (Nat.le_refl _)
      have done := pull_filled (ih next below (by omega)) (totalCharacters rest) _ _ (rest, none)
        false opened.fits opened.popped opened.enough (by rw [← opened.step]; exact lower)
      rw [← fillUp] at done
      have first_wrapped := opened.wrapped
      rw [remove_wrapped] at first_wrapped
      rw [wrapremovech_wrapped first_wrapped opened.more] at flows sound' ⊢
      generalize fillUp maxLineCharWidth depth (first.remove 0 1) rest = filled
        at done flows sound' ⊢
      obtain ⟨characters, size⟩ := opened.filled done
      have popped := done.popped
      rw [← opened.step] at popped
      have top_wrapped := done.wrapped.trans opened.wrapped
      rw [takeOne_none (by omega : 0 ≠ filled.1.size)] at flows sound' ⊢
      exact (closed_left top_wrapped popped lower).popped wrapped (top_wrapped.trans wrapped.symm)
        characters (fun _ => gives) (Nat.succ_pos _) sound' flows

end StyledText
