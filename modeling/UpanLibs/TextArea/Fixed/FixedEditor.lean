import UpanLibs.TextArea.Fixed.FixedInvariant
import UpanLibs.TextArea.Fixed.FixedLinesText

/-!
A `FixedTextArea` as an editor of a plain text with a caret.
-/
namespace FixedText

open TextInput
open WrappedText (Layout Sym Editor Edit)
open WrappedText.Layout (symbols)
open FixedTextArea

variable {c : Config} {s t : FixedTextArea}

/-- The text of the lines and the caret's offset in it. -/
def editor (s : FixedTextArea) : Editor FixedCharacter :=
  ⟨layout.text s.lines, layout.offset s.lines s.characterPos.x s.characterPos.y⟩

theorem editor_between {above below : List FixedTextLine} {before after : List FixedCharacter}
    {wrapped : Bool} {rest : List (Sym FixedCharacter)}
    (lines : s.lines = above ++ ⟨before ++ after, wrapped⟩ :: below)
    (caret : s.characterPos = ⟨before.length, above.length⟩)
    (text : layout.text (⟨before ++ after, wrapped⟩ :: below) = symbols before ++ rest) :
    editor s = Editor.between (layout.textAbove above ++ symbols before) rest := by
  have first : (layout.chars ⟨before ++ after, wrapped⟩).take before.length = before :=
    List.take_left
  simp only [editor, Editor.between, lines, caret, Layout.offset, layout.before_split, first,
    layout.text_append (List.cons_ne_nil _ below), text, List.append_assoc]

/-- An area as editing leaves it, with nothing selected. -/
structure Ready (c : Config) (s : FixedTextArea) : Prop where
  inv : Inv c s
  closed : Closed s.maxLineChars s.lines
  on : ∃ line, s.OnLine line
  plain : s.selectedArea.present = false

structure Cut (s : FixedTextArea) (above : List FixedTextLine) (before after : List FixedCharacter)
    (wrapped : Bool) (below : List FixedTextLine) : Prop where
  lines : s.lines = above ++ ⟨before ++ after, wrapped⟩ :: below
  caret : s.characterPos = ⟨before.length, above.length⟩

theorem Ready.cut (ready : Ready c s) :
    ∃ above before after wrapped below, Cut s above before after wrapped below := by
  obtain ⟨⟨chars, wrapped⟩, here, within⟩ := ready.on
  obtain ⟨above, below, split, length⟩ := SplitList.split_at here
  refine ⟨above, chars.take s.characterPos.x, chars.drop s.characterPos.x, wrapped, below, ?_, ?_⟩
  · rw [List.take_append_drop]
    exact split
  · rw [List.length_take, Nat.min_eq_left (show _ ≤ chars.length from within), length]

section

variable {above below : List FixedTextLine} {before after : List FixedCharacter} {wrapped : Bool}

theorem Cut.here (cut : Cut s above before after wrapped below) :
    s.lines[s.characterPos.y]? = some ⟨before ++ after, wrapped⟩ := by
  rw [cut.lines, cut.caret, SplitList.get_length]

theorem Cut.onLine (cut : Cut s above before after wrapped below) :
    s.OnLine ⟨before ++ after, wrapped⟩ := by
  refine ⟨cut.here, ?_⟩
  rw [cut.caret]
  simp [FixedTextLine.size]

theorem Cut.editor (cut : Cut s above before after wrapped below) :
    editor s = Editor.between (layout.textAbove above ++ symbols before)
      (symbols after ++ textAfter wrapped below) := by
  refine editor_between cut.lines cut.caret ?_
  rw [text_line, Layout.symbols_append, List.append_assoc]

theorem Cut.closed (cut : Cut s above before after wrapped below)
    (closed : Closed s.maxLineChars s.lines) :
    (∀ line ∈ above, Solid s.maxLineChars line) ∧
      Closed s.maxLineChars (⟨before ++ after, wrapped⟩ :: below) := by
  rwa [cut.lines, closed_append (List.cons_ne_nil _ _)] at closed

end

theorem Cut.ready {above below : List FixedTextLine} {before after : List FixedCharacter}
    {wrapped : Bool} (cut : Cut s above before after wrapped below) (inv : Inv c s)
    (closed : Closed s.maxLineChars s.lines) (plain : s.selectedArea.present = false) :
    Ready c s :=
  ⟨inv, closed, ⟨_, cut.onLine⟩, plain⟩

theorem Ready.caret_le (ready : Ready c s) : (editor s).caret ≤ (editor s).text.length := by
  obtain ⟨above, before, after, wrapped, below, cut⟩ := ready.cut
  rw [cut.editor]
  simp [Editor.between]

theorem Ready.scrolledTo (ready : Ready c s) {z : Int} (bound : s.ScrollBound z) :
    Ready c (s.scrolledTo z) :=
  ⟨ready.inv.scrolledTo bound, ready.closed, ready.on, ready.plain⟩

theorem Ready.moved (ready : Ready c s) (moved : Moved c s t) :
    Ready c t ∧ (editor s).Does .move (editor t) := by
  have inv := moved.inv ready.inv
  obtain ⟨x, y, z, line, here, within, bound, rfl⟩ := moved
  have ready' : Ready c (s.caretAt c x y z) :=
    ⟨inv, ready.closed, ⟨line, here, within⟩, ready.plain⟩
  exact ⟨ready', rfl, ready'.caret_le⟩

/-! Deleting a line that the one above is not wrapped into. -/

theorem rejoin_detached {above : List FixedTextLine} (below : List FixedTextLine)
    (wrapped : Bool) (detached : ∀ prev ∈ above.getLast?, prev.wrapped = false) :
    rejoin wrapped above.length (above ++ below) = above ++ below := by
  rcases List.eq_nil_or_concat above with rfl | ⟨first, prev, rfl⟩
  · rfl
  · rw [List.concat_eq_append] at detached ⊢
    have unwrapped := detached prev (by simp)
    simp [rejoin, unwrapped]

theorem removeLine_erased {above below : List FixedTextLine} {line : FixedTextLine}
    (lines : s.lines = above ++ line :: below)
    (detached : ∀ prev ∈ above.getLast?, prev.wrapped = false) (fixedCharacterPosY : Nat)
    (erased : fixedCharacterPosY < above.length ∨
      (below ≠ [] ∧ c.linesHeight above.length - s.scrollY < s.height)) :
    removeLine c above.length fixedCharacterPosY s = .ok (above ++ below, c.lineHeight) := by
  have here : s.lines[above.length]? = some line := by
    rw [lines, SplitList.get_length]
  have row : above.length < s.lines.length := (List.getElem?_eq_some_iff.mp here).1
  have same := rejoin_detached (line :: below) line.wrapped detached
  have step := c.linesHeight_succ above.length
  simp only [removeLine, get_ok_iff.mpr here, bind, Except.bind, getLineBaseY_eq row]
  rw [lines, same, SplitList.eraseIdx_length]
  split
  · rfl
  next outside =>
    rw [if_pos]
    refine erased.resolve_right ?_
    rintro ⟨more, visible⟩
    have positive := List.length_pos_iff.mpr more
    refine outside ⟨?_, by omega⟩
    rw [List.length_append, List.length_cons]
    omega

theorem deleteLine_erased (content : s.scrollHeight = c.linesHeight s.lines.length)
    (scroll : s.ScrollBound s.scrollY) {above below : List FixedTextLine}
    {line : FixedTextLine} (lines : s.lines = above ++ line :: below)
    (detached : ∀ prev ∈ above.getLast?, prev.wrapped = false)
    (erased : s.characterPos.y < above.length ∨
      (s.characterPos.y = above.length ∧ below ≠ [] ∧
        c.linesHeight above.length - s.scrollY < s.height)) :
    ∃ z, deleteLine c above.length s = .ok ({ s with
      lines := above ++ below, scrollHeight := s.scrollHeight + -c.lineHeight }.scrolledTo z) := by
  have removed := removeLine_erased (c := c) lines detached s.characterPos.y
    (erased.imp_right And.right)
  have step := c.linesHeight_succ (above.length + below.length)
  have low := c.linesHeight_nonneg (above.length + below.length)
  have count : s.lines.length = above.length + below.length + 1 := by
    rw [lines, List.length_append, List.length_cons]
    omega
  have row : s.characterPos.y < (above ++ below).length := by
    rw [List.length_append]
    rcases erased with earlier | ⟨same, more, _⟩
    · omega
    · have := List.length_pos_iff.mpr more
      omega
  rw [count] at content
  have high : 0 ≤ s.scrollHeight + -c.lineHeight := by omega
  obtain ⟨z, changed, _⟩ := changeScrollHeight_ok (s := { s with lines := above ++ below }) row
    scroll high
  refine ⟨z, ?_⟩
  simp only [deleteLine, removed, bind, Except.bind]
  exact changed

theorem wrapremove_refilled (coherent : Coherent c s) {above below : List FixedTextLine}
    {line : FixedTextLine} (lines : s.lines = above ++ line :: below)
    (length : above.length = s.characterPos.y) (fits : line.size ≤ s.maxLineChars)
    (shaped : Shaped s.maxLineChars below)
    {r : List FixedTextLine × Option Nat}
    (result : wrapremovech s.maxLineChars s.lines.length s.characterPos.x (line :: below) = r)
    (detached : Detached r) :
    ∃ t, wrapremove c s = .ok t ∧ t.lines = above ++ settled r ∧
      t.characterPos = s.characterPos ∧ t.maxLineChars = s.maxLineChars ∧
      t.selectedArea = s.selectedArea := by
  have count : r.1.length = below.length + 1 := by
    rw [← result]
    exact (wrapremovech_shape s.lines.length s.characterPos.x line below
      (by simp [lines]; omega) fits shaped).length
  have drop : s.lines.drop s.characterPos.y = line :: below := by
    rw [lines, ← length, List.drop_left]
  have take : s.lines.take s.characterPos.y = above := by
    rw [lines, ← length, List.take_left]
  simp only [wrapremove, drop, take, result]
  obtain ⟨lines', deleted⟩ := r
  cases deleted with
  | none => exact ⟨_, rfl, rfl, rfl, rfl, rfl⟩
  | some d =>
    obtain ⟨first, last, rest, split, length', unwrapped, more⟩ := detached d rfl
    obtain ⟨emptied, rest, rfl⟩ := List.exists_cons_of_ne_nil more
    change lines' = _ at split
    subst split
    have index : s.characterPos.y + d = (above ++ first ++ [last]).length := by
      simp [length, ← length']
    have split : above ++ (first ++ last :: emptied :: rest) =
        (above ++ first ++ [last]) ++ emptied :: rest := by simp
    obtain ⟨z, deleted⟩ := deleteLine_erased (c := c)
      (s := { s with lines := above ++ (first ++ last :: emptied :: rest) })
      (by
        rw [coherent.content, lines, List.length_append, List.length_append, count,
          List.length_cons])
      coherent.scroll split (by simp [unwrapped]) (.inl (by rw [← index]; simp only; omega))
    rw [← index] at deleted
    refine ⟨_, deleted, ?_, rfl, rfl, rfl⟩
    have cut : first ++ last :: emptied :: rest = (first ++ [last]) ++ emptied :: rest := by simp
    have place : d = (first ++ [last]).length := by simp [← length']
    simp only [scrolledTo_lines, settled]
    rw [cut, place, SplitList.eraseIdx_length]
    simp

theorem wrapremove_text (coherent : Coherent c s) (sizes : Settled c s)
    (plain : s.selectedArea.present = false)
    {above below : List FixedTextLine} {line : FixedTextLine}
    {before : List FixedCharacter} (more : List FixedCharacter) {text : List (Sym FixedCharacter)}
    (lines : s.lines = above ++ line :: below)
    (caret : s.characterPos = ⟨before.length, above.length⟩)
    (solid : ∀ l ∈ above, Solid s.maxLineChars l) (fits : line.size ≤ s.maxLineChars)
    (within : before.length ≤ line.size) (shaped : Shaped s.maxLineChars below)
    (refilled : Refilled s.maxLineChars (before ++ more) text
      (wrapremovech s.maxLineChars s.lines.length before.length (line :: below))) :
    ∃ t taken wrapped rest, wrapremove c s = .ok t ∧ Ready c t ∧
      Cut t above before (more ++ taken) wrapped rest ∧
      symbols taken ++ textAfter wrapped rest = text := by
  have column : before.length = s.characterPos.x := by rw [caret]
  have length : above.length = s.characterPos.y := by rw [caret]
  rw [column] at refilled within
  obtain ⟨t, done, lines', caret', max, area⟩ := wrapremove_refilled coherent lines length fits
    shaped rfl refilled.detached
  have inv := (wrapremove_inv coherent sizes lines length solid fits shaped
    (fun beyond => absurd beyond (Nat.not_lt.mpr within)) done).1
  obtain ⟨taken, wrapped, rest, head⟩ := refilled.head
  have text' := refilled.text
  have closed := refilled.closed
  rw [head] at lines' text' closed
  rw [text_line, Layout.symbols_append, List.append_assoc, List.append_cancel_left_eq] at text'
  rw [List.append_assoc] at lines'
  have cut : Cut t above before (more ++ taken) wrapped rest := ⟨lines', caret'.trans caret⟩
  have closed' : Closed t.maxLineChars t.lines := by
    rw [max, lines', closed_append (List.cons_ne_nil _ _), ← List.append_assoc]
    exact ⟨solid, closed⟩
  exact ⟨t, taken, wrapped, rest, done, cut.ready inv closed' (by rw [area, plain]), cut, text'⟩

theorem Cut.editor_refilled {above rest : List FixedTextLine}
    {before more taken : List FixedCharacter} {wrapped : Bool} {text : List (Sym FixedCharacter)}
    (cut : Cut t above before (more ++ taken) wrapped rest)
    (after : symbols taken ++ textAfter wrapped rest = text) :
    FixedText.editor t = Editor.between (layout.textAbove above ++ symbols before)
      (symbols more ++ text) := by
  rw [cut.editor, Layout.symbols_append, List.append_assoc, after]

/-- `removech` takes away the character after the caret. -/
def Deletes (c : Config) (s : FixedTextArea) : Prop :=
  ∃ t, removech c s = .ok t ∧ Ready c t ∧ (editor s).Does .delete (editor t)

section

variable {above below : List FixedTextLine} {before after : List FixedCharacter}
  {ch : FixedCharacter}

theorem Cut.sizes {wrapped : Bool} (cut : Cut s above before after wrapped below)
    (ready : Ready c s) :
    (∀ line ∈ above, Solid s.maxLineChars line) ∧
      Solid s.maxLineChars ⟨before ++ after, wrapped⟩ ∧ Closed s.maxLineChars below ∧
      before.length ≤ (⟨before ++ after, wrapped⟩ : FixedTextLine).size ∧
      below.length < s.lines.length := by
  obtain ⟨solid, closed⟩ := cut.closed ready.closed
  refine ⟨solid, closed_head closed, closed_tail closed, ?_, ?_⟩
  · simp [FixedTextLine.size]
  · rw [cut.lines, List.length_append, List.length_cons]
    omega

theorem removech_wrapped_inside (ready : Ready c s)
    (cut : Cut s above before (ch :: after) true below)
    (pulls : PullFits s.maxLineChars 1 below) : Deletes c s := by
  obtain ⟨solid, line, closed, within, deep⟩ := cut.sizes ready
  have removed : FixedTextLine.remove ⟨before ++ ch :: after, true⟩ before.length
      (before.length + 1) = ⟨before ++ after, true⟩ := by
    simp [FixedTextLine.remove, FixedTextLine.size]
  have full : (before ++ after).length + 1 = s.maxLineChars := by
    have := line.2 rfl
    simp only [FixedTextLine.size, List.length_append, List.length_cons] at this ⊢
    omega
  have one : s.maxLineChars - (before ++ after).length = 1 := by omega
  have refilled := wrapremovech_refill s.lines.length before.length _ below deep ready.inv.room
    removed (by omega) closed (one ▸ pulls) (.inl (by omega))
  obtain ⟨t, _, _, _, done, ready', cut', text⟩ := wrapremove_text ready.inv.coherent
    ready.inv.settled ready.plain after cut.lines cut.caret solid line.1 within (closed_shaped closed)
    refilled
  refine ⟨t, (removech_wrapped cut.here rfl).trans done, ready', ?_⟩
  rw [cut.editor, cut'.editor_refilled text]
  exact Editor.delete_between _ _ _

theorem removech_wrapped_end (ready : Ready c s) (cut : Cut s above before [] true below)
    (fits : if nextSize below = 0 then below.length = 1 else PullFits s.maxLineChars 1 below) :
    Deletes c s := by
  obtain ⟨solid, line, closed, within, deep⟩ := cut.sizes ready
  have full : before.length = s.maxLineChars := by simpa [FixedTextLine.size] using line.2 rfl
  have stay : FixedTextLine.remove ⟨before ++ [], true⟩ before.length (before.length + 1) =
      ⟨before ++ [], true⟩ := by
    simp [FixedTextLine.remove, FixedTextLine.size]
  by_cases empty : nextSize below = 0
  · rw [if_pos empty] at fits
    obtain ⟨⟨chars, wrapped⟩, rfl⟩ := List.length_eq_one_iff.mp fits
    have nothing : chars = [] := List.length_eq_zero_iff.mp empty
    subst nothing
    have refilled := wrapremovech_refill s.lines.length before.length _ [⟨[], wrapped⟩] deep
      ready.inv.room stay (by simp [full]) closed ⟨by simp, .inl (by simp [full])⟩ (.inr empty)
    obtain ⟨t, _, _, _, done, ready', cut', text⟩ := wrapremove_text ready.inv.coherent
      ready.inv.settled ready.plain [] cut.lines cut.caret solid line.1 within
      (closed_shaped closed) refilled
    refine ⟨t, (removech_wrapped cut.here rfl).trans done, ready', ?_⟩
    rw [cut.editor, cut'.editor_refilled text]
    exact Editor.delete_end _
  · rw [if_neg empty] at fits
    have refilled := wrapremovech_next s.lines.length before below deep ready.inv.room full closed
      fits (Nat.pos_of_ne_zero empty)
    obtain ⟨t, _, _, _, done, ready', cut', text⟩ := wrapremove_text ready.inv.coherent
      ready.inv.settled ready.plain [] cut.lines cut.caret solid line.1 within
      (closed_shaped closed) (by simpa using refilled)
    refine ⟨t, (removech_wrapped cut.here rfl).trans done, ready', ?_⟩
    rw [cut.editor, cut'.editor_refilled text]
    obtain ⟨⟨chars, wrapped⟩, rest, rfl⟩ := List.exists_cons_of_ne_nil fits.1
    obtain ⟨ch, chars, rfl⟩ := List.exists_cons_of_ne_nil
      (show chars ≠ [] from fun nothing => empty (by simp [nextSize, FixedTextLine.size, nothing]))
    have head := text_head ch chars wrapped rest
    simp only [textAfter, if_true, Layout.symbols_nil, List.nil_append]
    rw [head]
    exact Editor.delete_between _ _ _

theorem removech_inside (ready : Ready c s) (cut : Cut s above before (ch :: after) false below) :
    Deletes c s := by
  obtain ⟨solid, line, closed, _, _⟩ := cut.sizes ready
  have removed : FixedTextLine.remove ⟨before ++ ch :: after, false⟩ before.length
      (before.length + 1) = ⟨before ++ after, false⟩ := by
    simp [FixedTextLine.remove, FixedTextLine.size]
  have inside : before.length ≠ (⟨before ++ ch :: after, false⟩ : FixedTextLine).size := by
    simp [FixedTextLine.size]
  have set : s.lines.set s.characterPos.y ⟨before ++ after, false⟩ =
      above ++ ⟨before ++ after, false⟩ :: below := by
    rw [cut.lines, cut.caret, SplitList.set_length]
  have done : removech c s = .ok { s with lines := above ++ ⟨before ++ after, false⟩ :: below } := by
    rw [← set]
    simp only [removech, get_ok_iff.mpr cut.here, bind, Except.bind, Bool.false_eq_true, if_false]
    rw [cut.caret]
    simp only [inside, false_and, if_false, removed]
  have cut' : Cut { s with lines := above ++ ⟨before ++ after, false⟩ :: below } above before
      after false below := ⟨rfl, cut.caret⟩
  have closed' : Closed s.maxLineChars (above ++ ⟨before ++ after, false⟩ :: below) := by
    rw [closed_append (List.cons_ne_nil _ _)]
    refine ⟨solid, closed_unwrapped ?_ rfl closed⟩
    have fits := line.1
    simp only [FixedTextLine.size, List.length_append, List.length_cons] at fits ⊢
    omega
  have inv := (removech_inv ready.inv done).1
  refine ⟨_, done, cut'.ready inv closed' ready.plain, ?_⟩
  rw [cut.editor, cut'.editor]
  exact Editor.delete_between _ _ _

theorem removech_end (ready : Ready c s) (cut : Cut s above before [] false below)
    (some_ : before ≠ []) (more : below ≠ [])
    (fits : if before.length = s.maxLineChars then nextSize below = 0
      else PullFits s.maxLineChars (s.maxLineChars - before.length) below) : Deletes c s := by
  obtain ⟨solid, line, closed, within, deep⟩ := cut.sizes ready
  have positive := List.length_pos_iff.mpr some_
  have set : s.lines.set s.characterPos.y ⟨before, true⟩ = above ++ ⟨before, true⟩ :: below := by
    rw [cut.lines, cut.caret, SplitList.set_length]
  have size : before.length ≤ s.maxLineChars := by simpa [FixedTextLine.size] using line.1
  have stay : FixedTextLine.remove ⟨before, true⟩ before.length (before.length + 1) =
      ⟨before, true⟩ := by
    simp [FixedTextLine.remove, FixedTextLine.size]
  have pulls : PullFits s.maxLineChars (s.maxLineChars - before.length) below ∧
      (before.length < s.maxLineChars ∨ nextSize below = 0) := by
    by_cases full : before.length = s.maxLineChars
    · rw [if_pos full] at fits
      exact ⟨⟨more, .inl (by omega)⟩, .inr fits⟩
    · rw [if_neg full] at fits
      exact ⟨fits, .inl (by omega)⟩
  have refilled := wrapremovech_refill s.lines.length before.length _ below deep ready.inv.room
    stay size closed pulls.1 pulls.2
  have marked : Coherent c { s with lines := above ++ ⟨before, true⟩ :: below } := by
    have length : above.length = s.characterPos.y := by rw [cut.caret]
    exact (relined_at ready.inv.coherent cut.lines length (by simp [FixedTextLine.size])
      ).same_count ready.inv.coherent (by simp [cut.lines])
  have count : (above ++ ⟨before, true⟩ :: below).length = s.lines.length := by
    simp [cut.lines]
  obtain ⟨t, _, _, _, done, ready', cut', text⟩ := wrapremove_text
    (s := { s with lines := above ++ ⟨before, true⟩ :: below }) marked ready.inv.settled
    ready.plain [] rfl cut.caret solid size (Nat.le_refl _) (closed_shaped closed) (by
      simp only [count]
      simpa using refilled)
  refine ⟨t, ?_, ready', ?_⟩
  · rw [← done, ← set]
    have atEnd : s.characterPos.x = before.length := by rw [cut.caret]
    simp [removech, get_ok_iff.mpr cut.here, bind, Except.bind, atEnd, FixedTextLine.size,
      positive]
  · rw [cut.editor, cut'.editor_refilled text]
    simp only [textAfter, Bool.false_eq_true, if_false, closing, more, Layout.symbols_nil,
      List.nil_append]
    exact Editor.delete_between _ _ _

theorem removech_empty (ready : Ready c s) (cut : Cut s above [] [] false below)
    (detached : ∀ prev ∈ above.getLast?, prev.wrapped = false)
    (visible : c.linesHeight above.length - s.scrollY < s.height) : Deletes c s := by
  obtain ⟨solid, line, closed, _, _⟩ := cut.sizes ready
  have column : s.characterPos.x = 0 := by rw [cut.caret]; rfl
  have row : s.characterPos.y = above.length := by rw [cut.caret]
  have lines : s.lines = above ++ ⟨[], false⟩ :: below := cut.lines
  have here : get s.lines above.length = .ok ⟨[], false⟩ := by
    rw [← row]
    exact get_ok_iff.mpr cut.here
  have deleted : removech c s = deleteLine c above.length s := by
    simp [removech, here, bind, Except.bind, column, row, FixedTextLine.size]
  by_cases last : below = []
  · subst last
    have same : deleteLine c above.length s = .ok s := by
      have rejoined := rejoin_detached [⟨[], false⟩] false detached
      rw [← lines] at rejoined
      have bottom : ¬ above.length < s.lines.length - 1 := by simp [lines]
      have high : ¬ s.scrollHeight < 0 := by
        rw [ready.inv.coherent.content]
        exact Int.not_lt.mpr (c.linesHeight_nonneg _)
      simp [deleteLine, removeLine, here, bind, Except.bind, row, rejoined, bottom,
        changeScrollHeight, high]
    refine ⟨s, deleted.trans same, ready, ?_⟩
    rw [cut.editor]
    exact Editor.delete_end _
  · obtain ⟨next, rest, rfl⟩ := List.exists_cons_of_ne_nil last
    obtain ⟨z, done⟩ := deleteLine_erased (c := c) ready.inv.coherent.content
      ready.inv.coherent.scroll lines detached (.inr ⟨row, last, visible⟩)
    have removed := deleted.trans done
    have inv := (removech_inv ready.inv removed).1
    generalize result : ({ s with
      lines := above ++ next :: rest,
      scrollHeight := s.scrollHeight + -c.lineHeight }.scrolledTo z) = t at removed inv
    have lines' : t.lines = above ++ next :: rest := by rw [← result]; rfl
    have caret' : t.characterPos = s.characterPos := by rw [← result]; rfl
    have plain' : t.selectedArea = s.selectedArea := by rw [← result]; rfl
    have max' : t.maxLineChars = s.maxLineChars := by rw [← result]; rfl
    have cut' : Cut t above [] next.chars next.wrapped rest := ⟨lines', caret'.trans cut.caret⟩
    have closed' : Closed t.maxLineChars t.lines := by
      rw [max', lines', closed_append (List.cons_ne_nil _ _)]
      exact ⟨solid, closed⟩
    refine ⟨t, removed, cut'.ready inv closed' (by rw [plain', ready.plain]), ?_⟩
    have text : symbols next.chars ++ textAfter next.wrapped rest = layout.text (next :: rest) :=
      (text_line _ _ _).symm
    rw [cut.editor, cut'.editor, text]
    simp only [textAfter, Bool.false_eq_true, if_false, closing, last, Layout.symbols_nil,
      List.nil_append]
    exact Editor.delete_between _ _ _

end

/-- The columns at which `removech` takes away just the character after the caret. What it
    takes wrong: a line marked wrapped at the end of the text stays so, a full line that is
    joined to the next one loses one more character, an empty line that takes more than the
    last character of its paragraph is kept, and an empty line cuts the one above it off. -/
def RemoveFits (maxLineChars x : Nat) (above : List FixedTextLine) (line : FixedTextLine)
    (below : List FixedTextLine) : Prop :=
  if line.wrapped then
    if x = line.size ∧ nextSize below = 0 then below.length = 1
    else PullFits maxLineChars 1 below
  else if x < line.size then True
  else if line.size = 0 then ∀ prev ∈ above.getLast?, prev.wrapped = false
  else below ≠ [] ∧ (if line.size = maxLineChars then nextSize below = 0
    else PullFits maxLineChars (maxLineChars - line.size) below)

instance (maxLineChars x : Nat) (above : List FixedTextLine) (line : FixedTextLine)
    (below : List FixedTextLine) : Decidable (RemoveFits maxLineChars x above line below) :=
  inferInstanceAs (Decidable (if line.wrapped then _ else _))

def Visible (c : Config) (s : FixedTextArea) : Prop :=
  c.linesHeight s.characterPos.y - s.scrollY < s.height

theorem removech_text (ready : Ready c s) (visible : Visible c s) {above below : List FixedTextLine}
    {before after : List FixedCharacter} {wrapped : Bool}
    (cut : Cut s above before after wrapped below)
    (fits : RemoveFits s.maxLineChars before.length above ⟨before ++ after, wrapped⟩ below) :
    Deletes c s := by
  cases after with
  | cons ch after =>
    have inside : before.length < (⟨before ++ ch :: after, wrapped⟩ : FixedTextLine).size := by
      simp [FixedTextLine.size]
    cases wrapped with
    | false => exact removech_inside ready cut
    | true =>
      simp only [RemoveFits, if_true, inside.ne, false_and, if_false] at fits
      exact removech_wrapped_inside ready cut fits
  | nil =>
    have size : (⟨before ++ [], wrapped⟩ : FixedTextLine).size = before.length := by
      simp [FixedTextLine.size]
    cases wrapped with
    | true =>
      simp only [RemoveFits, if_true, size, true_and] at fits
      exact removech_wrapped_end ready cut fits
    | false =>
      simp only [RemoveFits, Bool.false_eq_true, if_false, size, Nat.lt_irrefl] at fits
      by_cases none_ : before = []
      · subst none_
        have row : s.characterPos.y = above.length := by rw [cut.caret]
        rw [Visible, row] at visible
        exact removech_empty ready cut fits visible
      · have positive : before.length ≠ 0 := by simpa using none_
        rw [if_neg positive] at fits
        exact removech_end ready cut none_ fits.1 fits.2

end FixedText
