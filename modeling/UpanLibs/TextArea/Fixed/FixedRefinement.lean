import UpanLibs.TextArea.Fixed.FixedEditor

/-!
Every editing event of a `FixedTextArea` is that edit of the plain text it stands for.
-/
namespace FixedText

open TextInput
open WrappedText (Layout Sym Editor Edit)
open WrappedText.Layout (symbols)
open FixedTextArea

variable {c : Config} {s t : FixedTextArea}

/-- `removech` with the caret at `p` would take away just the character after it. -/
def RemoveFitsAt (s : FixedTextArea) (p : UIPosition Nat) : Prop :=
  ∀ line ∈ s.lines[p.y]?,
    RemoveFits s.maxLineChars p.x (s.lines.take p.y) line (s.lines.drop (p.y + 1))

/-- Backspace is a `removech` one position further left, which at the start of a line
    that continues a wrapped one is not the character before the caret. -/
def BackspaceFits (s : FixedTextArea) : Nat → Nat → Prop
  | 0, 0 => True
  | x + 1, y => RemoveFitsAt s ⟨x, y⟩
  | 0, y + 1 => ∀ prev ∈ s.lines[y]?, prev.wrapped = false ∧ RemoveFitsAt s ⟨prev.size, y⟩

def EnterFits (s : FixedTextArea) : Prop :=
  0 < s.characterPos.x → ∀ line ∈ s.lines[s.characterPos.y]?, line.wrapped = true →
    PullFits s.maxLineChars s.characterPos.x (s.lines.drop (s.characterPos.y + 1))

theorem Cut.at {above below : List FixedTextLine} {before after : List FixedCharacter}
    {wrapped : Bool} (cut : Cut s above before after wrapped below) :
    s.lines.take s.characterPos.y = above ∧ s.lines.drop (s.characterPos.y + 1) = below := by
  rw [cut.lines, cut.caret]
  simp

theorem delete_text (ready : Ready c s) (visible : Visible c s)
    (fits : RemoveFitsAt s s.characterPos) : Deletes c s := by
  obtain ⟨above, before, after, wrapped, below, cut⟩ := ready.cut
  have here := fits _ cut.here
  rw [cut.at.1, cut.at.2] at here
  have column : s.characterPos.x = before.length := by rw [cut.caret]
  exact removech_text ready visible cut (column ▸ here)

theorem backspace_of_left {left : FixedTextArea} (notStart : ¬ (s.characterPos.x = 0 ∧ s.characterPos.y = 0))
    (moved : moveleft c s = .ok left) (deletes : Deletes c left)
    {before after : List (Sym FixedCharacter)} {sym : Sym FixedCharacter}
    (here : editor s = Editor.between (before ++ [sym]) after)
    (there : editor left = Editor.between before (sym :: after)) :
    ∃ t, backspace c s = .ok t ∧ Ready c t ∧ (editor s).Does .backspace (editor t) := by
  obtain ⟨t, removed, ready, does⟩ := deletes
  rw [there] at does
  refine ⟨t, ?_, ready, ?_⟩
  · simp only [backspace, if_neg notStart, moved, bind, Except.bind]
    exact removed
  · rw [here]
    exact Editor.backspace_of_delete does

theorem backspace_inside (ready : Ready c s) (visible : Visible c s)
    {above below : List FixedTextLine} {before after : List FixedCharacter} {ch : FixedCharacter}
    {wrapped : Bool} (cut : Cut s above (before ++ [ch]) after wrapped below)
    (fits : BackspaceFits s s.characterPos.x s.characterPos.y) :
    ∃ t, backspace c s = .ok t ∧ Ready c t ∧ (editor s).Does .backspace (editor t) := by
  have caret : s.characterPos = ⟨before.length + 1, above.length⟩ := by
    rw [cut.caret, List.length_append, List.length_singleton]
  have lines : s.lines = above ++ ⟨before ++ ch :: after, wrapped⟩ :: below := by
    rw [cut.lines, List.append_assoc, List.singleton_append]
  have column : s.characterPos.x = before.length + 1 := by rw [caret]
  have row : s.characterPos.y = above.length := by rw [caret]
  have moved := moveleft_inside ready.inv.coherent cut.onLine column
  have cut' : Cut (s.caretAt c before.length s.characterPos.y s.scrollY) above before
      (ch :: after) wrapped below := ⟨lines, by rw [caretAt_pos, row]⟩
  have inv' := ready.inv.caretAt cut'.here cut'.onLine.2 ready.inv.coherent.scroll
  have ready' := cut'.ready inv' ready.closed ready.plain
  simp only [BackspaceFits, caret] at fits
  have there : s.lines[above.length]? = some ⟨before ++ ch :: after, wrapped⟩ := by
    rw [lines, SplitList.get_length]
  have here := fits _ there
  rw [← row, cut.at.1, cut.at.2] at here
  refine backspace_of_left (by omega) moved (removech_text ready' visible cut' here) ?_ cut'.editor
  rw [cut.editor, Layout.symbols_append, List.append_assoc]
  rfl

theorem backspace_home (ready : Ready c s) (visible : Visible c s)
    {above below : List FixedTextLine} {prev : FixedTextLine} {after : List FixedCharacter}
    {wrapped : Bool} (cut : Cut s (above ++ [prev]) [] after wrapped below)
    (fits : BackspaceFits s s.characterPos.x s.characterPos.y) :
    ∃ t, backspace c s = .ok t ∧ Ready c t ∧ (editor s).Does .backspace (editor t) := by
  have caret : s.characterPos = ⟨0, above.length + 1⟩ := by
    rw [cut.caret, List.length_append, List.length_singleton]
    rfl
  have lines : s.lines = above ++ prev :: ⟨after, wrapped⟩ :: below := by
    rw [cut.lines, List.append_assoc]
    rfl
  have column : s.characterPos.x = 0 := by rw [caret]
  have row : s.characterPos.y = above.length + 1 := by rw [caret]
  have there : s.lines[above.length]? = some prev := by
    rw [lines, SplitList.get_length]
  obtain ⟨z, moved, bound, shown⟩ := moveleft_up ready.inv.coherent cut.onLine column row there
  have cut' : Cut (s.caretAt c prev.size above.length z) above prev.chars [] prev.wrapped
      (⟨after, wrapped⟩ :: below) := ⟨by rw [caretAt_lines, lines, List.append_nil], rfl⟩
  have inv' := ready.inv.caretAt there (Nat.le_refl _) bound
  have ready' := cut'.ready inv' ready.closed ready.plain
  have visible' : Visible c (s.caretAt c prev.size above.length z) := by
    have step := c.linesHeight_succ above.length
    have pos := c.lineHeight_pos
    have tall := ready.inv.settled.2.2.2.1
    rw [Visible, row] at visible
    change c.linesHeight above.length - z < s.height
    rcases shown with rfl | rfl <;> omega
  simp only [BackspaceFits, caret] at fits
  obtain ⟨unwrapped, here⟩ := fits prev there
  have here := here prev there
  have take : s.lines.take above.length = above := by rw [lines, List.take_left]
  have drop : s.lines.drop (above.length + 1) = ⟨after, wrapped⟩ :: below := by
    rw [lines]
    simp
  rw [take, drop] at here
  have prev_ : (⟨prev.chars ++ [], prev.wrapped⟩ : FixedTextLine) = prev := by simp
  refine backspace_of_left (by omega) moved
    (removech_text ready' visible' cut' (prev_.symm ▸ here)) ?_ (?_ : _ = Editor.between
      (layout.textAbove above ++ symbols prev.chars)
      (.newline :: (symbols after ++ textAfter wrapped below)))
  · rw [cut.editor, layout.textAbove_append]
    simp [Layout.textAbove, Layout.ending, layout, unwrapped]
  · have next : textAfter prev.wrapped (⟨after, wrapped⟩ :: below) =
        .newline :: layout.text (⟨after, wrapped⟩ :: below) := by
      simp [textAfter, closing, unwrapped]
    rw [cut'.editor, next, text_line]
    rfl

theorem backspace_text (ready : Ready c s) (visible : Visible c s) (fits : BackspaceFits s s.characterPos.x s.characterPos.y) :
    ∃ t, backspace c s = .ok t ∧ Ready c t ∧ (editor s).Does .backspace (editor t) := by
  obtain ⟨above, before, after, wrapped, below, cut⟩ := ready.cut
  rcases List.eq_nil_or_concat before with rfl | ⟨before, ch, rfl⟩
  · rcases List.eq_nil_or_concat above with rfl | ⟨above, prev, rfl⟩
    · refine ⟨s, ?_, ready, ?_⟩
      · simp [backspace, cut.caret]
      · rw [cut.editor]
        exact Editor.backspace_start _
    · rw [List.concat_eq_append] at cut
      exact backspace_home ready visible cut fits
  · rw [List.concat_eq_append] at cut
    exact backspace_inside ready visible cut fits

theorem moveToNewLine_text (coherent : Coherent c s) (sizes : Settled c s)
    (plain : s.selectedArea.present = false) {above below : List FixedTextLine}
    {cur : FixedTextLine} {after : List FixedCharacter} {wrapped unwrap : Bool}
    (lines : s.lines = above ++ cur :: ⟨after, wrapped⟩ :: below)
    (row : s.characterPos.y = above.length)
    (solid : ∀ l ∈ above ++ [cur], Solid s.maxLineChars l)
    (room : 0 < s.maxLineChars)
    (fits : after.length ≤ s.maxLineChars) (closed : Closed s.maxLineChars below)
    (whole : unwrap = false → Closed s.maxLineChars (⟨after, wrapped⟩ :: below))
    (pulls : unwrap = true → wrapped = true ∧ after.length < s.maxLineChars ∧
      PullFits s.maxLineChars (s.maxLineChars - after.length) below) :
    ∃ t, moveToNewLine c unwrap s = .ok t ∧ Ready c t ∧
      editor t = Editor.between (layout.textAbove (above ++ [cur]))
        (symbols after ++ textAfter wrapped below) := by
  have here : s.lines[s.characterPos.y]? = some cur := by
    rw [row, lines, SplitList.get_length]
  have next : s.lines[s.characterPos.y + 1]? = some ⟨after, wrapped⟩ := by
    rw [row, lines]
    simp
  have lines' : s.lines = (above ++ [cur]) ++ ⟨[] ++ after, wrapped⟩ :: below := by simp [lines]
  have place : s.characterPos.y + 1 = (above ++ [cur]).length := by simp [row]
  obtain ⟨z, bound, below_, end_, moved⟩ := moveToNewLine_ok coherent here next unwrap
  rw [moved]
  cases unwrap with
  | false =>
    have cut : Cut (s.caretAt c 0 (s.characterPos.y + 1) z) (above ++ [cur]) [] after wrapped
      below := ⟨lines', by rw [caretAt_pos, place]; rfl⟩
    have closed' : Closed s.maxLineChars s.lines := by
      rw [lines', closed_append (List.cons_ne_nil _ _)]
      exact ⟨solid, whole rfl⟩
    have inv : Inv c (s.caretAt c 0 (s.characterPos.y + 1) z) :=
      ⟨below_, closed_shaped closed', sizes⟩
    refine ⟨_, rfl, cut.ready inv closed' plain, ?_⟩
    rw [cut.editor, Layout.symbols_nil, List.append_nil]
  | true =>
    obtain ⟨rfl, short, pulls⟩ := pulls rfl
    have stay : FixedTextLine.remove ⟨after, true⟩ after.length (after.length + 1) =
        ⟨after, true⟩ := by
      simp [FixedTextLine.remove, FixedTextLine.size]
    have deep : below.length < s.lines.length := by
      rw [lines', List.length_append, List.length_cons]
      omega
    have refilled := wrapremovech_refill s.lines.length after.length _ below deep room stay fits
      closed pulls (.inl short)
    obtain ⟨t, taken, wrapped', rest, done, ready, cut, text⟩ := wrapremove_text
      end_ sizes plain [] lines' (by rw [caretAt_pos, place]; rfl) solid fits (Nat.le_refl _)
      (closed_shaped closed) (by simpa using refilled)
    have removed := (removech_wrapped next rfl).trans done
    have home : Cut (t.caretAt c 0 t.characterPos.y t.scrollY) (above ++ [cur]) []
        (after ++ taken) wrapped' rest := by
      refine ⟨?_, by rw [caretAt_pos, cut.caret]; rfl⟩
      rw [caretAt_lines, cut.lines]
      rfl
    have inv := ready.inv.caretAt cut.here (Nat.zero_le _) ready.inv.coherent.scroll
    refine ⟨_, ?_, home.ready inv ready.closed ready.plain, ?_⟩
    · simp only [if_true, removed, bind, Except.bind]
      exact inlinemovehome_ok ready.inv.coherent
    · rw [home.editor, Layout.symbols_append, List.append_assoc, text, Layout.symbols_nil,
        List.append_nil]
      rfl

theorem splitLine_text (ready : Ready c s) {above below : List FixedTextLine}
    {before after : List FixedCharacter} {wrapped : Bool}
    (cut : Cut s above before after wrapped below)
    (pulls : before ≠ [] → wrapped = true → PullFits s.maxLineChars before.length below) :
    ∃ t, splitLine c ⟨before ++ after, wrapped⟩ s = .ok t ∧ Ready c t ∧
      (editor s).Does (.insert .newline) (editor t) := by
  obtain ⟨solid, line, closed, _, _⟩ := cut.sizes ready
  have length : above.length = s.characterPos.y := by rw [cut.caret]
  have column : s.characterPos.x = before.length := by rw [cut.caret]
  have size : before.length + after.length ≤ s.maxLineChars := by
    simpa [FixedTextLine.size] using line.1
  have take : (before ++ after).take s.characterPos.x = before := by rw [column, List.take_left]
  have drop : (before ++ after).drop s.characterPos.x = after := by rw [column, List.drop_left]
  obtain ⟨z, coherent, entered⟩ := splitLine_ok ready.inv cut.lines length
    (show (⟨before, false⟩ : FixedTextLine) = _ by rw [take])
    (show (⟨after, wrapped⟩ : FixedTextLine) = _ by rw [drop])
  rw [entered]
  have positive (unwrap : (decide (0 < s.characterPos.x) && wrapped) = true) :
      before ≠ [] ∧ wrapped = true := by
    rw [column] at unwrap
    simpa [List.length_pos_iff] using unwrap
  have stays (unwrap : (decide (0 < s.characterPos.x) && wrapped) = false) :
      Closed s.maxLineChars (⟨after, wrapped⟩ :: below) := by
    rw [column] at unwrap
    cases wrapped with
    | false => exact closed_unwrapped (by simp [FixedTextLine.size]; omega) rfl closed
    | true =>
      have home : before = [] := by simpa using unwrap
      subst home
      exact (cut.closed ready.closed).2
  have refills (unwrap : (decide (0 < s.characterPos.x) && wrapped) = true) :
      wrapped = true ∧ after.length < s.maxLineChars ∧
        PullFits s.maxLineChars (s.maxLineChars - after.length) below := by
    obtain ⟨some_, marked⟩ := positive unwrap
    have full := line.2 marked
    have pos := List.length_pos_iff.mpr some_
    simp only [FixedTextLine.size, List.length_append] at full
    have avail : s.maxLineChars - after.length = before.length := by omega
    exact ⟨marked, by omega, avail ▸ pulls some_ marked⟩
  have solid' : ∀ l ∈ above ++ [⟨before, false⟩], Solid s.maxLineChars l := by
    intro l mem
    rcases List.mem_append.mp mem with earlier | last
    · exact solid l earlier
    · rw [List.mem_singleton] at last
      subst last
      exact ⟨by simp only [FixedTextLine.size]; omega, by simp⟩
  obtain ⟨t, done, ready', editor'⟩ := moveToNewLine_text coherent ready.inv.settled ready.plain
    rfl length.symm solid' ready.inv.room (by simp only [scrolledTo_max]; omega) closed stays
    refills
  refine ⟨t, done, ready', ?_⟩
  rw [cut.editor, editor', layout.textAbove_append]
  have text : layout.textAbove [⟨before, false⟩] = symbols before ++ [.newline] := by
    simp [Layout.textAbove, Layout.ending, layout]
  rw [text, ← List.append_assoc]
  exact Editor.insert_between _ _ _

theorem enter_unwrap (ready : Ready c s) {above below : List FixedTextLine} {prev : FixedTextLine}
    {after : List FixedCharacter} {wrapped : Bool}
    (cut : Cut s (above ++ [prev]) [] after wrapped below) (marked : prev.wrapped = true) :
    ∃ t, enter c s = .ok t ∧ Ready c t ∧ (editor s).Does (.insert .newline) (editor t) := by
  have caret : s.characterPos = ⟨0, above.length + 1⟩ := by
    rw [cut.caret, List.length_append, List.length_singleton]
    rfl
  have here := get_ok_iff.mpr cut.here
  have lines : s.lines = above ++ prev :: ⟨after, wrapped⟩ :: below := by simp [cut.lines]
  have there : get s.lines above.length = .ok prev := by
    rw [get_ok_iff, lines, SplitList.get_length]
  have set : s.lines.set above.length { prev with wrapped := false } =
      above ++ { prev with wrapped := false } :: ⟨after, wrapped⟩ :: below := by
    rw [lines, SplitList.set_length]
  have done : enter c s = .ok { s with
      lines := above ++ { prev with wrapped := false } :: ⟨after, wrapped⟩ :: below } := by
    unfold enter
    simp only [here, bind, Except.bind]
    rw [caret]
    simp only [there, marked, if_true, set]
  have cut' : Cut { s with
      lines := above ++ { prev with wrapped := false } :: ⟨after, wrapped⟩ :: below }
      (above ++ [{ prev with wrapped := false }]) [] after wrapped below :=
    ⟨by simp, by rw [cut.caret]; simp⟩
  obtain ⟨solid, closed⟩ := cut.closed ready.closed
  have closed' : Closed s.maxLineChars
      (above ++ { prev with wrapped := false } :: ⟨after, wrapped⟩ :: below) := by
    rw [closed_append (List.cons_ne_nil _ _)]
    exact ⟨fun l mem => solid l (by simp [mem]),
      closed_unwrapped (solid prev (by simp)).1 rfl closed⟩
  refine ⟨_, done, cut'.ready (enter_inv ready.inv done) closed' ready.plain, ?_⟩
  have text : layout.textAbove (above ++ [{ prev with wrapped := false }]) =
      layout.textAbove (above ++ [prev]) ++ [.newline] := by
    rw [layout.textAbove_append, layout.textAbove_append]
    simp [Layout.textAbove, Layout.ending, layout, marked]
  rw [cut.editor, cut'.editor, text, Layout.symbols_nil, List.append_nil, List.append_nil]
  exact Editor.insert_between _ _ _

theorem enter_text (ready : Ready c s) (fits : EnterFits s) :
    ∃ t, enter c s = .ok t ∧ Ready c t ∧ (editor s).Does (.insert .newline) (editor t) := by
  obtain ⟨above, before, after, wrapped, below, cut⟩ := ready.cut
  have here := get_ok_iff.mpr cut.here
  have column : s.characterPos.x = before.length := by rw [cut.caret]
  have split : ∃ t, splitLine c ⟨before ++ after, wrapped⟩ s = .ok t ∧ Ready c t ∧
      (editor s).Does (.insert .newline) (editor t) := by
    refine splitLine_text ready cut fun some_ marked => ?_
    have pulls := fits (column ▸ List.length_pos_iff.mpr some_) _ cut.here marked
    rwa [column, cut.at.2] at pulls
  by_cases unwraps : before = [] ∧ ∃ first prev, above = first ++ [prev] ∧ prev.wrapped = true
  · obtain ⟨rfl, first, prev, rfl, marked⟩ := unwraps
    exact enter_unwrap ready cut marked
  · have same : enter c s = splitLine c ⟨before ++ after, wrapped⟩ s := by
      unfold enter
      simp only [here, bind, Except.bind]
      split
      next up pos =>
        obtain ⟨home, row⟩ := UIPosition.mk.inj (cut.caret.symm.trans pos)
        rcases List.eq_nil_or_concat above with rfl | ⟨first, prev, rfl⟩
        · simp at row
        · rw [List.concat_eq_append] at cut unwraps row
          have place : up = first.length := by simpa using row.symm
          have there : get s.lines up = .ok prev := by
            rw [get_ok_iff, cut.lines, place, List.append_assoc]
            exact SplitList.get_length _ _ _
          have unmarked : ¬ prev.wrapped = true := fun marked =>
            unwraps ⟨List.length_eq_zero_iff.mp home, first, prev, rfl, marked⟩
          simp only [there, if_neg unmarked]
      next => rfl
    rw [same]
    exact split

theorem doInsert_text (ready : Ready c s) (ch : FixedCharacter) :
    ∃ t, doInsert c ch s = .ok t ∧ Ready c t ∧ (editor s).Does (.insert (.chr ch)) (editor t) := by
  obtain ⟨above, before, after, wrapped, below, cut⟩ := ready.cut
  obtain ⟨solid, closed⟩ := cut.closed ready.closed
  have length : above.length = s.characterPos.y := by rw [cut.caret]
  have column : s.characterPos.x = before.length := by rw [cut.caret]
  obtain ⟨lines, added, inserted, typed⟩ := insertFrom_text ready.inv.room s.characterPos.y ch
    before after wrapped below closed
  rw [← column] at inserted
  obtain ⟨x, y, z, done, inv, caret⟩ := doInsert_ok (c := c) ready.inv cut.lines length inserted
  generalize result : ({ s with
      lines := above ++ lines,
      scrollHeight := s.scrollHeight + c.linesHeight added }.caretAt c x y z) = t at done inv
  have lines' : t.lines = above ++ lines := by rw [← result]; rfl
  have caret' : t.characterPos = ⟨x, y⟩ := by rw [← result]; rfl
  have plain' : t.selectedArea.present = false := by rw [← result]; exact ready.plain
  have max' : t.maxLineChars = s.maxLineChars := by rw [← result]; rfl
  obtain ⟨wrapped', rest, head, overflow⟩ := typed.head
  have text := typed.text
  have closed' : Closed t.maxLineChars t.lines := by
    rw [max', lines', closed_append (by simp [head])]
    exact ⟨solid, typed.closed⟩
  rw [text_line, Layout.symbols_append, Layout.symbols_cons, head] at text
  rw [head] at lines'
  refine ⟨t, done, ?_⟩
  rw [cut.editor]
  have fits : before.length + after.length ≤ s.maxLineChars := by
    simpa [FixedTextLine.size] using (closed_head closed).1
  by_cases full : before.length = s.maxLineChars
  · rw [if_pos (by omega), head] at caret
    obtain ⟨_, there, rfl, rfl⟩ := caret
    obtain ⟨rfl, some_⟩ := overflow (by simp; omega)
    have take : (before ++ ch :: after).take s.maxLineChars = before := by
      rw [← full, List.take_left]
    rw [take] at text lines'
    obtain ⟨⟨_ | ⟨first, chars⟩, next⟩, rest, rfl⟩ : ∃ next below, rest = next :: below :=
      List.exists_cons_of_ne_nil (nextSize_pos_ne some_)
    · exact absurd some_ (Nat.lt_irrefl _)
    · have one : min 1 (FixedTextLine.size ⟨first :: chars, next⟩) = 1 := by
        simp [FixedTextLine.size]
      cases there
      rw [one, ← length] at caret'
      rw [text_wrapped _ (by simp), List.append_assoc, List.append_cancel_left_eq, text_head]
        at text
      obtain ⟨same, _⟩ := List.cons.inj text
      cases same
      rw [← text_head] at text
      have cut' : Cut t (above ++ [⟨before, true⟩]) [ch] chars next rest :=
        ⟨by simp [lines'], by simp [caret']⟩
      refine ⟨cut'.ready inv closed' plain', ?_⟩
      rw [editor_between cut'.lines cut'.caret text, layout.textAbove_append]
      have above_ : layout.textAbove [⟨before, true⟩] = symbols before := by
        simp [Layout.textAbove, Layout.ending, layout]
      rw [above_]
      exact Editor.insert_between _ _ _
  · rw [if_neg (by omega)] at caret
    obtain ⟨rfl, rfl⟩ := caret
    have take : (before ++ ch :: after).take s.maxLineChars =
        (before ++ [ch]) ++ after.take (s.maxLineChars - (before.length + 1)) := by
      have avail : s.maxLineChars = before.length + 1 + (s.maxLineChars - (before.length + 1)) := by
        omega
      have cons : before ++ ch :: after = (before ++ [ch]) ++ after := by simp
      conv_lhs => rw [avail, cons]
      rw [show before.length + 1 = (before ++ [ch]).length by simp, List.take_length_add_append]
    rw [take] at text lines'
    have cut' : Cut t above (before ++ [ch]) (after.take (s.maxLineChars - (before.length + 1)))
        wrapped' rest := ⟨lines', by rw [caret', column, length]; simp⟩
    refine ⟨cut'.ready inv closed' plain', ?_⟩
    have text' : symbols before ++ .chr ch :: symbols after ++ textAfter wrapped below =
        symbols (before ++ [ch]) ++ (symbols after ++ textAfter wrapped below) := by simp
    rw [editor_between cut'.lines cut'.caret (text.trans text'), Layout.symbols_append,
      ← List.append_assoc]
    exact Editor.insert_between _ _ _

theorem scrollToY_visible (coherent : Coherent c s) (tall : 0 < s.height) :
    ∃ z, scrollToY c s.cursorPos.y s = .ok (s.scrolledTo z) ∧ s.ScrollBound z ∧
      Visible c (s.scrolledTo z) := by
  have row := coherent.row
  have bottom := c.linesHeight_mono (show s.characterPos.y + 1 ≤ s.lines.length by omega)
  have step := c.linesHeight_succ s.characterPos.y
  have base := coherent.base
  have content := coherent.content
  have pos := c.lineHeight_pos
  have scroll := coherent.scroll
  unfold scrollToY
  by_cases above : s.cursorPos.y < 0
  · rw [if_pos above, vscroll_ok row scroll.1]
    refine ⟨_, rfl, newScrollY_bound scroll _, ?_⟩
    change c.linesHeight s.characterPos.y - s.newScrollY _ < s.height
    unfold newScrollY
    rw [if_pos (by omega)]
    omega
  · rw [if_neg above]
    by_cases below : s.height ≤ s.cursorPos.y
    · rw [if_pos below, vscroll_ok row scroll.1]
      refine ⟨_, rfl, newScrollY_bound scroll _, ?_⟩
      change c.linesHeight s.characterPos.y - s.newScrollY _ < s.height
      unfold newScrollY
      rw [if_neg (by omega)]
      simp only
      split <;> omega
    · rw [if_neg below]
      refine ⟨s.scrollY, by rw [scrolledTo_self], scroll, ?_⟩
      change c.linesHeight s.characterPos.y - s.scrollY < s.height
      omega

theorem scrollToCaret_visible (ready : Ready c s) (key : Key) :
    ∃ z, scrollToCaret c key s = .ok (s.scrolledTo z) ∧ s.ScrollBound z ∧
      (isTextModifyKey key = true → Visible c (s.scrolledTo z)) := by
  unfold scrollToCaret
  by_cases moves : (isSelectKey key || isTextModifyKey key) = true
  · rw [if_pos moves]
    obtain ⟨z, scrolled, bound, visible⟩ := scrollToY_visible ready.inv.coherent
      ready.inv.settled.2.2.2.1
    exact ⟨z, scrolled, bound, fun _ => visible⟩
  · rw [if_neg moves]
    refine ⟨s.scrollY, by rw [scrolledTo_self], ready.inv.coherent.scroll, fun modifies => ?_⟩
    simp [modifies] at moves

theorem validateCursorPos_ok (ready : Ready c s) : validateCursorPos s = .ok () := by
  obtain ⟨line, here, within⟩ := ready.on
  have row := ready.inv.coherent.row
  simp [validateCursorPos, get_ok_iff.mpr here, bind, Except.bind, Nat.not_le.mpr row,
    Nat.not_lt.mpr within]

theorem editor_unselected (on key : Bool) (p q : UIPosition Nat) :
    editor (updateSelectedArea on key p q s) = editor s := by
  unfold updateSelectedArea
  split
  · split
    · split <;> rfl
    · rfl
  · rfl

theorem Ready.unselected (ready : Ready c s) {shift selects : Bool} {p q : UIPosition Nat}
    (unselected : selects = true → shift = false) :
    Ready c (updateSelectedArea shift selects p q s) := by
  unfold updateSelectedArea
  cases selects with
  | false => exact ready
  | true =>
    rw [unselected rfl]
    exact ⟨ready.inv.select _, ready.closed, ready.on, rfl⟩

theorem handleInput_text (ready : Ready c s) {key : Key} {shift : Bool}
    (unselected : isSelectKey key = true → shift = false) {edit : Edit FixedCharacter}
    (does : ∀ z, Ready c (s.scrolledTo z) →
      (isTextModifyKey key = true → Visible c (s.scrolledTo z)) →
      ∃ t, doKey c key (s.scrolledTo z) = .ok t ∧ Ready c t ∧
        (editor s).Does edit (editor t)) :
    ∃ t, handleInput c key shift s = .ok t ∧ Ready c t ∧ (editor s).Does edit (editor t) := by
  obtain ⟨z, scrolled, bound, visible⟩ := scrollToCaret_visible ready key
  obtain ⟨t, done, ready', does'⟩ := does z (ready.scrolledTo bound) visible
  refine ⟨updateSelectedArea shift (isSelectKey key) s.characterPos t.characterPos t, ?_,
    ready'.unselected unselected, ?_⟩
  · simp only [handleInput, validateCursorPos_ok ready, scrolled, done, bind, Except.bind]
  · rw [editor_unselected]
    exact does'

/-- What an event is for a plain text, where it is a typed character, Enter, Delete,
    Backspace or a move that selects nothing. -/
def editOf (c : Config) : Event → Option (Edit FixedCharacter)
  | .key .del _ => some .delete
  | .key .backspace _ => some .backspace
  | .key (.other ch) _ =>
      if isInsertableKey ch then
        some (.insert (if is_new_line ch then .newline
          else .chr ⟨ch, c.textFGColor, c.textBGColor⟩))
      else some .move
  | .key .up false | .key .down false | .key .left false | .key .right false
  | .key .home false | .key .end_ false => some .move
  | .scroll _ => some .move
  | _ => none

/-- The edits that reach no defect of `removech`. -/
def EditFits (s : FixedTextArea) : Event → Prop
  | .key .del _ => RemoveFitsAt s s.characterPos
  | .key .backspace _ => BackspaceFits s s.characterPos.x s.characterPos.y
  | .key (.other ch) _ => is_new_line ch = true → EnterFits s
  | _ => True

theorem insertKey_text (ready : Ready c s) {ch : Nat} (insertable : isInsertableKey ch = true)
    (fits : is_new_line ch = true → EnterFits s) :
    ∃ t, insertKey c ch s = .ok t ∧ Ready c t ∧ (editor s).Does
      (.insert (if is_new_line ch then .newline else .chr ⟨ch, c.textFGColor, c.textBGColor⟩))
      (editor t) := by
  have unselected : editSelection c s = .ok s := by simp [editSelection, ready.plain]
  simp only [insertKey, insertable, if_true, unselected, bind, Except.bind, FixedTextArea.insert]
  by_cases newline : is_new_line ch = true
  · rw [if_pos newline, if_pos newline]
    exact enter_text ready (fits newline)
  · rw [if_neg newline, if_neg newline]
    exact doInsert_text ready _

theorem move_text (ready : Ready c s) {key : Key}
    (moves : key = .up ∨ key = .down ∨ key = .left ∨ key = .right ∨ key = .home ∨ key = .end_) :
    ∃ t, doKey c key s = .ok t ∧ Ready c t ∧ (editor s).Does .move (editor t) := by
  obtain ⟨line, on⟩ := ready.on
  have coherent := ready.inv.coherent
  have moved : ∃ t, doKey c key s = .ok t ∧ Moved c s t := by
    rcases moves with rfl | rfl | rfl | rfl | rfl | rfl
    · exact moveup_moved coherent on
    · exact movedown_moved coherent on
    · exact moveleft_moved coherent on
    · exact moveright_moved coherent on
    · exact ⟨_, inlinemovehome_ok coherent, _, _, _, line, on.1, Nat.zero_le _, coherent.scroll, rfl⟩
    · exact ⟨_, inlinemoveend_ok coherent on, _, _, _, line, on.1, Nat.le_refl _,
        coherent.scroll, rfl⟩
  obtain ⟨t, done, moved⟩ := moved
  exact ⟨t, done, ready.moved moved⟩

theorem edit_step (ready : Ready c s) {event : Event} {edit : Edit FixedCharacter}
    (asked : editOf c event = some edit) (fits : EditFits s event) :
    ∃ t, step c s event = some t ∧ Ready c t ∧ (editor s).Does edit (editor t) := by
  have done : ∃ t, handle c s event = .ok t ∧ Ready c t ∧ (editor s).Does edit (editor t) := by
    unfold editOf at asked
    split at asked
    case h_1 =>
      cases asked
      refine handleInput_text ready (by simp [isSelectKey]) fun z ready' visible => ?_
      simp only [doKey, ready'.plain, Bool.false_eq_true, if_false]
      exact delete_text ready' (visible rfl) fits
    case h_2 =>
      cases asked
      refine handleInput_text ready (by simp [isSelectKey]) fun z ready' visible => ?_
      simp only [doKey, ready'.plain, Bool.false_eq_true, if_false]
      exact backspace_text ready' (visible rfl) fits
    case h_3 ch _ =>
      split at asked
      next insertable =>
        cases asked
        exact handleInput_text ready (by simp [isSelectKey]) fun z ready' _ =>
          insertKey_text ready' insertable fits
      next other =>
        cases asked
        refine handleInput_text ready (by simp [isSelectKey]) fun z ready' _ => ?_
        refine ⟨_, ?_, ready', rfl, ready'.caret_le⟩
        simp only [doKey, insertKey, other, Bool.false_eq_true, if_false]
    case h_10 rows =>
      cases asked
      have scrolled := vscroll_ok ready.inv.coherent.row ready.inv.coherent.scroll.1 rows
      exact ⟨_, scrolled, ready.scrolledTo (newScrollY_bound ready.inv.coherent.scroll _), rfl,
        ready.caret_le⟩
    case h_11 => cases asked
    all_goals
      cases asked
      exact handleInput_text ready (fun _ => rfl) fun z ready' _ => move_text ready' (by simp)
  obtain ⟨t, done, rest⟩ := done
  exact ⟨t, Fallible.toOption_some.mpr done, rest⟩

theorem init_ready (c : Config) : Ready c (init c) := by
  refine ⟨init_inv c, ⟨Nat.zero_le _, rfl⟩, ⟨emptyLine, rfl, Nat.zero_le _⟩, rfl⟩

def keepsUnselected : Event → Bool
  | .key .selectAll _ | .key .paste _ => false
  | .key key shift => !(isSelectKey key && shift)
  | .mouse shift held _ _ => !(shift || held)
  | _ => true

/-- A session that selects nothing and whose edits reach no defect of `removech`. -/
def Editing (s : FixedTextArea) (event : Event) : Prop :=
  keepsUnselected event = true ∧ EditFits s event

theorem Ready.copied (ready : Ready c s) (chars : List FixedCharacter) :
    Ready c { s with copyBuffer := chars } :=
  ⟨ready.inv.copied chars, ready.closed, ready.on, ready.plain⟩

theorem doKey_ready (ready : Ready c s) {key : Key}
    (other : key = .pageUp ∨ key = .pageDown ∨ key = .cut ∨ key = .copy)
    (ok : doKey c key s = .ok t) : Ready c t := by
  rcases other with rfl | rfl | rfl | rfl
  · exact (ready.moved (pageup_moved ready.inv ok)).1
  · exact (ready.moved (pagedown_moved ready.inv ok)).1
  · simp [doKey, cutSelection, copySelection, editSelection, ready.plain, bind, Except.bind] at ok
    exact ok ▸ ready.copied []
  · simp [doKey, copySelection, ready.plain] at ok
    exact ok ▸ ready.copied []

theorem handleInput_ready (ready : Ready c s) {key : Key} {shift : Bool}
    (other : key = .pageUp ∨ key = .pageDown ∨ key = .cut ∨ key = .copy)
    (unselected : isSelectKey key = true → shift = false)
    (ok : handleInput c key shift s = .ok t) : Ready c t := by
  obtain ⟨z, scrolled, bound, _⟩ := scrollToCaret_visible ready key
  simp only [handleInput, validateCursorPos_ok ready, scrolled, bind, Except.bind] at ok
  cases done : doKey c key (s.scrolledTo z) with
  | error fault => simp [done] at ok
  | ok s' =>
    have ready' := doKey_ready (ready.scrolledTo bound) other done
    simp only [done] at ok
    cases ok
    exact ready'.unselected unselected

theorem step_ready (ready : Ready c s) {event : Event} (editing : Editing s event)
    (next : step c s event = some t) : Ready c t := by
  cases asked : editOf c event with
  | some edit =>
    obtain ⟨t', done, ready', _⟩ := edit_step ready asked editing.2
    cases next.symm.trans done
    exact ready'
  | none =>
    have ok := Fallible.toOption_some.mp next
    have kept := editing.1
    cases event with
    | key key shift =>
      have unselected : isSelectKey key = true → shift = false := by
        cases key <;> simp_all [keepsUnselected, isSelectKey]
      refine handleInput_ready ready ?_ unselected ok
      cases key with
      | pageUp => exact .inl rfl
      | pageDown => exact .inr (.inl rfl)
      | cut => exact .inr (.inr (.inl rfl))
      | copy => exact .inr (.inr (.inr rfl))
      | selectAll => cases kept
      | paste => cases kept
      | other ch =>
        by_cases insertable : isInsertableKey ch = true <;> simp [editOf, insertable] at asked
      | _ => cases shift <;> simp [editOf, keepsUnselected, isSelectKey] at asked kept
    | mouse shift held x y =>
      obtain ⟨s', moved, rfl⟩ := moveCursor_moved ready.inv ok
      simp only [keepsUnselected, Bool.not_eq_true'] at kept
      exact (ready.moved moved).1.unselected fun _ => kept
    | scroll rows => cases asked
    | resize width height =>
      have ends := (closed_iff.mp ready.closed).2
      have resized := resize_resized ready.inv (fun _ => ends_paragraphFits ends) ok
      exact ⟨resized.inv, closed_iff.mpr ⟨resized.inv.shaped, resized.ends ends⟩,
        resized.on ready.on, by rw [resized.area, ready.plain]⟩

theorem run_ready {events : List Event}
    (run : Transition.Run (Transition.Guarded Editing (Transition.Steps (step c)))
      (init c) events s) : Ready c s :=
  Transition.run_invariant (Ready c) (fun _ _ _ ready next => step_ready ready next.1 next.2) run
    (init_ready c)

theorem edits_follow_plain_text {c : Config} {s : FixedTextArea} {events : List Event}
    (run : Transition.Run (Transition.Guarded Editing (Transition.Steps (step c)))
      (init c) events s)
    {event : Event} {edit : Edit FixedCharacter} (asked : editOf c event = some edit)
    (fits : EditFits s event) :
    ∃ t, step c s event = some t ∧ (editor s).Does edit (editor t) ∧
      (editor s).caret ≤ (editor s).text.length := by
  have ready := run_ready run
  obtain ⟨t, done, _, does⟩ := edit_step ready asked fits
  exact ⟨t, done, does, ready.caret_le⟩

instance (s : FixedTextArea) (p : UIPosition Nat) : Decidable (RemoveFitsAt s p) :=
  inferInstanceAs (Decidable (∀ line ∈ s.lines[p.y]?, _))

instance (s : FixedTextArea) : (x y : Nat) → Decidable (BackspaceFits s x y)
  | 0, 0 => .isTrue trivial
  | x + 1, y => inferInstanceAs (Decidable (RemoveFitsAt s ⟨x, y⟩))
  | 0, y + 1 => inferInstanceAs (Decidable (∀ prev ∈ s.lines[y]?, _))

instance (s : FixedTextArea) : Decidable (EnterFits s) :=
  inferInstanceAs (Decidable (0 < s.characterPos.x → ∀ line ∈ s.lines[s.characterPos.y]?, _))

instance (s : FixedTextArea) : (event : Event) → Decidable (EditFits s event)
  | .key .del _ => inferInstanceAs (Decidable (RemoveFitsAt s s.characterPos))
  | .key .backspace _ =>
      inferInstanceAs (Decidable (BackspaceFits s s.characterPos.x s.characterPos.y))
  | .key (.other ch) _ => inferInstanceAs (Decidable (is_new_line ch = true → EnterFits s))
  | .key .up _ | .key .down _ | .key .left _ | .key .right _ | .key .home _ | .key .end_ _
  | .key .pageUp _ | .key .pageDown _ | .key .selectAll _ | .key .cut _ | .key .copy _
  | .key .paste _ | .mouse _ _ _ _ | .scroll _ | .resize _ _ => .isTrue trivial

instance (s : FixedTextArea) (event : Event) : Decidable (Editing s event) :=
  inferInstanceAs (Decidable (_ ∧ _))

/-- A text area whose lines have room for three characters. -/
def narrowArea : Config where
  font := plainArea.font
  leftMargin := 8
  textFGColor := 0
  textBGColor := 0xFFFFFF
  width := 40
  height := 60
  objectSize := by decide
  room := by decide

/-- Four characters typed over the end of a line, the second one deleted, which pulls the
    last one up, and Backspace at the start of a line of its own. -/
theorem edits_follow_plain_text_typed :
    ∃ s t, Transition.runAll (Transition.guarded Editing (step narrowArea)) (init narrowArea)
        [.key (.other 97) false, .key (.other 98) false, .key (.other 99) false,
          .key (.other 100) false, .key .up false, .key .del false, .key .end_ false,
          .key (.other Keyboard_ENTER) false] = some s ∧
      step narrowArea s (.key .backspace false) = some t ∧
      (editor s).Does .backspace (editor t) ∧ (editor s).caret ≤ (editor s).text.length := by
  have reached : ((Transition.runAll (Transition.guarded Editing (step narrowArea))
      (init narrowArea)
        [.key (.other 97) false, .key (.other 98) false, .key (.other 99) false,
          .key (.other 100) false, .key .up false, .key .del false, .key .end_ false,
          .key (.other Keyboard_ENTER) false]).any
      fun s => decide (EditFits s (.key .backspace false))) = true := by
    decide +kernel
  obtain ⟨s, here, fits⟩ := (Option.any_eq_true _ _).mp reached
  obtain ⟨t, next, does, inside⟩ := edits_follow_plain_text (Transition.run_guarded_iff.mpr here)
    rfl (of_decide_eq_true fits)
  exact ⟨s, t, here, next, does, inside⟩

/-- Delete at the end of a full line that Enter has ended takes the first character of
    the next line away with the newline. -/
theorem delete_loses_character :
    ∃ s t, Transition.runAll (step narrowArea) (init narrowArea)
        [.key (.other 97) false, .key (.other 98) false, .key (.other 99) false,
          .key (.other Keyboard_ENTER) false, .key (.other 100) false, .key .up false,
          .key .end_ false] = some s ∧
      step narrowArea s (.key .del false) = some t ∧
      ¬ (editor s).Does .delete (editor t) := by
  have reached : ((Transition.runAll (step narrowArea) (init narrowArea)
        [.key (.other 97) false, .key (.other 98) false, .key (.other 99) false,
          .key (.other Keyboard_ENTER) false, .key (.other 100) false, .key .up false,
          .key .end_ false]).any fun s =>
      (step narrowArea s (.key .del false)).any fun t =>
        !decide ((editor s).Does .delete (editor t))) = true := by
    decide +kernel
  obtain ⟨s, here, lost⟩ := (Option.any_eq_true _ _).mp reached
  obtain ⟨t, next, lost⟩ := (Option.any_eq_true _ _).mp lost
  exact ⟨s, t, here, next, by simpa using lost⟩

end FixedText
