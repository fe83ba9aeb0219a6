import UpanLibs.Text.LineEditor
import UpanLibs.TextArea.Fixed.FixedRefinement
import UpanLibs.TextArea.Fixed.Terminal

/-!
The command line of a `Terminal` as a plain editor of one line. Where a line goes on in the next
one the caret has two places for one place of the text, and the keys are right at the one or the
other only.
-/
namespace FixedText

open TextInput LineEditor Transition
open WrappedText (Layout Sym Editor Edit Starts)
open WrappedText.Layout (symbols)
open FixedTextArea

variable {c : Config} {s t : FixedTextArea}

/-! The room for characters stays. -/

theorem vscroll_max {rows : Int} (ok : vscroll rows s = .ok t) :
    t.maxLineChars = s.maxLineChars := by
  obtain ⟨_, _, ok⟩ := Fallible.bind_ok_iff.mp ok
  obtain ⟨_, _, ok⟩ := Fallible.bind_ok_iff.mp ok
  cases ok
  dsimp only
  split <;> rfl

theorem scrollToCoverEmptyArea_max (ok : scrollToCoverEmptyArea s = .ok t) :
    t.maxLineChars = s.maxLineChars := by
  unfold scrollToCoverEmptyArea at ok
  dsimp only at ok
  split at ok
  · exact vscroll_max ok
  · cases ok
    rfl

theorem changeScrollHeight_max {delta : Int} (ok : changeScrollHeight delta s = .ok t) :
    t.maxLineChars = s.maxLineChars := by
  unfold changeScrollHeight at ok
  dsimp only at ok
  generalize (if s.scrollHeight + delta < 0 then 0 else s.scrollHeight + delta) = height at ok
  by_cases changed : height ≠ s.scrollHeight
  · rw [if_pos changed] at ok
    exact scrollToCoverEmptyArea_max (s := { s with scrollHeight := height }) ok
  · rw [if_neg changed] at ok
    cases ok
    rfl

theorem deleteLine_max {y : Nat} (ok : deleteLine c y s = .ok t) :
    t.maxLineChars = s.maxLineChars := by
  obtain ⟨⟨lines, height⟩, _, ok⟩ := Fallible.bind_ok_iff.mp ok
  exact changeScrollHeight_max (s := { s with lines := lines }) ok

theorem wrapremove_max (ok : wrapremove c s = .ok t) : t.maxLineChars = s.maxLineChars := by
  unfold wrapremove at ok
  dsimp only at ok
  generalize wrapremovech s.maxLineChars s.lines.length s.characterPos.x
    (s.lines.drop s.characterPos.y) = removed at ok
  obtain ⟨lines, deleted⟩ := removed
  cases deleted with
  | none =>
    cases ok
    rfl
  | some d => exact deleteLine_max (s := { s with lines := s.lines.take _ ++ lines }) ok

theorem removech_max (ok : removech c s = .ok t) : t.maxLineChars = s.maxLineChars := by
  obtain ⟨line, _, ok⟩ := Fallible.bind_ok_iff.mp ok
  by_cases wrapped : line.wrapped = true
  · rw [if_pos wrapped] at ok
    exact wrapremove_max ok
  rw [if_neg wrapped] at ok
  by_cases joins : s.characterPos.x = line.size ∧ 0 < s.characterPos.x
  · rw [if_pos joins] at ok
    exact wrapremove_max (s := { s with lines := s.lines.set _ _ }) ok
  rw [if_neg joins] at ok
  by_cases empty : s.characterPos.x = line.size
  · rw [if_pos empty] at ok
    exact deleteLine_max ok
  · rw [if_neg empty] at ok
    cases ok
    rfl

theorem FixedTextArea.Moved.max (moved : Moved c s t) : t.maxLineChars = s.maxLineChars := by
  obtain ⟨x, y, z, line, here, within, bound, rfl⟩ := moved
  rfl

theorem doInsert_max (ready : Ready c s) {ch : FixedCharacter} (ok : doInsert c ch s = .ok t) :
    t.maxLineChars = s.maxLineChars := by
  obtain ⟨above, before, after, wrapped, below, cut⟩ := ready.cut
  obtain ⟨⟨below', added⟩, inserted, _⟩ := Fallible.bind_ok_iff.mp ok
  have length : above.length = s.characterPos.y := by rw [cut.caret]
  have drop : s.lines.drop s.characterPos.y = ⟨before ++ after, wrapped⟩ :: below := by
    rw [cut.lines, ← length, List.drop_left]
  rw [drop] at inserted
  obtain ⟨x, y, z, done, -, -⟩ := doInsert_ok (c := c) ready.inv cut.lines length inserted
  rw [ok, Except.ok.injEq] at done
  rw [done]
  rfl

/-! The paragraph of the caret. -/

/-- The caret's line with the lines above it that it goes on, and the lines above these. -/
structure Lay (s : FixedTextArea) (up chain : List FixedTextLine)
    (before after : List FixedCharacter) (wrapped : Bool) (below : List FixedTextLine) : Prop where
  cut : Cut s (up ++ chain) before after wrapped below
  ends : layout.Ends up
  full : ∀ line ∈ chain, line.wrapped = true ∧ line.size = s.maxLineChars

theorem Ready.lay (ready : Ready c s) :
    ∃ up chain before after wrapped below, Lay s up chain before after wrapped below := by
  obtain ⟨above, before, after, wrapped, below, cut⟩ := ready.cut
  obtain ⟨up, chain, rfl, ends, all⟩ := layout.exists_paragraph above
  refine ⟨up, chain, before, after, wrapped, below, cut, ends, fun line mem => ?_⟩
  exact ⟨all line mem, ((cut.sizes ready).1 line (by simp [mem])).2 (all line mem)⟩

section

variable {up chain below : List FixedTextLine} {before after : List FixedCharacter} {wrapped : Bool}

theorem Lay.textAbove (lay : Lay s up chain before after wrapped below) :
    layout.textAbove (up ++ chain) = layout.textAbove up ++ symbols (chain.flatMap (·.chars)) := by
  have all : ∀ line ∈ chain, layout.wrapped line = true := fun line mem => (lay.full line mem).1
  rw [layout.textAbove_append, layout.textAbove_wrapped all]
  rfl

theorem Lay.primary (lay : Lay s up chain before after wrapped below) :
    Terminal.isPrimaryCommandLine s = .ok (decide (chain = [])) := by
  have row : s.characterPos.y = (up ++ chain).length := by rw [lay.cut.caret]
  have read (first : List FixedTextLine) (prev : FixedTextLine)
      (split : up ++ chain = first ++ [prev]) :
      Terminal.isPrimaryCommandLine s = .ok !prev.wrapped := by
    have there : get s.lines first.length = .ok prev := by
      rw [get_ok_iff, lay.cut.lines, split, List.append_assoc]
      exact SplitList.get_length _ _ _
    rw [split, List.length_append, List.length_singleton] at row
    simp only [Terminal.isPrimaryCommandLine, row, there, bind, Except.bind]
  rcases List.eq_nil_or_concat chain with rfl | ⟨first, prev, rfl⟩
  · rcases List.eq_nil_or_concat up with rfl | ⟨first, prev, rfl⟩
    · simp [Terminal.isPrimaryCommandLine, row]
    · have unwrapped : prev.wrapped = false := lay.ends prev (by simp)
      rw [read first prev (by simp), unwrapped]
      rfl
  · rw [read (up ++ first) prev (by simp), (lay.full prev (by simp)).1]
    simp

/-- The area shows a text, and below it the prompt and the line that is edited. -/
structure Shows (c : Config) (above : List (Sym FixedCharacter)) (shown : List FixedCharacter)
    (room : Nat) (s : FixedTextArea) (line : Line FixedCharacter) : Prop where
  ready : Ready c s
  room : s.maxLineChars = room
  text : editor s = Editor.between (above ++ symbols (shown ++ line.before)) (symbols line.after)

variable {above : List (Sym FixedCharacter)} {shown : List FixedCharacter} {room : Nat}
  {line line' : Line FixedCharacter}

/-- Where the caret is in the paragraph, and in the line that is edited. -/
structure Place (above : List (Sym FixedCharacter)) (shown : List FixedCharacter)
    (line : Line FixedCharacter) (up chain : List FixedTextLine)
    (before after : List FixedCharacter) (wrapped : Bool) (below : List FixedTextLine) : Prop where
  above : layout.textAbove up = above
  before : chain.flatMap (·.chars) ++ before = shown ++ line.before
  after : symbols after ++ textAfter wrapped below = symbols line.after

theorem Shows.place (displays : Shows c above shown room s line) (starts : Starts above)
    (lay : Lay s up chain before after wrapped below) :
    Place above shown line up chain before after wrapped below := by
  have same := lay.cut.editor.symm.trans displays.text
  rw [lay.textAbove, List.append_assoc, ← Layout.symbols_append,
    Editor.between_eq_between_iff] at same
  obtain ⟨up_, before_⟩ := (layout.textAbove_starts lay.ends).unique starts same.1
  exact ⟨up_, before_, same.2⟩

theorem Shows.moved (displays : Shows c above shown room s line) (moved : Moved c s t)
    (text : line'.text = line.text)
    (caret : (editor t).caret = (above ++ symbols (shown ++ line'.before)).length) :
    Shows c above shown room t line' := by
  obtain ⟨ready, same, -⟩ := displays.ready.moved moved
  refine ⟨ready, moved.max.trans displays.room, Editor.eq_between_iff.mpr ⟨?_, caret⟩⟩
  rw [same, displays.text]
  simp only [Editor.between, List.append_assoc, ← Layout.symbols_append]
  exact congrArg (fun chars => above ++ symbols (shown ++ chars)) text.symm

theorem offset_within {lines : List FixedTextLine} {x y : Nat} {cur : FixedTextLine}
    (here : lines[y]? = some cur) (within : x ≤ cur.size) :
    layout.offset lines x y = (layout.textAbove (lines.take y)).length + x := by
  have size : (cur.chars.take x).length = x := List.length_take_of_le within
  simp only [Layout.offset, Layout.before, here, List.length_append, Layout.symbols_length]
  exact congrArg _ size

theorem Shows.caret (displays : Shows c above shown room s line) :
    (editor s).caret = (above ++ symbols (shown ++ line.before)).length := by
  rw [displays.text]
  rfl

theorem Lay.atPrompt (lay : Lay s up chain before after wrapped below) (prompt : List Nat) :
    Terminal.isAtPrompt prompt s = .ok (decide (chain = [] ∧ before.length = prompt.length)) := by
  have column : s.characterPos.x = before.length := by rw [lay.cut.caret]
  simp only [Terminal.isAtPrompt, lay.primary, bind, Except.bind, column]
  rw [Bool.decide_and, beq_eq_decide]

theorem Place.behind {ch : FixedCharacter}
    (place : Place above shown line up chain (before ++ [ch]) after wrapped below)
    (full : ∀ l ∈ chain, l.wrapped = true ∧ l.size = room) (fits : shown.length ≤ room)
    (right : ¬(chain = [] ∧ (before ++ [ch]).length = shown.length)) :
    ∃ typed, line.before = typed ++ [ch] ∧ chain.flatMap (·.chars) ++ before = shown ++ typed := by
  have same := place.before
  rcases List.eq_nil_or_concat line.before with none_ | ⟨typed, last, some_⟩
  · rw [none_, List.append_nil] at same
    have length := congrArg List.length same
    rw [List.length_append] at length
    cases chain with
    | nil => exact absurd ⟨rfl, by simpa using length⟩ right
    | cons first chain =>
      have size : first.chars.length = room := (full first List.mem_cons_self).2
      simp only [List.flatMap_cons, List.length_append, List.length_singleton] at length
      omega
  · rw [some_, List.concat_eq_append, ← List.append_assoc, ← List.append_assoc] at same
    obtain ⟨init, last_⟩ := List.append_inj' same rfl
    cases last_
    exact ⟨typed, by rw [some_, List.concat_eq_append], init⟩

theorem Place.start (place : Place above shown line up chain before after wrapped below)
    (here : chain = [] ∧ before.length = shown.length) : line = ⟨[], line.after⟩ := by
  obtain ⟨rfl, length⟩ := here
  have same := place.before
  rw [List.flatMap_nil, List.nil_append] at same
  have none_ : line.before = [] := by
    have count := congrArg List.length same
    rw [List.length_append, length] at count
    exact List.length_eq_zero_iff.mp (by omega)
  cases line
  cases none_
  rfl

end

section Keys

variable {above : List (Sym FixedCharacter)} {shown : List FixedCharacter} {room : Nat}
  {line : Line FixedCharacter} {prompt : List Nat} {up chain below : List FixedTextLine}
  {before after : List FixedCharacter} {wrapped : Bool}

def Continues (s : FixedTextArea) : Prop :=
  s.characterPos.x = 0 ∧ Terminal.isPrimaryCommandLine s = .ok false

theorem moveleft_continues (prompt : List Nat) (displays : Shows c above shown room s line)
    (continues : Continues s) :
    ∃ t prev, Terminal.moveleft c prompt s = .ok t ∧ Shows c above shown room t line ∧
      t.OnLine prev ∧ t.characterPos.x = prev.size ∧ prev.wrapped = true := by
  obtain ⟨up, chain, before, after, wrapped, below, lay⟩ := displays.ready.lay
  have primary := lay.primary.symm.trans continues.2
  rw [Except.ok.injEq, decide_eq_false_iff_not] at primary
  obtain ⟨chain, prev, rfl⟩ := (List.eq_nil_or_concat chain).resolve_left primary
  rw [List.concat_eq_append] at lay
  have row : s.characterPos.y = (up ++ chain).length + 1 := by
    rw [lay.cut.caret]
    simp [Nat.add_assoc]
  have lines : s.lines = (up ++ chain) ++ prev :: ⟨before ++ after, wrapped⟩ :: below := by
    rw [lay.cut.lines]
    simp
  have there : s.lines[(up ++ chain).length]? = some prev := by
    rw [lines]
    exact SplitList.get_length _ _ _
  have marked : prev.wrapped = true := (lay.full prev (by simp)).1
  obtain ⟨z, left, bound, -⟩ :=
    moveleft_up displays.ready.inv.coherent lay.cut.onLine continues.1 row there
  refine ⟨_, prev, ?_, displays.moved ⟨_, _, z, prev, there, Nat.le_refl _, bound, rfl⟩ rfl ?_,
    ⟨there, Nat.le_refl _⟩, rfl, marked⟩
  · have away : decide (chain ++ [prev] = [] ∧ before.length = prompt.length) = false := by simp
    rw [← left]
    simp only [Terminal.moveleft, lay.atPrompt, away, bind, Except.bind, continues.1,
      FixedTextArea.moveleft, row]
    simp
  · rw [← displays.caret]
    simp only [editor, caretAt_lines, caretAt_pos]
    rw [offset_within there (Nat.le_refl _), offset_within lay.cut.onLine.1 lay.cut.onLine.2,
      continues.1, row, lines]
    have take : ((up ++ chain) ++ prev :: ⟨before ++ after, wrapped⟩ :: below).take
        ((up ++ chain).length + 1) = (up ++ chain) ++ [prev] := by
      rw [List.take_length_add_append]
      rfl
    rw [take, List.take_left, layout.textAbove_append (up ++ chain)]
    simp [Layout.textAbove, Layout.ending, layout, marked, FixedTextLine.size]

theorem Lay.continues (lay : Lay s up chain [] after wrapped below) (more : chain ≠ []) :
    Continues s := by
  refine ⟨by rw [lay.cut.caret]; rfl, ?_⟩
  rw [lay.primary, decide_eq_false more]

theorem Place.wrapped_iff (place : Place above shown line up chain before after wrapped below)
    (closed : wrapped = true → below ≠ []) : wrapped = true ↔ below ≠ [] := by
  refine ⟨closed, fun more => ?_⟩
  by_contra unwrapped
  have newline : Sym.newline ∈ symbols line.after := by
    rw [← place.after, Bool.eq_false_of_not_eq_true unwrapped]
    simp [textAfter, closing, more]
  obtain ⟨a, -, same⟩ := List.mem_map.mp newline
  cases same

theorem moveleft_right (lay : Lay s up chain before after wrapped below)
    (right : ¬(chain = [] ∧ before.length = prompt.length)) {k : Nat}
    (column : s.characterPos.x = k + 1) :
    Terminal.moveleft c prompt s = FixedTextArea.moveleft c s := by
  simp only [Terminal.moveleft, lay.atPrompt, decide_eq_false right, bind, Except.bind, column]
  simp

theorem moveleft_shows (displays : Shows c above shown room s line) (starts : Starts above)
    (length : shown.length = prompt.length) (fits : shown.length ≤ room)
    (key : Continues s → line.before = []) :
    ∃ t, Terminal.moveleft c prompt s = .ok t ∧
      Shows c above shown room t (line.press .left) := by
  obtain ⟨up, chain, before, after, wrapped, below, lay⟩ := displays.ready.lay
  have place := displays.place starts lay
  by_cases atPrompt : chain = [] ∧ before.length = shown.length
  · have stays : line.press .left = line := by
      rw [place.start atPrompt]
      rfl
    rw [length] at atPrompt
    refine ⟨s, ?_, by rwa [stays]⟩
    simp only [Terminal.moveleft, lay.atPrompt, atPrompt, bind, Except.bind]
    rfl
  rcases List.eq_nil_or_concat before with rfl | ⟨before, ch, rfl⟩
  · have more : chain ≠ [] := by
      rintro rfl
      have none_ := congrArg List.length place.before
      simp only [List.flatMap_nil, List.nil_append, List.length_nil, List.length_append] at none_
      exact atPrompt ⟨rfl, by simp only [List.length_nil]; omega⟩
    have continues := lay.continues more
    have stays : line.press .left = line := by
      cases line
      cases key continues
      rfl
    rw [stays]
    obtain ⟨t, prev, done, displays', -⟩ := moveleft_continues prompt displays continues
    exact ⟨t, done, displays'⟩
  · rw [List.concat_eq_append] at lay place atPrompt
    obtain ⟨typed, typed_, -⟩ := place.behind (displays.room ▸ lay.full) fits atPrompt
    have column : s.characterPos.x = before.length + 1 := by
      rw [lay.cut.caret, List.length_append, List.length_singleton]
    have on := lay.cut.onLine
    have within := on.2
    have away : ¬(chain = [] ∧ (before ++ [ch]).length = prompt.length) := by rwa [← length]
    have pressed : line.press .left = ⟨typed, ch :: line.after⟩ := by
      obtain ⟨lineBefore, lineAfter⟩ := line
      cases typed_
      exact Line.press_left _ _ _
    refine ⟨_, ?_, displays.moved ⟨before.length, _, _, _, on.1, by omega,
      displays.ready.inv.coherent.scroll, rfl⟩ ?_ ?_⟩
    · rw [← moveleft_inside displays.ready.inv.coherent on column]
      exact moveleft_right lay away column
    · rw [pressed, Line.text, Line.text, typed_]
      simp
    · have here := displays.caret
      simp only [editor, caretAt_lines, caretAt_pos] at here ⊢
      rw [offset_within on.1 on.2, column, typed_] at here
      rw [offset_within on.1 (by omega), pressed]
      simp only [List.length_append, Layout.symbols_length, List.length_singleton] at here ⊢
      omega

theorem moveright_within (displays : Shows c above shown room s line) (starts : Starts above)
    {ch : FixedCharacter} (lay : Lay s up chain before (ch :: after) wrapped below) :
    ∃ t, moveright c s = .ok t ∧ Shows c above shown room t (line.press .right) := by
  have same := (displays.place starts lay).after
  have on := lay.cut.onLine
  have coherent := displays.ready.inv.coherent
  have inside : s.characterPos.x < (⟨before ++ ch :: after, wrapped⟩ : FixedTextLine).size := by
    rw [lay.cut.caret]
    simp [FixedTextLine.size]
  obtain ⟨lineBefore, lineAfter⟩ := line
  cases lineAfter with
  | nil => simp at same
  | cons first rest =>
    obtain ⟨first_, -⟩ := List.cons.inj same
    cases first_
    refine ⟨_, moveright_inside coherent on inside, displays.moved ⟨_, _, _, _, on.1, inside,
      coherent.scroll, rfl⟩ ?_ ?_⟩
    · simp [Line.text]
    · have here := displays.caret
      simp only [editor, caretAt_lines, caretAt_pos] at here ⊢
      rw [offset_within on.1 on.2] at here
      rw [offset_within on.1 inside, Line.press_right]
      simp only [List.length_append, Layout.symbols_length, List.length_singleton] at here ⊢
      omega

theorem moveright_end (displays : Shows c above shown room s line) (starts : Starts above)
    (lay : Lay s up chain before [] wrapped []) :
    ∃ t, moveright c s = .ok t ∧ Shows c above shown room t (line.press .right) := by
  have place := displays.place starts lay
  have end_ : s.characterPos.x = (⟨before ++ [], wrapped⟩ : FixedTextLine).size := by
    rw [lay.cut.caret]
    simp [FixedTextLine.size]
  have last : s.characterPos.y + 1 = s.lines.length := by
    rw [lay.cut.caret, lay.cut.lines]
    simp [Nat.add_assoc]
  have none_ : line.after = [] := by
    have same := place.after
    have goesOn := place.wrapped_iff (closed_more (lay.cut.closed displays.ready.closed).2)
    have unwrapped : wrapped = false := by simpa using goesOn
    rw [unwrapped] at same
    simpa [textAfter, closing, symbols] using same.symm
  refine ⟨s, moveright_last lay.cut.onLine end_ last, ?_⟩
  cases line
  cases none_
  exact displays

/-- At the end of a wrapped line the caret goes on to the start of the next one, which is the same
    place of the text. -/
theorem moveright_over (displays : Shows c above shown room s line) (starts : Starts above)
    {next : FixedTextLine} (lay : Lay s up chain before [] wrapped (next :: below))
    (none_ : line.after = []) :
    ∃ t, moveright c s = .ok t ∧ Shows c above shown room t (line.press .right) := by
  have on := lay.cut.onLine
  have column : s.characterPos.x = before.length := by rw [lay.cut.caret]
  have row : s.characterPos.y = (up ++ chain).length := by rw [lay.cut.caret]
  have end_ : s.characterPos.x = (⟨before ++ [], wrapped⟩ : FixedTextLine).size := by
    rw [column]
    simp [FixedTextLine.size]
  have there : s.lines[s.characterPos.y + 1]? = some next := by
    rw [row, lay.cut.lines, List.getElem?_append_right (Nat.le_succ _),
      Nat.succ_sub (Nat.le_refl _), Nat.sub_self]
    rfl
  have stays : line.press .right = line := by
    cases line
    cases none_
    rfl
  have marked : wrapped = true := ((displays.place starts lay).wrapped_iff
    (closed_more (lay.cut.closed displays.ready.closed).2)).mpr (by simp)
  obtain ⟨z, down, bound⟩ := moveright_down displays.ready.inv.coherent on end_ there
  rw [stays]
  refine ⟨_, down, displays.moved ⟨_, _, z, next, there, Nat.zero_le _, bound, rfl⟩ rfl ?_⟩
  rw [← displays.caret]
  simp only [editor, caretAt_lines, caretAt_pos]
  rw [offset_within there (Nat.zero_le _), offset_within on.1 on.2, column, row, lay.cut.lines,
    List.append_nil, List.take_left]
  have take : ((up ++ chain) ++ ⟨before, wrapped⟩ :: next :: below).take
      ((up ++ chain).length + 1) = (up ++ chain) ++ [⟨before, wrapped⟩] := by
    rw [List.take_length_add_append]
    rfl
  rw [take, layout.textAbove_append (up ++ chain)]
  simp [Layout.textAbove, Layout.ending, layout, marked]

theorem moveright_shows (displays : Shows c above shown room s line) (starts : Starts above)
    (key : ∀ cur, s.OnLine cur → s.characterPos.x = cur.size →
      s.characterPos.y + 1 < s.lines.length → line.after = []) :
    ∃ t, moveright c s = .ok t ∧ Shows c above shown room t (line.press .right) := by
  obtain ⟨up, chain, before, after, wrapped, below, lay⟩ := displays.ready.lay
  cases after with
  | cons ch after => exact moveright_within displays starts lay
  | nil =>
    cases below with
    | nil => exact moveright_end displays starts lay
    | cons next below =>
      refine moveright_over displays starts lay (key _ lay.cut.onLine ?_ ?_)
      · rw [lay.cut.caret]
        simp [FixedTextLine.size]
      · rw [lay.cut.caret, lay.cut.lines]
        simp only [List.length_append, List.length_cons]
        omega

theorem removech_nothing (displays : Shows c above shown room s line) (starts : Starts above)
    {cur : FixedTextLine} (on : s.OnLine cur) (end_ : s.characterPos.x = cur.size)
    (marked : cur.wrapped = true) (nothing : line.after = []) :
    ∃ t, removech c s = .ok t ∧ Shows c above shown room t line := by
  obtain ⟨up, chain, before, after, wrapped, below, lay⟩ := displays.ready.lay
  have place := displays.place starts lay
  have same : (⟨before ++ after, wrapped⟩ : FixedTextLine) = cur :=
    Option.some.inj (lay.cut.here.symm.trans on.1)
  subst same
  obtain rfl : wrapped = true := marked
  obtain rfl : after = [] := by
    rw [lay.cut.caret] at end_
    simp only [FixedTextLine.size, List.length_append] at end_
    exact List.length_eq_zero_iff.mp (by omega)
  obtain ⟨next, rest, rfl⟩ := List.exists_cons_of_ne_nil
    (closed_more (lay.cut.closed displays.ready.closed).2 rfl)
  have closed := closed_tail (lay.cut.closed displays.ready.closed).2
  have text := place.after
  rw [nothing, textAfter, if_pos rfl] at text
  have rest_ : rest = [] ∧ next.chars = [] := by
    cases rest with
    | nil => simpa [Layout.text, layout, symbols] using text
    | cons second rest =>
      rw [layout.text_cons (by simp)] at text
      simp only [symbols, List.map_nil, List.append_eq_nil_iff, List.map_eq_nil_iff,
        Layout.ending] at text
      have goesOn : next.wrapped = true := by
        by_contra unwrapped
        exact absurd text.2.1.2 (by simp [layout, unwrapped])
      have full := (closed_head closed).2 goesOn
      have none_ : next.chars = [] := text.2.1.1
      have positive := displays.ready.inv.room
      rw [FixedTextLine.size, none_] at full
      simp only [List.length_nil] at full
      omega
  obtain ⟨rfl, none_⟩ := rest_
  have empty : nextSize [next] = 0 := by rw [nextSize, FixedTextLine.size, none_]; rfl
  obtain ⟨t, removed, ready, does⟩ := removech_wrapped_end displays.ready lay.cut (by
    rw [if_pos empty]
    rfl)
  rw [displays.text, nothing, Editor.delete_iff] at does
  refine ⟨t, removed, ready, (removech_max removed).trans displays.room, ?_⟩
  rw [does, nothing]
  rfl

/-- Backspace behind a typed character. -/
theorem backspace_typed (displays : Shows c above shown room s line) (starts : Starts above)
    (length : shown.length = prompt.length) (fits : shown.length ≤ room) (wide : 2 ≤ room)
    (visible : Visible c s) {ch : FixedCharacter}
    (lay : Lay s up chain (before ++ [ch]) after wrapped below)
    (away : ¬(chain = [] ∧ (before ++ [ch]).length = prompt.length)) :
    ∃ t, Terminal.backspace c prompt s = .ok t ∧
      Shows c above shown room t (line.press .backspace) := by
  have place := displays.place starts lay
  obtain ⟨typed, typed_, -⟩ := place.behind (displays.room ▸ lay.full) fits (by rwa [length])
  have right : s.characterPos.x = before.length + 1 := by
    rw [lay.cut.caret, List.length_append, List.length_singleton]
  have notStart : ¬(s.characterPos.x = 0 ∧ s.characterPos.y = 0) := by omega
  have goesOn := closed_more (lay.cut.closed displays.ready.closed).2
  have pulls : BackspaceFits s s.characterPos.x s.characterPos.y := by
    rw [right, BackspaceFits]
    intro cur here
    obtain rfl := Option.some.inj (lay.cut.here.symm.trans here)
    have inside : before.length < (before ++ [ch] ++ after).length := by simp
    unfold RemoveFits
    cases wrapped with
    | false => simp [FixedTextLine.size]
    | true =>
      rw [if_pos rfl, if_neg (fun atEnd => absurd atEnd.1 (Nat.ne_of_lt inside)), lay.cut.at.2]
      exact ⟨goesOn rfl, .inr (.inr (.inr ⟨rfl, displays.room ▸ wide⟩))⟩
  obtain ⟨t, done, ready, does⟩ := backspace_inside displays.ready visible lay.cut pulls
  have back : Terminal.backspace c prompt s = FixedTextArea.backspace c s := by
    simp only [Terminal.backspace, lay.atPrompt, decide_eq_false away, bind, Except.bind,
      if_neg notStart, moveleft_right lay away right, FixedTextArea.backspace]
    rfl
  have pressed : line.press .backspace = ⟨typed, line.after⟩ := by
    obtain ⟨lineBefore, lineAfter⟩ := line
    cases typed_
    exact Line.press_backspace _ _ _
  have max : t.maxLineChars = s.maxLineChars := by
    have steps := done
    rw [FixedTextArea.backspace, if_neg notStart] at steps
    obtain ⟨left, moved, removed⟩ := Fallible.bind_ok_iff.mp steps
    rw [moveleft_inside displays.ready.inv.coherent lay.cut.onLine right] at moved
    cases moved
    have kept := removech_max removed
    exact kept
  refine ⟨t, back.trans done, ready, max.trans displays.room, ?_⟩
  rw [displays.text, typed_] at does
  rw [pressed]
  have cut : above ++ symbols (shown ++ (typed ++ [ch])) =
      (above ++ symbols (shown ++ typed)) ++ [.chr ch] := by simp
  rw [cut, Editor.does_backspace_iff] at does
  exact does

theorem backspace_shows (displays : Shows c above shown room s line) (starts : Starts above)
    (length : shown.length = prompt.length) (fits : shown.length ≤ room) (wide : 2 ≤ room)
    (visible : Visible c s) (key : Continues s → line = .empty) :
    ∃ t, Terminal.backspace c prompt s = .ok t ∧
      Shows c above shown room t (line.press .backspace) := by
  obtain ⟨up, chain, before, after, wrapped, below, lay⟩ := displays.ready.lay
  have place := displays.place starts lay
  by_cases atPrompt : chain = [] ∧ before.length = shown.length
  · have stays : line.press .backspace = line := by
      rw [place.start atPrompt]
      rfl
    rw [length] at atPrompt
    refine ⟨s, ?_, by rwa [stays]⟩
    simp only [Terminal.backspace, lay.atPrompt, atPrompt, bind, Except.bind]
    rfl
  have away : ¬(chain = [] ∧ before.length = prompt.length) := by rwa [← length]
  rcases List.eq_nil_or_concat before with rfl | ⟨before, ch, rfl⟩
  · have more : chain ≠ [] := by
      rintro rfl
      have none_ := congrArg List.length place.before
      simp only [List.flatMap_nil, List.nil_append, List.length_nil, List.length_append] at none_
      exact atPrompt ⟨rfl, by simp only [List.length_nil]; omega⟩
    have below_ : s.characterPos.y ≠ 0 := by
      have row : s.characterPos.y = (up ++ chain).length := by rw [lay.cut.caret]
      have := List.length_pos_iff.mpr more
      rw [row, List.length_append]
      omega
    have continues := lay.continues more
    obtain rfl := key continues
    obtain ⟨t, prev, left, displays', on, end_, marked⟩ :=
      moveleft_continues prompt displays continues
    obtain ⟨t', removed, shown_⟩ := removech_nothing displays' starts on end_ marked rfl
    refine ⟨t', ?_, shown_⟩
    simp only [Terminal.backspace, lay.atPrompt, decide_eq_false away, bind, Except.bind, left,
      below_, and_false, if_false]
    exact removed
  · rw [List.concat_eq_append] at lay away
    exact backspace_typed displays starts length fits wide visible lay away

theorem insert_shows (displays : Shows c above shown room s line) (ch : FixedCharacter) :
    ∃ t, doInsert c ch s = .ok t ∧ Shows c above shown room t (line.press (.chr ch)) := by
  obtain ⟨t, done, ready, does⟩ := doInsert_text displays.ready ch
  refine ⟨t, done, ready, (doInsert_max displays.ready done).trans displays.room, ?_⟩
  rw [displays.text, Editor.insert_iff] at does
  rw [does, Line.press, List.append_assoc]
  simp

theorem moveToPrimary_shows (ready : Ready c s) (lay : Lay s up chain before after wrapped below)
    (rounds : Nat) (enough : chain.length ≤ rounds) :
    ∃ t, Terminal.moveToPrimary c rounds s = .ok t ∧ Moved c s t ∧
      t.characterPos.y = up.length := by
  induction rounds generalizing s chain before after wrapped below with
  | zero =>
    have none_ : chain = [] := List.length_eq_zero_iff.mp (by omega)
    subst none_
    refine ⟨s, rfl, moved_self ready.inv.coherent lay.cut.onLine, ?_⟩
    rw [lay.cut.caret, List.append_nil]
  | succ rounds ih =>
    rcases List.eq_nil_or_concat chain with rfl | ⟨chain, prev, rfl⟩
    · refine ⟨s, ?_, moved_self ready.inv.coherent lay.cut.onLine, ?_⟩
      · simp only [Terminal.moveToPrimary, lay.primary, bind, Except.bind]
        rfl
      · rw [lay.cut.caret, List.append_nil]
    · rw [List.concat_eq_append] at lay enough
      have row : s.characterPos.y = (up ++ chain).length + 1 := by
        rw [lay.cut.caret]
        simp [Nat.add_assoc]
      have lines : s.lines = (up ++ chain) ++ prev :: ⟨before ++ after, wrapped⟩ :: below := by
        rw [lay.cut.lines]
        simp
      have there : s.lines[(up ++ chain).length]? = some prev := by
        rw [lines]
        exact SplitList.get_length _ _ _
      obtain ⟨z, up_, bound, -⟩ :=
        moveup_ok (ready.inv.coherent.drawn_on lay.cut.onLine) row there
      have within := Nat.min_le_right s.characterPos.x prev.size
      have moved : Moved c s
          (s.caretAt c (min s.characterPos.x prev.size) (up ++ chain).length z) :=
        ⟨_, _, z, prev, there, within, bound, rfl⟩
      have lay' : Lay (s.caretAt c (min s.characterPos.x prev.size) (up ++ chain).length z) up chain
          (prev.chars.take (min s.characterPos.x prev.size))
          (prev.chars.drop (min s.characterPos.x prev.size)) prev.wrapped
          (⟨before ++ after, wrapped⟩ :: below) := by
        refine ⟨⟨?_, ?_⟩, lay.ends, fun line mem => lay.full line (by simp [mem])⟩
        · rw [caretAt_lines, lines, List.take_append_drop]
        · rw [caretAt_pos, List.length_take_of_le within]
      obtain ⟨t, done, rest, top⟩ := ih (ready.moved moved).1 lay' (by simpa using enough)
      refine ⟨t, ?_, moved.trans rest, top⟩
      have goesOn : decide (chain ++ [prev] = []) = false := by simp
      simp only [Terminal.moveToPrimary, lay.primary, goesOn, bind, Except.bind, up_]
      exact done

theorem moverights_moved (ready : Ready c s) {cur : FixedTextLine} (on : s.OnLine cur)
    (count : Nat) (inside : s.characterPos.x + count ≤ cur.size) :
    ∃ t, Terminal.moverights c count s = .ok t ∧ Moved c s t ∧
      t.characterPos = ⟨s.characterPos.x + count, s.characterPos.y⟩ := by
  induction count generalizing s with
  | zero => exact ⟨s, rfl, moved_self ready.inv.coherent on, rfl⟩
  | succ count ih =>
    have right := moveright_inside ready.inv.coherent on (by omega)
    have within : s.characterPos.x + 1 ≤ cur.size := by omega
    have moved : Moved c s (s.caretAt c (s.characterPos.x + 1) s.characterPos.y s.scrollY) :=
      ⟨_, _, _, cur, on.1, within, ready.inv.coherent.scroll, rfl⟩
    have more : s.characterPos.x + 1 + count ≤ cur.size := by omega
    obtain ⟨t, done, rest, place⟩ := ih (ready.moved moved).1 ⟨on.1, within⟩ more
    refine ⟨t, ?_, moved.trans rest, place.trans ?_⟩
    · simp only [Terminal.moverights, right, bind, Except.bind]
      exact done
    · rw [caretAt_pos, Nat.add_assoc, Nat.add_comm 1]

end Keys

end FixedText
