import UpanLibs.TextArea.Fixed.CommandLine

/-!
Runs of keys on the command line of a `Terminal`, from the prompt that `displayCommandLine`
writes to the text that `getCommandLine` reads.
-/
namespace FixedText

open TextInput LineEditor Transition
open WrappedText (Layout Sym Editor Edit Starts)
open WrappedText.Layout (symbols)
open FixedTextArea

variable {c : Config} {s t : FixedTextArea}

/-! The keys that go to one end of the command line. -/

theorem FixedTextArea.Moved.lines (moved : Moved c s t) : t.lines = s.lines := by
  obtain ⟨x, y, z, line, here, within, bound, rfl⟩ := moved
  rfl

theorem FixedTextArea.Moved.onLine (moved : Moved c s t) :
    ∃ line, t.OnLine line ∧ s.lines[t.characterPos.y]? = some line := by
  obtain ⟨x, y, z, line, here, within, bound, rfl⟩ := moved
  exact ⟨line, ⟨here, within⟩, here⟩

theorem moveToLast_moved (ready : Ready c s) (rounds : Nat)
    (enough : s.lines.length ≤ s.characterPos.y + 1 + rounds) :
    ∃ t, Terminal.moveToLast c rounds s = .ok t ∧ Moved c s t ∧
      t.characterPos.y + 1 = s.lines.length := by
  induction rounds generalizing s with
  | zero =>
    obtain ⟨line, on⟩ := ready.on
    have row := ready.inv.coherent.row
    exact ⟨s, rfl, moved_self ready.inv.coherent on, by omega⟩
  | succ rounds ih =>
    obtain ⟨line, on⟩ := ready.on
    have row := ready.inv.coherent.row
    by_cases more : s.characterPos.y + 1 < s.lines.length
    · have here : s.lines[s.characterPos.y + 1]? = some s.lines[s.characterPos.y + 1] :=
        List.getElem?_eq_getElem more
      obtain ⟨z, down, bound⟩ := movedown_ok (ready.inv.coherent.drawn_on on) here
      have moved : Moved c s (s.caretAt c
          (min s.characterPos.x s.lines[s.characterPos.y + 1].size) (s.characterPos.y + 1) z) :=
        ⟨_, _, z, _, here, Nat.min_le_right _ _, bound, rfl⟩
      obtain ⟨t, done, rest, last⟩ := ih (ready.moved moved).1 (by
        simp only [caretAt_lines, caretAt_pos]
        omega)
      refine ⟨t, ?_, moved.trans rest, last⟩
      simp only [Terminal.moveToLast, if_pos more, down, bind, Except.bind]
      exact done
    · refine ⟨s, ?_, moved_self ready.inv.coherent on, by omega⟩
      rw [Terminal.moveToLast, if_neg more]

theorem moveend_moved (ready : Ready c s) :
    ∃ t, Terminal.moveend c s = .ok t ∧ Moved c s t ∧
      t.characterPos.y + 1 = s.lines.length ∧ (editor t).caret = (editor t).text.length := by
  obtain ⟨t, down, moved, last⟩ := moveToLast_moved ready s.lines.length (by omega)
  obtain ⟨line, on, here⟩ := moved.onLine
  have ready' := (ready.moved moved).1
  have moved' : Moved c t (t.caretAt c line.size t.characterPos.y t.scrollY) :=
    ⟨_, _, _, line, on.1, Nat.le_refl _, ready'.inv.coherent.scroll, rfl⟩
  refine ⟨t.caretAt c line.size t.characterPos.y t.scrollY, ?_, moved.trans moved', last, ?_⟩
  · simp only [Terminal.moveend, down, bind, Except.bind]
    exact inlinemoveend_ok ready'.inv.coherent on
  · have lines : t.lines = t.lines.take t.characterPos.y ++ [line] := by
      have below : t.lines.drop (t.characterPos.y + 1) = [] := by
        rw [moved.lines, last, List.drop_length]
      conv_lhs => rw [← List.take_append_drop t.characterPos.y t.lines]
      rw [List.drop_eq_getElem_cons ready'.inv.coherent.row, below,
        (List.getElem_eq_iff ready'.inv.coherent.row).mpr on.1]
    have text : layout.text t.lines =
        layout.textAbove (t.lines.take t.characterPos.y) ++ layout.text [line] := by
      rw [← layout.text_append (by simp), ← lines]
    simp only [editor, caretAt_lines, caretAt_pos]
    rw [offset_within on.1 (Nat.le_refl _), text]
    simp [Layout.text, layout, FixedTextLine.size]

section

variable {above : List (Sym FixedCharacter)} {shown : List FixedCharacter} {room : Nat}
  {line : Line FixedCharacter} {prompt : List Nat}

theorem moveend_shows (displays : Shows c above shown room s line) :
    ∃ t, Terminal.moveend c s = .ok t ∧ Shows c above shown room t (line.press .end_) := by
  obtain ⟨t, done, moved, -, last⟩ := moveend_moved displays.ready
  refine ⟨t, done, displays.moved moved ?_ ?_⟩
  · simp [Line.press, Line.text]
  · obtain ⟨-, same, -⟩ := displays.ready.moved moved
    rw [last, same, displays.text]
    simp only [Editor.between, Line.press, Line.text, List.append_assoc,
      ← Layout.symbols_append]

theorem Place.prompt_fits {up chain below : List FixedTextLine} {before after : List FixedCharacter}
    {wrapped : Bool} (place : Place above shown line up chain before after wrapped below)
    (full : ∀ l ∈ chain, l.wrapped = true ∧ l.size = room) (fits : shown.length ≤ room) :
    ∃ first rest, chain ++ ⟨before ++ after, wrapped⟩ :: below = first :: rest ∧
      shown.length ≤ first.size := by
  cases chain with
  | nil =>
    refine ⟨_, _, rfl, ?_⟩
    have same := congrArg List.length place.before
    simp only [List.flatMap_nil, List.nil_append, List.length_append] at same
    simp only [FixedTextLine.size, List.length_append]
    omega
  | cons first chain =>
    refine ⟨first, _, rfl, ?_⟩
    rwa [(full first List.mem_cons_self).2]

theorem movehome_shows (displays : Shows c above shown room s line) (starts : Starts above)
    (length : shown.length = prompt.length) (fits : shown.length ≤ room) :
    ∃ t, Terminal.movehome c prompt s = .ok t ∧
      Shows c above shown room t (line.press .home) := by
  obtain ⟨up, chain, before, after, wrapped, below, lay⟩ := displays.ready.lay
  have place := displays.place starts lay
  obtain ⟨first, rest, lines, wide⟩ := place.prompt_fits (displays.room ▸ lay.full) fits
  have whole : s.lines = up ++ first :: rest := by
    rw [lay.cut.lines, List.append_assoc, lines]
  have row : s.characterPos.y = (up ++ chain).length := by rw [lay.cut.caret]
  obtain ⟨t, top, moved, row'⟩ := moveToPrimary_shows displays.ready lay
    s.characterPos.y (by simp [row])
  have ready' := (displays.ready.moved moved).1
  have here : t.lines[t.characterPos.y]? = some first := by
    rw [moved.lines, whole, row']
    exact SplitList.get_length _ _ _
  have home : Moved c t (t.caretAt c 0 t.characterPos.y t.scrollY) :=
    ⟨_, _, _, first, here, Nat.zero_le _, ready'.inv.coherent.scroll, rfl⟩
  obtain ⟨u, right, moved', caret⟩ := moverights_moved (ready'.moved home).1
    ⟨here, Nat.zero_le _⟩ prompt.length
    (by simpa only [caretAt_pos, Nat.zero_add, ← length] using wide)
  have whole_ := (moved.trans home).trans moved'
  refine ⟨u, ?_, displays.moved whole_ ?_ ?_⟩
  · simp only [Terminal.movehome, top, bind, Except.bind, inlinemovehome_ok ready'.inv.coherent]
    exact right
  · simp [Line.press, Line.text]
  · simp only [caretAt_pos, Nat.zero_add, row'] at caret
    simp only [editor, caret, whole_.lines]
    have there : s.lines[up.length]? = some first := by
      rw [whole]
      exact SplitList.get_length _ _ _
    rw [offset_within there (length ▸ wide), whole, List.take_left, place.above]
    simp [Line.press, length]

end

/-! The keys where a soft wrap does not matter. -/

def BehindPrompt (prompt : List Nat) (s : FixedTextArea) : Prop :=
  prompt.length = s.maxLineChars ∧
    Terminal.isPrimaryCommandLine
      { s with characterPos := ⟨0, s.characterPos.y - 1⟩ } = .ok true

/-- Printable characters, and moves and Backspace where the two places that a soft wrap gives
    the caret make no difference. -/
def KeyFits (prompt : List Nat) (s : FixedTextArea) : Press Nat → Prop
  | .chr ch => is_command_key ch = false
  | .left => Continues s → BehindPrompt prompt s
  | .backspace => Continues s → BehindPrompt prompt s ∧
      ∀ cur ∈ s.lines[s.characterPos.y]?, cur.chars = []
  | .right => ∀ cur ∈ s.lines[s.characterPos.y]?, s.characterPos.x = cur.size →
      ∀ next ∈ s.lines[s.characterPos.y + 1]?, next.chars = []
  | .home | .end_ => True

instance (s : FixedTextArea) : Decidable (Continues s) :=
  inferInstanceAs (Decidable (_ ∧ _))

instance (prompt : List Nat) (s : FixedTextArea) : Decidable (BehindPrompt prompt s) :=
  inferInstanceAs (Decidable (_ ∧ _))

instance (prompt : List Nat) (s : FixedTextArea) : (key : Press Nat) →
    Decidable (KeyFits prompt s key)
  | .chr ch => inferInstanceAs (Decidable (is_command_key ch = false))
  | .left => inferInstanceAs (Decidable (Continues s → BehindPrompt prompt s))
  | .backspace => inferInstanceAs (Decidable (Continues s → _ ∧
      ∀ cur ∈ s.lines[s.characterPos.y]?, _))
  | .right => inferInstanceAs (Decidable (∀ cur ∈ s.lines[s.characterPos.y]?,
      s.characterPos.x = cur.size → ∀ next ∈ s.lines[s.characterPos.y + 1]?, _))
  | .home | .end_ => .isTrue trivial

section

variable {above : List (Sym FixedCharacter)} {shown : List FixedCharacter} {room : Nat}
  {line : Line FixedCharacter} {prompt : List Nat}

theorem Shows.behindPrompt (displays : Shows c above shown room s line) (starts : Starts above)
    (length : shown.length = prompt.length) (continues : Continues s)
    (behind : BehindPrompt prompt s) : line.before = [] := by
  obtain ⟨up, chain, before, after, wrapped, below, lay⟩ := displays.ready.lay
  have place := displays.place starts lay
  have primary := lay.primary.symm.trans continues.2
  rw [Except.ok.injEq, decide_eq_false_iff_not] at primary
  obtain ⟨chain, prev, rfl⟩ := (List.eq_nil_or_concat chain).resolve_left primary
  rw [List.concat_eq_append] at lay place
  obtain rfl : before = [] := by
    have home := continues.1
    rw [lay.cut.caret] at home
    exact List.length_eq_zero_iff.mp home
  have row : s.characterPos.y - 1 = (up ++ chain).length := by
    rw [lay.cut.caret]
    simp only [List.length_append, List.length_singleton]
    omega
  have lay' : Lay { s with characterPos := ⟨0, s.characterPos.y - 1⟩ } up chain []
      prev.chars prev.wrapped (⟨[] ++ after, wrapped⟩ :: below) := by
    refine ⟨⟨?_, by rw [row]; rfl⟩, lay.ends, fun l mem => lay.full l (by simp [mem])⟩
    rw [lay.cut.lines]
    simp
  have first := lay'.primary.symm.trans behind.2
  rw [Except.ok.injEq, decide_eq_true_eq] at first
  subst first
  have size := (lay.full prev (by simp)).2
  have same := congrArg List.length place.before
  simp only [List.nil_append, List.flatMap_singleton, List.append_nil, List.length_append] at same
  rw [FixedTextLine.size, ← behind.1] at size
  exact List.length_eq_zero_iff.mp (by omega)

theorem Shows.emptyLine (displays : Shows c above shown room s line) (starts : Starts above)
    (length : shown.length = prompt.length) (continues : Continues s)
    (behind : BehindPrompt prompt s) (empty : ∀ cur ∈ s.lines[s.characterPos.y]?, cur.chars = []) :
    line = .empty := by
  have none_ := displays.behindPrompt starts length continues behind
  obtain ⟨up, chain, before, after, wrapped, below, lay⟩ := displays.ready.lay
  have place := displays.place starts lay
  have chars : before ++ after = [] := empty _ lay.cut.here
  obtain ⟨rfl, rfl⟩ := List.append_eq_nil_iff.mp chars
  obtain ⟨-, closed⟩ := lay.cut.closed displays.ready.closed
  have goesOn := place.wrapped_iff (closed_more closed)
  have unwrapped : wrapped = false := by
    by_contra marked
    have size := (closed_head closed).2 (Bool.eq_true_of_not_eq_false marked)
    exact Nat.ne_of_lt displays.ready.inv.room size
  subst unwrapped
  have last : below = [] := by simpa using goesOn
  subst last
  have rest : line.after = [] := by
    simpa [textAfter, closing, symbols] using place.after.symm
  cases line
  cases none_
  cases rest
  rfl

theorem Shows.lineEnds (displays : Shows c above shown room s line) (starts : Starts above)
    (next : ∀ cur ∈ s.lines[s.characterPos.y]?, s.characterPos.x = cur.size →
      ∀ next ∈ s.lines[s.characterPos.y + 1]?, next.chars = [])
    {cur : FixedTextLine} (on : s.OnLine cur) (end_ : s.characterPos.x = cur.size)
    (more : s.characterPos.y + 1 < s.lines.length) : line.after = [] := by
  obtain ⟨up, chain, before, after, wrapped, below, lay⟩ := displays.ready.lay
  have place := displays.place starts lay
  have same : (⟨before ++ after, wrapped⟩ : FixedTextLine) = cur :=
    Option.some.inj (lay.cut.here.symm.trans on.1)
  subst same
  obtain rfl : after = [] := by
    rw [lay.cut.caret] at end_
    simp only [FixedTextLine.size, List.length_append] at end_
    exact List.length_eq_zero_iff.mp (by omega)
  have row : s.characterPos.y = (up ++ chain).length := by rw [lay.cut.caret]
  obtain ⟨-, closed⟩ := lay.cut.closed displays.ready.closed
  cases below with
  | nil =>
    rw [lay.cut.lines, row] at more
    simp only [List.length_append, List.length_singleton] at more
    omega
  | cons below_ rest =>
    have there : s.lines[s.characterPos.y + 1]? = some below_ := by
      rw [row, lay.cut.lines, List.getElem?_append_right (Nat.le_succ _),
        Nat.succ_sub (Nat.le_refl _), Nat.sub_self]
      rfl
    have empty := next _ on.1 end_ _ there
    have marked : wrapped = true := (place.wrapped_iff (closed_more closed)).mpr (by simp)
    have text := place.after
    rw [marked, textAfter, if_pos rfl, Layout.symbols_nil, List.nil_append] at text
    have unwrapped : below_.wrapped = false := by
      by_contra wraps
      have size := (closed_head (closed_tail closed)).2 (Bool.eq_true_of_not_eq_false wraps)
      rw [FixedTextLine.size, empty] at size
      exact Nat.ne_of_lt displays.ready.inv.room size
    cases rest with
    | nil => simpa [Layout.text, layout, symbols, empty] using text.symm
    | cons second rest =>
      rw [layout.text_cons (by simp)] at text
      have newline : Sym.newline ∈ symbols line.after := by
        rw [← text]
        simp [Layout.ending, layout, unwrapped]
      obtain ⟨a, -, same⟩ := List.mem_map.mp newline
      cases same

end

/-! One key of the command line. -/

def toKey : Press Nat → Key
  | .chr ch => .other ch
  | .backspace => .backspace
  | .left => .left
  | .right => .right
  | .home => .home
  | .end_ => .end_

/-- What the reader of the keyboard does with a key that is not Enter. -/
def pressKey (c : Config) (prompt : List Nat) (s : FixedTextArea) (key : Press Nat) :
    Option FixedTextArea :=
  (Terminal.handleInput c prompt (toKey key) false s).toOption

def styled (c : Config) (ch : Nat) : FixedCharacter := ⟨ch, c.textFGColor, c.textBGColor⟩

section

variable {above : List (Sym FixedCharacter)} {shown : List FixedCharacter} {room : Nat}
  {line line' : Line FixedCharacter} {prompt : List Nat}

theorem Shows.scrolledTo (displays : Shows c above shown room s line) {z : Int}
    (bound : s.ScrollBound z) : Shows c above shown room (s.scrolledTo z) line :=
  ⟨displays.ready.scrolledTo bound, displays.room, displays.text⟩

theorem Shows.unselected (displays : Shows c above shown room s line) (selects : Bool)
    (p q : UIPosition Nat) :
    Shows c above shown room (updateSelectedArea false selects p q s) line := by
  refine ⟨displays.ready.unselected fun _ => rfl, ?_, ?_⟩
  · cases selects <;> exact displays.room
  · rw [editor_unselected]
    exact displays.text

theorem handleInput_shows (displays : Shows c above shown room s line) (key : Key)
    (does : ∀ z, Shows c above shown room (s.scrolledTo z) line →
      (isTextModifyKey key = true → Visible c (s.scrolledTo z)) →
      ∃ t, Terminal.doKey c prompt key (s.scrolledTo z) = .ok t ∧
        Shows c above shown room t line') :
    ∃ t, Terminal.handleInput c prompt key false s = .ok t ∧
      Shows c above shown room t line' := by
  obtain ⟨z, scrolled, bound, visible⟩ := scrollToCaret_visible displays.ready key
  obtain ⟨t, done, displays'⟩ := does z (displays.scrolledTo bound) visible
  refine ⟨_, ?_, displays'.unselected (isSelectKey key) s.characterPos t.characterPos⟩
  simp only [Terminal.handleInput, validateCursorPos_ok displays.ready, scrolled, done, bind,
    Except.bind]

theorem insertKey_shows (displays : Shows c above shown room s line) {ch : Nat}
    (printable : is_command_key ch = false) :
    ∃ t, Terminal.insertKey c ch s = .ok t ∧
      Shows c above shown room t (line.press (.chr (styled c ch))) := by
  have newline : is_new_line ch = false := by
    have above_ : ¬ch < Keyboard_SPACE := by
      intro command
      simp [is_command_key, command] at printable
    simp only [Keyboard_SPACE] at above_
    simp only [is_new_line, Keyboard_ENTER, Keyboard_CTRL_J, Bool.or_eq_false_iff,
      beq_eq_false_iff_ne]
    omega
  have unselected : Terminal.editSelection s = s := by
    rw [Terminal.editSelection, ← displays.ready.plain]
  obtain ⟨t, done, displays'⟩ := insert_shows displays (styled c ch)
  refine ⟨t, ?_, displays'⟩
  simp only [Terminal.insertKey, isInsertableKey, printable, Bool.not_false, Bool.true_or, if_true,
    unselected, Terminal.insert, newline, Bool.false_eq_true, if_false]
  exact done

theorem pressKey_shows (displays : Shows c above shown room s line) (starts : Starts above)
    (length : shown.length = prompt.length) (fits : shown.length ≤ room) (wide : 2 ≤ room)
    {key : Press Nat} (allowed : KeyFits prompt s key) :
    ∃ t, pressKey c prompt s key = some t ∧
      Shows c above shown room t (line.press (key.map (styled c))) := by
  have done : ∃ t, Terminal.handleInput c prompt (toKey key) false s = .ok t ∧
      Shows c above shown room t (line.press (key.map (styled c))) := by
    refine handleInput_shows displays (toKey key) fun z here visible => ?_
    cases key with
    | chr ch => exact insertKey_shows here allowed
    | left =>
      exact moveleft_shows here starts length fits fun continues =>
        here.behindPrompt starts length continues (allowed continues)
    | backspace =>
      simp only [toKey, Terminal.doKey, here.ready.plain, Bool.false_eq_true, if_false]
      exact backspace_shows here starts length fits wide (visible rfl) fun continues =>
        here.emptyLine starts length continues (allowed continues).1 (allowed continues).2
    | right => exact moveright_shows here starts fun cur on => here.lineEnds starts allowed on
    | home => exact movehome_shows here starts length fits
    | end_ => exact moveend_shows here
  obtain ⟨t, done, displays'⟩ := done
  exact ⟨t, Fallible.toOption_some.mpr done, displays'⟩

end

/-! The prompt on a line of its own. -/

theorem updateCursorPosition_max {charPos : UIPosition Nat} {cursorPos : UIPosition Int}
    (ok : updateCursorPosition charPos cursorPos s = .ok t) :
    t.maxLineChars = s.maxLineChars := by
  obtain ⟨_, _, ok⟩ := Fallible.bind_ok_iff.mp ok
  obtain ⟨_, _, ok⟩ := Fallible.bind_ok_iff.mp ok
  cases ok
  rfl

theorem inlinemovehome_max (ok : inlinemovehome c s = .ok t) :
    t.maxLineChars = s.maxLineChars := by
  unfold inlinemovehome at ok
  split at ok
  · cases ok
    rfl
  · exact updateCursorPosition_max ok

theorem inlinemoveend_max (ok : inlinemoveend c s = .ok t) :
    t.maxLineChars = s.maxLineChars := by
  obtain ⟨line, _, ok⟩ := Fallible.bind_ok_iff.mp ok
  by_cases end_ : s.characterPos.x = line.size
  · rw [if_pos end_] at ok
    cases ok
    rfl
  · rw [if_neg end_] at ok
    exact updateCursorPosition_max ok

theorem movedown_max (ok : movedown c s = .ok t) : t.maxLineChars = s.maxLineChars := by
  unfold movedown at ok
  split at ok
  · cases ok
    rfl
  · obtain ⟨next, _, ok⟩ := Fallible.bind_ok_iff.mp ok
    dsimp only at ok
    split at ok
    · exact updateCursorPosition_max ok
    · obtain ⟨u, down, ok⟩ := Fallible.bind_ok_iff.mp ok
      have same := updateCursorPosition_max down
      cases ok
      exact same

theorem moveToNewLine_max {unwrap : Bool} (ok : moveToNewLine c unwrap s = .ok t) :
    t.maxLineChars = s.maxLineChars := by
  obtain ⟨s₁, home, ok⟩ := Fallible.bind_ok_iff.mp ok
  obtain ⟨s₂, down, ok⟩ := Fallible.bind_ok_iff.mp ok
  have here := (movedown_max down).trans (inlinemovehome_max home)
  by_cases more : unwrap = true
  · rw [if_pos more] at ok
    obtain ⟨s₃, end_, ok⟩ := Fallible.bind_ok_iff.mp ok
    obtain ⟨s₄, removed, ok⟩ := Fallible.bind_ok_iff.mp ok
    exact (inlinemovehome_max ok).trans ((removech_max removed).trans
      ((inlinemoveend_max end_).trans here))
  · rw [if_neg more] at ok
    cases ok
    exact here

theorem enter_max (ok : FixedTextArea.enter c s = .ok t) :
    t.maxLineChars = s.maxLineChars := by
  have split_ {line : FixedTextLine} (ok : splitLine c line s = .ok t) :
      t.maxLineChars = s.maxLineChars := by
    obtain ⟨u, grown, ok⟩ := Fallible.bind_ok_iff.mp ok
    have same := changeScrollHeight_max grown
    exact (moveToNewLine_max ok).trans same
  obtain ⟨line, _, ok⟩ := Fallible.bind_ok_iff.mp ok
  split at ok
  · obtain ⟨prev, _, ok⟩ := Fallible.bind_ok_iff.mp ok
    split at ok
    · cases ok
      rfl
    · exact split_ ok
  · exact split_ ok

theorem enter_shows (ready : Ready c s) :
    ∃ t, Terminal.enter c s = .ok t ∧
      Shows c (layout.text s.lines ++ [.newline]) [] s.maxLineChars t .empty := by
  obtain ⟨u, end_, moved, last, caret⟩ := moveend_moved ready
  have ready' := (ready.moved moved).1
  have fits : EnterFits u := by
    intro _ line here marked
    obtain ⟨above, below, split, length⟩ := SplitList.split_at here
    have none_ : below = [] := by
      rw [← moved.lines, split] at last
      rw [← length, List.length_append, List.length_cons] at last
      exact List.length_eq_zero_iff.mp (by omega)
    have closed := ready'.closed
    rw [split, closed_append (List.cons_ne_nil _ _)] at closed
    exact absurd none_ (closed_more closed.2 marked)
  obtain ⟨t, done, ready'', does⟩ := enter_text ready' fits
  have here : editor u = Editor.between (layout.text s.lines) [] := by
    rw [← moved.lines]
    exact Editor.eq_between_iff.mpr ⟨(List.append_nil _).symm, caret⟩
  rw [here, Editor.insert_iff] at does
  refine ⟨t, ?_, ready'', (enter_max done).trans moved.max, ?_⟩
  · simp only [Terminal.enter, end_, bind, Except.bind]
    exact done
  · rw [does]
    simp [Line.empty]

theorem ends_in_newline (above : List (Sym FixedCharacter)) : Starts (above ++ [.newline]) :=
  .inr (by simp)

section

variable {above : List (Sym FixedCharacter)} {room : Nat} {shown : List FixedCharacter}

theorem processOutput_shows (prompt : List Nat) {chars : List Nat}
    (printable : ∀ ch ∈ chars, is_command_key ch = false)
    (displays : Shows c above shown room s .empty) :
    ∃ t, Terminal.processOutput c prompt chars s = .ok t ∧
      Shows c above (shown ++ chars.map (styled c)) room t .empty := by
  induction chars generalizing s shown with
  | nil => exact ⟨s, rfl, by simpa using displays⟩
  | cons ch chars ih =>
    have typed : ∃ t, Terminal.handleInput c prompt (.other ch) false s = .ok t ∧
        Shows c above shown room t ⟨[styled c ch], []⟩ :=
      handleInput_shows displays (.other ch) fun z here _ =>
        insertKey_shows here (printable ch List.mem_cons_self)
    obtain ⟨t, done, here⟩ := typed
    have here' : Shows c above (shown ++ [styled c ch]) room t .empty := by
      refine ⟨here.ready, here.room, here.text.trans ?_⟩
      simp [Line.empty]
    obtain ⟨u, rest, all⟩ := ih (fun a mem => printable a (List.mem_cons_of_mem ch mem)) here'
    refine ⟨u, ?_, by simpa using all⟩
    simp only [Terminal.processOutput, done, bind, Except.bind]
    exact rest

theorem displayCommandLine_shows (ready : Ready c s) {prompt : List Nat}
    (printable : ∀ ch ∈ prompt, is_command_key ch = false) :
    ∃ t, Terminal.displayCommandLine c prompt s = .ok t ∧
      Shows c (layout.text s.lines ++ [.newline]) (prompt.map (styled c)) s.maxLineChars t
        .empty := by
  obtain ⟨z, scrolled, bound, -⟩ := scrollToCaret_visible ready (.other Keyboard_CTRL_J)
  obtain ⟨u, entered, here⟩ := enter_shows (ready.scrolledTo bound)
  have unselected : Terminal.editSelection (s.scrolledTo z) = s.scrolledTo z := by
    rw [Terminal.editSelection, ← ready.plain]
    rfl
  have newline : Terminal.handleInput c prompt (.other Keyboard_CTRL_J) false s =
      .ok (updateSelectedArea false false s.characterPos u.characterPos u) := by
    simp only [Terminal.handleInput, validateCursorPos_ok ready, scrolled, Terminal.doKey,
      Terminal.insertKey, unselected, Terminal.insert, bind, Except.bind]
    simp only [isInsertableKey, is_new_line, Keyboard_CTRL_J, Keyboard_ENTER, Nat.reduceBEq,
      Bool.or_true, if_true, entered]
    rfl
  obtain ⟨t, rest, all⟩ := processOutput_shows prompt printable
    (here.unselected false s.characterPos u.characterPos)
  refine ⟨t, ?_, by simpa using all⟩
  simp only [Terminal.displayCommandLine, Terminal.processOutput, newline, bind, Except.bind]
  exact rest

end

/-! The command line read back. -/

theorem commandLineStart_eq {up front rest : List FixedTextLine} (ends : layout.Ends up)
    (all : ∀ line ∈ front, line.wrapped = true) {k : Nat} (within : k ≤ front.length) :
    Terminal.commandLineStart (up ++ front ++ rest) (up.length + k) = .ok up.length := by
  induction k with
  | zero =>
    rcases List.eq_nil_or_concat up with rfl | ⟨first, prev, rfl⟩
    · rfl
    · rw [List.concat_eq_append] at ends ⊢
      have unwrapped : prev.wrapped = false := ends prev (by simp)
      have there : get (first ++ [prev] ++ front ++ rest) first.length = .ok prev := by
        rw [get_ok_iff, List.append_assoc, List.append_assoc]
        exact SplitList.get_length _ _ _
      rw [Nat.add_zero, List.length_append, List.length_singleton, Terminal.commandLineStart,
        there]
      simp only [bind, Except.bind, unwrapped, Bool.false_eq_true, if_false]
  | succ k ih =>
    have here : get (up ++ front ++ rest) (up.length + k) = .ok front[k] := by
      rw [get_ok_iff, List.append_assoc, List.getElem?_append_right (Nat.le_add_right _ _),
        Nat.add_sub_cancel_left, List.getElem?_append_left (by omega)]
      exact List.getElem?_eq_getElem (by omega)
    have wraps : front[k].wrapped = true := all _ (List.getElem_mem _)
    rw [← Nat.add_assoc, Terminal.commandLineStart, here]
    simp only [bind, Except.bind, wraps, if_true]
    exact ih (by omega)

theorem commandLineText_eq {lines : List FixedTextLine} {first : FixedTextLine}
    {below : List FixedTextLine} (prompt : List Nat) (split : lines = first :: below)
    (wide : prompt.length ≤ first.size) :
    Terminal.commandLineText prompt lines =
      ((lines.flatMap (·.chars)).drop prompt.length).map FixedCharacter.ch := by
  subst split
  rw [List.flatMap_cons, List.drop_append_of_le_length wide, List.map_append, List.map_flatMap]
  rfl

section

variable {above : List (Sym FixedCharacter)} {room : Nat} {shown : List FixedCharacter}
  {line : Line FixedCharacter} {prompt : List Nat}

theorem getCommandLine_shows (displays : Shows c above shown room s line)
    (starts : Starts above) (length : shown.length = prompt.length) (fits : shown.length ≤ room) :
    Terminal.getCommandLine prompt s = .ok (line.text.map FixedCharacter.ch) := by
  obtain ⟨up, chain, before, after, wrapped, below, lay⟩ := displays.ready.lay
  have place := displays.place starts lay
  obtain ⟨first, rest, paragraph, wide⟩ := place.prompt_fits (displays.room ▸ lay.full) fits
  have text : layout.text (chain ++ ⟨before ++ after, wrapped⟩ :: below) =
      symbols (shown ++ line.text) := by
    have whole := congrArg Editor.text displays.text
    simp only [editor, Editor.between, lay.cut.lines] at whole
    rw [List.append_assoc, layout.text_append (by simp), place.above, List.append_assoc,
      List.append_cancel_left_eq, ← Layout.symbols_append] at whole
    rw [whole, Line.text, List.append_assoc]
  have lines : s.lines = up ++ (chain ++ ⟨before ++ after, wrapped⟩ :: below) := by
    rw [lay.cut.lines, List.append_assoc]
  generalize chain ++ ⟨before ++ after, wrapped⟩ :: below = command at paragraph text lines
  obtain ⟨front, last, rfl⟩ := (List.eq_nil_or_concat command).resolve_left (by simp [paragraph])
  rw [List.concat_eq_append] at paragraph text lines
  obtain ⟨all, chars⟩ := layout.wrapped_of_text text
  have count : s.lines.length - 1 = up.length + front.length := by
    rw [lines, List.length_append, List.length_append, List.length_singleton]
    omega
  have start : Terminal.commandLineStart s.lines (s.lines.length - 1) = .ok up.length := by
    rw [count, lines, ← List.append_assoc]
    exact commandLineStart_eq lay.ends all (Nat.le_refl _)
  simp only [Terminal.getCommandLine, start, bind, Except.bind]
  rw [lines, List.drop_left, commandLineText_eq prompt paragraph (length ▸ wide)]
  have whole : (front ++ [last]).flatMap (·.chars) = shown ++ line.text := by
    rw [← chars]
    simp [layout]
  rw [whole, ← length, List.drop_left]

end

/-- At a soft wrap the caret has a place too many: two steps to the left of two characters
    are one. -/
example : ((Terminal.displayCommandLine narrowArea (Terminal.setPrompt [])
      (init narrowArea)).toOption.bind fun s =>
        runAll (pressKey narrowArea (Terminal.setPrompt [])) s
          [.chr 97, .chr 98, .left, .left, .chr 99]).map
        (Terminal.getCommandLine (Terminal.setPrompt [])) = some (.ok [97, 99, 98]) := by
  decide +kernel

end FixedText
