import UpanLibs.TextArea.Styled.LinesSpoil
import UpanLibs.TextArea.Styled.AreaTyping

/-!
DEL in a `TextArea`: it takes the character behind the caret and nothing else exactly where
the lines below can fill up the caret's line.
-/
namespace StyledText

open TextInput Fallible
open WrappedText (Layout Sym Editor Edit)
open WrappedText.Layout (symbols)

theorem rejoin_unwrapped {lines : List TextLine} {y : Nat} (wrapped : Bool)
    (above : layout.Ends (lines.take y)) : rejoin wrapped y lines = lines := by
  cases y with
  | zero => rfl
  | succ y =>
    rw [rejoin_succ]
    cases here : lines[y]? with
    | none => rw [List.modify_eq_self (by simpa using here)]
    | some prev =>
      obtain ⟨before, after, rfl, rfl⟩ := SplitList.split_at here
      have unwrapped : prev.wrapped = false := above prev (by
        rw [SplitList.take_length_succ]
        simp)
      rw [SplitList.modify_length, rejoined]
      simp [unwrapped]

theorem rejoin_append (wrapped : Bool) (above rest : List TextLine) :
    rejoin wrapped above.length (above ++ rest) = rejoin wrapped above.length above ++ rest := by
  rcases List.eq_nil_or_concat above with rfl | ⟨before, prev, rfl⟩
  · rfl
  · simp only [List.concat_eq_append, List.length_append, List.length_singleton, rejoin_succ,
      List.append_assoc, List.singleton_append, SplitList.modify_length]

theorem rejoin_newlines {above : List TextLine} (open_ : ¬ layout.Ends above) :
    (layout.textAbove (rejoin false above.length above)).count .newline =
      (layout.textAbove above).count .newline + 1 := by
  rcases List.eq_nil_or_concat above with rfl | ⟨before, prev, rfl⟩
  · exact absurd (by simp [Layout.Ends]) open_
  · have wrapped : prev.wrapped = true := by
      by_contra unwrapped
      exact open_ (by simpa [Layout.Ends, layout] using unwrapped)
    simp only [List.concat_eq_append, List.length_append, List.length_singleton, rejoin_succ,
      SplitList.modify_length, layout.textAbove_append, List.count_append]
    simp [Layout.textAbove, Layout.ending, layout, rejoined, wrapped, symbols_newlines]

namespace TextArea

variable {c : Config} {s t : TextArea}

/-- The base of the caret's line is on the canvas, where `removeLine` looks for it. -/
def Shown (s : TextArea) (y : Nat) (line : TextLine) : Prop :=
  getLineBaseY s.lines y s.scrollY - line.lineHeight + 1 < s.height

instance (s : TextArea) (y : Nat) (line : TextLine) : Decidable (s.Shown y line) :=
  inferInstanceAs (Decidable (_ < _))

/-- What the lines have to be for `removech` to take only what is behind the caret. -/
def RemovesNext (s : TextArea) : Prop :=
  let x := s.characterPos.x
  let y := s.characterPos.y
  let below := s.lines.drop (y + 1)
  ∃ line ∈ s.lines[y]?,
    if line.wrapped then
      if x < line.size then Refills s.maxLineCharWidth x (line.remove x (x + 1)) below
      else TakesOne s.maxLineCharWidth x line below
    else if x < line.size then True
    else if 0 < x then below ≠ [] ∧ Refills s.maxLineCharWidth x line below
    else layout.Ends (s.lines.take y) ∧ (below = [] ∨ s.Shown y line)

/-- The text without what is behind the caret, and the same lines where there is nothing. -/
structure Deletes (s t : TextArea) : Prop where
  text : s.editor.Does .delete t.editor
  flags : s.editor.caret = s.editor.text.length →
    t.lines.map (·.wrapped) = s.lines.map (·.wrapped)

theorem deleteLine_below {y : Nat} {line : TextLine}
    (here : s.lines[y]? = some line) (place : s.characterPos.y < y) :
    Returns (deleteLine y s)
      (Scrolled { s with lines := (rejoin line.wrapped y s.lines).eraseIdx y }) := by
  have row' := (List.getElem?_eq_some_iff.mp here).1
  have kept : Row { s with lines := (rejoin line.wrapped y s.lines).eraseIdx y } := by
    simp only [Row, List.length_eraseIdx, rejoin_length, if_pos row']
    omega
  unfold deleteLine removeLine
  simp only [get_ok_iff.mpr here, if_pos place, bind, Except.bind, ite_self]
  exact changeScrollHeight_ok kept _

theorem deleteLine_here {line : TextLine} (here : s.lines[s.characterPos.y]? = some line) :
    Returns (deleteLine s.characterPos.y s) (Scrolled { s with
      lines := (if s.characterPos.y < s.lines.length - 1 ∧ s.Shown s.characterPos.y line
        then (rejoin line.wrapped s.characterPos.y s.lines).eraseIdx s.characterPos.y
        else rejoin line.wrapped s.characterPos.y s.lines) }) := by
  have row := (List.getElem?_eq_some_iff.mp here).1
  unfold deleteLine removeLine
  simp only [get_ok_iff.mpr here, bind, Except.bind, Nat.lt_irrefl, if_false]
  unfold Shown
  by_cases shown : s.characterPos.y < s.lines.length - 1 ∧
      getLineBaseY s.lines s.characterPos.y s.scrollY - line.lineHeight + 1 < s.height
  · simp only [if_pos shown]
    refine changeScrollHeight_ok ?_ _
    simp only [Row, List.length_eraseIdx, rejoin_length, if_pos row]
    omega
  · simp only [if_neg shown]
    refine changeScrollHeight_ok ?_ _
    simpa only [Row, rejoin_length] using row

theorem Caret.drop {above below : List TextLine} {line : TextLine}
    (caret : Caret s above line below) : s.lines.drop s.characterPos.y = line :: below := by
  rw [caret.lines, caret.row, List.drop_left]

theorem Caret.take {above below : List TextLine} {line : TextLine}
    (caret : Caret s above line below) : s.lines.take s.characterPos.y = above := by
  rw [caret.lines, caret.row, List.take_left]

theorem Caret.below {above below : List TextLine} {line : TextLine}
    (caret : Caret s above line below) : s.lines.drop (s.characterPos.y + 1) = below := by
  rw [caret.lines, caret.row, SplitList.drop_length_succ]

theorem Caret.sound {above below : List TextLine} {line : TextLine}
    (caret : Caret s above line below) (sound : Sound s.maxLineCharWidth s.lines) :
    Sound s.maxLineCharWidth (line :: below) := by
  rw [caret.lines] at sound
  exact ((Sound.append (by simp)).mp sound).2

theorem Caret.caret {above below : List TextLine} {line : TextLine}
    (caret : Caret s above line below) :
    s.editor.caret = (layout.textAbove above).length + s.characterPos.x := by
  rw [caret.editor]
  simp only [Editor.between, List.length_append, Layout.symbols_length, caret.take_length]

theorem Caret.length {above below : List TextLine} {line : TextLine}
    (caret : Caret s above line below) :
    s.lines.length = s.characterPos.y + (below.length + 1) := by
  rw [caret.lines, caret.row, List.length_append, List.length_cons]

theorem wrapremove_settled (sound : Sound s.maxLineCharWidth s.lines) {above below : List TextLine}
    {line : TextLine} (caret : Caret s above line below) :
    let r := wrapremovech s.maxLineCharWidth s.lines.length s.characterPos.x (line :: below)
    Returns (wrapremove s) (Scrolled { s with lines := above ++ settled r }) := by
  have length := caret.length
  have removed := wrapremovech_removed s.lines.length s.characterPos.x line below (by omega)
    (caret.sound sound)
  have flows := (wrapremovech_flows s.maxLineCharWidth s.lines.length s.characterPos.x
    (line :: below)).1
  unfold wrapremove
  simp only [caret.drop, caret.take]
  generalize wrapremovech s.maxLineCharWidth s.lines.length s.characterPos.x (line :: below) = r
    at removed flows
  cases which : r.2 with
  | none =>
    rw [settled, which]
    exact .ok (.refl _)
  | some deleted =>
    obtain ⟨-, higher, rfl, prev, here, unwrapped⟩ := flows.reports deleted which
    have within := (removed.deleted _ which).2
    have length' := removed.length
    have row' : higher + 1 < r.1.length := by omega
    have place : above.length + (higher + 1) = above.length + higher + 1 := rfl
    have here' : (above ++ r.1)[s.characterPos.y + (higher + 1)]? = some r.1[higher + 1] := by
      rw [caret.row, List.getElem?_append_right (Nat.le_add_right _ _), Nat.add_sub_cancel_left]
      exact List.getElem?_eq_getElem row'
    have kept : rejoin r.1[higher + 1].wrapped (s.characterPos.y + (higher + 1)) (above ++ r.1) =
        above ++ r.1 := by
      refine rejoin_unwrapped _ ?_
      obtain ⟨before, after, lines, count⟩ := SplitList.split_at here
      rw [caret.row, lines, ← List.append_assoc, place, ← count, ← List.length_append,
        SplitList.take_length_succ]
      intro last last_
      have same : prev = last := by simpa using last_
      exact same ▸ unwrapped
    have deletion := deleteLine_below (s := { s with lines := above ++ r.1 }) here'
      (Nat.lt_add_of_pos_right (Nat.succ_pos higher))
    have erased : (above ++ r.1).eraseIdx (s.characterPos.y + (higher + 1)) =
        above ++ settled r := by
      rw [settled, which, caret.row, List.eraseIdx_append_of_length_le (Nat.le_add_right _ _),
        Nat.add_sub_cancel_left]
    simp only [kept, erased] at deletion
    exact deletion

variable {above below : List TextLine} {line next : TextLine}

structure Below (s : TextArea) (before : List TextLine) (prev line : TextLine)
    (below : List TextLine) : Prop where
  lines : s.lines = before ++ prev :: line :: below
  position : s.characterPos = ⟨0, before.length + 1⟩

theorem below_of_position {y : Nat} (position : s.characterPos = ⟨0, y + 1⟩)
    (inText : InText s.lines s.characterPos) :
    ∃ before prev line below, Below s before prev line below ∧ before.length = y := by
  obtain ⟨line, here, -⟩ := inText
  rw [position] at here
  obtain ⟨before, prev, below, lines, rfl⟩ := SplitList.split_two here
  exact ⟨before, prev, line, below, ⟨lines, position⟩, rfl⟩

variable {before : List TextLine} {prev : TextLine}

theorem Below.here (at_ : Below s before prev line below) :
    s.lines[before.length]? = some prev ∧ s.lines[before.length + 1]? = some line := by
  rw [at_.lines]
  refine ⟨SplitList.get_length _ _ _, ?_⟩
  rw [List.getElem?_append_right (Nat.le_succ _),
    show before.length.succ - before.length = 1 by omega]
  rfl

theorem Below.parts (at_ : Below s before prev line below) :
    s.lines.take before.length = before ∧ s.lines.drop (before.length + 1) = line :: below := by
  rw [at_.lines]
  exact ⟨List.take_left, SplitList.drop_length_succ _ _ _⟩

theorem Below.caret (at_ : Below s before prev line below) :
    Caret s (before ++ [prev]) line below := by
  refine ⟨by rw [at_.lines]; simp, ?_, ?_⟩ <;> rw [at_.position]
  · simp
  · exact Nat.zero_le _

theorem Below.offset (at_ : Below s before prev line below) :
    s.editor.caret = (layout.textAbove before).length + prev.size +
      if prev.wrapped then 0 else 1 := by
  have size : (layout.chars prev).length = prev.size := rfl
  have flag : layout.wrapped prev = prev.wrapped := rfl
  rw [at_.caret.caret, at_.position, layout.textAbove_append, Layout.textAbove, Layout.textAbove,
    Layout.ending, flag]
  simp only [List.append_nil, List.length_append, Layout.symbols_length, size]
  split <;> simp [Nat.add_assoc]

/-- What `wrapremove` leaves at the caret of a wrapped line. -/
structure WrapRemoved (s : TextArea) (above : List TextLine) (line : TextLine)
    (below : List TextLine) (t : TextArea) : Prop where
  position : t.characterPos = s.characterPos
  place : ∃ first rest, Caret t above first rest
  caret : t.editor.caret = (layout.textAbove above).length + s.characterPos.x
  keeps : t.editor.text = layout.textAbove above ++
      symbols (line.remove s.characterPos.x (s.characterPos.x + 1)).characters ++
        layout.text below ↔
    Refills s.maxLineCharWidth s.characterPos.x
      (line.remove s.characterPos.x (s.characterPos.x + 1)) below
  takes : t.editor.text = layout.textAbove above ++
      symbols (line.remove s.characterPos.x (s.characterPos.x + 1)).characters ++
        (layout.text below).drop 1 ↔
    TakesOne s.maxLineCharWidth s.characterPos.x
        (line.remove s.characterPos.x (s.characterPos.x + 1)) below ∨
      Refills s.maxLineCharWidth s.characterPos.x
        (line.remove s.characterPos.x (s.characterPos.x + 1)) below ∧ layout.text below = []
  shorter : Refills s.maxLineCharWidth s.characterPos.x
      (line.remove s.characterPos.x (s.characterPos.x + 1)) below → nextSize below = 0 →
    t.lines.length < s.lines.length

theorem wrapremove_removed (sound : Sound s.maxLineCharWidth s.lines)
    (caret : Caret s above line (next :: below)) (wrapped : line.wrapped = true) :
    ∃ t, wrapremove s = .ok t ∧ WrapRemoved s above line (next :: below) t := by
  have length := caret.length
  have sound' := caret.sound sound
  have enough : below.length + 1 < s.lines.length := by
    rw [List.length_cons] at length
    omega
  have removed := wrapremovech_removed s.lines.length s.characterPos.x line (next :: below)
    enough sound'
  have flows := (wrapremovech_flows s.maxLineCharWidth s.lines.length s.characterPos.x
    (line :: next :: below)).1
  have closes := wrapremovech_closes (x := s.characterPos.x) wrapped enough sound'
  obtain ⟨t, done, scrolled⟩ := wrapremove_settled sound caret
  generalize wrapremovech s.maxLineCharWidth s.lines.length s.characterPos.x
    (line :: next :: below) = r at removed flows closes scrolled
  have moved := scrolled.moved
  have length' := removed.length
  obtain ⟨first, rest, lines'⟩ := List.exists_cons_of_ne_nil
    (List.length_pos_iff.mp (show 0 < r.1.length by omega))
  obtain ⟨rest', settled_⟩ := flows.settled_first lines'
  have here : Caret t above first rest' := by
    refine ⟨by rw [moved.lines, settled_], by rw [moved.characterPos]; exact caret.row, ?_⟩
    rw [moved.characterPos]
    exact removed.column first (by rw [lines']; rfl) caret.column
  have text : t.editor.text = layout.textAbove above ++ layout.text (settled r) := by
    rw [editor, moved.lines, layout.text_append (by simp [settled_])]
  refine ⟨t, done, moved.characterPos, ⟨first, rest', here⟩, ?_, ?_, ?_, fun refills empty => ?_⟩
  · rw [here.caret, moved.characterPos]
  · rw [text, List.append_assoc, List.append_cancel_left_eq]
    exact closes.keeps_iff wrapped sound'.tail.ends
  · rw [text, List.append_assoc, List.append_cancel_left_eq]
    exact closes.takes_iff wrapped sound'.tail.ends
  · obtain ⟨deleted, which⟩ := Option.isSome_iff_exists.mp
      ((closes.refills refills).reports empty)
    have within := (removed.deleted deleted which).2
    have shorter : (settled r).length + 1 = r.1.length := by
      rw [settled, which]
      simp only [List.length_eraseIdx, length', if_pos within]
      omega
    rw [moved.lines, List.length_append, length, caret.row]
    omega

theorem remove_beyond {line : TextLine} {x : Nat} (beyond : line.size ≤ x) (last : Nat) :
    line.remove x last = line :=
  if_pos (.inr beyond)

theorem Caret.delete_text (caret : Caret s above line below)
    (does : s.editor.Does .delete t.editor) : t.editor.text =
      layout.textAbove above ++ symbols (line.characters.take s.characterPos.x) ++
        (symbols (line.characters.drop s.characterPos.x) ++ layout.tailText line below).tail := by
  rw [caret.editor, Editor.delete_iff] at does
  rw [does]
  rfl

theorem Caret.delete_iff (caret : Caret s above line below)
    (same : t.editor.caret = (layout.textAbove above).length + s.characterPos.x) :
    s.editor.Does .delete t.editor ↔ t.editor.text =
      layout.textAbove above ++ symbols (line.characters.take s.characterPos.x) ++
        (symbols (line.characters.drop s.characterPos.x) ++ layout.tailText line below).tail := by
  refine ⟨caret.delete_text, fun text => ?_⟩
  · have place := caret.caret
    rw [caret.editor] at place ⊢
    rw [Editor.delete_iff]
    have both : t.editor = ⟨t.editor.text, t.editor.caret⟩ := rfl
    rw [both, text, same, ← place]
    rfl

theorem Caret.end_iff (caret : Caret s above line below) :
    s.editor.caret = s.editor.text.length ↔
      s.characterPos.x = line.size ∧ layout.tailText line below = [] := by
  have column := caret.column
  have size : line.characters.length = line.size := rfl
  rw [caret.editor, ← List.length_eq_zero_iff]
  simp only [Editor.between, List.length_append, Layout.symbols_length, List.length_drop, size]
  omega

theorem drop_inside {x : Nat} (inside : x < line.size) (tail : List (Sym Character)) :
    (symbols (line.characters.drop x) ++ tail).tail =
      symbols (line.characters.drop (x + 1)) ++ tail := by
  have here : x < line.characters.length := inside
  rw [List.drop_eq_getElem_cons here]
  rfl

theorem drop_end {x : Nat} (end_ : ¬ x < line.size) :
    line.characters.take x = line.characters ∧ line.characters.drop x = [] :=
  ⟨List.take_of_length_le (Nat.le_of_not_lt end_), List.drop_of_length_le (Nat.le_of_not_lt end_)⟩

theorem tailText_unwrapped {line : TextLine} {below : List TextLine}
    (unwrapped : line.wrapped = false) (more : below ≠ []) :
    layout.tailText line below = .newline :: layout.text below := by
  rw [Layout.tailText, if_neg more, Layout.ending, if_neg (by simp [layout, unwrapped])]
  rfl

theorem exists_ok_iff {r : Except Fault TextArea} {P : TextArea → Prop} (done : r = .ok t) :
    (∃ t, r = .ok t ∧ P t) ↔ P t := by
  refine ⟨?_, fun holds => ⟨t, done, holds⟩⟩
  rintro ⟨t', done', holds⟩
  rwa [Except.ok.inj (done.symm.trans done')]

theorem Caret.removech (caret : Caret s above line below) : removech s =
    if line.wrapped then wrapremove s
    else if s.characterPos.x = line.size ∧ 0 < s.characterPos.x then
      wrapremove { s with lines := s.lines.set s.characterPos.y { line with wrapped := true } }
    else if s.characterPos.x = line.size then deleteLine s.characterPos.y s
    else .ok { s with
      lines := s.lines.set s.characterPos.y
          (line.remove s.characterPos.x (s.characterPos.x + 1)) } := by
  unfold TextArea.removech
  simp only [get_ok_iff.mpr caret.here, bind, Except.bind]

theorem delete_wrapped (sound : Sound s.maxLineCharWidth s.lines)
    (caret : Caret s above line below) (wrapped : line.wrapped = true)
    (inside : s.characterPos.x < line.size) :
    (∃ t, removech s = .ok t ∧ Deletes s t) ↔ Refills s.maxLineCharWidth s.characterPos.x
      (line.remove s.characterPos.x (s.characterPos.x + 1)) below := by
  have more := layout.ends_wrapped_more (caret.sound sound).ends wrapped
  obtain ⟨next, below, rfl⟩ := List.exists_cons_of_ne_nil more
  obtain ⟨t, done, removed⟩ := wrapremove_removed sound caret wrapped
  have does := caret.delete_iff removed.caret
  rw [drop_inside inside, layout.tailText_wrapped wrapped more, ← List.append_assoc,
    List.append_assoc (layout.textAbove above)] at does
  rw [caret.removech, if_pos wrapped, exists_ok_iff done, ← removed.keeps,
    remove_characters (Nat.le_succ _), Layout.symbols_append]
  refine ⟨fun deletes => does.mp deletes.text, fun text => ⟨does.mpr text, fun end_ => ?_⟩⟩
  have := (caret.end_iff.mp end_).1
  omega

theorem delete_wrapped_end (sound : Sound s.maxLineCharWidth s.lines)
    (caret : Caret s above line below) (wrapped : line.wrapped = true)
    (end_ : s.characterPos.x = line.size) :
    (∃ t, removech s = .ok t ∧ Deletes s t) ↔
      TakesOne s.maxLineCharWidth s.characterPos.x line below := by
  have more := layout.ends_wrapped_more (caret.sound sound).ends wrapped
  obtain ⟨next, below, rfl⟩ := List.exists_cons_of_ne_nil more
  obtain ⟨t, done, removed⟩ := wrapremove_removed sound caret wrapped
  have beyond : line.size ≤ s.characterPos.x := Nat.le_of_eq end_.symm
  obtain ⟨all, none_⟩ := drop_end (Nat.not_lt.mpr beyond)
  have tail := layout.tailText_wrapped wrapped more
  have does := caret.delete_iff removed.caret
  have last := caret.end_iff
  have takes := removed.takes
  have shorter := removed.shorter
  rw [remove_beyond beyond] at takes shorter
  rw [tail, all, none_, Layout.symbols_nil, List.nil_append, ← List.drop_one] at does
  rw [tail] at last
  rw [caret.removech, if_pos wrapped, exists_ok_iff done]
  constructor
  · intro deletes
    rcases takes.mp (does.mp deletes.text) with takes | ⟨refills, empty⟩
    · exact takes
    · -- nothing follows but an empty line, and that is deleted
      have flags := deletes.flags (last.mpr ⟨end_, empty⟩)
      have length := congrArg List.length flags
      rw [List.length_map, List.length_map] at length
      have zero : nextSize (next :: below) = 0 := by
        rw [layout.text_line] at empty
        have chars := congrArg List.length (List.append_eq_nil_iff.mp empty).1
        rw [Layout.symbols_length] at chars
        exact chars
      have less := shorter refills zero
      omega
  · intro one
    exact ⟨does.mpr (takes.mpr (.inl one)), fun end_ => absurd (last.mp end_).2 one.text_some⟩

theorem Caret.set (caret : Caret s above line below) (line' : TextLine)
    (column : s.characterPos.x ≤ line'.size) :
    Caret { s with lines := s.lines.set s.characterPos.y line' } above line' below := by
  refine ⟨?_, caret.row, column⟩
  simp only [caret.lines, caret.row, SplitList.set_length]

theorem delete_inside (caret : Caret s above line below) (unwrapped : line.wrapped = false)
    (inside : s.characterPos.x < line.size) : ∃ t, removech s = .ok t ∧ Deletes s t := by
  have apart : s.characterPos.x ≠ line.size := Nat.ne_of_lt inside
  have here := caret.set (line.remove s.characterPos.x (s.characterPos.x + 1)) (by
    rw [remove_size, if_pos inside]
    exact Nat.le_sub_one_of_lt inside)
  rw [caret.removech, if_neg (by simp [unwrapped]), if_neg (fun h => apart h.1), if_neg apart]
  refine ⟨_, rfl, (caret.delete_iff here.caret).mpr ?_, fun end_ => ?_⟩
  · have flag : layout.wrapped (line.remove s.characterPos.x (s.characterPos.x + 1)) =
        layout.wrapped line := remove_wrapped _ _ _
    have chars : layout.chars (line.remove s.characterPos.x (s.characterPos.x + 1)) =
        line.characters.take s.characterPos.x ++ line.characters.drop (s.characterPos.x + 1) :=
      remove_characters (Nat.le_succ _)
    rw [drop_inside inside, editor, here.lines, layout.text_append (by simp), layout.text_line,
      layout.tailText_same below flag, chars, Layout.symbols_append]
    simp only [List.append_assoc]
  · have := (caret.end_iff.mp end_).1
    omega

theorem delete_end (sound : Sound s.maxLineCharWidth s.lines) (caret : Caret s above line below)
    (unwrapped : line.wrapped = false) (end_ : s.characterPos.x = line.size)
    (some_ : 0 < s.characterPos.x) :
    (∃ t, removech s = .ok t ∧ Deletes s t) ↔
      below ≠ [] ∧ Refills s.maxLineCharWidth s.characterPos.x line below := by
  have beyond : line.size ≤ s.characterPos.x := Nat.le_of_eq end_.symm
  obtain ⟨all, none_⟩ := drop_end (Nat.not_lt.mpr beyond)
  have unchanged : TextLine.remove { line with wrapped := true } s.characterPos.x
      (s.characterPos.x + 1) = { line with wrapped := true } := if_pos (.inr beyond)
  have joined := caret.set { line with wrapped := true } (Nat.le_of_eq end_)
  rw [caret.removech, if_neg (by simp [unwrapped]), if_pos ⟨end_, some_⟩]
  cases below with
  | nil =>
    have drop := joined.drop
    have take := joined.take
    have length := joined.length
    simp only at drop take length
    unfold wrapremove
    simp only [drop, take, length, List.length_nil, Nat.zero_add, wrapremovech_last (.inr rfl),
      unchanged]
    rw [exists_ok_iff rfl]
    refine ⟨fun deletes => ?_, fun h => absurd rfl h.1⟩
    have flags := deletes.flags (caret.end_iff.mpr ⟨end_, rfl⟩)
    rw [caret.lines] at flags
    simp [unwrapped] at flags
  | cons next below =>
    rw [caret.lines] at sound
    obtain ⟨aboveFits, sound⟩ := (Sound.append (by simp)).mp sound
    have sound' : Sound s.maxLineCharWidth
        (s.lines.set s.characterPos.y { line with wrapped := true }) := by
      rw [show s.lines.set s.characterPos.y { line with wrapped := true } = _ from joined.lines]
      exact (Sound.append (by simp)).mpr ⟨aboveFits,
        .cons (List.cons_ne_nil _ _) ((sound.fits line (by simp)).of_same rfl rfl) sound.tail⟩
    obtain ⟨t, done, removed⟩ := wrapremove_removed sound' joined rfl
    have keeps := removed.keeps
    simp only [unchanged] at keeps
    have does := caret.delete_iff removed.caret
    have more := tailText_unwrapped unwrapped (List.cons_ne_nil next below)
    rw [all, none_, more] at does
    rw [exists_ok_iff done]
    constructor
    · intro deletes
      exact ⟨List.cons_ne_nil _ _, keeps.mp (does.mp deletes.text)⟩
    · rintro ⟨-, refills⟩
      refine ⟨does.mpr (keeps.mpr refills), fun at_ => ?_⟩
      have empty := (caret.end_iff.mp at_).2
      rw [more] at empty
      cases empty

theorem Caret.editor_empty (caret : Caret s above line below) (empty : line.size = 0) :
    s.editor = .between (layout.textAbove above) (layout.tailText line below) := by
  have none_ : line.characters = [] := List.length_eq_zero_iff.mp empty
  rw [caret.editor, none_, List.take_nil, List.drop_nil, Layout.symbols_nil, List.append_nil,
    List.nil_append]

theorem deleteLine_empty (caret : Caret s above line below) (unwrapped : line.wrapped = false) :
    Returns (deleteLine s.characterPos.y s) fun t => t.characterPos = s.characterPos ∧
      t.lines = rejoin false above.length above ++
        if below ≠ [] ∧ s.Shown s.characterPos.y line then below else line :: below := by
  refine (deleteLine_here caret.here).mono fun t scrolled => ⟨scrolled.moved.characterPos, ?_⟩
  have length := caret.length
  have more : s.characterPos.y < s.lines.length - 1 ↔ below ≠ [] := by
    rw [← List.length_pos_iff]
    omega
  have whole := rejoin_append false above (line :: below)
  have width : (rejoin false above.length above).length = above.length := rejoin_length _ _ _
  have erased := SplitList.eraseIdx_length (rejoin false above.length above) below line
  rw [width] at erased
  rw [scrolled.moved.lines]
  simp only [more, unwrapped]
  rw [caret.lines, caret.row, whole, erased]
  split <;> rfl

theorem not_deletes_open (caret : Caret s above line below) (unwrapped : line.wrapped = false)
    (empty : line.size = 0) (open_ : ¬ layout.Ends above)
    (lines : t.lines = rejoin false above.length above ++
      if below ≠ [] ∧ s.Shown s.characterPos.y line then below else line :: below) :
    ¬ Deletes s t := by
  rintro ⟨does, -⟩
  rw [caret.editor_empty empty, Editor.delete_iff] at does
  have newlines := congrArg (·.text.count .newline) does
  have more := rejoin_newlines open_
  have same : (layout.text (line :: below)).count .newline =
      (layout.tailText line below).count .newline := by
    rw [layout.text_line, List.count_append, symbols_newlines, Nat.zero_add]
  have less := (List.tail_sublist (layout.tailText line below)).count_le .newline
  simp only [editor, lines, Editor.between, List.count_append] at newlines
  split at newlines
  next h =>
    have tail := tailText_unwrapped unwrapped h.1
    rw [layout.text_append h.1, List.count_append, tail, List.tail_cons] at newlines
    omega
  next =>
    rw [layout.text_append (List.cons_ne_nil _ _), List.count_append, same] at newlines
    omega

theorem deletes_last (caret : Caret s above line []) (empty : line.size = 0)
    (lines : t.lines = s.lines) (same : t.characterPos = s.characterPos) : Deletes s t := by
  have here : t.editor = s.editor := by rw [editor, editor, lines, same]
  refine ⟨?_, fun _ => by rw [lines]⟩
  rw [here, caret.editor_empty empty]
  exact Editor.delete_end _

theorem deletes_shown (caret : Caret s above line below) (unwrapped : line.wrapped = false)
    (empty : line.size = 0) (more : below ≠ []) (lines : t.lines = above ++ below)
    (same : t.characterPos = s.characterPos) : Deletes s t := by
  have tail := tailText_unwrapped unwrapped more
  have column : s.characterPos.x = 0 := Nat.le_zero.mp (empty ▸ caret.column)
  obtain ⟨next, below, rfl⟩ := List.exists_cons_of_ne_nil more
  have here : Caret t above next below :=
    ⟨lines, same ▸ caret.row, by rw [same, column]; exact Nat.zero_le _⟩
  refine ⟨?_, fun end_ => ?_⟩
  · rw [caret.editor_empty empty, Editor.delete_iff, tail, List.tail_cons, here.editor, same,
      column, layout.text_line]
    simp [Editor.between, layout]
  · have empty' := (caret.end_iff.mp end_).2
    rw [tail] at empty'
    cases empty'

theorem not_deletes_hidden (caret : Caret s above line below) (unwrapped : line.wrapped = false)
    (empty : line.size = 0) (more : below ≠ []) (lines : t.lines = s.lines) : ¬ Deletes s t := by
  rintro ⟨does, -⟩
  have before := congrArg (·.text.length) (caret.editor_empty empty)
  rw [caret.editor_empty empty, Editor.delete_iff, tailText_unwrapped unwrapped more] at does
  have after := congrArg (·.text.length) does
  simp only [editor, lines, Editor.between, List.length_append, List.tail_cons,
    tailText_unwrapped unwrapped more, List.length_cons] at before after
  omega

theorem delete_empty (caret : Caret s above line below) (unwrapped : line.wrapped = false)
    (empty : line.size = 0) : (∃ t, removech s = .ok t ∧ Deletes s t) ↔
      layout.Ends above ∧ (below = [] ∨ s.Shown s.characterPos.y line) := by
  have column : s.characterPos.x = 0 := Nat.le_zero.mp (empty ▸ caret.column)
  obtain ⟨t, done, same, lines⟩ := deleteLine_empty caret unwrapped
  rw [caret.removech, if_neg (by simp [unwrapped]), if_neg (by simp [column]),
    if_pos (column.trans empty.symm), exists_ok_iff done]
  by_cases ends : layout.Ends above
  · have kept : rejoin false above.length above = above :=
      rejoin_unwrapped false (by rwa [List.take_length])
    rw [kept] at lines
    by_cases last : below = []
    · subst last
      rw [if_neg (fun h => h.1 rfl), ← caret.lines] at lines
      exact ⟨fun _ => ⟨ends, .inl rfl⟩, fun _ => deletes_last caret empty lines same⟩
    · by_cases shown : s.Shown s.characterPos.y line
      · rw [if_pos ⟨last, shown⟩] at lines
        exact ⟨fun _ => ⟨ends, .inr shown⟩,
          fun _ => deletes_shown caret unwrapped empty last lines same⟩
      · rw [if_neg (fun h => shown h.2), ← caret.lines] at lines
        exact ⟨fun deletes => absurd deletes (not_deletes_hidden caret unwrapped empty last lines),
          fun h => absurd h.2 (not_or.mpr ⟨last, shown⟩)⟩
  · exact ⟨fun deletes => absurd deletes (not_deletes_open caret unwrapped empty ends lines),
      fun h => absurd h.1 ends⟩

theorem deletes_at_iff (caret : Caret s above line below)
    (sound : Sound s.maxLineCharWidth s.lines) :
    (∃ t, removech s = .ok t ∧ Deletes s t) ↔ RemovesNext s := by
  have column := caret.column
  simp only [RemovesNext, caret.here, caret.below, caret.take, Option.mem_def, Option.some.injEq,
    exists_eq_left']
  by_cases wrapped : line.wrapped = true
  · rw [if_pos wrapped]
    by_cases inside : s.characterPos.x < line.size
    · rw [if_pos inside]
      exact delete_wrapped sound caret wrapped inside
    · rw [if_neg inside]
      exact delete_wrapped_end sound caret wrapped (by omega)
  · have unwrapped : line.wrapped = false := by simpa using wrapped
    rw [if_neg wrapped]
    by_cases inside : s.characterPos.x < line.size
    · rw [if_pos inside]
      exact iff_of_true (delete_inside caret unwrapped inside) trivial
    · rw [if_neg inside]
      by_cases some_ : 0 < s.characterPos.x
      · rw [if_pos some_]
        exact delete_end sound caret unwrapped (by omega) some_
      · rw [if_neg some_]
        exact delete_empty caret unwrapped (by omega)

theorem removech_iff (s : TextArea) (lines : LineStructure s) :
    (∃ t, removech s = .ok t ∧ Deletes s t) ↔ RemovesNext s := by
  obtain ⟨sound, inText⟩ := lineStructure_iff.mp lines
  obtain ⟨above, line, below, caret⟩ := caret_of_inText inText
  exact deletes_at_iff caret sound

theorem removech_iff_wide :
    let a : Character := ⟨97, 16, false, false, 0, 0⟩
    let s := { init plainArea with
      lines := [⟨List.replicate 46 a, 376, 16, true⟩, ⟨[{ a with fontSize := 40 }], 28, 40, false⟩]
      characterPos := ⟨45, 0⟩ }
    (∃ t, removech s = .ok t ∧ Deletes s t) ↔ RemovesNext s :=
  removech_iff _ (by decide +kernel)

/-- DEL at the last column of a line that goes on with a wide character takes that one too. -/
theorem delete_takes_wide_character :
    ∃ s, Transition.runAll (step plainArea) (init plainArea)
        (List.replicate 46 (.key (.other 97) false) ++ [.font 40, .key (.other 98) false,
          .key .up false, .key .end_ false, .key .left false]) = some s ∧
      LineStructure s ∧ ∀ t, removech s = .ok t → ¬ Deletes s t := by
  have reached : ((Transition.runAll (step plainArea) (init plainArea)
      (List.replicate 46 (.key (.other 97) false) ++ [.font 40, .key (.other 98) false,
        .key .up false, .key .end_ false, .key .left false])).any fun s =>
      decide (LineStructure s) && decide (Always (removech s) fun t =>
        ¬ s.editor.Does .delete t.editor)) = true := by
    decide +kernel
  obtain ⟨s, here, all⟩ := (Option.any_eq_true _ _).mp reached
  simp only [Bool.and_eq_true, decide_eq_true_eq] at all
  exact ⟨s, here, all.1, fun t done deletes => all.2 t done deletes.text⟩

end TextArea
end StyledText
