import UpanLibs.TextArea.Styled.AreaPaste
import UpanLibs.TextArea.Styled.LinesCharacters

/-!
The characters of a `TextArea` over a run: the moves change no line, and typing puts no newline
into one.
-/
namespace StyledText

open TextInput Fallible

namespace TextArea

variable {c : Config} {s t : TextArea} {p : Character → Prop}

/-! What leaves the lines alone. -/

def SameLines (s : TextArea) (r : Except Fault TextArea) : Prop :=
  Always r fun t => t.lines = s.lines

theorem SameLines.bind {r : Except Fault TextArea} {f : TextArea → Except Fault TextArea}
    (first : SameLines s r) (rest : ∀ t, SameLines t (f t)) : SameLines s (r >>= f) :=
  Always.bind first fun t same u ok => (rest t u ok).trans same

theorem SameLines.of_eq {r : Except Fault TextArea} (same : SameLines t r)
    (lines : t.lines = s.lines) : SameLines s r :=
  fun u ok => (same u ok).trans lines

theorem updateCursorPosition_same (charPos : UIPosition Nat) (cursorPos : UIPosition Int)
    (s : TextArea) : SameLines s (updateCursorPosition charPos cursorPos s) :=
  Always.behind fun _ => Always.behind fun _ => .ok rfl

theorem vscroll_same (rows : Int) (s : TextArea) : SameLines s (vscroll rows s) := by
  refine Always.behind fun _ => Always.behind fun _ => .ok ?_
  split
  · rfl
  · rfl

theorem scrollToCoverEmptyArea_same (s : TextArea) : SameLines s (scrollToCoverEmptyArea s) := by
  unfold scrollToCoverEmptyArea
  extract_lets
  split
  · exact vscroll_same _ s
  · exact .ok rfl

theorem changeScrollHeight_same (delta : Int) (s : TextArea) :
    SameLines s (changeScrollHeight delta s) := by
  unfold changeScrollHeight
  extract_lets
  split
  · exact (scrollToCoverEmptyArea_same _).of_eq rfl
  · exact .ok rfl

theorem linesAdded_same (added : Nat) (s : TextArea) : SameLines s (linesAdded added s) := by
  induction added generalizing s with
  | zero => exact .ok rfl
  | succ added ih => exact (changeScrollHeight_same _ s).bind ih

theorem scrollToY_same (curPosY : Int) (charPosY : Nat) (s : TextArea) :
    SameLines s (scrollToY curPosY charPosY s) := by
  unfold scrollToY
  split
  · exact Always.behind fun _ => vscroll_same _ s
  split
  · exact vscroll_same _ s
  · exact .ok rfl

theorem moveup_same (c : Config) (s : TextArea) : SameLines s (moveup c s) := by
  unfold moveup
  split
  · exact .ok rfl
  · refine Always.behind fun _ => Always.behind fun _ => ?_
    extract_lets
    split
    · exact updateCursorPosition_same _ _ s
    · exact (updateCursorPosition_same _ _ s).bind fun _ => .ok rfl

theorem movedown_same (c : Config) (s : TextArea) : SameLines s (movedown c s) := by
  unfold movedown
  split
  · exact .ok rfl
  · refine Always.behind fun _ => ?_
    extract_lets
    split
    · exact updateCursorPosition_same _ _ s
    · exact (updateCursorPosition_same _ _ s).bind fun _ => .ok rfl

theorem inlinemovehome_same (c : Config) (s : TextArea) : SameLines s (inlinemovehome c s) := by
  unfold inlinemovehome
  split
  · exact .ok rfl
  · exact updateCursorPosition_same _ _ s

theorem inlinemoveend_same (s : TextArea) : SameLines s (inlinemoveend s) := by
  refine Always.behind fun _ => ?_
  split
  · exact .ok rfl
  · exact updateCursorPosition_same _ _ s

theorem moveleft_same (c : Config) (s : TextArea) : SameLines s (moveleft c s) := by
  unfold moveleft
  split
  · split
    · exact .ok rfl
    · exact (moveup_same c s).bind inlinemoveend_same
  · exact Always.behind fun _ => Always.behind fun _ => updateCursorPosition_same _ _ s

theorem moveright_same (c : Config) (s : TextArea) : SameLines s (moveright c s) := by
  refine Always.behind fun _ => ?_
  split
  · split
    · exact .ok rfl
    · exact (inlinemovehome_same c s).bind (movedown_same c)
  · exact Always.behind fun _ => updateCursorPosition_same _ _ s

theorem moveToLine_same (c : Config) (info : LineInfo) (s : TextArea) :
    SameLines s (moveToLine c info s) := updateCursorPosition_same _ _ s

theorem pageup_same (c : Config) (s : TextArea) : SameLines s (pageup c s) :=
  Always.behind fun _ => (vscroll_same _ s).bind fun t =>
    Always.behind fun info => moveToLine_same c info t

theorem pagedown_same (c : Config) (s : TextArea) : SameLines s (pagedown c s) :=
  Always.behind fun _ => (vscroll_same _ s).bind fun t =>
    Always.behind fun info => (moveToLine_same c info t).bind inlinemoveend_same

theorem copySelection_same (c : Config) (s : TextArea) : SameLines s (copySelection c s) := by
  unfold copySelection
  split
  · refine Always.behind fun _ => ?_
    extract_lets
    split
    · exact .ok rfl
    · exact Always.behind fun _ => .ok rfl
  · exact .ok rfl

/-! What takes characters out of the lines or moves them. -/

def KeepsCharacters (p : Character → Prop) (s : TextArea) (r : Except Fault TextArea) : Prop :=
  LinesOf p s.lines → Always r fun t => LinesOf p t.lines

theorem SameLines.keeps {r : Except Fault TextArea} (same : SameLines s r) :
    KeepsCharacters p s r := by
  intro all t ok
  rw [same t ok]
  exact all

theorem KeepsCharacters.bind {r : Except Fault TextArea} {f : TextArea → Except Fault TextArea}
    (first : KeepsCharacters p s r) (rest : ∀ t, KeepsCharacters p t (f t)) :
    KeepsCharacters p s (r >>= f) :=
  fun all => Always.bind (first all) rest

theorem deleteLine_keepsCharacters (y : Nat) (s : TextArea) :
    KeepsCharacters p s (deleteLine y s) := by
  intro all
  have removed : Always (removeLine y s.characterPos.y s) fun r => LinesOf p r.1 := by
    refine Always.behind fun line => ?_
    extract_lets visibleBaseY lines
    have lines_ : LinesOf p lines := all.rejoin line.wrapped y
    have erased : LinesOf p (lines.eraseIdx y) :=
      fun line mem => lines_ line (List.mem_of_mem_eraseIdx mem)
    split
    · exact .ok erased
    split
    · exact .ok erased
    · exact .ok lines_
  exact removed.bind fun ⟨lines, height⟩ all' => (changeScrollHeight_same _ _).keeps all'

theorem wrapremove_keepsCharacters (s : TextArea) : KeepsCharacters p s (wrapremove s) := by
  intro all
  unfold wrapremove
  extract_lets y removed s'
  have below : LinesOf p (s.lines.drop y) := fun line mem => all line (List.mem_of_mem_drop mem)
  have all' : LinesOf p s'.lines := linesOf_append.mpr
    ⟨fun line mem => all line (List.mem_of_mem_take mem), below.wrapremovech _ _⟩
  split
  · exact deleteLine_keepsCharacters _ s' all'
  · exact .ok all'

theorem removech_keepsCharacters (s : TextArea) : KeepsCharacters p s (removech s) := by
  intro all
  refine (all.get _).bind fun line line_ => ?_
  have wrapped : LineOf p { line with wrapped := true } := line_
  split
  · exact wrapremove_keepsCharacters s all
  split
  · exact wrapremove_keepsCharacters _ (all.set wrapped _)
  split
  · exact deleteLine_keepsCharacters _ s all
  · exact .ok (all.set (line_.remove _ _) _)

theorem backspace_keepsCharacters (c : Config) (s : TextArea) :
    KeepsCharacters p s (backspace c s) := by
  unfold backspace
  split
  · exact fun all => .ok all
  · exact (moveleft_same c s).keeps.bind removech_keepsCharacters

theorem removeAll_keepsCharacters (charCount : Nat) (s : TextArea) :
    KeepsCharacters p s (removeAll charCount s) := by
  induction charCount generalizing s with
  | zero => exact fun all => .ok all
  | succ charCount ih => exact (removech_keepsCharacters s).bind ih

theorem removeLines_keepsCharacters (deleteLineY count : Nat) (s : TextArea) :
    KeepsCharacters p s (removeLines deleteLineY count s) := by
  induction count generalizing s with
  | zero => exact fun all => .ok all
  | succ count ih => exact (deleteLine_keepsCharacters deleteLineY s).bind ih

theorem editSelection_keepsCharacters (c : Config) (s : TextArea) :
    KeepsCharacters p s (editSelection c s) := by
  intro all
  unfold editSelection
  split
  · have started : Always (startSelection c s) fun r => LinesOf p r.1.lines := by
      refine Always.behind fun _ => ?_
      refine Always.bind ((updateCursorPosition_same _ _ s).keeps all) fun t moved => ?_
      refine Always.bind ((scrollToY_same _ _ t).keeps moved) fun u scrolled => ?_
      extract_lets area u'
      split
      · exact .ok scrolled
      · refine Always.bind (removeLines_keepsCharacters _ _ u' scrolled) fun v removed => ?_
        exact Always.behind fun _ => .ok removed
    exact started.bind fun ⟨t, charCount⟩ all' => removeAll_keepsCharacters charCount t all'
  · exact .ok all

theorem onResize_keepsCharacters (c : Config) (s : TextArea) :
    KeepsCharacters p s (onResize c s) := by
  intro all
  have realigned (s : TextArea) (all : LinesOf p s.lines) : Always (realign s) (LinesOf p) := by
    unfold realign
    split
    · split
      · exact .ok (List.forall_mem_nil _)
      next line below lines =>
        rw [lines] at all
        obtain ⟨line_, below_⟩ := linesOf_cons.mp all
        exact realignOnWidthIncrease_of 0 line_ below_
    split
    · exact realignOnWidthDecrease_of _ (List.forall_mem_nil p) all
    · exact .ok all
  have scrolled (count : Nat) (s : TextArea) :
      (recalculateScrollYOnResize count s).lines = s.lines := by
    unfold recalculateScrollYOnResize
    extract_lets
    split
    · rfl
    · rfl
  have placed (count : Nat) (s : TextArea) : SameLines s (recalculateCursorOnResize c count s) := by
    unfold recalculateCursorOnResize
    extract_lets
    split
    · exact Always.behind fun _ => .ok rfl
    · exact .ok rfl
  unfold onResize
  split
  · extract_lets t cursorCharCount
    refine Always.behind fun info => ?_
    extract_lets scrollYCharCount
    refine (realigned t all).bind fun lines all' => ?_
    refine (placed _ _).keeps ?_
    rw [scrolled]
    exact all'
  · exact .ok all

/-! What puts characters in. -/

theorem enter_keepsCharacters (c : Config) (s : TextArea) : KeepsCharacters p s (enter c s) := by
  intro all
  have moved (unwrap : Bool) (s : TextArea) : KeepsCharacters p s (moveToNewLine c unwrap s) := by
    refine (inlinemovehome_same c s).keeps.bind fun t => (movedown_same c t).keeps.bind fun u => ?_
    split
    · exact (inlinemoveend_same u).keeps.bind fun v =>
        (removech_keepsCharacters v).bind fun w => (inlinemovehome_same c w).keeps
    · exact fun all => .ok all
  have split_ (curLine : TextLine) (line_ : LineOf p curLine) :
      Always (splitLine c curLine s) fun t => LinesOf p t.lines := by
    unfold splitLine
    extract_lets x y
    refine ((newTextLine_of p _).insertAll 0 fun ch mem =>
      line_ ch (List.mem_of_mem_drop mem)).bind fun newLine new_ => ?_
    extract_lets newLine'
    have shorter : LineOf p { curLine.remove x curLine.size with wrapped := false } :=
      line_.remove x curLine.size
    have lines : LinesOf p ((s.lines.set y
        { curLine.remove x curLine.size with wrapped := false }).insertIdx (y + 1) newLine') := by
      intro line mem
      obtain rfl | old := List.eq_or_mem_of_mem_insertIdx mem
      · exact new_
      · exact all.set shorter y line old
    exact Always.bind ((changeScrollHeight_same _ _).keeps lines) fun t => moved _ t
  refine (all.get _).bind fun curLine line_ => ?_
  split
  · refine (all.get _).bind fun prevLine prev_ => ?_
    have joined : LineOf p { prevLine with wrapped := false } := prev_
    split
    · exact .ok (all.set joined _)
    · exact split_ curLine line_
  · exact split_ curLine line_

theorem doInsert_keepsCharacters (c : Config) {ch : Character} (here : p ch) (s : TextArea) :
    KeepsCharacters p s (doInsert c ch s) := by
  intro all
  have below : LinesOf p (s.lines.drop s.characterPos.y) :=
    fun line mem => all line (List.mem_of_mem_drop mem)
  unfold doInsert
  extract_lets x y
  refine (below.insertFrom _ x y (by simpa using here)).bind fun ⟨lines, added⟩ new_ => ?_
  have all' : LinesOf p (s.lines.take y ++ lines) := linesOf_append.mpr
    ⟨fun line mem => all line (List.mem_of_mem_take mem), new_⟩
  refine Always.bind ((linesAdded_same added _).keeps all') fun t grown => ?_
  refine Always.behind fun line => ?_
  split
  · exact ((updateCursorPosition_same _ _ t).bind (movedown_same c)).keeps grown
  · exact (updateCursorPosition_same _ _ t).keeps grown

/-- A character that `insert` puts into a line. -/
def NoNewline (ch : Character) : Prop := is_new_line ch.ch = false

theorem noNewlines_iff {lines : List TextLine} : NoNewlines lines ↔ LinesOf NoNewline lines := by
  unfold NoNewlines allCharacters
  rw [List.forall_mem_flatMap]
  rfl

theorem insert_keepsCharacters (c : Config) (ch : Character) (s : TextArea) :
    KeepsCharacters NoNewline s (insert c ch s) := by
  unfold insert
  split
  · exact enter_keepsCharacters c s
  next plain => exact doInsert_keepsCharacters c (Bool.eq_false_of_not_eq_true plain) s

theorem insertKey_keepsCharacters (c : Config) (ch : Nat) (s : TextArea) :
    KeepsCharacters NoNewline s (insertKey c ch s) := by
  unfold insertKey
  split
  · exact (editSelection_keepsCharacters c s).bind fun t => insert_keepsCharacters c _ t
  · exact fun all => .ok all

theorem insertEach_keepsCharacters (c : Config) (characters : List Character) (s : TextArea) :
    KeepsCharacters NoNewline s (insertEach c characters s) := by
  induction characters generalizing s with
  | nil => exact fun all => .ok all
  | cons ch characters ih => exact (insert_keepsCharacters c ch s).bind ih

theorem selectAll_lines (s : TextArea) : (selectAll s).lines = s.lines := by
  unfold selectAll
  extract_lets
  split
  · rfl
  split
  · rfl
  · rfl

theorem doKey_keepsCharacters (c : Config) (key : Key) (s : TextArea) :
    KeepsCharacters NoNewline s (doKey c key s) := by
  cases key with
  | up => exact (moveup_same c s).keeps
  | down => exact (movedown_same c s).keeps
  | left => exact (moveleft_same c s).keeps
  | right => exact (moveright_same c s).keeps
  | home => exact (inlinemovehome_same c s).keeps
  | end_ => exact (inlinemoveend_same s).keeps
  | pageUp => exact (pageup_same c s).keeps
  | pageDown => exact (pagedown_same c s).keeps
  | del =>
    simp only [doKey]
    split
    · exact editSelection_keepsCharacters c s
    · exact removech_keepsCharacters s
  | backspace =>
    simp only [doKey]
    split
    · exact editSelection_keepsCharacters c s
    · exact backspace_keepsCharacters c s
  | selectAll => exact SameLines.keeps (.ok (selectAll_lines s))
  | cut => exact (copySelection_same c s).keeps.bind (editSelection_keepsCharacters c)
  | copy => exact (copySelection_same c s).keeps
  | paste => exact insertEach_keepsCharacters c s.copyBuffer s
  | other ch => exact insertKey_keepsCharacters c ch s

theorem updateSelectedArea_lines (on key : Bool) (old new : UIPosition Nat) (s : TextArea) :
    (updateSelectedArea on key old new s).lines = s.lines := by
  unfold updateSelectedArea
  split
  · split
    · split
      · rfl
      · rfl
    · rfl
  · rfl

theorem handle_keepsCharacters (c : Config) (s : TextArea) (event : Event) :
    KeepsCharacters NoNewline s (handle c s event) := by
  have selected (on key : Bool) (old new : UIPosition Nat) (s : TextArea) :
      KeepsCharacters NoNewline s (.ok (updateSelectedArea on key old new s)) :=
    SameLines.keeps (.ok (updateSelectedArea_lines on key old new s))
  cases event with
  | key key shift =>
    have scrolled : SameLines s (scrollToCaret key s) := by
      unfold scrollToCaret
      split
      · exact scrollToY_same _ _ s
      · exact .ok rfl
    exact fun all => Always.behind fun _ => scrolled.keeps.bind
      (fun t => (doKey_keepsCharacters c key t).bind fun u => selected _ _ _ _ u) all
  | style italic =>
    refine fun all => Always.behind fun _ => .ok ?_
    split
    · exact all
    · exact all
  | font fontSize => exact fun all => .ok all
  | mouse shift held x y =>
    exact fun all => Always.behind fun _ => (updateCursorPosition_same _ _ s).keeps.bind
      (fun t => (scrollToY_same _ _ t).keeps.bind fun u => selected _ _ _ _ u) all
  | scroll rows => exact (vscroll_same rows s).keeps
  | resize width height => exact fun all => onResize_keepsCharacters c _ all

theorem run_noNewlines {events : List Event}
    (run : Transition.Run (Transition.Steps (step c)) (init c) events s) : NoNewlines s.lines := by
  refine noNewlines_iff.mpr (Transition.run_invariant (fun s => LinesOf NoNewline s.lines)
    (fun s event t all next => ?_) run ?_)
  · exact handle_keepsCharacters c s event all t (toOption_some.mp next)
  · exact linesOf_cons.mpr ⟨newTextLine_of _ _, List.forall_mem_nil _⟩

end TextArea

end StyledText
