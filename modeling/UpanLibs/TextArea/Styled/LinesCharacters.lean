import Mathlib.Data.List.InsertIdx
import UpanLibs.TextArea.Styled.LinesRealign

/-!
The characters of the lines: what holds of all of them holds after each function of `TextLines`,
where it holds of the characters put in.
-/
namespace StyledText

open TextInput Fallible

variable {p : Character → Prop} {maxLineCharWidth : Nat}

def LineOf (p : Character → Prop) (line : TextLine) : Prop := ∀ ch ∈ line.characters, p ch

def LinesOf (p : Character → Prop) (lines : List TextLine) : Prop := ∀ line ∈ lines, LineOf p line

theorem linesOf_cons {line : TextLine} {below : List TextLine} :
    LinesOf p (line :: below) ↔ LineOf p line ∧ LinesOf p below := List.forall_mem_cons

theorem linesOf_append {above below : List TextLine} :
    LinesOf p (above ++ below) ↔ LinesOf p above ∧ LinesOf p below := List.forall_mem_append

theorem LinesOf.get {lines : List TextLine} (all : LinesOf p lines) (index : Nat) :
    Always (get lines index) (LineOf p) := by
  intro line here
  exact all line (List.mem_of_getElem? (get_ok_iff.mp here))

theorem LinesOf.set {lines : List TextLine} (all : LinesOf p lines) {line : TextLine}
    (here : LineOf p line) (index : Nat) : LinesOf p (lines.set index line) := by
  intro line' mem
  obtain old | rfl := List.mem_or_eq_of_mem_set mem
  · exact all line' old
  · exact here

theorem newTextLine_of (p : Character → Prop) (defaultHeight : Nat) :
    LineOf p (newTextLine defaultHeight) := nofun

theorem LineOf.remove {line : TextLine} (all : LineOf p line) (first last : Nat) :
    LineOf p (line.remove first last) := by
  unfold TextLine.remove
  split
  · exact all
  · intro ch mem
    obtain mem | mem := List.mem_append.mp mem
    · exact all ch (List.mem_of_mem_take mem)
    · exact all ch (List.mem_of_mem_drop mem)

theorem LineOf.push {line : TextLine} (all : LineOf p line) {ch : Character} (here : p ch) :
    LineOf p (line.push ch) := by
  intro ch' mem
  obtain mem | mem := List.mem_append.mp mem
  · exact all ch' mem
  · rw [List.mem_singleton.mp mem]
    exact here

theorem LineOf.pushes {line : TextLine} {moved : List Character} (all : LineOf p line)
    (here : ∀ ch ∈ moved, p ch) : LineOf p (moved.foldl (·.push ·) line) := by
  induction moved generalizing line with
  | nil => exact all
  | cons ch moved ih =>
    obtain ⟨first, rest⟩ := List.forall_mem_cons.mp here
    exact ih (all.push first) rest

theorem LineOf.insert {line : TextLine} (all : LineOf p line) (pos : Nat) {ch : Character}
    (here : p ch) : Always (line.insert pos ch) (LineOf p) := by
  unfold TextLine.insert
  split
  · refine .ok fun ch' mem => ?_
    obtain rfl | old := List.eq_or_mem_of_mem_insertIdx mem
    · exact here
    · exact all ch' old
  · exact .error _

theorem LineOf.insertAll {line : TextLine} {characters : List Character} (all : LineOf p line)
    (lineX : Nat) (here : ∀ ch ∈ characters, p ch) :
    Always (insertAll line lineX characters) (LineOf p) := by
  induction characters generalizing line lineX with
  | nil => exact .ok all
  | cons ch characters ih =>
    obtain ⟨first, rest⟩ := List.forall_mem_cons.mp here
    exact (all.insert lineX first).bind fun line' all' => ih all' (lineX + 1) rest

theorem LineOf.takeWrapCharacters (size : Nat) {line : TextLine} {wrapCharacters : List Character}
    (all : LineOf p line) (here : ∀ ch ∈ wrapCharacters, p ch) :
    Always (takeWrapCharacters maxLineCharWidth size line wrapCharacters)
      fun r => LineOf p r.1 ∧ ∀ ch ∈ r.2, p ch := by
  induction size generalizing line wrapCharacters with
  | zero =>
    unfold StyledText.takeWrapCharacters
    split
    · exact .error _
    · exact .ok ⟨all, here⟩
  | succ size ih =>
    unfold StyledText.takeWrapCharacters
    split
    · split
      next ch last =>
        exact ih (all.remove _ _)
          (List.forall_mem_cons.mpr ⟨all ch (List.mem_of_getElem? last), here⟩)
      · exact .error _
    · exact .ok ⟨all, here⟩

theorem newLines_of (fontSize lines : Nat) {characters : List Character}
    (here : ∀ ch ∈ characters, p ch) :
    Always (newLines maxLineCharWidth fontSize lines characters) (LinesOf p) := by
  induction lines generalizing characters with
  | zero => exact .error _
  | succ lines ih =>
    unfold newLines
    refine ((newTextLine_of p fontSize).insertAll 0 here).bind fun line all => ?_
    refine (all.takeWrapCharacters _ (List.forall_mem_nil p)).bind fun cut all_ => ?_
    obtain ⟨kept, over_⟩ := cut
    simp only []
    split
    · exact .ok (linesOf_cons.mpr ⟨all_.1, List.forall_mem_nil _⟩)
    · exact (ih all_.2).bind fun below more => .ok (linesOf_cons.mpr ⟨all_.1, more⟩)

theorem LinesOf.insertFrom {lines : List TextLine} {characters : List Character}
    (all : LinesOf p lines) (fontSize lineX lineY : Nat) (here : ∀ ch ∈ characters, p ch) :
    Always (insertFrom maxLineCharWidth fontSize lineX lineY characters lines)
      fun r => LinesOf p r.1 := by
  induction lines generalizing lineX lineY characters with
  | nil => exact .error _
  | cons line below ih =>
    obtain ⟨line_, below_⟩ := linesOf_cons.mp all
    unfold StyledText.insertFrom
    refine (line_.insertAll lineX here).bind fun filled all' => ?_
    refine (all'.takeWrapCharacters _ (List.forall_mem_nil p)).bind fun cut all_ => ?_
    obtain ⟨kept, over_⟩ := cut
    simp only []
    split
    · exact .ok (linesOf_cons.mpr ⟨all_.1, below_⟩)
    split
    · exact (ih below_ 0 (lineY + 1) all_.2).bind fun rest more =>
        .ok (linesOf_cons.mpr ⟨all_.1, more⟩)
    · exact (newLines_of fontSize _ all_.2).bind fun added more =>
        .ok (linesOf_append.mpr ⟨linesOf_cons.mpr ⟨all_.1, more⟩, below_⟩)

theorem LinesOf.pull {remove : List TextLine → List TextLine × Option Nat}
    (removes : ∀ lines, LinesOf p lines → LinesOf p (remove lines).1) (characters : Nat)
    {line : TextLine} {below : List TextLine} (line_ : LineOf p line) (all : LinesOf p below)
    (deletedLine : Option Nat) (moved : Bool) :
    let r := pull maxLineCharWidth remove characters line below deletedLine moved
    LineOf p r.1 ∧ LinesOf p r.2.1 := by
  induction characters generalizing line below deletedLine moved with
  | zero => exact ⟨line_, all⟩
  | succ characters ih =>
    cases below with
    | nil => exact ⟨line_, all⟩
    | cons next rest =>
      unfold StyledText.pull
      split
      · exact ⟨line_, all⟩
      next ch _ first =>
        have here : p ch := (linesOf_cons.mp all).1 ch (first ▸ List.mem_cons_self)
        split
        · exact ih (line_.push here) (removes _ all) _ _
        · exact ⟨line_, all⟩

theorem LinesOf.wrapremovech {lines : List TextLine} (all : LinesOf p lines) (depth x : Nat) :
    LinesOf p (wrapremovech maxLineCharWidth depth x lines).1 := by
  induction depth generalizing x lines with
  | zero => exact all
  | succ depth ih =>
    cases lines with
    | nil => exact List.forall_mem_nil _
    | cons line below =>
      obtain ⟨line_, below_⟩ := linesOf_cons.mp all
      have removes (lines : List TextLine) (all : LinesOf p lines) := ih all 0
      unfold StyledText.wrapremovech
      extract_lets line' filled line'' removed
      split
      · exact linesOf_cons.mpr ⟨line_.remove _ _, below_⟩
      · obtain ⟨filled_, rest⟩ := LinesOf.pull removes (totalCharacters below)
          (line_.remove x (x + 1)) below_ none false
        have removed_ : LinesOf p removed.1 := by
          unfold removed
          split
          · exact ih rest 0
          · exact rest
        split
        · exact linesOf_cons.mpr ⟨filled_, removed_⟩
        · exact linesOf_cons.mpr ⟨filled_, removed_⟩

theorem LinesOf.rejoin {lines : List TextLine} (all : LinesOf p lines) (wrapped : Bool) (y : Nat) :
    LinesOf p (rejoin wrapped y lines) := by
  cases y with
  | zero => exact all
  | succ above =>
    intro line mem
    obtain ⟨i, inside, rfl⟩ := List.mem_iff_getElem.mp mem
    have inside' : i < lines.length := by simpa [StyledText.rejoin] using inside
    have old : LineOf p lines[i] := all _ (List.getElem_mem inside')
    simp only [StyledText.rejoin, List.getElem_modify]
    split
    · split
      · exact old
      · exact old
    · exact old

theorem fitting_of {availableWidth : Int} {characters : List Character}
    (here : ∀ ch ∈ characters, p ch) : ∀ ch ∈ fitting availableWidth characters, p ch := by
  intro ch mem
  refine here ch ?_
  rw [← fitting_prefix availableWidth characters]
  exact List.mem_append_left _ mem

theorem realignOnWidthIncrease_of (li : Nat) {line : TextLine} {below : List TextLine}
    (line_ : LineOf p line) (all : LinesOf p below) :
    Always (realignOnWidthIncrease maxLineCharWidth li line below) (LinesOf p) := by
  fun_induction realignOnWidthIncrease maxLineCharWidth li line below with
  | case1 li line wrapped => exact .error _
  | case2 li line unwrapped => exact .ok (linesOf_cons.mpr ⟨line_, List.forall_mem_nil _⟩)
  | case3 li line next below wrapped moved line' left some_ ih =>
    obtain ⟨next_, below_⟩ := linesOf_cons.mp all
    exact (ih (next_.remove _ _) below_).bind fun rest more =>
      .ok (linesOf_cons.mpr ⟨line_.pushes (fitting_of next_), more⟩)
  | case4 li line next below wrapped moved line' left empty again ih =>
    obtain ⟨next_, below_⟩ := linesOf_cons.mp all
    exact ih (line_.pushes (fitting_of next_)) below_
  | case5 li line next wrapped moved line' left empty ends =>
    obtain ⟨next_, _⟩ := linesOf_cons.mp all
    exact .ok (linesOf_cons.mpr ⟨line_.pushes (fitting_of next_), List.forall_mem_nil _⟩)
  | case6 li line next wrapped moved line' left empty ends following below ih =>
    obtain ⟨next_, rest⟩ := linesOf_cons.mp all
    obtain ⟨following_, below_⟩ := linesOf_cons.mp rest
    exact (ih following_ below_).bind fun rest more =>
      .ok (linesOf_cons.mpr ⟨line_.pushes (fitting_of next_), more⟩)
  | case7 li line next below unwrapped ih =>
    obtain ⟨next_, below_⟩ := linesOf_cons.mp all
    exact (ih next_ below_).bind fun rest more => .ok (linesOf_cons.mpr ⟨line_, more⟩)

theorem realignOnWidthDecrease_of (fontSize : Nat) {carried : List Character}
    {lines : List TextLine} (here : ∀ ch ∈ carried, p ch) (all : LinesOf p lines) :
    Always (realignOnWidthDecrease maxLineCharWidth fontSize carried lines) (LinesOf p) := by
  induction lines generalizing carried with
  | nil => exact .ok (List.forall_mem_nil _)
  | cons line below ih =>
    obtain ⟨line_, below_⟩ := linesOf_cons.mp all
    unfold realignOnWidthDecrease
    refine (line_.insertAll 0 here).bind fun filled all' => ?_
    refine (all'.takeWrapCharacters _ (List.forall_mem_nil p)).bind fun cut all_ => ?_
    obtain ⟨kept, over_⟩ := cut
    simp only []
    split
    · exact (ih (List.forall_mem_nil p) below_).bind fun rest more =>
        .ok (linesOf_cons.mpr ⟨all_.1, more⟩)
    split
    · exact (ih all_.2 below_).bind fun rest more => .ok (linesOf_cons.mpr ⟨all_.1, more⟩)
    · refine (newLines_of fontSize _ all_.2).bind fun added new => ?_
      exact (ih (List.forall_mem_nil p) below_).bind fun rest more =>
        .ok (linesOf_append.mpr ⟨linesOf_cons.mpr ⟨all_.1, new⟩, more⟩)

end StyledText
