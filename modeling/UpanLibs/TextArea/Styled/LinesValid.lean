import UpanLibs.TextArea.Styled.TextLines
import UpanLibs.Text.WrappedText
import UpanLibs.Fallible
import UpanLibs.SplitList

/-!
The lines of a `TextArea`: the width of each is that of its characters and fits in the
area, and the last one is not marked wrapped. Every function that changes lines keeps
this and comes to an end where each character fits in a line of its own.
-/
namespace StyledText

open TextInput Fallible

def layout : WrappedText.Layout TextLine Character := ⟨(·.characters), (·.wrapped)⟩

def Exact (line : TextLine) : Prop :=
  line.width = MIN_CURSOR_WIDTH_BUFFER + chWidths line.characters

def Fits (maxLineCharWidth : Nat) (line : TextLine) : Prop :=
  Exact line ∧ line.width ≤ maxLineCharWidth

/-- The character fits in a line of its own. -/
def CharFits (maxLineCharWidth : Nat) (ch : Character) : Prop :=
  ch.chWidth + MIN_CURSOR_WIDTH_BUFFER ≤ maxLineCharWidth

def allCharacters (lines : List TextLine) : List Character := lines.flatMap (·.characters)

variable {maxLineCharWidth : Nat}

@[simp]
theorem chWidths_nil : chWidths [] = 0 := rfl

@[simp]
theorem chWidths_cons (ch : Character) (characters : List Character) :
    chWidths (ch :: characters) = ch.chWidth + chWidths characters := by
  simp [chWidths]

@[simp]
theorem chWidths_append (xs ys : List Character) :
    chWidths (xs ++ ys) = chWidths xs + chWidths ys := by
  simp [chWidths]

@[simp]
theorem allCharacters_nil : allCharacters [] = [] := rfl

@[simp]
theorem allCharacters_cons (line : TextLine) (below : List TextLine) :
    allCharacters (line :: below) = line.characters ++ allCharacters below := rfl

@[simp]
theorem allCharacters_append (above below : List TextLine) :
    allCharacters (above ++ below) = allCharacters above ++ allCharacters below :=
  List.flatMap_append

@[simp]
theorem totalCharacters_nil : totalCharacters [] = 0 := rfl

@[simp]
theorem totalCharacters_cons (line : TextLine) (below : List TextLine) :
    totalCharacters (line :: below) = line.size + totalCharacters below := by
  simp [totalCharacters]

theorem totalCharacters_eq (lines : List TextLine) :
    totalCharacters lines = (allCharacters lines).length := by
  induction lines with
  | nil => rfl
  | cons line below ih =>
    rw [totalCharacters_cons, allCharacters_cons, List.length_append, ← ih]
    rfl

theorem chWidth_le {ch : Character} {characters : List Character} (mem : ch ∈ characters) :
    ch.chWidth ≤ chWidths characters := by
  obtain ⟨xs, ys, rfl⟩ := List.append_of_mem mem
  simp only [chWidths_append, chWidths_cons]
  omega

theorem Fits.charFits {line : TextLine} (fits : Fits maxLineCharWidth line) :
    ∀ ch ∈ line.characters, CharFits maxLineCharWidth ch := by
  intro ch mem
  have width := chWidth_le mem
  obtain ⟨exact_, within⟩ := fits
  unfold Exact at exact_
  unfold CharFits
  omega

theorem fits_allCharacters {lines : List TextLine}
    (fits : ∀ line ∈ lines, Fits maxLineCharWidth line) :
    ∀ ch ∈ allCharacters lines, CharFits maxLineCharWidth ch := by
  intro ch mem
  obtain ⟨line, here, mem⟩ := List.mem_flatMap.mp mem
  exact (fits line here).charFits ch mem

theorem Fits.of_same {line line' : TextLine} (fits : Fits maxLineCharWidth line)
    (characters : line'.characters = line.characters) (width : line'.width = line.width) :
    Fits maxLineCharWidth line' := by
  unfold Fits Exact at fits ⊢
  rwa [characters, width]

theorem exact_newTextLine (height : Nat) : Exact (newTextLine height) := rfl

theorem exact_push {line : TextLine} (exact_ : Exact line) (ch : Character) :
    Exact (line.push ch) := by
  unfold Exact at exact_ ⊢
  simp only [TextLine.push, exact_, chWidths_append, chWidths_cons, chWidths_nil]
  omega

@[simp]
theorem push_size (line : TextLine) (ch : Character) : (line.push ch).size = line.size + 1 := by
  simp [TextLine.size, TextLine.push]

@[simp]
theorem push_wrapped (line : TextLine) (ch : Character) :
    (line.push ch).wrapped = line.wrapped := rfl

@[simp]
theorem remove_wrapped (line : TextLine) (first last : Nat) :
    (line.remove first last).wrapped = line.wrapped := by
  unfold TextLine.remove
  split <;> rfl

theorem remove_exact {line : TextLine} (exact_ : Exact line) (first last : Nat) :
    Exact (line.remove first last) := by
  unfold TextLine.remove
  split
  · exact exact_
  · rfl

theorem remove_characters {line : TextLine} {first last : Nat} (ordered : first ≤ last) :
    (line.remove first last).characters =
      line.characters.take first ++ line.characters.drop last := by
  unfold TextLine.remove
  split
  next unchanged =>
    rcases unchanged with rfl | beyond
    · rw [List.take_append_drop]
    · have first_ : line.characters.length ≤ first := beyond
      rw [List.take_of_length_le first_, List.drop_of_length_le (by omega), List.append_nil]
  next => rfl

theorem remove_fits {line : TextLine} (fits : Fits maxLineCharWidth line) {first last : Nat}
    (ordered : first ≤ last) : Fits maxLineCharWidth (line.remove first last) := by
  have exact' := remove_exact fits.1 first last
  refine ⟨exact', ?_⟩
  have kept : chWidths (line.characters.take first ++ line.characters.drop last) ≤
      chWidths line.characters := by
    have split := List.take_append_drop first line.characters
    have rest : chWidths (line.characters.drop last) ≤ chWidths (line.characters.drop first) := by
      rw [← List.take_append_drop (last - first) (line.characters.drop first), List.drop_drop,
        show first + (last - first) = last by omega]
      simp
    rw [chWidths_append]
    conv_rhs => rw [← split, chWidths_append]
    omega
  obtain ⟨exact_, within⟩ := fits
  unfold Exact at exact_ exact'
  rw [remove_characters ordered] at exact'
  omega

theorem remove_size (line : TextLine) (x : Nat) :
    (line.remove x (x + 1)).size = if x < line.size then line.size - 1 else line.size := by
  rw [TextLine.size, remove_characters (Nat.le_succ x), List.length_append, List.length_take,
    List.length_drop]
  have size : line.characters.length = line.size := rfl
  rw [size]
  split <;> omega

theorem get_ok_iff {lines : List TextLine} {index : Nat} {line : TextLine} :
    get lines index = .ok line ↔ lines[index]? = some line := by
  unfold get
  cases here : lines[index]? <;> simp

theorem insert_eq {line : TextLine} {pos : Nat} (inside : pos ≤ line.size) (ch : Character) :
    ∃ line', line.insert pos ch = .ok line' ∧
      line'.characters = line.characters.insertIdx pos ch ∧
      line'.width = line.width + ch.chWidth ∧ line'.wrapped = line.wrapped := by
  unfold TextLine.insert
  rw [if_pos inside]
  exact ⟨_, rfl, rfl, rfl, rfl⟩

theorem insertAll_ok {line : TextLine} {before after : List Character} {lineX : Nat}
    (split : line.characters = before ++ after) (column : lineX = before.length)
    (exact_ : Exact line) (characters : List Character) :
    Returns (insertAll line lineX characters) fun line' =>
      line'.characters = before ++ characters ++ after ∧ Exact line' ∧
        line'.wrapped = line.wrapped := by
  induction characters generalizing line before lineX with
  | nil => exact .ok ⟨by simp [split], exact_, rfl⟩
  | cons ch characters ih =>
    have inside : lineX ≤ line.size := by
      rw [TextLine.size, split, List.length_append]
      omega
    obtain ⟨line', inserted, chars, width, wrapped⟩ := insert_eq inside ch
    rw [split, column, SplitList.insertIdx_length, ← List.singleton_append,
      ← List.append_assoc] at chars
    have exact' : Exact line' := by
      unfold Exact at exact_ ⊢
      rw [chars, width, exact_, split]
      simp only [chWidths_append, chWidths_cons, chWidths_nil]
      omega
    rw [insertAll, inserted]
    refine (ih chars (by simp [column]) exact').mono ?_
    rintro line'' ⟨chars', exact'', wrapped'⟩
    exact ⟨by simp [chars'], exact'', wrapped'.trans wrapped⟩

theorem insertAll_new (fontSize : Nat) (characters : List Character) :
    Returns (insertAll (newTextLine fontSize) 0 characters) fun line =>
      line.characters = characters ∧ Exact line := by
  have empty : (newTextLine fontSize).characters = [] ++ [] := rfl
  refine (insertAll_ok empty rfl (exact_newTextLine fontSize) characters).mono ?_
  rintro line ⟨chars, exact_, _⟩
  exact ⟨by simp [chars], exact_⟩

/-- What fits of a line and the characters that go to the next one. -/
structure Kept (maxLineCharWidth : Nat) (line kept : TextLine) (over_ : List Character) :
    Prop where
  characters : kept.characters ++ over_ = line.characters
  fits : Fits maxLineCharWidth kept
  wrapped : kept.wrapped = line.wrapped
  full : ∀ ch ∈ over_.head?,
    maxLineCharWidth < MIN_CURSOR_WIDTH_BUFFER + chWidths (kept.characters ++ [ch])

theorem Kept.all {line : TextLine} (exact_ : Exact line)
    (narrow : line.width ≤ maxLineCharWidth) : Kept maxLineCharWidth line line [] :=
  ⟨List.append_nil _, ⟨exact_, narrow⟩, rfl, by simp⟩

theorem Kept.more {line kept shorter : TextLine} {over_ : List Character} {ch : Character}
    (exact_ : Exact line) (wide : maxLineCharWidth < line.width)
    (characters : line.characters = shorter.characters ++ [ch])
    (wrapped : shorter.wrapped = line.wrapped) (h : Kept maxLineCharWidth shorter kept over_) :
    Kept maxLineCharWidth line kept (over_ ++ [ch]) := by
  refine ⟨?_, h.fits, h.wrapped.trans wrapped, ?_⟩
  · rw [characters, ← h.characters, List.append_assoc]
  · intro first head
    cases over_ with
    | nil =>
      cases head
      have kept_ := h.characters
      rw [List.append_nil] at kept_
      unfold Exact at exact_
      rwa [kept_, ← characters, ← exact_]
    | cons next over_ => exact h.full first head

theorem takeWrapCharacters_ok (room : MIN_CURSOR_WIDTH_BUFFER ≤ maxLineCharWidth)
    (size : Nat) (line : TextLine) (wrapCharacters : List Character) (size_ : line.size = size)
    (exact_ : Exact line) :
    Returns (takeWrapCharacters maxLineCharWidth size line wrapCharacters) fun r =>
      ∃ over_, r.2 = over_ ++ wrapCharacters ∧ Kept maxLineCharWidth line r.1 over_ := by
  induction size generalizing line wrapCharacters with
  | zero =>
    have empty : line.characters = [] := List.length_eq_zero_iff.mp size_
    have narrow : line.width ≤ maxLineCharWidth := by
      unfold Exact at exact_
      rw [exact_, empty]
      exact room
    rw [takeWrapCharacters, if_neg (Nat.not_lt.mpr narrow)]
    exact .ok ⟨[], rfl, .all exact_ narrow⟩
  | succ size ih =>
    rw [takeWrapCharacters]
    by_cases wide : maxLineCharWidth < line.width
    · obtain ⟨before, ch, characters⟩ :=
        List.eq_nil_or_concat line.characters |>.resolve_left (by
          rintro empty
          simp [TextLine.size, empty] at size_)
      rw [List.concat_eq_append] at characters
      have length : before.length = size := by
        simpa [TextLine.size, characters] using size_
      have here : line.characters[size]? = some ch := by
        rw [characters, ← length, SplitList.get_length]
      have shorter : (line.remove size (size + 1)).characters = before := by
        rw [remove_characters (Nat.le_succ size), characters, ← length]
        simp
      rw [if_pos wide, here]
      refine (ih _ (ch :: wrapCharacters) (by rw [TextLine.size, shorter, length])
        (remove_exact exact_ _ _)).mono ?_
      rintro ⟨kept, all⟩ ⟨over_, rfl, done⟩
      exact ⟨over_ ++ [ch], by simp,
        done.more exact_ wide (by rw [shorter, characters]) (remove_wrapped _ _ _)⟩
    · rw [if_neg wide]
      exact .ok ⟨[], rfl, .all exact_ (Nat.not_lt.mp wide)⟩

theorem Kept.size_ge {line kept : TextLine} {over_ : List Character}
    (h : Kept maxLineCharWidth line kept over_) (before after : List Character)
    (split : line.characters = before ++ after)
    (fits : MIN_CURSOR_WIDTH_BUFFER + chWidths before ≤ maxLineCharWidth) :
    before.length ≤ kept.size := by
  by_contra short
  have split' := h.characters.trans split
  obtain ⟨more, rfl, over'⟩ : ∃ more, before = kept.characters ++ more ∧
      over_ = more ++ after := by
    rcases List.append_eq_append_iff.mp split' with ⟨more, here, rest⟩ | ⟨more, here, rest⟩
    · exact ⟨more, here, rest⟩
    · refine absurd ?_ short
      simp [TextLine.size, here]
  cases more with
  | nil => simp [TextLine.size] at short
  | cons ch more =>
    have wide := h.full ch (by simp [over'])
    simp only [chWidths_append, chWidths_cons, chWidths_nil] at wide fits
    omega

/-- A line after `characters` went to it at `before`, and what of it goes further. -/
structure Refilled (maxLineCharWidth : Nat) (line : TextLine) (lineX : Nat)
    (before characters after : List Character) (filled kept : TextLine)
    (over_ : List Character) : Prop where
  inserted : insertAll line lineX characters = .ok filled
  taken : takeWrapCharacters maxLineCharWidth filled.size filled [] = .ok (kept, over_)
  characters : filled.characters = before ++ characters ++ after
  wrapped : filled.wrapped = line.wrapped
  kept : Kept maxLineCharWidth filled kept over_

theorem refill (room : MIN_CURSOR_WIDTH_BUFFER ≤ maxLineCharWidth) {line : TextLine}
    (exact_ : Exact line) (lineX : Nat) (before after characters : List Character)
    (split : line.characters = before ++ after) (column : lineX = before.length) :
    ∃ filled kept over_,
      Refilled maxLineCharWidth line lineX before characters after filled kept over_ := by
  obtain ⟨filled, inserted, chars, exact', wrapped⟩ :=
    insertAll_ok split column exact_ characters
  obtain ⟨⟨kept, all⟩, taken, over_, rfl, done⟩ :=
    takeWrapCharacters_ok room filled.size filled [] rfl exact'
  rw [List.append_nil] at taken
  exact ⟨filled, kept, over_, inserted, taken, chars, wrapped, done⟩

theorem Refilled.all {line filled kept : TextLine} {lineX : Nat}
    {before characters after over_ : List Character}
    (h : Refilled maxLineCharWidth line lineX before characters after filled kept over_) :
    kept.characters ++ over_ = before ++ characters ++ after :=
  h.kept.characters.trans h.characters

theorem Refilled.positive {line filled kept : TextLine} {lineX : Nat}
    {before characters after over_ : List Character}
    (h : Refilled maxLineCharWidth line lineX before characters after filled kept over_)
    {ch : Character} {rest : List Character} (first : before ++ characters ++ after = ch :: rest)
    (fits : CharFits maxLineCharWidth ch) : 0 < kept.size := by
  refine Nat.lt_of_lt_of_le Nat.one_pos
    (h.kept.size_ge [ch] rest (h.characters.trans first) ?_)
  unfold CharFits at fits
  simp only [chWidths_cons, chWidths_nil]
  omega

/-- Lines that an area can keep, with the characters they hold. -/
structure Holds (maxLineCharWidth : Nat) (characters : List Character)
    (lines : List TextLine) : Prop where
  nonempty : lines ≠ []
  fits : ∀ line ∈ lines, Fits maxLineCharWidth line
  ends : layout.Ends lines
  all : allCharacters lines = characters

theorem holds_single {line : TextLine} (fits : Fits maxLineCharWidth line)
    (unwrapped : line.wrapped = false) : Holds maxLineCharWidth line.characters [line] := by
  refine ⟨by simp, by simpa using fits, ?_, by simp⟩
  rintro last ⟨⟩
  exact unwrapped

theorem Holds.cons {line : TextLine} {characters : List Character} {below : List TextLine}
    (h : Holds maxLineCharWidth characters below) (fits : Fits maxLineCharWidth line) :
    Holds maxLineCharWidth (line.characters ++ characters) (line :: below) := by
  refine ⟨by simp, ?_, (layout.ends_cons h.nonempty).mpr h.ends, by simp [h.all]⟩
  intro l mem
  rcases List.mem_cons.mp mem with rfl | later
  · exact fits
  · exact h.fits l later

theorem Holds.append {above below : List TextLine} {xs : List Character}
    (h : Holds maxLineCharWidth xs above) (fits : ∀ line ∈ below, Fits maxLineCharWidth line)
    (ends : layout.Ends below) :
    Holds maxLineCharWidth (xs ++ allCharacters below) (above ++ below) := by
  refine ⟨by simp [h.nonempty], ?_, layout.ends_append (fun _ => h.ends) ends,
    by rw [allCharacters_append, h.all]⟩
  intro l mem
  rcases List.mem_append.mp mem with first | second
  · exact h.fits l first
  · exact fits l second

theorem newLines_holds (room : MIN_CURSOR_WIDTH_BUFFER ≤ maxLineCharWidth) (fontSize : Nat)
    (lines : Nat) (characters : List Character) (enough : characters.length ≤ lines)
    (some_ : characters ≠ []) (fit : ∀ ch ∈ characters, CharFits maxLineCharWidth ch) :
    Returns (newLines maxLineCharWidth fontSize lines characters)
      (Holds maxLineCharWidth characters) := by
  induction lines generalizing characters with
  | zero => exact absurd (List.length_eq_zero_iff.mp (Nat.le_zero.mp enough)) some_
  | succ lines ih =>
    obtain ⟨filled, kept, over_, refilled⟩ := refill room
      (exact_newTextLine fontSize) 0 [] [] characters rfl rfl
    have all := refilled.all
    rw [List.nil_append, List.append_nil] at all
    have unwrapped : kept.wrapped = false := refilled.kept.wrapped.trans refilled.wrapped
    simp only [newLines, refilled.inserted, refilled.taken, bind, Except.bind]
    cases over_ with
    | nil =>
      rw [List.append_nil] at all
      subst all
      exact .ok (holds_single refilled.kept.fits unwrapped)
    | cons next over_ =>
      obtain ⟨ch, rest, rfl⟩ := List.exists_cons_of_ne_nil some_
      have progress := refilled.positive (show [] ++ ch :: rest ++ [] = ch :: rest by simp)
        (fit ch (by simp))
      have shorter : (next :: over_).length ≤ lines := by
        have total := congrArg List.length all
        have kept_ : kept.characters.length = kept.size := rfl
        simp only [List.length_append, List.length_cons] at total enough ⊢
        omega
      have fit' : ∀ ch ∈ next :: over_, CharFits maxLineCharWidth ch := by
        intro ch' mem
        exact fit ch' (all ▸ List.mem_append_right _ mem)
      obtain ⟨below, added, holds⟩ := ih (next :: over_) shorter (by simp) fit'
      simp only [List.isEmpty_cons, Bool.false_eq_true, if_false, added]
      have fits : Fits maxLineCharWidth { kept with wrapped := true } :=
        refilled.kept.fits.of_same rfl rfl
      exact .ok (all ▸ holds.cons fits)

structure Inserted (maxLineCharWidth lineX : Nat) (characters : List Character)
    (lines : List TextLine) : Prop where
  nonempty : lines ≠ []
  fits : ∀ line ∈ lines, Fits maxLineCharWidth line
  ends : layout.Ends lines
  column : ∀ first ∈ lines.head?, lineX ≤ first.size
  positive : characters ≠ [] → ∀ first ∈ lines.head?, 0 < first.size

theorem Fits.through {line : TextLine} (lineFits : Fits maxLineCharWidth line)
    {characters : List Character} (fit : ∀ ch ∈ characters, CharFits maxLineCharWidth ch)
    (lineX : Nat) : ∀ ch ∈ line.characters.take lineX ++ characters ++ line.characters.drop lineX,
      CharFits maxLineCharWidth ch := by
  intro ch mem
  simp only [List.mem_append] at mem
  rcases mem with (mem | mem) | mem
  · exact lineFits.charFits ch (List.mem_of_mem_take mem)
  · exact fit ch mem
  · exact lineFits.charFits ch (List.mem_of_mem_drop mem)

theorem Refilled.column {line filled kept : TextLine} {lineX : Nat}
    {characters over_ : List Character} (lineFits : Fits maxLineCharWidth line)
    (inside : lineX ≤ line.size)
    (refilled : Refilled maxLineCharWidth line lineX (line.characters.take lineX) characters
      (line.characters.drop lineX) filled kept over_) : lineX ≤ kept.size := by
  obtain ⟨exact_, wide⟩ := lineFits
  unfold Exact at exact_
  rw [(List.take_append_drop lineX line.characters).symm, chWidths_append] at exact_
  have kept_ := refilled.kept.size_ge (line.characters.take lineX) _
    (by rw [refilled.characters, List.append_assoc]) (by omega)
  rw [List.length_take] at kept_
  exact (Nat.min_eq_left inside) ▸ kept_

theorem insertFrom_ok (room : MIN_CURSOR_WIDTH_BUFFER ≤ maxLineCharWidth) (fontSize : Nat)
    (lineX lineY : Nat) (characters : List Character) {lines : List TextLine}
    (some_ : lines ≠ []) (fits : ∀ line ∈ lines, Fits maxLineCharWidth line)
    (ends : layout.Ends lines) (column : ∀ first ∈ lines.head?, lineX ≤ first.size)
    (fit : ∀ ch ∈ characters, CharFits maxLineCharWidth ch) :
    Returns (insertFrom maxLineCharWidth fontSize lineX lineY characters lines) fun r =>
      Inserted maxLineCharWidth lineX characters r.1 := by
  induction lines generalizing lineX lineY characters with
  | nil => exact absurd rfl some_
  | cons line below ih =>
    obtain ⟨lineFits, belowFits⟩ := List.forall_mem_cons.mp fits
    have inside : lineX ≤ line.size := column line rfl
    have length : (line.characters.take lineX).length = lineX := by
      rw [List.length_take]
      exact Nat.min_eq_left inside
    have split := (List.take_append_drop lineX line.characters).symm
    obtain ⟨filled, kept, over_, refilled⟩ :=
      refill room lineFits.1 lineX _ _ characters split length.symm
    have allFit := lineFits.through fit lineX
    have column' := refilled.column lineFits inside
    have positive' : characters ≠ [] → 0 < kept.size := by
      intro some_
      obtain ⟨ch, rest, first⟩ := List.exists_cons_of_ne_nil (show line.characters.take lineX ++
        characters ++ line.characters.drop lineX ≠ [] by simp [some_])
      exact refilled.positive first (allFit ch (first ▸ List.mem_cons_self))
    have wrapped' : kept.wrapped = line.wrapped := refilled.kept.wrapped.trans refilled.wrapped
    simp only [insertFrom, refilled.inserted, refilled.taken, bind, Except.bind]
    cases over_ with
    | nil =>
      exact .ok ⟨by simp, List.forall_mem_cons.mpr ⟨refilled.kept.fits, belowFits⟩,
        layout.ends_head wrapped' ends, by simpa using column', by simpa using positive'⟩
    | cons next over_ =>
      have overFit : ∀ ch ∈ next :: over_, CharFits maxLineCharWidth ch := by
        intro ch mem
        exact allFit ch (refilled.all ▸ List.mem_append_right _ mem)
      simp only [List.isEmpty_cons, Bool.false_eq_true, if_false]
      by_cases wrapped : kept.wrapped = true
      · rw [if_pos wrapped]
        have more := layout.ends_wrapped_more ends (wrapped'.symm.trans wrapped)
        obtain ⟨r, inserted, done⟩ := ih 0 (lineY + 1) (next :: over_) more belowFits
          ((layout.ends_cons more).mp ends) (fun _ _ => Nat.zero_le _) overFit
        rw [inserted]
        exact .ok ⟨by simp, List.forall_mem_cons.mpr ⟨refilled.kept.fits, done.fits⟩,
          (layout.ends_cons done.nonempty).mpr done.ends, by simpa using column',
          by simpa using positive'⟩
      · rw [if_neg wrapped]
        obtain ⟨added, new, holds⟩ :=
          newLines_holds room fontSize _ (next :: over_) (Nat.le_refl _) (by simp) overFit
        have belowEnds : layout.Ends below := by
          by_cases more : below = []
          · simp [more, WrappedText.Layout.Ends]
          · exact (layout.ends_cons more).mp ends
        have both := holds.append belowFits belowEnds
        have keptFits : Fits maxLineCharWidth { kept with wrapped := true } :=
          refilled.kept.fits.of_same rfl rfl
        rw [new]
        exact .ok ⟨by simp, List.forall_mem_cons.mpr ⟨keptFits, both.fits⟩,
          (layout.ends_cons both.nonempty).mpr both.ends,
          by simpa [TextLine.size] using column', by simpa [TextLine.size] using positive'⟩

/-- What the functions that remove characters need of the lines and keep of them. -/
structure Sound (maxLineCharWidth : Nat) (lines : List TextLine) : Prop where
  fits : ∀ line ∈ lines, Fits maxLineCharWidth line
  ends : layout.Ends lines

theorem Sound.tail {line : TextLine} {below : List TextLine}
    (h : Sound maxLineCharWidth (line :: below)) : Sound maxLineCharWidth below := by
  refine ⟨fun l mem => h.fits l (by simp [mem]), ?_⟩
  by_cases more : below = []
  · simp [more, WrappedText.Layout.Ends]
  · exact (layout.ends_cons more).mp h.ends

theorem Sound.cons {line : TextLine} {below : List TextLine} (more : below ≠ [])
    (fits : Fits maxLineCharWidth line) (h : Sound maxLineCharWidth below) :
    Sound maxLineCharWidth (line :: below) := by
  refine ⟨?_, (layout.ends_cons more).mpr h.ends⟩
  intro l mem
  rcases List.mem_cons.mp mem with rfl | later
  · exact fits
  · exact h.fits l later

theorem Sound.head {line line' : TextLine} {below : List TextLine}
    (h : Sound maxLineCharWidth (line :: below)) (fits : Fits maxLineCharWidth line')
    (wrapped : line'.wrapped = line.wrapped) : Sound maxLineCharWidth (line' :: below) := by
  refine ⟨?_, layout.ends_head wrapped h.ends⟩
  intro l mem
  rcases List.mem_cons.mp mem with rfl | later
  · exact fits
  · exact h.fits l (by simp [later])

theorem Sound.append {above below : List TextLine} (more : below ≠ []) :
    Sound maxLineCharWidth (above ++ below) ↔
      (∀ line ∈ above, Fits maxLineCharWidth line) ∧ Sound maxLineCharWidth below := by
  constructor
  · intro h
    exact ⟨fun l mem => h.fits l (by simp [mem]), fun l mem => h.fits l (by simp [mem]),
      (layout.ends_append_iff more).mp h.ends⟩
  · rintro ⟨fits, h⟩
    refine ⟨?_, (layout.ends_append_iff more).mpr h.ends⟩
    intro l mem
    rcases List.mem_append.mp mem with first | second
    · exact fits l first
    · exact h.fits l second

/-- The end of `wrapremovech`: a line above one that has no characters is the last of its
    paragraph. -/
def closed (line : TextLine) (removed : List TextLine × Option Nat) :
    List TextLine × Option Nat :=
  if nextSize removed.1 = 0 then ({ line with wrapped := false } :: removed.1, some 1)
  else (line :: removed.1, removed.2.map (· + 1))

/-- The part of `wrapremovech` behind its loop that takes one more character from below. -/
def takeOne (remove : List TextLine → List TextLine × Option Nat) (x : Nat)
    (filled : TextLine × List TextLine × Option Nat × Bool) : List TextLine × Option Nat :=
  if filled.2.2.2 = false ∧ 0 < nextSize filled.2.1 ∧ x = filled.1.size then remove filled.2.1
  else (filled.2.1, filled.2.2.1)

/-- The loop of `wrapremovech` over all that is below a line. -/
def fillUp (maxLineCharWidth depth : Nat) (line : TextLine) (below : List TextLine) :
    TextLine × List TextLine × Option Nat × Bool :=
  pull maxLineCharWidth (wrapremovech maxLineCharWidth depth 0) (totalCharacters below) line below
    none false

theorem wrapremovech_last {line : TextLine} {below : List TextLine}
    (last : line.wrapped = false ∨ below = []) (depth x : Nat) :
    wrapremovech maxLineCharWidth (depth + 1) x (line :: below) =
      (line.remove x (x + 1) :: below, none) := by
  rw [wrapremovech]
  simp only [remove_wrapped, if_pos last]

theorem wrapremovech_wrapped {line : TextLine} {below : List TextLine}
    (wrapped : line.wrapped = true) (more : below ≠ []) (depth x : Nat) :
    wrapremovech maxLineCharWidth (depth + 1) x (line :: below) =
      closed (fillUp maxLineCharWidth depth (line.remove x (x + 1)) below).1
        (takeOne (wrapremovech maxLineCharWidth depth 0) x
          (fillUp maxLineCharWidth depth (line.remove x (x + 1)) below)) := by
  rw [wrapremovech]
  simp only [remove_wrapped, wrapped, more, Bool.true_eq_false, or_self, if_false]
  rfl

/-- What `pull` needs of the function that removes a line's first character. -/
def KeepsLines (maxLineCharWidth n : Nat)
    (remove : List TextLine → List TextLine × Option Nat) : Prop :=
  ∀ below : List TextLine, below ≠ [] → below.length = n → Sound maxLineCharWidth below →
    (remove below).1.length = n ∧ Sound maxLineCharWidth (remove below).1 ∧
      ∀ deleted, (remove below).2 = some deleted → deleted < n

theorem pull_sound {n : Nat} {remove : List TextLine → List TextLine × Option Nat}
    (keeps : KeepsLines maxLineCharWidth n remove) (characters : Nat) (line : TextLine)
    (below : List TextLine) (deletedLine : Option Nat) (moved : Bool)
    (length : below.length = n) (more : below ≠ []) (sound : Sound maxLineCharWidth below)
    (within : ∀ deleted, deletedLine = some deleted → deleted < n)
    (fits : Fits maxLineCharWidth line) :
    let r := pull maxLineCharWidth remove characters line below deletedLine moved
    r.2.1.length = n ∧ Sound maxLineCharWidth r.2.1 ∧
      (∀ deleted, r.2.2.1 = some deleted → deleted < n) ∧ Fits maxLineCharWidth r.1 ∧
      r.1.wrapped = line.wrapped ∧ line.size ≤ r.1.size := by
  induction characters generalizing line below deletedLine moved with
  | zero =>
    simp only [pull]
    exact ⟨length, sound, within, fits, trivial, Nat.le_refl _⟩
  | succ characters ih =>
    obtain ⟨next, rest, rfl⟩ := List.exists_cons_of_ne_nil more
    rw [pull]
    cases first : next.characters with
    | nil => exact ⟨length, sound, within, fits, rfl, Nat.le_refl _⟩
    | cons ch chs =>
      simp only
      by_cases room : line.width + ch.chWidth < maxLineCharWidth
      · rw [if_pos room]
        obtain ⟨length', sound', within'⟩ := keeps _ more length sound
        have more' : (remove (next :: rest)).1 ≠ [] := by
          intro empty
          simp [empty, ← length] at length'
        have fits' : Fits maxLineCharWidth (line.push ch) :=
          ⟨exact_push fits.1 ch, Nat.le_of_lt room⟩
        obtain ⟨a, b, c, d, e, f⟩ := ih _ _ _ true length' more' sound' within' fits'
        rw [push_size] at f
        exact ⟨a, b, c, d, e, Nat.le_of_succ_le f⟩
      · rw [if_neg room]
        exact ⟨length, sound, within, fits, rfl, Nat.le_refl _⟩

theorem takeOne_sound {n x : Nat} {remove : List TextLine → List TextLine × Option Nat}
    (keeps : KeepsLines maxLineCharWidth n remove) (some_ : 0 < n)
    {filled : TextLine × List TextLine × Option Nat × Bool} (length : filled.2.1.length = n)
    (sound : Sound maxLineCharWidth filled.2.1)
    (within : ∀ deleted, filled.2.2.1 = some deleted → deleted < n) :
    let r := takeOne remove x filled
    r.1.length = n ∧ Sound maxLineCharWidth r.1 ∧ ∀ deleted, r.2 = some deleted → deleted < n := by
  unfold takeOne
  split
  · exact keeps _ (List.length_pos_iff.mp (by omega)) length sound
  · exact ⟨length, sound, within⟩

/-- The line at the caret and those below it after `wrapremovech`. -/
structure Removed (maxLineCharWidth x : Nat) (line : TextLine) (below : List TextLine)
    (r : List TextLine × Option Nat) : Prop where
  length : r.1.length = below.length + 1
  sound : Sound maxLineCharWidth r.1
  deleted : ∀ d, r.2 = some d → 0 < d ∧ d < below.length + 1
  column : ∀ first ∈ r.1.head?, x ≤ line.size → x ≤ first.size

theorem closed_removed {x : Nat} {line line' : TextLine} {below : List TextLine}
    {removed : List TextLine × Option Nat} (fits : Fits maxLineCharWidth line')
    (more : 0 < below.length) (length : removed.1.length = below.length)
    (sound : Sound maxLineCharWidth removed.1)
    (within : ∀ d, removed.2 = some d → d < below.length)
    (column : x ≤ line.size → x ≤ line'.size) :
    Removed maxLineCharWidth x line below (closed line' removed) := by
  have some_ : removed.1 ≠ [] := List.length_pos_iff.mp (by omega)
  unfold closed
  split
  · refine ⟨by simp [length], .cons some_ (fits.of_same rfl rfl) sound, ?_, ?_⟩
    · rintro d ⟨⟩
      omega
    · rintro first ⟨⟩
      exact column
  · refine ⟨by simp [length], .cons some_ fits sound, ?_, ?_⟩
    · intro d deleted
      obtain ⟨d', which, rfl⟩ := Option.map_eq_some_iff.mp deleted
      have := within d' which
      omega
    · rintro first ⟨⟩
      exact column

theorem wrapremovech_removed (depth x : Nat) (line : TextLine) (below : List TextLine)
    (enough : below.length < depth) (sound : Sound maxLineCharWidth (line :: below)) :
    Removed maxLineCharWidth x line below
      (wrapremovech maxLineCharWidth depth x (line :: below)) := by
  induction depth generalizing x line below with
  | zero => omega
  | succ depth ih =>
    have keeps : KeepsLines maxLineCharWidth below.length
        (wrapremovech maxLineCharWidth depth 0) := by
      intro lines more length sound
      obtain ⟨next, rest, rfl⟩ := List.exists_cons_of_ne_nil more
      rw [List.length_cons] at length
      have removed := ih 0 next rest (by omega) sound
      exact ⟨by rw [removed.length, length], removed.sound,
        fun d h => length ▸ (removed.deleted d h).2⟩
    have fits : Fits maxLineCharWidth (line.remove x (x + 1)) :=
      remove_fits (sound.fits line (by simp)) (Nat.le_succ x)
    have column : x ≤ line.size → x ≤ (line.remove x (x + 1)).size := by
      rw [remove_size]
      split <;> omega
    by_cases last : line.wrapped = false ∨ below = []
    · rw [wrapremovech_last last]
      refine ⟨rfl, sound.head fits (remove_wrapped _ _ _), by simp, ?_⟩
      rintro first ⟨⟩
      exact column
    · obtain ⟨wrapped, more⟩ := not_or.mp last
      have positive := List.length_pos_iff.mpr more
      obtain ⟨length, soundBelow, within, fits', -, grown⟩ := pull_sound keeps
        (totalCharacters below) (line.remove x (x + 1)) below none false rfl more sound.tail
        (by simp) fits
      obtain ⟨length, soundBelow, within⟩ :=
        takeOne_sound (x := x) keeps positive length soundBelow within
      rw [wrapremovech_wrapped (by simpa using wrapped) more]
      exact closed_removed fits' positive length soundBelow within
        fun inside => Nat.le_trans (column inside) grown

end StyledText
