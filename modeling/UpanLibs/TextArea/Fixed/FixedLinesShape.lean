import UpanLibs.TextArea.Fixed.FixedTextLines
import UpanLibs.Fallible
import UpanLibs.SplitList

/-!
The shape of the lines: none is longer than the area is wide, and a wrapped line with
a line below it is full. Every function that changes lines keeps this shape.
-/
namespace FixedText

open TextInput

def Solid (maxLineChars : Nat) (line : FixedTextLine) : Prop :=
  line.size ≤ maxLineChars ∧ (line.wrapped = true → line.size = maxLineChars)

def Shaped (maxLineChars : Nat) : List FixedTextLine → Prop
  | [] => True
  | [last] => last.size ≤ maxLineChars
  | line :: next :: below => Solid maxLineChars line ∧ Shaped maxLineChars (next :: below)

variable {maxLineChars : Nat}

theorem shaped_cons {line : FixedTextLine} {below : List FixedTextLine} (more : below ≠ []) :
    Shaped maxLineChars (line :: below) ↔
      Solid maxLineChars line ∧ Shaped maxLineChars below := by
  cases below with
  | nil => exact absurd rfl more
  | cons next below => rfl

theorem shaped_append {above below : List FixedTextLine} (more : below ≠ []) :
    Shaped maxLineChars (above ++ below) ↔
      (∀ line ∈ above, Solid maxLineChars line) ∧ Shaped maxLineChars below := by
  induction above with
  | nil => simp
  | cons line above ih =>
    rw [List.cons_append, shaped_cons (by simp [more]), ih]
    simp [and_assoc]

theorem shaped_size {lines : List FixedTextLine} (shaped : Shaped maxLineChars lines)
    {line : FixedTextLine} (mem : line ∈ lines) : line.size ≤ maxLineChars := by
  induction lines with
  | nil => cases mem
  | cons first below ih =>
    cases below with
    | nil =>
      rw [List.mem_singleton] at mem
      exact mem ▸ shaped
    | cons next below =>
      rcases List.mem_cons.mp mem with rfl | later
      · exact shaped.1.1
      · exact ih shaped.2 later

theorem shaped_of_solid {lines : List FixedTextLine}
    (solid : ∀ line ∈ lines, Solid maxLineChars line) : Shaped maxLineChars lines := by
  rcases List.eq_nil_or_concat lines with rfl | ⟨above, last, rfl⟩
  · trivial
  · rw [List.concat_eq_append, shaped_append (by simp)]
    exact ⟨fun line mem => solid line (by simp [mem]), (solid last (by simp)).1⟩

theorem shaped_solid_append (above : List FixedTextLine) {below : List FixedTextLine}
    (solid : ∀ line ∈ above, Solid maxLineChars line) (shaped : Shaped maxLineChars below) :
    Shaped maxLineChars (above ++ below) := by
  by_cases more : below = []
  · rw [more, List.append_nil]
    exact shaped_of_solid solid
  · exact (shaped_append more).mpr ⟨solid, shaped⟩

theorem shaped_tail {line : FixedTextLine} {below : List FixedTextLine}
    (shaped : Shaped maxLineChars (line :: below)) : Shaped maxLineChars below := by
  cases below with
  | nil => trivial
  | cons next below => exact shaped.2

theorem remove_size (line : FixedTextLine) (x : Nat) :
    (line.remove x (x + 1)).size = if x < line.size then line.size - 1 else line.size := by
  unfold FixedTextLine.remove
  by_cases inside : x < line.size
  · have inside' : x < line.chars.length := inside
    rw [if_neg (by omega), if_pos inside]
    simp only [FixedTextLine.size, List.length_append, List.length_take, List.length_drop]
    omega
  · rw [if_pos (by omega), if_neg inside]

@[simp]
theorem remove_wrapped (line : FixedTextLine) (x last : Nat) :
    (line.remove x last).wrapped = line.wrapped := by
  unfold FixedTextLine.remove
  split <;> rfl

theorem remove_first (ch : FixedCharacter) (chars : List FixedCharacter) (wrapped : Bool) :
    FixedTextLine.remove ⟨ch :: chars, wrapped⟩ 0 1 = ⟨chars, wrapped⟩ := by
  simp [FixedTextLine.remove, FixedTextLine.size]

theorem remove_end (chars : List FixedCharacter) (wrapped : Bool) :
    FixedTextLine.remove ⟨chars, wrapped⟩ chars.length (chars.length + 1) = ⟨chars, wrapped⟩ := by
  simp [FixedTextLine.remove, FixedTextLine.size]

/-- What `pull` needs of the function that removes a line's first character. -/
def KeepsShape (maxLineChars n : Nat)
    (remove : List FixedTextLine → List FixedTextLine × Option Nat) : Prop :=
  ∀ below : List FixedTextLine, below ≠ [] → below.length = n → Shaped maxLineChars below →
    (remove below).1.length = n ∧ Shaped maxLineChars (remove below).1 ∧
      ∀ deleted, (remove below).2 = some deleted → deleted < n

theorem pull_shape {n : Nat} {remove : List FixedTextLine → List FixedTextLine × Option Nat}
    (keeps : KeepsShape maxLineChars n remove) (avail : Nat) (line : FixedTextLine)
    (below : List FixedTextLine) (deletedLine : Option Nat) (moved : Bool)
    (length : below.length = n) (more : below ≠ []) (shaped : Shaped maxLineChars below)
    (within : ∀ deleted, deletedLine = some deleted → deleted < n) :
    let r := pull remove avail line below deletedLine moved
    r.2.1.length = n ∧ Shaped maxLineChars r.2.1 ∧
      (∀ deleted, r.2.2.1 = some deleted → deleted < n) ∧ r.1.wrapped = line.wrapped ∧
      line.size ≤ r.1.size ∧ r.1.size ≤ line.size + avail ∧
      (nextSize r.2.1 = 0 ∨ r.1.size = line.size + avail) := by
  induction avail generalizing line below deletedLine moved with
  | zero =>
    simp only [pull]
    exact ⟨length, shaped, within, trivial, Nat.le_refl _, Nat.le_refl _, .inr rfl⟩
  | succ avail ih =>
    rcases below with _ | ⟨⟨_ | ⟨ch, chars⟩, wrapped⟩, below⟩
    · exact absurd rfl more
    · simp only [pull]
      exact ⟨length, shaped, within, trivial, Nat.le_refl _, by omega, .inl rfl⟩
    · simp only [pull]
      obtain ⟨length', shaped', within'⟩ := keeps _ more length shaped
      have more' : (remove (⟨ch :: chars, wrapped⟩ :: below)).1 ≠ [] := by
        intro empty
        simp [empty, ← length] at length'
      have rest := ih (line.push ch) _ _ true length' more' shaped' within'
      have size : (line.push ch).size = line.size + 1 := by
        simp [FixedTextLine.size, FixedTextLine.push]
      rw [size] at rest
      obtain ⟨a, b, c, d, e, f, g⟩ := rest
      refine ⟨a, b, c, d, by omega, by omega, ?_⟩
      rcases g with empty | full
      · exact .inl empty
      · exact .inr (by omega)

theorem nextSize_pos_ne {below : List FixedTextLine} (some_ : 0 < nextSize below) :
    below ≠ [] := by
  intro empty
  simp [empty, nextSize] at some_

/-- The part of `wrapremovech` after the loop, where it has pulled something. -/
def unlink (line : FixedTextLine) (below : List FixedTextLine) (deletedLine : Option Nat) :
    List FixedTextLine × Option Nat :=
  if nextSize below = 0 then ({ line with wrapped := false } :: below, some 1)
  else (line :: below, deletedLine.map (· + 1))

theorem wrapremovech_full (depth : Nat) {chars : List FixedCharacter} {below : List FixedTextLine}
    (full : chars.length = maxLineChars) (some_ : 0 < nextSize below) :
    wrapremovech maxLineChars (depth + 1) chars.length (⟨chars, true⟩ :: below) =
      unlink ⟨chars, true⟩ (wrapremovech maxLineChars depth 0 below).1
        (wrapremovech maxLineChars depth 0 below).2 := by
  have space : maxLineChars - FixedTextLine.size ⟨chars, true⟩ = 0 := by
    simp [FixedTextLine.size, full]
  have again : true = true ∧ 0 < nextSize below ∧
      chars.length = FixedTextLine.size ⟨chars, true⟩ := ⟨rfl, some_, rfl⟩
  rw [wrapremovech]
  simp only [remove_end, space, pull]
  rw [if_neg (by simp [nextSize_pos_ne some_])]
  simp only [again, and_self, if_true]
  rfl

/-- The line at the caret and those below it after `wrapremovech`. -/
structure Removed (maxLineChars x : Nat) (line : FixedTextLine) (below : List FixedTextLine)
    (r : List FixedTextLine × Option Nat) : Prop where
  length : r.1.length = below.length + 1
  shaped : Shaped maxLineChars r.1
  deleted : ∀ d, r.2 = some d → 0 < d ∧ d < below.length + 1
  column : ∀ first ∈ r.1.head?, x ≤ line.size → x ≤ first.size
  beyond : ∀ first ∈ r.1.head?, line.size < x →
    (line.wrapped = true → below ≠ [] → line.size = maxLineChars) → first.size = line.size

theorem removed_last {x : Nat} {line : FixedTextLine} {below : List FixedTextLine}
    (last : line.wrapped = false ∨ below = []) (fits : line.size ≤ maxLineChars)
    (shaped : Shaped maxLineChars below) :
    Removed maxLineChars x line below (line.remove x (x + 1) :: below, none) := by
  have size := remove_size line x
  have fits' : (line.remove x (x + 1)).size ≤ maxLineChars := by
    rw [size]
    split <;> omega
  refine ⟨rfl, ?_, by simp, ?_, ?_⟩
  · cases below with
    | nil => exact fits'
    | cons next rest =>
      have unwrapped := last.resolve_right (by simp)
      exact ⟨⟨fits', by simp [unwrapped]⟩, shaped⟩
  · rintro first ⟨⟩
    rw [size]
    split <;> omega
  · rintro first ⟨⟩ beyond _
    rw [size, if_neg (by omega)]

theorem removed_filled {x : Nat} {line filled : FixedTextLine} {below : List FixedTextLine}
    {removed : List FixedTextLine × Option Nat} (more : below ≠ [])
    (wrapped : line.wrapped = true) (fits : filled.size ≤ maxLineChars)
    (length : removed.1.length = below.length) (shaped : Shaped maxLineChars removed.1)
    (within : ∀ d, removed.2 = some d → d < below.length)
    (column : x ≤ line.size → x ≤ filled.size)
    (beyond : line.size < x → line.size = maxLineChars → filled.size = line.size)
    (full : nextSize removed.1 ≠ 0 → filled.size = maxLineChars) :
    Removed maxLineChars x line below (if nextSize removed.1 = 0
      then ({ filled with wrapped := false } :: removed.1, some 1)
      else (filled :: removed.1, removed.2.map (· + 1))) := by
  have positive := List.length_pos_iff.mpr more
  have removedMore : removed.1 ≠ [] := List.ne_nil_of_length_pos (length ▸ positive)
  by_cases emptied : nextSize removed.1 = 0
  · rw [if_pos emptied]
    refine ⟨by simp [length], ?_, ?_, ?_, ?_⟩
    · rw [shaped_cons removedMore]
      exact ⟨⟨fits, by simp⟩, shaped⟩
    · rintro d ⟨⟩
      omega
    · rintro first ⟨⟩
      exact column
    · rintro first ⟨⟩ apart kept
      exact beyond apart (kept wrapped more)
  · rw [if_neg emptied]
    refine ⟨by simp [length], ?_, ?_, ?_, ?_⟩
    · rw [shaped_cons removedMore]
      exact ⟨⟨fits, fun _ => full emptied⟩, shaped⟩
    · intro d deleted
      obtain ⟨d', which, rfl⟩ := Option.map_eq_some_iff.mp deleted
      have := within d' which
      omega
    · rintro first ⟨⟩
      exact column
    · rintro first ⟨⟩ apart kept
      exact beyond apart (kept wrapped more)

theorem wrapremovech_shape (depth x : Nat) (line : FixedTextLine) (below : List FixedTextLine)
    (enough : below.length < depth) (fits : line.size ≤ maxLineChars)
    (shaped : Shaped maxLineChars below) :
    Removed maxLineChars x line below (wrapremovech maxLineChars depth x (line :: below)) := by
  induction depth generalizing x line below with
  | zero => omega
  | succ depth ih =>
    have keeps : KeepsShape maxLineChars below.length (wrapremovech maxLineChars depth 0) := by
      intro lines more length shaped
      obtain ⟨next, rest, rfl⟩ := List.exists_cons_of_ne_nil more
      rw [List.length_cons] at length
      have removed := ih 0 next rest (by omega) (shaped_size shaped (by simp))
        (shaped_tail shaped)
      exact ⟨by rw [removed.length, length], removed.shaped,
        fun d h => length ▸ (removed.deleted d h).2⟩
    unfold wrapremovech
    simp only [remove_wrapped]
    by_cases last : line.wrapped = false ∨ below = []
    · rw [if_pos last]
      exact removed_last last fits shaped
    · rw [if_neg last]
      obtain ⟨wrapped, more⟩ := not_or.mp last
      have size := remove_size line x
      have column : x ≤ line.size → x ≤ (line.remove x (x + 1)).size := by
        rw [size]
        split <;> omega
      have filled := pull_shape keeps (maxLineChars - (line.remove x (x + 1)).size)
        (line.remove x (x + 1)) below none false rfl more shaped (by simp)
      generalize pull (wrapremovech maxLineChars depth 0)
        (maxLineChars - (line.remove x (x + 1)).size) (line.remove x (x + 1)) below none false
        = p at filled ⊢
      obtain ⟨length, shapedBelow, within, -, sizeLow, sizeHigh, done⟩ := filled
      have sizes : (line.remove x (x + 1)).size ≤ line.size ∧
          (line.size < x → (line.remove x (x + 1)).size = line.size) := by
        rw [size]
        split <;> omega
      generalize which : (if p.2.2.2 = false ∧ 0 < nextSize p.2.1 ∧ x = p.1.size
        then wrapremovech maxLineChars depth 0 p.2.1 else (p.2.1, p.2.2.1)) = removed
      have after : removed.1.length = below.length ∧ Shaped maxLineChars removed.1 ∧
          ∀ d, removed.2 = some d → d < below.length := by
        rw [← which]
        split
        next again => exact keeps _ (nextSize_pos_ne again.2.1) length shapedBelow
        next => exact ⟨length, shapedBelow, within⟩
      have full : nextSize removed.1 ≠ 0 → p.1.size = maxLineChars := by
        intro some_
        rcases done with none_ | full
        · rw [← which, if_neg (by omega)] at some_
          exact absurd none_ some_
        · omega
      refine removed_filled more (by simpa using wrapped) (by omega) after.1 after.2.1 after.2.2
        (fun inside => Nat.le_trans (column inside) sizeLow) (fun beyond kept => ?_) full
      have same := sizes.2 beyond
      omega

theorem insertAll_eq (before after chars : List FixedCharacter) (wrapped : Bool) :
    insertAll ⟨before ++ after, wrapped⟩ before.length chars =
      .ok ⟨before ++ chars ++ after, wrapped⟩ := by
  induction chars generalizing before with
  | nil => simp [insertAll]
  | cons ch chars ih =>
    have inside : before.length ≤ (⟨before ++ after, wrapped⟩ : FixedTextLine).size := by
      simp [FixedTextLine.size]
    have inserted : FixedTextLine.insert ⟨before ++ after, wrapped⟩ before.length ch =
        .ok ⟨before ++ [ch] ++ after, wrapped⟩ := by
      rw [FixedTextLine.insert, if_pos inside, SplitList.insertIdx_length]
      simp
    have rest := ih (before ++ [ch])
    simp only [List.length_append, List.length_singleton] at rest
    rw [insertAll, inserted]
    change insertAll _ _ _ = _
    rw [rest]
    simp

theorem insertAll_ok {line line' : FixedTextLine} {lineX : Nat} {chars : List FixedCharacter}
    (some_ : chars ≠ []) (ok : insertAll line lineX chars = .ok line') :
    ∃ before after, line = ⟨before ++ after, line.wrapped⟩ ∧ lineX = before.length ∧
      line' = ⟨before ++ chars ++ after, line.wrapped⟩ := by
  by_cases inside : lineX ≤ line.size
  · have length : (line.chars.take lineX).length = lineX := by
      rw [List.length_take]
      exact Nat.min_eq_left inside
    refine ⟨line.chars.take lineX, line.chars.drop lineX, ?_, length.symm, ?_⟩
    · rw [List.take_append_drop]
    · have eq := insertAll_eq (line.chars.take lineX) (line.chars.drop lineX) chars line.wrapped
      rw [List.take_append_drop, length] at eq
      exact Except.ok.inj (ok.symm.trans eq)
  · obtain ⟨ch, rest, rfl⟩ := List.exists_cons_of_ne_nil some_
    simp [insertAll, FixedTextLine.insert, inside] at ok

theorem overflowLines_solid (room : 0 < maxLineChars) (filled chars : List FixedCharacter)
    (fits : filled.length ≤ maxLineChars) :
    ∀ line ∈ overflowLines maxLineChars filled chars, Solid maxLineChars line := by
  induction chars generalizing filled with
  | nil =>
    intro line mem
    rw [overflowLines, List.mem_singleton] at mem
    subst mem
    exact ⟨fits, by simp⟩
  | cons ch chars ih =>
    rw [overflowLines]
    split
    · exact ih _ (by simp; omega)
    · intro line mem
      rcases List.mem_cons.mp mem with rfl | later
      · have full : filled.length = maxLineChars := by omega
        exact ⟨fits, fun _ => full⟩
      · exact ih [ch] room line later

theorem overflowLines_length (maxLineChars : Nat) (filled chars : List FixedCharacter) :
    0 < (overflowLines maxLineChars filled chars).length := by
  induction chars generalizing filled with
  | nil => simp [overflowLines]
  | cons ch chars ih =>
    rw [overflowLines]
    split
    · exact ih _
    · simp

structure Inserted (maxLineChars lineX count : Nat) (lines : List FixedTextLine)
    (r : List FixedTextLine × Nat) : Prop where
  length : r.1.length = lines.length + r.2
  shaped : Shaped maxLineChars r.1
  inside : ∀ line ∈ lines.head?, lineX ≤ line.size
  first : ∀ line ∈ lines.head?, ∀ line' ∈ r.1.head?,
    line'.size = min maxLineChars (line.size + count)
  more : ∀ line ∈ lines.head?, maxLineChars < line.size + count → 1 < r.1.length

theorem inserted_fits {lineX count : Nat} {line line' : FixedTextLine}
    {below : List FixedTextLine} (inside : lineX ≤ line.size) (some_ : 0 < count)
    (size : line'.size = line.size + count) (fits : line'.size ≤ maxLineChars)
    (same : line'.wrapped = line.wrapped) (shaped : Shaped maxLineChars (line :: below)) :
    Inserted maxLineChars lineX count (line :: below) (line' :: below, 0) := by
  refine ⟨rfl, ?_, ?_, ?_, ?_⟩
  · cases below with
    | nil => exact fits
    | cons next rest =>
      refine ⟨⟨fits, fun wrapped => ?_⟩, shaped.2⟩
      have full := shaped.1.2 (same.symm.trans wrapped)
      omega
  · rintro _ ⟨⟩
    exact inside
  · rintro _ ⟨⟩ _ ⟨⟩
    omega
  · rintro _ ⟨⟩ beyond
    omega

theorem inserted_exceeds {lineX count added : Nat} {line kept : FixedTextLine}
    {below rest : List FixedTextLine} (inside : lineX ≤ line.size)
    (exceeds : maxLineChars < line.size + count) (full : kept.size = maxLineChars)
    (length : rest.length = below.length + added) (more : rest ≠ [])
    (shaped : Shaped maxLineChars rest) :
    Inserted maxLineChars lineX count (line :: below) (kept :: rest, added) := by
  refine ⟨?_, ?_, ?_, ?_, ?_⟩
  · simp only [List.length_cons, length]
    omega
  · rw [shaped_cons more]
    exact ⟨⟨Nat.le_of_eq full, fun _ => full⟩, shaped⟩
  · rintro _ ⟨⟩
    exact inside
  · rintro _ ⟨⟩ _ ⟨⟩
    omega
  · intro _ _ _
    have positive := List.length_pos_iff.mpr more
    change 1 < rest.length + 1
    omega

theorem insertFrom_shape (room : 0 < maxLineChars) {lineX lineY : Nat}
    {chars : List FixedCharacter} {lines : List FixedTextLine} {r : List FixedTextLine × Nat}
    (some_ : chars ≠ []) (shaped : Shaped maxLineChars lines)
    (ok : insertFrom maxLineChars lineX lineY chars lines = .ok r) :
    Inserted maxLineChars lineX chars.length lines r := by
  induction lines generalizing lineX lineY chars r with
  | nil => simp [insertFrom] at ok
  | cons line below ih =>
    rw [insertFrom, Fallible.bind_ok_iff] at ok
    obtain ⟨line', inserted, ok⟩ := ok
    obtain ⟨before, after, shape, rfl, rfl⟩ := insertAll_ok some_ inserted
    have size : line.size = before.length + after.length := by
      rw [shape]
      simp [FixedTextLine.size]
    have inside : before.length ≤ line.size := by omega
    generalize all : before ++ chars ++ after = whole at ok
    have length : whole.length = line.size + chars.length := by
      rw [← all, size]
      simp
      omega
    by_cases exceeds : maxLineChars < whole.length
    · have wrapChars : (whole.drop maxLineChars).isEmpty = false := by
        simp
        omega
      have full : (⟨whole.take maxLineChars, true⟩ : FixedTextLine).size = maxLineChars := by
        simp [FixedTextLine.size]
        omega
      simp only [wrapChars, Bool.false_eq_true, if_false] at ok
      by_cases wrapped : line.wrapped = true
      · rw [if_pos wrapped, Fallible.bind_ok_iff] at ok
        obtain ⟨⟨below', added⟩, cascade, ok⟩ := ok
        cases ok
        have rest := ih (by simpa using wrapChars) (shaped_tail shaped) cascade
        have length' : below'.length = below.length + added := rest.length
        have more : below' ≠ [] := by
          rintro rfl
          have none_ : below = [] := List.length_eq_zero_iff.mp (by simp at length'; omega)
          subst none_
          simp [insertFrom] at cascade
        exact inserted_exceeds inside (length ▸ exceeds) full length' more rest.shaped
      · rw [if_neg wrapped, List.cons_append] at ok
        cases ok
        have newLines := overflowLines_solid room [] (whole.drop maxLineChars) (by simp)
        have positive := overflowLines_length maxLineChars [] (whole.drop maxLineChars)
        refine inserted_exceeds inside (length ▸ exceeds) full ?_ ?_ ?_
        · rw [List.length_append, Nat.add_comm]
        · exact List.ne_nil_of_length_pos (by rw [List.length_append]; omega)
        · exact shaped_solid_append _ newLines (shaped_tail shaped)
    · have wrapChars : (whole.drop maxLineChars).isEmpty = true := by
        simp
        omega
      simp only [wrapChars, if_true] at ok
      cases ok
      exact inserted_fits inside (List.length_pos_iff.mpr some_) length
        (Nat.le_of_not_lt exceeds) rfl shaped

end FixedText
