import Mathlib.Algebra.Order.Ring.Int
import UpanLibs.TextArea.Fixed.FixedLinesShape
import UpanLibs.Text.WrappedText

/-!
Realigning the lines to a new width: the lines take the shape the new width asks for
and hold as many characters as before, unless the last line is marked wrapped and
its paragraph does not fit in its lines any more.
-/
namespace FixedText

open TextInput
open WrappedText (Layout)

variable {maxLineChars : Nat}

def layout : Layout FixedTextLine FixedCharacter := ⟨FixedTextLine.chars, FixedTextLine.wrapped⟩

def totalChars (lines : List FixedTextLine) : Nat := (lines.map (·.size)).sum

@[simp]
theorem totalChars_nil : totalChars [] = 0 := rfl

@[simp]
theorem totalChars_cons (line : FixedTextLine) (below : List FixedTextLine) :
    totalChars (line :: below) = line.size + totalChars below := by
  simp [totalChars]

@[simp]
theorem totalChars_append (above below : List FixedTextLine) :
    totalChars (above ++ below) = totalChars above + totalChars below := by
  simp [totalChars]

@[simp]
theorem size_mk (chars : List FixedCharacter) (wrapped : Bool) :
    (⟨chars, wrapped⟩ : FixedTextLine).size = chars.length := rfl

theorem overflowLines_chars (filled chars : List FixedCharacter) :
    totalChars (overflowLines maxLineChars filled chars) = filled.length + chars.length := by
  induction chars generalizing filled with
  | nil => simp [overflowLines]
  | cons ch chars ih =>
    rw [overflowLines]
    split
    · rw [ih]
      simp
      omega
    · rw [totalChars_cons, ih, size_mk]
      simp
      omega

/-- Lines as `realign` leaves them: of the new shape, with all the characters. -/
structure Realigned (maxLineChars : Nat) (lines lines' : List FixedTextLine) : Prop where
  nonempty : lines' ≠ []
  shaped : Shaped maxLineChars lines'
  chars : totalChars lines' = totalChars lines

theorem realigned_cons {line' : FixedTextLine} {lines below' : List FixedTextLine}
    (solid : Solid maxLineChars line') (below : Realigned maxLineChars lines below')
    {all : List FixedTextLine} (chars : totalChars all = line'.size + totalChars lines) :
    Realigned maxLineChars all (line' :: below') := by
  refine ⟨by simp, (shaped_cons below.nonempty).mpr ⟨solid, below.shaped⟩, ?_⟩
  rw [totalChars_cons, below.chars, chars]

theorem size_filled (line next : FixedTextLine) (avail : Nat) (wrapped : Bool) :
    (⟨line.chars ++ next.chars.take avail, wrapped⟩ : FixedTextLine).size =
      line.size + min avail next.size := by
  simp [FixedTextLine.size]

theorem size_filled_le (line next : FixedTextLine) (wrapped : Bool)
    (fits : line.size ≤ maxLineChars) :
    (⟨line.chars ++ next.chars.take (maxLineChars - line.size), wrapped⟩ :
      FixedTextLine).size ≤ maxLineChars := by
  rw [size_filled]
  omega

theorem size_filled_all (line next : FixedTextLine) (wrapped : Bool)
    (none_ : next.chars.drop (maxLineChars - line.size) = []) :
    (⟨line.chars ++ next.chars.take (maxLineChars - line.size), wrapped⟩ :
      FixedTextLine).size = line.size + next.size := by
  have short : next.size ≤ maxLineChars - line.size := List.drop_eq_nil_iff.mp none_
  rw [size_filled]
  omega

theorem realign_increase (li : Nat) (line : FixedTextLine) (below : List FixedTextLine)
    (fits : ∀ l ∈ line :: below, l.size ≤ maxLineChars) {r : List FixedTextLine}
    (ok : realignOnWidthIncrease maxLineChars li line below = .ok r) :
    Realigned maxLineChars (line :: below) r := by
  fun_induction realignOnWidthIncrease maxLineChars li line below generalizing r with
  | case1 => simp at ok
  | case2 =>
    cases ok
    exact ⟨by simp, fits _ (by simp), rfl⟩
  | case3 li line next below wrapped moved left line' some_ =>
    rename_i ih
    obtain ⟨r', rest, same⟩ := Fallible.bind_ok_iff.mp ok
    cases same
    have size : line'.size = line.size + min (maxLineChars - line.size) next.size :=
      size_filled line next _ _
    have sizeLeft : left.length = next.size - (maxLineChars - line.size) := by
      simp [left, FixedTextLine.size]
    have positive := List.length_pos_iff.mpr some_
    have lineFits := fits line (by simp)
    have nextFits := fits next (by simp)
    have full : line'.size = maxLineChars := by omega
    refine realigned_cons ⟨Nat.le_of_eq full, fun _ => full⟩ (ih ?_ rest) ?_
    · intro l mem
      rcases List.mem_cons.mp mem with rfl | later
      · rw [size_mk]
        omega
      · exact fits l (by simp [later])
    · simp only [totalChars_cons, size_mk]
      omega
  | case4 li line next below wrapped moved left line' none_ nextWrapped =>
    rename_i ih
    have size := size_filled_all line next line.wrapped (not_not.mp none_)
    have lineFits := fits line (by simp)
    have nextFits := fits next (by simp)
    have after := ih (fun l mem => ?_) ok
    · refine ⟨after.nonempty, after.shaped, ?_⟩
      rw [after.chars]
      simp only [totalChars_cons, line', moved, size]
      omega
    · rcases List.mem_cons.mp mem with rfl | later
      · exact size_filled_le line next line.wrapped lineFits
      · exact fits l (by simp [later])
  | case5 li line next wrapped moved left line' none_ =>
    cases ok
    have size := size_filled_all line next false (not_not.mp none_)
    refine ⟨by simp, size_filled_le line next false (fits line (by simp)), ?_⟩
    simp only [totalChars_cons, totalChars_nil]
    omega
  | case6 li line next wrapped moved left line' none_ nextUnwrapped following below =>
    rename_i ih
    obtain ⟨r', rest, same⟩ := Fallible.bind_ok_iff.mp ok
    cases same
    have size : (⟨line'.chars, false⟩ : FixedTextLine).size = line.size + next.size :=
      size_filled_all line next false (not_not.mp none_)
    have solid : Solid maxLineChars ⟨line'.chars, false⟩ :=
      ⟨size_filled_le line next false (fits line (by simp)), by simp⟩
    refine realigned_cons solid (ih (fun l mem => fits l (by simp [mem])) rest) ?_
    simp only [totalChars_cons]
    omega
  | case7 li line next below unwrapped =>
    rename_i ih
    obtain ⟨r', rest, same⟩ := Fallible.bind_ok_iff.mp ok
    cases same
    refine realigned_cons ⟨fits line (by simp), fun wrapped => absurd wrapped unwrapped⟩
      (ih (fun l mem => fits l (by simp [mem])) rest) ?_
    simp

def openLines : List FixedTextLine → List FixedTextLine
  | [] => []
  | line :: below =>
      if (line :: below).all (·.wrapped) then line :: below else openLines below

def ParagraphFits (maxLineChars : Nat) (lines : List FixedTextLine) : Prop :=
  totalChars (openLines lines) ≤ (openLines lines).length * maxLineChars

instance (maxLineChars : Nat) (lines : List FixedTextLine) :
    Decidable (ParagraphFits maxLineChars lines) := inferInstanceAs (Decidable (_ ≤ _))

theorem realign_decrease_shape {old : Nat} (room : 0 < maxLineChars)
    (narrower : maxLineChars ≤ old) (carried : List FixedCharacter)
    (lines : List FixedTextLine) (shaped : Shaped old lines) :
    (realignOnWidthDecrease maxLineChars carried lines = [] ↔ lines = []) ∧
      Shaped maxLineChars (realignOnWidthDecrease maxLineChars carried lines) := by
  induction lines generalizing carried with
  | nil => exact ⟨Iff.rfl, trivial⟩
  | cons line below ih =>
    have wide : below ≠ [] → line.wrapped = true → maxLineChars ≤ line.size := by
      intro more wrapped
      have full := ((shaped_cons more).mp shaped).1.2 wrapped
      omega
    have rest := fun carried => ih carried (shaped_tail shaped)
    rw [realignOnWidthDecrease]
    generalize all : carried ++ line.chars = whole
    have length : whole.length = carried.length + line.size := by
      rw [← all]
      simp [FixedTextLine.size]
    by_cases fit : whole.drop maxLineChars = []
    · have short := List.drop_eq_nil_iff.mp fit
      simp only [fit, if_true]
      refine ⟨by simp, ?_⟩
      by_cases more : below = []
      · subst more
        exact short
      · rw [shaped_cons (fun empty => more ((rest []).1.mp empty))]
        refine ⟨⟨short, fun wrapped => ?_⟩, (rest []).2⟩
        have := wide more wrapped
        rw [size_mk]
        omega
    · have long : maxLineChars < whole.length := by
        simpa using fit
      have kept (wrapped : Bool) :
          (⟨whole.take maxLineChars, wrapped⟩ : FixedTextLine).size = maxLineChars := by
        rw [size_mk, List.length_take]
        omega
      have solid (wrapped : Bool) : Solid maxLineChars ⟨whole.take maxLineChars, wrapped⟩ :=
        ⟨Nat.le_of_eq (kept wrapped), fun _ => kept wrapped⟩
      simp only [fit, if_false]
      by_cases wrapped : line.wrapped = true
      · rw [if_pos wrapped]
        exact ⟨by simp, shaped_solid_append [_] (by simpa using solid _) (rest _).2⟩
      · rw [if_neg wrapped]
        refine ⟨by simp, shaped_solid_append (_ :: _) ?_ (rest []).2⟩
        intro l mem
        rcases List.mem_cons.mp mem with rfl | later
        · exact solid true
        · exact overflowLines_solid room [] _ (by simp) l later

theorem openLines_all {lines : List FixedTextLine} (all : lines.all (·.wrapped) = true) :
    openLines lines = lines := by
  cases lines with
  | nil => rfl
  | cons line below => rw [openLines, if_pos all]

/-- What the last paragraph needs once `carried` characters come down to `lines`. -/
def CarryFits (maxLineChars carried : Nat) (lines : List FixedTextLine) : Prop :=
  if lines.all (·.wrapped) then carried + totalChars lines ≤ lines.length * maxLineChars
  else ParagraphFits maxLineChars lines

theorem carryFits_wrapped {carried : Nat} {line : FixedTextLine} {below : List FixedTextLine}
    (wrapped : line.wrapped = true) (wide : below ≠ [] → maxLineChars ≤ line.size)
    (fits : CarryFits maxLineChars carried (line :: below)) :
    CarryFits maxLineChars (carried + line.size - maxLineChars) below := by
  unfold CarryFits at fits ⊢
  simp only [List.all_cons, wrapped, Bool.true_and, List.length_cons, Nat.succ_mul,
    totalChars_cons] at fits
  by_cases all : below.all (·.wrapped) = true
  · rw [if_pos all] at fits ⊢
    by_cases more : below = []
    · subst more
      simp only [totalChars_nil, List.length_nil] at fits ⊢
      omega
    · have := wide more
      omega
  · rw [if_neg all] at fits ⊢
    unfold ParagraphFits at fits ⊢
    rwa [openLines, if_neg (by simp [wrapped, all])] at fits

theorem carryFits_unwrapped {carried : Nat} {line : FixedTextLine}
    {below : List FixedTextLine} (unwrapped : line.wrapped ≠ true)
    (fits : CarryFits maxLineChars carried (line :: below)) :
    CarryFits maxLineChars 0 below := by
  unfold CarryFits ParagraphFits at fits
  rw [if_neg (by simp [unwrapped]), openLines, if_neg (by simp [unwrapped])] at fits
  unfold CarryFits ParagraphFits
  split
  next all =>
    rw [openLines_all all] at fits
    omega
  next => exact fits

theorem realign_decrease_chars {old : Nat} (narrower : maxLineChars ≤ old)
    (carried : List FixedCharacter) (lines : List FixedTextLine) (shaped : Shaped old lines)
    (fits : CarryFits maxLineChars carried.length lines) :
    totalChars (realignOnWidthDecrease maxLineChars carried lines) =
      carried.length + totalChars lines := by
  induction lines generalizing carried with
  | nil =>
    simp only [CarryFits, List.all_nil, if_true, totalChars_nil, List.length_nil] at fits
    simp only [realignOnWidthDecrease, totalChars_nil]
    omega
  | cons line below ih =>
    have rest := fun carried => ih carried (shaped_tail shaped)
    have below' : line.wrapped = true → CarryFits maxLineChars
        (carried.length + line.size - maxLineChars) below := fun wrapped =>
      carryFits_wrapped wrapped (fun more => by
        have full := ((shaped_cons more).mp shaped).1.2 wrapped
        omega) fits
    rw [realignOnWidthDecrease]
    generalize all : carried ++ line.chars = whole
    have length : whole.length = carried.length + line.size := by
      rw [← all]
      simp [FixedTextLine.size]
    by_cases fit : whole.drop maxLineChars = []
    · have short := List.drop_eq_nil_iff.mp fit
      simp only [fit, if_true, totalChars_cons, size_mk]
      rw [rest []]
      · simp
        omega
      · by_cases wrapped : line.wrapped = true
        · have := below' wrapped
          rwa [show carried.length + line.size - maxLineChars = 0 by omega] at this
        · exact carryFits_unwrapped wrapped fits
    · have long : maxLineChars < whole.length := by
        simpa using fit
      have wrapChars : (whole.drop maxLineChars).length =
          carried.length + line.size - maxLineChars := by
        rw [List.length_drop, length]
      simp only [fit, if_false]
      by_cases wrapped : line.wrapped = true
      · rw [if_pos wrapped, totalChars_cons, rest _ (wrapChars ▸ below' wrapped), wrapChars]
        simp
        omega
      · rw [if_neg wrapped, totalChars_append, totalChars_cons, overflowLines_chars,
          rest [] (carryFits_unwrapped wrapped fits), wrapChars]
        simp
        omega

theorem realign_decrease {old : Nat} (room : 0 < maxLineChars)
    (narrower : maxLineChars ≤ old) {lines : List FixedTextLine} (some_ : lines ≠ [])
    (shaped : Shaped old lines) (fits : ParagraphFits maxLineChars lines) :
    Realigned maxLineChars lines (realignOnWidthDecrease maxLineChars [] lines) := by
  have shape := realign_decrease_shape room narrower [] lines shaped
  refine ⟨fun empty => some_ (shape.1.mp empty), shape.2, ?_⟩
  rw [realign_decrease_chars narrower [] lines shaped]
  · simp
  · unfold CarryFits
    split
    next all =>
      rw [ParagraphFits, openLines_all all] at fits
      simpa using fits
    next => exact fits

theorem ends_overflowLines (filled chars : List FixedCharacter) :
    layout.Ends (overflowLines maxLineChars filled chars) := by
  induction chars generalizing filled with
  | nil => simp [overflowLines, Layout.Ends, layout]
  | cons ch chars ih =>
    rw [overflowLines]
    split
    · exact ih _
    · rw [layout.ends_cons (List.length_pos_iff.mp (overflowLines_length maxLineChars _ _))]
      exact ih _

theorem realign_increase_ends (li : Nat) (line : FixedTextLine) (below : List FixedTextLine)
    (ends : layout.Ends (line :: below)) {r : List FixedTextLine}
    (ok : realignOnWidthIncrease maxLineChars li line below = .ok r) :
    r ≠ [] ∧ layout.Ends r := by
  fun_induction realignOnWidthIncrease maxLineChars li line below generalizing r with
  | case1 => simp at ok
  | case2 =>
    cases ok
    exact ⟨by simp, ends⟩
  | case3 li line next below wrapped moved left line' some_ =>
    rename_i ih
    obtain ⟨r', rest, same⟩ := Fallible.bind_ok_iff.mp ok
    cases same
    have tail : layout.Ends (next :: below) := (layout.ends_cons (by simp)).mp ends
    have shorter : layout.Ends (⟨left, next.wrapped⟩ :: below) := by
      refine layout.ends_head ?_ tail
      rfl
    obtain ⟨more, ends'⟩ := ih shorter rest
    exact ⟨by simp, (layout.ends_cons more).mpr ends'⟩
  | case4 li line next below wrapped moved left line' none_ nextWrapped =>
    rename_i ih
    refine ih ?_ ok
    cases below with
    | nil => exact absurd (ends next rfl) (by simp [layout, nextWrapped])
    | cons following below =>
      rw [layout.ends_cons (by simp)] at ends ⊢
      exact (layout.ends_cons (by simp)).mp ends
  | case5 li line next wrapped moved left line' none_ =>
    cases ok
    exact ⟨by simp, by simp [Layout.Ends, layout]⟩
  | case6 li line next wrapped moved left line' none_ nextUnwrapped following below =>
    rename_i ih
    obtain ⟨r', rest, same⟩ := Fallible.bind_ok_iff.mp ok
    cases same
    rw [layout.ends_cons (by simp), layout.ends_cons (by simp)] at ends
    obtain ⟨more, ends'⟩ := ih ends rest
    exact ⟨by simp, (layout.ends_cons more).mpr ends'⟩
  | case7 li line next below unwrapped =>
    rename_i ih
    obtain ⟨r', rest, same⟩ := Fallible.bind_ok_iff.mp ok
    cases same
    obtain ⟨more, ends'⟩ := ih ((layout.ends_cons (by simp)).mp ends) rest
    exact ⟨by simp, (layout.ends_cons more).mpr ends'⟩

theorem realign_decrease_ends (carried : List FixedCharacter) (lines : List FixedTextLine)
    (ends : layout.Ends lines) : layout.Ends (realignOnWidthDecrease maxLineChars carried lines) := by
  have nonempty (carried : List FixedCharacter) {lines : List FixedTextLine} (more : lines ≠ []) :
      realignOnWidthDecrease maxLineChars carried lines ≠ [] := by
    obtain ⟨line, below, rfl⟩ := List.exists_cons_of_ne_nil more
    rw [realignOnWidthDecrease]
    split
    · simp
    · split <;> simp
  induction lines generalizing carried with
  | nil => exact ends
  | cons line below ih =>
    have rest (carried : List FixedCharacter) :
        layout.Ends (realignOnWidthDecrease maxLineChars carried below) := by
      refine ih carried ?_
      cases below with
      | nil => simp [Layout.Ends, layout]
      | cons next below => exact (layout.ends_cons (by simp)).mp ends
    have keeps (kept carried : List FixedCharacter) (last : below = [] → line.wrapped = false) :
        layout.Ends (⟨kept, line.wrapped⟩ :: realignOnWidthDecrease maxLineChars carried below) := by
      by_cases more : below = []
      · subst more
        rintro _ ⟨⟩
        exact last rfl
      · exact (layout.ends_cons (nonempty carried more)).mpr (rest carried)
    have last : below = [] → line.wrapped = false := by
      rintro rfl
      exact ends line rfl
    rw [realignOnWidthDecrease]
    split
    · exact keeps _ _ last
    · split
      · exact keeps _ _ last
      · exact layout.ends_append (fun _ => (layout.ends_cons (List.length_pos_iff.mp
          (overflowLines_length maxLineChars _ _))).mpr (ends_overflowLines _ _)) (rest [])

theorem ends_paragraphFits {lines : List FixedTextLine} (ends : layout.Ends lines) :
    ParagraphFits maxLineChars lines := by
  have none_ : openLines lines = [] := by
    induction lines with
    | nil => rfl
    | cons line below ih =>
      have open_ : ¬ (line :: below).all (·.wrapped) = true := by
        intro all
        obtain ⟨last, here⟩ : ∃ last, (line :: below).getLast? = some last :=
          ⟨_, List.getLast?_eq_some_getLast (by simp)⟩
        have marked := List.all_eq_true.mp all last (List.mem_of_getLast? here)
        exact absurd (ends last here) (by simp [layout, marked])
      rw [openLines, if_neg open_]
      by_cases more : below = []
      · rw [more, openLines]
      · exact ih ((layout.ends_cons more).mp ends)
  simp [ParagraphFits, none_]

end FixedText
