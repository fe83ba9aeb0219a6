import UpanLibs.TextArea.Styled.LinesRefill

/-!
The ends of lines: `wrapremovech` takes none away, and every line it reports as deleted is
below one that has an end now.
-/
namespace StyledText

open TextInput Fallible
open WrappedText (Layout Sym)
open WrappedText.Layout (symbols)

def endings (lines : List TextLine) : Nat := lines.countP fun line => !line.wrapped

def settled (r : List TextLine × Option Nat) : List TextLine :=
  match r.2 with
  | some deleted => r.1.eraseIdx deleted
  | none => r.1

theorem settled_cons (line : TextLine) (r : List TextLine × Option Nat) :
    settled (line :: r.1, r.2.map (· + 1)) = line :: settled r := by
  cases which : r.2 <;> simp [settled, which]

@[simp]
theorem endings_nil : endings [] = 0 := rfl

theorem endings_wrapped {line : TextLine} (below : List TextLine) (wrapped : line.wrapped = true) :
    endings (line :: below) = endings below := by
  simp [endings, wrapped]

theorem endings_unwrapped {line : TextLine} (below : List TextLine)
    (unwrapped : line.wrapped = false) : endings (line :: below) = endings below + 1 := by
  simp [endings, unwrapped]

theorem endings_head {line line' : TextLine} {below below' : List TextLine}
    (wrapped : line'.wrapped = line.wrapped) :
    endings (line :: below) + endings below' = endings (line' :: below') + endings below := by
  cases same : line.wrapped with
  | true => rw [endings_wrapped _ same, endings_wrapped _ (wrapped.trans same), Nat.add_comm]
  | false =>
    rw [endings_unwrapped _ same, endings_unwrapped _ (wrapped.trans same)]
    omega

theorem endings_eraseIdx (lines : List TextLine) (deleted : Nat) :
    endings lines ≤ endings (lines.eraseIdx deleted) + 1 ∧
      endings (lines.eraseIdx deleted) ≤ endings lines := by
  refine ⟨?_, (List.eraseIdx_sublist lines deleted).countP_le⟩
  induction lines generalizing deleted with
  | nil => exact Nat.zero_le _
  | cons line below ih =>
    cases deleted with
    | zero =>
      cases wrapped : line.wrapped with
      | true => rw [endings_wrapped _ wrapped]; exact Nat.le_succ _
      | false => rw [endings_unwrapped _ wrapped]; exact Nat.le_refl _
    | succ deleted =>
      have ih := ih deleted
      have same : endings (line :: below) + endings (below.eraseIdx deleted) =
          endings (line :: below.eraseIdx deleted) + endings below := endings_head rfl
      rw [List.eraseIdx_cons_succ]
      omega

/-- No end of a line is lost, and a line that is deleted was below one that now has an end. -/
structure Flows (base : Nat) (r : List TextLine × Option Nat) : Prop where
  keeps : base ≤ endings r.1
  reports : ∀ deleted, r.2 = some deleted → base < endings r.1 ∧ ∃ above,
    deleted = above + 1 ∧ ∃ line, r.1[above]? = some line ∧ line.wrapped = false

theorem Flows.of_le {base base' : Nat} {r : List TextLine × Option Nat} (le : base ≤ base')
    (flows : Flows base' r) : Flows base r := by
  refine ⟨Nat.le_trans le flows.keeps, fun deleted which => ?_⟩
  obtain ⟨more, above⟩ := flows.reports deleted which
  exact ⟨Nat.lt_of_le_of_lt le more, above⟩

theorem Flows.settled_ge {base : Nat} {r : List TextLine × Option Nat} (flows : Flows base r) :
    base ≤ endings (settled r) := by
  unfold settled
  cases which : r.2 with
  | none => exact flows.keeps
  | some deleted =>
    have more := (flows.reports deleted which).1
    have erased := (endings_eraseIdx r.1 deleted).1
    simp only
    omega

theorem Flows.settled_first {base : Nat} {r : List TextLine × Option Nat} (flows : Flows base r)
    {first : TextLine} {rest : List TextLine} (lines : r.1 = first :: rest) :
    ∃ rest', settled r = first :: rest' := by
  cases which : r.2 with
  | none => exact ⟨rest, by rw [settled, which]; exact lines⟩
  | some deleted =>
    obtain ⟨-, above, rfl, -⟩ := flows.reports deleted which
    refine ⟨rest.eraseIdx above, ?_⟩
    rw [settled, which, lines]
    rfl

theorem Flows.cons {line line' : TextLine} {below : List TextLine}
    {r : List TextLine × Option Nat} (wrapped : line'.wrapped = line.wrapped)
    (flows : Flows (endings below) r) :
    Flows (endings (line :: below)) (line' :: r.1, r.2.map (· + 1)) := by
  have same : endings (line :: below) + endings r.1 = endings (line' :: r.1) + endings below :=
    endings_head wrapped
  have keeps := flows.keeps
  constructor
  · simp only
    omega
  · intro deleted which
    obtain ⟨d, lower, rfl⟩ := Option.map_eq_some_iff.mp which
    obtain ⟨more, above, rfl, here⟩ := flows.reports d lower
    refine ⟨?_, above + 1, rfl, here⟩
    simp only
    omega

theorem Flows.unwrap {line line' : TextLine} {below : List TextLine}
    {r : List TextLine × Option Nat} (wrapped : line.wrapped = true)
    (flows : Flows (endings below) r) :
    Flows (endings (line :: below)) ({ line' with wrapped := false } :: r.1, some 1) := by
  have keeps := flows.keeps
  have more : endings (line :: below) < endings ({ line' with wrapped := false } :: r.1) := by
    rw [endings_wrapped _ wrapped, endings_unwrapped _ rfl]
    omega
  refine ⟨Nat.le_of_lt more, ?_⟩
  rintro deleted ⟨⟩
  exact ⟨more, 0, rfl, _, rfl, rfl⟩

variable {maxLineCharWidth : Nat}

theorem pull_flows {remove : List TextLine → List TextLine × Option Nat}
    (flows : ∀ lines, Flows (endings lines) (remove lines)) {base : Nat} (characters : Nat)
    (line : TextLine) (below : List TextLine) (deletedLine : Option Nat) (moved : Bool)
    (start : Flows base (below, deletedLine)) :
    let r := pull maxLineCharWidth remove characters line below deletedLine moved
    Flows base (r.2.1, r.2.2.1) ∧ r.1.wrapped = line.wrapped := by
  fun_induction pull maxLineCharWidth remove characters line below deletedLine moved with
  | case1 => exact ⟨start, rfl⟩
  | case2 characters line next below deletedLine moved ch chs first fits removed ih =>
    exact ih ((flows (next :: below)).of_le start.keeps)
  | case3 => exact ⟨start, rfl⟩
  | case4 => exact ⟨start, rfl⟩

theorem takeOne_flows {remove : List TextLine → List TextLine × Option Nat}
    (flows : ∀ lines, Flows (endings lines) (remove lines)) {base x : Nat}
    {filled : TextLine × List TextLine × Option Nat × Bool}
    (start : Flows base (filled.2.1, filled.2.2.1)) : Flows base (takeOne remove x filled) := by
  unfold takeOne
  split
  · exact (flows _).of_le start.keeps
  · exact start

theorem closed_flows {line line' : TextLine} {below : List TextLine}
    {removed : List TextLine × Option Nat} (wrapped : line.wrapped = true)
    (same : line'.wrapped = line.wrapped) (flows : Flows (endings below) removed) :
    Flows (endings (line :: below)) (closed line' removed) ∧
      endings below ≤ endings (closed line' removed).1.tail := by
  unfold closed
  split
  · exact ⟨flows.unwrap wrapped, flows.keeps⟩
  · exact ⟨flows.cons same, flows.keeps⟩

variable (maxLineCharWidth) in
theorem wrapremovech_flows (depth x : Nat) (lines : List TextLine) :
    let r := wrapremovech maxLineCharWidth depth x lines
    Flows (endings lines) r ∧ endings lines.tail ≤ endings r.1.tail := by
  induction depth generalizing x lines with
  | zero => exact ⟨⟨Nat.le_refl _, by simp [wrapremovech]⟩, Nat.le_refl _⟩
  | succ depth ih =>
    cases lines with
    | nil => exact ⟨⟨Nat.le_refl _, by simp [wrapremovech]⟩, Nat.le_refl _⟩
    | cons line below =>
      have same := remove_wrapped line x (x + 1)
      have start : Flows (endings below) (below, none) := ⟨Nat.le_refl _, by simp⟩
      by_cases last : line.wrapped = false ∨ below = []
      · rw [wrapremovech_last last]
        exact ⟨start.cons same, Nat.le_refl _⟩
      · obtain ⟨wrapped, more⟩ := not_or.mp last
        have wrapped : line.wrapped = true := by simpa using wrapped
        have flows := fun lines => (ih 0 lines).1
        obtain ⟨filled, kept⟩ := pull_flows flows (totalCharacters below)
          (line.remove x (x + 1)) below none false start
        rw [wrapremovech_wrapped wrapped more]
        exact closed_flows wrapped (kept.trans same) (takeOne_flows flows filled)

variable (maxLineCharWidth) in
theorem fillUp_wrapped (depth : Nat) (line : TextLine) (below : List TextLine) :
    (fillUp maxLineCharWidth depth line below).1.wrapped = line.wrapped := by
  have start : Flows (endings below) (below, none) := ⟨Nat.le_refl _, by simp⟩
  exact (pull_flows (fun lines => (wrapremovech_flows maxLineCharWidth depth 0 lines).1) _ line below none false
    start).2

theorem flags_endings {lines lines' : List TextLine}
    (flags : lines'.map (·.wrapped) = lines.map (·.wrapped)) : endings lines' = endings lines := by
  have count (ls : List TextLine) : endings ls = (ls.map (·.wrapped)).countP (!·) := by
    rw [List.countP_map]
    rfl
  rw [count, count, flags]

theorem symbols_newlines (characters : List Character) :
    (symbols characters).count .newline = 0 := by
  induction characters with
  | nil => rfl
  | cons ch characters ih => simp [ih]

theorem text_newlines_ge (lines : List TextLine) :
    endings lines ≤ (layout.text lines).count .newline + 1 := by
  induction lines with
  | nil => exact Nat.zero_le _
  | cons line below ih =>
    cases wrapped : line.wrapped with
    | true =>
      rw [endings_wrapped _ wrapped, text_wrapped below wrapped, List.count_append,
        symbols_newlines, Nat.zero_add]
      exact ih
    | false =>
      rw [endings_unwrapped _ wrapped]
      cases below with
      | nil => simp
      | cons next below =>
        rw [layout.text_cons (List.cons_ne_nil next below), List.count_append, List.count_append,
          symbols_newlines]
        simp only [Layout.ending, show layout.wrapped line = false from wrapped]
        simp only [Bool.false_eq_true, if_false, List.count_singleton_self]
        omega

theorem text_newlines {lines : List TextLine} (some_ : lines ≠ []) (ends : layout.Ends lines) :
    (layout.text lines).count .newline + 1 = endings lines := by
  induction lines with
  | nil => exact absurd rfl some_
  | cons line below ih =>
    cases below with
    | nil =>
      have unwrapped : line.wrapped = false := ends line rfl
      rw [endings_unwrapped _ unwrapped, Layout.text, symbols_newlines, endings_nil]
    | cons next below =>
      have ih := ih (List.cons_ne_nil _ _) ((layout.ends_cons (List.cons_ne_nil _ _)).mp ends)
      cases wrapped : line.wrapped with
      | true =>
        rw [endings_wrapped _ wrapped, text_wrapped _ wrapped, List.count_append,
          symbols_newlines, Nat.zero_add]
        exact ih
      | false =>
        rw [endings_unwrapped _ wrapped, layout.text_cons (List.cons_ne_nil next below),
          List.count_append, List.count_append, symbols_newlines, ← ih]
        simp only [Layout.ending, show layout.wrapped line = false from wrapped]
        simp only [Bool.false_eq_true, if_false, List.count_singleton_self]
        omega

end StyledText
