import Mathlib.Tactic.Common
import Mathlib.Data.List.Basic

/-!
A text laid out in lines, where a line marked wrapped goes on in the next one, and an
editor of a plain text with a caret that such a layout can stand for.
-/
namespace WrappedText

universe u v

/-- A character of a text: one of a line's own, or the end of a line. -/
inductive Sym (α : Type u) where
  | chr (a : α)
  | newline
  deriving DecidableEq, Repr

/-- What the lines of a layout have to tell. -/
structure Layout (L : Type v) (α : Type u) where
  chars : L → List α
  wrapped : L → Bool

namespace Layout

variable {L : Type v} {α : Type u} (K : Layout L α)

def symbols (chars : List α) : List (Sym α) := chars.map .chr

def ending (line : L) : List (Sym α) := if K.wrapped line then [] else [.newline]

def textAbove : List L → List (Sym α)
  | [] => []
  | line :: below => symbols (K.chars line) ++ K.ending line ++ textAbove below

/-- All lines, with a newline between two of them exactly where the first one is not
    marked wrapped. -/
def text : List L → List (Sym α)
  | [] => []
  | [last] => symbols (K.chars last)
  | line :: next :: below => symbols (K.chars line) ++ K.ending line ++ text (next :: below)

/-- The text before the column `x` of line `y`. -/
def before (lines : List L) (x y : Nat) : List (Sym α) :=
  K.textAbove (lines.take y) ++
    (match lines[y]? with
      | some line => symbols ((K.chars line).take x)
      | none => [])

/-- The offset in the text of the column `x` of line `y`. -/
def offset (lines : List L) (x y : Nat) : Nat := (K.before lines x y).length

def Ends (lines : List L) : Prop := ∀ last ∈ lines.getLast?, K.wrapped last = false

theorem ends_cons {line : L} {below : List L} (more : below ≠ []) :
    K.Ends (line :: below) ↔ K.Ends below := by
  obtain ⟨next, below, rfl⟩ := List.exists_cons_of_ne_nil more
  rw [Ends, Ends, List.getLast?_cons_cons]

theorem ends_append {above below : List L} (first : below = [] → K.Ends above)
    (second : K.Ends below) : K.Ends (above ++ below) := by
  by_cases none_ : below = []
  · rw [none_, List.append_nil]
    exact first none_
  · unfold Ends
    rwa [List.getLast?_append_of_ne_nil _ none_]

theorem ends_append_iff {above below : List L} (more : below ≠ []) :
    K.Ends (above ++ below) ↔ K.Ends below := by
  unfold Ends
  rw [List.getLast?_append_of_ne_nil _ more]

theorem ends_head {line line' : L} {below : List L} (same : K.wrapped line' = K.wrapped line)
    (ends : K.Ends (line :: below)) : K.Ends (line' :: below) := by
  cases below with
  | nil =>
    rintro _ ⟨⟩
    exact same.trans (ends line rfl)
  | cons next below => exact (K.ends_cons (by simp)).mpr ((K.ends_cons (by simp)).mp ends)

theorem ends_wrapped_more {line : L} {below : List L} (ends : K.Ends (line :: below))
    (wrapped : K.wrapped line = true) : below ≠ [] := by
  rintro rfl
  rw [ends line rfl] at wrapped
  cases wrapped

@[simp]
theorem symbols_append (xs ys : List α) : symbols (xs ++ ys) = symbols xs ++ symbols ys := by
  simp [symbols]

@[simp]
theorem symbols_nil : symbols ([] : List α) = [] := rfl

@[simp]
theorem symbols_cons (x : α) (xs : List α) : symbols (x :: xs) = .chr x :: symbols xs := rfl

@[simp]
theorem symbols_length (xs : List α) : (symbols xs).length = xs.length := by
  simp [symbols]

theorem symbols_injective : Function.Injective (symbols : List α → List (Sym α)) :=
  List.map_injective_iff.mpr fun _ _ same => Sym.chr.inj same

theorem text_cons {line : L} {below : List L} (more : below ≠ []) :
    K.text (line :: below) = symbols (K.chars line) ++ K.ending line ++ K.text below := by
  cases below with
  | nil => exact absurd rfl more
  | cons next below => rfl

def tailText (line : L) (below : List L) : List (Sym α) :=
  if below = [] then [] else K.ending line ++ K.text below

theorem text_line (line : L) (below : List L) :
    K.text (line :: below) = symbols (K.chars line) ++ K.tailText line below := by
  cases below with
  | nil => simp [text, tailText]
  | cons next below => simp [text, tailText]

theorem tailText_wrapped {line : L} {below : List L} (wrapped : K.wrapped line = true)
    (more : below ≠ []) : K.tailText line below = K.text below := by
  rw [tailText, if_neg more, ending, if_pos wrapped, List.nil_append]

theorem tailText_same {line line' : L} (below : List L)
    (same : K.wrapped line' = K.wrapped line) : K.tailText line' below = K.tailText line below := by
  rw [tailText, tailText, ending, ending, same]

theorem tailText_congr {line line' : L} {below below' : List L}
    (wrapped : K.wrapped line' = K.wrapped line) (same : below' = [] ↔ below = [])
    (text : K.text below' = K.text below) : K.tailText line' below' = K.tailText line below := by
  rw [K.tailText_same below' wrapped, tailText, tailText, text]
  simp only [same]

theorem text_append {above below : List L} (more : below ≠ []) :
    K.text (above ++ below) = K.textAbove above ++ K.text below := by
  induction above with
  | nil => simp [textAbove]
  | cons line above ih =>
    rw [List.cons_append, K.text_cons (by simp [more]), ih, textAbove]
    simp

theorem textAbove_append (above below : List L) :
    K.textAbove (above ++ below) = K.textAbove above ++ K.textAbove below := by
  induction above with
  | nil => rfl
  | cons line above ih => simp [textAbove, ih]

theorem before_split (above below : List L) (line : L) (x : Nat) :
    K.before (above ++ line :: below) x above.length =
      K.textAbove above ++ symbols ((K.chars line).take x) := by
  simp [before]

theorem text_drop (above below : List L) (line : L) (x : Nat) :
    (K.text (above ++ line :: below)).drop (K.offset (above ++ line :: below) x above.length) =
      symbols ((K.chars line).drop x) ++ K.tailText line below := by
  have whole : symbols (K.chars line) =
      symbols ((K.chars line).take x) ++ symbols ((K.chars line).drop x) := by
    rw [← symbols_append, List.take_append_drop]
  rw [offset, K.text_append (List.cons_ne_nil line below), K.text_line, whole, K.before_split,
    List.append_assoc, ← List.append_assoc, List.drop_left]

theorem before_below (line : L) (below : List L) (x y : Nat) :
    K.before (line :: below) x (y + 1) =
      symbols (K.chars line) ++ K.ending line ++ K.before below x y := by
  simp [before, textAbove]

theorem before_append (above below : List L) (x y : Nat) :
    K.before (above ++ below) x (above.length + y) = K.textAbove above ++ K.before below x y := by
  induction above with
  | nil => simp [textAbove]
  | cons line above ih =>
    rw [List.cons_append, List.length_cons, Nat.add_right_comm, before_below, ih, textAbove]
    simp

theorem before_first (line : L) (below : List L) (x : Nat) :
    K.before (line :: below) x 0 = symbols ((K.chars line).take x) := rfl

end Layout

/-- The characters of a text without the ends of its lines. -/
def characters {α : Type u} : List (Sym α) → List α
  | [] => []
  | .chr a :: text => a :: characters text
  | .newline :: text => characters text

section

variable {α : Type u}

@[simp]
theorem characters_nil : characters ([] : List (Sym α)) = [] := rfl

@[simp]
theorem characters_chr (a : α) (text : List (Sym α)) :
    characters (.chr a :: text) = a :: characters text := rfl

@[simp]
theorem characters_newline (text : List (Sym α)) :
    characters (.newline :: text) = characters text := rfl

@[simp]
theorem characters_append (before after : List (Sym α)) :
    characters (before ++ after) = characters before ++ characters after := by
  induction before with
  | nil => rfl
  | cons sym before ih => cases sym <;> simp [ih]

@[simp]
theorem characters_symbols (chars : List α) : characters (Layout.symbols chars) = chars := by
  induction chars with
  | nil => rfl
  | cons a chars ih => simp [ih]

@[simp]
theorem characters_ending {L : Type v} (K : Layout L α) (line : L) :
    characters (K.ending line) = [] := by
  unfold Layout.ending
  split <;> rfl

def EndsInCharacter (before : List (Sym α)) : Prop := before.getLast? ≠ some .newline

instance [DecidableEq α] (before : List (Sym α)) : Decidable (EndsInCharacter before) :=
  inferInstanceAs (Decidable (_ ≠ _))

theorem EndsInCharacter.extended {before mid : List (Sym α)}
    (ends : EndsInCharacter (before ++ mid)) (none_ : characters mid = []) : mid = [] := by
  rcases List.eq_nil_or_concat mid with empty | ⟨rest, last, rfl⟩
  · exact empty
  · rw [List.concat_eq_append] at ends none_
    cases last with
    | chr a => simp at none_
    | newline => exact absurd (by simp) ends

theorem EndsInCharacter.unique {before after before' after' : List (Sym α)}
    (ends : EndsInCharacter before) (ends' : EndsInCharacter before')
    (text : before ++ after = before' ++ after')
    (count : (characters before).length = (characters before').length) : before = before' := by
  rcases List.append_eq_append_iff.mp text with ⟨mid, rfl, -⟩ | ⟨mid, rfl, -⟩
  · have none_ : characters mid = [] := by simpa using count
    rw [ends'.extended none_, List.append_nil]
  · have none_ : characters mid = [] := by simpa using count
    rw [ends.extended none_, List.append_nil]

def Starts (before : List (Sym α)) : Prop := before = [] ∨ before.getLast? = some .newline

theorem Starts.eq_nil {before : List (Sym α)} {chars : List α} (mid : List (Sym α))
    (starts : Starts (before ++ mid)) {after : List (Sym α)} (same : Layout.symbols chars = mid ++ after) :
    mid = [] := by
  rcases List.eq_nil_or_concat mid with empty | ⟨rest, last, rfl⟩
  · exact empty
  · rw [List.concat_eq_append] at starts same
    have chr : last ∈ Layout.symbols chars := by simp [same]
    obtain ⟨a, -, rfl⟩ := List.mem_map.mp chr
    rcases starts with none_ | newline
    · simp at none_
    · simp at newline

/-- What stands in the line before a place is told by the text before it. -/
theorem Starts.unique {before before' : List (Sym α)} {chars chars' : List α}
    (starts : Starts before) (starts' : Starts before')
    (same : before ++ Layout.symbols chars = before' ++ Layout.symbols chars') :
    before = before' ∧ chars = chars' := by
  have equal : before = before' := by
    rcases List.append_eq_append_iff.mp same with ⟨mid, rfl, rest⟩ | ⟨mid, rfl, rest⟩
    · rw [starts'.eq_nil mid rest, List.append_nil]
    · rw [starts.eq_nil mid rest, List.append_nil]
  subst equal
  exact ⟨rfl, Layout.symbols_injective (List.append_cancel_left same)⟩

end

namespace Layout

variable {L : Type v} {α : Type u} (K : Layout L α)

theorem exists_paragraph (lines : List L) : ∃ up chain, lines = up ++ chain ∧ K.Ends up ∧
    ∀ line ∈ chain, K.wrapped line = true := by
  induction lines with
  | nil => exact ⟨[], [], rfl, by simp [Ends], by simp⟩
  | cons line below ih =>
    obtain ⟨up, chain, rfl, ends, all⟩ := ih
    by_cases more : up = []
    · subst more
      by_cases wrapped : K.wrapped line = true
      · exact ⟨[], line :: chain, rfl, ends, by simpa [wrapped] using all⟩
      · exact ⟨[line], chain, rfl, by simpa [Ends] using wrapped, all⟩
    · exact ⟨line :: up, chain, rfl, (K.ends_cons more).mpr ends, all⟩

theorem textAbove_starts {up : List L} (ends : K.Ends up) : Starts (K.textAbove up) := by
  rcases List.eq_nil_or_concat up with rfl | ⟨first, last, rfl⟩
  · exact .inl rfl
  · rw [List.concat_eq_append] at ends ⊢
    have unwrapped : K.wrapped last = false := ends last (by simp)
    right
    rw [K.textAbove_append]
    simp [textAbove, ending, unwrapped]

theorem textAbove_wrapped {chain : List L} (all : ∀ line ∈ chain, K.wrapped line = true) :
    K.textAbove chain = symbols (chain.flatMap K.chars) := by
  induction chain with
  | nil => rfl
  | cons line chain ih =>
    have here := all line List.mem_cons_self
    have below := ih fun l mem => all l (List.mem_cons_of_mem line mem)
    simp [textAbove, ending, here, below]

theorem wrapped_of_text {front : List L} {last : L} {chars : List α}
    (text : K.text (front ++ [last]) = symbols chars) :
    (∀ line ∈ front, K.wrapped line = true) ∧ front.flatMap K.chars ++ K.chars last = chars := by
  rw [K.text_append (by simp)] at text
  have all : ∀ line ∈ front, K.wrapped line = true := by
    intro line mem
    obtain ⟨above, below, rfl⟩ := List.append_of_mem mem
    by_contra unwrapped
    have newline : Sym.newline ∈ symbols chars := by
      rw [← text, K.textAbove_append]
      simp [textAbove, ending, unwrapped]
    obtain ⟨a, -, same⟩ := List.mem_map.mp newline
    cases same
  refine ⟨all, symbols_injective ?_⟩
  rw [K.textAbove_wrapped all] at text
  rw [symbols_append]
  exact text

end Layout

structure Editor (α : Type u) where
  text : List (Sym α)
  caret : Nat
  deriving DecidableEq, Repr

inductive Edit (α : Type u) where
  | insert (sym : Sym α)
  | delete
  | backspace
  | move
  deriving DecidableEq, Repr

namespace Editor

variable {α : Type u}

/-- What an edit does to a text: a move may put the caret anywhere. -/
def Does (e : Editor α) : Edit α → Editor α → Prop
  | .insert sym, e' => e' = ⟨e.text.insertIdx e.caret sym, e.caret + 1⟩
  | .delete, e' => e' = ⟨e.text.eraseIdx e.caret, e.caret⟩
  | .backspace, e' =>
      e' = if e.caret = 0 then e else ⟨e.text.eraseIdx (e.caret - 1), e.caret - 1⟩
  | .move, e' => e'.text = e.text ∧ e'.caret ≤ e'.text.length

instance [DecidableEq α] (e : Editor α) (edit : Edit α) (e' : Editor α) :
    Decidable (e.Does edit e') :=
  match edit with
  | .insert _ => inferInstanceAs (Decidable (_ = _))
  | .delete => inferInstanceAs (Decidable (_ = _))
  | .backspace => inferInstanceAs (Decidable (_ = _))
  | .move => inferInstanceAs (Decidable (_ ∧ _))

/-- The editor with the caret between two parts of its text. -/
def between (before after : List (Sym α)) : Editor α := ⟨before ++ after, before.length⟩

theorem insert_between (before after : List (Sym α)) (sym : Sym α) :
    (between before after).Does (.insert sym) (between (before ++ [sym]) after) := by
  have inserted : (before ++ after).insertIdx before.length sym = before ++ sym :: after := by
    induction before with
    | nil => rfl
    | cons b before ih => simp [ih]
  simp [Does, between, inserted]

theorem insert_iff {before after : List (Sym α)} {sym : Sym α} {e : Editor α} :
    (between before after).Does (.insert sym) e ↔ e = between (before ++ [sym]) after := by
  have inserted := insert_between before after sym
  simp only [Does] at inserted ⊢
  rw [inserted]

theorem delete_between (before after : List (Sym α)) (sym : Sym α) :
    (between before (sym :: after)).Does .delete (between before after) := by
  have erased : (before ++ sym :: after).eraseIdx before.length = before ++ after := by
    induction before with
    | nil => rfl
    | cons b before ih => simp [ih]
  simp [Does, between, erased]

theorem delete_end (before : List (Sym α)) :
    (between before []).Does .delete (between before []) := by
  simp [Does, between, List.eraseIdx_of_length_le]

theorem delete_iff {before after : List (Sym α)} {e : Editor α} :
    (between before after).Does .delete e ↔ e = between before after.tail := by
  have erased : (between before after).Does .delete (between before after.tail) := by
    cases after with
    | nil => exact delete_end before
    | cons sym after => exact delete_between before after sym
  exact ⟨fun same => same.trans erased.symm, fun same => same.trans erased⟩

theorem eq_between_iff {before after : List (Sym α)} {e : Editor α} :
    e = between before after ↔ e.text = before ++ after ∧ e.caret = before.length := by
  constructor
  · rintro rfl
    exact ⟨rfl, rfl⟩
  · rintro ⟨text, caret⟩
    cases e
    cases text
    cases caret
    rfl

theorem between_eq_between_iff {before before' after after' : List (Sym α)} :
    between before after = between before' after' ↔ before = before' ∧ after = after' := by
  constructor
  · intro same
    obtain ⟨text, caret⟩ := Editor.mk.inj same
    exact List.append_inj text caret
  · rintro ⟨rfl, rfl⟩
    rfl

theorem backspace_left {e e' f : Editor α} (text : e'.text = e.text)
    (caret : e.caret = e'.caret + 1) : e.Does .backspace f ↔ e'.Does .delete f := by
  simp [Does, text, caret]

theorem backspace_stays_iff {e f : Editor α} (caret : f.caret = e.caret) :
    e.Does .backspace f ↔ e.caret = 0 ∧ f.text = e.text := by
  have same : f = e ↔ f.text = e.text := by
    refine ⟨fun same => congrArg _ same, fun text => ?_⟩
    cases e
    cases f
    cases text
    cases caret
    rfl
  simp only [Does]
  split
  next start => simp [same, start]
  next some_ =>
    refine ⟨fun back => ?_, fun h => absurd h.1 some_⟩
    rw [back] at caret
    simp only at caret
    omega

theorem backspace_of_delete {before after : List (Sym α)} {sym : Sym α} {e : Editor α}
    (deleted : (between before (sym :: after)).Does .delete e) :
    (between (before ++ [sym]) after).Does .backspace e := by
  simp only [Does, between] at deleted ⊢
  rw [deleted]
  simp

theorem does_backspace_iff {before after : List (Sym α)} {sym : Sym α} {e : Editor α} :
    (between (before ++ [sym]) after).Does .backspace e ↔ e = between before after := by
  have back := backspace_of_delete (delete_between before after sym)
  simp only [Does] at back ⊢
  rw [← back]

theorem backspace_start (after : List (Sym α)) :
    (between [] after).Does .backspace (between [] after) := by
  simp [Does, between]

end Editor
end WrappedText
