import Mathlib.Data.List.Basic
import Mathlib.Tactic.Common

/-!
Functions of `upan::string` on the characters of the strings.
-/
namespace StringText

abbrev Bytes := List UInt8

def isspace (c : UInt8) : Bool := c == 32 || (9 ≤ c && c ≤ 13)

def find (c : UInt8) (s : Bytes) : Option Nat := s.findIdx? (· == c)

def substrFrom (s : Bytes) (start : Nat) : Bytes := s.drop start

def split (c : UInt8) (s : Bytes) : Option (Bytes × Bytes) :=
  (find c s).map fun pos => (s.take pos, substrFrom s (pos + 1))

/-- `s` and `e` are where the two loops stop; they stay at the ends when every character
    is a space. -/
def trim (line : Bytes) : Bytes :=
  let s := (line.findIdx? fun c => !isspace c).getD 0
  let e : Int :=
    match line.reverse.findIdx? fun c => !isspace c with
    | some i => (line.length : Int) - 1 - i
    | none => (line.length : Int) - 1
  if e < s then [] else (line.drop s).take (e - s + 1).toNat

variable {before core after s : Bytes} {c : UInt8}

theorem find_append (plain : c ∉ before) (after : Bytes) :
    find c (before ++ c :: after) = some before.length := by
  have none_ : before.findIdx? (· == c) = none := by
    rw [List.findIdx?_eq_none_iff]
    intro d mem
    rw [beq_eq_false_iff_ne]
    rintro rfl
    exact plain mem
  rw [find, List.findIdx?_append, none_, List.findIdx?_cons]
  simp

theorem split_append (plain : c ∉ before) (after : Bytes) :
    split c (before ++ c :: after) = some (before, after) := by
  rw [split, find_append plain]
  simp [substrFrom]

theorem split_none (absent : c ∉ s) : split c s = none := by
  have none_ : find c s = none := by
    rw [find, List.findIdx?_eq_none_iff]
    intro d mem
    rw [beq_eq_false_iff_ne]
    rintro rfl
    exact absent mem
  rw [split, none_]
  rfl

def Core (core : Bytes) : Prop :=
  (∃ c rest, core = c :: rest ∧ isspace c = false) ∧ ∃ rest c, core = rest ++ [c] ∧ isspace c = false

theorem findIdx_spaces (spaces : ∀ c ∈ before, isspace c = true) (graphic : isspace c = false)
    (after : Bytes) :
    (before ++ c :: after).findIdx? (fun c => !isspace c) = some before.length := by
  have none_ : before.findIdx? (fun c => !isspace c) = none := by
    rw [List.findIdx?_eq_none_iff]
    intro d mem
    simp [spaces d mem]
  rw [List.findIdx?_append, none_, List.findIdx?_cons]
  simp [graphic]

theorem trim_spec (left : ∀ c ∈ before, isspace c = true) (right : ∀ c ∈ after, isspace c = true)
    (inner : Core core) : trim (before ++ core ++ after) = core := by
  obtain ⟨⟨c, rest, first, graphic⟩, front, d, last, graphic'⟩ := inner
  have start : (before ++ core ++ after).findIdx? (fun c => !isspace c) = some before.length := by
    rw [first, List.append_assoc, List.cons_append]
    exact findIdx_spaces left graphic _
  have end_ : (before ++ core ++ after).reverse.findIdx? (fun c => !isspace c) =
      some after.length := by
    have right' : ∀ c ∈ after.reverse, isspace c = true := fun c mem => right c (List.mem_reverse.mp mem)
    rw [last, List.reverse_append, ← List.append_assoc, List.reverse_append, List.reverse_singleton,
      ← List.length_reverse]
    exact findIdx_spaces right' graphic' _
  have size : 0 < core.length := by
    rw [first, List.length_cons]
    exact Nat.succ_pos _
  have total : (before ++ core ++ after).length = before.length + core.length + after.length := by
    simp only [List.length_append]
  simp only [trim, start, end_, total, Option.getD_some]
  rw [if_neg (by omega)]
  have count : (((before.length + core.length + after.length : Nat) : Int) - 1 - after.length -
      before.length + 1).toNat = core.length := by omega
  rw [count, List.append_assoc, List.drop_left, List.take_left]

theorem trim_core (inner : Core s) : trim s = s := by
  have nothing : ∀ c ∈ ([] : Bytes), isspace c = true := by simp
  have same : trim ([] ++ s ++ []) = s := trim_spec nothing nothing inner
  rw [List.nil_append, List.append_nil] at same
  exact same

@[simp]
theorem trim_nil : trim [] = [] := rfl

theorem first_graphic (mem : c ∈ s) (graphic : isspace c = false) : ∃ before d rest,
    s = before ++ d :: rest ∧ (∀ c ∈ before, isspace c = true) ∧ isspace d = false := by
  induction s with
  | nil => cases mem
  | cons a s ih =>
    cases space : isspace a with
    | false => exact ⟨[], a, s, rfl, by simp, space⟩
    | true =>
      have later : c ∈ s := by
        obtain rfl | later := List.mem_cons.mp mem
        · rw [graphic] at space
          cases space
        · exact later
      obtain ⟨before, d, rest, rfl, spaces, graphic'⟩ := ih later
      refine ⟨a :: before, d, rest, rfl, ?_, graphic'⟩
      intro b mem
      obtain rfl | mem := List.mem_cons.mp mem
      · exact space
      · exact spaces b mem

theorem core_of_graphic (mem : c ∈ s) (graphic : isspace c = false) : ∃ before core after,
    s = before ++ core ++ after ∧ (∀ c ∈ before, isspace c = true) ∧
      (∀ c ∈ after, isspace c = true) ∧ Core core := by
  obtain ⟨before, d, rest, rfl, spaces, graphic₁⟩ := first_graphic mem graphic
  have turned : d ∈ (d :: rest).reverse := by simp
  obtain ⟨behind, e, front, split, spaces', graphic₂⟩ := first_graphic turned graphic₁
  have whole : d :: rest = front.reverse ++ [e] ++ behind.reverse := by
    rw [← List.reverse_reverse (d :: rest), split]
    simp
  refine ⟨before, front.reverse ++ [e], behind.reverse, ?_, spaces, ?_, ?_, front.reverse, e, rfl,
    graphic₂⟩
  · rw [whole]
    simp only [List.append_assoc]
  · intro c mem
    exact spaces' c (List.mem_reverse.mp mem)
  · cases start : front.reverse with
    | nil =>
      rw [start] at whole
      obtain ⟨rfl, -⟩ := List.cons.inj whole
      exact ⟨d, [], rfl, graphic₁⟩
    | cons f front' =>
      rw [start] at whole
      obtain ⟨rfl, -⟩ := List.cons.inj whole
      exact ⟨d, front' ++ [e], rfl, graphic₁⟩

theorem core_trim (mem : c ∈ s) (graphic : isspace c = false) : Core (trim s) ∧ c ∈ trim s := by
  obtain ⟨before, core, after, rfl, left, right, inner⟩ := core_of_graphic mem graphic
  rw [trim_spec left right inner]
  refine ⟨inner, ?_⟩
  rw [List.append_assoc, List.mem_append, List.mem_append] at mem
  obtain space | here | space := mem
  · rw [left c space] at graphic
    cases graphic
  · exact here
  · rw [right c space] at graphic
    cases graphic

theorem trim_sublist (s : Bytes) : trim s <:+: s := by
  rw [trim]
  split
  all_goals
    split
    · exact List.nil_infix
    · exact (List.take_prefix _ _).isInfix.trans (List.drop_suffix _ _).isInfix

/-! What `trim` is for: the longest part of a text with no space at its ends. -/

def Trimmed (r : Bytes) : Prop :=
  (∀ c ∈ r.head?, isspace c = false) ∧ ∀ c ∈ r.getLast?, isspace c = false

structure LongestTrimmed (s r : Bytes) : Prop where
  part : r <:+: s
  trimmed : Trimmed r
  longest : ∀ t, t <:+: s → Trimmed t → t.length ≤ r.length
  unique : ∀ t, t <:+: s → Trimmed t → t.length = r.length → t = r

/-- The text has a character that is no space. -/
def Graphic (s : Bytes) : Prop := ∃ c ∈ s, isspace c = false

theorem not_graphic : ¬ Graphic s ↔ ∀ c ∈ s, isspace c = true := by
  simp [Graphic]

theorem trimmed_core (inner : Core core) : Trimmed core := by
  obtain ⟨⟨c, rest, first, graphic⟩, front, d, last, graphic'⟩ := inner
  constructor
  · intro b start
    rw [first, List.head?_cons, Option.mem_some_iff] at start
    exact start ▸ graphic
  · intro b end_
    rw [last, List.getLast?_concat, Option.mem_some_iff] at end_
    exact end_ ▸ graphic'

theorem core_trimmed (some_ : s ≠ []) (trimmed : Trimmed s) : Core s := by
  constructor
  · cases s with
    | nil => exact absurd rfl some_
    | cons c rest => exact ⟨c, rest, rfl, trimmed.1 c rfl⟩
  · refine ⟨s.dropLast, s.getLast some_, (List.dropLast_concat_getLast some_).symm, ?_⟩
    exact trimmed.2 _ (List.getLast?_eq_some_getLast some_)

theorem front_le {front rest back : Bytes} (spaces : ∀ c ∈ before, isspace c = true)
    (graphic : isspace c = false) (split : before ++ rest = front ++ c :: back) :
    before.length ≤ front.length := by
  by_contra short
  have inside : front.length < before.length := by omega
  have here : (before ++ rest)[front.length]? = some c := by
    rw [split, List.getElem?_append_right (Nat.le_refl _), Nat.sub_self]
    rfl
  rw [List.getElem?_append_left inside] at here
  rw [spaces c (List.mem_of_getElem? here)] at graphic
  cases graphic

theorem longest_core (left : ∀ c ∈ before, isspace c = true)
    (right : ∀ c ∈ after, isspace c = true) (inner : Core core) :
    LongestTrimmed (before ++ core ++ after) core := by
  have bounds : ∀ front t back, before ++ core ++ after = front ++ t ++ back → t ≠ [] → Trimmed t →
      before.length ≤ front.length ∧ after.length ≤ back.length := by
    intro front t back split some_ trimmed
    obtain ⟨⟨c, rest, first, graphic⟩, start, d, last, graphic'⟩ := core_trimmed some_ trimmed
    constructor
    · have whole : before ++ (core ++ after) = front ++ c :: (rest ++ back) := by
        rw [← List.append_assoc, split, first]
        simp
      exact front_le left graphic whole
    · have spaces : ∀ c ∈ after.reverse, isspace c = true :=
        fun c mem => right c (List.mem_reverse.mp mem)
      have whole : after.reverse ++ (before ++ core).reverse
          = back.reverse ++ d :: (start.reverse ++ front.reverse) := by
        rw [← List.reverse_append, split, last]
        simp
      have le := front_le spaces graphic' whole
      simpa using le
  have room : 0 < core.length := by
    obtain ⟨⟨c, rest, first, _⟩, _⟩ := inner
    rw [first, List.length_cons]
    exact Nat.succ_pos _
  refine ⟨⟨before, after, rfl⟩, trimmed_core inner, ?_, ?_⟩
  · rintro t ⟨front, back, split⟩ trimmed
    by_cases empty : t = []
    · rw [empty]
      exact Nat.zero_le _
    · have := bounds front t back split.symm empty trimmed
      have size := congrArg List.length split
      simp only [List.length_append] at size
      omega
  · rintro t ⟨front, back, split⟩ trimmed same
    have some_ : t ≠ [] := by
      rintro rfl
      rw [List.length_nil] at same
      omega
    have := bounds front t back split.symm some_ trimmed
    have size := congrArg List.length split
    simp only [List.length_append] at size
    have sides := List.append_inj split (by simp only [List.length_append]; omega)
    exact (List.append_inj sides.1 (by omega)).2

theorem trim_spaces (spaces : ∀ c ∈ s, isspace c = true) : trim s = s := by
  have none_ : s.findIdx? (fun c => !isspace c) = none := by
    rw [List.findIdx?_eq_none_iff]
    intro c mem
    simp [spaces c mem]
  have none_' : s.reverse.findIdx? (fun c => !isspace c) = none := by
    rw [List.findIdx?_eq_none_iff]
    intro c mem
    simp [spaces c (List.mem_reverse.mp mem)]
  simp only [trim, none_, none_', Option.getD_none]
  split
  next empty =>
    have none_ : s.length = 0 := by omega
    exact (List.length_eq_zero_iff.mp none_).symm
  next =>
    rw [List.drop_zero]
    exact List.take_of_length_le (by omega)

theorem trim_idempotent (s : Bytes) : trim (trim s) = trim s := by
  by_cases graphic : Graphic s
  · obtain ⟨c, mem, graphic⟩ := graphic
    exact trim_core (core_trim mem graphic).1
  · rw [trim_spaces (not_graphic.mp graphic), trim_spaces (not_graphic.mp graphic)]

theorem longestTrimmed_iff (s : Bytes) : LongestTrimmed s (trim s) ↔ s = [] ∨ Graphic s := by
  constructor
  · intro longest
    by_contra neither
    rw [not_or, not_graphic] at neither
    obtain ⟨some_, spaces⟩ := neither
    have trimmed := longest.trimmed
    rw [trim_spaces spaces] at trimmed
    obtain ⟨⟨c, rest, first, graphic⟩, _⟩ := core_trimmed some_ trimmed
    rw [spaces c (by simp [first])] at graphic
    cases graphic
  · rintro (rfl | ⟨c, mem, graphic⟩)
    · refine ⟨List.nil_infix, by simp [Trimmed], ?_, ?_⟩
      · intro t part _
        exact part.length_le
      · intro t part _ _
        exact List.infix_nil.mp part
    · obtain ⟨before, core, after, rfl, left, right, inner⟩ := core_of_graphic mem graphic
      rw [trim_spec left right inner]
      exact longest_core left right inner

theorem trim_between_iff (s : Bytes) {w₁ w₂ : Bytes} (left : ∀ c ∈ w₁, isspace c = true)
    (right : ∀ c ∈ w₂, isspace c = true) :
    trim (w₁ ++ s ++ w₂) = trim s ↔ Graphic s ∨ w₁ = [] ∧ w₂ = [] := by
  by_cases graphic : Graphic s
  · obtain ⟨c, mem, graphic⟩ := id graphic
    obtain ⟨before, core, after, rfl, left', right', inner⟩ := core_of_graphic mem graphic
    have whole : w₁ ++ (before ++ core ++ after) ++ w₂ = w₁ ++ before ++ core ++ (after ++ w₂) := by
      simp
    rw [whole, trim_spec left' right' inner, trim_spec _ _ inner]
    · exact ⟨fun _ => .inl graphic, fun _ => rfl⟩
    · intro c mem
      cases List.mem_append.mp mem with
      | inl outer => exact left c outer
      | inr own => exact left' c own
    · intro c mem
      cases List.mem_append.mp mem with
      | inl own => exact right' c own
      | inr outer => exact right c outer
  · have spaces := not_graphic.mp graphic
    have all : ∀ c ∈ w₁ ++ s ++ w₂, isspace c = true := by
      intro c mem
      simp only [List.mem_append, or_assoc] at mem
      rcases mem with outer | own | outer
      · exact left c outer
      · exact spaces c own
      · exact right c outer
    rw [trim_spaces all, trim_spaces spaces]
    simp only [graphic, false_or]
    constructor
    · intro same
      have size := congrArg List.length same
      simp only [List.length_append] at size
      exact ⟨List.length_eq_zero_iff.mp (by omega), List.length_eq_zero_iff.mp (by omega)⟩
    · rintro ⟨rfl, rfl⟩
      simp

/-- A text of spaces is left as it is; `trim` does all it is for otherwise. -/
theorem trim_longest_iff (s : Bytes) {w₁ w₂ : Bytes} (left : ∀ c ∈ w₁, isspace c = true)
    (right : ∀ c ∈ w₂, isspace c = true) :
    (LongestTrimmed s (trim s) ↔ s = [] ∨ Graphic s)
      ∧ trim (trim s) = trim s
      ∧ (trim (w₁ ++ s ++ w₂) = trim s ↔ Graphic s ∨ w₁ = [] ∧ w₂ = []) :=
  ⟨longestTrimmed_iff s, trim_idempotent s, trim_between_iff s left right⟩

theorem trim_longest_iff_word :
    (LongestTrimmed [97] (trim [97]) ↔ [97] = ([] : Bytes) ∨ Graphic [97])
      ∧ trim (trim [97]) = trim [97]
      ∧ (trim ([32] ++ [97] ++ [9]) = trim [97]
        ↔ Graphic [97] ∨ [32] = ([] : Bytes) ∧ [9] = ([] : Bytes)) :=
  trim_longest_iff [97] (by simp [isspace]) (by simp [isspace])

/-- One space is its own trimmed text. -/
theorem space_stays : trim [32] = [32] ∧ ¬ LongestTrimmed [32] (trim [32]) := by
  refine ⟨by decide, ?_⟩
  rw [longestTrimmed_iff]
  simp [Graphic, isspace]

end StringText
