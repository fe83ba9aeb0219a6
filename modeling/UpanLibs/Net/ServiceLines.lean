import UpanLibs.Net.Netdb

/-!
The lines of a services file as their format has them, and which of them `lineEntry` reads.
-/
namespace Netdb
open StringText FileStream LineSplit
open Inet (Digit value)

/-! The tokens between blanks. -/

def tokens (s : Bytes) : List Bytes := tokenize [blank] true s

variable {s t w rest : Bytes} {c : UInt8}

theorem infix_singleton_iff : [c] <:+: s ↔ c ∈ s := by
  constructor
  · intro here
    exact here.subset List.mem_cons_self
  · intro member
    obtain ⟨front, back, rfl⟩ := List.append_of_mem member
    exact ⟨front, back, by simp⟩

theorem tokens_last (plain : blank ∉ t) : tokens t = if t = [] then [] else [t] := by
  rcases tokenize_cases (d := [blank]) (by decide) t with ⟨_, same⟩ | ⟨front, after, split, _⟩
  · rw [tokens, same]
    cases t <;> simp
  · rw [split] at plain
    simp at plain

theorem tokens_append (plain : blank ∉ t) (s : Bytes) :
    tokens (t ++ blank :: s) = (if t = [] then [] else [t]) ++ tokens s := by
  rcases tokenize_cases (d := [blank]) (by decide) (t ++ blank :: s) with
    ⟨absent, _⟩ | ⟨front, after, whole, plain', _, same⟩
  · rw [infix_singleton_iff] at absent
    simp at absent
  · rw [infix_singleton_iff] at plain'
    have first := split_append plain s
    rw [whole, List.append_assoc, List.singleton_append, split_append plain'] at first
    cases first
    rw [tokens, same]
    cases t <;> simp [tokens]

theorem tokens_blanks (n : Nat) (s : Bytes) : tokens (List.replicate n blank ++ s) = tokens s := by
  induction n with
  | zero => rfl
  | succ n ih =>
    have next := tokens_append (t := []) (by simp) (List.replicate n blank ++ s)
    rw [List.nil_append, if_pos rfl, List.nil_append, ih] at next
    rw [List.replicate_succ, List.cons_append]
    exact next

theorem tokens_word (some_ : t ≠ []) (plain : blank ∉ t) (n : Nat) (s : Bytes) :
    tokens (t ++ List.replicate (n + 1) blank ++ s) = t :: tokens s := by
  rw [List.append_assoc, List.replicate_succ, List.cons_append, tokens_append plain,
    if_neg some_, tokens_blanks]
  rfl

theorem blank_cases (s : Bytes) :
    blank ∉ s ∨ ∃ t rest, s = t ++ blank :: rest ∧ blank ∉ t ∧ rest.length < s.length := by
  by_cases member : blank ∈ s
  · obtain ⟨t, rest, rfl, plain⟩ := first_line member
    refine .inr ⟨t, rest, rfl, plain, ?_⟩
    rw [List.length_append, List.length_cons]
    omega
  · exact .inl member

theorem flatten_tokens (s : Bytes) : (tokens s).flatten = s.filter fun c => c ≠ blank := by
  have kept : ∀ {t : Bytes}, blank ∉ t → t.filter (fun c => c ≠ blank) = t := by
    intro t plain
    rw [List.filter_eq_self]
    intro c member
    rw [decide_eq_true_eq]
    rintro rfl
    exact plain member
  induction size : s.length using Nat.strongRecOn generalizing s with
  | ind k ih =>
    rcases blank_cases s with plain | ⟨t, rest, rfl, plain, shorter⟩
    · rw [tokens_last plain, kept plain]
      split
      next empty => rw [empty]; rfl
      next => simp
    · have later := ih rest.length (by omega) rest rfl
      rw [tokens_append plain, List.flatten_append, later, List.filter_append, kept plain]
      simp only [ne_eq, decide_not, decide_true, Bool.not_true, Bool.false_eq_true,
        not_false_eq_true, List.filter_cons_of_neg, List.append_cancel_right_eq]
      split
      next empty => rw [empty]; rfl
      next => simp

theorem tokens_first {ts : List Bytes} (first : tokens s = t :: ts) :
    ∃ n rest, s = List.replicate n blank ++ t ++ rest ∧ tokens rest = ts
      ∧ ∀ c ∈ rest.head?, c = blank := by
  induction size : s.length using Nat.strongRecOn generalizing s with
  | ind k ih =>
    rcases blank_cases s with plain | ⟨u, rest, rfl, plain, shorter⟩
    · rw [tokens_last plain] at first
      split at first
      next => cases first
      next some_ =>
        cases first
        exact ⟨0, [], by simp, (tokens_last List.not_mem_nil).trans (if_pos rfl), by simp⟩
    · rw [tokens_append plain] at first
      split at first
      next empty =>
        obtain ⟨n, rest', rfl, found⟩ := ih rest.length (by omega) first rfl
        exact ⟨n + 1, rest', by rw [empty, List.replicate_succ]; simp, found⟩
      next some_ =>
        cases first
        refine ⟨0, blank :: rest, by simp, ?_, by simp⟩
        have skipped := tokens_append (t := []) (by simp) rest
        rw [List.nil_append, if_pos rfl, List.nil_append] at skipped
        exact skipped

theorem split_some {a b : Bytes} (parts : split c s = some (a, b)) : s = a ++ c :: b ∧ c ∉ a := by
  by_cases member : c ∈ s
  · obtain ⟨front, back, rfl, plain⟩ := first_line member
    rw [split_append plain] at parts
    cases parts
    exact ⟨rfl, plain⟩
  · rw [split_none member] at parts
    cases parts

/-! The format. -/

def Blanks (s : Bytes) : Prop := ∀ c ∈ s, c = blank ∨ c = tab

/-- A word has no spaces and no comment in it. -/
structure Word (w : Bytes) : Prop where
  some_ : w ≠ []
  graphic : ∀ c ∈ w, isspace c = false ∧ c ≠ hash ∧ c ≠ 0

/-- The name, the port and the protocol, and the aliases, each with the blanks before it. -/
structure Entry where
  name : Bytes
  gap : Bytes
  port : Bytes
  proto : Bytes
  aliases : List (Bytes × Bytes)
  isName : Word name
  isGap : gap ≠ [] ∧ Blanks gap
  isPort : port ≠ [] ∧ (∀ ch ∈ port, Digit ch) ∧ value port ≤ 2147483647
  isProto : Word proto
  isAliases : ∀ a ∈ aliases, a.1 ≠ [] ∧ Blanks a.1 ∧ Word a.2

namespace Entry

def service (e : Entry) : Bytes := e.port ++ slash :: e.proto

def aliasText (as : List (Bytes × Bytes)) : Bytes := as.flatMap fun a => a.1 ++ a.2

def text (e : Entry) : Bytes := e.name ++ (e.gap ++ (e.service ++ aliasText e.aliases))

def servent (e : Entry) : Servent := ⟨e.name, e.aliases.map Prod.snd, value e.port, e.proto⟩

def Spaced (e : Entry) : Prop :=
  (∃ i j, e.gap = List.replicate (i + 1) blank ++ List.replicate j tab)
    ∧ ∀ a ∈ e.aliases, tab ∉ a.1

end Entry

/-- A line of the file: blanks and perhaps an entry, and perhaps a comment up to its end. -/
structure Line where
  front : Bytes
  entry : Option Entry
  back : Bytes
  comment : Option Bytes
  isFront : Blanks front
  isBack : Blanks back
  isComment : ∀ t ∈ comment, 0 ∉ t

namespace Line

def entryText (l : Line) : Bytes :=
  match l.entry with
  | some e => e.text
  | none => []

def commentText (l : Line) : Bytes :=
  match l.comment with
  | some t => hash :: t
  | none => []

def text (l : Line) : Bytes := l.front ++ (l.entryText ++ (l.back ++ l.commentText))

def servent (l : Line) : Option Servent := l.entry.map Entry.servent

/-- An entry has its separators where `lineEntry` expects them, and no comment behind it. -/
def Readable (l : Line) : Prop := ∀ e ∈ l.entry, e.Spaced ∧ l.comment = none

end Line

variable {e : Entry} {l : Line}

theorem Blanks.space (blanks : Blanks s) : ∀ c ∈ s, isspace c = true := by
  intro c member
  rcases blanks c member with rfl | rfl
  · rfl
  · rfl

theorem Word.no_blank (word : Word w) : blank ∉ w := by
  intro member
  exact absurd (word.graphic blank member).1 (by decide)

theorem digit_graphic {ch : UInt8} (digit : Digit ch) : isspace ch = false := by
  have bound := ch.toNat_lt
  obtain ⟨low, high⟩ := digit
  have other : ch ≠ 32 := by
    rintro rfl
    exact absurd low (by decide)
  rw [isspace, Bool.or_eq_false_iff, beq_eq_false_iff_ne]
  refine ⟨other, ?_⟩
  rw [Bool.and_eq_false_iff, decide_eq_false_iff_not, decide_eq_false_iff_not,
    UInt8.le_iff_toNat_le, UInt8.le_iff_toNat_le]
  right
  have small : (13 : UInt8).toNat = 13 := rfl
  omega

theorem digit_ne {ch : UInt8} (digit : Digit ch) : ch ≠ slash ∧ ch ≠ hash ∧ ch ≠ blank := by
  refine ⟨?_, ?_, ?_⟩
  all_goals
    rintro rfl
    exact absurd digit (by decide)

theorem no_slash_port (e : Entry) : slash ∉ e.port := fun member =>
  (digit_ne (e.isPort.2.1 slash member)).1 rfl

theorem atoi_port (e : Entry) (j : Nat) :
    Logger.atoi (List.replicate j tab ++ e.port) = value e.port := by
  obtain ⟨_, digits, small⟩ := e.isPort
  have tabs : ∀ c ∈ List.replicate j tab, Inet.isspace c = true := by
    intro c member
    rw [List.eq_of_mem_replicate member]
    rfl
  have past : Inet.strtol (List.replicate j tab ++ e.port) = Inet.strtol e.port := by
    simp only [Inet.strtol, List.dropWhile_append_of_pos tabs]
  have read : Inet.strtolDigits 0 e.port = value e.port :=
    Inet.strtolDigits_fits digits (Nat.le_trans small (by decide))
  have fits : min (value e.port) Inet.LONG_MAX = value e.port :=
    Nat.min_eq_left (Nat.le_trans small (by decide))
  rw [Logger.atoi, past, Inet.strtol_digits digits, read, fits, Logger.toInt]
  exact Int.bmod_eq_of_le (by omega) (by omega)

/-! The tokens of an entry as it should be. -/

theorem no_blank_service (e : Entry) : blank ∉ e.service := by
  rw [Entry.service, List.mem_append, List.mem_cons, not_or, not_or]
  refine ⟨fun member => (digit_ne (e.isPort.2.1 blank member)).2.2 rfl, by decide, ?_⟩
  exact e.isProto.no_blank

theorem gap_replicate {gap : Bytes} (some_ : gap ≠ []) (blanks : Blanks gap) (plain : tab ∉ gap) :
    ∃ n, gap = List.replicate (n + 1) blank := by
  have all : ∀ c ∈ gap, c = blank := by
    intro c member
    rcases blanks c member with same | other
    · exact same
    · exact absurd (other ▸ member) plain
  have whole := List.eq_replicate_of_mem all
  cases size : gap.length with
  | zero => exact absurd (List.length_eq_zero_iff.mp size) some_
  | succ n => exact ⟨n, size ▸ whole⟩

theorem tokens_aliases {as : List (Bytes × Bytes)}
    (isAliases : ∀ a ∈ as, a.1 ≠ [] ∧ Blanks a.1 ∧ Word a.2) (plain : ∀ a ∈ as, tab ∉ a.1)
    (some_ : w ≠ []) (word : blank ∉ w) :
    tokens (w ++ Entry.aliasText as) = w :: as.map Prod.snd := by
  induction as generalizing w with
  | nil =>
    rw [Entry.aliasText, List.flatMap_nil, List.append_nil, tokens_last word, if_neg some_]
    rfl
  | cons a as ih =>
    obtain ⟨gap, blanks, alias_⟩ := isAliases a List.mem_cons_self
    obtain ⟨n, same⟩ := gap_replicate gap blanks (plain a List.mem_cons_self)
    have later := ih (fun b mem => isAliases b (List.mem_cons_of_mem a mem))
      (fun b mem => plain b (List.mem_cons_of_mem a mem)) alias_.some_ alias_.no_blank
    have split : w ++ Entry.aliasText (a :: as)
        = w ++ List.replicate (n + 1) blank ++ (a.2 ++ Entry.aliasText as) := by
      rw [← same]
      simp [Entry.aliasText]
    rw [split, tokens_word some_ word, later]
    rfl

theorem tokens_spaced (spaced : e.Spaced) : ∃ j,
    tokens e.text = e.name :: (List.replicate j tab ++ e.service) :: e.aliases.map Prod.snd := by
  obtain ⟨⟨i, j, gap⟩, plain⟩ := spaced
  have word : blank ∉ List.replicate j tab ++ e.service := by
    rw [List.mem_append, not_or]
    refine ⟨fun member => ?_, no_blank_service e⟩
    exact absurd (List.eq_of_mem_replicate member) (by decide)
  have some_ : List.replicate j tab ++ e.service ≠ [] := by
    simp [Entry.service]
  refine ⟨j, ?_⟩
  have split : e.text = e.name ++ List.replicate (i + 1) blank
      ++ (List.replicate j tab ++ e.service ++ Entry.aliasText e.aliases) := by
    rw [Entry.text, gap]
    simp
  rw [split, tokens_word e.isName.some_ e.isName.no_blank,
    tokens_aliases e.isAliases plain some_ word]

theorem split_service (e : Entry) (j : Nat) :
    split slash (List.replicate j tab ++ e.service)
      = some (List.replicate j tab ++ e.port, e.proto) := by
  have plain : slash ∉ List.replicate j tab ++ e.port := by
    rw [List.mem_append, not_or]
    refine ⟨fun member => ?_, no_slash_port e⟩
    exact absurd (List.eq_of_mem_replicate member) (by decide)
  rw [Entry.service, ← List.append_assoc]
  exact split_append plain e.proto

/-! What `trim` leaves of a line. -/

def Ends (s : Bytes) : Prop := ∃ rest c, s = rest ++ [c] ∧ isspace c = false

theorem Ends.append (ends : Ends t) (s : Bytes) : Ends (s ++ t) := by
  obtain ⟨rest, c, rfl, graphic⟩ := ends
  exact ⟨s ++ rest, c, (List.append_assoc _ _ _).symm, graphic⟩

theorem Word.ends (word : Word w) : Ends w := by
  refine ⟨w.dropLast, w.getLast word.some_, (List.dropLast_concat_getLast word.some_).symm, ?_⟩
  exact (word.graphic _ (List.getLast_mem word.some_)).1

theorem ends_aliases {as : List (Bytes × Bytes)}
    (isAliases : ∀ a ∈ as, a.1 ≠ [] ∧ Blanks a.1 ∧ Word a.2) (ends : Ends s) :
    Ends (s ++ Entry.aliasText as) := by
  induction as generalizing s with
  | nil =>
    rw [Entry.aliasText, List.flatMap_nil, List.append_nil]
    exact ends
  | cons a as ih =>
    have alias_ := (isAliases a List.mem_cons_self).2.2
    have later := ih (fun b mem => isAliases b (List.mem_cons_of_mem a mem))
      (alias_.ends.append (s ++ a.1))
    have split : s ++ Entry.aliasText (a :: as) = s ++ a.1 ++ a.2 ++ Entry.aliasText as := by
      simp [Entry.aliasText]
    rw [split]
    exact later

theorem Word.first (word : Word w) : ∃ c rest, w = c :: rest ∧ isspace c = false ∧ c ≠ hash := by
  obtain ⟨c, rest, rfl⟩ := List.exists_cons_of_ne_nil word.some_
  have graphic := word.graphic c List.mem_cons_self
  exact ⟨c, rest, rfl, graphic.1, graphic.2.1⟩

theorem core_entry (e : Entry) : Core e.text := by
  constructor
  · obtain ⟨c, rest, name, graphic, _⟩ := e.isName.first
    exact ⟨c, rest ++ (e.gap ++ (e.service ++ Entry.aliasText e.aliases)), by
      rw [Entry.text, name, List.cons_append], graphic⟩
  · have service : Ends e.service := (e.isProto.ends.append [slash]).append e.port
    have last := (ends_aliases e.isAliases service).append (e.name ++ e.gap)
    rw [List.append_assoc] at last
    exact last

theorem core_of_head (graphic : isspace c = false) (t : Bytes) : ∃ rest after,
    c :: t = c :: rest ++ after ∧ (∀ d ∈ after, isspace d = true) ∧ Core (c :: rest) := by
  obtain ⟨before, core, after, split, left, right, inner⟩ :=
    core_of_graphic (s := c :: t) List.mem_cons_self graphic
  cases before with
  | nil =>
    obtain ⟨⟨d, rest, rfl, _⟩, _⟩ := id inner
    rw [List.nil_append, List.cons_append] at split
    obtain ⟨rfl, split⟩ := List.cons.inj split
    exact ⟨rest, after, by rw [split, List.cons_append], right, inner⟩
  | cons b before =>
    rw [List.cons_append, List.cons_append] at split
    obtain ⟨rfl, _⟩ := List.cons.inj split
    rw [left c List.mem_cons_self] at graphic
    cases graphic

theorem trim_entry (some_ : l.entry = some e) : ∃ tail, trim l.text = e.text ++ tail
    ∧ (l.comment = none → tail = []) ∧ (l.comment ≠ none → hash ∈ tail) := by
  have entry : l.entryText = e.text := by rw [Line.entryText, some_]
  cases comment : l.comment with
  | none =>
    refine ⟨[], ?_, fun _ => rfl, fun some_ => absurd rfl some_⟩
    have whole : l.text = l.front ++ e.text ++ l.back := by
      simp [Line.text, Line.commentText, entry, comment]
    rw [whole, trim_spec l.isFront.space l.isBack.space (core_entry e), List.append_nil]
  | some t =>
    obtain ⟨rest, after, split, spaces, inner⟩ :=
      core_of_head (c := hash) (by decide) t
    refine ⟨l.back ++ hash :: rest, ?_, fun none_ => (nomatch none_), fun _ => by simp⟩
    have whole : l.text = l.front ++ (e.text ++ (l.back ++ hash :: rest)) ++ after := by
      simp [Line.text, Line.commentText, entry, comment, split]
    have core : Core (e.text ++ (l.back ++ hash :: rest)) := by
      obtain ⟨⟨c, more, first, graphic⟩, _⟩ := core_entry e
      refine ⟨⟨c, more ++ (l.back ++ hash :: rest), by rw [first, List.cons_append], graphic⟩, ?_⟩
      have ends : Ends (hash :: rest) := inner.2
      exact (ends.append l.back).append e.text
    rw [whole, trim_spec l.isFront.space spaces core]

/-! One line. -/

theorem lineEntry_none (none_ : l.entry = none) : lineEntry l.text = none := by
  have entry : l.entryText = [] := by rw [Line.entryText, none_]
  have around : Blanks (l.front ++ l.back) := by
    intro c member
    rcases List.mem_append.mp member with front | back
    · exact l.isFront c front
    · exact l.isBack c back
  cases comment : l.comment with
  | some t =>
    obtain ⟨rest, after, split, spaces, inner⟩ := core_of_head (c := hash) (by decide) t
    have whole : l.text = l.front ++ l.back ++ (hash :: rest) ++ after := by
      simp [Line.text, Line.commentText, entry, comment, split]
    rw [lineEntry, whole, trim_spec around.space spaces inner]
    exact if_pos rfl
  | none =>
    have whole : l.text = l.front ++ l.back := by
      simp [Line.text, Line.commentText, entry, comment]
    rw [lineEntry, whole, trim_spaces around.space]
    simp only
    split
    · rfl
    · split
      next name service aliases found =>
        have found : tokens (l.front ++ l.back) = name :: service :: aliases := found
        have no_slash : slash ∉ service := by
          intro member
          have there : slash ∈ (tokens (l.front ++ l.back)).flatten := by
            rw [found]
            simp [member]
          rw [flatten_tokens] at there
          rcases around slash (List.mem_of_mem_filter there) with other | other
          · exact absurd other (by decide)
          · exact absurd other (by decide)
        rw [split_none no_slash]
        rfl
      next => rfl

theorem filter_blanks (gap : Blanks s) :
    ∃ j, s.filter (fun c => c ≠ blank) = List.replicate j tab := by
  refine ⟨_, List.eq_replicate_of_mem ?_⟩
  intro c member
  obtain ⟨member, other⟩ := List.mem_filter.mp member
  rcases gap c member with same | same
  · rw [same] at other
    exact absurd other (by decide)
  · exact same

theorem blanks_unique {g h x y : Bytes} {d : UInt8} (left : ∀ c ∈ g, isspace c = true)
    (right : ∀ c ∈ h, isspace c = true) (graphic : isspace c = false) (graphic' : isspace d = false)
    (same : g ++ c :: x = h ++ d :: y) : g = h := by
  have le := front_le left graphic' same
  have ge := front_le right graphic same.symm
  exact (List.append_inj same (Nat.le_antisymm le ge)).1

theorem filter_plain {p : UInt8 → Bool} (plain : ∀ c ∈ s, p c = true) : s.filter p = s :=
  List.filter_eq_self.mpr plain

theorem no_blank_filter (plain : blank ∉ s) : s.filter (fun c => c ≠ blank) = s := by
  apply filter_plain
  intro c member
  rw [decide_eq_true_eq]
  rintro rfl
  exact plain member

theorem filter_aliases {as : List (Bytes × Bytes)}
    (isAliases : ∀ a ∈ as, a.1 ≠ [] ∧ Blanks a.1 ∧ Word a.2) :
    ((Entry.aliasText as).filter fun c => c ≠ blank).length
      = (as.map Prod.snd).flatten.length
        + (as.flatMap fun a => a.1.filter fun c => c ≠ blank).length := by
  induction as with
  | nil => rfl
  | cons a as ih =>
    have later := ih fun b mem => isAliases b (List.mem_cons_of_mem a mem)
    have word := no_blank_filter (isAliases a List.mem_cons_self).2.2.no_blank
    rw [Entry.aliasText] at later ⊢
    simp only [List.flatMap_cons, List.filter_append, List.length_append, List.map_cons,
      List.flatten_cons, later, word]
    omega

theorem gap_of_tokens {tail proto port service : Bytes} {ts : List Bytes} {j : Nat}
    (found : tokens (e.text ++ tail) = e.name :: service :: ts)
    (whole : service = port ++ slash :: proto) (number : port = List.replicate j tab ++ e.port) :
    ∃ i j, e.gap = List.replicate (i + 1) blank ++ List.replicate j tab := by
  have blanks : ∀ n, ∀ c ∈ List.replicate n blank, isspace c = true := by
    intro n c member
    rw [List.eq_of_mem_replicate member]
    rfl
  obtain ⟨n, rest₁, first, found₁, next⟩ := tokens_first found
  obtain ⟨m, rest₂, second, _, _⟩ := tokens_first found₁
  obtain ⟨c, more, name, graphic, _⟩ := e.isName.first
  have start : [] = List.replicate n blank := by
    refine blanks_unique (x := more ++ (e.gap ++ (e.service ++ Entry.aliasText e.aliases)) ++ tail)
      (y := more ++ rest₁) (by simp) (blanks n) graphic graphic ?_
    rw [Entry.text, name] at first
    simpa using first
  rw [← start, List.nil_append, Entry.text, List.append_assoc, List.append_cancel_left_eq] at first
  obtain ⟨d, digits, port_⟩ := List.exists_cons_of_ne_nil e.isPort.1
  have digit : isspace d = false := digit_graphic (e.isPort.2.1 d (port_ ▸ List.mem_cons_self))
  have gap : e.gap = List.replicate m blank ++ List.replicate j tab := by
    refine blanks_unique (x := digits ++ slash :: e.proto ++ Entry.aliasText e.aliases ++ tail)
      (y := digits ++ slash :: proto ++ rest₂) e.isGap.2.space ?_ digit digit ?_
    · intro c member
      rcases List.mem_append.mp member with member | member
      · exact blanks m c member
      · rw [List.eq_of_mem_replicate member]
        rfl
    · rw [whole, number, port_] at second
      rw [Entry.service, port_, second] at first
      simpa using first
  cases m with
  | zero =>
    cases j with
    | zero => exact absurd gap e.isGap.1
    | succ j =>
      rw [← first, gap] at next
      exact absurd (next tab rfl) (by decide)
  | succ i => exact ⟨i, j, gap⟩

theorem readable_of_tokens {tail port service : Bytes}
    (found : tokens (e.text ++ tail) = e.name :: service :: e.aliases.map Prod.snd)
    (parts : split slash service = some (port, e.proto)) :
    e.Spaced ∧ hash ∉ tail := by
  obtain ⟨whole, plain⟩ := split_some parts
  obtain ⟨j, tabs⟩ := filter_blanks e.isGap.2
  -- without the blanks both are the same text, which is cut at its first slash
  have flat := flatten_tokens (e.text ++ tail)
  rw [found, Entry.text] at flat
  simp only [List.flatten_cons, List.filter_append, no_blank_filter e.isName.no_blank,
    no_blank_filter (no_blank_service e), tabs, List.append_assoc,
    List.append_cancel_left_eq] at flat
  have plain' : slash ∉ List.replicate j tab ++ e.port := by
    rw [List.mem_append, not_or]
    refine ⟨fun member => ?_, no_slash_port e⟩
    exact absurd (List.eq_of_mem_replicate member) (by decide)
  have cut := split_append plain (e.proto ++ (e.aliases.map Prod.snd).flatten)
  rw [← List.cons_append, ← List.append_assoc, ← whole, flat, Entry.service, List.append_assoc,
    List.cons_append, ← List.append_assoc (List.replicate j tab), split_append plain'] at cut
  obtain ⟨number, rest⟩ := Prod.mk.inj (Option.some.inj cut)
  have rest := List.append_cancel_left rest
  -- so nothing is left for tabs before the aliases and for a comment
  have sizes := congrArg List.length rest
  rw [List.length_append, filter_aliases e.isAliases] at sizes
  have no_tabs := List.length_eq_zero_iff.mp (by omega :
    (e.aliases.flatMap fun a => a.1.filter fun c => c ≠ blank).length = 0)
  have no_tail := List.length_eq_zero_iff.mp (by omega :
    (tail.filter fun c => c ≠ blank).length = 0)
  refine ⟨⟨?_, ?_⟩, ?_⟩
  · exact gap_of_tokens found whole number.symm
  · intro a member there
    rw [List.flatMap_eq_nil_iff] at no_tabs
    have none_ := List.filter_eq_nil_iff.mp (no_tabs a member) tab there
    exact none_ (by decide)
  · intro there
    have none_ := List.filter_eq_nil_iff.mp no_tail hash there
    exact none_ (by decide)

theorem lineEntry_iff (some_ : l.entry = some e) :
    lineEntry l.text = some e.servent ↔ e.Spaced ∧ l.comment = none := by
  obtain ⟨tail, trimmed, bare, commented⟩ := trim_entry some_
  have head : (e.text ++ tail).head? ≠ some hash := by
    obtain ⟨c, more, name, _, other⟩ := e.isName.first
    rw [Entry.text, name, List.cons_append, List.cons_append, List.head?_cons]
    exact fun same => other (Option.some.inj same)
  rw [lineEntry, trimmed]
  dsimp only
  rw [if_neg head]
  constructor
  · intro entry
    split at entry
    next name service aliases found =>
      obtain ⟨⟨port, proto⟩, parts, same⟩ := Option.map_eq_some_iff.mp entry
      obtain ⟨rfl, rfl, _, rfl⟩ := Servent.mk.inj same
      obtain ⟨spaced, no_hash⟩ := readable_of_tokens found parts
      exact ⟨spaced, not_not.mp fun comment => no_hash (commented comment)⟩
    next => cases entry
  · rintro ⟨spaced, comment⟩
    obtain ⟨j, found⟩ := tokens_spaced spaced
    rw [tokens] at found
    rw [bare comment, List.append_nil, found]
    simp only [split_service, Option.map_some, atoi_port, Entry.servent]

theorem lineEntry_servent_iff (l : Line) : lineEntry l.text = l.servent ↔ l.Readable := by
  cases some_ : l.entry with
  | none =>
    rw [lineEntry_none some_, Line.servent, Line.Readable, some_]
    simp
  | some e =>
    rw [Line.servent, some_, Option.map_some, lineEntry_iff some_, Line.Readable, some_]
    simp

/-! The whole file. -/

theorem loadLines_answers {s : Stream} {ls : List Bytes} (answers : Answers s ls)
    (serviceEntries : List Servent) :
    loadLines s serviceEntries = serviceEntries ++ ls.filterMap lineEntry := by
  induction ls generalizing s serviceEntries with
  | nil =>
    have none_ : (readLine s).1 = none := answers 0
    rw [loadLines]
    split
    next read =>
      rw [read] at none_
      cases none_
    next => simp
  | cons line ls ih =>
    have first : (readLine s).1 = some line := answers 0
    rw [loadLines]
    split
    next line' s' read =>
      rw [read] at first
      obtain rfl := Option.some.inj first
      have later := (answers_cons read ls).mp answers
      rw [ih later, List.append_assoc, List.filterMap_cons]
      cases lineEntry line' <;> rfl
    next read =>
      rw [read] at first
      cases first

section Selected

variable {α β : Type} {f g : α → Option β}

theorem length_filterMap_le (passed : ∀ a, g a = none → f a = none) (as : List α) :
    (as.filterMap f).length ≤ (as.filterMap g).length := by
  induction as with
  | nil => exact Nat.le_refl 0
  | cons a as ih =>
    rw [List.filterMap_cons, List.filterMap_cons]
    cases here : g a with
    | none =>
      rw [passed a here]
      exact ih
    | some b =>
      cases f a with
      | none => exact Nat.le_succ_of_le ih
      | some c => exact Nat.succ_le_succ ih

theorem filterMap_take_iff (passed : ∀ a, g a = none → f a = none) (n : Nat) (as : List α) :
    (as.take n).filterMap f = as.filterMap g ↔
      ∀ i a, as[i]? = some a → g a ≠ none → i < n ∧ f a = g a := by
  induction as generalizing n with
  | nil => simp
  | cons a as ih =>
    have parts : (∀ i b, (a :: as)[i]? = some b → g b ≠ none → i < n ∧ f b = g b) ↔
        (g a ≠ none → 0 < n ∧ f a = g a) ∧
          ∀ i b, as[i]? = some b → g b ≠ none → i + 1 < n ∧ f b = g b := by
      constructor
      · intro all
        exact ⟨all 0 a rfl, fun i b at_ => all (i + 1) b at_⟩
      · rintro ⟨first, later⟩ i b at_
        cases i with
        | zero => exact Option.some.inj at_ ▸ first
        | succ i => exact later i b at_
    rw [parts]
    cases n with
    | zero =>
      rw [List.take_zero, List.filterMap_nil, eq_comm, List.filterMap_eq_nil_iff,
        List.forall_mem_cons]
      simp only [Nat.not_lt_zero, false_and, imp_false, not_not, List.mem_iff_getElem?,
        forall_exists_index]
      exact and_congr_right fun _ => forall_comm
    | succ n =>
      simp only [Nat.add_lt_add_iff_right]
      rw [← ih n, List.take_succ_cons, List.filterMap_cons, List.filterMap_cons]
      cases here : g a with
      | none =>
        rw [passed a here]
        simp
      | some b =>
        cases f a with
        | none =>
          simp only [reduceCtorEq, and_false, ne_eq, not_false_eq_true, imp_false,
            not_true_eq_false, false_and, iff_false]
          intro same
          have less := length_filterMap_le passed (as.take n)
          have sizes := congrArg List.length same
          have most := ((List.take_sublist n as).filterMap g).length_le
          rw [List.length_cons] at sizes
          omega
        | some c => simp

end Selected

variable {chunks : List Bytes}

theorem load_entries (db : ServentDB) {mtime : Int × Int}
    (changed : db.lastModifiedTime ≠ mtime) (some_ : ∀ buf ∈ chunks, buf ≠ []) :
    (db.load ⟨some mtime, true, chunks⟩).serviceEntries =
      ((lines NEWLINE chunks.flatten).take (linesRead chunks)).filterMap lineEntry := by
  have all := loadLines_answers (answers_linesRead some_) []
  rw [ServentDB.load]
  simp only
  rw [if_neg changed]
  exact all

theorem load_entries_iff (db : ServentDB) {mtime : Int × Int}
    (changed : db.lastModifiedTime ≠ mtime) (some_ : ∀ buf ∈ chunks, buf ≠ []) {ls : List Line}
    (content : lines NEWLINE chunks.flatten = ls.map Line.text) :
    (db.load ⟨some mtime, true, chunks⟩).serviceEntries = ls.filterMap Line.servent ↔
      ∀ i l, ls[i]? = some l → l.entry ≠ none → i < linesRead chunks ∧ l.Readable := by
  have passed : ∀ l : Line, l.servent = none → lineEntry l.text = none := by
    intro l none_
    exact lineEntry_none (Option.map_eq_none_iff.mp none_)
  have some_iff : ∀ l : Line, l.servent ≠ none ↔ l.entry ≠ none := by
    intro l
    rw [Line.servent, ne_eq, Option.map_eq_none_iff]
  rw [load_entries db changed some_, content, ← List.map_take, List.filterMap_map]
  have all := filterMap_take_iff (f := lineEntry ∘ Line.text) passed (linesRead chunks) ls
  rw [all]
  simp only [some_iff, Function.comp, lineEntry_servent_iff]

/-! The two searches. -/

/-- The first of the entries with a property, if there is one. -/
def FirstOf (P : Servent → Prop) (entries : List Servent) : Option Servent → Prop
  | some e => ∃ before after, entries = before ++ e :: after ∧ P e ∧ ∀ d ∈ before, ¬ P d
  | none => ∀ e ∈ entries, ¬ P e

def OfProto (proto : Option Bytes) (e : Servent) : Prop := ∀ p ∈ proto, e.s_proto = p

theorem hasProto_iff (proto : Option Bytes) (e : Servent) :
    ServentDB.hasProto proto e = true ↔ OfProto proto e := by
  cases proto with
  | none => simp [ServentDB.hasProto, OfProto]
  | some p => simp [ServentDB.hasProto, OfProto]

theorem search_first (db : ServentDB) {p : Servent → Bool} {P : Servent → Prop}
    (decides : ∀ e, p e = true ↔ P e) : FirstOf P db.serviceEntries (db.search p).1 := by
  have found : (db.search p).1 = db.serviceEntries.find? p := by
    rw [ServentDB.search, List.find?_eq_bind_findIdx?_getElem?]
    cases db.serviceEntries.findIdx? p <;> rfl
  rw [found]
  cases first : db.serviceEntries.find? p with
  | none =>
    intro e member property
    exact List.find?_eq_none.mp first e member ((decides e).mpr property)
  | some e =>
    obtain ⟨here, before, after, split, others⟩ := List.find?_eq_some_iff_append.mp first
    refine ⟨before, after, split, (decides e).mp here, ?_⟩
    intro d member property
    have no := others d member
    rw [(decides d).mpr property] at no
    cases no

theorem getservbyname_first (db : ServentDB) (file : ServicesFile) (name : Bytes)
    (proto : Option Bytes) :
    FirstOf (fun e => e.s_name = name ∧ OfProto proto e) (db.load file).serviceEntries
      (db.getservbyname file name proto).1 := by
  apply search_first
  intro e
  rw [Bool.and_eq_true, decide_eq_true_eq, hasProto_iff]

theorem getservbyport_first (db : ServentDB) (file : ServicesFile) (port : Int)
    (proto : Option Bytes) :
    FirstOf (fun e => e.s_port = port ∧ OfProto proto e) (db.load file).serviceEntries
      (db.getservbyport file port proto).1 := by
  apply search_first
  intro e
  rw [Bool.and_eq_true, decide_eq_true_eq, hasProto_iff]

/-- What the call number `k` of `getservent` returns, counted from zero. -/
def nthServent (file : ServicesFile) : Nat → ServentDB → Option Servent
  | 0, db => (db.getservent file).1
  | k + 1, db => nthServent file k (db.getservent file).2

theorem load_same {db : ServentDB} {file : ServicesFile}
    (same : file.st_mtime = some db.lastModifiedTime) : db.load file = db := by
  rw [ServentDB.load, same]
  exact if_pos rfl

theorem nthServent_eq {db : ServentDB} {file : ServicesFile}
    (same : file.st_mtime = some db.lastModifiedTime) (k : Nat) :
    nthServent file k db = db.serviceEntries[db.itIndex + k]? := by
  induction k generalizing db with
  | zero =>
    rw [nthServent, ServentDB.getservent, load_same same, Nat.add_zero]
    split
    next e here => exact here.symm
    next none_ => exact none_.symm
  | succ k ih =>
    rw [nthServent, ServentDB.getservent, load_same same]
    split
    next e here =>
      have later : nthServent file k { db with itIndex := db.itIndex + 1 }
          = db.serviceEntries[db.itIndex + 1 + k]? := ih same
      rw [later, Nat.add_right_comm, Nat.add_assoc]
    next none_ =>
      rw [ih same]
      rw [List.getElem?_eq_none_iff] at none_
      rw [List.getElem?_eq_none (by omega), List.getElem?_eq_none (by omega)]

/-- What `load` stores is what the lines say when each entry is within reach, with its separators
    in the right places and no comment behind it; the searches find the first that is stored. -/
theorem services_iff (db : ServentDB) {mtime : Int × Int} (changed : db.lastModifiedTime ≠ mtime)
    (chunks : List Bytes) (some_ : ∀ buf ∈ chunks, buf ≠ []) (ls : List Line)
    (content : lines NEWLINE chunks.flatten = ls.map Line.text) :
    ((db.load ⟨some mtime, true, chunks⟩).serviceEntries = ls.filterMap Line.servent ↔
      ∀ i l, ls[i]? = some l → l.entry ≠ none → i < linesRead chunks ∧ l.Readable)
      ∧ (∀ (db : ServentDB) (file : ServicesFile) (name : Bytes) (proto : Option Bytes),
        FirstOf (fun e => e.s_name = name ∧ OfProto proto e) (db.load file).serviceEntries
          (db.getservbyname file name proto).1)
      ∧ ∀ (db : ServentDB) (file : ServicesFile) (port : Int) (proto : Option Bytes),
        FirstOf (fun e => e.s_port = port ∧ OfProto proto e) (db.load file).serviceEntries
          (db.getservbyport file port proto).1 :=
  ⟨load_entries_iff db changed some_ content, getservbyname_first, getservbyport_first⟩

/-- The line `http`, the gap, `80/tcp`. -/
def httpLine (gap : Bytes) (isGap : gap ≠ [] ∧ Blanks gap) : Line where
  front := []
  entry := some {
    name := [104, 116, 116, 112]
    gap
    port := [56, 48]
    proto := [116, 99, 112]
    aliases := []
    isName := ⟨by simp, by simp [isspace, hash]⟩
    isGap
    isPort := ⟨by simp, by simp [Digit], by decide⟩
    isProto := ⟨by simp, by simp [isspace, hash]⟩
    isAliases := by simp }
  back := []
  comment := none
  isFront := by simp [Blanks]
  isBack := by simp [Blanks]
  isComment := by simp

def blankLine : Line := httpLine [blank] ⟨by simp, by simp [Blanks]⟩

def tabLine : Line := httpLine [tab] ⟨by simp, by simp [Blanks]⟩

theorem services_iff_blank :
    ((ServentDB.initial.load ⟨some (1, 0), true, [blankLine.text]⟩).serviceEntries
        = [blankLine].filterMap Line.servent ↔
      ∀ i l, [blankLine][i]? = some l → l.entry ≠ none →
        i < linesRead [blankLine.text] ∧ l.Readable)
      ∧ (∀ (db : ServentDB) (file : ServicesFile) (name : Bytes) (proto : Option Bytes),
        FirstOf (fun e => e.s_name = name ∧ OfProto proto e) (db.load file).serviceEntries
          (db.getservbyname file name proto).1)
      ∧ ∀ (db : ServentDB) (file : ServicesFile) (port : Int) (proto : Option Bytes),
        FirstOf (fun e => e.s_port = port ∧ OfProto proto e) (db.load file).serviceEntries
          (db.getservbyport file port proto).1 :=
  services_iff .initial (by decide) [blankLine.text] (by decide) [blankLine] (by decide)

/-- A tab alone does not separate the port from the name. -/
theorem tab_lost : lines NEWLINE [tabLine.text].flatten = [tabLine].map Line.text
    ∧ (ServentDB.initial.load ⟨some (1, 0), true, [tabLine.text]⟩).serviceEntries
      ≠ [tabLine].filterMap Line.servent := by
  have content : lines NEWLINE [tabLine.text].flatten = [tabLine].map Line.text := by decide
  refine ⟨content, ?_⟩
  intro loaded
  have all := (load_entries_iff .initial (by decide) (by decide) content).mp loaded
  obtain ⟨_, readable⟩ := all 0 tabLine rfl (by simp [tabLine, httpLine])
  obtain ⟨⟨⟨i, j, gap⟩, _⟩, _⟩ := readable _ rfl
  rw [List.replicate_succ, List.cons_append] at gap
  exact absurd (List.cons.inj gap).1 (by decide)

end Netdb
