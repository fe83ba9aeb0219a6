import UpanLibs.TextArea.Fixed.FixedLinesRealign

/-!
The text that the lines stand for, and what `wrapremovech` and `insert` make of it.
-/
namespace FixedText

open TextInput
open WrappedText (Layout Sym)
open WrappedText.Layout (symbols)

def Closed (maxLineChars : Nat) : List FixedTextLine → Prop
  | [] => True
  | [last] => last.size ≤ maxLineChars ∧ last.wrapped = false
  | line :: next :: below => Solid maxLineChars line ∧ Closed maxLineChars (next :: below)

variable {maxLineChars : Nat}

theorem closed_cons {line : FixedTextLine} {below : List FixedTextLine} (more : below ≠ []) :
    Closed maxLineChars (line :: below) ↔
      Solid maxLineChars line ∧ Closed maxLineChars below := by
  cases below with
  | nil => exact absurd rfl more
  | cons next below => rfl

theorem closed_append {above below : List FixedTextLine} (more : below ≠ []) :
    Closed maxLineChars (above ++ below) ↔
      (∀ line ∈ above, Solid maxLineChars line) ∧ Closed maxLineChars below := by
  induction above with
  | nil => simp
  | cons line above ih =>
    rw [List.cons_append, closed_cons (by simp [more]), ih]
    simp [and_assoc]

theorem closed_tail {line : FixedTextLine} {below : List FixedTextLine}
    (closed : Closed maxLineChars (line :: below)) : Closed maxLineChars below := by
  cases below with
  | nil => trivial
  | cons next below => exact closed.2

theorem closed_head {line : FixedTextLine} {below : List FixedTextLine}
    (closed : Closed maxLineChars (line :: below)) : Solid maxLineChars line := by
  cases below with
  | nil => exact ⟨closed.1, by simp [closed.2]⟩
  | cons next below => exact closed.1

theorem closed_more {line : FixedTextLine} {below : List FixedTextLine}
    (closed : Closed maxLineChars (line :: below)) (wrapped : line.wrapped = true) :
    below ≠ [] := by
  rintro rfl
  rw [closed.2] at wrapped
  cases wrapped

theorem closed_unwrapped {line : FixedTextLine} {below : List FixedTextLine}
    (fits : line.size ≤ maxLineChars) (unwrapped : line.wrapped = false)
    (closed : Closed maxLineChars below) : Closed maxLineChars (line :: below) := by
  cases below with
  | nil => exact ⟨fits, unwrapped⟩
  | cons next below => exact ⟨⟨fits, by simp [unwrapped]⟩, closed⟩

theorem closed_shaped {lines : List FixedTextLine} (closed : Closed maxLineChars lines) :
    Shaped maxLineChars lines := by
  induction lines with
  | nil => trivial
  | cons line below ih =>
    cases below with
    | nil => exact closed.1
    | cons next below => exact ⟨closed.1, ih closed.2⟩

theorem closed_iff {lines : List FixedTextLine} :
    Closed maxLineChars lines ↔ Shaped maxLineChars lines ∧ layout.Ends lines := by
  induction lines with
  | nil => simp [Closed, Shaped, Layout.Ends, layout]
  | cons line below ih =>
    cases below with
    | nil => simp [Closed, Shaped, Layout.Ends, layout]
    | cons next below =>
      rw [closed_cons (by simp), shaped_cons (by simp), layout.ends_cons (by simp), ih, and_assoc]

def closing (below : List FixedTextLine) : List (Sym FixedCharacter) :=
  if below = [] then [] else .newline :: layout.text below

theorem text_unwrapped (chars : List FixedCharacter) (below : List FixedTextLine) :
    layout.text (⟨chars, false⟩ :: below) = symbols chars ++ closing below := by
  cases below with
  | nil => simp [Layout.text, layout, closing]
  | cons next below => simp [Layout.text, Layout.ending, layout, closing]

theorem text_wrapped (chars : List FixedCharacter) {below : List FixedTextLine}
    (more : below ≠ []) :
    layout.text (⟨chars, true⟩ :: below) = symbols chars ++ layout.text below := by
  rw [layout.text_cons more]
  simp [Layout.ending, layout]

def settled (r : List FixedTextLine × Option Nat) : List FixedTextLine :=
  match r.2 with
  | none => r.1
  | some deleted => r.1.eraseIdx deleted

def lastSize : List FixedTextLine → Nat
  | [] => 0
  | line :: below => if line.wrapped then lastSize below else line.size

/-- The line above the one to delete is not wrapped, so that `removeLine` leaves it alone. -/
def Detached (r : List FixedTextLine × Option Nat) : Prop :=
  ∀ deleted, r.2 = some deleted → ∃ above line below, r.1 = above ++ line :: below ∧
    above.length + 1 = deleted ∧ line.wrapped = false ∧ below ≠ []

theorem settled_cons (line : FixedTextLine) (lines : List FixedTextLine)
    (deleted : Option Nat) :
    settled (line :: lines, deleted.map (· + 1)) = line :: settled (lines, deleted) := by
  cases deleted <;> rfl

theorem detached_cons (line : FixedTextLine) {lines : List FixedTextLine}
    {deleted : Option Nat} (detached : Detached (lines, deleted)) :
    Detached (line :: lines, deleted.map (· + 1)) := by
  intro d which
  obtain ⟨d', rfl, rfl⟩ := Option.map_eq_some_iff.mp which
  obtain ⟨above, last, below, split, length, unwrapped, more⟩ := detached d' rfl
  refine ⟨line :: above, last, below, ?_, ?_, unwrapped, more⟩
  · rw [List.cons_append, ← split]
  · rw [List.length_cons, length]

theorem detached_first (line next : FixedTextLine) (below : List FixedTextLine)
    (unwrapped : line.wrapped = false) : Detached (line :: next :: below, some 1) := by
  rintro deleted ⟨⟩
  exact ⟨[], line, next :: below, rfl, rfl, unwrapped, by simp⟩

structure FirstRemoved (maxLineChars : Nat) (line : FixedTextLine)
    (below : List FixedTextLine) (r : List FixedTextLine × Option Nat) : Prop where
  head : ∃ first raw rest, r.1 = first :: raw ∧ settled r = first :: rest ∧
    (line.wrapped = true → 0 < first.size)
  text : layout.text (settled r) = (layout.text (line :: below)).tail
  closed : Closed maxLineChars (settled r)
  detached : Detached r
  unwrapped : line.wrapped = false → r = (line.remove 0 1 :: below, none)
  keeps : 2 ≤ lastSize (line :: below) →
    r.2 = none ∧ lastSize r.1 + 1 = lastSize (line :: below)

theorem FirstRemoved.ends {line : FixedTextLine} {below : List FixedTextLine}
    {r : List FixedTextLine × Option Nat} (first : FirstRemoved maxLineChars line below r)
    (empty : nextSize r.1 = 0) : line.wrapped = false := by
  obtain ⟨next, raw, _, raw_, _, positive⟩ := first.head
  by_contra wrapped
  have some_ : 0 < next.size := positive (by simpa using wrapped)
  rw [raw_, nextSize] at empty
  omega

theorem FirstRemoved.emptied {line : FixedTextLine} {below lines : List FixedTextLine}
    {deleted : Option Nat} (first : FirstRemoved maxLineChars line below (lines, deleted))
    (empty : nextSize lines = 0) :
    deleted = none ∧ ∃ rest, lines = ⟨[], false⟩ :: rest := by
  have unwrapped := first.ends empty
  obtain ⟨same, none_⟩ := Prod.mk.inj (first.unwrapped unwrapped)
  rw [same, nextSize] at empty
  have nothing : (line.remove 0 1).chars = [] := List.length_eq_zero_iff.mp empty
  refine ⟨none_, below, ?_⟩
  rw [same, ← nothing, ← unwrapped, ← remove_wrapped line 0 (0 + 1)]

def GivesOne (maxLineChars : Nat) (below : List FixedTextLine) : Prop :=
  (∀ line ∈ below.head?, line.wrapped = false) ∨ 2 ≤ maxLineChars ∨ 0 < lastSize below

theorem first_unwrapped {ch : FixedCharacter} {chars : List FixedCharacter}
    {below : List FixedTextLine} (closed : Closed maxLineChars (⟨ch :: chars, false⟩ :: below)) :
    FirstRemoved maxLineChars ⟨ch :: chars, false⟩ below (⟨chars, false⟩ :: below, none) := by
  refine ⟨⟨_, _, _, rfl, rfl, by simp⟩, ?_, ?_, by simp [Detached], ?_, ?_⟩
  · rw [settled, text_unwrapped, text_unwrapped]
    simp
  · have fits := (closed_head closed).1
    exact closed_unwrapped (Nat.le_trans (Nat.le_succ _) fits) rfl (closed_tail closed)
  · simp [remove_first]
  · simp [lastSize, FixedTextLine.size]

theorem first_ends {ch : FixedCharacter} {chars nextChars : List FixedCharacter}
    {below : List FixedTextLine}
    (closed : Closed maxLineChars (⟨ch :: chars, true⟩ :: ⟨nextChars, false⟩ :: below))
    (few : nextChars.length ≤ 1) (some_ : 0 < (chars ++ nextChars).length) :
    FirstRemoved maxLineChars ⟨ch :: chars, true⟩ (⟨nextChars, false⟩ :: below)
      (⟨chars ++ nextChars, false⟩ :: ⟨[], false⟩ :: below, some 1) := by
  have full : chars.length + 1 = maxLineChars := (closed_head closed).2 rfl
  refine ⟨⟨_, _, _, rfl, rfl, fun _ => some_⟩, ?_, ?_, detached_first _ _ _ rfl, by simp, ?_⟩
  · change layout.text (⟨chars ++ nextChars, false⟩ :: below) = _
    rw [text_unwrapped, text_wrapped _ (by simp), text_unwrapped]
    simp
  · refine closed_unwrapped ?_ rfl (closed_tail (closed_tail closed))
    change (chars ++ nextChars).length ≤ maxLineChars
    rw [List.length_append]
    omega
  · intro long
    have last : 2 ≤ nextChars.length := long
    omega

theorem first_goes_on {ch nextCh : FixedCharacter} {chars nextRest : List FixedCharacter}
    {nextWrapped : Bool} {below : List FixedTextLine} {r : List FixedTextLine × Option Nat}
    (closed : Closed maxLineChars
      (⟨ch :: chars, true⟩ :: ⟨nextCh :: nextRest, nextWrapped⟩ :: below))
    (rest : FirstRemoved maxLineChars ⟨nextCh :: nextRest, nextWrapped⟩ below r) :
    FirstRemoved maxLineChars ⟨ch :: chars, true⟩ (⟨nextCh :: nextRest, nextWrapped⟩ :: below)
      (⟨chars ++ [nextCh], true⟩ :: r.1, r.2.map (· + 1)) := by
  have full : chars.length + 1 = maxLineChars := (closed_head closed).2 rfl
  have size : (⟨chars ++ [nextCh], true⟩ : FixedTextLine).size = maxLineChars := by
    simp [FixedTextLine.size, full]
  obtain ⟨first, raw, after, -, settled_, -⟩ := rest.head
  have more : settled r ≠ [] := by simp [settled_]
  have settle : settled (⟨chars ++ [nextCh], true⟩ :: r.1, r.2.map (· + 1)) =
      ⟨chars ++ [nextCh], true⟩ :: settled r := settled_cons _ _ _
  refine ⟨⟨_, _, _, rfl, settle, fun _ => by omega⟩, ?_, ?_, detached_cons _ rest.detached,
    by simp, ?_⟩
  · have head : layout.text (⟨nextCh :: nextRest, nextWrapped⟩ :: below) =
        .chr nextCh :: (layout.text (⟨nextCh :: nextRest, nextWrapped⟩ :: below)).tail := by
      cases below <;> simp [Layout.text, layout]
    rw [settle, text_wrapped _ more, rest.text, text_wrapped _ (by simp), head]
    simp
  · rw [settle, closed_cons more]
    exact ⟨⟨Nat.le_of_eq size, fun _ => size⟩, rest.closed⟩
  · intro long
    obtain ⟨none_, last⟩ := rest.keeps long
    rw [none_]
    exact ⟨rfl, last⟩

theorem wrapremovech_first (depth : Nat) (line : FixedTextLine) (below : List FixedTextLine)
    (enough : below.length < depth) (room : 0 < maxLineChars)
    (closed : Closed maxLineChars (line :: below)) (some_ : 0 < line.size)
    (gives : GivesOne maxLineChars (line :: below)) :
    FirstRemoved maxLineChars line below (wrapremovech maxLineChars depth 0 (line :: below)) := by
  induction depth generalizing line below with
  | zero => omega
  | succ depth ih =>
    obtain ⟨chars, wrapped⟩ := line
    obtain ⟨ch, chars, rfl⟩ := List.exists_cons_of_ne_nil (List.ne_nil_of_length_pos some_)
    unfold wrapremovech
    rw [remove_first]
    cases wrapped with
    | false =>
      simp only [true_or, if_true]
      exact first_unwrapped closed
    | true =>
      have full : chars.length + 1 = maxLineChars := (closed_head closed).2 rfl
      have more := closed_more closed rfl
      obtain ⟨⟨nextChars, nextWrapped⟩, below, rfl⟩ := List.exists_cons_of_ne_nil more
      have avail : maxLineChars - (⟨chars, true⟩ : FixedTextLine).size = 1 := by
        change maxLineChars - chars.length = 1
        omega
      simp only [Bool.true_eq_false, more, or_self, if_false, avail]
      cases nextChars with
      | nil =>
        have unwrapped : nextWrapped = false := by
          by_contra wrapped
          have : 0 = maxLineChars :=
            (closed_head (closed_tail closed)).2 (by simpa using wrapped)
          omega
        subst unwrapped
        have two : 2 ≤ maxLineChars := by
          simpa [GivesOne, lastSize, FixedTextLine.size] using gives
        simp only [pull, nextSize, FixedTextLine.size, List.length_nil, Nat.lt_irrefl,
          false_and, and_false, if_false, if_true]
        have ends := first_ends closed (Nat.zero_le 1) (by rw [List.append_nil]; omega)
        rwa [List.append_nil] at ends
      | cons nextCh nextRest =>
        have gives' : GivesOne maxLineChars (⟨nextCh :: nextRest, nextWrapped⟩ :: below) :=
          .inr (gives.resolve_left fun unwrapped => absurd (unwrapped _ rfl) (by simp))
        have rest := ih ⟨nextCh :: nextRest, nextWrapped⟩ below
          (by rw [List.length_cons] at enough; omega) (closed_tail closed) (Nat.succ_pos _) gives'
        simp only [pull, Bool.true_eq_false, false_and, if_false]
        generalize wrapremovech maxLineChars depth 0 (⟨nextCh :: nextRest, nextWrapped⟩ :: below)
          = r at rest ⊢
        have pushed : FixedTextLine.push ⟨chars, true⟩ nextCh = ⟨chars ++ [nextCh], true⟩ := rfl
        simp only [pushed]
        split
        next empty =>
          have unwrapped := rest.ends empty
          change nextWrapped = false at unwrapped
          subst unwrapped
          obtain rfl := rest.unwrapped rfl
          rw [remove_first] at empty ⊢
          obtain rfl : nextRest = [] := List.length_eq_zero_iff.mp empty
          exact first_ends closed (Nat.le_refl 1) (by simp)
        next => exact first_goes_on closed rest

/-- A wrapped line with the lines `below` can be filled with `k` of their characters. -/
def PullFits (maxLineChars k : Nat) (below : List FixedTextLine) : Prop :=
  below ≠ [] ∧ (k = 0 ∨ (∀ line ∈ below.head?, line.wrapped = false) ∨ k ≤ lastSize below ∨
    (k = 1 ∧ 2 ≤ maxLineChars))

instance (maxLineChars k : Nat) (below : List FixedTextLine) :
    Decidable (PullFits maxLineChars k below) := inferInstanceAs (Decidable (_ ∧ _))

theorem PullFits.gives {k : Nat} {below : List FixedTextLine}
    (fits : PullFits maxLineChars (k + 1) below) : GivesOne maxLineChars below := by
  rcases fits.2 with none_ | unwrapped | last | ⟨_, wide⟩
  · omega
  · exact .inl unwrapped
  · exact .inr (.inr (by omega))
  · exact .inr (.inl wide)

theorem text_head (ch : FixedCharacter) (chars : List FixedCharacter) (wrapped : Bool)
    (below : List FixedTextLine) :
    layout.text (⟨ch :: chars, wrapped⟩ :: below) =
      .chr ch :: (layout.text (⟨ch :: chars, wrapped⟩ :: below)).tail := by
  cases below <;> simp [Layout.text, layout]

/-- A line after `pull` and the lines below it: the characters `taken` have moved up. -/
structure Pulled (k : Nat) (line : FixedTextLine) (below : List FixedTextLine) (moved : Bool)
    (maxLineChars : Nat) (taken : List FixedCharacter)
    (r : FixedTextLine × List FixedTextLine × Option Nat × Bool) : Prop where
  line : r.1 = ⟨line.chars ++ taken, line.wrapped⟩
  count : nextSize r.2.1 = 0 ∨ taken.length = k
  few : taken.length ≤ k
  text : symbols taken ++ layout.text (settled (r.2.1, r.2.2.1)) = layout.text below
  closed : Closed maxLineChars (settled (r.2.1, r.2.2.1))
  detached : Detached (r.2.1, r.2.2.1)
  moved : r.2.2.2 = true ↔ moved = true ∨ taken ≠ []
  more : settled (r.2.1, r.2.2.1) ≠ []
  emptied : nextSize r.2.1 = 0 → r.2.2.1 = none ∧ ∃ rest, r.2.1 = ⟨[], false⟩ :: rest

theorem pulled_nothing {k : Nat} {line : FixedTextLine} {below : List FixedTextLine}
    {moved : Bool} (room : 0 < maxLineChars) (closed : Closed maxLineChars below)
    (more : below ≠ []) (stop : nextSize below = 0 ∨ k = 0) :
    Pulled k line below moved maxLineChars [] (line, below, none, moved) := by
  refine ⟨by simp, stop.imp_right Eq.symm, Nat.zero_le _, rfl, closed, by simp [Detached],
    by simp, more, ?_⟩
  intro empty
  refine ⟨rfl, ?_⟩
  obtain ⟨⟨chars, wrapped⟩, rest, rfl⟩ := List.exists_cons_of_ne_nil more
  have none_ : chars = [] := List.length_eq_zero_iff.mp empty
  subst none_
  cases wrapped with
  | false => exact ⟨rest, rfl⟩
  | true =>
    have : 0 = maxLineChars := (closed_head closed).2 rfl
    omega

theorem pull_text (depth k : Nat) (line : FixedTextLine) (below : List FixedTextLine)
    (moved : Bool) (enough : below.length ≤ depth) (room : 0 < maxLineChars)
    (closed : Closed maxLineChars below) (fits : PullFits maxLineChars k below) :
    ∃ taken, Pulled k line below moved maxLineChars taken
      (pull (wrapremovech maxLineChars depth 0) k line below none moved) := by
  induction k generalizing line below moved with
  | zero => exact ⟨[], pulled_nothing room closed fits.1 (.inr rfl)⟩
  | succ k ih =>
    obtain ⟨⟨chars, wrapped⟩, below, rfl⟩ := List.exists_cons_of_ne_nil fits.1
    cases chars with
    | nil => exact ⟨[], pulled_nothing room closed fits.1 (.inl rfl)⟩
    | cons ch chars =>
      rw [List.length_cons] at enough
      have first := wrapremovech_first depth _ below enough room closed
        (by simp [FixedTextLine.size]) fits.gives
      have shape := wrapremovech_shape depth 0 _ below enough (closed_head closed).1
        (closed_shaped (closed_tail closed))
      simp only [pull]
      generalize wrapremovech maxLineChars depth 0 (⟨ch :: chars, wrapped⟩ :: below) = r
        at first shape ⊢
      obtain ⟨lines, deleted⟩ := r
      obtain ⟨next, raw, rest, raw_, settled_, positive⟩ := first.head
      change lines = next :: raw at raw_
      have more : settled (lines, deleted) ≠ [] := by simp [settled_]
      have head := text_head ch chars wrapped below
      rw [← first.text] at head
      cases k with
      | zero =>
        refine ⟨[ch], rfl, .inr rfl, Nat.le_refl _, head.symm, first.closed, first.detached,
          by simp [pull], more, ?_⟩
        exact first.emptied
      | succ k =>
        have later : deleted = none ∧ PullFits maxLineChars (k + 1) lines := by
          refine (fits.2.resolve_left (by omega)).elim (fun unwrapped => ?_) fun other => ?_
          · have unwrapped := unwrapped _ rfl
            obtain ⟨same, none_⟩ := Prod.mk.inj (first.unwrapped unwrapped)
            refine ⟨none_, by simp [raw_], .inr (.inl ?_)⟩
            rw [same]
            rintro _ ⟨⟩
            exact (remove_wrapped _ _ _).trans unwrapped
          · have long := other.resolve_right (by omega)
            obtain ⟨none_, last⟩ := first.keeps (by omega)
            change lastSize lines + 1 = _ at last
            exact ⟨none_, by simp [raw_], .inr (.inr (.inl (by omega)))⟩
        obtain ⟨rfl, fits'⟩ := later
        have length : lines.length ≤ depth := by
          rw [shape.length]
          exact enough
        obtain ⟨taken, pulled⟩ := ih (FixedTextLine.push line ch) lines true length first.closed
          fits'
        have text := pulled.text
        refine ⟨ch :: taken, ?_, ?_, Nat.succ_le_succ pulled.few, ?_, pulled.closed,
          pulled.detached, ?_, pulled.more, pulled.emptied⟩
        · rw [pulled.line]
          simp [FixedTextLine.push]
        · exact pulled.count.imp_right fun count => by simp [count]
        · rw [head]
          exact congrArg (Sym.chr ch :: ·) text
        · simp [pulled.moved]

/-- A wrapped line that was refilled from those below it: no text is lost or made. -/
structure Refilled (maxLineChars : Nat) (chars : List FixedCharacter)
    (text : List (Sym FixedCharacter)) (r : List FixedTextLine × Option Nat) : Prop where
  head : ∃ taken wrapped rest, settled r = ⟨chars ++ taken, wrapped⟩ :: rest
  text : layout.text (settled r) = symbols chars ++ text
  closed : Closed maxLineChars (settled r)
  detached : Detached r

theorem refilled {chars taken : List FixedCharacter} {lines : List FixedTextLine}
    {deleted : Option Nat} {text : List (Sym FixedCharacter)}
    (same : symbols taken ++ layout.text (settled (lines, deleted)) = text)
    (closed : Closed maxLineChars (settled (lines, deleted)))
    (detached : Detached (lines, deleted)) (more : settled (lines, deleted) ≠ [])
    (emptied : nextSize lines = 0 → deleted = none ∧ ∃ rest, lines = ⟨[], false⟩ :: rest)
    (fits : (chars ++ taken).length ≤ maxLineChars)
    (full : nextSize lines ≠ 0 → (chars ++ taken).length = maxLineChars) :
    Refilled maxLineChars chars text
      (if nextSize lines = 0 then (⟨chars ++ taken, false⟩ :: lines, some 1)
        else (⟨chars ++ taken, true⟩ :: lines, deleted.map (· + 1))) := by
  by_cases empty : nextSize lines = 0
  · obtain ⟨rfl, rest, rfl⟩ := emptied empty
    rw [if_pos empty]
    refine ⟨⟨taken, false, rest, rfl⟩, ?_, closed_unwrapped fits rfl (closed_tail closed),
      detached_first _ _ _ rfl⟩
    change layout.text (⟨chars ++ taken, false⟩ :: rest) = _
    rw [← same, text_unwrapped, settled, text_unwrapped]
    simp
  · rw [if_neg empty]
    have settle := settled_cons ⟨chars ++ taken, true⟩ lines deleted
    refine ⟨⟨taken, true, _, settle⟩, ?_, ?_, detached_cons _ detached⟩
    · rw [settle, text_wrapped _ more, ← same]
      simp
    · rw [settle, closed_cons more]
      exact ⟨⟨fits, fun _ => full empty⟩, closed⟩

theorem wrapremovech_refill (depth x : Nat) (line : FixedTextLine) {chars : List FixedCharacter}
    (below : List FixedTextLine) (enough : below.length < depth) (room : 0 < maxLineChars)
    (removed : line.remove x (x + 1) = ⟨chars, true⟩) (fits : chars.length ≤ maxLineChars)
    (closed : Closed maxLineChars below)
    (pulls : PullFits maxLineChars (maxLineChars - chars.length) below)
    (once : chars.length < maxLineChars ∨ nextSize below = 0) :
    Refilled maxLineChars chars (layout.text below)
      (wrapremovech maxLineChars depth x (line :: below)) := by
  obtain ⟨depth, rfl⟩ := Nat.exists_eq_add_one_of_ne_zero (Nat.ne_zero_of_lt enough)
  rw [Nat.lt_succ_iff] at enough
  obtain ⟨taken, pulled⟩ := pull_text depth (maxLineChars - chars.length) ⟨chars, true⟩ below
    false enough room closed pulls
  have avail : maxLineChars - (⟨chars, true⟩ : FixedTextLine).size =
    maxLineChars - chars.length := rfl
  have still : chars.length = maxLineChars → nextSize (pull (wrapremovech maxLineChars depth 0)
      (maxLineChars - chars.length) ⟨chars, true⟩ below none false).2.1 = 0 := by
    intro full
    rw [full, Nat.sub_self]
    simp only [pull]
    omega
  unfold wrapremovech
  simp only [removed, Bool.true_eq_false, pulls.1, or_self, if_false, avail]
  generalize pull (wrapremovech maxLineChars depth 0) (maxLineChars - chars.length)
    ⟨chars, true⟩ below none false = p at pulled still ⊢
  obtain ⟨line', lines, deleted, moved⟩ := p
  cases pulled.line
  have few := pulled.few
  have again : ¬ (moved = false ∧ 0 < nextSize lines ∧ x = FixedTextLine.size ⟨chars ++ taken, true⟩) := by
    rintro ⟨unmoved, some_, _⟩
    have count := pulled.count.resolve_left (Nat.pos_iff_ne_zero.mp some_)
    have nothing : taken = [] := by
      by_contra taken_
      have := pulled.moved.mpr (.inr taken_)
      simp [unmoved] at this
    rw [nothing, List.length_nil] at count
    have := still (by omega)
    simp only at this
    omega
  simp only [if_neg again]
  refine refilled pulled.text pulled.closed pulled.detached pulled.more pulled.emptied ?_ ?_
  · rw [List.length_append]
    omega
  · intro some_
    rw [List.length_append, pulled.count.resolve_left some_]
    omega

theorem wrapremovech_next (depth : Nat) (chars : List FixedCharacter)
    (below : List FixedTextLine) (enough : below.length < depth) (room : 0 < maxLineChars)
    (full : chars.length = maxLineChars) (closed : Closed maxLineChars below)
    (pulls : PullFits maxLineChars 1 below) (some_ : 0 < nextSize below) :
    Refilled maxLineChars chars (layout.text below).tail
      (wrapremovech maxLineChars depth chars.length (⟨chars, true⟩ :: below)) := by
  obtain ⟨depth, rfl⟩ := Nat.exists_eq_add_one_of_ne_zero (Nat.ne_zero_of_lt enough)
  rw [Nat.lt_succ_iff] at enough
  obtain ⟨next, below, rfl⟩ := List.exists_cons_of_ne_nil pulls.1
  rw [List.length_cons] at enough
  have first := wrapremovech_first depth next below enough room closed some_ pulls.gives
  rw [wrapremovech_full depth full some_, unlink]
  generalize wrapremovech maxLineChars depth 0 (next :: below) = r at first ⊢
  obtain ⟨lines, deleted⟩ := r
  obtain ⟨_, _, _, _, settled_, _⟩ := first.head
  have same : symbols [] ++ layout.text (settled (lines, deleted)) =
      (layout.text (next :: below)).tail := first.text
  have whole : (chars ++ []).length = maxLineChars := by rw [List.append_nil, full]
  have done := refilled same first.closed first.detached (by simp [settled_]) first.emptied
    (Nat.le_of_eq whole) fun _ => whole
  simpa using done

def textAfter (wrapped : Bool) (below : List FixedTextLine) : List (Sym FixedCharacter) :=
  if wrapped then layout.text below else closing below

theorem text_line (chars : List FixedCharacter) (wrapped : Bool) (below : List FixedTextLine) :
    layout.text (⟨chars, wrapped⟩ :: below) = symbols chars ++ textAfter wrapped below := by
  cases wrapped with
  | false => exact text_unwrapped chars below
  | true =>
    cases below with
    | nil => simp [Layout.text, layout, textAfter]
    | cons next below => exact text_wrapped chars (by simp)

/-- The lines from the caret's on once `chars` are those of its line: what does not fit
    has moved down. -/
structure Typed (maxLineChars : Nat) (chars : List FixedCharacter) (wrapped : Bool)
    (below : List FixedTextLine) (lines : List FixedTextLine) : Prop where
  head : ∃ wrapped' rest, lines = ⟨chars.take maxLineChars, wrapped'⟩ :: rest ∧
    (maxLineChars < chars.length → wrapped' = true ∧ 0 < nextSize rest)
  text : layout.text lines = layout.text (⟨chars, wrapped⟩ :: below)
  closed : Closed maxLineChars lines

theorem overflowLines_one (room : 0 < maxLineChars) (ch : FixedCharacter) :
    overflowLines maxLineChars [] [ch] = [⟨[ch], false⟩] := by
  simp [overflowLines, room]

theorem one_over {chars : List FixedCharacter} (exceeds : chars.length = maxLineChars + 1) :
    ∃ last, chars = chars.take maxLineChars ++ [last] ∧ chars.drop maxLineChars = [last] := by
  have one : (chars.drop maxLineChars).length = 1 := by
    rw [List.length_drop]
    omega
  obtain ⟨last, only⟩ := List.length_eq_one_iff.mp one
  exact ⟨last, by rw [← only, List.take_append_drop], only⟩

theorem insertFrom_unwrapped (room : 0 < maxLineChars) (lineY : Nat) (ch : FixedCharacter)
    (before after : List FixedCharacter) (below : List FixedTextLine)
    (closed : Closed maxLineChars (⟨before ++ after, false⟩ :: below)) :
    ∃ lines added, insertFrom maxLineChars before.length lineY [ch]
        (⟨before ++ after, false⟩ :: below) = .ok (lines, added) ∧
      Typed maxLineChars (before ++ ch :: after) false below lines := by
  have inserted := insertAll_eq before after [ch] false
  have fits : (before ++ after).length ≤ maxLineChars := (closed_head closed).1
  have length : (before ++ ch :: after).length = (before ++ after).length + 1 := by
    simp [Nat.add_assoc]
  rw [List.append_assoc, List.singleton_append] at inserted
  simp only [insertFrom, inserted, bind, Except.bind, Bool.false_eq_true, if_false]
  generalize before ++ ch :: after = whole at length ⊢
  by_cases exceeds : maxLineChars < whole.length
  · obtain ⟨last, whole_, drop⟩ := one_over
      (show whole.length = maxLineChars + 1 by omega)
    have kept : (⟨whole.take maxLineChars, true⟩ : FixedTextLine).size = maxLineChars := by
      simp [FixedTextLine.size]
      omega
    simp only [drop, List.isEmpty_cons, Bool.false_eq_true, if_false, overflowLines_one room]
    refine ⟨_, _, rfl, ⟨true, _, rfl, fun _ => ⟨rfl, Nat.one_pos⟩⟩, ?_, ?_⟩
    · rw [List.cons_append, text_wrapped _ (by simp), List.singleton_append, text_unwrapped,
        text_unwrapped]
      conv_rhs => rw [whole_]
      simp
    · refine ⟨⟨Nat.le_of_eq kept, fun _ => kept⟩, ?_⟩
      exact closed_unwrapped room rfl (closed_tail closed)
  · have all : whole.take maxLineChars = whole := List.take_of_length_le (by omega)
    have none_ : (whole.drop maxLineChars).isEmpty = true := by
      simp
      omega
    simp only [none_, if_true]
    refine ⟨_, _, rfl, ⟨false, below, by rw [all], fun h => absurd h exceeds⟩, rfl, ?_⟩
    exact closed_unwrapped (Nat.not_lt.mp exceeds) rfl (closed_tail closed)

theorem insertFrom_text (room : 0 < maxLineChars) (lineY : Nat) (ch : FixedCharacter)
    (before after : List FixedCharacter) (wrapped : Bool) (below : List FixedTextLine)
    (closed : Closed maxLineChars (⟨before ++ after, wrapped⟩ :: below)) :
    ∃ lines added, insertFrom maxLineChars before.length lineY [ch]
        (⟨before ++ after, wrapped⟩ :: below) = .ok (lines, added) ∧
      Typed maxLineChars (before ++ ch :: after) wrapped below lines := by
  induction below generalizing lineY ch before after wrapped with
  | nil =>
    cases wrapped with
    | false => exact insertFrom_unwrapped room lineY ch before after [] closed
    | true => exact absurd rfl (closed_more closed rfl)
  | cons next below ih =>
    cases wrapped with
    | false => exact insertFrom_unwrapped room lineY ch before after (next :: below) closed
    | true =>
      have inserted := insertAll_eq before after [ch] true
      have full : (before ++ after).length = maxLineChars := (closed_head closed).2 rfl
      have length : (before ++ ch :: after).length = (before ++ after).length + 1 := by
        simp [Nat.add_assoc]
      rw [List.append_assoc, List.singleton_append] at inserted
      rw [insertFrom, inserted]
      simp only [bind, Except.bind, if_true]
      generalize before ++ ch :: after = whole at length ⊢
      obtain ⟨last, whole_, drop⟩ := one_over
        (show whole.length = maxLineChars + 1 by omega)
      have kept : (⟨whole.take maxLineChars, true⟩ : FixedTextLine).size = maxLineChars := by
        simp [FixedTextLine.size]
        omega
      obtain ⟨lines, added, cascade, typed⟩ := ih (lineY + 1) last [] next.chars next.wrapped
        (closed_tail closed)
      obtain ⟨_, _, lines_, _⟩ := typed.head
      have more : lines ≠ [] := by simp [lines_]
      have some_ : 0 < nextSize lines := by
        rw [lines_]
        simp [nextSize, FixedTextLine.size]
        omega
      simp only [List.nil_append, List.length_nil] at cascade
      simp only [drop, List.isEmpty_cons, Bool.false_eq_true, if_false, cascade]
      refine ⟨_, _, rfl, ⟨true, lines, rfl, fun _ => ⟨rfl, some_⟩⟩, ?_, ?_⟩
      · rw [text_wrapped _ more, typed.text, text_wrapped _ (by simp), text_line, text_line]
        conv_rhs => rw [whole_]
        simp
      · exact (closed_cons more).mpr ⟨⟨Nat.le_of_eq kept, fun _ => kept⟩, typed.closed⟩

end FixedText
