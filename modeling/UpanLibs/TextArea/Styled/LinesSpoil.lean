import UpanLibs.TextArea.Styled.LinesRemove

/-!
Where the lines below cannot fill up each other, `wrapremovech` gives a line an end that it
had not. So the text it leaves says whether they can.
-/
namespace StyledText

open TextInput Fallible
open WrappedText (Layout Sym)
open WrappedText.Layout (symbols)

variable {maxLineCharWidth : Nat}

def Spoils (lines : List TextLine) (r : List TextLine × Option Nat) : Prop :=
  endings lines < endings (settled r)

def Fails (line : TextLine) (below : List TextLine) (r : List TextLine × Option Nat) : Prop :=
  Spoils (line :: below) r ∨
    line.wrapped = true ∧ nextSize r.1 = 0 ∧ endings below ≤ endings r.1.tail

theorem Spoils.flows {lines : List TextLine} {r r' : List TextLine × Option Nat}
    (spoils : Spoils lines r) (flows : Flows (endings r.1) r') : Spoils lines r' := by
  refine Nat.lt_of_lt_of_le spoils (Nat.le_trans ?_ flows.settled_ge)
  unfold settled
  cases r.2 with
  | none => exact Nat.le_refl _
  | some deleted => exact (endings_eraseIdx r.1 deleted).2

theorem pull_spoils {remove : List TextLine → List TextLine × Option Nat}
    (flows : ∀ lines, Flows (endings lines) (remove lines)) {lines : List TextLine} (fuel : Nat)
    (top : TextLine) (below : List TextLine) (deletedLine : Option Nat) (moved : Bool)
    (spoils : Spoils lines (below, deletedLine)) :
    let r := pull maxLineCharWidth remove fuel top below deletedLine moved
    Spoils lines (r.2.1, r.2.2.1) := by
  fun_induction pull maxLineCharWidth remove fuel top below deletedLine moved with
  | case1 => exact spoils
  | case2 characters line next below deletedLine moved ch chs first fits removed ih =>
    exact ih (spoils.flows (flows (next :: below)))
  | case3 => exact spoils
  | case4 => exact spoils

theorem pull_stops {remove : List TextLine → List TextLine × Option Nat} (fuel : Nat)
    (top : TextLine) {below : List TextLine} (deletedLine : Option Nat) (moved : Bool)
    (empty : nextSize below = 0) :
    pull maxLineCharWidth remove fuel top below deletedLine moved =
      (top, below, deletedLine, moved) := by
  fun_induction pull maxLineCharWidth remove fuel top below deletedLine moved with
  | case1 => rfl
  | case2 characters line next below deletedLine moved ch chs first =>
    rw [nextSize, TextLine.size, first] at empty
    cases empty
  | case3 => rfl
  | case4 => rfl

theorem pull_fails {remove : List TextLine → List TextLine × Option Nat}
    (flows : ∀ lines, Flows (endings lines) (remove lines)) {line : TextLine}
    {below : List TextLine} (fuel : Nat) (top : TextLine) (r : List TextLine × Option Nat)
    (moved : Bool) (fails : Fails line below r) :
    let r' := pull maxLineCharWidth remove fuel top r.1 r.2 moved
    Fails line below (r'.2.1, r'.2.2.1) := by
  rcases fails with spoils | ⟨wrapped, empty, kept⟩
  · exact .inl (pull_spoils flows fuel top r.1 r.2 moved spoils)
  · rw [pull_stops fuel top r.2 moved empty]
    exact .inr ⟨wrapped, empty, kept⟩

theorem takeOne_fails {remove : List TextLine → List TextLine × Option Nat}
    (flows : ∀ lines, Flows (endings lines) (remove lines)) {line : TextLine}
    {below : List TextLine} {x : Nat} {filled : TextLine × List TextLine × Option Nat × Bool}
    (fails : Fails line below (filled.2.1, filled.2.2.1)) :
    Fails line below (takeOne remove x filled) := by
  unfold takeOne
  split
  next again =>
    rcases fails with spoils | ⟨-, empty, -⟩
    · exact .inl (spoils.flows (flows filled.2.1))
    · exact absurd again.2.1 (by simp only [empty, Nat.lt_irrefl, not_false_eq_true])
  next => exact fails

theorem closed_spoils {top line next : TextLine} {below : List TextLine}
    {removed : List TextLine × Option Nat} (wrapped : line.wrapped = true)
    (same : top.wrapped = line.wrapped) (fails : Fails next below removed) :
    Spoils (line :: next :: below) (closed top removed) := by
  unfold Spoils
  rw [endings_wrapped _ wrapped]
  unfold closed
  split
  next empty =>
    have settled_ : endings (settled ({ top with wrapped := false } :: removed.1, some 1)) =
        endings removed.1.tail + 1 := by
      rw [settled]
      cases removed.1 <;> exact endings_unwrapped _ rfl
    rw [settled_]
    rcases fails with spoils | ⟨wrapped', -, kept⟩
    · unfold Spoils settled at spoils
      have tail : endings removed.1 ≤ endings removed.1.tail + 1 := by
        have erased := (endings_eraseIdx removed.1 0).1
        rwa [List.eraseIdx_zero] at erased
      cases which : removed.2 with
      | none =>
        simp only [which] at spoils
        omega
      | some deleted =>
        simp only [which] at spoils
        have erased := (endings_eraseIdx removed.1 deleted).2
        omega
    · rw [endings_wrapped _ wrapped']
      omega
  next some_ =>
    rcases fails with spoils | ⟨-, empty, -⟩
    · have step : settled (top :: removed.1, removed.2.map (· + 1)) = top :: settled removed := by
        cases which : removed.2 <;> simp [settled, which]
      rw [step, endings_wrapped _ (same.trans wrapped)]
      exact spoils
    · exact absurd empty some_

theorem gives_wrapped {line : TextLine} {below : List TextLine} {given : Nat}
    (stuck : ¬ Gives maxLineCharWidth given (line :: below)) : line.wrapped = true := by
  by_contra unwrapped
  exact stuck fun wrapped => absurd wrapped unwrapped

theorem Popped.tail_endings {line : TextLine} {below : List TextLine} {given : Nat}
    {r : List TextLine × Option Nat} (popped : Popped maxLineCharWidth given line below r)
    (quiet : ¬ Reports maxLineCharWidth given (line :: below)) :
    endings r.1.tail = endings below := by
  refine flags_endings ?_
  rw [List.map_tail, (popped.left quiet).2.flags]
  rfl

theorem gives_zero {line : TextLine} {below : List TextLine} :
    Gives maxLineCharWidth 0 (line :: below) ↔ (line.wrapped = true → 0 < line.size) := by
  constructor
  · intro gives wrapped
    exact (gives wrapped).1 0 (Nat.le_refl _)
  · intro some_ wrapped
    refine ⟨fun n none_ => ?_, nofun, fun more => ?_⟩
    · rw [Nat.le_zero.mp none_]
      exact some_ wrapped
    · omega

theorem gives_of_front {line : TextLine} {below : List TextLine} {given : Nat}
    (earlier : 0 < given → Gives maxLineCharWidth given (line :: below))
    (some_ : front maxLineCharWidth line below given ≠ []) :
    Gives maxLineCharWidth given (line :: below) := by
  rcases Nat.eq_zero_or_pos given with rfl | positive
  · rw [gives_zero]
    intro wrapped
    have length := List.length_pos_iff.mpr some_
    rw [front_wrapped wrapped] at length
    simpa [window, pulls, TextLine.size] using length
  · exact earlier positive

theorem Popped.fails_empty {line : TextLine} {below : List TextLine} {given : Nat}
    {r : List TextLine × Option Nat} (popped : Popped maxLineCharWidth given line below r)
    (earlier : 0 < given → Gives maxLineCharWidth given (line :: below))
    (wrapped : line.wrapped = true) (empty : front maxLineCharWidth line below given = []) :
    Fails line below r := by
  have start : given = 0 := by
    by_contra some_
    have unwrapped := ((front_empty (earlier (Nat.pos_of_ne_zero some_))).mp empty).1
    simp [wrapped] at unwrapped
  obtain ⟨first, rest, lines, characters⟩ := popped.head
  refine .inr ⟨wrapped, ?_, Nat.le_of_eq (popped.tail_endings ?_).symm⟩
  · rw [lines, nextSize, TextLine.size, characters, empty, List.length_nil]
  · rw [start]
    exact not_reports_zero _

def PopFails (maxLineCharWidth : Nat) (line : TextLine) (below : List TextLine)
    (remove : List TextLine → List TextLine × Option Nat) : Prop :=
  ∀ given current, Sound maxLineCharWidth current →
    Given maxLineCharWidth given (line :: below) current →
    ¬ Reports maxLineCharWidth given (line :: below) →
    (0 < given → Gives maxLineCharWidth given (line :: below)) →
    ¬ Gives maxLineCharWidth (given + 1) (line :: below) →
    front maxLineCharWidth line below given ≠ [] → Fails line below (remove current)

theorem pull_stuck {line : TextLine} {below : List TextLine}
    {remove : List TextLine → List TextLine × Option Nat}
    (flows : ∀ lines, Flows (endings lines) (remove lines))
    (pops : Pops maxLineCharWidth line below remove)
    (popFails : PopFails maxLineCharWidth line below remove) (fuel given : Nat) (top : TextLine)
    (r : List TextLine × Option Nat) (moved : Bool) (fits : Fits maxLineCharWidth top)
    (popped : Popped maxLineCharWidth given line below r)
    (enough : wanted maxLineCharWidth top given (line :: below) ≤ fuel)
    (earlier : 0 < given → Gives maxLineCharWidth given (line :: below))
    (stuck : ¬ Gives maxLineCharWidth
      (given + wanted maxLineCharWidth top given (line :: below)) (line :: below)) :
    let r' := pull maxLineCharWidth remove fuel top r.1 r.2 moved
    Fails line below (r'.2.1, r'.2.2.1) := by
  have wrapped := gives_wrapped stuck
  induction fuel generalizing given top r moved with
  | zero =>
    rw [Nat.le_zero.mp enough, Nat.add_zero] at stuck
    refine pull_fails flows 0 top r moved (popped.fails_empty earlier wrapped ?_)
    by_contra some_
    exact stuck (gives_of_front earlier some_)
  | succ fuel ih =>
    cases front_ : front maxLineCharWidth line below given with
    | nil => exact pull_fails flows _ top r moved (popped.fails_empty earlier wrapped front_)
    | cons ch chs =>
      have some_ : front maxLineCharWidth line below given ≠ [] := by simp [front_]
      have gives := gives_of_front earlier some_
      obtain ⟨first, rest, lines, characters⟩ := popped.head
      obtain ⟨more, here, -⟩ := front_paragraph gives
      rw [front_] at here
      have count := wanted_cons maxLineCharWidth fits.1 here
      have narrow : top.width + ch.chWidth < maxLineCharWidth := by
        by_contra wide
        rw [if_neg wide] at count
        rw [count] at stuck
        exact stuck gives
      rw [if_pos narrow] at count
      have fits' : Fits maxLineCharWidth (top.push ch) :=
        ⟨exact_push fits.1 ch, Nat.le_of_lt narrow⟩
      rw [lines, pull, characters, front_]
      simp only [if_pos narrow]
      rw [← lines]
      by_cases quiet : Reports maxLineCharWidth given (line :: below)
      · obtain ⟨deleted, which⟩ := Option.isSome_iff_exists.mp (popped.reports quiet)
        have spoiled := (popped.flows.reports deleted which).1
        have next := flows r.1
        refine .inl (pull_spoils flows fuel _ _ _ true ?_)
        exact Nat.lt_of_lt_of_le spoiled next.settled_ge
      · obtain ⟨-, left⟩ := popped.left quiet
        by_cases next : Gives maxLineCharWidth (given + 1) (line :: below)
        · refine ih (given + 1) (top.push ch) (remove r.1) true fits'
            (pops given r.1 popped.sound left quiet next some_) (by omega) (fun _ => next) ?_
          rwa [Nat.add_assoc, Nat.add_comm 1, ← count]
        · exact pull_fails flows fuel _ _ true
            (popFails given r.1 popped.sound left quiet earlier next some_)

theorem gives_used {line : TextLine} {below : List TextLine} {given : Nat}
    (wrapped : line.wrapped = true) (gives : Gives maxLineCharWidth given (line :: below))
    (quiet : ¬ Reports maxLineCharWidth given (line :: below))
    (stuck : ¬ Gives maxLineCharWidth (given + 1) (line :: below))
    (lower : Gives maxLineCharWidth (pulls maxLineCharWidth line below (given + 1)) below) :
    line.size + pulls maxLineCharWidth line below (given + 1) ≤ given + 1 := by
  by_contra left
  refine stuck fun _ => ⟨fun n small => ?_, fun _ => lower, fun more empties => ?_⟩
  · rcases Nat.lt_or_ge n (given + 1) with early | late
    · exact (gives wrapped).1 n (by omega)
    · rw [Nat.le_antisymm small late]
      exact Nat.lt_of_not_le left
  · refine quiet ⟨wrapped, ?_⟩
    rw [Empties, if_pos wrapped]
    exact ⟨by omega, empties⟩

theorem wrapremovech_popFails (depth : Nat) (line : TextLine) (below : List TextLine)
    (enough : below.length < depth) :
    PopFails maxLineCharWidth line below (wrapremovech maxLineCharWidth depth 0) := by
  induction depth generalizing line below with
  | zero => omega
  | succ depth ih =>
    intro given current sound left quiet earlier stuck some_
    have wrapped := gives_wrapped stuck
    have gives := gives_of_front earlier some_
    have kept := (wrapremovech_flows maxLineCharWidth (depth + 1) 0 current).2
    have same : endings current.tail = endings below := by
      refine flags_endings ?_
      rw [List.map_tail, left.flags]
      rfl
    rw [same] at kept
    obtain ⟨first, rest, next, below, rfl, rfl, opened⟩ :=
      left.opened wrapped sound quiet earlier some_
    rw [List.length_cons] at enough
    have flows := fun lines => (wrapremovech_flows maxLineCharWidth depth 0 lines).1
    have pops := wrapremovech_pops maxLineCharWidth depth next below (by omega)
    have top_wrapped := opened.wrapped
    rw [remove_wrapped] at top_wrapped
    rw [wrapremovech_wrapped top_wrapped opened.more] at kept ⊢
    by_cases lower : Gives maxLineCharWidth
        (pulls maxLineCharWidth line (next :: below) (given + 1)) (next :: below)
    · have filled := pull_filled pops (totalCharacters rest) _ _ (rest, none) false opened.fits
        opened.popped opened.enough (by rw [← opened.step]; exact lower)
      rw [← fillUp] at filled
      generalize fillUp maxLineCharWidth depth (first.remove 0 1) rest = filled_ at filled kept ⊢
      have used := gives_used wrapped gives quiet stuck lower
      have empty : filled_.1.size = 0 := by
        rw [(opened.filled filled).2]
        omega
      refine .inr ⟨wrapped, ?_, kept⟩
      unfold closed
      split <;> exact empty
    · have earlier' := Gives.below earlier wrapped
      have fails := pull_stuck flows pops (ih next below (by omega)) (totalCharacters rest) _ _
        (rest, none) false opened.fits opened.popped opened.enough earlier'
        (by rw [← opened.step]; exact lower)
      rw [← fillUp] at fails
      have same := (fillUp_wrapped maxLineCharWidth depth (first.remove 0 1) rest).trans opened.wrapped
      exact .inl (closed_spoils wrapped (same.trans wrapped.symm) (takeOne_fails flows fails))

/-- What `wrapremovech` leaves at the caret: the text behind the first line goes on without
    its first `taken` symbols. -/
structure Taken (taken : Nat) (top : TextLine) (lines : List TextLine)
    (r : List TextLine × Option Nat) : Prop where
  text : layout.text (settled r) = symbols top.characters ++ (layout.text lines).drop taken
  first : ∃ first rest, settled r = first :: rest ∧ top.characters <+: first.characters
  reports : nextSize lines = 0 → r.2.isSome

theorem Left.taken {top filled : TextLine} {lines : List TextLine} {given taken : Nat}
    {r : List TextLine × Option Nat} (left : Left maxLineCharWidth given filled lines r)
    (characters : filled.characters ++ (paragraph lines).drop given =
      top.characters ++ (paragraph lines).drop taken)
    (starts : top.characters <+: filled.characters) (few : given ≤ (paragraph lines).length)
    (few' : taken ≤ (paragraph lines).length) {base : Nat} (flows : Flows base r)
    (gives : Gives maxLineCharWidth given lines) (more : lines ≠ []) :
    Taken taken top lines r := by
  refine ⟨?_, ?_, ?_⟩
  · obtain ⟨tail, text⟩ := text_paragraph lines
    have length (n : Nat) (le : n ≤ (paragraph lines).length) :
        n ≤ (symbols (paragraph lines)).length := by
      rwa [Layout.symbols_length]
    rw [left.text, text, List.drop_append_of_le_length (length given few),
      List.drop_append_of_le_length (length taken few'), ← symbols_drop, ← symbols_drop,
      ← List.append_assoc, ← List.append_assoc, ← Layout.symbols_append, ← Layout.symbols_append,
      characters]
  · obtain ⟨first, rest, lines, same⟩ := left.first
    obtain ⟨rest', settled_⟩ := flows.settled_first lines
    exact ⟨first, rest', settled_, same ▸ starts⟩
  · intro empty
    obtain ⟨next, below, rfl⟩ := List.exists_cons_of_ne_nil more
    have zero : next.size = 0 := empty
    refine left.reports ?_
    have unwrapped : ¬ next.wrapped = true := by
      intro wrapped
      have some_ := (gives wrapped).1 0 (Nat.zero_le _)
      rw [zero] at some_
      exact Nat.lt_irrefl _ some_
    rw [Empties, if_neg unwrapped, zero]
    exact Nat.zero_le _

theorem fillUp_none {top next : TextLine} {below : List TextLine} (exact_ : Exact top)
    (none_ : wanted maxLineCharWidth top 0 (next :: below) = 0) (depth : Nat) :
    fillUp maxLineCharWidth depth top (next :: below) = (top, next :: below, none, false) := by
  unfold fillUp
  cases totalCharacters (next :: below) with
  | zero =>
    rw [pull]
    simp
  | succ fuel =>
    rw [pull]
    cases first : next.characters with
    | nil => rfl
    | cons ch chs =>
      have here : (paragraph (next :: below)).drop 0 =
          ch :: (chs ++ if next.wrapped then paragraph below else []) := by
        rw [List.drop_zero, paragraph, first, List.cons_append]
      have count := wanted_cons maxLineCharWidth exact_ here
      have wide : ¬ top.width + ch.chWidth < maxLineCharWidth := by
        intro narrow
        rw [none_, if_pos narrow] at count
        cases count
      simp only [if_neg wide]

/-- What the lines below have to be, and what is left of them, where the line at the caret
    has been filled up and closed. -/
structure Closes (maxLineCharWidth x : Nat) (line top next : TextLine) (below : List TextLine)
    (r : List TextLine × Option Nat) : Prop where
  refills : Refills maxLineCharWidth x top (next :: below) → Taken 0 top (next :: below) r
  takesOne : TakesOne maxLineCharWidth x top (next :: below) → Taken 1 top (next :: below) r
  spoils : ¬ Refills maxLineCharWidth x top (next :: below) →
    ¬ TakesOne maxLineCharWidth x top (next :: below) → Spoils (line :: next :: below) r

variable {line top next : TextLine} {below : List TextLine} {depth x : Nat}
  {r : List TextLine × Option Nat}

theorem closes_again (wrapped : line.wrapped = true) (same : top.wrapped = line.wrapped)
    (enough : below.length < depth) (sound : Sound maxLineCharWidth (next :: below))
    (none_ : wanted maxLineCharWidth top 0 (next :: below) = 0) (some_ : 0 < next.size)
    (end_ : x = top.size) :
    Closes maxLineCharWidth x line top next below
      (closed top (wrapremovech maxLineCharWidth depth 0 (next :: below))) := by
  have front_ : front maxLineCharWidth next below 0 ≠ [] := by
    obtain ⟨_, _, lines, characters⟩ := (popped_zero sound).head
    cases lines
    rw [← characters]
    exact List.ne_nil_of_length_pos some_
  have left : Given maxLineCharWidth 0 (next :: below) (next :: below) := given_zero _
  have quiet : ¬ Reports maxLineCharWidth 0 (next :: below) := not_reports_zero _
  have not_refills : ¬ Refills maxLineCharWidth x top (next :: below) :=
    fun refills => refills.2 ⟨none_, some_, end_⟩
  refine ⟨fun refills => absurd refills not_refills, ?_, fun _ stuck => ?_⟩
  · rintro ⟨-, -, -, gives⟩
    have popped := wrapremovech_pops maxLineCharWidth depth next below enough 0 _ sound left quiet
      gives front_
    have few : 1 ≤ (paragraph (next :: below)).length := by
      rw [paragraph, List.length_append]
      exact Nat.le_add_right_of_le some_
    exact (closed_left (same.trans wrapped) popped gives).taken rfl (List.prefix_refl _) few few
      (closed_flows wrapped same popped.flows).1 gives (List.cons_ne_nil _ _)
  · have stuck : ¬ Gives maxLineCharWidth 1 (next :: below) :=
      fun gives => stuck ⟨none_, some_, end_, gives⟩
    have earlier : 0 < 0 → Gives maxLineCharWidth 0 (next :: below) :=
      fun none => absurd none (Nat.lt_irrefl 0)
    have fails := wrapremovech_popFails depth next below enough 0 _ sound left quiet earlier stuck
      front_
    exact closed_spoils wrapped same fails

theorem closes_quiet (wrapped : line.wrapped = true) (same : top.wrapped = line.wrapped)
    (sound : Sound maxLineCharWidth (next :: below))
    (none_ : wanted maxLineCharWidth top 0 (next :: below) = 0)
    (quiet : ¬ (0 < next.size ∧ x = top.size)) :
    Closes maxLineCharWidth x line top next below (closed top (next :: below, none)) := by
  have start := popped_zero sound
  have not_takes : ¬ TakesOne maxLineCharWidth x top (next :: below) :=
    fun ⟨_, some_, end_, _⟩ => quiet ⟨some_, end_⟩
  refine ⟨?_, fun takes => absurd takes not_takes, fun stuck _ => ?_⟩
  · rintro ⟨gives, -⟩
    rw [none_] at gives
    exact (closed_left (same.trans wrapped) start gives).taken rfl (List.prefix_refl _)
      (Nat.zero_le _) (Nat.zero_le _) (closed_flows wrapped same start.flows).1 gives
      (List.cons_ne_nil _ _)
  · have stuck : ¬ Gives maxLineCharWidth 0 (next :: below) :=
      fun gives => stuck ⟨by rwa [none_], fun h => quiet h.2⟩
    refine closed_spoils wrapped same (start.fails_empty nofun (gives_wrapped stuck) ?_)
    by_contra some_
    exact stuck (gives_of_front nofun some_)

theorem closes_none (wrapped : line.wrapped = true) (same : top.wrapped = line.wrapped)
    (enough : below.length < depth) (sound : Sound maxLineCharWidth (next :: below))
    (exact_ : Exact top) (none_ : wanted maxLineCharWidth top 0 (next :: below) = 0) :
    let filled := fillUp maxLineCharWidth depth top (next :: below)
    Closes maxLineCharWidth x line top next below
      (closed filled.1 (takeOne (wrapremovech maxLineCharWidth depth 0) x filled)) := by
  simp only [fillUp_none exact_ none_]
  by_cases again : 0 < next.size ∧ x = top.size
  · obtain ⟨some_, end_⟩ := again
    have taken : takeOne (wrapremovech maxLineCharWidth depth 0) x
        (top, next :: below, none, false) =
          wrapremovech maxLineCharWidth depth 0 (next :: below) := if_pos ⟨rfl, some_, end_⟩
    rw [taken]
    exact closes_again wrapped same enough sound none_ some_ end_
  · have taken : takeOne (wrapremovech maxLineCharWidth depth 0) x
        (top, next :: below, none, false) = (next :: below, none) := if_neg fun h => again h.2
    rw [taken]
    exact closes_quiet wrapped same sound none_ again

theorem closes_some (wrapped : line.wrapped = true) (same : top.wrapped = line.wrapped)
    (enough : below.length < depth) (sound : Sound maxLineCharWidth (next :: below))
    (fits : Fits maxLineCharWidth top)
    (some_ : wanted maxLineCharWidth top 0 (next :: below) ≠ 0) :
    let filled := fillUp maxLineCharWidth depth top (next :: below)
    Closes maxLineCharWidth x line top next below
      (closed filled.1 (takeOne (wrapremovech maxLineCharWidth depth 0) x filled)) := by
  intro filled
  have start := popped_zero sound
  have pops := wrapremovech_pops maxLineCharWidth depth next below enough
  have flows := fun lines => (wrapremovech_flows maxLineCharWidth depth 0 lines).1
  have few : wanted maxLineCharWidth top 0 (next :: below) ≤ totalCharacters (next :: below) :=
    wanted_le (given_zero _) nofun
  have not_takes : ¬ TakesOne maxLineCharWidth x top (next :: below) := fun takes => some_ takes.1
  refine ⟨?_, fun takes => absurd takes not_takes, fun stuck _ => ?_⟩
  · rintro ⟨gives, -⟩
    have done := pull_filled pops _ 0 top (next :: below, none) false fits start few
      (by rwa [Nat.zero_add])
    change Filled _ _ _ _ _ _ filled at done
    have moved : filled.2.2.2 = true := by
      rw [done.moved]
      simpa using Nat.pos_of_ne_zero some_
    have taken : takeOne (wrapremovech maxLineCharWidth depth 0) x filled =
        (filled.2.1, filled.2.2.1) := if_neg fun again => by simp [moved] at again
    have characters := done.characters
    have popped := done.popped
    rw [Nat.zero_add] at popped
    rw [List.drop_zero] at characters
    have top_wrapped := done.wrapped.trans same
    rw [taken]
    refine (closed_left (top_wrapped.trans wrapped) popped gives).taken ?_ ?_ ?_ (Nat.zero_le _)
      (closed_flows wrapped top_wrapped popped.flows).1 gives (List.cons_ne_nil _ _)
    · rw [characters, List.append_assoc, List.take_append_drop, List.drop_zero]
    · rw [characters]
      exact List.prefix_append _ _
    · rw [wanted, List.drop_zero]
      exact room_le maxLineCharWidth _ _
  · have stuck : ¬ Gives maxLineCharWidth (0 + wanted maxLineCharWidth top 0 (next :: below))
        (next :: below) := by
      rw [Nat.zero_add]
      exact fun gives => stuck ⟨gives, fun h => some_ h.1⟩
    have fails := pull_stuck flows pops (wrapremovech_popFails depth next below enough) _ 0 top
      (next :: below, none) false fits start few
      nofun stuck
    exact closed_spoils wrapped ((fillUp_wrapped maxLineCharWidth depth top (next :: below)).trans
      same) (takeOne_fails flows fails)

theorem wrapremovech_closes (wrapped : line.wrapped = true) (enough : below.length + 1 < depth)
    (sound : Sound maxLineCharWidth (line :: next :: below)) :
    Closes maxLineCharWidth x line (line.remove x (x + 1)) next below
      (wrapremovech maxLineCharWidth depth x (line :: next :: below)) := by
  obtain ⟨depth, rfl⟩ := Nat.exists_eq_succ_of_ne_zero (show depth ≠ 0 by omega)
  have fits := remove_fits (sound.fits line (by simp)) (Nat.le_succ x)
  have same := remove_wrapped line x (x + 1)
  rw [wrapremovech_wrapped wrapped (List.cons_ne_nil next below)]
  by_cases none_ : wanted maxLineCharWidth (line.remove x (x + 1)) 0 (next :: below) = 0
  · exact closes_none wrapped same (by omega) sound.tail fits.1 none_
  · exact closes_some wrapped same (by omega) sound.tail fits none_

theorem Spoils.newlines (spoils : Spoils (line :: next :: below) r) (wrapped : line.wrapped = true)
    (ends : layout.Ends (next :: below)) :
    (layout.text (next :: below)).count .newline < (layout.text (settled r)).count .newline := by
  have before := text_newlines (List.cons_ne_nil next below) ends
  have after := text_newlines_ge (settled r)
  unfold Spoils at spoils
  rw [endings_wrapped _ wrapped] at spoils
  omega

theorem TakesOne.text_some (takes : TakesOne maxLineCharWidth x top (next :: below)) :
    layout.text (next :: below) ≠ [] := by
  intro none_
  have length := congrArg List.length none_
  have some_ : 0 < next.size := takes.2.1
  rw [layout.text_line, List.length_append, Layout.symbols_length, List.length_nil] at length
  have size : (layout.chars next).length = next.size := rfl
  omega

theorem Closes.keeps_iff (closes : Closes maxLineCharWidth x line top next below r)
    (wrapped : line.wrapped = true) (ends : layout.Ends (next :: below)) :
    layout.text (settled r) = symbols top.characters ++ layout.text (next :: below) ↔
      Refills maxLineCharWidth x top (next :: below) := by
  constructor
  · intro same
    by_contra stuck
    by_cases takes : TakesOne maxLineCharWidth x top (next :: below)
    · have text := (closes.takesOne takes).text
      rw [same] at text
      have length := congrArg List.length (List.append_cancel_left text)
      have some_ := List.length_pos_iff.mpr takes.text_some
      rw [List.length_drop] at length
      omega
    · have more := (closes.spoils stuck takes).newlines wrapped ends
      rw [same, List.count_append, symbols_newlines, Nat.zero_add] at more
      exact Nat.lt_irrefl _ more
  · exact fun refills => (closes.refills refills).text

theorem Closes.takes_iff (closes : Closes maxLineCharWidth x line top next below r)
    (wrapped : line.wrapped = true) (ends : layout.Ends (next :: below)) :
    layout.text (settled r) = symbols top.characters ++ (layout.text (next :: below)).drop 1 ↔
      TakesOne maxLineCharWidth x top (next :: below) ∨
        Refills maxLineCharWidth x top (next :: below) ∧ layout.text (next :: below) = [] := by
  constructor
  · intro same
    by_cases takes : TakesOne maxLineCharWidth x top (next :: below)
    · exact .inl takes
    · by_cases refills : Refills maxLineCharWidth x top (next :: below)
      · refine .inr ⟨refills, List.length_eq_zero_iff.mp ?_⟩
        have text := (closes.refills refills).text
        rw [same] at text
        have length := congrArg List.length (List.append_cancel_left text)
        rw [List.length_drop, List.drop_zero] at length
        omega
      · have more := (closes.spoils refills takes).newlines wrapped ends
        have less := (List.drop_sublist 1 (layout.text (next :: below))).count_le .newline
        rw [same, List.count_append, symbols_newlines, Nat.zero_add] at more
        omega
  · rintro (takes | ⟨refills, none_⟩)
    · exact (closes.takesOne takes).text
    · have text := (closes.refills refills).text
      rw [none_] at text ⊢
      exact text

end StyledText
