import UpanLibs.TextArea.Fixed.FixedLinesShape

/-!
`wrapremovech` on wrapped lines of any sizes. However a paragraph was divided, a removal leaves
its lines filled one after the other, with the empty ones behind; but only the last one of the
lines that it emptied is reported, and not if more characters were pulled after that.
-/
namespace FixedText

open TextInput

variable {maxLineChars : Nat}

def paragraph : List FixedTextLine → List FixedCharacter
  | [] => []
  | line :: below => line.chars ++ if line.wrapped then paragraph below else []

def paragraphLines : List FixedTextLine → Nat
  | [] => 0
  | line :: below => if line.wrapped then paragraphLines below + 1 else 1

/-- The characters in `above` lines, one filled after the other, and a last line. -/
def packed (maxLineChars : Nat) : Nat → Bool → List FixedCharacter → List FixedTextLine
  | 0, wrapped, chars => [⟨chars, wrapped⟩]
  | above + 1, wrapped, chars =>
      ⟨chars.take maxLineChars, decide (maxLineChars < chars.length)⟩ ::
        packed maxLineChars above wrapped (chars.drop maxLineChars)

section Packed

variable {n : Nat} {w : Bool} {chars : List FixedCharacter} {rest : List FixedTextLine}

theorem packed_more : packed maxLineChars n w chars ++ rest ≠ [] := by
  cases n with
  | zero => exact List.cons_ne_nil _ _
  | succ n => exact List.cons_ne_nil _ _

theorem packed_length : (packed maxLineChars n w chars).length = n + 1 := by
  induction n generalizing chars with
  | zero => rfl
  | succ n ih => rw [packed, List.length_cons, ih]

theorem packed_nextSize (room : chars ≠ [] → 0 < maxLineChars) :
    nextSize (packed maxLineChars n w chars ++ rest) = 0 ↔ chars = [] := by
  cases n with
  | zero => exact List.length_eq_zero_iff
  | succ n =>
    simp only [packed, List.cons_append, nextSize, FixedTextLine.size, List.length_take,
      Nat.min_eq_zero_iff, List.length_eq_zero_iff]
    constructor
    · rintro (narrow | none)
      · by_contra some_
        exact Nat.ne_of_gt (room some_) narrow
      · exact none
    · exact .inr

/-- The characters end before a last line that is wrapped. -/
def Fits (maxLineChars n : Nat) (w : Bool) (count : Nat) : Prop :=
  count ≤ (n + 1) * maxLineChars ∧ (w = true → count ≤ n * maxLineChars)

theorem Fits.drop {count : Nat} (fits : Fits maxLineChars (n + 1) w count) :
    Fits maxLineChars n w (count - maxLineChars) := by
  obtain ⟨most, before⟩ := fits
  rw [Nat.succ_mul] at most before
  exact ⟨by omega, fun wrapped => by have := before wrapped; omega⟩

theorem Fits.mono {count less : Nat} (fits : Fits maxLineChars n w count) (le : less ≤ count) :
    Fits maxLineChars n w less :=
  ⟨Nat.le_trans le fits.1, fun wrapped => Nat.le_trans le (fits.2 wrapped)⟩

theorem Fits.room {count : Nat} (fits : Fits maxLineChars n w count) (some_ : 0 < count) :
    0 < maxLineChars := by
  by_contra narrow
  have none : maxLineChars = 0 := Nat.eq_zero_of_not_pos narrow
  have most := fits.1
  rw [none, Nat.mul_zero] at most
  omega

theorem paragraph_packed (rest : List FixedTextLine) (fits : Fits maxLineChars n w chars.length) :
    paragraph (packed maxLineChars n w chars ++ rest) =
      chars ++ if n = 0 ∧ w = true then paragraph rest else [] := by
  induction n generalizing chars with
  | zero => simp [packed, paragraph]
  | succ n ih =>
    rw [packed, List.cons_append, paragraph]
    simp only [decide_eq_true_eq]
    by_cases more : maxLineChars < chars.length
    · have later := fits.drop
      rw [← List.length_drop] at later
      have notLast : ¬ (n = 0 ∧ w = true) := by
        rintro ⟨rfl, wrapped⟩
        have most := later.2 wrapped
        rw [List.length_drop] at most
        omega
      rw [if_pos more, ih later, if_neg notLast, if_neg (by simp), List.append_nil,
        List.append_nil, List.take_append_drop]
    · rw [if_neg more, List.take_of_length_le (Nat.not_lt.mp more), if_neg (by simp)]

end Packed

def emptied (maxLineChars count : Nat) : Option Nat :=
  if 0 < count ∧ maxLineChars ∣ count then some (count / maxLineChars) else none

theorem wrapremovech_unwrapped (depth x : Nat) (line : FixedTextLine) (below : List FixedTextLine)
    (unwrapped : line.wrapped = false) :
    wrapremovech maxLineChars (depth + 1) x (line :: below) =
      (line.remove x (x + 1) :: below, none) := by
  rw [wrapremovech]
  simp only [remove_wrapped, unwrapped, true_or, if_true]

theorem wrapremovech_pulled (depth x : Nat) {line line' : FixedTextLine}
    {chars : List FixedCharacter} {below below' : List FixedTextLine} {deleted : Option Nat}
    {moved : Bool} (more : below ≠ [])
    (removed : line.remove x (x + 1) = ⟨chars, true⟩)
    (pulled : pull (wrapremovech maxLineChars depth 0) (maxLineChars - chars.length) ⟨chars, true⟩
      below none false = (line', below', deleted, moved))
    (done : moved = true ∨ nextSize below' = 0 ∨ x ≠ line'.size) :
    wrapremovech maxLineChars (depth + 1) x (line :: below) = unlink line' below' deleted := by
  have again : ¬ (moved = false ∧ 0 < nextSize below' ∧ x = line'.size) := by
    rintro ⟨none, some_, same⟩
    rcases done with here | empty | other
    · rw [none] at here
      cases here
    · omega
    · exact other same
  have size : maxLineChars - FixedTextLine.size ⟨chars, true⟩ = maxLineChars - chars.length := rfl
  rw [wrapremovech]
  simp only [removed, size, pulled]
  rw [if_neg (by simp [more]), if_neg again]
  rfl

/-- What `pull` needs of the function that removes the first character of packed lines. -/
def RemovesFirst (maxLineChars n : Nat) (w : Bool) (rest : List FixedTextLine)
    (remove : List FixedTextLine → List FixedTextLine × Option Nat) : Prop :=
  ∀ chars, chars ≠ [] → Fits maxLineChars n w chars.length →
    remove (packed maxLineChars n w chars ++ rest) =
      (packed maxLineChars n w chars.tail ++ rest, emptied maxLineChars (chars.length - 1))

theorem pull_step {remove : List FixedTextLine → List FixedTextLine × Option Nat} {k : Nat}
    {line : FixedTextLine} {ch : FixedCharacter} {chars : List FixedCharacter}
    {below : List FixedTextLine} {deleted : Option Nat} {moved : Bool}
    (first : ∃ wrapped rest, below = ⟨ch :: chars, wrapped⟩ :: rest) :
    pull remove (k + 1) line below deleted moved =
      pull remove k (line.push ch) (remove below).1 (remove below).2 true := by
  obtain ⟨wrapped, rest, rfl⟩ := first
  rw [pull]

theorem packed_first (n : Nat) (w : Bool) (ch : FixedCharacter) (chars : List FixedCharacter)
    (rest : List FixedTextLine) (room : 0 < maxLineChars) :
    ∃ taken wrapped below, packed maxLineChars n w (ch :: chars) ++ rest =
      ⟨ch :: taken, wrapped⟩ :: below := by
  obtain ⟨k, rfl⟩ := Nat.exists_eq_succ_of_ne_zero (Nat.ne_of_gt room)
  cases n with
  | zero => exact ⟨_, _, _, rfl⟩
  | succ n => exact ⟨_, _, _, rfl⟩

theorem pull_nothing {remove : List FixedTextLine → List FixedTextLine × Option Nat} (k : Nat)
    {line : FixedTextLine} {below : List FixedTextLine} {deleted : Option Nat} {moved : Bool}
    (empty : nextSize below = 0) :
    pull remove k line below deleted moved = (line, below, deleted, moved) := by
  cases k with
  | zero => rfl
  | succ k =>
    cases below with
    | nil => rfl
    | cons next below =>
      obtain ⟨chars, wrapped⟩ := next
      obtain rfl : chars = [] := List.length_eq_zero_iff.mp empty
      rfl

theorem pull_packed {remove : List FixedTextLine → List FixedTextLine × Option Nat} {n : Nat}
    {w : Bool} {rest : List FixedTextLine} (removes : RemovesFirst maxLineChars n w rest remove)
    (k : Nat) (line : FixedTextLine) (chars : List FixedCharacter) (deleted : Option Nat)
    (moved : Bool) (fits : Fits maxLineChars n w chars.length) :
    pull remove k line (packed maxLineChars n w chars ++ rest) deleted moved =
      ({ line with chars := line.chars ++ chars.take k },
        packed maxLineChars n w (chars.drop k) ++ rest,
        if k = 0 ∨ chars = [] then deleted else emptied maxLineChars (chars.length - k),
        moved || decide (k ≠ 0 ∧ chars ≠ [])) := by
  induction k generalizing line chars deleted moved with
  | zero => simp [pull]
  | succ k ih =>
    cases chars with
    | nil =>
      rw [pull_nothing _ ((packed_nextSize fun some_ => absurd rfl some_).mpr rfl)]
      simp
    | cons ch chars =>
      obtain ⟨taken, wrapped, below, first⟩ :=
        packed_first n w ch chars rest (fits.room (Nat.succ_pos _))
      rw [pull_step ⟨wrapped, below, first⟩, removes _ (List.cons_ne_nil _ _) fits]
      simp only [List.tail_cons, List.length_cons, Nat.add_sub_cancel]
      rw [ih _ _ _ _ (fits.mono (Nat.le_succ _))]
      simp only [FixedTextLine.push, List.append_assoc, List.singleton_append,
        List.take_succ_cons, List.drop_succ_cons]
      have report : (if k = 0 ∨ chars = [] then emptied maxLineChars chars.length
          else emptied maxLineChars (chars.length - k)) =
          emptied maxLineChars (chars.length + 1 - (k + 1)) := by
        rw [Nat.add_sub_add_right]
        split
        next none =>
          rcases none with rfl | rfl
          · rfl
          · simp
        next => rfl
      simp [report]

theorem unlink_packed (n : Nat) {k : Nat} (w : Bool) {chars : List FixedCharacter}
    (text : List FixedCharacter) (rest : List FixedTextLine) (deleted : Option Nat)
    (full : chars.length + k = maxLineChars)
    (room : text.drop k ≠ [] → 0 < maxLineChars) :
    unlink ⟨chars ++ text.take k, true⟩ (packed maxLineChars n w (text.drop k) ++ rest) deleted =
      (packed maxLineChars (n + 1) w (chars ++ text) ++ rest,
        if text.length ≤ k then some 1 else deleted.map (· + 1)) := by
  have kept : (chars ++ text).take maxLineChars = chars ++ text.take k := by
    rw [List.take_append, List.take_of_length_le (by omega)]
    congr 2
    omega
  have later : (chars ++ text).drop maxLineChars = text.drop k := by
    rw [List.drop_append, List.drop_of_length_le (by omega), List.nil_append]
    congr 1
    omega
  have exceeds : maxLineChars < (chars ++ text).length ↔ ¬ text.length ≤ k := by
    rw [List.length_append]
    omega
  rw [unlink, packed, kept, later]
  by_cases few : text.length ≤ k
  · rw [if_pos ((packed_nextSize room).mpr (List.drop_eq_nil_of_le few)), if_pos few,
      decide_eq_false fun more => exceeds.mp more few]
    rfl
  · rw [if_neg (fun none => few (List.drop_eq_nil_iff.mp ((packed_nextSize room).mp none))),
      if_neg few, decide_eq_true (exceeds.mpr few)]
    rfl

theorem emptied_small {count : Nat} (small : count < maxLineChars) :
    emptied maxLineChars count = none := by
  refine if_neg ?_
  rintro ⟨some_, divides⟩
  exact Nat.not_le_of_gt small (Nat.le_of_dvd some_ divides)

theorem emptied_add {count : Nat} (room : 0 < maxLineChars) (some_ : 0 < count) :
    emptied maxLineChars (maxLineChars + count) = (emptied maxLineChars count).map (· + 1) := by
  have divides : maxLineChars ∣ maxLineChars + count ↔ maxLineChars ∣ count :=
    Nat.dvd_add_right (Nat.dvd_refl _)
  unfold emptied
  rw [Nat.add_div_left _ room]
  by_cases whole : maxLineChars ∣ count
  · rw [if_pos ⟨Nat.add_pos_left room count, divides.mpr whole⟩, if_pos ⟨some_, whole⟩]
    rfl
  · rw [if_neg fun both => whole (divides.mp both.2), if_neg fun both => whole both.2]
    rfl

theorem remove_head (ch : FixedCharacter) (chars : List FixedCharacter) (wrapped : Bool) :
    FixedTextLine.remove ⟨ch :: chars, wrapped⟩ 0 (0 + 1) = ⟨chars, wrapped⟩ :=
  remove_first ch chars wrapped

theorem packed_removes {n : Nat} {w : Bool} {rest : List FixedTextLine} {depth : Nat}
    (enough : n + rest.length < depth) :
    RemovesFirst maxLineChars n w rest (wrapremovech maxLineChars depth 0) := by
  induction n generalizing depth with
  | zero =>
    intro chars some_ fits
    obtain ⟨depth, rfl⟩ := Nat.exists_eq_add_one_of_ne_zero (Nat.ne_zero_of_lt enough)
    obtain ⟨ch, chars, rfl⟩ := List.exists_cons_of_ne_nil some_
    obtain ⟨most, before⟩ := fits
    rw [List.length_cons] at most before
    obtain rfl : w = false := by
      cases w with
      | false => rfl
      | true => exact absurd (before rfl) (by omega)
    rw [packed, List.singleton_append, wrapremovech_unwrapped _ _ _ _ rfl, remove_head, packed,
      List.length_cons, Nat.add_sub_cancel, emptied_small (by omega)]
    rfl
  | succ n ih =>
    intro chars some_ fits
    obtain ⟨depth, rfl⟩ := Nat.exists_eq_add_one_of_ne_zero (Nat.ne_zero_of_lt enough)
    have room := fits.room (List.length_pos_iff.mpr some_)
    obtain ⟨ch, chars, rfl⟩ := List.exists_cons_of_ne_nil some_
    obtain ⟨width, rfl⟩ := Nat.exists_eq_add_one_of_ne_zero (Nat.ne_of_gt room)
    rw [packed, List.cons_append, List.tail_cons, List.length_cons, Nat.add_sub_cancel,
      List.take_succ_cons, List.drop_succ_cons]
    by_cases more : width + 1 < chars.length + 1
    · have removes : RemovesFirst (width + 1) n w rest (wrapremovech (width + 1) depth 0) :=
        ih (by omega)
      have later := fits.drop
      rw [List.length_cons, Nat.add_sub_add_right, ← List.length_drop] at later
      have size : (chars.take width).length = width := by
        rw [List.length_take]
        omega
      have one : width + 1 - (chars.take width).length = 1 := by omega
      have moved : chars.drop width ≠ [] := by
        intro none
        rw [List.drop_eq_nil_iff] at none
        omega
      have pulled := pull_packed removes (width + 1 - (chars.take width).length)
        ⟨chars.take width, true⟩ (chars.drop width) none false later
      have run := wrapremovech_pulled depth 0 packed_more (remove_head ch _ true) pulled
        (.inl (by rw [one]; simp [moved]))
      simp only [one] at run
      have flag : decide (width + 1 < chars.length + 1) = true := decide_eq_true more
      rw [flag, run, unlink_packed _ _ _ _ _ (by omega) fun _ => room, List.take_append_drop]
      simp only [Nat.one_ne_zero, moved, or_self, if_false, List.length_drop]
      congr 1
      by_cases last : chars.length - width ≤ 1
      · have same : chars.length = width + 1 := by omega
        rw [if_pos last, same, emptied, if_pos ⟨room, Nat.dvd_refl _⟩, Nat.div_self room]
      · rw [if_neg last, ← emptied_add room (by omega)]
        congr 1
        omega
    · have flag : decide (width + 1 < chars.length + 1) = false := decide_eq_false more
      rw [flag, wrapremovech_unwrapped _ _ _ _ rfl, remove_head, packed,
        List.take_of_length_le (by omega), List.take_of_length_le (by omega),
        List.drop_eq_nil_of_le (by omega), List.drop_eq_nil_of_le (by omega),
        emptied_small (by omega), decide_eq_false (by omega)]
      rfl

/-- Wrapped lines with characters, and the line that ends them: it is not wrapped, or a
    removal does not get beyond it. -/
structure Chain (maxLineChars : Nat) (front : List FixedTextLine) (last : FixedTextLine) :
    Prop where
  inner : ∀ line ∈ front, line.wrapped = true ∧ line.chars ≠ []
  ends : last.wrapped = false ∨ last.chars = []
  sizes : ∀ line ∈ front ++ [last], line.size ≤ maxLineChars

def chainText (front : List FixedTextLine) (last : FixedTextLine) : List FixedCharacter :=
  front.flatMap FixedTextLine.chars ++ last.chars

section Chains

variable {front rest : List FixedTextLine} {line last : FixedTextLine} {depth x : Nat}
  {chars : List FixedCharacter}

theorem chainText_cons : chainText (line :: front) last = line.chars ++ chainText front last := by
  simp [chainText]

theorem chain_tail (chain : Chain maxLineChars (line :: front) last) :
    Chain maxLineChars front last where
  inner := (List.forall_mem_cons.mp chain.inner).2
  ends := chain.ends
  sizes := (List.forall_mem_cons.mp chain.sizes).2

theorem chain_fits (chain : Chain maxLineChars front last) :
    Fits maxLineChars front.length last.wrapped (chainText front last).length := by
  induction front with
  | nil =>
    have size : last.chars.length ≤ maxLineChars := chain.sizes last (by simp)
    refine ⟨by simpa [chainText] using size, fun wrapped => ?_⟩
    rcases chain.ends with unwrapped | none
    · rw [wrapped] at unwrapped
      cases unwrapped
    · simp [chainText, none]
  | cons line front ih =>
    have size : line.chars.length ≤ maxLineChars := chain.sizes line (by simp)
    obtain ⟨most, before⟩ := ih (chain_tail chain)
    rw [chainText_cons, List.length_append]
    constructor
    · rw [List.length_cons, Nat.succ_mul (front.length + 1)]
      omega
    · intro wrapped
      have := before wrapped
      rw [List.length_cons, Nat.succ_mul]
      omega

theorem chain_empty (chain : Chain maxLineChars front last) (none : chainText front last = []) :
    front = [] ∧ last.chars = [] := by
  cases front with
  | nil => exact ⟨rfl, none⟩
  | cons line front =>
    rw [chainText_cons, List.append_eq_nil_iff] at none
    exact absurd none.1 (chain.inner line List.mem_cons_self).2

theorem chain_first (rest : List FixedTextLine) (chain : Chain maxLineChars front last)
    {ch : FixedCharacter} {text : List FixedCharacter} (same : chainText front last = ch :: text) :
    ∃ taken wrapped below, front ++ last :: rest = ⟨ch :: taken, wrapped⟩ :: below := by
  cases front with
  | nil =>
    obtain ⟨chars, wrapped⟩ := last
    cases (show chars = ch :: text from same)
    exact ⟨text, wrapped, rest, rfl⟩
  | cons line front =>
    obtain ⟨chars, wrapped⟩ := line
    have some_ : chars ≠ [] := (chain.inner _ List.mem_cons_self).2
    obtain ⟨first, taken, rfl⟩ := List.exists_cons_of_ne_nil some_
    rw [chainText_cons, List.cons_append] at same
    cases (List.cons.inj same).1
    exact ⟨taken, wrapped, front ++ last :: rest, rfl⟩

def Repacks (maxLineChars : Nat) (front : List FixedTextLine) (last : FixedTextLine)
    (rest : List FixedTextLine) (depth : Nat) : Prop :=
  chainText front last ≠ [] → (wrapremovech maxLineChars depth 0 (front ++ last :: rest)).1 =
    packed maxLineChars front.length last.wrapped (chainText front last).tail ++ rest

theorem pull_chain (chain : Chain maxLineChars front last)
    (enough : front.length + rest.length < depth)
    (repacks : Repacks maxLineChars front last rest depth) {k : Nat} (pulls : 0 < k)
    (some_ : chainText front last ≠ []) :
    pull (wrapremovech maxLineChars depth 0) k line (front ++ last :: rest) none false =
      ({ line with chars := line.chars ++ (chainText front last).take k },
        packed maxLineChars front.length last.wrapped ((chainText front last).drop k) ++ rest,
        if k = 1 ∨ (chainText front last).length = 1
          then (wrapremovech maxLineChars depth 0 (front ++ last :: rest)).2
          else emptied maxLineChars ((chainText front last).length - k), true) := by
  obtain ⟨k, rfl⟩ := Nat.exists_eq_add_one_of_ne_zero (Nat.ne_of_gt pulls)
  have fits := chain_fits chain
  have removed := repacks some_
  obtain ⟨ch, text, same⟩ := List.exists_cons_of_ne_nil some_
  obtain ⟨taken, wrapped, below, first⟩ := chain_first rest chain same
  rw [same] at fits removed ⊢
  rw [List.length_cons] at fits
  rw [pull_step ⟨wrapped, below, first⟩, removed, List.tail_cons,
    pull_packed (packed_removes enough) k _ text _ _ (fits.mono (Nat.le_succ _))]
  simp [FixedTextLine.push, List.length_eq_zero_iff]

/-- The report of a line above a chain of which `k` characters were pulled. -/
def levelReport (maxLineChars k count : Nat) (below : Option Nat) : Option Nat :=
  if count ≤ k then some 1
  else (if k = 1 then below else emptied maxLineChars (count - k)).map (· + 1)

theorem wrapremovech_chain (chain : Chain maxLineChars front last)
    (enough : front.length + rest.length < depth)
    (repacks : Repacks maxLineChars front last rest depth)
    (removed : line.remove x (x + 1) = ⟨chars, true⟩) (fits : chars.length ≤ maxLineChars)
    (pulls : chars.length < maxLineChars ∨ chainText front last = []) :
    wrapremovech maxLineChars (depth + 1) x (line :: (front ++ last :: rest)) =
      (packed maxLineChars (front.length + 1) last.wrapped (chars ++ chainText front last) ++ rest,
        levelReport maxLineChars (maxLineChars - chars.length) (chainText front last).length
          (wrapremovech maxLineChars depth 0 (front ++ last :: rest)).2) := by
  have whole : chars.length + (maxLineChars - chars.length) = maxLineChars := by omega
  have more : front ++ last :: rest ≠ [] := by simp
  by_cases nothing : chainText front last = []
  · obtain ⟨rfl, empty⟩ := chain_empty chain nothing
    have size : nextSize (last :: rest) = 0 := by simp [nextSize, FixedTextLine.size, empty]
    have run : wrapremovech maxLineChars (depth + 1) x (line :: ([] ++ last :: rest)) =
        unlink ⟨chars, true⟩ (last :: rest) none :=
      wrapremovech_pulled depth x more removed (pull_nothing _ size) (.inr (.inl size))
    have row : last = ⟨[], last.wrapped⟩ := by rw [← empty]
    have joined := unlink_packed 0 last.wrapped [] rest none whole (by simp)
    rw [List.take_nil, List.drop_nil, List.append_nil, packed, ← row] at joined
    rw [nothing, List.append_nil]
    exact run.trans joined
  · have short := pulls.resolve_right nothing
    have run := wrapremovech_pulled depth x more removed
      (pull_chain chain enough repacks (by omega) nothing) (.inl rfl)
    rw [run, unlink_packed _ _ _ _ _ whole fun _ => by omega]
    congr 1
    unfold levelReport
    split
    next => rfl
    next few =>
      have many : (chainText front last).length ≠ 1 := by omega
      simp only [many, or_false]

theorem chain_repacks (chain : Chain maxLineChars front last)
    (enough : front.length + rest.length < depth) :
    Repacks maxLineChars front last rest depth := by
  induction front generalizing depth with
  | nil =>
    intro some_
    obtain ⟨depth, rfl⟩ := Nat.exists_eq_add_one_of_ne_zero (Nat.ne_zero_of_lt enough)
    obtain ⟨chars, wrapped⟩ := last
    obtain ⟨ch, chars, rfl⟩ := List.exists_cons_of_ne_nil (show chars ≠ [] from some_)
    obtain rfl : wrapped = false := chain.ends.resolve_right (List.cons_ne_nil _ _)
    rw [List.nil_append, wrapremovech_unwrapped _ _ _ _ rfl, remove_head]
    rfl
  | cons line front ih =>
    intro _
    obtain ⟨depth, rfl⟩ := Nat.exists_eq_add_one_of_ne_zero (Nat.ne_zero_of_lt enough)
    rw [List.length_cons] at enough
    have below := chain_tail chain
    have within : front.length + rest.length < depth := by omega
    have size : line.chars.length ≤ maxLineChars := chain.sizes line (by simp)
    obtain ⟨chars, wrapped⟩ := line
    obtain ⟨rfl, some_⟩ := chain.inner _ List.mem_cons_self
    obtain ⟨ch, chars, rfl⟩ := List.exists_cons_of_ne_nil some_
    rw [List.length_cons] at size
    rw [List.cons_append, wrapremovech_chain below within (ih below within)
      (remove_head ch chars true) (by omega) (.inl (by omega)), chainText_cons]
    rfl

theorem wrapremovech_chain_end (chain : Chain maxLineChars front last)
    (enough : front.length + rest.length < depth) (full : chars.length = maxLineChars) :
    wrapremovech maxLineChars (depth + 1) chars.length (⟨chars, true⟩ :: (front ++ last :: rest)) =
      (packed maxLineChars (front.length + 1) last.wrapped (chars ++ (chainText front last).tail) ++
        rest, levelReport maxLineChars 1 (chainText front last).length
          (wrapremovech maxLineChars depth 0 (front ++ last :: rest)).2) := by
  by_cases nothing : chainText front last = []
  · rw [wrapremovech_chain chain enough (chain_repacks chain enough) (remove_end chars true)
      (by omega) (.inr nothing), nothing]
    rfl
  · have repacked := chain_repacks chain enough nothing
    obtain ⟨ch, text, same⟩ := List.exists_cons_of_ne_nil nothing
    obtain ⟨taken, wrapped, below, first⟩ := chain_first rest chain same
    have some_ : 0 < nextSize (front ++ last :: rest) := by
      rw [first]
      exact Nat.succ_pos _
    have room : 0 < maxLineChars := (chain_fits chain).room (by simp [same])
    have joined := unlink_packed front.length (k := 0) last.wrapped text rest
      (wrapremovech maxLineChars depth 0 (front ++ last :: rest)).2 full fun _ => room
    rw [List.take_zero, List.append_nil, List.drop_zero] at joined
    rw [wrapremovech_full depth full some_, repacked, same, List.tail_cons, joined]
    congr 1
    rw [levelReport, List.length_cons, if_pos rfl]
    exact if_congr (by omega) rfl rfl

end Chains

end FixedText
