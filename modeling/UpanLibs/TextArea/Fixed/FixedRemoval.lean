import UpanLibs.TextArea.Fixed.FixedLinesPack

/-!
What `wrapremovech(x, y)` does for every wrapped line of a list, with lines of any sizes: that
it returns, that the paragraph loses the character, that lines still joined have something to
be joined to, and that the line it reports is the only one that it emptied and unlinked.
-/
namespace FixedText

open TextInput

variable {maxLineChars : Nat}

theorem pull_length {remove : List FixedTextLine → List FixedTextLine × Option Nat}
    (keeps : ∀ below, (remove below).1.length = below.length) (k : Nat) (line : FixedTextLine)
    (below : List FixedTextLine) (deleted : Option Nat) (moved : Bool) :
    (pull remove k line below deleted moved).2.1.length = below.length := by
  induction k generalizing line below deleted moved with
  | zero => rfl
  | succ k ih =>
    rcases below with _ | ⟨⟨_ | ⟨ch, chars⟩, wrapped⟩, below⟩
    · rfl
    · rfl
    · rw [pull, ih, keeps]

theorem again_length {remove : List FixedTextLine → List FixedTextLine × Option Nat}
    (keeps : ∀ below, (remove below).1.length = below.length) (again : Prop) {_ : Decidable again}
    (below : List FixedTextLine) (deleted : Option Nat) :
    (if again then remove below else (below, deleted)).1.length = below.length := by
  split
  · exact keeps below
  · rfl

theorem unlink_length (line : FixedTextLine) (below : List FixedTextLine) (deleted : Option Nat) :
    (unlink line below deleted).1.length = below.length + 1 := by
  unfold unlink
  split <;> rfl

theorem wrapremovech_length (depth x : Nat) (lines : List FixedTextLine) :
    (wrapremovech maxLineChars depth x lines).1.length = lines.length := by
  induction depth generalizing x lines with
  | zero => rfl
  | succ depth ih =>
    cases lines with
    | nil => rfl
    | cons line below =>
      have pulled := pull_length (ih 0) (maxLineChars - (line.remove x (x + 1)).size)
        (line.remove x (x + 1)) below none false
      rw [wrapremovech]
      dsimp only
      split
      · rfl
      · refine (unlink_length _ _ _).trans (congrArg (· + 1) ?_)
        exact (again_length (ih 0) _ _ _).trans pulled

theorem pull_congr {remove remove' : List FixedTextLine → List FixedTextLine × Option Nat} {n : Nat}
    (same : ∀ below, below.length = n → remove below = remove' below)
    (keeps : ∀ below, (remove' below).1.length = below.length) (k : Nat) (line : FixedTextLine)
    (below : List FixedTextLine) (deleted : Option Nat) (moved : Bool) (length : below.length = n) :
    pull remove k line below deleted moved = pull remove' k line below deleted moved := by
  induction k generalizing line below deleted moved with
  | zero => rfl
  | succ k ih =>
    rcases below with _ | ⟨⟨_ | ⟨ch, chars⟩, wrapped⟩, below⟩
    · rfl
    · rfl
    · rw [pull, pull, same _ length]
      exact ih _ _ _ _ ((keeps _).trans length)

theorem wrapremovech_depth {n : Nat} {lines : List FixedTextLine} (length : lines.length = n)
    {depth depth' : Nat} (enough : n ≤ depth) (enough' : n ≤ depth') (x : Nat) :
    wrapremovech maxLineChars depth x lines = wrapremovech maxLineChars depth' x lines := by
  induction n generalizing lines depth depth' x with
  | zero =>
    obtain rfl := List.length_eq_zero_iff.mp length
    cases depth <;> cases depth' <;> rfl
  | succ n ih =>
    obtain ⟨depth, rfl⟩ := Nat.exists_eq_add_one_of_ne_zero (Nat.ne_zero_of_lt enough)
    obtain ⟨depth', rfl⟩ := Nat.exists_eq_add_one_of_ne_zero (Nat.ne_zero_of_lt enough')
    obtain ⟨line, below, rfl⟩ := List.exists_cons_of_length_eq_add_one length
    have short : below.length = n := Nat.succ.inj length
    have same : ∀ lines : List FixedTextLine, lines.length = n →
        wrapremovech maxLineChars depth 0 lines = wrapremovech maxLineChars depth' 0 lines :=
      fun lines length => ih length (Nat.le_of_succ_le_succ enough)
        (Nat.le_of_succ_le_succ enough') 0
    have keeps : ∀ below, (wrapremovech maxLineChars depth' 0 below).1.length = below.length :=
      wrapremovech_length depth' 0
    have pulled := pull_congr same keeps
      (maxLineChars - (line.remove x (x + 1)).size) (line.remove x (x + 1)) below none false short
    have filled := pull_length keeps (maxLineChars - (line.remove x (x + 1)).size)
      (line.remove x (x + 1)) below none false
    rw [wrapremovech, wrapremovech]
    simp only [pulled]
    rw [same _ (filled.trans short)]

/-- A report of the line `i` of packed ones: the only one behind the last with characters. -/
def Reports (maxLineChars n count : Nat) (deleted : Option Nat) : Prop :=
  ∀ i, deleted = some i ↔ 0 < i ∧ i ≤ n ∧ count ≤ i * maxLineChars

/-- The lines below a line that pulls `k` characters up come out right: the last of them is
    still needed, or each line pulls one, and the line that is left when all lines above it
    are full does. -/
def Settles (maxLineChars : Nat) : Nat → List FixedTextLine → Prop
  | _, [] => True
  | k, next :: rest => next.wrapped = true →
      paragraphLines rest * maxLineChars + k ≤ (paragraph (next :: rest)).length ∨
        k ≤ 1 ∧ 1 < (paragraph (next :: rest)).length ∧
          Settles maxLineChars (maxLineChars + 1 - next.size) rest

section Levels

variable {n k count level : Nat} {deleted : Option Nat}

def Levelled (maxLineChars k count level : Nat) : Prop :=
  count ≤ k ∧ level ≤ maxLineChars ∨ k < count ∧ level = maxLineChars + (count - k)

theorem reports_first (few : count ≤ k) (width : level ≤ maxLineChars) :
    Reports maxLineChars (n + 1) level (levelReport maxLineChars k count deleted) ↔ n = 0 := by
  rw [levelReport, if_pos few]
  constructor
  · intro reports
    by_contra more
    have second := (reports 2).mpr ⟨by omega, by omega, by omega⟩
    cases second
  · rintro rfl i
    constructor
    · intro one
      cases one
      exact ⟨Nat.one_pos, Nat.le_refl _, by omega⟩
    · rintro ⟨positive, most, -⟩
      exact congrArg some (Nat.le_antisymm positive most)

theorem reports_emptied (room : 0 < maxLineChars) (some_ : 0 < count)
    (most : count < (n + 1) * maxLineChars) :
    Reports maxLineChars n count (emptied maxLineChars count) ↔ n * maxLineChars ≤ count := by
  constructor
  · intro reports
    by_contra less
    have positive : 0 < n := by
      by_contra none
      rw [Nat.eq_zero_of_not_pos none, Nat.zero_mul] at less
      omega
    have last := (reports n).mpr ⟨positive, Nat.le_refl _, by omega⟩
    unfold emptied at last
    split at last
    next whole =>
      have quotient := Option.some.inj last
      rw [← quotient, Nat.div_mul_cancel whole.2] at less
      exact less (Nat.le_refl _)
    next => cases last
  · intro enough i
    rw [emptied]
    constructor
    · intro here
      split at here
      next whole =>
        have quotient := Option.some.inj here
        have exactly := Nat.div_mul_cancel whole.2
        rw [quotient] at exactly
        refine ⟨?_, ?_, Nat.le_of_eq exactly.symm⟩
        · by_contra none
          rw [Nat.eq_zero_of_not_pos none, Nat.zero_mul] at exactly
          omega
        · rw [← exactly] at most
          exact Nat.le_of_lt_succ (Nat.lt_of_mul_lt_mul_right most)
      next => cases here
    · rintro ⟨-, le, covers⟩
      have scaled := Nat.mul_le_mul_right maxLineChars le
      have same : count = i * maxLineChars := by omega
      rw [if_pos ⟨some_, same ▸ Nat.dvd_mul_left _ _⟩, same, Nat.mul_div_cancel _ room]

theorem reports_map (exceeds : maxLineChars < level) :
    Reports maxLineChars (n + 1) level (deleted.map (· + 1)) ↔
      Reports maxLineChars n (level - maxLineChars) deleted := by
  have shift : ∀ i, 0 < i + 1 ∧ i + 1 ≤ n + 1 ∧ level ≤ (i + 1) * maxLineChars ↔
      0 < i ∧ i ≤ n ∧ level - maxLineChars ≤ i * maxLineChars := by
    intro i
    rw [Nat.succ_mul, Nat.add_le_add_iff_right, Nat.sub_le_iff_le_add]
    constructor
    · rintro ⟨-, le, covers⟩
      refine ⟨?_, le, covers⟩
      by_contra none
      rw [Nat.eq_zero_of_not_pos none, Nat.zero_mul] at covers
      omega
    · rintro ⟨-, le, covers⟩
      exact ⟨Nat.succ_pos i, le, covers⟩
  have image : ∀ i, deleted.map (· + 1) = some (i + 1) ↔ deleted = some i := by
    intro i
    simp
  constructor
  · intro reports i
    rw [← image, ← shift]
    exact reports (i + 1)
  · intro reports i
    cases i with
    | zero => simp
    | succ i =>
      rw [image, shift]
      exact reports i

end Levels

section Chains

variable {front rest : List FixedTextLine} {last : FixedTextLine} {depth k level : Nat}

theorem paragraph_chain (rest : List FixedTextLine) (chain : Chain maxLineChars front last) :
    paragraph (front ++ last :: rest) =
      chainText front last ++ if last.wrapped then paragraph rest else [] := by
  induction front with
  | nil => rfl
  | cons line front ih =>
    have wrapped := (chain.inner line List.mem_cons_self).1
    rw [List.cons_append, paragraph, if_pos wrapped, ih (chain_tail chain), chainText_cons,
      List.append_assoc]

theorem paragraphLines_chain (chain : Chain maxLineChars front last)
    (unwrapped : last.wrapped = false) :
    paragraphLines (front ++ last :: rest) = front.length + 1 := by
  induction front with
  | nil => simp [paragraphLines, unwrapped]
  | cons line front ih =>
    have wrapped := (chain.inner line List.mem_cons_self).1
    rw [List.cons_append, paragraphLines, if_pos wrapped, ih (chain_tail chain)]
    rfl

theorem settles_last (unwrapped : last.wrapped = false) :
    Settles maxLineChars k (last :: rest) := by
  intro wrapped
  rw [unwrapped] at wrapped
  cases wrapped

theorem settles_chain {next : FixedTextLine} (chain : Chain maxLineChars (next :: front) last)
    (unwrapped : last.wrapped = false) :
    Settles maxLineChars k (next :: (front ++ last :: rest)) ↔
      (front.length + 1) * maxLineChars + k ≤ (chainText (next :: front) last).length ∨
        k ≤ 1 ∧ 1 < (chainText (next :: front) last).length ∧
          Settles maxLineChars (maxLineChars + 1 - next.size) (front ++ last :: rest) := by
  have wrapped := (chain.inner next List.mem_cons_self).1
  have text := paragraph_chain rest chain
  rw [unwrapped, if_neg Bool.false_ne_true, List.append_nil, List.cons_append] at text
  rw [Settles, text, paragraphLines_chain (chain_tail chain) unwrapped]
  exact imp_iff_right wrapped

theorem settles_enough (chain : Chain maxLineChars front last) (unwrapped : last.wrapped = false)
    (enough : front.length * maxLineChars + k ≤ (chainText front last).length) :
    Settles maxLineChars k (front ++ last :: rest) := by
  cases front with
  | nil => exact settles_last unwrapped
  | cons next front => exact (settles_chain chain unwrapped).mpr (.inl enough)

theorem settles_one {next : FixedTextLine} (chain : Chain maxLineChars (next :: front) last)
    (unwrapped : last.wrapped = false) (more : 1 < (chainText (next :: front) last).length) :
    Settles maxLineChars 1 (next :: (front ++ last :: rest)) ↔
      Settles maxLineChars (maxLineChars + 1 - next.size) (front ++ last :: rest) := by
  have size : next.chars.length ≤ maxLineChars := chain.sizes next (by simp)
  have some_ : 0 < next.chars.length := by
    exact List.length_pos_iff.mpr (chain.inner next List.mem_cons_self).2
  rw [settles_chain chain unwrapped]
  constructor
  · rintro (enough | ⟨-, -, settles⟩)
    · refine settles_enough (chain_tail chain) unwrapped ?_
      rw [chainText_cons, List.length_append, Nat.succ_mul] at enough
      rw [FixedTextLine.size]
      omega
    · exact settles
  · intro settles
    exact .inr ⟨Nat.le_refl _, more, settles⟩

theorem settles_few (chain : Chain maxLineChars front last) (unwrapped : last.wrapped = false)
    (few : (chainText front last).length ≤ k) (pulls : 0 < k) :
    Settles maxLineChars k (front ++ last :: rest) ↔ front.length = 0 := by
  cases front with
  | nil => exact iff_of_true (settles_last unwrapped) rfl
  | cons next front =>
    have room : 0 < maxLineChars := by
      refine (chain_fits chain).room (List.length_pos_iff.mpr fun none => ?_)
      cases (chain_empty chain none).1
    have wide : maxLineChars ≤ (front.length + 1) * maxLineChars := by
      rw [Nat.succ_mul]
      omega
    refine iff_of_false (fun settles => ?_) (Nat.succ_ne_zero _)
    rcases (settles_chain chain unwrapped).mp settles with enough | ⟨one, more, -⟩
    · omega
    · omega

theorem settles_many (chain : Chain maxLineChars front last) (unwrapped : last.wrapped = false)
    (pulls : 1 < k) (many : k < (chainText front last).length) :
    Settles maxLineChars k (front ++ last :: rest) ↔
      front.length * maxLineChars ≤ (chainText front last).length - k := by
  constructor
  · intro settles
    cases front with
    | nil => simp
    | cons next front =>
      rcases (settles_chain chain unwrapped).mp settles with enough | ⟨one, -, -⟩
      · rw [List.length_cons]
        omega
      · omega
  · intro enough
    exact settles_enough chain unwrapped (by omega)

theorem reports_above (chain : Chain maxLineChars front last) (unwrapped : last.wrapped = false)
    {deleted : Option Nat} (pulls : 0 < k)
    (levelled : Levelled maxLineChars k (chainText front last).length level)
    (one : 1 < (chainText front last).length →
      (Reports maxLineChars front.length ((chainText front last).length - 1) deleted ↔
        Settles maxLineChars 1 (front ++ last :: rest))) :
    Reports maxLineChars (front.length + 1) level
        (levelReport maxLineChars k (chainText front last).length deleted) ↔
      Settles maxLineChars k (front ++ last :: rest) := by
  rcases levelled with ⟨few, width⟩ | ⟨many, whole⟩
  · rw [reports_first few width, settles_few chain unwrapped few pulls]
  · have fits := chain_fits chain
    have room : 0 < maxLineChars := fits.room (by omega)
    rw [levelReport, if_neg (Nat.not_le_of_gt many), reports_map (by omega), whole,
      Nat.add_sub_cancel_left]
    by_cases single : k = 1
    · rw [if_pos single, single]
      exact one (by omega)
    · have most := fits.1
      rw [if_neg single, reports_emptied room (by omega) (by omega),
        settles_many chain unwrapped (by omega) many]

theorem reports_chain (chain : Chain maxLineChars front last) (unwrapped : last.wrapped = false)
    (enough : front.length + rest.length < depth) (more : 1 < (chainText front last).length) :
    Reports maxLineChars front.length ((chainText front last).length - 1)
        (wrapremovech maxLineChars depth 0 (front ++ last :: rest)).2 ↔
      Settles maxLineChars 1 (front ++ last :: rest) := by
  obtain ⟨depth, rfl⟩ := Nat.exists_eq_add_one_of_ne_zero (Nat.ne_zero_of_lt enough)
  induction front generalizing depth with
  | nil =>
    refine iff_of_true (fun i => ?_) (settles_last unwrapped)
    rw [List.nil_append, wrapremovech_unwrapped _ _ _ _ unwrapped]
    refine iff_of_false (fun some_ => by cases some_) ?_
    rintro ⟨positive, none, -⟩
    exact Nat.not_le_of_gt positive none
  | cons next front ih =>
    rw [List.length_cons] at enough
    obtain ⟨depth, rfl⟩ := Nat.exists_eq_add_one_of_ne_zero (n := depth) (by omega)
    have below := chain_tail chain
    have within : front.length + rest.length < depth + 1 := by omega
    have size : next.chars.length ≤ maxLineChars := chain.sizes next (by simp)
    rw [List.cons_append, settles_one chain unwrapped more]
    obtain ⟨chars, wrapped⟩ := next
    obtain ⟨rfl, some_⟩ := chain.inner _ List.mem_cons_self
    obtain ⟨ch, chars, rfl⟩ := List.exists_cons_of_ne_nil some_
    rw [List.length_cons] at size
    have width : maxLineChars + 1 - FixedTextLine.size ⟨ch :: chars, true⟩ =
        maxLineChars - chars.length := by
      simp [FixedTextLine.size]
    have count : (chainText (⟨ch :: chars, true⟩ :: front) last).length =
        chars.length + 1 + (chainText front last).length := by
      rw [chainText_cons, List.length_append, List.length_cons]
    rw [wrapremovech_chain below within (chain_repacks below within) (remove_head ch chars true)
      (by omega) (.inl (by omega)), width, count]
    refine reports_above below unwrapped (by omega) ?_ fun more => ih below more _ within
    unfold Levelled
    omega

end Chains

/-- So many characters a line takes from those below it when the one at `x` goes out of it. -/
def pulledChars (maxLineChars x : Nat) (line : FixedTextLine) : Nat :=
  if x < line.size then maxLineChars + 1 - line.size
  else if line.size = maxLineChars then 1
  else maxLineChars - line.size

def withoutFirst : List FixedTextLine → List FixedCharacter
  | [] => []
  | next :: rest => paragraph ({ next with chars := next.chars.tail } :: rest)

/-- The text from the first line on without the character at `x`: at the end of a full line
    it is the first one of the next line, at the end of any other there is none. -/
def without (maxLineChars x : Nat) : List FixedTextLine → List FixedCharacter
  | [] => []
  | line :: below =>
      if x < line.size then (paragraph (line :: below)).eraseIdx x
      else if line.size = maxLineChars then
        line.chars ++ withoutFirst below
      else paragraph (line :: below)

section Removed

variable {front rest : List FixedTextLine} {last : FixedTextLine} {depth x : Nat}
  {chars text : List FixedCharacter}

/-- The text of a line and of a chain below it, without the character at `x`. -/
def leftText (maxLineChars x : Nat) (chars text : List FixedCharacter) : List FixedCharacter :=
  if x < chars.length then chars.eraseIdx x ++ text
  else if chars.length = maxLineChars then chars ++ text.tail
  else chars ++ text

theorem pulledChars_line (wrapped : Bool) : pulledChars maxLineChars x ⟨chars, wrapped⟩ =
    if x < chars.length then maxLineChars + 1 - chars.length
    else if chars.length = maxLineChars then 1
    else maxLineChars - chars.length := rfl

theorem without_line (wrapped : Bool) (below : List FixedTextLine) :
    without maxLineChars x (⟨chars, wrapped⟩ :: below) =
      if x < chars.length then (paragraph (⟨chars, wrapped⟩ :: below)).eraseIdx x
      else if chars.length = maxLineChars then chars ++ withoutFirst below
      else paragraph (⟨chars, wrapped⟩ :: below) := rfl

theorem pulledChars_pos {line : FixedTextLine} (size : line.size ≤ maxLineChars) :
    0 < pulledChars maxLineChars x line := by
  unfold pulledChars
  split
  · omega
  · split
    · exact Nat.one_pos
    · omega

theorem remove_erase (wrapped : Bool) (inside : x < chars.length) :
    FixedTextLine.remove ⟨chars, wrapped⟩ x (x + 1) = ⟨chars.eraseIdx x, wrapped⟩ := by
  have outside : ¬ (x = x + 1 ∨ FixedTextLine.size ⟨chars, wrapped⟩ ≤ x) := by
    rw [FixedTextLine.size]
    simp
    omega
  rw [FixedTextLine.remove, if_neg outside, List.eraseIdx_eq_take_drop_succ]

theorem wrapremovech_left (chain : Chain maxLineChars front last)
    (enough : front.length + rest.length < depth) (size : chars.length ≤ maxLineChars)
    (within : x ≤ chars.length) :
    wrapremovech maxLineChars (depth + 1) x (⟨chars, true⟩ :: (front ++ last :: rest)) =
      (packed maxLineChars (front.length + 1) last.wrapped
          (leftText maxLineChars x chars (chainText front last)) ++ rest,
        levelReport maxLineChars (pulledChars maxLineChars x ⟨chars, true⟩)
          (chainText front last).length
          (wrapremovech maxLineChars depth 0 (front ++ last :: rest)).2) := by
  have repacks := chain_repacks chain enough
  rw [pulledChars_line]
  unfold leftText
  by_cases inside : x < chars.length
  · have one := List.length_eraseIdx_of_lt inside
    have width : maxLineChars - (chars.eraseIdx x).length = maxLineChars + 1 - chars.length := by
      omega
    rw [if_pos inside, if_pos inside, wrapremovech_chain chain enough repacks
      (remove_erase true inside) (by omega) (.inl (by omega)), width]
  · obtain rfl : x = chars.length := by omega
    rw [if_neg inside, if_neg inside]
    by_cases full : chars.length = maxLineChars
    · rw [if_pos full, if_pos full, wrapremovech_chain_end chain enough full]
    · rw [if_neg full, if_neg full, wrapremovech_chain chain enough repacks (remove_end chars true)
        size (.inl (by omega))]

theorem left_levelled (size : chars.length ≤ maxLineChars) (within : x ≤ chars.length) :
    Levelled maxLineChars (pulledChars maxLineChars x ⟨chars, true⟩) text.length
      (leftText maxLineChars x chars text).length := by
  rw [pulledChars_line]
  unfold leftText Levelled
  by_cases inside : x < chars.length
  · have one := List.length_eraseIdx_of_lt inside
    rw [if_pos inside, if_pos inside, List.length_append]
    omega
  · rw [if_neg inside, if_neg inside]
    by_cases full : chars.length = maxLineChars
    · rw [if_pos full, if_pos full, List.length_append, List.length_tail]
      omega
    · rw [if_neg full, if_neg full, List.length_append]
      omega

theorem left_fits {n : Nat} {w : Bool} (fits : Fits maxLineChars n w text.length)
    (size : chars.length ≤ maxLineChars) :
    Fits maxLineChars (n + 1) w (leftText maxLineChars x chars text).length := by
  have most : (leftText maxLineChars x chars text).length ≤ chars.length + text.length := by
    have erased := List.length_eraseIdx_le chars x
    unfold leftText
    split
    · rw [List.length_append]
      omega
    · split
      · rw [List.length_append, List.length_tail]
        omega
      · exact Nat.le_of_eq List.length_append
  obtain ⟨all, before⟩ := fits
  constructor
  · rw [Nat.succ_mul (n + 1)]
    omega
  · intro wrapped
    have := before wrapped
    rw [Nat.succ_mul]
    omega

theorem left_without (x : Nat) (chars : List FixedCharacter) (rest : List FixedTextLine)
    (chain : Chain maxLineChars front last) :
    without maxLineChars x (⟨chars, true⟩ :: (front ++ last :: rest)) =
      leftText maxLineChars x chars (chainText front last) ++
        if last.wrapped then paragraph rest else [] := by
  have text : paragraph (⟨chars, true⟩ :: (front ++ last :: rest)) =
      chars ++ (chainText front last ++ if last.wrapped then paragraph rest else []) := by
    rw [paragraph, if_pos rfl, paragraph_chain _ chain]
  unfold leftText
  rw [without_line, text]
  by_cases inside : x < chars.length
  · rw [if_pos inside, if_pos inside, List.eraseIdx_append_of_lt_length inside, List.append_assoc]
  · rw [if_neg inside, if_neg inside]
    by_cases full : chars.length = maxLineChars
    · rw [if_pos full, if_pos full, List.append_assoc]
      congr 1
      cases front with
      | nil => rfl
      | cons next front =>
        obtain ⟨wrapped, some_⟩ := chain.inner next List.mem_cons_self
        rw [List.cons_append, withoutFirst, paragraph, wrapped, if_pos rfl,
          paragraph_chain _ (chain_tail chain), chainText_cons, List.tail_append_of_ne_nil some_,
          List.append_assoc]
    · rw [if_neg full, if_neg full, List.append_assoc]

theorem left_remains (room : text ≠ [] → 0 < maxLineChars) :
    leftText maxLineChars x chars text ≠ [] ↔
      (if x < chars.length then 1 else 0) < (chars ++ text).length := by
  rw [← List.length_pos_iff, List.length_append]
  unfold leftText
  by_cases inside : x < chars.length
  · have one := List.length_eraseIdx_of_lt inside
    rw [if_pos inside, if_pos inside, List.length_append]
    omega
  · rw [if_neg inside, if_neg inside]
    by_cases full : chars.length = maxLineChars
    · rw [if_pos full, List.length_append, List.length_tail]
      by_cases some_ : text = []
      · simp [some_]
      · have wide := room some_
        omega
    · rw [if_neg full, List.length_append]

end Removed

/-- Every wrapped line is followed by one with characters, the last line of the list if the
    line behind the list has some. -/
def JoinedTo (ends : Prop) : List FixedTextLine → Prop
  | [] => True
  | line :: below =>
      (line.wrapped = true → if below = [] then ends else 0 < nextSize below) ∧
        JoinedTo ends below

def Joined (lines : List FixedTextLine) : Prop := JoinedTo False lines

def Filled : List FixedTextLine → Prop
  | [] => True
  | line :: below => line.wrapped = true → line.chars ≠ [] ∧ Filled below

/-- The line is empty, and the one above is no longer wrapped. -/
def Unlinked (before after : List FixedTextLine) : Nat → Prop
  | 0 => False
  | above + 1 =>
      (∃ line, before[above]? = some line ∧ line.wrapped = true) ∧
        (∃ line, after[above]? = some line ∧ line.wrapped = false) ∧
        ∃ line, after[above + 1]? = some line ∧ line.chars = []

section Joints

variable {above below front rest : List FixedTextLine} {last : FixedTextLine} {ends : Prop}
  {n i : Nat} {text : List FixedCharacter}

theorem joinedTo_append (more : below ≠ []) :
    JoinedTo ends (above ++ below) ↔ JoinedTo (0 < nextSize below) above ∧ JoinedTo ends below := by
  induction above with
  | nil => exact (and_iff_right trivial).symm
  | cons line above ih =>
    rw [List.cons_append, JoinedTo, JoinedTo, ih, if_neg (by simp [more]), and_assoc]
    cases above with
    | nil => simp
    | cons next above => simp [nextSize]

theorem joined_packed (room : text ≠ [] → 0 < maxLineChars) :
    Joined (packed maxLineChars n false text ++ rest) ↔ Joined rest := by
  induction n generalizing text with
  | zero => simp [packed, Joined, JoinedTo]
  | succ n ih =>
    have roomBelow : text.drop maxLineChars ≠ [] → 0 < maxLineChars := by
      intro some_
      refine room fun none => some_ ?_
      rw [none, List.drop_nil]
    have joint : decide (maxLineChars < text.length) = true → 0 < nextSize
        (packed maxLineChars n false (text.drop maxLineChars) ++ rest) := by
      intro more
      refine Nat.pos_of_ne_zero fun none => ?_
      have nothing := (packed_nextSize roomBelow).mp none
      rw [List.drop_eq_nil_iff] at nothing
      exact Nat.not_lt.mpr nothing (of_decide_eq_true more)
    rw [← ih roomBelow, packed, List.cons_append, Joined, JoinedTo, if_neg packed_more]
    exact and_iff_right joint

theorem joined_packed_wrapped (more : rest ≠ [])
    (joined : Joined (packed maxLineChars n true text ++ rest)) : 0 < nextSize rest := by
  induction n generalizing text with
  | zero =>
    have joint := joined.1 rfl
    rwa [if_neg (by simpa using more)] at joint
  | succ n ih => exact ih joined.2

theorem unlinked_flags {before after : List FixedTextLine}
    (same : before.map FixedTextLine.wrapped = after.map FixedTextLine.wrapped) :
    ¬ Unlinked before after i := by
  cases i with
  | zero => exact id
  | succ j =>
    rintro ⟨⟨line, here, wrapped⟩, ⟨line', here', unwrapped⟩, -⟩
    have flags := congrArg (·[j]?) same
    simp only [List.getElem?_map, here, here', Option.map_some, wrapped, unwrapped] at flags
    cases flags

theorem unlinked_cons {line line' : FixedTextLine} {before after : List FixedTextLine} (j : Nat) :
    Unlinked (line :: before) (line' :: after) (j + 1 + 1) ↔ Unlinked before after (j + 1) :=
  Iff.rfl

theorem unlinked_append {before after : List FixedTextLine} :
    Unlinked (above ++ before) (above ++ after) i ↔
      ∃ j, above.length + j = i ∧ Unlinked before after j := by
  induction above generalizing i with
  | nil => simp
  | cons line above ih =>
    rcases i with _ | _ | i
    · exact iff_of_false id fun ⟨j, length, _⟩ => by simp at length
    · refine iff_of_false ?_ ?_
      · rintro ⟨⟨_, here, wrapped⟩, ⟨_, here', unwrapped⟩, -⟩
        cases here
        cases here'
        rw [wrapped] at unwrapped
        cases unwrapped
      · rintro ⟨j, length, unlinked⟩
        rw [List.length_cons] at length
        obtain rfl : j = 0 := by omega
        exact unlinked
    · rw [List.cons_append, List.cons_append, unlinked_cons, ih, List.length_cons]
      exact exists_congr fun j => and_congr_left' (by omega)

theorem unlinked_packed (wrapped : ∀ line ∈ front, line.wrapped = true) :
    Unlinked (front ++ last :: rest)
        (packed maxLineChars front.length last.wrapped text ++ rest) i ↔
      0 < i ∧ i ≤ front.length ∧ text.length ≤ i * maxLineChars := by
  induction front generalizing text i with
  | nil =>
    refine iff_of_false (unlinked_flags rfl) ?_
    rintro ⟨positive, none, -⟩
    exact Nat.not_le_of_gt positive none
  | cons line front ih =>
    have joint := wrapped line List.mem_cons_self
    rw [List.length_cons, packed, List.cons_append, List.cons_append]
    rcases i with _ | _ | i
    · exact iff_of_false id fun here => Nat.lt_irrefl 0 here.1
    · constructor
      · rintro ⟨-, ⟨_, here, unwrapped⟩, -⟩
        cases here
        have few := of_decide_eq_false unwrapped
        omega
      · rintro ⟨-, -, few⟩
        have none : text.drop maxLineChars = [] := List.drop_eq_nil_of_le (by omega)
        obtain ⟨next, under, same⟩ : ∃ next under, packed maxLineChars front.length last.wrapped
            (text.drop maxLineChars) ++ rest = next :: under :=
          List.exists_cons_of_ne_nil packed_more
        have size : nextSize (next :: under) = 0 := by
          rw [← same]
          exact (packed_nextSize fun some_ => absurd none some_).mpr none
        rw [same]
        exact ⟨⟨line, rfl, joint⟩, ⟨_, rfl, decide_eq_false (by omega)⟩, next, rfl,
          List.length_eq_zero_iff.mp size⟩
    · rw [unlinked_cons, ih fun line member => wrapped line (List.mem_cons_of_mem _ member),
        List.length_drop, Nat.succ_mul (i + 1)]
      omega

end Joints

def Followed (lines : List FixedTextLine) : Prop :=
  ∀ i line, lines[i]? = some line → line.wrapped = true → i + 1 < lines.length

theorem followed_tail {line : FixedTextLine} {below : List FixedTextLine}
    (followed : Followed (line :: below)) : Followed below := by
  intro i next here wrapped
  have later := followed (i + 1) next here wrapped
  rw [List.length_cons] at later
  omega

theorem followed_append {above below : List FixedTextLine} (followed : Followed (above ++ below)) :
    Followed below := by
  induction above with
  | nil => exact followed
  | cons line above ih => exact ih (followed_tail followed)

theorem followed_more {line : FixedTextLine} {below : List FixedTextLine}
    (followed : Followed (line :: below)) (wrapped : line.wrapped = true) : below ≠ [] := by
  rintro rfl
  exact Nat.lt_irrefl 1 (followed 0 line rfl wrapped)

theorem chain_exists {below : List FixedTextLine} (more : below ≠ [])
    (sizes : ∀ line ∈ below, line.size ≤ maxLineChars)
    (followed : Followed below) :
    ∃ front last rest, below = front ++ last :: rest ∧ Chain maxLineChars front last := by
  induction below with
  | nil => exact absurd rfl more
  | cons line below ih =>
    by_cases goesOn : line.wrapped = true ∧ line.chars ≠ []
    · obtain ⟨front, last, rest, rfl, chain⟩ := ih (followed_more followed goesOn.1)
        (List.forall_mem_cons.mp sizes).2 (followed_tail followed)
      exact ⟨line :: front, last, rest, rfl, List.forall_mem_cons.mpr ⟨goesOn, chain.inner⟩,
        chain.ends, List.forall_mem_cons.mpr ⟨sizes line List.mem_cons_self, chain.sizes⟩⟩
    · refine ⟨[], line, below, rfl, by simp, ?_, by simpa using sizes line List.mem_cons_self⟩
      by_cases wrapped : line.wrapped = true
      · exact .inr (by_contra fun some_ => goesOn ⟨wrapped, some_⟩)
      · exact .inl (eq_false_of_ne_true wrapped)

theorem filled_chain {front rest : List FixedTextLine} {last : FixedTextLine}
    (chain : Chain maxLineChars front last) :
    Filled (front ++ last :: rest) ↔ last.wrapped = false := by
  induction front with
  | nil =>
    constructor
    · intro filled
      rcases chain.ends with unwrapped | none
      · exact unwrapped
      · by_contra wrapped
        exact (filled (eq_true_of_ne_false wrapped)).1 none
    · intro unwrapped wrapped
      rw [unwrapped] at wrapped
      cases wrapped
  | cons line front ih =>
    rw [← ih (chain_tail chain)]
    obtain ⟨wrapped, some_⟩ := chain.inner line List.mem_cons_self
    exact (imp_iff_right wrapped).trans (and_iff_right some_)

/-- `wrapremovech(x, y, maxLineChars)` on all lines. -/
def wrapremovechAt (maxLineChars x y : Nat) (lines : List FixedTextLine) :
    List FixedTextLine × Option Nat :=
  let removed := wrapremovech maxLineChars lines.length x (lines.drop y)
  (lines.take y ++ removed.1, removed.2.map (y + ·))

/-- The paragraph of line `y` lost the character at `x`, no other line changed, and the one
    line that was emptied and unlinked is reported. -/
structure CharacterRemoved (maxLineChars x y : Nat) (lines : List FixedTextLine)
    (removed : List FixedTextLine × Option Nat) : Prop where
  text : paragraph (removed.1.drop y) = without maxLineChars x (lines.drop y)
  above : removed.1.take y = lines.take y
  below : removed.1.drop (y + paragraphLines (lines.drop y)) =
    lines.drop (y + paragraphLines (lines.drop y))
  joined : Joined removed.1
  reported : ∀ i, Unlinked lines removed.1 i ↔ removed.2 = some i

/-- What `wrapremovech(x, y)` needs of the lines, with `line` the one at `y`. -/
structure RemovesWhen (maxLineChars x y : Nat) (line : FixedTextLine)
    (lines : List FixedTextLine) : Prop where
  /-- The lines above are joined, the last of them to what is left of line `y`. -/
  above : JoinedTo ((if x < line.size then 1 else 0) < (paragraph (lines.drop y)).length)
    (lines.take y)
  /-- So are those behind the paragraph. -/
  below : Joined (lines.drop (y + paragraphLines (lines.drop y)))
  filled : Filled (lines.drop (y + 1))
  settles : Settles maxLineChars (pulledChars maxLineChars x line) (lines.drop (y + 1))

section Removal

variable {above front rest : List FixedTextLine} {last : FixedTextLine}
  {chars : List FixedCharacter} {x : Nat}

theorem removed_at (above rest : List FixedTextLine) (chain : Chain maxLineChars front last)
    (size : chars.length ≤ maxLineChars)
    (within : x ≤ chars.length) :
    ∃ deleted, wrapremovechAt maxLineChars x above.length
        (above ++ ⟨chars, true⟩ :: (front ++ last :: rest)) =
      (above ++ (packed maxLineChars (front.length + 1) last.wrapped
          (leftText maxLineChars x chars (chainText front last)) ++ rest),
        deleted.map (above.length + ·)) ∧
      (last.wrapped = false → (Reports maxLineChars (front.length + 1)
          (leftText maxLineChars x chars (chainText front last)).length deleted ↔
        Settles maxLineChars (pulledChars maxLineChars x ⟨chars, true⟩)
          (front ++ last :: rest))) := by
  obtain ⟨depth, lines, enough⟩ : ∃ depth,
      (above ++ ⟨chars, true⟩ :: (front ++ last :: rest)).length = depth + 1 ∧
        front.length + rest.length < depth := by
    refine ⟨above.length + front.length + rest.length + 1, ?_, by omega⟩
    simp only [List.length_append, List.length_cons]
    omega
  have run := wrapremovech_left chain enough size within
  refine ⟨levelReport maxLineChars (pulledChars maxLineChars x ⟨chars, true⟩)
    (chainText front last).length (wrapremovech maxLineChars depth 0 (front ++ last :: rest)).2,
    ?_, fun unwrapped => ?_⟩
  · unfold wrapremovechAt
    rw [lines, List.take_left, List.drop_left, run]
  · exact reports_above chain unwrapped (pulledChars_pos size) (left_levelled size within)
      (reports_chain chain unwrapped enough)

theorem removed_reported {before after : List FixedTextLine} {deleted : Option Nat} :
    (∀ i, Unlinked (above ++ before) (above ++ after) i ↔
        deleted.map (above.length + ·) = some i) ↔
      ∀ i, Unlinked before after i ↔ deleted = some i := by
  have image : ∀ i, deleted.map (above.length + ·) = some i ↔
      ∃ j, above.length + j = i ∧ deleted = some j := by
    intro i
    rw [Option.map_eq_some_iff]
    exact exists_congr fun j => and_comm
  constructor
  · intro reported j
    have here := reported (above.length + j)
    rw [unlinked_append, image] at here
    simpa using here
  · intro reported i
    rw [unlinked_append, image]
    exact exists_congr fun j => and_congr_right' (reported j)

theorem paragraph_line (chain : Chain maxLineChars front last) (unwrapped : last.wrapped = false) :
    paragraph (⟨chars, true⟩ :: (front ++ last :: rest)) = chars ++ chainText front last := by
  rw [paragraph, if_pos rfl, paragraph_chain _ chain, unwrapped, if_neg Bool.false_ne_true,
    List.append_nil]

theorem drop_paragraph (chain : Chain maxLineChars front last) (unwrapped : last.wrapped = false) :
    (above ++ ⟨chars, true⟩ :: (front ++ last :: rest)).drop
      (above.length + paragraphLines (⟨chars, true⟩ :: (front ++ last :: rest))) = rest := by
  rw [paragraphLines, if_pos rfl, paragraphLines_chain chain unwrapped,
    List.drop_length_add_append, List.drop_succ_cons, List.drop_length_add_append]
  rfl

theorem drop_packed {text : List FixedCharacter} {w : Bool} (chain : Chain maxLineChars front last)
    (unwrapped : last.wrapped = false) :
    (above ++ (packed maxLineChars (front.length + 1) w text ++ rest)).drop
      (above.length + paragraphLines (⟨chars, true⟩ :: (front ++ last :: rest))) = rest := by
  rw [paragraphLines, if_pos rfl, paragraphLines_chain chain unwrapped,
    List.drop_length_add_append]
  exact List.drop_left' packed_length

theorem joined_removed {text : List FixedCharacter} {ends : Prop} {n : Nat}
    (room : text ≠ [] → 0 < maxLineChars) (remains : text ≠ [] ↔ ends) :
    Joined (above ++ (packed maxLineChars n false text ++ rest)) ↔
      JoinedTo ends above ∧ Joined rest := by
  have first : 0 < nextSize (packed maxLineChars n false text ++ rest) ↔ ends := by
    rw [← remains, Nat.pos_iff_ne_zero]
    exact not_congr (packed_nextSize room)
  rw [Joined, joinedTo_append packed_more, propext first]
  exact and_congr_right' (joined_packed room)

theorem reported_iff (chain : Chain maxLineChars front last) {text : List FixedCharacter}
    {deleted : Option Nat} :
    (∀ i, Unlinked (above ++ ⟨chars, true⟩ :: (front ++ last :: rest))
        (above ++ (packed maxLineChars (front.length + 1) last.wrapped text ++ rest)) i ↔
          deleted.map (above.length + ·) = some i) ↔
      Reports maxLineChars (front.length + 1) text.length deleted := by
  have wrapped : ∀ line ∈ ⟨chars, true⟩ :: front, line.wrapped = true :=
    List.forall_mem_cons.mpr ⟨rfl, fun line member => (chain.inner line member).1⟩
  rw [removed_reported]
  refine forall_congr' fun i => ?_
  have flags : Unlinked (⟨chars, true⟩ :: (front ++ last :: rest))
      (packed maxLineChars (front.length + 1) last.wrapped text ++ rest) i ↔
      0 < i ∧ i ≤ front.length + 1 ∧ text.length ≤ i * maxLineChars := unlinked_packed wrapped
  rw [flags]
  exact iff_comm

theorem removed_unwrapped (chain : Chain maxLineChars front last)
    (unwrapped : last.wrapped = false) (size : chars.length ≤ maxLineChars)
    (within : x ≤ chars.length) :
    CharacterRemoved maxLineChars x above.length
        (above ++ ⟨chars, true⟩ :: (front ++ last :: rest))
        (wrapremovechAt maxLineChars x above.length
          (above ++ ⟨chars, true⟩ :: (front ++ last :: rest))) ↔
      RemovesWhen maxLineChars x above.length ⟨chars, true⟩
        (above ++ ⟨chars, true⟩ :: (front ++ last :: rest)) := by
  obtain ⟨deleted, run, reports⟩ := removed_at above rest chain size within
  have below := chain_fits chain
  have fits := left_fits (x := x) below size
  have joined : Joined (above ++ (packed maxLineChars (front.length + 1) false
      (leftText maxLineChars x chars (chainText front last)) ++ rest)) ↔
      JoinedTo ((if x < chars.length then 1 else 0) < (chars ++ chainText front last).length)
        above ∧ Joined rest :=
    joined_removed (fun some_ => fits.room (List.length_pos_iff.mpr some_))
      (left_remains fun some_ => below.room (List.length_pos_iff.mpr some_))
  have text := left_without x chars rest chain
  have paragraphs := paragraph_packed rest fits
  rw [if_neg (by simp), List.append_nil] at paragraphs
  rw [unwrapped, if_neg Bool.false_ne_true, List.append_nil] at text
  have next : (above ++ ⟨chars, true⟩ :: (front ++ last :: rest)).drop (above.length + 1) =
      front ++ last :: rest := by
    rw [List.drop_length_add_append]
    rfl
  rw [run]
  constructor
  · intro removed
    have joints := removed.joined
    rw [unwrapped] at joints
    obtain ⟨aboves, belows⟩ := joined.mp joints
    refine ⟨?_, ?_, ?_, ?_⟩
    · rw [List.drop_left, List.take_left, paragraph_line chain unwrapped]
      exact aboves
    · rw [List.drop_left, drop_paragraph chain unwrapped]
      exact belows
    · rw [next]
      exact (filled_chain chain).mpr unwrapped
    · rw [next]
      exact (reports unwrapped).mp ((reported_iff chain).mp removed.reported)
  · intro needs
    obtain ⟨aboves, belows, -, settles⟩ := needs
    rw [List.drop_left, List.take_left, paragraph_line chain unwrapped] at aboves
    rw [List.drop_left, drop_paragraph chain unwrapped] at belows
    rw [next] at settles
    refine ⟨?_, ?_, ?_, ?_, ?_⟩
    · rw [List.drop_left, List.drop_left, paragraphs, text]
    · rw [List.take_left, List.take_left]
    · rw [List.drop_left, drop_packed chain unwrapped, drop_paragraph chain unwrapped]
    · rw [unwrapped]
      exact joined.mpr ⟨aboves, belows⟩
    · exact (reported_iff chain).mpr ((reports unwrapped).mpr settles)

theorem removed_wrapped (chain : Chain maxLineChars front last) (wrapped : last.wrapped = true)
    (more : rest ≠ []) (size : chars.length ≤ maxLineChars) (within : x ≤ chars.length) :
    ¬ CharacterRemoved maxLineChars x above.length
      (above ++ ⟨chars, true⟩ :: (front ++ last :: rest))
      (wrapremovechAt maxLineChars x above.length
        (above ++ ⟨chars, true⟩ :: (front ++ last :: rest))) := by
  obtain ⟨deleted, run, -⟩ := removed_at above rest chain size within
  rw [run]
  intro removed
  have fits := left_fits (x := x) (chain_fits chain) size
  have text := removed.text
  rw [List.drop_left, List.drop_left, paragraph_packed _ fits, left_without _ _ _ chain, wrapped,
    if_pos rfl, if_neg (by simp)] at text
  have lost : paragraph rest = [] := (List.append_cancel_left text).symm
  have joined := removed.joined
  rw [wrapped, Joined, joinedTo_append packed_more] at joined
  have first := joined_packed_wrapped more joined.2
  cases rest with
  | nil => exact more rfl
  | cons line rest =>
    rw [paragraph, List.append_eq_nil_iff] at lost
    exact Nat.ne_of_gt first (List.length_eq_zero_iff.mpr lost.1)

end Removal

theorem split_at {lines : List FixedTextLine} {y : Nat} {line : FixedTextLine}
    (here : lines[y]? = some line) :
    ∃ above below, lines = above ++ line :: below ∧ above.length = y := by
  obtain ⟨inside, same⟩ := List.getElem?_eq_some_iff.mp here
  refine ⟨lines.take y, lines.drop (y + 1), ?_, List.length_take_of_le (Nat.le_of_lt inside)⟩
  rw [← same, List.getElem_cons_drop inside, List.take_append_drop]

/-- What a removal in a wrapped line does. It always returns; the character goes out of the
    paragraph, and the emptied line is reported, for exactly the lines of `RemovesWhen`. -/
theorem wrapremovech_iff {x y : Nat} {line : FixedTextLine} {lines : List FixedTextLine}
    (sizes : ∀ line ∈ lines, line.size ≤ maxLineChars) (followed : Followed lines)
    (here : lines[y]? = some line) (wrapped : line.wrapped = true) (within : x ≤ line.size) :
    (∀ depth, (lines.drop y).length ≤ depth → wrapremovech maxLineChars depth x (lines.drop y) =
      wrapremovech maxLineChars lines.length x (lines.drop y)) ∧
    (CharacterRemoved maxLineChars x y lines (wrapremovechAt maxLineChars x y lines) ↔
      RemovesWhen maxLineChars x y line lines) := by
  constructor
  · intro depth enough
    refine wrapremovech_depth rfl enough ?_ x
    rw [List.length_drop]
    omega
  · obtain ⟨above, below, rfl, rfl⟩ := split_at here
    obtain ⟨chars, _⟩ := line
    cases wrapped
    have size : chars.length ≤ maxLineChars := sizes ⟨chars, true⟩ (by simp)
    have fromLine := followed_append followed
    have fits : ∀ next ∈ below, next.size ≤ maxLineChars := by
      intro next member
      exact sizes next (by simp [member])
    obtain ⟨front, last, rest, rfl, chain⟩ := chain_exists (followed_more fromLine rfl) fits
      (followed_tail fromLine)
    cases flag : last.wrapped with
    | false => exact removed_unwrapped chain flag size within
    | true =>
      have more := followed_more (followed_append (followed_tail fromLine)) flag
      refine iff_of_false (removed_wrapped chain flag more size within) fun needs => ?_
      have filled := needs.filled
      rw [List.drop_length_add_append] at filled
      have unwrapped := (filled_chain chain).mp filled
      rw [flag] at unwrapped
      cases unwrapped

theorem wrapremovech_iff_joined :
    CharacterRemoved 3 0 0 [⟨[⟨97, 0, 0⟩, ⟨98, 0, 0⟩, ⟨99, 0, 0⟩], true⟩, ⟨[⟨100, 0, 0⟩], false⟩]
      (wrapremovechAt 3 0 0
        [⟨[⟨97, 0, 0⟩, ⟨98, 0, 0⟩, ⟨99, 0, 0⟩], true⟩, ⟨[⟨100, 0, 0⟩], false⟩]) := by
  refine (wrapremovech_iff (by simp [FixedTextLine.size]) ?_ rfl rfl (Nat.zero_le _)).2.mpr ?_
  · rintro (_ | _ | i) line here wrapped
    · exact Nat.lt_succ_self 1
    · cases here
      cases wrapped
    · cases here
  · exact ⟨trivial, trivial, (fun wrapped => by cases wrapped), settles_last rfl⟩

/-- The characters b and c are pulled up: the line below takes the e from the last one when b
    goes, which leaves that one empty, but nothing when c goes. -/
theorem emptied_line_not_reported :
    let lines : List FixedTextLine := [⟨[⟨97, 0, 0⟩], true⟩,
      ⟨[⟨98, 0, 0⟩, ⟨99, 0, 0⟩, ⟨100, 0, 0⟩], true⟩, ⟨[⟨101, 0, 0⟩], false⟩]
    let removed := wrapremovechAt 3 1 0 lines
    (∀ line ∈ lines, line.size ≤ 3) ∧ Followed lines ∧ Unlinked lines removed.1 2 ∧
      removed.2 = none ∧ ¬ CharacterRemoved 3 1 0 lines removed := by
  intro lines removed
  have followed : Followed lines := by
    rintro (_ | _ | _ | i) line here wrapped
    · exact Nat.succ_lt_succ Nat.two_pos
    · exact Nat.lt_succ_self 2
    · cases here
      cases wrapped
    · cases here
  have unlinked : Unlinked lines removed.1 2 :=
    ⟨⟨_, rfl, rfl⟩, ⟨_, rfl, rfl⟩, _, rfl, rfl⟩
  have unreported : removed.2 = none := rfl
  refine ⟨by simp [lines, FixedTextLine.size], followed, unlinked, unreported, fun done => ?_⟩
  have reported := (done.reported 2).mp unlinked
  rw [unreported] at reported
  cases reported

end FixedText
