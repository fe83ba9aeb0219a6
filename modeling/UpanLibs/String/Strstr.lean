import Mathlib.Data.List.Basic
import Mathlib.Data.List.Range
import Mathlib.Tactic.Common

/-!
`strstr`, with its jumps. The haystack and the needle are texts with a zero byte after them, and a
read beyond that byte has no result.
-/
namespace Strstr

structure Text where
  bytes : List UInt8
  nonzero : 0 ∉ bytes

variable (h n : Text)

def Text.fetch (p : Nat) : Option UInt8 := (h.bytes ++ [0])[p]?

/-- The comparison after the first two bytes, from `rhaystack` and `needle` on: whether the needle
    has come to its end when it stops. -/
def compare : Nat → Nat → Nat → Option Bool
  | 0, _, _ => none
  | fuel + 1, r, i => do
    let x ← h.fetch r
    let a ← n.fetch i
    if x ≠ a then return a = 0
    if a = 0 then return true
    let x ← h.fetch (r + 1)
    let a ← n.fetch (i + 1)
    if x ≠ a then return a = 0
    if a = 0 then return true
    compare fuel (r + 2) (i + 2)

/-- The first byte of the needle: the loop before all others. -/
def seek (b : UInt8) : Nat → Nat → Option (Option Nat)
  | 0, _ => none
  | fuel + 1, p => do
    let a ← h.fetch p
    if a = 0 then return none
    if a = b then return some p
    seek b fuel (p + 1)

/-- The two loops that look for the first byte and then for the second, which they take in turns;
    `a` is the byte at `p`. The result is the place of the second. -/
def hunt (b c : UInt8) : Nat → UInt8 → Nat → Option (Option Nat)
  | 0, _, _ => none
  | fuel + 1, a, p => do
    if a = b then
      let a ← h.fetch (p + 1)
      if a = c then return some (p + 1)
      hunt b c fuel a (p + 1)
    else if a = 0 then return none
    else
      let a ← h.fetch (p + 1)
      if a = b then hunt b c fuel a (p + 1)
      else if a = 0 then return none
      else
        let a ← h.fetch (p + 2)
        hunt b c fuel a (p + 2)

/-- `crest`, with the second byte of the needle at `q`. -/
def crest (b c : UInt8) (bound : Nat) : Nat → Nat → Option (Option Nat)
  | 0, _ => none
  | fuel + 1, q => do
    if ← compare h n (n.bytes.length + 1) (q + 1) 2 then return some (q - 1)
    let a ← h.fetch q
    match ← hunt h b c bound a q with
    | none => return none
    | some q => crest b c bound fuel q

def strstr : Option (Option Nat) := do
  let bound := h.bytes.length + 1
  let b ← n.fetch 0
  if b = 0 then return some 0
  match ← seek h b bound 0 with
  | none => return none
  | some p =>
    let c ← n.fetch 1
    if c = 0 then return some p
    let a ← h.fetch (p + 1)
    if a = c then crest h n b c bound bound (p + 1)
    else
      match ← hunt h b c bound a (p + 1) with
      | none => return none
      | some q => crest h n b c bound bound q

variable {h n : Text}

def Text.char (h : Text) (p : Nat) : UInt8 := h.bytes.getD p 0

theorem fetch_eq {p : Nat} (inside : p ≤ h.bytes.length) : h.fetch p = some (h.char p) := by
  unfold Text.fetch Text.char
  obtain rfl | less := Nat.eq_or_lt_of_le inside
  · simp
  · rw [List.getElem?_append_left less, List.getD_eq_getElem?_getD, List.getElem?_eq_getElem less,
      Option.getD_some]

theorem char_eq_zero_iff {p : Nat} : h.char p = 0 ↔ h.bytes.length ≤ p := by
  unfold Text.char
  by_cases inside : p < h.bytes.length
  · rw [List.getD_eq_getElem?_getD, List.getElem?_eq_getElem inside, Option.getD_some]
    refine iff_of_false (fun zero => h.nonzero ?_) (Nat.not_le.mpr inside)
    rw [← zero]
    exact List.getElem_mem inside
  · rw [List.getD_eq_getElem?_getD, List.getElem?_eq_none (Nat.not_lt.mp inside),
      Option.getD_none]
    exact iff_of_true rfl (Nat.not_lt.mp inside)

theorem char_ne_zero {p : Nat} (some_ : h.char p ≠ 0) : p < h.bytes.length :=
  Nat.not_le.mp fun past => some_ (char_eq_zero_iff.mpr past)

/-- The needle from `i` on stands in the haystack from `r` on. -/
def Agrees (h n : Text) (r i : Nat) : Prop :=
  ∀ k, i + k < n.bytes.length → h.char (r + k) = n.char (i + k)

theorem agrees_end {r i : Nat} (ended : n.char i = 0) : Agrees h n r i := by
  have past := char_eq_zero_iff.mp ended
  intro k inside
  omega

theorem agrees_cons {r i : Nat} (more : n.char i ≠ 0) :
    Agrees h n r i ↔ h.char r = n.char i ∧ Agrees h n (r + 1) (i + 1) := by
  have inside := char_ne_zero more
  constructor
  · intro agrees
    refine ⟨agrees 0 inside, fun k less => ?_⟩
    rw [Nat.add_right_comm r, Nat.add_right_comm i]
    exact agrees (k + 1) (by omega)
  · rintro ⟨first, rest⟩ k less
    cases k with
    | zero => exact first
    | succ k =>
      have here := rest k (by omega)
      rw [Nat.add_right_comm r, Nat.add_right_comm i] at here
      exact here

theorem compare_eq {fuel r i : Nat} (place : r ≤ h.bytes.length) (inside : i ≤ n.bytes.length)
    (enough : n.bytes.length < fuel + i) :
    ∃ found, compare h n fuel r i = some found ∧ (found = true ↔ Agrees h n r i) := by
  induction fuel generalizing r i with
  | zero => omega
  | succ fuel ih =>
    rw [compare, fetch_eq place, fetch_eq inside]
    simp only [Option.bind_eq_bind, Option.bind_some, ne_eq, ite_not, Option.pure_def]
    by_cases ended : n.char i = 0
    · refine ⟨true, ?_, iff_of_true rfl (agrees_end ended)⟩
      simp [ended]
    rw [agrees_cons ended, if_neg ended]
    by_cases same : h.char r = n.char i
    · have next : r + 1 ≤ h.bytes.length := char_ne_zero (same ▸ ended)
      rw [if_pos same, fetch_eq next, fetch_eq (char_ne_zero ended)]
      simp only [Option.bind_some]
      by_cases ended' : n.char (i + 1) = 0
      · refine ⟨true, ?_, iff_of_true rfl ⟨same, agrees_end ended'⟩⟩
        simp [ended']
      rw [agrees_cons ended', if_neg ended']
      by_cases same' : h.char (r + 1) = n.char (i + 1)
      · obtain ⟨found, eq, agrees⟩ := ih (r := r + 2) (i := i + 2)
          (char_ne_zero (same' ▸ ended')) (char_ne_zero ended') (by omega)
        rw [if_pos same']
        exact ⟨found, eq, agrees.trans (by simp [same, same'])⟩
      · rw [if_neg same']
        exact ⟨false, by simp [ended'], iff_of_false (by simp) fun h => same' h.2.1⟩
    · rw [if_neg same]
      exact ⟨false, by simp [ended], iff_of_false (by simp) fun h => same h.1⟩

/-- The first place from `p` on with a property, if there is one. -/
def IsFirst (has : Nat → Prop) (p : Nat) : Option Nat → Prop
  | some q => p ≤ q ∧ has q ∧ ∀ k, p ≤ k → k < q → ¬ has k
  | none => ∀ k, p ≤ k → ¬ has k

theorem IsFirst.here {has : Nat → Prop} {p : Nat} (here : has p) : IsFirst has p (some p) :=
  ⟨Nat.le_refl p, here, fun k low high => by omega⟩

theorem IsFirst.skip {has : Nat → Prop} {p q : Nat} {r : Option Nat} (h : IsFirst has q r)
    (upward : p ≤ q) (none : ∀ k, p ≤ k → k < q → ¬ has k) : IsFirst has p r := by
  have below (k : Nat) (low : p ≤ k) (rest : q ≤ k → ¬ has k) : ¬ has k := by
    obtain less | past := Nat.lt_or_ge k q
    · exact none k low less
    · exact rest past
  cases r with
  | some i =>
    obtain ⟨place, here, first⟩ := h
    exact ⟨Nat.le_trans upward place, here,
      fun k low high => below k low fun past => first k past high⟩
  | none => exact fun k low => below k low (h k)

theorem IsFirst.next {has : Nat → Prop} {p : Nat} {r : Option Nat} (h : IsFirst has (p + 1) r)
    (none : ¬ has p) : IsFirst has p r := by
  apply h.skip (Nat.le_succ p)
  intro k low high
  obtain rfl : k = p := by omega
  exact none

theorem IsFirst.none_of {has has' : Nat → Prop} {p : Nat} (h : IsFirst has p none)
    (weaker : ∀ k, has' k → has k) : IsFirst has' p none :=
  fun k low here => h k low (weaker k here)

theorem IsFirst.follow {has has' : Nat → Prop} {p q : Nat} {r : Option Nat}
    (h : IsFirst has p (some q)) (weaker : ∀ k, has' k → has k) (rest : IsFirst has' q r) :
    IsFirst has' p r :=
  rest.skip h.1 fun k low high here => h.2.2 k low high (weaker k here)

theorem seek_eq {b : UInt8} (some_ : b ≠ 0) {fuel p : Nat} (place : p ≤ h.bytes.length)
    (enough : h.bytes.length < fuel + p) :
    ∃ r, seek h b fuel p = some r ∧ IsFirst (h.char · = b) p r := by
  induction fuel generalizing p with
  | zero => omega
  | succ fuel ih =>
    rw [seek, fetch_eq place]
    simp only [Option.bind_eq_bind, Option.bind_some, Option.pure_def]
    by_cases ended : h.char p = 0
    · refine ⟨none, if_pos ended, fun k past here => some_ ?_⟩
      rw [← here, char_eq_zero_iff]
      exact Nat.le_trans (char_eq_zero_iff.mp ended) past
    rw [if_neg ended]
    by_cases here : h.char p = b
    · exact ⟨some p, if_pos here, .here here⟩
    · rw [if_neg here]
      obtain ⟨r, eq, first⟩ := ih (char_ne_zero ended) (by omega)
      exact ⟨r, eq, first.next here⟩

def Pair (h : Text) (b c : UInt8) (p : Nat) : Prop := h.char p = b ∧ h.char (p + 1) = c

theorem no_pair {b c : UInt8} (some_ : b ≠ 0) {p : Nat} (ended : h.char p = 0) :
    IsFirst (Pair h b c) p none := by
  intro k past here
  apply some_
  rw [← here.1, char_eq_zero_iff]
  exact Nat.le_trans (char_eq_zero_iff.mp ended) past

theorem hunt_eq {b c : UInt8} (first : b ≠ 0) {fuel p : Nat}
    (place : p ≤ h.bytes.length) (enough : h.bytes.length < fuel + p) :
    ∃ r, hunt h b c fuel (h.char p) p = some (r.map (· + 1)) ∧ IsFirst (Pair h b c) p r := by
  induction fuel generalizing p with
  | zero => omega
  | succ fuel ih =>
    rw [hunt]
    simp only [Option.bind_eq_bind, Option.pure_def]
    by_cases here : h.char p = b
    · have next : p + 1 ≤ h.bytes.length := char_ne_zero (here ▸ first)
      rw [if_pos here, fetch_eq next]
      simp only [Option.bind_some]
      by_cases then_ : h.char (p + 1) = c
      · exact ⟨some p, if_pos then_, .here ⟨here, then_⟩⟩
      · rw [if_neg then_]
        obtain ⟨r, eq, pair⟩ := ih next (by omega)
        exact ⟨r, eq, pair.next fun h => then_ h.2⟩
    rw [if_neg here]
    by_cases ended : h.char p = 0
    · exact ⟨none, if_pos ended, no_pair first ended⟩
    have next : p + 1 ≤ h.bytes.length := char_ne_zero ended
    rw [if_neg ended, fetch_eq next]
    simp only [Option.bind_some]
    have past {r : Option Nat} (pair : IsFirst (Pair h b c) (p + 1) r) :
        IsFirst (Pair h b c) p r := pair.next fun h => here h.1
    by_cases start : h.char (p + 1) = b
    · rw [if_pos start]
      obtain ⟨r, eq, pair⟩ := ih next (by omega)
      exact ⟨r, eq, past pair⟩
    rw [if_neg start]
    by_cases ended' : h.char (p + 1) = 0
    · exact ⟨none, if_pos ended', past (no_pair first ended')⟩
    · have next' : p + 2 ≤ h.bytes.length := char_ne_zero ended'
      rw [if_neg ended', fetch_eq next']
      simp only [Option.bind_some]
      obtain ⟨r, eq, pair⟩ := ih next' (by omega)
      exact ⟨r, eq, past (pair.next fun h => start h.1)⟩

def Occurs (h n : Text) (p : Nat) : Prop := Agrees h n p 0

theorem occurs_iff {p : Nat} (first : n.char 0 ≠ 0) (second : n.char 1 ≠ 0) :
    Occurs h n p ↔ Pair h (n.char 0) (n.char 1) p ∧ Agrees h n (p + 2) 2 := by
  rw [Occurs, agrees_cons first, agrees_cons second, Pair, and_assoc]

theorem crest_eq (first : n.char 0 ≠ 0) (second : n.char 1 ≠ 0) {bound fuel p : Nat}
    (pair : Pair h (n.char 0) (n.char 1) p) (enough : h.bytes.length ≤ fuel + p)
    (bounded : h.bytes.length < bound) :
    ∃ r, crest h n (n.char 0) (n.char 1) bound fuel (p + 1) = some r ∧
      IsFirst (Occurs h n) p r := by
  have inside : p + 1 < h.bytes.length := char_ne_zero (pair.2 ▸ second)
  induction fuel generalizing p with
  | zero => omega
  | succ fuel ih =>
    obtain ⟨found, compared, agrees⟩ := compare_eq inside (char_ne_zero second)
      (show n.bytes.length < n.bytes.length + 1 + 2 by omega)
    rw [crest, compared]
    simp only [Option.bind_eq_bind, Option.bind_some, Option.pure_def, Nat.add_sub_cancel]
    by_cases here : Agrees h n (p + 2) 2
    · have occurs : Occurs h n p := (occurs_iff first second).mpr ⟨pair, here⟩
      exact ⟨some p, if_pos (agrees.mpr here), .here occurs⟩
    · rw [if_neg fun h => here (agrees.mp h), fetch_eq (Nat.le_of_lt inside)]
      have not_here : ¬ Occurs h n p := fun h => here ((occurs_iff first second).mp h).2
      have weaker (k : Nat) (occurs : Occurs h n k) : Pair h (n.char 0) (n.char 1) k :=
        ((occurs_iff first second).mp occurs).1
      obtain ⟨r, hunted, next⟩ := hunt_eq (c := n.char 1) first (Nat.le_of_lt inside)
        (Nat.lt_of_lt_of_le bounded (Nat.le_add_right _ _))
      simp only [Option.bind_some, hunted]
      cases r with
      | none => exact ⟨none, rfl, (next.none_of weaker).next not_here⟩
      | some q =>
        have inside' : q + 1 < h.bytes.length := char_ne_zero (next.2.1.2 ▸ second)
        have after := next.1
        obtain ⟨r, eq, occurs⟩ := ih next.2.1 (by omega) inside'
        exact ⟨r, eq, (next.follow weaker occurs).next not_here⟩

theorem strstr_eq : ∃ r, strstr h n = some r ∧ IsFirst (Occurs h n) 0 r := by
  unfold strstr
  rw [fetch_eq (Nat.zero_le _)]
  simp only [Option.bind_eq_bind, Option.bind_some, Option.pure_def]
  by_cases empty : n.char 0 = 0
  · exact ⟨some 0, if_pos empty, .here (agrees_end empty)⟩
  rw [if_neg empty]
  obtain ⟨r, sought, start⟩ := seek_eq empty (Nat.zero_le h.bytes.length)
    (Nat.lt_succ_self h.bytes.length)
  have weaker (k : Nat) (occurs : Occurs h n k) : h.char k = n.char 0 :=
    ((agrees_cons empty).mp occurs).1
  rw [sought]
  cases r with
  | none => exact ⟨none, rfl, start.none_of weaker⟩
  | some p =>
    have next : p + 1 ≤ h.bytes.length := char_ne_zero (start.2.1 ▸ empty)
    simp only [Option.bind_some, fetch_eq (show 1 ≤ n.bytes.length from char_ne_zero empty)]
    by_cases single : n.char 1 = 0
    · refine ⟨some p, if_pos single, start.follow weaker (.here ?_)⟩
      exact (agrees_cons empty).mpr ⟨start.2.1, agrees_end single⟩
    rw [if_neg single, fetch_eq next]
    simp only [Option.bind_some]
    have pairs (k : Nat) (occurs : Occurs h n k) : Pair h (n.char 0) (n.char 1) k :=
      ((occurs_iff empty single).mp occurs).1
    by_cases here : h.char (p + 1) = n.char 1
    · rw [if_pos here]
      obtain ⟨r, eq, occurs⟩ := crest_eq empty single ⟨start.2.1, here⟩
        (show h.bytes.length ≤ h.bytes.length + 1 + p by omega) (Nat.lt_succ_self _)
      exact ⟨r, eq, start.follow weaker occurs⟩
    · rw [if_neg here]
      obtain ⟨r, hunted, pair⟩ := hunt_eq (c := n.char 1) empty next
        (show h.bytes.length < h.bytes.length + 1 + (p + 1) by omega)
      have not_here : ¬ Occurs h n p := fun occurs => here (pairs p occurs).2
      simp only [Option.bind_some, hunted]
      cases r with
      | none => exact ⟨none, rfl, start.follow weaker ((pair.none_of pairs).next not_here)⟩
      | some q =>
        obtain ⟨r, eq, occurs⟩ := crest_eq empty single pair.2.1
          (show h.bytes.length ≤ h.bytes.length + 1 + q by omega) (Nat.lt_succ_self _)
        exact ⟨r, eq, start.follow weaker ((pair.follow pairs occurs).next not_here)⟩

theorem occurs_iff_leads {p : Nat} : Occurs h n p ↔ n.bytes <+: h.bytes.drop p := by
  rw [List.prefix_iff_getElem?]
  have here {k : Nat} (inside : k < n.bytes.length) :
      h.char (p + k) = n.char k ↔ (h.bytes.drop p)[k]? = some n.bytes[k] := by
    have needle : n.char k = n.bytes[k] := by
      rw [Text.char, List.getD_eq_getElem?_getD, List.getElem?_eq_getElem inside, Option.getD_some]
    rw [List.getElem?_drop, needle, Text.char, List.getD_eq_getElem?_getD]
    cases found : h.bytes[p + k]? with
    | some x => simp
    | none =>
      refine iff_of_false (fun zero => n.nonzero ?_) (by simp)
      rw [Option.getD_none] at zero
      rw [zero]
      exact List.getElem_mem inside
  constructor
  · intro occurs k inside
    have agrees := occurs k (by omega)
    rw [Nat.zero_add] at agrees
    exact (here inside).mp agrees
  · intro stands k inside
    rw [Nat.zero_add] at inside ⊢
    exact (here inside).mpr (stands k inside)

theorem IsFirst.eq_find {has : Nat → Prop} {test : Nat → Bool} (same : ∀ p, test p = true ↔ has p)
    {bound : Nat} (inside : ∀ p, (∀ k, k < p → ¬ has k) → has p → p < bound) {r : Option Nat}
    (h : IsFirst has 0 r) : r = (List.range bound).find? test := by
  symm
  cases r with
  | some p =>
    rw [List.find?_range_eq_some]
    obtain ⟨-, here, first⟩ := h
    refine ⟨(same p).mpr here, List.mem_range.mpr (inside p (fun k => first k k.zero_le) here), ?_⟩
    intro k less
    simpa using fun hit => first k k.zero_le less ((same k).mp hit)
  | none =>
    rw [List.find?_eq_none]
    exact fun p _ hit => h p p.zero_le ((same p).mp hit)

/-- `strstr` returns the first place where the needle stands in the haystack, and reads nothing
    beyond the end of either. -/
theorem strstr_first (h n : Text) :
    strstr h n = some ((List.range (h.bytes.length + 1)).find? fun p =>
      n.bytes.isPrefixOf (h.bytes.drop p)) := by
  obtain ⟨r, eq, first⟩ := strstr_eq (h := h) (n := n)
  rw [eq]
  congr 1
  apply first.eq_find
  · intro p earlier here
    by_contra past
    rw [occurs_iff_leads, List.drop_eq_nil_of_le (by omega), List.prefix_nil] at here
    apply earlier 0 (by omega)
    rw [occurs_iff_leads, here]
    exact List.nil_prefix
  · intro p
    rw [List.isPrefixOf_iff_prefix, occurs_iff_leads]

end Strstr
