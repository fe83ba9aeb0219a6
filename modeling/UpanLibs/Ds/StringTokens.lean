import UpanLibs.Ds.StringText
import Mathlib.Data.List.Infix

/-!
`find`, `substr` and `tokenize` of `upan::string`, on texts without the byte zero that are
shorter than the range of an `int`.
-/
namespace StringText

/-- `find(char)`: the position, or -1. -/
def findChar (c : UInt8) (s : Bytes) : Int :=
  match find c s with
  | some pos => pos
  | none => -1

/-- The inner loop of `find`: where the texts differ, at most the length of the shorter one. -/
def mismatch : Bytes → Bytes → Nat
  | b :: rest, c :: str => if b ≠ c then 0 else mismatch rest str + 1
  | _, _ => 0

/-- The loop of `find` from position `s` on, where `rest` is left. -/
def findFrom (str : Bytes) : Bytes → Nat → Int
  | [], s => if 0 < str.length then -1 else s
  | b :: rest, s =>
      if (b :: rest).length < str.length then -1
      else if mismatch (b :: rest) str = str.length then s
      else findFrom str rest (s + 1)

/-- `find(const string&)`. -/
def findStr (str s : Bytes) : Int :=
  if str.length = 0 then -1
  else
    match str with
    | [c] => findChar c s
    | _ => findFrom str s 0

/-- `substr(start, len)`. -/
def substr (s : Bytes) (start len : Int) : Bytes :=
  if start < 0 ∨ len ≤ 0 ∨ start ≥ s.length then []
  else
    let remaining := s.length - start
    let len := if len > remaining then remaining else len
    (s.drop start.toNat).take len.toNat

/-- `substr(start)`. -/
def substrTo (s : Bytes) (start : Int) : Bytes := substr s start (s.length - start)

variable {d s t : Bytes} {c : UInt8} {n : Nat}

theorem mismatch_iff : mismatch s d = d.length ↔ d <+: s := by
  induction s generalizing d with
  | nil =>
    cases d with
    | nil => simp [mismatch]
    | cons c d => simp [mismatch]
  | cons b s ih =>
    cases d with
    | nil => simp [mismatch]
    | cons c d =>
      rw [mismatch, List.cons_prefix_cons]
      split
      next apart => simp [Ne.symm apart]
      next same =>
        have same : b = c := not_not.mp same
        rw [List.length_cons, Nat.add_right_cancel_iff, ih]
        simp [same]

/-- `d` is at position `n` of `s`, and at no position before. -/
structure FirstAt (d s : Bytes) (n : Nat) : Prop where
  here : d <+: s.drop n
  before : ∀ m < n, ¬ d <+: s.drop m

theorem infix_iff : d <:+: s ↔ ∃ n, d <+: s.drop n := by
  constructor
  · rintro ⟨front, back, rfl⟩
    refine ⟨front.length, ?_⟩
    rw [List.append_assoc, List.drop_left]
    exact List.prefix_append d back
  · rintro ⟨n, here⟩
    exact here.isInfix.trans (List.drop_suffix n s).isInfix

theorem FirstAt.unique {m : Nat} (first : FirstAt d s n) (second : FirstAt d s m) : n = m := by
  rcases Nat.lt_trichotomy n m with less | same | more
  · exact absurd first.here (second.before n less)
  · exact same
  · exact absurd second.here (first.before m more)

/-- A search from position `k` on finds the first occurrence from there on. -/
def Found (d s : Bytes) (k : Nat) (r : Int) : Prop :=
  (∃ n, r = (k + n : Nat) ∧ FirstAt d s n) ∨ r = -1 ∧ ¬ d <:+: s

theorem found_findFrom (some_ : d ≠ []) (k : Nat) : Found d s k (findFrom d s k) := by
  have positive : 0 < d.length := List.length_pos_iff.mpr some_
  induction s generalizing k with
  | nil =>
    rw [findFrom, if_pos positive]
    refine .inr ⟨rfl, ?_⟩
    intro here
    exact some_ (List.infix_nil.mp here)
  | cons b s ih =>
    rw [findFrom]
    split
    next short =>
      refine .inr ⟨rfl, ?_⟩
      intro here
      have := here.length_le
      omega
    next =>
      split
      next here =>
        refine .inl ⟨0, rfl, mismatch_iff.mp here, ?_⟩
        intro m before
        exact absurd before (Nat.not_lt_zero m)
      next apart =>
        have apart : ¬ d <+: b :: s := fun here => apart (mismatch_iff.mpr here)
        rcases ih (k + 1) with ⟨n, at_, first⟩ | ⟨none_, absent⟩
        · refine .inl ⟨n + 1, by rw [at_]; congr 1; omega, first.here, ?_⟩
          intro m before
          cases m with
          | zero => exact apart
          | succ m => exact first.before m (by omega)
        · refine .inr ⟨none_, ?_⟩
          rw [List.infix_cons_iff]
          rintro (here | later)
          · exact apart here
          · exact absent later

theorem found_findChar : Found [c] s 0 (findChar c s) := by
  rw [findChar]
  cases found : find c s with
  | none =>
    refine .inr ⟨rfl, ?_⟩
    intro here
    have member : c ∈ s := here.subset List.mem_cons_self
    rw [find, List.findIdx?_eq_none_iff] at found
    exact absurd (found c member) (by simp)
  | some pos =>
    rw [find, List.findIdx?_eq_some_iff_getElem] at found
    obtain ⟨inside, same, before⟩ := found
    refine .inl ⟨pos, by simp, ?_, ?_⟩
    · rw [List.drop_eq_getElem_cons inside, List.cons_prefix_cons]
      exact ⟨(beq_iff_eq.mp same).symm, List.nil_prefix⟩
    · intro m less here
      have inside' : m < s.length := by omega
      rw [List.drop_eq_getElem_cons inside', List.cons_prefix_cons] at here
      exact before m less (beq_iff_eq.mpr here.1.symm)

theorem found_findStr (some_ : d ≠ []) : Found d s 0 (findStr d s) := by
  unfold findStr
  rw [if_neg (by simpa using some_)]
  split
  next c => exact found_findChar
  next => exact found_findFrom some_ 0

/-! The parts of a text around a first occurrence. -/

theorem length_substrTo_lt {delim next : Bytes} (found : ¬ findStr delim next < 0) :
    (substrTo next (findStr delim next + delim.length)).length < next.length := by
  have some_ : delim ≠ [] := by
    rintro rfl
    exact found (show (-1 : Int) < 0 by decide)
  have positive : 0 < delim.length := List.length_pos_iff.mpr some_
  have there : ∃ n : Nat, findStr delim next = n ∧ FirstAt delim next n := by
    rcases found_findStr (s := next) some_ with ⟨n, at_, first⟩ | ⟨none_, _⟩
    · exact ⟨n, by simpa using at_, first⟩
    · omega
  obtain ⟨n, at_, first⟩ := there
  have room := first.here.length_le
  rw [List.length_drop] at room
  rw [substrTo, substr]
  split
  · simp only [List.length_nil]
    omega
  · simp only [List.length_take, List.length_drop]
    omega

/-- The tokens that `tokenize` pushes, `next` being the text that is left. -/
def tokenize (delim : Bytes) (filterEmpty : Bool) (next : Bytes) : List Bytes :=
  let pos := findStr delim next
  if _found : pos < 0 then
    if !filterEmpty || next.length > 0 then [next] else []
  else
    let firstToken := substr next 0 pos
    let rest := tokenize delim filterEmpty (substrTo next (pos + delim.length))
    if !filterEmpty || firstToken.length > 0 then firstToken :: rest else rest
termination_by next.length
decreasing_by exact length_substrTo_lt _found

theorem substr_front (front after : Bytes) : substr (front ++ after) 0 front.length = front := by
  rw [substr]
  split
  next out =>
    rw [List.length_append] at out
    have empty : front.length = 0 := by omega
    exact (List.length_eq_zero_iff.mp empty).symm
  next =>
    have size : (if (front.length : Int) > ((front ++ after).length : Int) - 0 then
        ((front ++ after).length : Int) - 0 else front.length).toNat = front.length := by
      rw [List.length_append]
      split <;> omega
    simp only [size, Int.toNat_zero, List.drop_zero, List.take_left]

theorem substrTo_back (front after : Bytes) : substrTo (front ++ after) front.length = after := by
  rw [substrTo, substr]
  split
  next out =>
    rw [List.length_append] at out
    have empty : after.length = 0 := by omega
    exact (List.length_eq_zero_iff.mp empty).symm
  next =>
    have size : (if ((front ++ after).length : Int) - front.length
          > ((front ++ after).length : Int) - front.length then
        ((front ++ after).length : Int) - front.length
        else ((front ++ after).length : Int) - front.length).toNat = after.length := by
      rw [List.length_append]
      split <;> omega
    simp only [size, Int.toNat_natCast, List.drop_left, List.take_length]

theorem FirstAt.split (some_ : d ≠ []) (first : FirstAt d s n) :
    ∃ front after, s = front ++ d ++ after ∧ front.length = n ∧ ¬ d <:+: front := by
  obtain ⟨after, rest⟩ := first.here
  have positive : 0 < d.length := List.length_pos_iff.mpr some_
  have room := first.here.length_le
  rw [List.length_drop] at room
  refine ⟨s.take n, after, ?_, ?_, ?_⟩
  · rw [List.append_assoc, rest, List.take_append_drop]
  · rw [List.length_take]
    omega
  · intro inside
    obtain ⟨m, here⟩ := infix_iff.mp inside
    have short := here.length_le
    rw [List.length_drop, List.length_take] at short
    apply first.before m (by omega)
    rw [List.drop_take] at here
    exact here.trans (List.take_prefix _ _)

theorem tokenize_cases (some_ : d ≠ []) (s : Bytes) :
    (¬ d <:+: s ∧ ∀ filterEmpty,
        tokenize d filterEmpty s = if !filterEmpty || s.length > 0 then [s] else [])
      ∨ ∃ front after, s = front ++ d ++ after ∧ ¬ d <:+: front ∧ after.length < s.length
        ∧ ∀ filterEmpty, tokenize d filterEmpty s
          = (if !filterEmpty || front.length > 0 then [front] else [])
            ++ tokenize d filterEmpty after := by
  rcases found_findStr (s := s) some_ with ⟨n, at_, first⟩ | ⟨none_, absent⟩
  · right
    obtain ⟨front, after, split, size, plain⟩ := first.split some_
    have positive : 0 < d.length := List.length_pos_iff.mpr some_
    have pos : findStr d s = front.length := by rw [at_, Nat.zero_add, size]
    have head : substr s 0 (findStr d s) = front := by
      rw [pos, split, List.append_assoc, substr_front]
    have tail : substrTo s (findStr d s + d.length) = after := by
      have back := substrTo_back (front ++ d) after
      rwa [← split, List.length_append, Int.natCast_add, ← pos] at back
    have shorter : after.length < s.length := by
      rw [split, List.length_append, List.length_append]
      omega
    refine ⟨front, after, split, plain, shorter, fun filterEmpty => ?_⟩
    rw [tokenize, dif_neg (by omega), head, tail]
    simp only
    split <;> rfl
  · left
    refine ⟨absent, fun filterEmpty => ?_⟩
    rw [tokenize, dif_pos (by rw [none_]; decide)]

theorem tokenize_ne_nil (some_ : d ≠ []) (s : Bytes) : tokenize d false s ≠ [] := by
  rcases tokenize_cases some_ s with ⟨_, same⟩ | ⟨front, after, _, _, _, same⟩
  · rw [same]
    simp
  · rw [same]
    simp

theorem intercalate_tokenize (some_ : d ≠ []) (s : Bytes) :
    d.intercalate (tokenize d false s) = s := by
  induction size : s.length using Nat.strongRecOn generalizing s with
  | ind k ih =>
    rcases tokenize_cases some_ s with ⟨_, same⟩ | ⟨front, after, split, _, shorter, same⟩
    · rw [same]
      simp [List.intercalate]
    · have rest := ih after.length (by omega) after rfl
      rw [same]
      cases more : tokenize d false after with
      | nil => exact absurd more (tokenize_ne_nil some_ after)
      | cons t ts =>
        rw [more] at rest
        rw [split, ← rest]
        simp [List.intercalate]

theorem plain_tokens (some_ : d ≠ []) (s : Bytes) : ∀ t ∈ tokenize d false s, ¬ d <:+: t := by
  induction size : s.length using Nat.strongRecOn generalizing s with
  | ind k ih =>
    intro t member
    rcases tokenize_cases some_ s with ⟨absent, same⟩ | ⟨front, after, _, plain, shorter, same⟩
    · rw [same] at member
      obtain rfl : t = s := by simpa using member
      exact absent
    · rw [same] at member
      have member : t = front ∨ t ∈ tokenize d false after := by simpa using member
      cases member with
      | inl first =>
        rw [first]
        exact plain
      | inr later => exact ih after.length (by omega) after rfl t later

theorem tokenize_filter (some_ : d ≠ []) (s : Bytes) :
    tokenize d true s = (tokenize d false s).filter fun t => t ≠ [] := by
  induction size : s.length using Nat.strongRecOn generalizing s with
  | ind k ih =>
    have pushed : ∀ t : Bytes, (if !true || decide (t.length > 0) then [t] else [])
        = (if !false || decide (t.length > 0) then [t] else []).filter fun t => t ≠ [] := by
      intro t
      cases t <;> simp
    rcases tokenize_cases some_ s with ⟨_, same⟩ | ⟨front, after, _, _, shorter, same⟩
    · rw [same, same, pushed]
    · rw [same, same, List.filter_append, ← pushed, ih after.length (by omega) after rfl]

theorem find_tokenize_spec (d s : Bytes) (some_ : d ≠ []) :
    (∀ n : Nat, findStr d s = n ↔ FirstAt d s n)
      ∧ (findStr d s = -1 ↔ ¬ d <:+: s)
      ∧ d.intercalate (tokenize d false s) = s
      ∧ (∀ t ∈ tokenize d false s, ¬ d <:+: t)
      ∧ tokenize d true s = (tokenize d false s).filter fun t => t ≠ [] := by
  refine ⟨?_, ?_, intercalate_tokenize some_ s, plain_tokens some_ s, tokenize_filter some_ s⟩
  · intro n
    rcases found_findStr (s := s) some_ with ⟨m, at_, first⟩ | ⟨none_, absent⟩
    · constructor
      · intro same
        have same : n = m := by omega
        rw [same]
        exact first
      · intro other
        rw [at_, other.unique first, Nat.zero_add]
    · constructor
      · intro same
        omega
      · intro first
        exact absurd (infix_iff.mpr ⟨n, first.here⟩) absent
  · rcases found_findStr (s := s) some_ with ⟨m, at_, first⟩ | ⟨none_, absent⟩
    · constructor
      · intro none_
        omega
      · intro absent
        exact absurd (infix_iff.mpr ⟨m, first.here⟩) absent
    · exact ⟨fun _ => absent, fun _ => none_⟩

def commas : Bytes := [44, 44]

/-- `a,,,b`, which has two commas at two places. -/
def threeCommas : Bytes := [97, 44, 44, 44, 98]

theorem find_tokenize_spec_commas :
    (∀ n : Nat, findStr commas threeCommas = n ↔ FirstAt commas threeCommas n)
      ∧ (findStr commas threeCommas = -1 ↔ ¬ commas <:+: threeCommas)
      ∧ commas.intercalate (tokenize commas false threeCommas) = threeCommas
      ∧ (∀ t ∈ tokenize commas false threeCommas, ¬ commas <:+: t)
      ∧ tokenize commas true threeCommas
        = (tokenize commas false threeCommas).filter fun t => t ≠ [] :=
  find_tokenize_spec commas threeCommas (by decide)

end StringText
