import Mathlib.Data.List.Basic
import Mathlib.Data.List.Range
import Mathlib.Tactic.Common

/-!
`strtok_c`, with the calls that it makes to the copy function. Positions and counts are taken
below the range of an `int`.
-/
namespace Strtok

/-- The arguments of a call of `tc_copy`, with the place of the token in the source. -/
structure Call where
  index : Nat
  start : Nat
  len : Nat
  deriving DecidableEq, Repr

def Call.stop (t : Call) : Nat := t.start + t.len

structure State where
  index : Nat
  iStartIndex : Nat
  iTokenIndex : Nat
  bGroupStarted : Bool
  calls : List Call
  deriving DecidableEq, Repr

def State.copy (s : State) : State :=
  if s.index - s.iStartIndex > 0 then
    { s with
      calls := s.calls ++ [⟨s.iTokenIndex, s.iStartIndex, s.index - s.iStartIndex⟩]
      iTokenIndex := s.iTokenIndex + 1 }
  else s

variable (tok group : UInt8 → Bool)

def step (c : UInt8) (s : State) : State :=
  if group c then
    let s := s.copy
    let bGroupStarted := if !s.bGroupStarted then true else false
    { s with bGroupStarted, iStartIndex := s.index + 1, index := s.index + 1 }
  else if s.bGroupStarted then { s with index := s.index + 1 }
  else if tok c then
    let s := s.copy
    { s with iStartIndex := s.index + 1, index := s.index + 1 }
  else { s with index := s.index + 1 }

def scan : List UInt8 → State → State
  | [], s => s
  | c :: rest, s => if c = 0 then s else scan rest (step tok group c s)

/-- The calls, and the number that is stored as the list size. -/
def strtok_c (src : List UInt8) : List Call × Nat :=
  let s := (scan tok group src ⟨0, 0, 0, false, []⟩).copy
  (s.calls, s.iTokenIndex)

/-! What the tokens are: the longest runs of the characters that are no group characters and no
separators outside a group. -/

variable (text : List UInt8)

def toggle (open_ : Bool) (c : UInt8) : Bool := if group c then !open_ else open_

/-- A group is open before position `p`. -/
def groupOpen (p : Nat) : Bool := (text.take p).foldl (toggle group) false

/-- The character at position `p` belongs to a token. -/
def Kept (p : Nat) : Prop :=
  ∃ c, text[p]? = some c ∧ group c = false ∧ (groupOpen group text p = true ∨ tok c = false)

def remaining : Bool → List UInt8 → List UInt8
  | _, [] => []
  | open_, c :: rest =>
      if group c then remaining (!open_) rest
      else if open_ || !tok c then c :: remaining open_ rest
      else remaining open_ rest

def piece (t : Call) : List UInt8 := (text.drop t.start).take t.len

structure Token (t : Call) : Prop where
  positive : 0 < t.len
  kept : ∀ p, t.start ≤ p → p < t.stop → Kept tok group text p
  left : t.start = 0 ∨ ¬ Kept tok group text (t.start - 1)
  right : ¬ Kept tok group text t.stop

structure Copied (k : Nat) (calls : List Call) : Prop where
  numbered : calls.map Call.index = List.range calls.length
  tokens : ∀ t ∈ calls, Token tok group text t
  ends : ∀ t ∈ calls, t.stop ≤ k
  apart : calls.Pairwise fun t u => t.stop < u.start
  covered : ∀ p < k, Kept tok group text p → ∃ t ∈ calls, t.start ≤ p ∧ p < t.stop
  joined : calls.flatMap (piece text) = remaining tok group false (text.take k)

/-- Everything before `iStartIndex` is copied, and a token lies from there on. -/
structure Scanned (s : State) : Prop where
  inside : s.index ≤ text.length
  started : s.iStartIndex ≤ s.index
  opened : s.bGroupStarted = groupOpen group text s.index
  count : s.iTokenIndex = s.calls.length
  copied : Copied tok group text s.iStartIndex s.calls
  kept : ∀ p, s.iStartIndex ≤ p → p < s.index → Kept tok group text p
  left : s.iStartIndex = 0 ∨ ¬ Kept tok group text (s.iStartIndex - 1)
  gap : ∀ t ∈ s.calls, t.stop < s.iStartIndex

variable {tok group text}

theorem remaining_concat (open_ : Bool) (front : List UInt8) (c : UInt8) :
    remaining tok group open_ (front ++ [c]) = remaining tok group open_ front
      ++ if !group c && (front.foldl (toggle group) open_ || !tok c) then [c] else [] := by
  induction front generalizing open_ with
  | nil =>
    simp only [List.nil_append, remaining, List.foldl_nil]
    cases group c <;> cases open_ <;> cases tok c <;> rfl
  | cons d front ih =>
    simp only [List.cons_append, remaining, List.foldl_cons]
    cases delimiter : group d with
    | true =>
      simp only [if_true, ih, toggle, delimiter]
    | false =>
      simp only [Bool.false_eq_true, if_false, ih, toggle, delimiter]
      split <;> simp only [List.cons_append]

theorem kept_iff (tok group : UInt8 → Bool) {c : UInt8} {p : Nat} (here : text[p]? = some c) :
    Kept tok group text p ↔ (!group c && (groupOpen group text p || !tok c)) = true := by
  simp only [Kept, here, Option.some.injEq]
  constructor
  · rintro ⟨d, rfl, plain, inside⟩
    cases inside with
    | inl inside => simp [plain, inside]
    | inr other => simp [plain, other]
  · intro kept
    simp only [Bool.and_eq_true, Bool.or_eq_true, Bool.not_eq_true'] at kept
    exact ⟨c, rfl, kept⟩

theorem not_kept_end {p : Nat} (out : text.length ≤ p) : ¬ Kept tok group text p := by
  rintro ⟨c, here, _⟩
  rw [List.getElem?_eq_none out] at here
  cases here

theorem groupOpen_succ {c : UInt8} {p : Nat} (here : text[p]? = some c) :
    groupOpen group text (p + 1) = toggle group (groupOpen group text p) c := by
  rw [groupOpen, List.take_add_one, here, List.foldl_append]
  rfl

theorem remaining_kept {p : Nat} (kept : Kept tok group text p) :
    remaining tok group false (text.take (p + 1))
      = remaining tok group false (text.take p) ++ (text.drop p).take 1 := by
  obtain ⟨c, here, _⟩ := id kept
  have one : (text.drop p).take 1 = [c] := by
    rw [List.drop_eq_getElem?_toList_append, here]
    rfl
  rw [List.take_add_one, here, Option.toList_some, remaining_concat, one]
  rw [kept_iff tok group here, groupOpen] at kept
  rw [if_pos kept]

theorem remaining_gone {p : Nat} (gone : ¬ Kept tok group text p) :
    remaining tok group false (text.take (p + 1)) = remaining tok group false (text.take p) := by
  cases here : text[p]? with
  | none => rw [List.take_add_one, here, Option.toList_none, List.append_nil]
  | some c =>
    rw [List.take_add_one, here, Option.toList_some, remaining_concat]
    rw [kept_iff tok group here, groupOpen] at gone
    rw [if_neg gone, List.append_nil]

theorem remaining_run {a n : Nat}
    (kept : ∀ p, a ≤ p → p < a + n → Kept tok group text p) :
    remaining tok group false (text.take (a + n))
      = remaining tok group false (text.take a) ++ (text.drop a).take n := by
  induction n with
  | zero => simp
  | succ n ih =>
    have one := remaining_kept (kept (a + n) (by omega) (by omega))
    rw [← Nat.add_assoc, one, ih fun p low high => kept p low (by omega), List.append_assoc,
      List.take_add, List.drop_drop]

theorem Copied.succ {k : Nat} {calls : List Call} (copied : Copied tok group text k calls)
    (gone : ¬ Kept tok group text k) : Copied tok group text (k + 1) calls := by
  refine { copied with ends := ?_, covered := ?_, joined := ?_ }
  · intro t member
    exact Nat.le_succ_of_le (copied.ends t member)
  · intro p before kept
    have apart : p ≠ k := by
      rintro rfl
      exact gone kept
    exact copied.covered p (by omega) kept
  · rw [copied.joined, remaining_gone gone]

variable {s : State}

theorem Scanned.copy (scanned : Scanned tok group text s)
    (gone : ¬ Kept tok group text s.index) :
    Copied tok group text s.index s.copy.calls ∧ s.copy.iTokenIndex = s.copy.calls.length
      ∧ s.copy.index = s.index ∧ s.copy.bGroupStarted = s.bGroupStarted := by
  have copied := scanned.copied
  have started := scanned.started
  rw [State.copy]
  split
  next some_ =>
    generalize len : s.index - s.iStartIndex = n at some_
    have size : s.index = s.iStartIndex + n := by omega
    have token : Token tok group text ⟨s.iTokenIndex, s.iStartIndex, n⟩ := by
      refine ⟨some_, ?_, scanned.left, ?_⟩
      · intro p low high
        exact scanned.kept p low (by simp only [Call.stop] at high; omega)
      · rw [Call.stop, ← size]
        exact gone
    refine ⟨?_, ?_, rfl, rfl⟩
    · constructor
      · rw [List.map_append, copied.numbered, List.length_append, List.length_singleton,
          List.range_succ, scanned.count]
        rfl
      · intro t member
        rw [List.mem_append, List.mem_singleton] at member
        rcases member with earlier | rfl
        · exact copied.tokens t earlier
        · exact token
      · intro t member
        rw [List.mem_append, List.mem_singleton] at member
        rcases member with earlier | rfl
        · exact (copied.ends t earlier).trans started
        · exact size.ge
      · rw [List.pairwise_append]
        refine ⟨copied.apart, List.pairwise_singleton _ _, ?_⟩
        intro t earlier u last
        rw [List.mem_singleton] at last
        subst last
        exact scanned.gap t earlier
      · intro p before kept
        by_cases old : p < s.iStartIndex
        · obtain ⟨t, earlier, here⟩ := copied.covered p old kept
          exact ⟨t, List.mem_append_left _ earlier, here⟩
        · refine ⟨_, List.mem_append_right _ List.mem_cons_self, by simp only; omega, ?_⟩
          simp only [Call.stop]
          omega
      · rw [List.flatMap_append, copied.joined, List.flatMap_singleton, piece, size,
          remaining_run fun p low high => scanned.kept p low (by omega)]
    · simp only [List.length_append, List.length_singleton, scanned.count]
  next none_ =>
    have same : s.iStartIndex = s.index := by omega
    rw [same] at copied
    exact ⟨copied, scanned.count, rfl, rfl⟩

theorem Scanned.skip {c : UInt8} (scanned : Scanned tok group text s)
    (here : text[s.index]? = some c) (plain : group c = false)
    (kept : Kept tok group text s.index) :
    Scanned tok group text { s with index := s.index + 1 } := by
  have less : s.index < text.length := (List.getElem?_eq_some_iff.mp here).1
  refine { scanned with inside := less, started := ?_, opened := ?_, kept := ?_ }
  · exact Nat.le_succ_of_le scanned.started
  · rw [groupOpen_succ here, toggle, plain, scanned.opened]
    rfl
  · intro p low high
    by_cases last : p = s.index
    · rw [last]
      exact kept
    · exact scanned.kept p low (by simp only at high; omega)

theorem Scanned.restart {c : UInt8} (scanned : Scanned tok group text s)
    (here : text[s.index]? = some c) (gone : ¬ Kept tok group text s.index)
    (started : Bool) (opened : started = toggle group s.bGroupStarted c) :
    Scanned tok group text
      { s.copy with
        bGroupStarted := started
        iStartIndex := s.index + 1
        index := s.index + 1 } := by
  have less : s.index < text.length := (List.getElem?_eq_some_iff.mp here).1
  obtain ⟨copied, count, _, _⟩ := scanned.copy gone
  constructor
  · exact less
  · exact Nat.le_refl (s.index + 1)
  · rw [groupOpen_succ here, ← scanned.opened, opened]
  · exact count
  · exact copied.succ gone
  · intro p low high
    exact absurd (Nat.lt_of_lt_of_le high low) (Nat.lt_irrefl p)
  · exact .inr gone
  · intro t member
    exact Nat.lt_succ_of_le (copied.ends t member)

theorem scanned_step {c : UInt8} (scanned : Scanned tok group text s)
    (here : text[s.index]? = some c) :
    Scanned tok group text (step tok group c s) ∧ (step tok group c s).index = s.index + 1 := by
  have kept := kept_iff tok group here
  rw [← scanned.opened] at kept
  have index : s.copy.index = s.index := by
    rw [State.copy]
    split <;> rfl
  have opened : s.copy.bGroupStarted = s.bGroupStarted := by
    rw [State.copy]
    split <;> rfl
  rw [step]
  cases delimiter : group c with
  | true =>
    have gone : ¬ Kept tok group text s.index := by simp [kept, delimiter]
    rw [if_pos rfl]
    simp only [index, opened]
    refine ⟨scanned.restart here gone _ ?_, trivial⟩
    rw [toggle, delimiter]
    cases s.bGroupStarted <;> rfl
  | false =>
    rw [if_neg Bool.false_ne_true]
    by_cases inGroup : s.bGroupStarted = true
    · rw [if_pos inGroup]
      exact ⟨scanned.skip here delimiter (kept.mpr (by simp [delimiter, inGroup])), rfl⟩
    · rw [if_neg inGroup]
      cases separator : tok c with
      | true =>
        have gone : ¬ Kept tok group text s.index := by
          simp [kept, delimiter, inGroup, separator]
        rw [if_pos rfl]
        simp only [index]
        refine ⟨scanned.restart here gone s.copy.bGroupStarted ?_, trivial⟩
        rw [opened, toggle, delimiter]
        rfl
      | false =>
        rw [if_neg Bool.false_ne_true]
        exact ⟨scanned.skip here delimiter (kept.mpr (by simp [delimiter, separator])), rfl⟩

theorem scanned_scan (after : List UInt8) (nulFree : (0 : UInt8) ∉ text) {rest : List UInt8}
    (scanned : Scanned tok group text s) (split : text.drop s.index = rest) :
    Scanned tok group text (scan tok group (rest ++ 0 :: after) s)
      ∧ (scan tok group (rest ++ 0 :: after) s).index = text.length := by
  induction rest generalizing s with
  | nil =>
    rw [List.nil_append, scan, if_pos rfl]
    have all := List.drop_eq_nil_iff.mp split
    exact ⟨scanned, Nat.le_antisymm scanned.inside all⟩
  | cons c rest ih =>
    have here : text[s.index]? = some c := by
      have first := congrArg List.head? split
      rwa [List.head?_drop] at first
    have member : c ∈ text := List.mem_of_getElem? here
    have graphic : c ≠ 0 := by
      rintro rfl
      exact nulFree member
    obtain ⟨next, index⟩ := scanned_step scanned here
    rw [List.cons_append, scan, if_neg graphic]
    apply ih next
    rw [index, ← List.drop_drop, split]
    rfl

theorem scanned_start (tok group : UInt8 → Bool) (text : List UInt8) :
    Scanned tok group text ⟨0, 0, 0, false, []⟩ := by
  have empty : Copied tok group text 0 [] := by
    refine ⟨rfl, by simp, by simp, .nil, ?_, rfl⟩
    intro p before
    exact absurd before (Nat.not_lt_zero p)
  refine ⟨Nat.zero_le _, Nat.le_refl 0, rfl, rfl, empty, ?_, .inl rfl, by simp⟩
  intro p _ high
  exact absurd high (Nat.not_lt_zero p)

theorem copied_strtok_c (tok group : UInt8 → Bool) (after : List UInt8) (nulFree : (0 : UInt8) ∉ text) :
    Copied tok group text text.length (strtok_c tok group (text ++ 0 :: after)).1
      ∧ (strtok_c tok group (text ++ 0 :: after)).2
        = (strtok_c tok group (text ++ 0 :: after)).1.length := by
  obtain ⟨scanned, ended⟩ := scanned_scan after nulFree (scanned_start tok group text)
    List.drop_zero
  have done := scanned.copy (by rw [ended]; exact not_kept_end (Nat.le_refl _))
  rw [ended] at done
  exact ⟨done.1, done.2.1⟩

theorem Copied.inGroup {calls : List Call} (copied : Copied tok group text text.length calls)
    {p : Nat} {c : UInt8} (here : text[p]? = some c) (plain : group c = false)
    (inGroup : groupOpen group text p = true) :
    ∃ t ∈ calls, (t.start ≤ p ∧ p < t.stop)
      ∧ (∀ d, text[p + 1]? = some d → group d = false → p + 1 < t.stop)
      ∧ ∀ q d, p = q + 1 → text[q]? = some d → group d = false → t.start ≤ q := by
  have less : p < text.length := (List.getElem?_eq_some_iff.mp here).1
  obtain ⟨t, member, low, high⟩ := copied.covered p less ⟨c, here, plain, .inl inGroup⟩
  have token := copied.tokens t member
  refine ⟨t, member, ⟨low, high⟩, ?_, ?_⟩
  · intro d next plain'
    have opened : groupOpen group text (p + 1) = true := by
      rw [groupOpen_succ here, toggle, plain, inGroup]
      rfl
    have kept : Kept tok group text (p + 1) := ⟨d, next, plain', .inl opened⟩
    have apart : p + 1 ≠ t.stop := by
      intro same
      exact token.right (same ▸ kept)
    omega
  · rintro q d rfl before plain'
    have opened : groupOpen group text q = true := by
      rw [groupOpen_succ before, toggle, plain'] at inGroup
      exact inGroup
    by_contra later
    have first : t.start = q + 1 := by omega
    cases token.left with
    | inl zero => omega
    | inr gone =>
      rw [first, Nat.add_sub_cancel] at gone
      exact gone ⟨d, before, plain', .inl opened⟩

/-- What the caller of `strtok_c` gets. -/
structure Tokenized (tok group : UInt8 → Bool) (text : List UInt8) (calls : List Call)
    (iListSize : Nat) : Prop where
  numbered : calls.map Call.index = List.range calls.length
  size : iListSize = calls.length
  substrings : ∀ t ∈ calls, 0 < t.len ∧ t.stop ≤ text.length
  increasing : calls.Pairwise fun t u => t.start < u.start ∧ t.stop ≤ u.start
  grouped : ∀ p c, text[p]? = some c → tok c = true → group c = false →
    groupOpen group text p = true →
    ∃ t ∈ calls, (t.start ≤ p ∧ p < t.stop)
      ∧ (∀ d, text[p + 1]? = some d → group d = false → p + 1 < t.stop)
      ∧ ∀ q d, p = q + 1 → text[q]? = some d → group d = false → t.start ≤ q
  joined : calls.flatMap (piece text) = remaining tok group false text

theorem strtok_c_spec (tok group : UInt8 → Bool) (text after : List UInt8)
    (nulFree : (0 : UInt8) ∉ text) :
    Tokenized tok group text (strtok_c tok group (text ++ 0 :: after)).1
      (strtok_c tok group (text ++ 0 :: after)).2 := by
  obtain ⟨copied, count⟩ := copied_strtok_c tok group after nulFree
  refine ⟨copied.numbered, count, ?_, ?_, ?_, ?_⟩
  · intro t member
    exact ⟨(copied.tokens t member).positive, copied.ends t member⟩
  · apply copied.apart.imp_of_mem
    intro t u first second apart
    have positive := (copied.tokens t first).positive
    simp only [Call.stop] at apart ⊢
    omega
  · intro p c here _ plain inGroup
    exact copied.inGroup here plain inGroup
  · have joined := copied.joined
    rw [List.take_length] at joined
    exact joined

theorem strtok_c_spec_quoted :
    Tokenized (· == 44) (· == 39) [97, 44, 39, 98, 44, 99, 39, 100]
      [⟨0, 0, 1⟩, ⟨1, 3, 3⟩, ⟨2, 7, 1⟩] 3 :=
  strtok_c_spec (· == 44) (· == 39) [97, 44, 39, 98, 44, 99, 39, 100] [] (by decide)

end Strtok
