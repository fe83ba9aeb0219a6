import Mathlib.Tactic.Ring
import UpanLibs.GapSort

/-!
`qsort`, a Shell sort that moves bytes, and `bsearch`. Offsets count from `base`; no sum or product
of theirs passes the size of the array, which the assertion of `qsort` keeps within a `size_t`. A
comparison is a function of the bytes of the two elements.
-/
namespace Stdlib

open GapSort (Rearranged Sorted)

abbrev Bytes := Nat → UInt8

def read (width : Nat) (m : Bytes) (p : Nat) : List UInt8 :=
  (List.range width).map fun k => m (p + k)

def element (width : Nat) (m : Bytes) (i : Nat) : List UInt8 := read width m (i * width)

def exchange (m : Bytes) (a b : Nat) : Nat → Bytes
  | 0 => m
  | k + 1 => exchange (fun p => if p = b then m a else if p = a then m b else m p) (a + 1) (b + 1) k

section Sorting

variable (comp : List UInt8 → List UInt8 → Int) (width : Nat)

/-- The innermost comparisons, from `j` down; the first `j` is not below the gap. -/
def sink (wgap : Nat) (m : Bytes) (j : Nat) : Bytes :=
  if _ : 0 < wgap ∧ wgap ≤ j then
    let a := j - wgap
    let b := a + wgap
    if comp (read width m a) (read width m b) ≤ 0 then m
    else sink wgap (exchange m a b width) (j - wgap)
  else m
termination_by j
decreasing_by omega

def pass (wgap wnel : Nat) (m : Bytes) (i : Nat) : Bytes :=
  let m := sink comp width wgap m i
  if _ : 0 < width ∧ i + width < wnel then pass wgap wnel m (i + width) else m
termination_by wnel - i
decreasing_by omega

def passes (wnel : Nat) (m : Bytes) (wgap : Nat) : Bytes :=
  let m := pass comp width wgap wnel m wgap
  if _ : (wgap - width) / 3 ≠ 0 then passes wnel m ((wgap - width) / 3) else m
termination_by wgap
decreasing_by omega

def firstGap (limit wgap : Nat) : Nat :=
  let wgap := 3 * wgap + 1
  if wgap < limit then firstGap limit wgap else wgap
termination_by limit - wgap
decreasing_by omega

def qsort (sizeMax : Nat) (m : Bytes) (nel : Nat) : Option Bytes :=
  if 1 < nel ∧ 0 < width then
    if nel ≤ sizeMax / width then
      some (passes comp width (nel * width) m (firstGap ((nel - 1) / 3) 0 * width))
    else none
  else some m

end Sorting

section Searching

variable (compar : List UInt8 → List UInt8 → Int) (key : List UInt8) (size : Nat) (m : Bytes)

def bsearchFrom (low high : Nat) : Option Nat :=
  if _ : low < high then
    let mid := low + (high - low) / 2
    let p := mid * size
    let r := compar key (read size m p)
    if 0 < r then bsearchFrom (mid + 1) high
    else if r < 0 then bsearchFrom low mid
    else some p
  else none
termination_by high - low
decreasing_by all_goals omega

def bsearch (high : Nat) : Option Nat :=
  if 0 < size then bsearchFrom compar key size m 0 high else none

end Searching

/-- What the comparison owes its callers, on the elements that it may meet. -/
structure Consistent (comp : List UInt8 → List UInt8 → Int) (met : List UInt8 → Prop) : Prop where
  flip : ∀ a b, met a → met b → (0 < comp a b ↔ comp b a < 0)
  trans : ∀ a b c, met a → met b → met c → comp a b ≤ 0 → comp b c ≤ 0 → comp a c ≤ 0

def Among (m : Bytes) (nel width : Nat) (x : List UInt8) : Prop :=
  ∃ i, i < nel ∧ element width m i = x

theorem exchange_apply (m : Bytes) {a b : Nat} (k : Nat) (apart : a + k ≤ b) (p : Nat) :
    exchange m a b k p =
      if a ≤ p ∧ p < a + k then m (b + (p - a))
      else if b ≤ p ∧ p < b + k then m (a + (p - b))
      else m p := by
  induction k generalizing m a b with
  | zero =>
    rw [if_neg (by omega), if_neg (by omega)]
    rfl
  | succ k ih =>
    rw [exchange, ih _ (by omega)]
    by_cases first : p = a
    · rw [if_neg (by omega), if_neg (by omega), if_neg (by omega), if_pos first,
        if_pos (by omega)]
      congr 1
      omega
    by_cases second : p = b
    · rw [if_neg (by omega), if_neg (by omega), if_pos second, if_neg (by omega),
        if_pos (by omega)]
      congr 1
      omega
    by_cases left : a ≤ p ∧ p < a + (k + 1)
    · rw [if_pos (by omega), if_neg (by omega), if_neg (by omega), if_pos left]
      congr 1
      omega
    by_cases right : b ≤ p ∧ p < b + (k + 1)
    · rw [if_neg (by omega), if_pos (by omega), if_neg (by omega), if_neg (by omega),
        if_neg left, if_pos right]
      congr 1
      omega
    · rw [if_neg (by omega), if_neg (by omega), if_neg second, if_neg first, if_neg left,
        if_neg right]

variable {width : Nat}

theorem mul_add_le (width : Nat) {i j : Nat} (less : i < j) : i * width + width ≤ j * width := by
  rw [← Nat.succ_mul]
  exact Nat.mul_le_mul_right width less

theorem in_element_iff (i j : Nat) {k : Nat} (less : k < width) :
    (i * width ≤ j * width + k ∧ j * width + k < i * width + width) ↔ j = i := by
  constructor
  · rintro ⟨above, below⟩
    obtain before | same | after := Nat.lt_trichotomy j i
    · have := mul_add_le width before
      omega
    · exact same
    · have := mul_add_le width after
      omega
  · rintro rfl
    omega

theorem element_exchange (m : Bytes) {i g : Nat} (positive : 0 < g) :
    element width (exchange m (i * width) ((i + g) * width) width) =
      GapSort.swap (element width m) i (i + g) := by
  funext j
  have bytes (k : Nat) (less : k < width) :
      exchange m (i * width) ((i + g) * width) width (j * width + k) =
        m (Equiv.swap i (i + g) j * width + k) := by
    rw [exchange_apply m width (mul_add_le width (by omega)), Equiv.swap_apply_def]
    simp only [in_element_iff _ j less]
    split
    next here =>
      subst here
      rw [Nat.add_sub_cancel_left]
    next =>
      split
      next here =>
        subst here
        rw [Nat.add_sub_cancel_left]
      next => rfl
  apply List.map_congr_left
  intro k mem
  exact bytes k (List.mem_range.mp mem)

variable {comp : List UInt8 → List UInt8 → Int}

/-- The comparison stops where the first of two elements may stay before the second. -/
def stays (comp : List UInt8 → List UInt8 → Int) (a b : List UInt8) : Bool := comp a b ≤ 0

theorem element_sink (some_ : 0 < width) {g : Nat} (positive : 0 < g) (m : Bytes) (j : Nat) :
    element width (sink comp width (g * width) m (j * width)) =
      GapSort.sink (stays comp) g (element width m) j := by
  induction j using Nat.strongRecOn generalizing m with
  | ind j ih =>
    rw [sink, GapSort.sink]
    by_cases here : g ≤ j
    · have bound : 0 < g * width ∧ g * width ≤ j * width :=
        ⟨Nat.mul_pos positive some_, Nat.mul_le_mul_right width here⟩
      obtain ⟨i, rfl⟩ : ∃ i, j = i + g := ⟨j - g, by omega⟩
      have back : (i + g) * width - g * width = i * width := by
        rw [Nat.add_mul, Nat.add_sub_cancel]
      rw [dif_pos bound, dif_pos ⟨positive, here⟩]
      simp only [back, ← Nat.add_mul, Nat.add_sub_cancel]
      have test : comp (read width m (i * width)) (read width m ((i + g) * width)) ≤ 0 ↔
          stays comp (element width m i) (element width m (i + g)) = true :=
        decide_eq_true_iff.symm
      rw [apply_ite (element width), ih i (by omega), element_exchange m positive]
      simp only [test]
    · have low : ¬ (0 < g * width ∧ g * width ≤ j * width) := by
        rw [Nat.mul_le_mul_right_iff some_]
        exact fun h => here h.2
      rw [dif_neg low, dif_neg fun h => here h.2]

theorem element_pass (some_ : 0 < width) {g n : Nat} (positive : 0 < g) (m : Bytes) (i : Nat)
    (inside : i < n) :
    element width (pass comp width (g * width) (n * width) m (i * width)) =
      GapSort.pass (stays comp) g n (element width m) i := by
  induction left : n - i generalizing m i with
  | zero => omega
  | succ d ih =>
    rw [pass, GapSort.pass, if_pos inside]
    simp only [← Nat.succ_mul, Nat.mul_lt_mul_right some_]
    by_cases more : i + 1 < n
    · rw [dif_pos ⟨some_, more⟩, ih _ (i + 1) more (by omega), element_sink some_ positive]
    · rw [dif_neg fun h => more h.2, element_sink some_ positive, GapSort.pass, if_neg more]

inductive Gap : Nat → Prop where
  | one : Gap 1
  | next {g : Nat} : Gap g → Gap (3 * g + 1)

theorem Gap.positive {g : Nat} (h : Gap g) : 0 < g := by
  cases h <;> omega

theorem firstGap_gap (limit : Nat) {wgap : Nat} (up : wgap = 0 ∨ Gap wgap ∧ wgap < limit) :
    Gap (firstGap limit wgap) ∧ (firstGap limit wgap = 1 ∨ firstGap limit wgap ≤ 3 * limit) := by
  have gap : Gap (3 * wgap + 1) := by
    obtain rfl | ⟨gap, -⟩ := up
    · exact .one
    · exact .next gap
  induction wgap using firstGap.induct limit with
  | case1 wgap next more ih =>
    rw [firstGap, if_pos more]
    exact ih (.inr ⟨gap, more⟩) (.next gap)
  | case2 wgap next done =>
    rw [firstGap, if_neg done]
    exact ⟨gap, by omega⟩

def Total (comp : List UInt8 → List UInt8 → Int) (n : Nat) (e : Nat → List UInt8) : Prop :=
  ∀ i, i < n → ∀ j, j < n → stays comp (e i) (e j) = false → comp (e j) (e i) ≤ 0

theorem Total.rearranged {n : Nat} {e e' : Nat → List UInt8} (total : Total comp n e)
    (h : Rearranged n e e') : Total comp n e' :=
  h.forall_pair (p := fun a b => stays comp a b = false → comp b a ≤ 0) total

/-- What a pass, or all of them from a gap on, make of the elements. -/
structure Arranged (comp : List UInt8 → List UInt8 → Int) (g n : Nat) (e e' : Nat → List UInt8) :
    Prop where
  rearranged : Rearranged n e e'
  sorted : Total comp n e → Sorted (fun a b => comp a b ≤ 0) g n e'

theorem pass_arranged (comp : List UInt8 → List UInt8 → Int) (some_ : 0 < width) {g n : Nat}
    (positive : 0 < g) (inside : g < n) (m : Bytes) : Arranged comp g n (element width m)
      (element width (pass comp width (g * width) (n * width) m (g * width))) := by
  rw [element_pass some_ positive m g inside]
  constructor
  · exact GapSort.pass_rearranged n _ g
  · intro total
    have reads (a b : List UInt8) (stay : stays comp a b = true) : comp a b ≤ 0 :=
      of_decide_eq_true stay
    refine GapSort.pass_sorted positive reads _ g total (fun i less => ?_) (Nat.le_of_lt inside)
    omega

theorem passes_arranged (comp : List UInt8 → List UInt8 → Int) (some_ : 0 < width) {g n : Nat}
    (gap : Gap g) (inside : g < n) (m : Bytes) :
    Arranged comp 1 n (element width m)
      (element width (passes comp width (n * width) m (g * width))) := by
  induction gap generalizing m with
  | one =>
    rw [passes, dif_neg (by simp)]
    exact pass_arranged comp some_ Nat.one_pos inside m
  | @next g gap ih =>
    have down : ((3 * g + 1) * width - width) / 3 = g * width := by
      rw [Nat.succ_mul, Nat.add_sub_cancel, Nat.mul_assoc, Nat.mul_div_cancel_left _ (by omega)]
    have more : g * width ≠ 0 := Nat.mul_ne_zero (Nat.ne_of_gt gap.positive) (Nat.ne_of_gt some_)
    have first := pass_arranged comp some_ (Gap.next gap).positive inside m
    rw [passes]
    simp only [down]
    rw [dif_pos more]
    have rest := ih (by omega) (pass comp width ((3 * g + 1) * width) (n * width) m
      ((3 * g + 1) * width))
    exact ⟨first.rearranged.trans rest.rearranged,
      fun total => rest.sorted (total.rearranged first.rearranged)⟩

theorem Consistent.total {nel : Nat} {m : Bytes}
    (consistent : Consistent comp (Among m nel width)) : Total comp nel (element width m) := by
  intro i less j below apart
  have greater : ¬ comp (element width m i) (element width m j) ≤ 0 := of_decide_eq_false apart
  have flip := consistent.flip _ _ ⟨i, less, rfl⟩ ⟨j, below, rfl⟩
  exact Int.le_of_lt (flip.mp (by omega))

theorem Consistent.self {met : List UInt8 → Prop} (consistent : Consistent comp met)
    {a : List UInt8} (here : met a) : comp a a ≤ 0 := by
  have flip := consistent.flip a a here here
  omega

theorem qsort_arranged (comp : List UInt8 → List UInt8 → Int) {sizeMax nel : Nat} (m : Bytes)
    (fits : nel * width ≤ sizeMax)
    (some_ : 0 < width) : ∃ m', qsort comp width sizeMax m nel = some m' ∧
      Arranged comp 1 nel (element width m) (element width m') := by
  unfold qsort
  by_cases more : 1 < nel
  · rw [if_pos ⟨more, some_⟩, if_pos ((Nat.le_div_iff_mul_le some_).mpr fits)]
    obtain ⟨gap, low⟩ := firstGap_gap ((nel - 1) / 3) (.inl rfl)
    exact ⟨_, rfl, passes_arranged comp some_ gap (by omega) m⟩
  · rw [if_neg fun h => more h.1]
    exact ⟨m, rfl, .refl nel _, fun _ i less => by omega⟩

theorem among_iff {m m' : Bytes} {nel : Nat}
    (h : Rearranged nel (element width m) (element width m')) (x : List UInt8) :
    Among m' nel width x ↔ Among m nel width x := h.exists_iff (· = x)

theorem Arranged.ordered {m m' : Bytes} {nel : Nat}
    (arranged : Arranged comp 1 nel (element width m) (element width m'))
    (consistent : Consistent comp (Among m nel width)) (i j : Nat) (less : i < j)
    (below : j < nel) : comp (element width m' i) (element width m' j) ≤ 0 := by
  apply (arranged.sorted consistent.total).all _ less below
  have among (i : Nat) (less : i < nel) : Among m nel width (element width m' i) :=
    (among_iff arranged.rearranged _).mp ⟨i, less, rfl⟩
  intro i low j mid k high
  exact consistent.trans _ _ _ (among i low) (among j mid) (among k high)

/-- `qsort` loses and adds no element and touches no byte after them, whatever the comparison says;
    the order is that of a consistent comparison. -/
theorem qsort_sorts {sizeMax nel : Nat} (m : Bytes) (fits : nel * width ≤ sizeMax) :
    ∃ m', qsort comp width sizeMax m nel = some m' ∧
      Rearranged nel (element width m) (element width m') ∧
      (∀ p, nel * width ≤ p → m' p = m p) ∧
      (Consistent comp (Among m nel width) →
        ∀ i j, i < j → j < nel → comp (element width m' i) (element width m' j) ≤ 0) := by
  by_cases some_ : 0 < width
  · obtain ⟨m', sorts, arranged⟩ := qsort_arranged comp m fits some_
    refine ⟨m', sorts, arranged.rearranged, fun p past => ?_, arranged.ordered⟩
    have same := arranged.rearranged.beyond ((Nat.le_div_iff_mul_le some_).mpr past)
    have byte := List.map_inj_left.mp same (p % width) (List.mem_range.mpr (Nat.mod_lt p some_))
    rw [Nat.mul_comm, Nat.div_add_mod] at byte
    exact byte
  · obtain rfl : width = 0 := by omega
    refine ⟨m, if_neg fun h => some_ h.2, .refl nel _, fun _ _ => rfl, ?_⟩
    intro consistent i j less below
    exact consistent.self ⟨i, by omega, rfl⟩

def numbers (a b : List UInt8) : Int :=
  let value := fun x : List UInt8 => x.foldr (fun d v => d.toNat + 256 * v) 0
  if value a < value b then -1 else if value b < value a then 1 else 0

theorem numbers_consistent (met : List UInt8 → Prop) : Consistent numbers met := by
  constructor
  · intro a b _ _
    dsimp only [numbers]
    split_ifs <;> omega
  · intro a b c _ _ _
    dsimp only [numbers]
    split_ifs <;> omega

def someNumbers : Bytes := fun p => [3, 1, 1, 1, 2, 0, 9].getD p 0

theorem qsort_sorts_numbers :
    ∃ m', qsort numbers 2 4294967295 someNumbers 3 = some m' ∧
      Rearranged 3 (element 2 someNumbers) (element 2 m') ∧ (∀ p, 6 ≤ p → m' p = someNumbers p) ∧
      ∀ i j, i < j → j < 3 → numbers (element 2 m' i) (element 2 m' j) ≤ 0 := by
  have fits : 3 * 2 ≤ 4294967295 := by decide
  obtain ⟨m', sorts, rearranged, beyond, ordered⟩ := qsort_sorts someNumbers fits
  exact ⟨m', sorts, rearranged, beyond, ordered (numbers_consistent _)⟩

section Searching

variable {compar : List UInt8 → List UInt8 → Int} {key : List UInt8} {m : Bytes} {n : Nat}

/-- Where the search cannot be, seen from an interval. -/
structure Outside (compar : List UInt8 → List UInt8 → Int) (key : List UInt8) (e : Nat → List UInt8)
    (n low high : Nat) : Prop where
  before : ∀ i, i < low → 0 < compar key (e i)
  after : ∀ i, high ≤ i → i < n → compar key (e i) < 0

structure Monotone (compar : List UInt8 → List UInt8 → Int) (key : List UInt8)
    (e : Nat → List UInt8) (n : Nat) : Prop where
  greater : ∀ i j, i ≤ j → j < n → 0 < compar key (e j) → 0 < compar key (e i)
  less : ∀ i j, i ≤ j → j < n → compar key (e i) < 0 → compar key (e j) < 0

def Found (compar : List UInt8 → List UInt8 → Int) (key : List UInt8) (width : Nat) (m : Bytes)
    (n : Nat) : Option Nat → Prop
  | some p => ∃ i, i < n ∧ p = i * width ∧ compar key (element width m i) = 0
  | none => ∀ i, i < n → compar key (element width m i) ≠ 0

theorem bsearchFrom_finds (monotone : Monotone compar key (element width m) n) {low high : Nat}
    (bound : high ≤ n) (outside : Outside compar key (element width m) n low high) :
    Found compar key width m n (bsearchFrom compar key width m low high) := by
  induction low, high using bsearchFrom.induct compar key width m with
  | case1 low high more mid p r greater ih =>
    rw [bsearchFrom, dif_pos more, if_pos greater]
    apply ih bound
    exact ⟨fun i low => monotone.greater i mid (by omega) (by omega) greater, outside.after⟩
  | case2 low high more mid p r greater less ih =>
    rw [bsearchFrom, dif_pos more, if_neg greater, if_pos less]
    apply ih (by omega)
    exact ⟨outside.before, fun i high low => monotone.less mid i high low less⟩
  | case3 low high more mid p r greater less =>
    rw [bsearchFrom, dif_pos more, if_neg greater, if_neg less]
    exact ⟨mid, by omega, rfl, Int.le_antisymm (Int.not_lt.mp greater) (Int.not_lt.mp less)⟩
  | case4 low high done =>
    rw [bsearchFrom, dif_neg done]
    intro i inside
    by_cases first : i < low
    · exact Int.ne_of_gt (outside.before i first)
    · exact Int.ne_of_lt (outside.after i (by omega) inside)

end Searching

theorem Consistent.mono {p q : List UInt8 → Prop} (consistent : Consistent comp p)
    (h : ∀ a, q a → p a) : Consistent comp q :=
  ⟨fun a b first second => consistent.flip a b (h a first) (h b second),
    fun a b c first second third => consistent.trans a b c (h a first) (h b second) (h c third)⟩

theorem Arranged.monotone {m m' : Bytes} {nel : Nat} {key : List UInt8}
    (arranged : Arranged comp 1 nel (element width m) (element width m'))
    (consistent : Consistent comp fun x => x = key ∨ Among m nel width x) :
    Monotone comp key (element width m') nel := by
  have among (i : Nat) (less : i < nel) :
      element width m' i = key ∨ Among m nel width (element width m' i) :=
    .inr ((among_iff arranged.rearranged _).mp ⟨i, less, rfl⟩)
  have order {i j : Nat} (upward : i ≤ j) (below : j < nel) :
      comp (element width m' i) (element width m' j) ≤ 0 := by
    obtain rfl | less := Nat.eq_or_lt_of_le upward
    · exact consistent.self (among i below)
    · exact arranged.ordered (consistent.mono fun _ => .inr) i j less below
  constructor
  · intro i j upward below greater
    by_contra stop
    have passed := consistent.trans key _ _ (.inl rfl) (among i (by omega)) (among j below)
      (by omega) (order upward below)
    omega
  · intro i j upward below less
    have flip (k : Nat) (inside : k < nel) := consistent.flip _ key (among k inside) (.inl rfl)
    by_contra stop
    have back : ¬ 0 < comp (element width m' j) key := fun h => stop ((flip j below).mp h)
    have passed := consistent.trans _ _ key (among i (by omega)) (among j below) (.inl rfl)
      (order upward below) (by omega)
    have ahead := (flip i (by omega)).mpr less
    omega

/-- After `qsort`, `bsearch` finds an element equal to the key whenever there was one before, and
    points to such an element. -/
theorem bsearch_after_qsort {sizeMax nel : Nat} (m : Bytes) (key : List UInt8)
    (some_ : 0 < width) (fits : nel * width ≤ sizeMax)
    (consistent : Consistent comp fun x => x = key ∨ Among m nel width x) :
    ∃ m', qsort comp width sizeMax m nel = some m' ∧
      ((bsearch comp key width m' nel).isSome ↔
        ∃ i, i < nel ∧ comp key (element width m i) = 0) ∧
      ∀ p, bsearch comp key width m' nel = some p →
        ∃ i, i < nel ∧ p = i * width ∧ comp key (element width m' i) = 0 := by
  obtain ⟨m', sorts, arranged⟩ := qsort_arranged comp m fits some_
  refine ⟨m', sorts, ?_⟩
  rw [bsearch, if_pos some_, ← arranged.rearranged.exists_iff (comp key · = 0)]
  have outside : Outside comp key (element width m') nel 0 nel :=
    ⟨fun i low => by omega, fun i high low => by omega⟩
  have found := bsearchFrom_finds (arranged.monotone consistent) (Nat.le_refl nel) outside
  cases result : bsearchFrom comp key width m' 0 nel with
  | some p =>
    rw [result] at found
    obtain ⟨i, inside, here, equal⟩ := found
    refine ⟨⟨fun _ => ⟨i, inside, equal⟩, fun _ => rfl⟩, ?_⟩
    rintro q ⟨⟩
    exact ⟨i, inside, here, equal⟩
  | none =>
    rw [result] at found
    refine ⟨⟨fun h => (nomatch h), ?_⟩, fun q h => (nomatch h)⟩
    rintro ⟨i, inside, equal⟩
    exact absurd equal (found i inside)

theorem bsearch_after_qsort_numbers :
    ∃ m', qsort numbers 2 4294967295 someNumbers 3 = some m' ∧
      ((bsearch numbers [1, 1] 2 m' 3).isSome ↔
        ∃ i, i < 3 ∧ numbers [1, 1] (element 2 someNumbers i) = 0) ∧
      ∀ p, bsearch numbers [1, 1] 2 m' 3 = some p →
        ∃ i, i < 3 ∧ p = i * 2 ∧ numbers [1, 1] (element 2 m' i) = 0 :=
  bsearch_after_qsort someNumbers [1, 1] (by decide) (by decide) (numbers_consistent _)

end Stdlib
