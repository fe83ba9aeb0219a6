import UpanLibs.Ds.Bitset
import UpanLibs.Fallible
import UpanLibs.Transition

/-!
`allocate` of the class `bitset`: the search for the lowest clear bit of a range.
-/
namespace Bitset

open Fallible

inductive Fault where
  | noFreePorts (start end_ : Nat)
  | undefinedShift (j : Nat)
  deriving DecidableEq, Repr

/-- `1 << j` of the type `int`, as a word. The language leaves it undefined from 32 on. -/
def shiftedOne (j : Nat) : Except Fault (BitVec 64) :=
  if j < 32 then .ok ((1#32 <<< j).signExtend 64) else .error (.undefinedShift j)

/-- The inner loop, on the `count` bits of a word from `j` on. -/
def clearBit (v : BitVec 64) : Nat → Nat → Option Nat
  | 0, _ => none
  | count + 1, j => if (v >>> j) &&& 1 = 0 then some j else clearBit v count (j + 1)

namespace Bits

variable {SIZE : Nat}

/-- The outer loop, on the `count` words from `i` on. -/
def allocateFrom (start end_ : Nat) (b : Bits SIZE) : Nat → Nat → Except Fault (Nat × Bits SIZE)
  | 0, _ => .error (.noFreePorts start end_)
  | count + 1, i =>
    if h : i < BIT_ARRAY_SIZE SIZE then
      let v := b.bitArray[i]
      let jStart := if i = start / BITS_PER_ELEMENT then start % BITS_PER_ELEMENT else 0
      let jEnd := if i = end_ / BITS_PER_ELEMENT then end_ % BITS_PER_ELEMENT
        else BITS_PER_ELEMENT - 1
      if v ≠ BitVec.allOnes 64 then
        match clearBit v (jEnd + 1 - jStart) jStart with
        | .some j => do
          let val ← shiftedOne j
          .ok (i * BITS_PER_ELEMENT + j, ⟨b.bitArray.set i (v ||| val)⟩)
        | .none => allocateFrom start end_ b count (i + 1)
      else allocateFrom start end_ b count (i + 1)
    else .error (.noFreePorts start end_)

def allocate (start end_ : Nat) (b : Bits SIZE) : Except Fault (Nat × Bits SIZE) :=
  allocateFrom start end_ b (end_ / BITS_PER_ELEMENT + 1 - start / BITS_PER_ELEMENT)
    (start / BITS_PER_ELEMENT)

/-- The lowest bit of the range that is clear. -/
structure LowestClear (b : Bits SIZE) (start end_ m : Nat) : Prop where
  after : start ≤ m
  within : m ≤ end_
  clear : b.bit m = false
  lowest : ∀ k, start ≤ k → k < m → b.bit k = true

def Full (b : Bits SIZE) (start end_ : Nat) : Prop := ∀ k, start ≤ k → k ≤ end_ → b.bit k = true

/-- The lowest clear bit is handed out, and no other bit of the set changes; a full range,
    and only that, is refused. -/
structure Allocates (b : Bits SIZE) (start end_ : Nat)
    (r : Except Fault (Nat × Bits SIZE)) : Prop where
  found : ∀ m, LowestClear b start end_ m → ∃ b', r = .ok (m, b') ∧
    ∀ k < SIZE, b'.bit k = if k = m then true else b.bit k
  refused : Full b start end_ → r = .error (.noFreePorts start end_)

theorem clearBit_spec (v : BitVec 64) (count j : Nat) :
    match clearBit v count j with
    | .some k => j ≤ k ∧ k < j + count ∧ v.getLsbD k = false ∧
        ∀ i, j ≤ i → i < k → v.getLsbD i = true
    | .none => ∀ i, j ≤ i → i < j + count → v.getLsbD i = true := by
  induction count generalizing j with
  | zero =>
    intro i low high
    omega
  | succ count ih =>
    have here : (v >>> j) &&& 1 = 0 ↔ v.getLsbD j = false := by
      have low : (v >>> j) &&& 1#64 = BitVec.setWidth 64 (BitVec.ofBool ((v >>> j).getLsbD 0)) :=
        BitVec.and_one_eq_setWidth_ofBool_getLsbD
      rw [BitVec.getLsbD_ushiftRight, Nat.add_zero] at low
      change (v >>> j) &&& 1#64 = 0 ↔ _
      rw [low]
      cases v.getLsbD j <;> decide
    rw [clearBit]
    by_cases clear : v.getLsbD j = false
    · rw [if_pos (here.mpr clear)]
      exact ⟨Nat.le_refl _, by omega, clear, fun i low high => by omega⟩
    · rw [if_neg (here.not.mpr clear)]
      have set_ : v.getLsbD j = true := by simpa using clear
      have rest := ih (j + 1)
      cases found : clearBit v count (j + 1) with
      | none =>
        rw [found] at rest
        intro i low high
        rcases Nat.eq_or_lt_of_le low with rfl | later
        · exact set_
        · exact rest i later (by omega)
      | some k =>
        rw [found] at rest
        obtain ⟨low, high, clear', lower⟩ := rest
        refine ⟨by omega, by omega, clear', fun i low' high' => ?_⟩
        rcases Nat.eq_or_lt_of_le low' with rfl | later
        · exact set_
        · exact lower i later high'

theorem bit_word (b : Bits SIZE) {i j : Nat} (inside : i < BIT_ARRAY_SIZE SIZE)
    (small : j < BITS_PER_ELEMENT) :
    b.bit (i * BITS_PER_ELEMENT + j) = b.bitArray[i].getLsbD j := by
  have word : (i * BITS_PER_ELEMENT + j) / BITS_PER_ELEMENT = i := by
    unfold BITS_PER_ELEMENT at *
    omega
  have pos : (i * BITS_PER_ELEMENT + j) % BITS_PER_ELEMENT = j := by
    unfold BITS_PER_ELEMENT at *
    omega
  simp only [bit, word, pos, inside, dif_pos]

def marked (b : Bits SIZE) (m : Nat) : Except Fault (Nat × Bits SIZE) :=
  if h : m / BITS_PER_ELEMENT < BIT_ARRAY_SIZE SIZE then do
    let val ← shiftedOne (m % BITS_PER_ELEMENT)
    .ok (m, ⟨b.bitArray.set (m / BITS_PER_ELEMENT) (b.bitArray[m / BITS_PER_ELEMENT] ||| val)⟩)
  else .ok (m, b)

/-- The search refuses a full range, and else finds the lowest clear bit. -/
structure Searched (b : Bits SIZE) (start end_ : Nat)
    (r : Except Fault (Nat × Bits SIZE)) : Prop where
  found : ∀ m, LowestClear b start end_ m → r = marked b m
  refused : Full b start end_ → r = .error (.noFreePorts start end_)

theorem lowestClear_unique {b : Bits SIZE} {start end_ m m' : Nat}
    (h : LowestClear b start end_ m) (h' : LowestClear b start end_ m') : m = m' := by
  by_contra differ
  rcases Nat.lt_or_gt_of_ne differ with less | greater
  · have set_ := h'.lowest m h.after less
    simp [h.clear] at set_
  · have set_ := h.lowest m' h'.after greater
    simp [h'.clear] at set_

theorem LowestClear.not_full {b : Bits SIZE} {start end_ m : Nat}
    (h : LowestClear b start end_ m) : ¬ Full b start end_ := by
  intro full
  have set_ := full m h.after h.within
  simp [h.clear] at set_

/-- The bits of a range up to the end of the word `i` are set if those before the word are,
    and those of the range in the word. -/
theorem before_next {b : Bits SIZE} {start end_ i : Nat}
    (before : ∀ k, start ≤ k → k ≤ end_ → k < i * BITS_PER_ELEMENT → b.bit k = true)
    (word : ∀ j < BITS_PER_ELEMENT, start ≤ i * BITS_PER_ELEMENT + j →
      i * BITS_PER_ELEMENT + j ≤ end_ → b.bit (i * BITS_PER_ELEMENT + j) = true) :
    ∀ k, start ≤ k → k ≤ end_ → k < (i + 1) * BITS_PER_ELEMENT → b.bit k = true := by
  intro k low high next
  rcases Nat.lt_or_ge k (i * BITS_PER_ELEMENT) with earlier | here
  · exact before k low high earlier
  · obtain ⟨j, rfl⟩ := Nat.exists_eq_add_of_le here
    exact word j (by rw [Nat.succ_mul] at next; omega) low high

theorem allocateFrom_searched {start end_ : Nat} (b : Bits SIZE) (inside : end_ < SIZE)
    (count i : Nat) (reach : i + count = end_ / BITS_PER_ELEMENT + 1)
    (begins : start / BITS_PER_ELEMENT ≤ i)
    (before : ∀ k, start ≤ k → k ≤ end_ → k < i * BITS_PER_ELEMENT → b.bit k = true) :
    Searched b start end_ (allocateFrom start end_ b count i) := by
  induction count generalizing i with
  | zero =>
    have full : Full b start end_ := by
      intro k low high
      refine before k low high ?_
      unfold BITS_PER_ELEMENT at *
      omega
    exact ⟨fun m lowest => absurd full lowest.not_full, fun _ => rfl⟩
  | succ count ih =>
    have last : i ≤ end_ / BITS_PER_ELEMENT := by omega
    have word : i < BIT_ARRAY_SIZE SIZE :=
      Nat.lt_of_le_of_lt last (word_inside (Nat.lt_of_lt_of_le inside (size_le SIZE)))
    rw [allocateFrom]
    simp only [dif_pos word]
    generalize jStart_ : (if i = start / BITS_PER_ELEMENT then start % BITS_PER_ELEMENT else 0)
      = jStart
    generalize jEnd_ : (if i = end_ / BITS_PER_ELEMENT then end_ % BITS_PER_ELEMENT
      else BITS_PER_ELEMENT - 1) = jEnd
    have first : ∀ j < BITS_PER_ELEMENT, jStart ≤ j ↔ start ≤ i * BITS_PER_ELEMENT + j := by
      intro j small
      rw [← jStart_]
      unfold BITS_PER_ELEMENT at *
      split <;> omega
    have final : ∀ j < BITS_PER_ELEMENT, j ≤ jEnd ↔ i * BITS_PER_ELEMENT + j ≤ end_ := by
      intro j small
      rw [← jEnd_]
      unfold BITS_PER_ELEMENT at *
      split <;> omega
    have next (set_ : ∀ j < BITS_PER_ELEMENT, jStart ≤ j → j ≤ jEnd →
        b.bitArray[i].getLsbD j = true) :
        Searched b start end_ (allocateFrom start end_ b count (i + 1)) := by
      refine ih (i + 1) (by omega) (by omega) (before_next before fun j small low high => ?_)
      rw [bit_word b word small]
      exact set_ j small ((first j small).mpr low) ((final j small).mpr high)
    by_cases ones : b.bitArray[i] = BitVec.allOnes 64
    · rw [if_neg (not_not.mpr ones)]
      refine next fun j small _ _ => ?_
      rw [ones, BitVec.getLsbD_allOnes]
      exact decide_eq_true small
    · rw [if_pos ones]
      have within : jEnd < BITS_PER_ELEMENT := by
        rw [← jEnd_]
        unfold BITS_PER_ELEMENT
        split <;> omega
      have spec := clearBit_spec b.bitArray[i] (jEnd + 1 - jStart) jStart
      cases found : clearBit b.bitArray[i] (jEnd + 1 - jStart) jStart with
      | none =>
        rw [found] at spec
        exact next fun j small low high => spec j low (by omega)
      | some j =>
        rw [found] at spec
        obtain ⟨low, high, clear, lower⟩ := spec
        have small : j < BITS_PER_ELEMENT := by omega
        have lowest : LowestClear b start end_ (i * BITS_PER_ELEMENT + j) := by
          refine ⟨(first j small).mp low, (final j small).mp (by omega), ?_, ?_⟩
          · rw [bit_word b word small, clear]
          · intro k low' high'
            rcases Nat.lt_or_ge k (i * BITS_PER_ELEMENT) with earlier | here
            · have end' := (final j small).mp (by omega)
              exact before k low' (by omega) earlier
            · obtain ⟨j', rfl⟩ := Nat.exists_eq_add_of_le here
              have small' : j' < BITS_PER_ELEMENT := by omega
              rw [bit_word b word small']
              exact lower j' ((first j' small').mpr low') (by omega)
        refine ⟨fun m lowest' => ?_, fun full => absurd full lowest.not_full⟩
        obtain rfl := lowestClear_unique lowest lowest'
        have div_ : (i * BITS_PER_ELEMENT + j) / BITS_PER_ELEMENT = i := by
          unfold BITS_PER_ELEMENT at *
          omega
        have mod_ : (i * BITS_PER_ELEMENT + j) % BITS_PER_ELEMENT = j := by
          unfold BITS_PER_ELEMENT at *
          omega
        simp only [marked, div_, mod_, dif_pos word]

theorem allocate_searched {start end_ : Nat} (b : Bits SIZE) (ordered : start ≤ end_)
    (inside : end_ < SIZE) : Searched b start end_ (b.allocate start end_) := by
  have words : start / BITS_PER_ELEMENT ≤ end_ / BITS_PER_ELEMENT := Nat.div_le_div_right ordered
  refine allocateFrom_searched b inside _ _ (by omega) (Nat.le_refl _) fun k low high earlier => ?_
  unfold BITS_PER_ELEMENT at *
  omega

theorem int_mask_bit {j i : Nat} (small : i < 32) : (1#32 <<< j).getLsbD i = decide (i = j) := by
  rw [Bool.eq_iff_iff]
  simp only [BitVec.getLsbD_shiftLeft, BitVec.getLsbD_one, small, decide_true, Bool.true_and,
    Bool.and_eq_true, Bool.not_eq_true', decide_eq_true_eq, decide_eq_false_iff_not]
  omega

theorem shiftedOne_bit {j : Nat} {val : BitVec 64} (shifted : shiftedOne j = .ok val) {i : Nat}
    (small : i < 64) : val.getLsbD i = decide (i = j ∨ j = 31 ∧ 31 ≤ i) := by
  unfold shiftedOne at shifted
  split at shifted
  next narrow =>
    cases shifted
    rw [BitVec.getLsbD_signExtend, decide_eq_true small, Bool.true_and]
    split
    next low =>
      rw [int_mask_bit low, decide_eq_decide]
      omega
    next high =>
      rw [BitVec.msb_eq_getLsbD_last, int_mask_bit (by decide), decide_eq_decide]
      omega
  next => cases shifted

/-- The mask of bit `m` reaches no other bit of the set that is clear. -/
def MaskFits (b : Bits SIZE) (m : Nat) : Prop :=
  m % BITS_PER_ELEMENT < 31 ∨ m % BITS_PER_ELEMENT = 31 ∧
    ∀ k < SIZE, m < k → k / BITS_PER_ELEMENT = m / BITS_PER_ELEMENT → b.bit k = true

theorem marked_bit (b : Bits SIZE) {m : Nat} (inside : m < SIZE) {val : BitVec 64}
    (shifted : shiftedOne (m % BITS_PER_ELEMENT) = .ok val) : ∃ b', marked b m = .ok (m, b') ∧
      ∀ k, b'.bit k = if k = m ∨ m % BITS_PER_ELEMENT = 31 ∧ m < k ∧
        k / BITS_PER_ELEMENT = m / BITS_PER_ELEMENT then true else b.bit k := by
  have word := word_inside (Nat.lt_of_lt_of_le inside (size_le SIZE))
  unfold marked
  rw [dif_pos word, shifted]
  refine ⟨_, rfl, fun k => ?_⟩
  have small : k % BITS_PER_ELEMENT < 64 := Nat.mod_lt _ (by decide)
  unfold bit
  by_cases same : k / BITS_PER_ELEMENT = m / BITS_PER_ELEMENT
  · have masked := shiftedOne_bit shifted small
    have reach : k = m ∨ m % BITS_PER_ELEMENT = 31 ∧ m < k ↔
        k % BITS_PER_ELEMENT = m % BITS_PER_ELEMENT ∨
          m % BITS_PER_ELEMENT = 31 ∧ 31 ≤ k % BITS_PER_ELEMENT := by
      unfold BITS_PER_ELEMENT at *
      omega
    simp only [same, dif_pos word, Vector.getElem_set_self, BitVec.getLsbD_or, masked,
      and_true, reach]
    split <;> simp [*]
  · have apart : ¬ (k = m ∨ m % BITS_PER_ELEMENT = 31 ∧ m < k ∧
        k / BITS_PER_ELEMENT = m / BITS_PER_ELEMENT) := by
      rintro (rfl | ⟨-, -, here⟩)
      · exact same rfl
      · exact same here
    rw [if_neg apart]
    simp [Ne.symm same]

theorem marked_iff (b : Bits SIZE) {m : Nat} (inside : m < SIZE) :
    (∃ b', marked b m = .ok (m, b') ∧ ∀ k < SIZE, b'.bit k = if k = m then true else b.bit k) ↔
      MaskFits b m := by
  have mod_ : m % BITS_PER_ELEMENT < 64 := Nat.mod_lt _ (by decide)
  constructor
  · rintro ⟨b', done, bits⟩
    cases shifted : shiftedOne (m % BITS_PER_ELEMENT) with
    | error fault =>
      have word := word_inside (Nat.lt_of_lt_of_le inside (size_le SIZE))
      rw [marked, dif_pos word, shifted] at done
      cases done
    | ok val =>
      obtain ⟨b'', done', bits'⟩ := marked_bit b inside shifted
      cases done.symm.trans done'
      have narrow : m % BITS_PER_ELEMENT < 32 := by
        by_contra wide
        rw [shiftedOne, if_neg wide] at shifted
        cases shifted
      by_cases sign : m % BITS_PER_ELEMENT = 31
      · refine .inr ⟨sign, fun k low later same => ?_⟩
        have here := bits k low
        rw [bits' k, if_pos (.inr ⟨sign, later, same⟩), if_neg (Nat.ne_of_gt later)] at here
        exact here.symm
      · exact .inl (by omega)
  · intro fits
    have narrow : m % BITS_PER_ELEMENT < 32 := by
      rcases fits with low | ⟨sign, -⟩ <;> omega
    obtain ⟨b', done, bits⟩ := marked_bit b inside (if_pos narrow)
    refine ⟨b', done, fun k low => ?_⟩
    rw [bits k]
    by_cases here : k = m
    · rw [if_pos (.inl here), if_pos here]
    · rw [if_neg here]
      split
      next reach =>
        obtain ⟨sign, later, same⟩ := reach.resolve_left here
        rcases fits with low' | ⟨-, set_⟩
        · omega
        · exact (set_ k low later same).symm
      next => rfl

/-- A call gives the lowest clear bit alone or refuses a full range, exactly when the range
    is full or the mask of that bit fits. -/
theorem allocates_iff {start end_ : Nat} (b : Bits SIZE) (ordered : start ≤ end_)
    (inside : end_ < SIZE) : Allocates b start end_ (b.allocate start end_) ↔
      ∀ m, LowestClear b start end_ m → MaskFits b m := by
  have searched := allocate_searched b ordered inside
  constructor
  · intro allocates m lowest
    obtain ⟨b', done, bits⟩ := allocates.found m lowest
    rw [searched.found m lowest] at done
    exact (marked_iff b (Nat.lt_of_le_of_lt lowest.within inside)).mp ⟨b', done, bits⟩
  · intro fits
    refine ⟨fun m lowest => ?_, searched.refused⟩
    rw [searched.found m lowest]
    exact (marked_iff b (Nat.lt_of_le_of_lt lowest.within inside)).mpr (fits m lowest)

theorem exists_lowestClear {b : Bits SIZE} {start end_ : Nat} (open_ : ¬ Full b start end_) :
    ∃ m, LowestClear b start end_ m := by
  have some_ : ∃ k, start ≤ k ∧ k ≤ end_ ∧ b.bit k = false := by
    by_contra none_
    refine open_ fun k low high => ?_
    by_contra clear
    exact none_ ⟨k, low, high, by simpa using clear⟩
  obtain ⟨after, within, clear⟩ := Nat.find_spec some_
  refine ⟨Nat.find some_, after, within, clear, fun k low lower => ?_⟩
  by_contra clear'
  exact Nat.find_min some_ lower ⟨low, by omega, by simpa using clear'⟩

theorem allocate_ok {start end_ m : Nat} {b b' : Bits SIZE} (ordered : start ≤ end_)
    (inside : end_ < SIZE) (done : b.allocate start end_ = .ok (m, b')) :
    b.bit m = false ∧ b'.bit m = true ∧ ∀ k, b.bit k = true → b'.bit k = true := by
  have searched := allocate_searched b ordered inside
  have open_ : ¬ Full b start end_ := by
    intro full
    rw [searched.refused full] at done
    cases done
  obtain ⟨lowest, here⟩ := exists_lowestClear open_
  have low := Nat.lt_of_le_of_lt here.within inside
  rw [searched.found lowest here] at done
  cases shifted : shiftedOne (lowest % BITS_PER_ELEMENT) with
  | error fault =>
    have word := word_inside (Nat.lt_of_lt_of_le low (size_le SIZE))
    rw [marked, dif_pos word, shifted] at done
    cases done
  | ok val =>
    obtain ⟨b'', done', bits⟩ := marked_bit b low shifted
    cases done.symm.trans done'
    refine ⟨here.clear, by rw [bits, if_pos (.inl rfl)], fun k set_ => ?_⟩
    rw [bits]
    split
    next => rfl
    next => exact set_

end Bits

variable {SIZE : Nat}

/-- The bits, and which of them were handed out and not reset since. -/
structure Allocator (SIZE : Nat) where
  bits : Bits SIZE
  held : Finset Nat

inductive Call (SIZE : Nat) where
  | allocate (start : Nat) (end_ : Fin SIZE) (ordered : start ≤ end_)
  | reset (i : Fin SIZE)

/-- A call that shifts an `int` too far has no step: the language says nothing about it. -/
inductive Calls : Allocator SIZE → Call SIZE → Allocator SIZE → Prop where
  | given {s : Allocator SIZE} {start : Nat} {end_ : Fin SIZE} {ordered : start ≤ end_} {m : Nat}
      {b : Bits SIZE} (done : s.bits.allocate start end_ = .ok (m, b)) :
      Calls s (.allocate start end_ ordered) ⟨b, insert m s.held⟩
  | refused {s : Allocator SIZE} {start : Nat} {end_ : Fin SIZE} {ordered : start ≤ end_}
      (full : s.bits.allocate start end_ = .error (.noFreePorts start end_)) :
      Calls s (.allocate start end_ ordered) s
  | reset {s : Allocator SIZE} (i : Fin SIZE) :
      Calls s (.reset i) ⟨s.bits.set i false, s.held.erase i⟩

def Allocator.Marked (s : Allocator SIZE) : Prop := ∀ i ∈ s.held, s.bits.bit i = true

theorem marked_kept {s t : Allocator SIZE} {call : Call SIZE} (marked : s.Marked)
    (step : Calls s call t) : t.Marked := by
  cases step with
  | given done =>
    rename_i start end_ ordered m b
    obtain ⟨-, set_, kept⟩ := Bits.allocate_ok ordered end_.isLt done
    intro i mem
    rcases Finset.mem_insert.mp mem with rfl | held
    · exact set_
    · exact kept i (marked i held)
  | refused => exact marked
  | reset i =>
    intro k mem
    obtain ⟨other, held⟩ := Finset.mem_erase.mp mem
    have word := Bits.word_inside (Nat.lt_of_lt_of_le i.isLt (Bits.size_le SIZE))
    rw [Bits.bit_set _ word, if_neg other]
    exact marked k held

/-- In every state, a call gives the lowest clear bit alone exactly if its range is full or
    the mask of that bit fits; and no bit is given that an earlier call holds. -/
theorem allocate_iff {start end_ : Nat} (b : Bits SIZE) (ordered : start ≤ end_)
    (inside : end_ < SIZE) :
    (b.Allocates start end_ (b.allocate start end_) ↔
      ∀ m, b.LowestClear start end_ m → b.MaskFits m) ∧
    ∀ b₀ calls held, Transition.Run Calls ⟨b₀, ∅⟩ calls ⟨b, held⟩ →
      ∀ m b', b.allocate start end_ = .ok (m, b') → m ∉ held := by
  refine ⟨Bits.allocates_iff b ordered inside, fun b₀ calls held run m b' done mem => ?_⟩
  have marked := Transition.run_invariant Allocator.Marked (fun s call t => marked_kept) run
    (fun i none_ => absurd none_ (Finset.notMem_empty i))
  have clear := (Bits.allocate_ok ordered inside done).1
  have set_ : b.bit m = true := marked m mem
  simp [clear] at set_

theorem allocate_iff_fresh :
    (Bits.new : Bits 70).Allocates 64 69 ((Bits.new : Bits 70).allocate 64 69) := by
  refine ((allocate_iff Bits.new (by decide) (by decide)).1).mpr fun m lowest => .inl ?_
  have after := lowest.after
  have within := lowest.within
  unfold BITS_PER_ELEMENT
  omega

/-- With bits 0 to 30 taken, the call that gives bit 31 sets the bits above it too. -/
theorem allocate_marks_others :
    let b : Bits 40 := (List.range 31).foldl (fun b i => b.set i true) Bits.new
    ¬ b.Allocates 0 39 (b.allocate 0 39) := by
  intro b allocates
  have lowest : b.LowestClear 0 39 31 := by
    refine ⟨by decide, by decide, by decide +kernel, ?_⟩
    intro k _ lower
    have all : ∀ k < 31, b.bit k = true := by decide +kernel
    exact all k lower
  obtain ⟨b', done, bits⟩ := allocates.found 31 lowest
  have here : (b.allocate 0 39).toOption.map (fun r => r.2.bit 32) = some true := by
    decide +kernel
  have there : b.bit 32 = false := by decide +kernel
  have kept := bits 32 (by decide)
  rw [done] at here
  have set_ : b'.bit 32 = true := Option.some.inj here
  rw [set_, if_neg (by decide), there] at kept
  cases kept

end Bitset
