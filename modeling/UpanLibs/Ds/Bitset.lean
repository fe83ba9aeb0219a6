import UpanLibs.Machine
import Mathlib.Data.Fintype.Basic
import Mathlib.Data.Finset.Basic

/-!
The class `bitset`: a set of numbers below `SIZE` in words of 64 bits. The bits of the
last word beyond `SIZE` are called its padding.
-/
namespace Bitset

def BITS_PER_ELEMENT : Nat := 64

def BIT_ARRAY_SIZE (SIZE : Nat) : Nat := (SIZE + BITS_PER_ELEMENT - 1) / BITS_PER_ELEMENT

structure Bits (SIZE : Nat) where
  bitArray : Vector (BitVec 64) (BIT_ARRAY_SIZE SIZE)
  deriving DecidableEq, Repr

inductive Op (SIZE : Nat) where
  | set (i : Fin SIZE) (v : Bool)
  | reset
  | flip
  | flipBit (i : Fin SIZE)
  deriving DecidableEq, Repr

namespace Bits

variable {SIZE : Nat}

def new : Bits SIZE := ⟨Vector.replicate _ 0⟩

/-- `set(i)` and `reset(i)` are this with `v` true and false. -/
def set (i : Nat) (v : Bool) (b : Bits SIZE) : Bits SIZE :=
  let arrayIndex := i / BITS_PER_ELEMENT
  let bitPos := i % BITS_PER_ELEMENT
  if h : arrayIndex < BIT_ARRAY_SIZE SIZE then
    let val := 1#64 <<< bitPos
    if v then ⟨b.bitArray.set arrayIndex (b.bitArray[arrayIndex] ||| val)⟩
    else ⟨b.bitArray.set arrayIndex (b.bitArray[arrayIndex] &&& ~~~val)⟩
  else b

def test (i : Nat) (b : Bits SIZE) : Bool :=
  let arrayIndex := i / BITS_PER_ELEMENT
  let bitPos := i % BITS_PER_ELEMENT
  if h : arrayIndex < BIT_ARRAY_SIZE SIZE then (b.bitArray[arrayIndex] >>> bitPos) &&& 1 != 0
  else false

def reset (b : Bits SIZE) : Bits SIZE := ⟨b.bitArray.map fun _ => 0⟩

def flip (b : Bits SIZE) : Bits SIZE := ⟨b.bitArray.map fun word => ~~~word⟩

def flipBit (i : Nat) (b : Bits SIZE) : Bits SIZE := set i (!test i b) b

def none (b : Bits SIZE) : Bool := b.bitArray.all fun word => word == 0

def any (b : Bits SIZE) : Bool := !b.none

def all (b : Bits SIZE) : Bool := b.bitArray.all fun word => word == BitVec.allOnes 64

def step (b : Bits SIZE) : Op SIZE → Bits SIZE
  | .set i v => set i v b
  | .reset => reset b
  | .flip => flip b
  | .flipBit i => flipBit i b

def bit (b : Bits SIZE) (i : Nat) : Bool :=
  if h : i / BITS_PER_ELEMENT < BIT_ARRAY_SIZE SIZE then
    b.bitArray[i / BITS_PER_ELEMENT].getLsbD (i % BITS_PER_ELEMENT)
  else false

theorem mask_bit {k j : Nat} (small : j < 64) : (1#64 <<< k).getLsbD j = decide (j = k) := by
  rw [Bool.eq_iff_iff]
  simp only [BitVec.getLsbD_shiftLeft, BitVec.getLsbD_one, small, decide_true, Bool.true_and,
    Bool.and_eq_true, Bool.not_eq_true', decide_eq_true_eq, decide_eq_false_iff_not]
  omega

theorem or_mask_bit (word : BitVec 64) {k j : Nat} (small : j < 64) :
    (word ||| 1#64 <<< k).getLsbD j = if j = k then true else word.getLsbD j := by
  rw [BitVec.getLsbD_or, mask_bit small]
  split <;> simp [*]

theorem clear_mask_bit (word : BitVec 64) {k j : Nat} (small : j < 64) :
    (word &&& ~~~(1#64 <<< k)).getLsbD j = if j = k then false else word.getLsbD j := by
  rw [BitVec.getLsbD_and, BitVec.getLsbD_not, mask_bit small]
  split <;> simp [*]

theorem test_eq (b : Bits SIZE) (i : Nat) : b.test i = b.bit i := by
  unfold test bit
  simp only
  split
  next inside =>
    generalize b.bitArray[i / BITS_PER_ELEMENT] = word
    have low : (word >>> (i % BITS_PER_ELEMENT)) &&& 1#64 =
        BitVec.setWidth 64 (BitVec.ofBool ((word >>> (i % BITS_PER_ELEMENT)).getLsbD 0)) :=
      BitVec.and_one_eq_setWidth_ofBool_getLsbD
    rw [BitVec.getLsbD_ushiftRight, Nat.add_zero] at low
    change ((word >>> (i % BITS_PER_ELEMENT)) &&& 1#64 != 0) = _
    rw [low]
    cases word.getLsbD (i % BITS_PER_ELEMENT) <;> rfl
  next => rfl

theorem bit_set (b : Bits SIZE) {i : Nat} (inside : i / BITS_PER_ELEMENT < BIT_ARRAY_SIZE SIZE)
    (v : Bool) (j : Nat) : (b.set i v).bit j = if j = i then v else b.bit j := by
  have small : j % BITS_PER_ELEMENT < 64 := Nat.mod_lt _ (by decide)
  have split : j = i ↔ j / BITS_PER_ELEMENT = i / BITS_PER_ELEMENT ∧
      j % BITS_PER_ELEMENT = i % BITS_PER_ELEMENT := by
    unfold BITS_PER_ELEMENT
    omega
  unfold set bit
  simp only [inside, dif_pos]
  by_cases word : j / BITS_PER_ELEMENT = i / BITS_PER_ELEMENT
  · simp only [split, word, true_and, inside, dif_pos]
    cases v
    · exact (congrArg (BitVec.getLsbD · _) (Vector.getElem_set_self inside)).trans
        (clear_mask_bit _ small)
    · exact (congrArg (BitVec.getLsbD · _) (Vector.getElem_set_self inside)).trans
        (or_mask_bit _ small)
  · simp only [split, word, false_and, if_false]
    cases v <;> simp [Ne.symm word]

theorem bit_flip (b : Bits SIZE) {j : Nat} (inside : j / BITS_PER_ELEMENT < BIT_ARRAY_SIZE SIZE) :
    b.flip.bit j = !b.bit j := by
  have small : j % BITS_PER_ELEMENT < 64 := Nat.mod_lt _ (by decide)
  unfold bit flip
  simp [inside, small]

theorem bit_reset (b : Bits SIZE) (j : Nat) : b.reset.bit j = false := by
  unfold bit reset
  simp

theorem bit_new (j : Nat) : (new : Bits SIZE).bit j = false := by
  unfold bit new
  simp

theorem alike_bit (v : Bool) {j : Nat} (small : j < 64) :
    (if v then BitVec.allOnes 64 else 0).getLsbD j = v := by
  cases v
  · exact BitVec.getLsbD_zero
  · rw [if_pos rfl, BitVec.getLsbD_allOnes]
    exact decide_eq_true small

theorem word_eq_iff (b : Bits SIZE) {k : Nat} (inside : k < BIT_ARRAY_SIZE SIZE) (v : Bool) :
    b.bitArray[k] = (if v then BitVec.allOnes 64 else 0) ↔
      ∀ j < 64, b.bit (BITS_PER_ELEMENT * k + j) = v := by
  have place {j : Nat} (small : j < 64) :
      b.bit (BITS_PER_ELEMENT * k + j) = b.bitArray[k].getLsbD j := by
    have word : (BITS_PER_ELEMENT * k + j) / BITS_PER_ELEMENT = k := by
      unfold BITS_PER_ELEMENT
      omega
    have pos : (BITS_PER_ELEMENT * k + j) % BITS_PER_ELEMENT = j := by
      unfold BITS_PER_ELEMENT
      omega
    simp only [bit, word, pos, inside, dif_pos]
  constructor
  · intro word j small
    rw [place small, word, alike_bit v small]
  · intro bits
    refine BitVec.eq_of_getLsbD_eq fun j small => ?_
    rw [← place small, bits j small, alike_bit v small]

theorem words_eq_iff (b : Bits SIZE) (v : Bool) :
    (∀ k, (inside : k < BIT_ARRAY_SIZE SIZE) →
      b.bitArray[k] = (if v then BitVec.allOnes 64 else 0)) ↔
        ∀ i < BITS_PER_ELEMENT * BIT_ARRAY_SIZE SIZE, b.bit i = v := by
  constructor
  · intro words i inside
    have word : i / BITS_PER_ELEMENT < BIT_ARRAY_SIZE SIZE :=
      Nat.div_lt_of_lt_mul inside
    have bits := (word_eq_iff b word v).mp (words _ word) (i % BITS_PER_ELEMENT)
      (Nat.mod_lt _ (by decide))
    rwa [Nat.div_add_mod] at bits
  · intro bits k inside
    refine (word_eq_iff b inside v).mpr fun j small => bits _ ?_
    have next : BITS_PER_ELEMENT * (k + 1) ≤ BITS_PER_ELEMENT * BIT_ARRAY_SIZE SIZE :=
      Nat.mul_le_mul_left _ inside
    unfold BITS_PER_ELEMENT at next ⊢
    omega

theorem none_iff (b : Bits SIZE) :
    b.none = true ↔ ∀ i < BITS_PER_ELEMENT * BIT_ARRAY_SIZE SIZE, b.bit i = false := by
  rw [← words_eq_iff b false]
  unfold none
  rw [Vector.all_eq_true]
  simp

theorem all_iff (b : Bits SIZE) :
    b.all = true ↔ ∀ i < BITS_PER_ELEMENT * BIT_ARRAY_SIZE SIZE, b.bit i = true := by
  rw [← words_eq_iff b true]
  unfold all
  rw [Vector.all_eq_true]
  simp

theorem size_le (SIZE : Nat) : SIZE ≤ BITS_PER_ELEMENT * BIT_ARRAY_SIZE SIZE := by
  unfold BIT_ARRAY_SIZE BITS_PER_ELEMENT
  omega

theorem no_padding_iff (SIZE : Nat) :
    SIZE = BITS_PER_ELEMENT * BIT_ARRAY_SIZE SIZE ↔ SIZE % BITS_PER_ELEMENT = 0 := by
  unfold BIT_ARRAY_SIZE BITS_PER_ELEMENT
  omega

theorem word_inside {i : Nat} (inside : i < BITS_PER_ELEMENT * BIT_ARRAY_SIZE SIZE) :
    i / BITS_PER_ELEMENT < BIT_ARRAY_SIZE SIZE :=
  Nat.div_lt_of_lt_mul inside

end Bits

variable {SIZE : Nat}

def update (S : Finset (Fin SIZE)) : Op SIZE → Finset (Fin SIZE)
  | .set i v => if v then insert i S else S.erase i
  | .reset => ∅
  | .flip => Sᶜ
  | .flipBit i => if i ∈ S then S.erase i else insert i S

/-- Whether the number of whole flips after the last whole reset is odd. -/
def flipped (odd : Bool) : Op SIZE → Bool
  | .reset => false
  | .flip => !odd
  | .set _ _ | .flipBit _ => odd

/-- The bits below `SIZE` are those of the set, and the padding is all alike. -/
structure Holds (b : Bits SIZE) (S : Finset (Fin SIZE)) (padding : Bool) : Prop where
  members : ∀ i : Fin SIZE, b.bit i = decide (i ∈ S)
  padding : ∀ i, SIZE ≤ i → i < BITS_PER_ELEMENT * BIT_ARRAY_SIZE SIZE → b.bit i = padding

theorem holds_new : Holds (Bits.new : Bits SIZE) ∅ false :=
  ⟨fun i => by rw [Bits.bit_new]; simp, fun i _ _ => Bits.bit_new i⟩

theorem holds_set {b : Bits SIZE} {S : Finset (Fin SIZE)} {padding : Bool}
    (h : Holds b S padding) (i : Fin SIZE) (v : Bool) :
    Holds (b.set i v) (if v then insert i S else S.erase i) padding := by
  have inside := Bits.word_inside (Nat.lt_of_lt_of_le i.isLt (Bits.size_le SIZE))
  constructor
  · intro j
    rw [Bits.bit_set b inside, h.members]
    by_cases same : j = i
    · subst same
      cases v <;> simp
    · rw [if_neg (fun eq => same (Fin.ext eq))]
      cases v <;> simp [same]
  · intro j beyond place
    have differ : j ≠ i := by
      have := i.isLt
      omega
    rw [Bits.bit_set b inside, if_neg differ]
    exact h.padding j beyond place

theorem holds_step {b : Bits SIZE} {S : Finset (Fin SIZE)} {padding : Bool}
    (h : Holds b S padding) (op : Op SIZE) :
    Holds (b.step op) (update S op) (flipped padding op) := by
  cases op with
  | set i v => exact holds_set h i v
  | reset =>
    exact ⟨fun i => by rw [Bits.step, Bits.bit_reset]; simp [update],
      fun i _ _ => Bits.bit_reset b i⟩
  | flip =>
    constructor
    · intro i
      have inside := Bits.word_inside (Nat.lt_of_lt_of_le i.isLt (Bits.size_le SIZE))
      rw [Bits.step, Bits.bit_flip b inside, h.members]
      simp [update]
    · intro i beyond place
      rw [Bits.step, Bits.bit_flip b (Bits.word_inside place), h.padding i beyond place]
      rfl
  | flipBit i =>
    have flips := holds_set h i (!decide (i ∈ S))
    have test : b.test i = decide (i ∈ S) := (Bits.test_eq b i).trans (h.members i)
    rw [Bits.step, Bits.flipBit, test]
    by_cases member : i ∈ S
    · simpa [update, flipped, member] using flips
    · simpa [update, flipped, member] using flips

theorem holds_run {b : Bits SIZE} {S : Finset (Fin SIZE)} {padding : Bool}
    (h : Holds b S padding) (ops : List (Op SIZE)) :
    Holds (ops.foldl Bits.step b) (ops.foldl update S) (ops.foldl flipped padding) := by
  induction ops generalizing b S padding with
  | nil => exact h
  | cons op ops ih => exact ih (holds_step h op)

/-- The bits are seen as the set: membership, emptiness and fullness. -/
structure Behaves (b : Bits SIZE) (S : Finset (Fin SIZE)) : Prop where
  test : ∀ i : Fin SIZE, b.test i = true ↔ i ∈ S
  none : b.none = true ↔ S = ∅
  any : b.any = true ↔ S.Nonempty
  all : b.all = true ↔ S = Finset.univ

/-- The padding does not show: it is set and the set is not empty, or it is clear and the
    set is not full. -/
def PaddingHidden (odd : Bool) (S : Finset (Fin SIZE)) : Prop :=
  if odd then S ≠ ∅ else S ≠ Finset.univ

theorem alike_iff {b : Bits SIZE} {S : Finset (Fin SIZE)} {padding : Bool}
    (h : Holds b S padding) (v : Bool) :
    (∀ i < BITS_PER_ELEMENT * BIT_ARRAY_SIZE SIZE, b.bit i = v) ↔
      (∀ i : Fin SIZE, decide (i ∈ S) = v) ∧ (SIZE % BITS_PER_ELEMENT = 0 ∨ padding = v) := by
  have places := Bits.size_le SIZE
  have none_ := Bits.no_padding_iff SIZE
  constructor
  · intro alike
    constructor
    · intro i
      rw [← h.members]
      exact alike i (Nat.lt_of_lt_of_le i.isLt places)
    · by_cases whole : SIZE % BITS_PER_ELEMENT = 0
      · exact .inl whole
      · have more : SIZE < BITS_PER_ELEMENT * BIT_ARRAY_SIZE SIZE := by omega
        exact .inr ((h.padding SIZE (Nat.le_refl _) more).symm.trans (alike SIZE more))
  · rintro ⟨members, rest⟩ i place
    by_cases inside : i < SIZE
    · exact (h.members ⟨i, inside⟩).trans (members ⟨i, inside⟩)
    · have whole : SIZE % BITS_PER_ELEMENT ≠ 0 := by omega
      rw [h.padding i (Nat.not_lt.mp inside) place]
      exact rest.resolve_left whole

theorem none_iff {b : Bits SIZE} {S : Finset (Fin SIZE)} {padding : Bool}
    (h : Holds b S padding) :
    b.none = true ↔ S = ∅ ∧ (SIZE % BITS_PER_ELEMENT = 0 ∨ padding = false) := by
  rw [Bits.none_iff, alike_iff h, Finset.eq_empty_iff_forall_notMem]
  simp

theorem all_iff {b : Bits SIZE} {S : Finset (Fin SIZE)} {padding : Bool}
    (h : Holds b S padding) :
    b.all = true ↔ S = Finset.univ ∧ (SIZE % BITS_PER_ELEMENT = 0 ∨ padding = true) := by
  rw [Bits.all_iff, alike_iff h, Finset.eq_univ_iff_forall]
  simp

theorem behaves_iff {b : Bits SIZE} {S : Finset (Fin SIZE)} {padding : Bool}
    (h : Holds b S padding) :
    Behaves b S ↔ SIZE % BITS_PER_ELEMENT = 0 ∨ PaddingHidden padding S := by
  have none_ := none_iff h
  have all := all_iff h
  constructor
  · intro behaves
    by_cases whole : SIZE % BITS_PER_ELEMENT = 0
    · exact .inl whole
    · refine .inr ?_
      unfold PaddingHidden
      split
      next odd =>
        intro empty
        have shown := (none_.mp (behaves.none.mpr empty)).2.resolve_left whole
        rw [odd] at shown
        cases shown
      next even =>
        intro full
        exact even ((all.mp (behaves.all.mpr full)).2.resolve_left whole)
  · intro hidden
    have noneEmpty : b.none = true ↔ S = ∅ := by
      refine none_.trans (and_iff_left_of_imp fun empty => hidden.imp_right fun hidden => ?_)
      by_contra odd
      rw [PaddingHidden, if_pos (by simpa using odd)] at hidden
      exact hidden empty
    have allFull : b.all = true ↔ S = Finset.univ := by
      refine all.trans (and_iff_left_of_imp fun full => hidden.imp_right fun hidden => ?_)
      by_contra even
      rw [PaddingHidden, if_neg even] at hidden
      exact hidden full
    refine ⟨fun i => ?_, noneEmpty, ?_, allFull⟩
    · rw [Bits.test_eq, h.members, decide_eq_true_iff]
    · rw [Bits.any, Bool.not_eq_true', Finset.nonempty_iff_ne_empty, Ne, ← noneEmpty,
        Bool.not_eq_true]

/-- After every history the bits are seen as the set, exactly when there is no padding or
    the history hides it. -/
theorem bitset_behaves_iff (SIZE : Nat) (ops : List (Op SIZE)) :
    Behaves (ops.foldl Bits.step Bits.new) (ops.foldl update ∅) ↔
      SIZE % BITS_PER_ELEMENT = 0 ∨ PaddingHidden (ops.foldl flipped false) (ops.foldl update ∅) :=
  behaves_iff (holds_run holds_new ops)

/-- A full set of ten numbers does not count as full; one that is flipped and then loses
    its members one by one does not count as empty. -/
theorem padding_shows :
    ¬ Behaves ((List.ofFn fun i : Fin 10 => Op.set i true).foldl Bits.step Bits.new)
      ((List.ofFn fun i : Fin 10 => Op.set i true).foldl update ∅) ∧
    ¬ Behaves ((.flip :: List.ofFn fun i : Fin 10 => Op.set i false).foldl Bits.step Bits.new)
      ((.flip :: List.ofFn fun i : Fin 10 => Op.set i false).foldl update ∅) := by
  constructor
  · intro behaves
    exact absurd (behaves.all.mpr (by decide +kernel)) (by decide +kernel)
  · intro behaves
    exact absurd (behaves.none.mpr (by decide +kernel)) (by decide +kernel)

end Bitset
