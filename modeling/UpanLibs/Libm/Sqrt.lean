import Mathlib.Data.Nat.Bitwise
import UpanLibs.SquareRoot

/-!
`__ieee754_sqrt` on the two words of a double. What the source leaves to the floating-point unit
has no result here: infinities, not-a-numbers and negative numbers. The sums that find out the
rounding direction are those of rounding to the nearest.
-/
namespace Libm

abbrev Word := BitVec 32

def sign : Word := 0x80000000

structure Sqrt where
  ix0 : Word
  ix1 : Word
  s0 : Word
  s1 : Word
  q : Word
  q1 : Word
  deriving DecidableEq, Repr

def Sqrt.double (s : Sqrt) : Sqrt :=
  { s with ix0 := s.ix0 + (s.ix0 + ((s.ix1 &&& sign) >>> 31)), ix1 := s.ix1 + s.ix1 }

def highStep (r : Word) (s : Sqrt) : Sqrt :=
  let t := s.s0 + r
  if t.sle s.ix0 then
    Sqrt.double { s with s0 := t + r, ix0 := s.ix0 - t, q := s.q + r }
  else s.double

def lowStep (r : Word) (s : Sqrt) : Sqrt :=
  let t1 := s.s1 + r
  let t := s.s0
  if t.slt s.ix0 ∨ (t = s.ix0 ∧ t1 ≤ s.ix1) then
    let s1 := t1 + r
    let s0 := if t1 &&& sign = sign ∧ s1 &&& sign = 0 then s.s0 + 1 else s.s0
    let ix0 := s.ix0 - t
    let ix0 := if s.ix1 < t1 then ix0 - 1 else ix0
    Sqrt.double ⟨ix0, s.ix1 - t1, s0, s1, s.q, s.q1 + r⟩
  else s.double

/-- A loop over the bit `r`; there are no more than 32. -/
def overBits (step : Word → Sqrt → Sqrt) : Nat → Word → Sqrt → Sqrt
  | 0, _, s => s
  | left + 1, r, s => if r = 0 then s else overBits step left (r >>> 1) (step r s)

def fillHigh : Nat → Int → Word → Word → Int × Word × Word
  | 0, m, ix0, ix1 => (m, ix0, ix1)
  | left + 1, m, ix0, ix1 =>
      if ix0 = 0 then fillHigh left (m - 21) (ix0 ||| ix1 >>> 11) (ix1 <<< 21)
      else (m, ix0, ix1)

def raise : Nat → Nat → Word → Nat × Word
  | 0, i, ix0 => (i, ix0)
  | left + 1, i, ix0 =>
      if ix0 &&& 0x00100000 = 0 then raise left (i + 1) (ix0 <<< 1) else (i, ix0)

def shiftRight (x : Word) (n : Nat) : Word := x >>> (n % 32)

def normalize (ix0 ix1 : Word) : Int × Word × Word :=
  let m : Int := (ix0 >>> 20).toNat
  if m = 0 then
    let filled := fillHigh 3 m ix0 ix1
    let raised := raise 21 0 filled.2.1
    let i := raised.1
    (filled.1 - (i - 1), raised.2 ||| shiftRight filled.2.2 (32 - i), filled.2.2 <<< i)
  else (m, ix0, ix1)

def ieee754_sqrt (ix0 ix1 : Word) : Option (Word × Word) :=
  if ix0 &&& 0x7ff00000 = 0x7ff00000 then none
  else if ix0.sle 0 ∧ (ix0 &&& ~~~sign) ||| ix1 = 0 then some (ix0, ix1)
  else if ix0.slt 0 then none
  else
    let (m, ix0, ix1) := normalize ix0 ix1
    let m := m - 1023
    let ix0 := (ix0 &&& 0x000fffff) ||| 0x00100000
    let s : Sqrt := ⟨ix0, ix1, 0, 0, 0, 0⟩
    let s := if m % 2 = 1 then s.double else s
    let m := m / 2
    let s := s.double
    let s := overBits highStep 32 0x00200000 s
    let s := overBits lowStep 32 sign s
    let (q, q1) :=
      if s.ix0 ||| s.ix1 ≠ 0 then
        if s.q1 = 0xffffffff then (s.q + 1, 0) else (s.q, s.q1 + (s.q1 &&& 1))
      else (s.q, s.q1)
    let ix0 := (q >>> 1) + (0x3fe00000 : Word)
    let ix1 := q1 >>> 1
    let ix1 := if q &&& 1 = 1 then ix1 ||| sign else ix1
    some (ix0 + (BitVec.ofInt 32 m <<< 20), ix1)

/-! The words of the loops as one number. -/

def wide (high low : Word) : Nat := 4294967296 * high.toNat + low.toNat

theorem sign_and (x : Word) :
    (x &&& sign).toNat = if 2147483648 ≤ x.toNat then 2147483648 else 0 := by
  have small := x.isLt
  have bit : (x &&& sign).toNat = x.toNat &&& 2 ^ 31 := BitVec.toNat_and ..
  rw [bit, Nat.and_two_pow, Nat.testBit_eq_decide_div_mod_eq]
  split
  next high => rw [decide_eq_true (by omega)]; rfl
  next low => rw [decide_eq_false (by omega)]; rfl

theorem carry_toNat (x : Word) : ((x &&& sign) >>> 31).toNat = x.toNat / 2147483648 := by
  have small := x.isLt
  rw [BitVec.toNat_ushiftRight, sign_and, Nat.shiftRight_eq_div_pow]
  split <;> omega

theorem double_wide {s : Sqrt} (room : s.ix0.toNat < 2147483648) :
    wide s.double.ix0 s.double.ix1 = 2 * wide s.ix0 s.ix1 := by
  have small := s.ix1.isLt
  unfold wide Sqrt.double
  simp only [BitVec.toNat_add, carry_toNat]
  omega

theorem sle_iff {a b : Word} (a_ : a.toNat < 2147483648) (b_ : b.toNat < 2147483648) :
    a.sle b ↔ a.toNat ≤ b.toNat := by
  rw [BitVec.sle_iff_toInt_le, BitVec.toInt_eq_toNat_of_lt (by omega),
    BitVec.toInt_eq_toNat_of_lt (by omega)]
  omega

theorem slt_iff {a b : Word} (a_ : a.toNat < 2147483648) (b_ : b.toNat < 2147483648) :
    a.slt b ↔ a.toNat < b.toNat := by
  rw [BitVec.slt_iff_toInt_lt, BitVec.toInt_eq_toNat_of_lt (by omega),
    BitVec.toInt_eq_toNat_of_lt (by omega)]
  omega

/-- The words hold the numbers of the root digit by digit. -/
structure Rep (s : Sqrt) (d : SquareRoot.Digits) : Prop where
  rest : wide s.ix0 s.ix1 = d.y
  twice : wide s.s0 s.s1 = d.s
  root : wide s.q s.q1 = d.q

structure Small (d : SquareRoot.Digits) : Prop where
  rest : d.y < 2 ^ 57
  twice : d.s < 2 ^ 56
  root : d.q < 2 ^ 55

theorem highStep_rep {s : Sqrt} {d : SquareRoot.Digits} (rep : Rep s d) (small : Small d)
    (low : s.s1 = 0 ∧ s.q1 = 0) {r : Word} (bit : r.toNat ≤ 2097152) :
    Rep (highStep r s) (SquareRoot.step (4294967296 * r.toNat) d) ∧
      (highStep r s).s1 = 0 ∧ (highStep r s).q1 = 0 := by
  obtain ⟨y, s_, q⟩ := rep
  obtain ⟨y_, s_small, q_⟩ := small
  have ix1 := s.ix1.isLt
  unfold wide at y s_ q
  rw [low.1] at s_
  rw [low.2] at q
  simp only [BitVec.ofNat_eq_ofNat, BitVec.toNat_ofNat, Nat.zero_mod, Nat.add_zero] at s_ q
  have t : (s.s0 + r).toNat = s.s0.toNat + r.toNat := by
    rw [BitVec.toNat_add]
    omega
  unfold highStep SquareRoot.step
  simp only []
  by_cases fits : d.s + 4294967296 * r.toNat ≤ d.y
  · rw [if_pos ((sle_iff (by omega) (by omega)).mpr (by omega)), if_pos fits]
    have left : (s.ix0 - (s.s0 + r)).toNat = s.ix0.toNat - (s.s0.toNat + r.toNat) := by
      rw [BitVec.toNat_sub_of_le (by rw [BitVec.le_def]; omega), t]
    refine ⟨⟨?_, ?_, ?_⟩, low⟩
    · rw [double_wide (by simp only []; omega)]
      unfold wide
      simp only []
      omega
    · unfold wide Sqrt.double
      simp only [BitVec.toNat_add, low.1, BitVec.ofNat_eq_ofNat, BitVec.toNat_ofNat, Nat.zero_mod,
        Nat.add_zero]
      omega
    · unfold wide Sqrt.double
      simp only [BitVec.toNat_add, low.2, BitVec.ofNat_eq_ofNat, BitVec.toNat_ofNat, Nat.zero_mod,
        Nat.add_zero]
      omega
  · rw [if_neg (mt (sle_iff (by omega) (by omega)).mp (by omega)), if_neg fits]
    refine ⟨⟨?_, ?_, ?_⟩, low⟩
    · rw [double_wide (by omega)]
      unfold wide
      simp only []
      omega
    · unfold wide Sqrt.double
      simp only [low.1, BitVec.ofNat_eq_ofNat, BitVec.toNat_ofNat, Nat.zero_mod,
        Nat.add_zero]
      omega
    · unfold wide Sqrt.double
      simp only [low.2, BitVec.ofNat_eq_ofNat, BitVec.toNat_ofNat, Nat.zero_mod,
        Nat.add_zero]
      omega

/-- The low words of the root and of its double have room for the bit. -/
structure Room (s : Sqrt) (r : Word) : Prop where
  s1 : s.s1.toNat + 2 * r.toNat ≤ 4294967296
  q1 : s.q1.toNat + 2 * r.toNat ≤ 4294967296
  positive : 0 < r.toNat

theorem lowStep_rep {s : Sqrt} {d : SquareRoot.Digits} (rep : Rep s d) (small : Small d)
    {r : Word} (room : Room s r) : Rep (lowStep r s) (SquareRoot.step r.toNat d) := by
  obtain ⟨y, s_, q⟩ := rep
  obtain ⟨y_, s_small, q_⟩ := small
  obtain ⟨s1_room, q1_room, positive⟩ := room
  have ix1 := s.ix1.isLt
  have s1 := s.s1.isLt
  have q1 := s.q1.isLt
  unfold wide at y s_ q
  have t1 : (s.s1 + r).toNat = s.s1.toNat + r.toNat := by
    rw [BitVec.toNat_add]
    omega
  unfold lowStep SquareRoot.step
  simp only []
  have fits_iff : (s.s0.slt s.ix0 = true ∨ (s.s0 = s.ix0 ∧ s.s1 + r ≤ s.ix1)) ↔
      d.s + r.toNat ≤ d.y := by
    rw [slt_iff (by omega) (by omega), ← BitVec.toNat_inj, BitVec.le_def, t1]
    omega
  by_cases fits : d.s + r.toNat ≤ d.y
  · rw [if_pos (fits_iff.mpr fits), if_pos fits]
    have left : wide (if s.ix1 < s.s1 + r then s.ix0 - s.s0 - 1 else s.ix0 - s.s0)
        (s.ix1 - (s.s1 + r)) = d.y - (d.s + r.toNat) := by
      unfold wide
      rw [BitVec.toNat_sub, t1]
      by_cases borrow : s.ix1 < s.s1 + r
      · have less : s.ix1.toNat < s.s1.toNat + r.toNat := by rwa [BitVec.lt_def, t1] at borrow
        rw [if_pos borrow, BitVec.toNat_sub, BitVec.toNat_sub]
        simp only [BitVec.ofNat_eq_ofNat, BitVec.toNat_ofNat]
        omega
      · have more : s.s1.toNat + r.toNat ≤ s.ix1.toNat := by
          rw [BitVec.lt_def, t1] at borrow
          omega
        rw [if_neg borrow, BitVec.toNat_sub]
        omega
    have high : (if s.ix1 < s.s1 + r then s.ix0 - s.s0 - 1 else s.ix0 - s.s0).toNat <
        2147483648 := by
      unfold wide at left
      omega
    refine ⟨?_, ?_, ?_⟩
    · rw [double_wide high, left]
    · -- The carry is seen from the top bits.
      have carry : ((s.s1 + r) &&& sign = sign ∧ (s.s1 + r + r) &&& sign = 0) ↔
          s.s1.toNat + 2 * r.toNat = 4294967296 := by
        rw [← BitVec.toNat_inj, ← BitVec.toNat_inj, sign_and, sign_and, t1, BitVec.toNat_add, t1]
        simp only [sign, BitVec.ofNat_eq_ofNat, BitVec.toNat_ofNat, Nat.zero_mod]
        split <;> split <;> omega
      have s1' : (s.s1 + r + r).toNat = (s.s1.toNat + 2 * r.toNat) % 4294967296 := by
        rw [BitVec.toNat_add, t1]
        omega
      unfold wide Sqrt.double
      simp only []
      rw [s1']
      by_cases full : s.s1.toNat + 2 * r.toNat = 4294967296
      · rw [if_pos (carry.mpr full), BitVec.toNat_add]
        simp only [BitVec.ofNat_eq_ofNat, BitVec.toNat_ofNat]
        omega
      · rw [if_neg (mt carry.mp full)]
        omega
    · unfold wide Sqrt.double
      simp only [BitVec.toNat_add]
      omega
  · rw [if_neg (mt fits_iff.mp fits), if_neg fits]
    refine ⟨?_, ?_, ?_⟩
    · rw [double_wide (by omega)]
      unfold wide
      simp only []
      omega
    · exact s_
    · exact q

/-! The loops. -/

theorem small_of_holds {a k : Nat} {d : SquareRoot.Digits} (h : SquareRoot.Holds 53 a k d)
    (few : a < 2 ^ 55) (bits : k ≤ 54) : Small d := by
  have root : d.q < 2 ^ 54 := by
    have square : d.q ^ 2 < (2 ^ 54) ^ 2 := by
      calc d.q ^ 2 ≤ 2 ^ 53 * a := h.root_le
        _ < 2 ^ 53 * 2 ^ 55 := Nat.mul_lt_mul_of_pos_left few (Nat.two_pow_pos 53)
        _ = (2 ^ 54) ^ 2 := by decide
    exact lt_of_pow_lt_pow_left₀ 2 (Nat.zero_le _) square
  have left := h.left_lt
  have power : 2 ^ k ≤ 2 ^ 54 := Nat.pow_le_pow_right (by decide) bits
  exact ⟨by omega, by have := h.twice; omega, by omega⟩

theorem next_bit {r : Word} {k : Nat} (bit : r.toNat = 2 ^ (k + 1) / 2) :
    r.toNat = 2 ^ k ∧ r ≠ 0 ∧ (r >>> 1).toNat = 2 ^ k / 2 := by
  have here : r.toNat = 2 ^ k := by
    rw [bit, pow_succ, Nat.mul_div_cancel _ (by decide)]
  refine ⟨here, ?_, ?_⟩
  · rintro rfl
    exact absurd here.symm (Nat.two_pow_pos k).ne'
  · rw [BitVec.toNat_ushiftRight, here]
    rfl

theorem overBits_zero (step : Word → Sqrt → Sqrt) (left : Nat) {r : Word} (zero : r.toNat = 0)
    (s : Sqrt) : overBits step left r s = s := by
  have none_ : r = 0 := BitVec.eq_of_toNat_eq zero
  cases left with
  | zero => rfl
  | succ left => rw [overBits, if_pos none_]

theorem highLoop_rep {a k left : Nat} (few : a < 2 ^ 55) (bits : k ≤ 22) (enough : k ≤ left)
    {r : Word} (bit : r.toNat = 2 ^ k / 2) {s : Sqrt} {d : SquareRoot.Digits} (rep : Rep s d)
    (holds : SquareRoot.Holds 53 a (k + 32) d) (low : s.s1 = 0 ∧ s.q1 = 0) :
    ∃ d', Rep (overBits highStep left r s) d' ∧ SquareRoot.Holds 53 a 32 d' := by
  induction k generalizing left r s d with
  | zero =>
    rw [overBits_zero highStep left bit]
    exact ⟨d, rep, by rwa [Nat.zero_add] at holds⟩
  | succ k ih =>
    obtain ⟨here, some_, next⟩ := next_bit bit
    obtain ⟨left, rfl⟩ : ∃ n, left = n + 1 := ⟨left - 1, by omega⟩
    have power : 2 ^ k ≤ 2 ^ 21 := Nat.pow_le_pow_right (by decide) (by omega)
    obtain ⟨rep', low'⟩ := highStep_rep rep (small_of_holds holds few (by omega)) low
      (show r.toNat ≤ 2097152 by omega)
    rw [overBits, if_neg some_]
    refine ih (by omega) (by omega) next rep' ?_ low'
    have place : 4294967296 * r.toNat = 2 ^ (k + 32) := by
      rw [here, Nat.pow_add, Nat.mul_comm]
    rw [place]
    refine SquareRoot.step_holds ?_
    rwa [show k + 1 + 32 = k + 32 + 1 by omega] at holds

theorem room_of_holds {a k : Nat} {s : Sqrt} {d : SquareRoot.Digits} (rep : Rep s d)
    (holds : SquareRoot.Holds 53 a (k + 1) d) (bits : k < 32) {r : Word} (here : r.toNat = 2 ^ k) :
    Room s r := by
  have multiple {x : Nat} {high low : Word} (parts : wide high low = x) (whole : 2 ^ (k + 1) ∣ x) :
      low.toNat + 2 * 2 ^ k ≤ 4294967296 := by
    have small := low.isLt
    have power : 2 ^ (k + 1) ∣ 2 ^ 32 := Nat.pow_dvd_pow 2 (by omega)
    have low_ : low.toNat = x % 2 ^ 32 := by
      unfold wide at parts
      omega
    have divides : 2 ^ (k + 1) ∣ low.toNat := by
      rw [low_]
      exact (Nat.dvd_mod_iff power).mpr whole
    have both := Nat.dvd_sub power divides
    have positive : 0 < 2 ^ 32 - low.toNat := by omega
    have le := Nat.le_of_dvd positive both
    rw [pow_succ] at le
    omega
  refine ⟨?_, ?_, ?_⟩
  · rw [here]
    refine multiple rep.twice ?_
    rw [holds.twice]
    exact holds.whole.mul_left 2
  · rw [here]
    exact multiple rep.root holds.whole
  · rw [here]
    exact Nat.two_pow_pos k

theorem lowLoop_rep {a k left : Nat} (few : a < 2 ^ 55) (bits : k ≤ 32) (enough : k ≤ left)
    {r : Word} (bit : r.toNat = 2 ^ k / 2) {s : Sqrt} {d : SquareRoot.Digits} (rep : Rep s d)
    (holds : SquareRoot.Holds 53 a k d) :
    ∃ d', Rep (overBits lowStep left r s) d' ∧ SquareRoot.Holds 53 a 0 d' := by
  induction k generalizing left r s d with
  | zero =>
    rw [overBits_zero lowStep left bit]
    exact ⟨d, rep, holds⟩
  | succ k ih =>
    obtain ⟨here, some_, next⟩ := next_bit bit
    obtain ⟨left, rfl⟩ : ∃ n, left = n + 1 := ⟨left - 1, by omega⟩
    have rep' := lowStep_rep rep (small_of_holds holds few (by omega))
      (room_of_holds rep holds (by omega) here)
    rw [overBits, if_neg some_]
    refine ih (by omega) (by omega) next rep' ?_
    rw [here]
    exact SquareRoot.step_holds holds

theorem loops_rep {s : Sqrt} {a : Nat} (number : wide s.ix0 s.ix1 = a) (few : a < 2 ^ 55)
    (zero : s.s0 = 0 ∧ s.s1 = 0 ∧ s.q = 0 ∧ s.q1 = 0) :
    ∃ d, Rep (overBits lowStep 32 sign (overBits highStep 32 0x00200000 s)) d ∧
      SquareRoot.Holds 53 a 0 d := by
  obtain ⟨s0, s1, q, q1⟩ := zero
  have start : Rep s ⟨a, 0, 0⟩ :=
    ⟨number, by rw [s0, s1]; rfl, by rw [q, q1]; rfl⟩
  obtain ⟨d, rep, holds⟩ := @highLoop_rep a 22 32 few (by decide) (by decide) 0x00200000
    (by decide) s _ start (SquareRoot.Holds.start few) ⟨s1, q1⟩
  exact @lowLoop_rep a 32 32 few (by decide) (by decide) sign (by decide) _ d rep holds

/-! The significand. -/

def leading (ix0 : Word) : Word := (ix0 &&& 0x000fffff) ||| 0x00100000

theorem leading_toNat (ix0 : Word) : (leading ix0).toNat = ix0.toNat % 1048576 + 1048576 := by
  have low : (ix0 &&& 0x000fffff).toNat = ix0.toNat % 2 ^ 20 := by
    have bits : (ix0 &&& 0x000fffff).toNat = ix0.toNat &&& (2 ^ 20 - 1) := BitVec.toNat_and ..
    rw [bits, Nat.and_two_pow_sub_one_eq_mod]
  have apart := Nat.two_pow_add_eq_or_of_lt (Nat.mod_lt ix0.toNat (Nat.two_pow_pos 20)) 1
  rw [leading, BitVec.toNat_or, low, Nat.or_comm]
  have bit : (0x00100000 : Word).toNat = 2 ^ 20 * 1 := rfl
  rw [bit, ← apart, Nat.add_comm]

theorem bit20_and {ix0 : Word} (small : ix0.toNat < 2097152) :
    ix0 &&& 0x00100000 = 0 ↔ ix0.toNat < 1048576 := by
  have bit : (ix0 &&& 0x00100000).toNat = ix0.toNat &&& 2 ^ 20 := BitVec.toNat_and ..
  rw [← BitVec.toNat_inj, bit, Nat.and_two_pow, Nat.testBit_eq_decide_div_mod_eq]
  simp only [BitVec.ofNat_eq_ofNat, BitVec.toNat_ofNat, Nat.zero_mod]
  by_cases high : ix0.toNat < 1048576
  · rw [decide_eq_false (by omega)]
    simp [high]
  · rw [decide_eq_true (by omega)]
    simp [high]

theorem raise_spec {left i : Nat} {ix0 : Word} (small : ix0.toNat < 2097152)
    (enough : 1048576 ≤ ix0.toNat * 2 ^ left) :
    ∃ j ≤ left, (raise left i ix0).1 = i + j ∧
      (raise left i ix0).2.toNat = ix0.toNat * 2 ^ j ∧
      1048576 ≤ ix0.toNat * 2 ^ j ∧ ix0.toNat * 2 ^ j < 2097152 := by
  induction left generalizing i ix0 with
  | zero => exact ⟨0, Nat.le_refl _, rfl, by simp [raise], enough, by omega⟩
  | succ left ih =>
    rw [raise]
    by_cases low : ix0.toNat < 1048576
    · rw [if_pos ((bit20_and small).mpr low)]
      have twice : (ix0 <<< 1).toNat = 2 * ix0.toNat := by
        rw [BitVec.toNat_shiftLeft, Nat.shiftLeft_eq]
        omega
      obtain ⟨j, few, steps, moved, high, below⟩ := @ih (i + 1) (ix0 <<< 1) (by omega) (by
        rw [twice]
        rw [pow_succ] at enough
        calc 1048576 ≤ ix0.toNat * (2 ^ left * 2) := enough
          _ = 2 * ix0.toNat * 2 ^ left := by ring)
      have power : ix0.toNat * 2 ^ (j + 1) = 2 * ix0.toNat * 2 ^ j := by ring
      rw [twice] at moved high below
      exact ⟨j + 1, by omega, by rw [steps]; omega, by rw [moved, power], by rw [power]; exact high,
        by rw [power]; exact below⟩
    · rw [if_neg (mt (bit20_and small).mp low)]
      exact ⟨0, Nat.zero_le _, rfl, by simp, by omega, by omega⟩

theorem fillHigh_spec {m : Int} {ix0 ix1 : Word} (small : ix0.toNat < 1048576)
    (some_ : wide ix0 ix1 ≠ 0) :
    ∃ c : Nat, ∃ a b : Word, fillHigh 3 m ix0 ix1 = (m - 21 * c, a, b) ∧ c ≤ 2 ∧
      0 < a.toNat ∧ a.toNat < 2097152 ∧ wide a b = wide ix0 ix1 * 2 ^ (21 * c) ∧
      (a.toNat < 1048576 ∨ b.toNat % 2097152 = 0) := by
  have low := ix1.isLt
  by_cases none_ : ix0 = 0
  · subst none_
    have first : ((0 : Word) ||| ix1 >>> 11).toNat = ix1.toNat / 2048 := by
      rw [BitVec.toNat_or, BitVec.toNat_ushiftRight, Nat.shiftRight_eq_div_pow]
      exact Nat.zero_or _
    have rest : (ix1 <<< 21).toNat = ix1.toNat * 2097152 % 4294967296 := by
      rw [BitVec.toNat_shiftLeft, Nat.shiftLeft_eq]
    have number : wide 0 ix1 = ix1.toNat := by simp [wide]
    rw [number] at some_ ⊢
    rw [fillHigh, if_pos rfl, fillHigh]
    by_cases more : (0 : Word) ||| ix1 >>> 11 = 0
    · have few : ix1.toNat / 2048 = 0 := by
        rw [← first, more]
        rfl
      have second : ((0 : Word) ||| ix1 >>> 11 ||| (ix1 <<< 21) >>> 11).toNat =
          ix1.toNat * 1024 := by
        rw [more, BitVec.toNat_or, BitVec.toNat_ushiftRight, rest, Nat.shiftRight_eq_div_pow]
        rw [show (0 : Word).toNat = 0 from rfl, Nat.zero_or]
        omega
      have rest' : ((ix1 <<< 21) <<< 21).toNat = 0 := by
        rw [BitVec.toNat_shiftLeft, rest, Nat.shiftLeft_eq]
        omega
      have steps : m - 21 - 21 = m - 21 * (2 : Nat) := by omega
      rw [if_pos more, fillHigh, if_neg, steps]
      · refine ⟨2, (0 : Word) ||| ix1 >>> 11 ||| (ix1 <<< 21) >>> 11, (ix1 <<< 21) <<< 21, rfl,
          by decide, ?_, ?_, ?_, .inr ?_⟩
        · rw [second]
          omega
        · rw [second]
          omega
        · rw [wide, second, rest']
          omega
        · rw [rest']
      · intro zero
        rw [zero] at second
        have : (0 : Word).toNat = 0 := rfl
        omega
    · rw [if_neg more]
      have high : 0 < ix1.toNat / 2048 := by
        rw [← first]
        exact Nat.pos_of_ne_zero fun zero => more (BitVec.eq_of_toNat_eq zero)
      have steps : m - 21 = m - 21 * (1 : Nat) := by omega
      rw [steps]
      refine ⟨1, (0 : Word) ||| ix1 >>> 11, ix1 <<< 21, rfl, by decide, ?_, ?_, ?_, .inr ?_⟩
      · rw [first]
        exact high
      · rw [first]
        omega
      · rw [wide, first, rest]
        omega
      · rw [rest]
        omega
  · rw [fillHigh, if_neg none_]
    refine ⟨0, ix0, ix1, by simp, by decide, ?_, by omega, by simp, .inl small⟩
    exact Nat.pos_of_ne_zero fun zero => none_ (BitVec.eq_of_toNat_eq zero)

theorem leading_shift {a b raised : Word} {i : Nat} (few : i < 32)
    (moved : raised.toNat = a.toNat * 2 ^ i) (high : 1048576 ≤ raised.toNat)
    (small : raised.toNat < 2097152) (none_ : i = 0 → b.toNat % 2097152 = 0) :
    wide (leading (raised ||| shiftRight b (32 - i))) (b <<< i) = wide a b * 2 ^ i := by
  have low := b.isLt
  by_cases still : i = 0
  · subst still
    have past := none_ rfl
    obtain ⟨c, parts⟩ : ∃ c, b.toNat = 2 ^ 21 * c := ⟨b.toNat / 2097152, by omega⟩
    have same : (raised ||| shiftRight b (32 - 0)).toNat % 1048576 = raised.toNat % 1048576 := by
      have shift : shiftRight b (32 - 0) = b := by simp [shiftRight]
      have apart := Nat.two_pow_add_eq_or_of_lt (show raised.toNat < 2 ^ 21 from small) c
      rw [shift, BitVec.toNat_or, parts, Nat.or_comm, ← apart]
      omega
    have kept : b <<< 0 = b := by simp
    rw [wide, leading_toNat, same, kept, wide]
    omega
  · have past : (shiftRight b (32 - i)).toNat = b.toNat / 2 ^ (32 - i) := by
      rw [shiftRight, BitVec.toNat_ushiftRight, Nat.shiftRight_eq_div_pow, Nat.mod_eq_of_lt]
      omega
    have parts : (2 : Nat) ^ 32 = 2 ^ (32 - i) * 2 ^ i := by
      rw [← Nat.pow_add]
      congr 1
      omega
    have less : b.toNat / 2 ^ (32 - i) < 2 ^ i := by
      rw [Nat.div_lt_iff_lt_mul (Nat.two_pow_pos _), Nat.mul_comm, ← parts]
      exact low
    have joined : (raised ||| shiftRight b (32 - i)).toNat =
        a.toNat * 2 ^ i + b.toNat / 2 ^ (32 - i) := by
      rw [BitVec.toNat_or, moved, past, Nat.mul_comm, Nat.two_pow_add_eq_or_of_lt less]
    have rest : (b <<< i).toNat = b.toNat * 2 ^ i % 4294967296 := by
      rw [BitVec.toNat_shiftLeft, Nat.shiftLeft_eq]
    have carried : b.toNat * 2 ^ i / 2 ^ 32 = b.toNat / 2 ^ (32 - i) := by
      rw [parts, Nat.mul_div_mul_right _ _ (Nat.two_pow_pos i)]
    have whole := Nat.div_add_mod (b.toNat * 2 ^ i) 4294967296
    have product : wide a b * 2 ^ i = 4294967296 * (a.toNat * 2 ^ i) + b.toNat * 2 ^ i := by
      unfold wide
      ring
    have bound : a.toNat * 2 ^ i + b.toNat / 2 ^ (32 - i) < 2097152 := by
      obtain ⟨c, eq⟩ : ∃ c, 2097152 = c * 2 ^ i := by
        have fits : i ≤ 21 := by
          by_contra more
          have one : 0 < a.toNat := by
            apply Nat.pos_of_ne_zero
            intro zero
            rw [zero, Nat.zero_mul] at moved
            omega
          have power : 2 ^ 22 ≤ 2 ^ i := Nat.pow_le_pow_right (by decide) (by omega)
          have := Nat.mul_le_mul_right (2 ^ i) one
          omega
        exact ⟨2 ^ (21 - i), by rw [← Nat.pow_add, Nat.sub_add_cancel fits]⟩
      have rows : a.toNat + 1 ≤ c := by
        by_contra more
        have := Nat.mul_le_mul_right (2 ^ i) (show c ≤ a.toNat by omega)
        omega
      have := Nat.mul_le_mul_right (2 ^ i) rows
      rw [Nat.add_mul, Nat.one_mul] at this
      omega
    rw [wide, leading_toNat, joined, rest, product]
    omega

theorem leading_bounds (ix0 ix1 : Word) :
    2 ^ 52 ≤ wide (leading ix0) ix1 ∧ wide (leading ix0) ix1 < 2 ^ 53 := by
  have low := ix1.isLt
  rw [wide, leading_toNat]
  omega

theorem normalize_spec {ix0 ix1 : Word} (positive : ix0.toNat < 2147483648)
    (some_ : wide ix0 ix1 ≠ 0) :
    ∃ m a b, normalize ix0 ix1 = (m, a, b) ∧
      ((ix0.toNat < 1048576 ∧ ∃ shift : Nat, shift ≤ 52 ∧
          wide (leading a) b = wide ix0 ix1 * 2 ^ shift ∧
          m = 1 - (shift : Int)) ∨
        (1048576 ≤ ix0.toNat ∧ wide (leading a) b = 2 ^ 52 + wide ix0 ix1 % 2 ^ 52 ∧
          m = (ix0.toNat / 1048576 : Nat))) := by
  have low := ix1.isLt
  have exponent : (ix0 >>> 20).toNat = ix0.toNat / 1048576 := by
    rw [BitVec.toNat_ushiftRight, Nat.shiftRight_eq_div_pow]
  unfold normalize
  rw [exponent]
  by_cases subnormal : ix0.toNat < 1048576
  · have zero : ((ix0.toNat / 1048576 : Nat) : Int) = 0 := by omega
    simp only []
    rw [if_pos zero, zero]
    obtain ⟨c, a, b, filled, few, one, small, number, place⟩ :=
      @fillHigh_spec 0 ix0 ix1 subnormal some_
    obtain ⟨j, steps, first, moved, high, below⟩ :=
      @raise_spec 21 0 a small (by have : (2 : Nat) ^ 21 = 2097152 := rfl; omega)
    rw [filled]
    simp only []
    rw [first, Nat.zero_add]
    refine ⟨_, _, _, rfl, .inl ⟨subnormal, 21 * c + j, ?_, ?_, by omega⟩⟩
    · have bounds := (leading_bounds ((raise 21 0 a).2 ||| shiftRight b (32 - j)) (b <<< j)).2
      rw [leading_shift (by omega) moved (by omega) (by omega) (by
        intro still
        rw [still, pow_zero] at high
        omega), number, Nat.mul_assoc, ← Nat.pow_add] at bounds
      by_contra more
      have power : 2 ^ 53 ≤ 2 ^ (21 * c + j) := Nat.pow_le_pow_right (by decide) (by omega)
      have := Nat.mul_le_mul (Nat.pos_of_ne_zero some_) power
      omega
    · rw [leading_shift (by omega) moved (by omega) (by omega) (by
        intro still
        rw [still, pow_zero] at high
        omega), number, Nat.mul_assoc, ← Nat.pow_add]
  · have some__ : ((ix0.toNat / 1048576 : Nat) : Int) ≠ 0 := by omega
    simp only []
    rw [if_neg some__]
    refine ⟨_, ix0, ix1, rfl, .inr ⟨by omega, ?_, rfl⟩⟩
    rw [wide, leading_toNat, wide]
    omega

/-! The rounded root. -/

def evened (m : Int) (significand : Nat) : Nat :=
  if m % 2 = 1 then 2 * significand else significand

theorem and_one (x : Word) : (x &&& 1).toNat = x.toNat % 2 := by
  have bits : (x &&& 1).toNat = x.toNat &&& 1 := BitVec.toNat_and ..
  rw [bits, Nat.and_one_is_mod]

theorem assemble {q q1 : Word} {m : Int} {r : Nat} (root : wide q q1 = 2 * r)
    (high : 2 ^ 52 ≤ r) (small : r ≤ 2 ^ 53) (low : -600 ≤ m) (few : m ≤ 600) :
    wide ((q >>> 1) + (0x3fe00000 : Word) + (BitVec.ofInt 32 m <<< 20))
        (if q &&& 1 = 1 then q1 >>> 1 ||| sign else q1 >>> 1) =
      2 ^ 52 * (1022 + m).toNat + r := by
  have q1_ := q1.isLt
  have odd : q &&& 1 = 1 ↔ q.toNat % 2 = 1 := by
    rw [← BitVec.toNat_inj, and_one]
    rfl
  have half : (q1 >>> 1).toNat = q1.toNat / 2 := by
    rw [BitVec.toNat_ushiftRight, Nat.shiftRight_eq_div_pow, pow_one]
  have top : (q1 >>> 1 ||| sign).toNat = q1.toNat / 2 + 2147483648 := by
    rw [BitVec.toNat_or, half, Nat.or_comm]
    have apart := Nat.two_pow_add_eq_or_of_lt (show q1.toNat / 2 < 2 ^ 31 by omega) 1
    have bit : sign.toNat = 2 ^ 31 * 1 := rfl
    rw [bit, ← apart, Nat.add_comm]
  have exponent : (BitVec.ofInt 32 m <<< 20).toNat = (m % 4096).toNat * 1048576 := by
    rw [BitVec.toNat_shiftLeft, BitVec.toNat_ofInt, Nat.shiftLeft_eq]
    omega
  have halfq : (q >>> 1).toNat = q.toNat / 2 := by
    rw [BitVec.toNat_ushiftRight, Nat.shiftRight_eq_div_pow, pow_one]
  have high_ : ((q >>> 1) + (0x3fe00000 : Word) + (BitVec.ofInt 32 m <<< 20)).toNat =
      (q.toNat / 2 + 1071644672 + (m % 4096).toNat * 1048576) % 4294967296 := by
    have bias : (0x3fe00000 : Word).toNat = 1071644672 := rfl
    rw [BitVec.toNat_add, BitVec.toNat_add, exponent, halfq, bias]
    omega
  unfold wide at root ⊢
  rw [high_]
  by_cases parity : q.toNat % 2 = 1
  · rw [if_pos (odd.mpr parity), top]
    omega
  · rw [if_neg (mt odd.mp parity), half]
    omega

theorem round_up {q q1 : Word} {root : Nat} (number : wide q q1 = root) (small : root < 2 ^ 55) :
    wide (if q1 = 0xffffffff then q + 1 else q) (if q1 = 0xffffffff then 0 else q1 + (q1 &&& 1)) =
      root + root % 2 := by
  have q1_ := q1.isLt
  have one : (1 : Word).toNat = 1 := rfl
  have all : q1 = 0xffffffff ↔ q1.toNat = 4294967295 := by
    rw [← BitVec.toNat_inj]
    rfl
  unfold wide at number ⊢
  by_cases full : q1 = 0xffffffff
  · have here := all.mp full
    have zero : (0 : Word).toNat = 0 := rfl
    rw [if_pos full, if_pos full, BitVec.toNat_add, one, zero]
    omega
  · have here := mt all.mpr full
    rw [if_neg full, if_neg full, BitVec.toNat_add, and_one]
    omega

theorem finite_test {ix0 : Word} (positive : ix0.toNat < 2147483648)
    (finite : ix0.toNat / 1048576 ≠ 2047) : ix0 &&& 0x7ff00000 ≠ 0x7ff00000 := by
  intro all
  have bits : (ix0 &&& 0x7ff00000) >>> 20 = (ix0 >>> 20) &&& 0x7ff :=
    BitVec.ushiftRight_and_distrib ..
  have low : ((ix0 >>> 20) &&& 0x7ff).toNat = (ix0.toNat / 2 ^ 20) % 2 ^ 11 := by
    have parts : ((ix0 >>> 20) &&& 0x7ff).toNat = (ix0 >>> 20).toNat &&& (2 ^ 11 - 1) :=
      BitVec.toNat_and ..
    rw [parts, Nat.and_two_pow_sub_one_eq_mod, BitVec.toNat_ushiftRight,
      Nat.shiftRight_eq_div_pow]
  rw [← bits, all] at low
  have exponent : ((0x7ff00000 : Word) >>> 20).toNat = 2047 := rfl
  omega

theorem evened_bounds (m : Int) {significand : Nat} (high : 2 ^ 52 ≤ significand)
    (small : significand < 2 ^ 53) :
    2 ^ 52 ≤ evened m significand ∧ evened m significand + 2 ≤ 2 ^ 54 := by
  unfold evened
  split <;> omega

theorem ieee754_sqrt_words {ix0 ix1 : Word} (positive : ix0.toNat < 2147483648)
    (finite : ix0.toNat / 1048576 ≠ 2047) (some_ : wide ix0 ix1 ≠ 0) {m : Int} {a b : Word}
    (normal : normalize ix0 ix1 = (m, a, b)) (low : -51 ≤ m) (high : m ≤ 2046) {n : Nat}
    (number : n = evened (m - 1023) (wide (leading a) b)) :
    ∃ z0 z1 r, ieee754_sqrt ix0 ix1 = some (z0, z1) ∧
      wide z0 z1 = 2 ^ 52 * (1022 + (m - 1023) / 2).toNat + r ∧ 2 ^ 52 ≤ r ∧ r < 2 ^ 53 ∧
      2 ^ 52 ≤ n ∧ (2 * r - 1) ^ 2 < 2 ^ 54 * n ∧ 2 ^ 54 * n < (2 * r + 1) ^ 2 := by
  obtain ⟨least, most⟩ := leading_bounds a b
  obtain ⟨least_, most_⟩ := evened_bounds (m - 1023) least most
  rw [← number] at least_ most_
  have zero_ : (0 : Word).toNat = 0 := rfl
  have nonzero : ¬ (ix0.sle 0 = true ∧ (ix0 &&& ~~~sign) ||| ix1 = 0) := by
    rintro ⟨below, none_⟩
    rw [sle_iff positive (by decide)] at below
    have high_ : ix0 = 0 := BitVec.eq_of_toNat_eq (by omega)
    rw [high_, BitVec.ofNat_eq_ofNat, BitVec.zero_and, BitVec.zero_or] at none_
    exact some_ (by rw [high_, none_]; rfl)
  have signed : ¬ ix0.slt 0 = true := by
    rw [slt_iff positive (by decide)]
    omega
  unfold ieee754_sqrt
  rw [if_neg (finite_test positive finite), if_neg nonzero, if_neg signed, normal]
  simp only []
  obtain ⟨start, start_⟩ : ∃ s : Sqrt, s = Sqrt.double (if (m - 1023) % 2 = 1 then
      Sqrt.double ⟨leading a, b, 0, 0, 0, 0⟩ else ⟨leading a, b, 0, 0, 0, 0⟩) := ⟨_, rfl⟩
  have leading_ : (a &&& 0x000fffff) ||| 0x00100000 = leading a := rfl
  rw [leading_, ← start_]
  have wide_ : wide start.ix0 start.ix1 = 2 * n ∧
      start.s0 = 0 ∧ start.s1 = 0 ∧ start.q = 0 ∧ start.q1 = 0 := by
    have room : (leading a).toNat < 2097152 := by
      rw [leading_toNat]
      omega
    rw [start_, number]
    unfold evened
    split
    · have first : wide (Sqrt.double ⟨leading a, b, 0, 0, 0, 0⟩).ix0
          (Sqrt.double ⟨leading a, b, 0, 0, 0, 0⟩).ix1 = 2 * wide (leading a) b :=
        double_wide (by simp only []; omega)
      refine ⟨?_, rfl, rfl, rfl, rfl⟩
      rw [double_wide (by unfold wide at first most; omega), first]
    · exact ⟨double_wide (by simp only []; omega), rfl, rfl, rfl, rfl⟩
  obtain ⟨d, rep, holds⟩ := loops_rep wide_.1 (by omega) wide_.2
  generalize overBits lowStep 32 sign (overBits highStep 32 0x00200000 start) = s at rep ⊢
  obtain ⟨below, above, exact_⟩ := holds.root
  have small := (small_of_holds holds (by omega) (by decide)).root
  have whole : 2 ^ 53 * (2 * n) = 2 ^ 54 * n := by ring
  rw [whole] at below above exact_
  have inexact : s.ix0 ||| s.ix1 ≠ 0 ↔ d.y ≠ 0 := by
    rw [not_iff_not, ← BitVec.toNat_inj, BitVec.toNat_or, ← rep.rest, wide]
    constructor
    · intro none_
      have parts := Nat.or_eq_zero_iff.mp none_
      omega
    · intro none_
      exact Nat.or_eq_zero_iff.mpr ⟨by omega, by omega⟩
  have even : 2 ∣ 2 ^ 54 * n := Dvd.dvd.mul_right (by decide) n
  have parity : d.q % 2 = 1 → d.y ≠ 0 := by
    intro odd none_
    have both : 2 ∣ d.q := Nat.prime_two.dvd_of_dvd_pow (exact_.mp none_ ▸ even)
    omega
  obtain ⟨q, q1, pair, root⟩ : ∃ q q1, (if s.ix0 ||| s.ix1 ≠ 0 then
      if s.q1 = 0xffffffff then (s.q + 1, (0 : Word)) else (s.q, s.q1 + (s.q1 &&& 1))
      else (s.q, s.q1)) = (q, q1) ∧ wide q q1 = 2 * ((d.q + d.q % 2) / 2) := by
    have twice : 2 * ((d.q + d.q % 2) / 2) = d.q + d.q % 2 := by omega
    rw [twice]
    by_cases more : s.ix0 ||| s.ix1 ≠ 0
    · have up := round_up rep.root small
      refine ⟨_, _, ?_, up⟩
      rw [if_pos more]
      split <;> rfl
    · refine ⟨s.q, s.q1, if_neg more, ?_⟩
      have none_ : d.y = 0 := by
        by_contra some_
        exact more (inexact.mpr some_)
      have := mt parity (not_not.mpr none_)
      rw [rep.root]
      omega
  generalize half : (d.q + d.q % 2) / 2 = r at root
  have positive_ : 2 ^ 53 ≤ d.q := by
    have least : (2 ^ 53) ^ 2 < (d.q + 1) ^ 2 := by
      calc (2 ^ 53) ^ 2 = 2 ^ 54 * 2 ^ 52 := by decide
        _ ≤ 2 ^ 54 * n := Nat.mul_le_mul_left _ least_
        _ < (d.q + 1) ^ 2 := above
    have := lt_of_pow_lt_pow_left₀ 2 (Nat.zero_le _) least
    omega
  obtain ⟨lower, upper⟩ := SquareRoot.rounded (r := r) below above even (by omega) (by omega)
  have top : r < 2 ^ 53 := by
    by_contra more
    have square : (2 ^ 54 - 1) ^ 2 ≤ (2 * r - 1) ^ 2 := Nat.pow_le_pow_left (by omega) 2
    have most : 2 ^ 54 * n + 2 ^ 55 ≤ 2 ^ 54 * 2 ^ 54 := by
      calc 2 ^ 54 * n + 2 ^ 55 = 2 ^ 54 * (n + 2) := by ring
        _ ≤ 2 ^ 54 * 2 ^ 54 := Nat.mul_le_mul_left _ most_
    have numbers : (2 ^ 54 - 1) ^ 2 + 2 ^ 55 = 2 ^ 54 * 2 ^ 54 + 1 := by decide
    omega
  rw [pair]
  exact ⟨_, _, r, rfl, assemble root (by omega) (by omega) (by omega) (by omega), by omega, top,
    least_, lower, upper⟩

end Libm
