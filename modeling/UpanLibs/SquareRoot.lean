import Mathlib.Data.Nat.Prime.Basic
import Mathlib.Tactic.Ring

/-!
The square root digit by digit. Of the root `q` the bits from `2 ^ k` on are known; `y` is what is
left of the number, with one more place for every bit, and `s` is twice the root.
-/
namespace SquareRoot

structure Digits where
  y : Nat
  s : Nat
  q : Nat
  deriving DecidableEq, Repr

def step (r : Nat) (d : Digits) : Digits :=
  if d.s + r ≤ d.y then ⟨2 * (d.y - (d.s + r)), d.s + 2 * r, d.q + r⟩ else ⟨2 * d.y, d.s, d.q⟩

/-- The root of `2 ^ n * a` is known down to `2 ^ k`. -/
structure Holds (n a k : Nat) (d : Digits) : Prop where
  twice : d.s = 2 * d.q
  whole : 2 ^ k ∣ d.q
  rest : d.y * 2 ^ k + 2 * d.q ^ 2 = 2 ^ (n + 1) * a
  above : 2 ^ n * a < (d.q + 2 ^ k) ^ 2

variable {n a k : Nat} {d : Digits}

theorem Holds.start (small : a < 2 ^ (n + 2)) : Holds n a (n + 1) ⟨a, 0, 0⟩ where
  twice := rfl
  whole := Nat.dvd_zero _
  rest := by
    rw [Nat.mul_comm]
    rfl
  above := by
    have less := Nat.mul_lt_mul_of_pos_left small (Nat.two_pow_pos n)
    calc 2 ^ n * a < 2 ^ n * 2 ^ (n + 2) := less
      _ = (0 + 2 ^ (n + 1)) ^ 2 := by ring

theorem step_holds (h : Holds n a (k + 1) d) : Holds n a k (step (2 ^ k) d) := by
  have twice := h.twice
  have rest := h.rest
  have above := h.above
  obtain ⟨c, whole⟩ := h.whole
  unfold step
  split
  next fits =>
    obtain ⟨left, parts⟩ := Nat.le.dest fits
    rw [← parts, Nat.add_sub_cancel_left]
    refine ⟨by simp only []; omega, ⟨2 * c + 1, ?_⟩, ?_, ?_⟩
    · simp only []
      rw [whole]
      ring
    · simp only []
      rw [← rest, ← parts, twice]
      ring
    · simp only []
      rw [pow_succ] at above
      calc 2 ^ n * a < (d.q + 2 ^ k * 2) ^ 2 := above
        _ = (d.q + 2 ^ k + 2 ^ k) ^ 2 := by ring
  next more =>
    refine ⟨twice, ⟨2 * c, by rw [whole]; ring⟩, ?_, ?_⟩
    · simp only []
      rw [← rest]
      ring
    · -- What is left is less than one more bit of the root would take.
      have less : d.y + 1 ≤ 2 * d.q + 2 ^ k := by omega
      have bits := Nat.mul_le_mul_right (2 ^ k) less
      have double : 2 * (2 ^ n * a) < 2 * (d.q + 2 ^ k) ^ 2 := by
        have positive := Nat.two_pow_pos k
        have expand : 2 * (d.q + 2 ^ k) ^ 2 = 2 * d.q ^ 2 +
            2 * ((2 * d.q + 2 ^ k) * 2 ^ k) := by ring
        have whole_ : 2 ^ (n + 1) * a = 2 * (2 ^ n * a) := by ring
        have wide : d.y * 2 ^ (k + 1) = 2 * (d.y * 2 ^ k) := by ring
        rw [Nat.add_mul, Nat.one_mul] at bits
        rw [expand, ← whole_, ← rest, wide]
        omega
      simp only []
      omega

theorem Holds.root (h : Holds n a 0 d) :
    d.q ^ 2 ≤ 2 ^ n * a ∧ 2 ^ n * a < (d.q + 1) ^ 2 ∧ (d.y = 0 ↔ d.q ^ 2 = 2 ^ n * a) := by
  have rest := h.rest
  have double : 2 ^ (n + 1) * a = 2 * (2 ^ n * a) := by ring
  rw [pow_zero, Nat.mul_one, double] at rest
  exact ⟨by omega, h.above, by omega⟩

theorem Holds.left_lt (h : Holds n a k d) : d.y < 4 * d.q + 2 * 2 ^ k := by
  have positive := Nat.two_pow_pos k
  have rest := h.rest
  have above := h.above
  have less : d.y * 2 ^ k < (4 * d.q + 2 * 2 ^ k) * 2 ^ k := by
    have expand : (d.q + 2 ^ k) ^ 2 = d.q ^ 2 + (2 * d.q + 2 ^ k) * 2 ^ k := by ring
    have double : 2 ^ (n + 1) * a = 2 * (2 ^ n * a) := by ring
    have wide : (4 * d.q + 2 * 2 ^ k) * 2 ^ k = 2 * ((2 * d.q + 2 ^ k) * 2 ^ k) := by ring
    rw [wide]
    omega
  exact Nat.lt_of_mul_lt_mul_right less

theorem Holds.root_le (h : Holds n a k d) : d.q ^ 2 ≤ 2 ^ n * a := by
  have rest := h.rest
  have double : 2 ^ (n + 1) * a = 2 * (2 ^ n * a) := by ring
  omega

/-- The root with one bit more than is asked for, rounded by that bit. An even number is not the
    square of a number halfway between two. -/
theorem rounded {q m r : Nat} (below : q ^ 2 ≤ m) (above : m < (q + 1) ^ 2) (even : 2 ∣ m)
    (round : q = 2 * r ∨ q + 1 = 2 * r) (positive : 0 < r) :
    (2 * r - 1) ^ 2 < m ∧ m < (2 * r + 1) ^ 2 := by
  obtain rfl | odd := round
  · refine ⟨Nat.lt_of_lt_of_le ?_ below, above⟩
    exact Nat.pow_lt_pow_left (by omega) (by omega)
  · have half : q = 2 * r - 1 := by omega
    rw [← half]
    have apart : q ^ 2 ≠ m := by
      intro same
      have parity : 2 ∣ q := Nat.Prime.dvd_of_dvd_pow Nat.prime_two (same ▸ even)
      omega
    refine ⟨Nat.lt_of_le_of_ne below apart, above.trans_le ?_⟩
    exact Nat.pow_le_pow_left (by omega) 2

end SquareRoot
