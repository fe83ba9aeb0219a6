import Mathlib.Analysis.Real.Sqrt
import UpanLibs.Libm.Sqrt

/-!
The root of a double is the double nearest to the real root, and the only one as near.
-/
namespace Libm

def exponentField (ix0 : Word) : Nat := ix0.toNat / 1048576 % 2048

def Finite (ix0 : Word) : Prop := exponentField ix0 ≠ 2047

/-- The number that two words stand for, where they stand for one. -/
noncomputable def value (ix0 ix1 : Word) : ℝ :=
  (if ix0.toNat < 2147483648 then 1 else -1) *
    if exponentField ix0 = 0 then ((wide ix0 ix1 % 2 ^ 52 : Nat) : ℝ) * 2 ^ (-1074 : ℤ)
    else ((2 ^ 52 + wide ix0 ix1 % 2 ^ 52 : Nat) : ℝ) * 2 ^ ((exponentField ix0 : ℤ) - 1075)

theorem value_pos {ix0 ix1 : Word} (positive : 0 < value ix0 ix1) :
    ix0.toNat < 2147483648 ∧ wide ix0 ix1 ≠ 0 := by
  unfold value at positive
  have size : 0 ≤ if exponentField ix0 = 0 then
      ((wide ix0 ix1 % 2 ^ 52 : Nat) : ℝ) * 2 ^ (-1074 : ℤ)
      else ((2 ^ 52 + wide ix0 ix1 % 2 ^ 52 : Nat) : ℝ) *
        2 ^ ((exponentField ix0 : ℤ) - 1075) := by
    split <;> exact mul_nonneg (Nat.cast_nonneg _) (zpow_nonneg (by norm_num) _)
  by_cases plus : ix0.toNat < 2147483648
  · refine ⟨plus, fun none_ => ?_⟩
    have zero : ix0.toNat = 0 := by
      unfold wide at none_
      omega
    have field : exponentField ix0 = 0 := by rw [exponentField, zero]
    rw [if_pos plus, if_pos field, none_] at positive
    simp at positive
  · rw [if_neg plus] at positive
    linarith

theorem value_normalize {ix0 ix1 : Word} (positive : ix0.toNat < 2147483648)
    (finite : Finite ix0) (some_ : wide ix0 ix1 ≠ 0) :
    ∃ m a b, normalize ix0 ix1 = (m, a, b) ∧ -51 ≤ m ∧ m ≤ 2046 ∧
      value ix0 ix1 = (wide (leading a) b : ℝ) * 2 ^ (m - 1075) := by
  obtain ⟨m, a, b, normal, kinds⟩ := normalize_spec positive some_
  have field : exponentField ix0 = ix0.toNat / 1048576 := by
    rw [exponentField]
    omega
  have low := ix1.isLt
  unfold Finite at finite
  refine ⟨m, a, b, normal, ?_⟩
  unfold value
  rw [if_pos positive, one_mul]
  obtain ⟨subnormal, shift, few, number, rfl⟩ | ⟨normal_, number, rfl⟩ := kinds
  · have same : wide ix0 ix1 % 2 ^ 52 = wide ix0 ix1 := by
      unfold wide
      omega
    rw [if_pos (by rw [field]; omega), same, number]
    refine ⟨by omega, by omega, ?_⟩
    have power : (2 : ℝ) ^ (-1074 : ℤ) = 2 ^ shift * 2 ^ (1 - (shift : ℤ) - 1075) := by
      rw [← zpow_natCast, ← zpow_add₀ (by norm_num)]
      congr 1
      omega
    push_cast
    rw [power]
    ring
  · rw [if_neg (by rw [field]; omega), number, field]
    exact ⟨by omega, by omega, rfl⟩

theorem value_evened {m : ℤ} {significand : Nat} :
    (significand : ℝ) * 2 ^ (m - 1075) = ((2 ^ 54 * evened (m - 1023) significand : Nat) : ℝ) *
      ((2 : ℝ) ^ ((m - 1023) / 2 - 53)) ^ 2 := by
  have square : ((2 : ℝ) ^ ((m - 1023) / 2 - 53)) ^ 2 = 2 ^ (2 * ((m - 1023) / 2 - 53)) := by
    rw [← zpow_natCast, ← zpow_mul]
    congr 1
    push_cast
    ring
  rw [square]
  unfold evened
  have shift (k : Nat) (exponent : 2 * ((m - 1023) / 2 - 53) + (54 + k : Nat) = m - 1075) :
      (2 : ℝ) ^ (m - 1075) = 2 ^ (54 + k) * 2 ^ (2 * ((m - 1023) / 2 - 53)) := by
    rw [← exponent, zpow_add₀ (by norm_num), zpow_natCast]
    ring
  split
  next odd =>
    rw [shift 1 (by omega)]
    push_cast
    ring
  next even =>
    rw [shift 0 (by omega)]
    push_cast
    ring

theorem value_steps {ix0 ix1 : Word} {h : ℤ} (high : -600 ≤ h)
    (above : (2 : ℝ) ^ h ≤ value ix0 ix1) :
    ∃ k : Nat, value ix0 ix1 = k * (2 * (2 : ℝ) ^ (h - 53)) := by
  have one : (1 : ℝ) < 2 := by norm_num
  have step : 2 * (2 : ℝ) ^ (h - 53) = 2 ^ (h - 52) := by
    rw [show h - 52 = 1 + (h - 53) by omega, zpow_add₀ (by norm_num), zpow_one]
  have positive : 0 < value ix0 ix1 := (zpow_pos (by norm_num) h).trans_le above
  obtain ⟨plus, _⟩ := value_pos positive
  rw [step]
  unfold value at above ⊢
  rw [if_pos plus, one_mul] at above ⊢
  by_cases subnormal : exponentField ix0 = 0
  · rw [if_pos subnormal] at above
    have small : ((wide ix0 ix1 % 2 ^ 52 : Nat) : ℝ) ≤ 2 ^ (52 : ℤ) := by
      have := Nat.mod_lt (wide ix0 ix1) (Nat.two_pow_pos 52)
      exact_mod_cast this.le
    have bound : (2 : ℝ) ^ h ≤ 2 ^ (-1022 : ℤ) := by
      calc (2 : ℝ) ^ h ≤ ((wide ix0 ix1 % 2 ^ 52 : Nat) : ℝ) * 2 ^ (-1074 : ℤ) := above
        _ ≤ 2 ^ (52 : ℤ) * 2 ^ (-1074 : ℤ) :=
          mul_le_mul_of_nonneg_right small (zpow_nonneg (by norm_num) _)
        _ = 2 ^ (-1022 : ℤ) := by rw [← zpow_add₀ (by norm_num)]; rfl
    have := (zpow_le_zpow_iff_right₀ one).mp bound
    omega
  · rw [if_neg subnormal] at above ⊢
    have small : ((2 ^ 52 + wide ix0 ix1 % 2 ^ 52 : Nat) : ℝ) < 2 ^ (53 : ℤ) := by
      have := Nat.mod_lt (wide ix0 ix1) (Nat.two_pow_pos 52)
      have all : 2 ^ 52 + wide ix0 ix1 % 2 ^ 52 < 2 ^ 53 := by omega
      exact_mod_cast all
    have bound : (2 : ℝ) ^ h < 2 ^ ((exponentField ix0 : ℤ) - 1022) := by
      calc (2 : ℝ) ^ h ≤ ((2 ^ 52 + wide ix0 ix1 % 2 ^ 52 : Nat) : ℝ) *
            2 ^ ((exponentField ix0 : ℤ) - 1075) := above
        _ < 2 ^ (53 : ℤ) * 2 ^ ((exponentField ix0 : ℤ) - 1075) :=
          mul_lt_mul_of_pos_right small (zpow_pos (by norm_num) _)
        _ = 2 ^ ((exponentField ix0 : ℤ) - 1022) := by
          rw [← zpow_add₀ (by norm_num)]
          congr 1
          omega
    have exponent := (zpow_lt_zpow_iff_right₀ one).mp bound
    obtain ⟨n, gap⟩ : ∃ n : Nat, (exponentField ix0 : ℤ) - 1075 = n + (h - 52) :=
      ⟨((exponentField ix0 : ℤ) - 1075 - (h - 52)).toNat, by omega⟩
    refine ⟨(2 ^ 52 + wide ix0 ix1 % 2 ^ 52) * 2 ^ n, ?_⟩
    rw [gap, zpow_add₀ (by norm_num), zpow_natCast]
    push_cast
    ring

theorem value_root {z0 z1 : Word} {h : ℤ} {r : Nat} (low : -600 ≤ h) (high : h ≤ 600)
    (number : wide z0 z1 = 2 ^ 52 * (1022 + h).toNat + r) (least : 2 ^ 52 ≤ r)
    (most : r < 2 ^ 53) :
    Finite z0 ∧ value z0 z1 = r * (2 * (2 : ℝ) ^ (h - 53)) := by
  have z1_ := z1.isLt
  have field : exponentField z0 = (1023 + h).toNat := by
    unfold exponentField
    unfold wide at number
    omega
  have plus : z0.toNat < 2147483648 := by
    unfold wide at number
    omega
  have fraction : 2 ^ 52 + wide z0 z1 % 2 ^ 52 = r := by omega
  refine ⟨by unfold Finite; rw [field]; omega, ?_⟩
  unfold value
  rw [if_pos plus, if_neg (by rw [field]; omega), one_mul, fraction, field]
  have exponent : ((1023 + h).toNat : ℤ) - 1075 = 1 + (h - 53) := by omega
  rw [exponent, zpow_add₀ (by norm_num), zpow_one]

/-- A number between the halves of two steps is nearer to its step than to any other, and than to
    any number below the first steps. -/
theorem nearest_step {t u : ℝ} {r : Nat} (positive : 0 < u) (least : 2 ^ 52 ≤ r)
    (low : (2 * r - 1) * u < t) (high : t < (2 * r + 1) * u) (first : 2 ^ 53 * u ≤ t) {w : ℝ}
    (kinds : w < 2 ^ 53 * u ∨ ∃ k : Nat, w = k * (2 * u)) :
    w = r * (2 * u) ∨ |t - r * (2 * u)| < |t - w| := by
  have near : |t - r * (2 * u)| < u := by
    rw [abs_lt]
    constructor <;> linarith
  obtain below | ⟨k, rfl⟩ := kinds
  · right
    have away : t - w ≤ |t - w| := le_abs_self _
    have steps : (2 : ℝ) ^ 52 ≤ r := by exact_mod_cast least
    by_cases before : r * (2 * u) ≤ t
    · rw [abs_of_nonneg (by linarith)]
      have := mul_le_mul_of_nonneg_right steps (show 0 ≤ 2 * u by linarith)
      linarith
    · -- The root is above the first step, so the number is at least one step before.
      have more : 2 ^ 52 + 1 ≤ r := by
        by_contra same
        have eq : r = 2 ^ 52 := by omega
        apply before
        rw [eq]
        push_cast
        linarith
      have steps_ : (2 : ℝ) ^ 52 + 1 ≤ r := by exact_mod_cast more
      have := mul_le_mul_of_nonneg_right steps_ (show 0 ≤ 2 * u by linarith)
      linarith
  · obtain less | same | more := lt_trichotomy k r
    · right
      have steps : (k : ℝ) + 1 ≤ r := by exact_mod_cast less
      have := mul_le_mul_of_nonneg_right steps (show 0 ≤ 2 * u by linarith)
      have away : t - k * (2 * u) ≤ |t - k * (2 * u)| := le_abs_self _
      linarith
    · exact .inl (by rw [same])
    · right
      have steps : (r : ℝ) + 1 ≤ k := by exact_mod_cast more
      have := mul_le_mul_of_nonneg_right steps (show 0 ≤ 2 * u by linarith)
      have away : -(t - k * (2 * u)) ≤ |t - k * (2 * u)| := neg_le_abs _
      linarith

variable {u : ℝ} {n r : Nat}

theorem root_between (positive : 0 < u) (least : 0 < r) (lower : (2 * r - 1) ^ 2 < n)
    (upper : n < (2 * r + 1) ^ 2) :
    (2 * r - 1) * u < √(n * u ^ 2) ∧ √(n * u ^ 2) < (2 * r + 1) * u := by
  have square : 0 < u ^ 2 := by positivity
  have cast : ((2 * r - 1 : Nat) : ℝ) = 2 * r - 1 := by
    rw [Nat.cast_sub (by omega)]
    push_cast
    rfl
  constructor
  · apply Real.lt_sqrt_of_sq_lt
    rw [mul_pow, ← cast]
    exact mul_lt_mul_of_pos_right (by exact_mod_cast lower) square
  · rw [Real.sqrt_lt' (by positivity), mul_pow]
    exact mul_lt_mul_of_pos_right (by exact_mod_cast upper) square

theorem root_first (positive : 0 < u) (enough : (2 ^ 53) ^ 2 ≤ n) : 2 ^ 53 * u ≤ √(n * u ^ 2) := by
  have square : 0 ≤ u ^ 2 := by positivity
  apply Real.le_sqrt_of_sq_le
  rw [mul_pow]
  exact mul_le_mul_of_nonneg_right (by exact_mod_cast enough) square

/-- Every finite double above zero, subnormal or not, has a root: the double nearest to the real
    root, with every other double further away. -/
theorem ieee754_sqrt_nearest {ix0 ix1 : Word} (finite : Finite ix0) (positive : 0 < value ix0 ix1) :
    ∃ z0 z1, ieee754_sqrt ix0 ix1 = some (z0, z1) ∧ Finite z0 ∧
      ∀ w0 w1, value w0 w1 = value z0 z1 ∨
        |√(value ix0 ix1) - value z0 z1| < |√(value ix0 ix1) - value w0 w1| := by
  obtain ⟨plus, some_⟩ := value_pos positive
  obtain ⟨m, a, b, normal, low, high, number⟩ := value_normalize plus finite some_
  have field : ix0.toNat / 1048576 ≠ 2047 := by
    unfold Finite exponentField at finite
    omega
  obtain ⟨z0, z1, r, run, words, least, most, enough, lower, upper⟩ :=
    ieee754_sqrt_words plus field some_ normal low high rfl
  obtain ⟨finite', value'⟩ := value_root (by omega) (by omega) words least most
  refine ⟨z0, z1, run, finite', fun w0 w1 => ?_⟩
  rw [value_evened] at number
  generalize exponent : (m - 1023) / 2 = h at number value'
  have unit : (0 : ℝ) < 2 ^ (h - 53) := zpow_pos (by norm_num) _
  have first : (2 : ℝ) ^ 53 * 2 ^ (h - 53) = 2 ^ h := by
    rw [← zpow_natCast, ← zpow_add₀ (by norm_num)]
    congr 1
    push_cast
    ring
  rw [number, value']
  obtain ⟨below, above⟩ := root_between unit (by omega) lower upper
  apply nearest_step unit least below above (root_first unit (by omega))
  by_cases smaller : value w0 w1 < 2 ^ 53 * 2 ^ (h - 53)
  · exact .inl smaller
  · rw [first] at smaller
    exact .inr (value_steps (by omega) (not_lt.mp smaller))

theorem ieee754_sqrt_nearest_two : ∃ z0 z1,
    ieee754_sqrt 0x40000000 0 = some (z0, z1) ∧ Finite z0 ∧
      ∀ w0 w1, value w0 w1 = value z0 z1 ∨
        |√(value 0x40000000 0) - value z0 z1| < |√(value 0x40000000 0) - value w0 w1| := by
  apply ieee754_sqrt_nearest
  · unfold Finite
    decide
  · have field : exponentField 0x40000000 = 1024 := by decide
    have bits : wide 0x40000000 0 % 2 ^ 52 = 0 := by decide
    unfold value
    rw [if_pos (by decide), field, bits, if_neg (by decide)]
    positivity

end Libm
