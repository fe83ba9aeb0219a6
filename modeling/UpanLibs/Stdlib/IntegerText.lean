import Mathlib.Data.Nat.Digits.Defs
import Mathlib.Data.Nat.Digits.Lemmas
import Mathlib.Tactic.Ring
import UpanLibs.Stdlib.Strtol

/-!
`_uintmaxtostr`, which writes a number of 64 bits in any base and divides it with words of 32 bits
alone. What it writes is read back by `strtoull` and `strtoll`.
-/
namespace Stdlib

open Inet (isspace digitOf ULONG_MAX LONG_MAX)

def UINT_MAX : Nat := 4294967295

/-- `*--bufend` gets a digit; `alphacase` is `__UIM_LOWER` or `__UIM_UPPER`. -/
def digitChar (alphacase digit : Nat) : UInt8 :=
  UInt8.ofNat (if digit < 10 then digit + 48 else digit + alphacase)

/-- `H` and `L`, which divide 2 to the 32 by the base. -/
def divisor (base : Nat) : Nat × Nat :=
  let H := UINT_MAX / base
  let L := UINT_MAX % base + 1
  if L = base then (H + 1, 0) else (H, L)

def word (n : Nat) : Nat := n % 4294967296

def divide (base H L low high : Nat) : Nat × Nat × Nat :=
  if high ≠ 0 then
    let rh := high % base
    let high := high / base
    let digit := word (low % base + word (L * rh))
    let low := word (low / base + word (H * rh) + digit / base)
    (digit % base, low, high)
  else (low % base, low / base, high)

/-- Writes digits before `buf`, in a buffer that has room for so many. -/
def writeDigits (base H L alphacase : Nat) : Nat → Nat → Nat → Chars → Option Chars
  | 0, _, _, _ => none
  | room + 1, low, high, buf =>
      let (digit, low, high) := divide base H L low high
      let buf := digitChar alphacase digit :: buf
      if low = 0 ∧ high = 0 then some buf else writeDigits base H L alphacase room low high buf

def magnitude (uval : Nat) (base : Int) : Bool × Nat :=
  if base < 0 ∧ uval > LONG_MAX then (true, wrap (18446744073709551616 - uval)) else (false, uval)

/-- The text of a number; a negative base stands for a signed one. There is no result if the
    assertion fails or if the buffer is too small. -/
def uintmaxtostr (room uval : Nat) (base : Int) (alphacase : Nat) : Option Chars :=
  let (negative, uval) := magnitude uval base
  let base := base.natAbs
  if base < 2 ∨ base > 36 then none
  else
    let (H, L) := divisor base
    let low := word uval
    let high := word (uval >>> 32)
    match writeDigits base H L alphacase room low high [] with
    | none => none
    | some buf =>
        if negative then (if buf.length < room then some (45 :: buf) else none) else some buf

theorem divisor_eq (base : Nat) :
    (divisor base).1 * base + (divisor base).2 = 4294967296 := by
  have parts := Nat.div_add_mod UINT_MAX base
  have max_ : UINT_MAX = 4294967295 := rfl
  unfold divisor
  dsimp only
  split
  next whole =>
    rw [Nat.add_mul, Nat.mul_comm]
    omega
  next =>
    dsimp only
    rw [Nat.mul_comm]
    omega

theorem divisor_small {base : Nat} (positive : 0 < base) : (divisor base).2 < base := by
  have less := Nat.mod_lt UINT_MAX positive
  unfold divisor
  dsimp only
  split
  next whole => exact positive
  next other => omega

section Division

variable {base low high : Nat}

theorem divide_parts (low high : Nat) {H L : Nat} (exact_ : H * base + L = 4294967296) :
    4294967296 * high + low =
      base * (4294967296 * (high / base) + H * (high % base) + low / base) +
        (low % base + L * (high % base)) := by
  have rest : 4294967296 * (high % base) = H * base * (high % base) + L * (high % base) := by
    rw [← Nat.add_mul, exact_]
  calc 4294967296 * high + low
      = 4294967296 * (base * (high / base) + high % base) +
          (base * (low / base) + low % base) := by rw [Nat.div_add_mod, Nat.div_add_mod]
    _ = base * (4294967296 * (high / base)) + 4294967296 * (high % base) + base * (low / base) +
          low % base := by ring
    _ = base * (4294967296 * (high / base)) + (H * base * (high % base) + L * (high % base)) +
          base * (low / base) + low % base := by rw [rest]
    _ = _ := by ring

theorem divide_eq (least : 2 ≤ base) (most : base ≤ 36) (lows : low < 4294967296)
    (highs : high < 4294967296) :
    ∃ low' high', divide base (divisor base).1 (divisor base).2 low high =
        ((4294967296 * high + low) % base, low', high') ∧
      4294967296 * high' + low' = (4294967296 * high + low) / base ∧
      low' < 4294967296 ∧ high' < 4294967296 := by
  have positive : 0 < base := by omega
  unfold divide
  split
  next some_ =>
    have exact_ := divisor_eq base
    have parts := divide_parts low high exact_
    have small := divisor_small positive
    generalize (divisor base).1 = H at *
    generalize (divisor base).2 = L at *
    have rest := Nat.mod_lt high positive
    have digit : L * (high % base) ≤ 35 * 35 := Nat.mul_le_mul (by omega) (by omega)
    have least' := Nat.mod_lt low positive
    have quotient : (4294967296 * high + low) / base = 4294967296 * (high / base) +
        (H * (high % base) + low / base + (low % base + L * (high % base)) / base) := by
      rw [parts, Nat.mul_add_div positive]
      ring
    have remainder : (4294967296 * high + low) % base =
        (low % base + L * (high % base)) % base := by
      rw [parts, Nat.mul_add_mod]
    have below : H * (high % base) + low / base + (low % base + L * (high % base)) / base <
        4294967296 := by
      have less : 4294967296 * (high % base) + low < base * 4294967296 := by omega
      have parts := divide_parts low (high % base) exact_
      rw [Nat.mod_mod, Nat.div_eq_of_lt rest, Nat.mul_zero, Nat.zero_add] at parts
      rw [← Nat.mul_add_div positive, ← parts]
      exact Nat.div_lt_of_lt_mul less
    dsimp only [word]
    rw [Nat.mod_eq_of_lt (show L * (high % base) < 4294967296 by omega),
      Nat.mod_eq_of_lt (show low % base + L * (high % base) < 4294967296 by omega)]
    generalize (low % base + L * (high % base)) / base = carry at *
    generalize H * (high % base) = upper at *
    generalize low / base = lower at *
    rw [Nat.mod_eq_of_lt (show upper < 4294967296 by omega),
      Nat.mod_eq_of_lt (show lower + upper + carry < 4294967296 by omega)]
    refine ⟨_, _, by rw [remainder], ?_, by omega, ?_⟩
    · rw [quotient]
      omega
    · exact Nat.lt_of_le_of_lt (Nat.div_le_self _ _) highs
  next zero =>
    have none : high = 0 := by omega
    subst none
    refine ⟨low / base, 0, ?_, ?_, ?_, by decide⟩
    · simp
    · simp
    · exact Nat.lt_of_le_of_lt (Nat.div_le_self _ _) lows

end Division

def textOf (alphacase base n : Nat) : Chars :=
  if n = 0 then [digitChar alphacase 0] else ((Nat.digits base n).map (digitChar alphacase)).reverse

section Text

variable {base alphacase n : Nat}

theorem textOf_small (small : n < base) :
    textOf alphacase base n = [digitChar alphacase n] := by
  unfold textOf
  split
  next zero => rw [zero]
  next some_ => rw [Nat.digits_of_lt base n some_ small, List.map_singleton, List.reverse_singleton]

theorem textOf_step (least : 2 ≤ base) (more : n / base ≠ 0) :
    textOf alphacase base n =
      textOf alphacase base (n / base) ++ [digitChar alphacase (n % base)] := by
  have some_ : n ≠ 0 := by
    rintro rfl
    exact more (Nat.zero_div base)
  rw [textOf, textOf, if_neg some_, if_neg more,
    Nat.digits_def' (by omega) (Nat.pos_of_ne_zero some_), List.map_cons, List.reverse_cons]

theorem textOf_length (alphacase : Nat) {k : Nat} (least : 2 ≤ base) (bound : n < base ^ k)
    (some_ : 0 < k) :
    (textOf alphacase base n).length ≤ k := by
  unfold textOf
  split
  · exact some_
  · rw [List.length_reverse, List.length_map]
    exact (Nat.digits_length_le_iff (by omega) n).mpr bound

theorem writeDigits_eq (alphacase : Nat) (least : 2 ≤ base) (most : base ≤ 36)
    {room low high : Nat} (buf : Chars)
    (lows : low < 4294967296) (highs : high < 4294967296) (some_ : 0 < room)
    (fits : 4294967296 * high + low < base ^ room) :
    writeDigits base (divisor base).1 (divisor base).2 alphacase room low high buf =
      some (textOf alphacase base (4294967296 * high + low) ++ buf) := by
  induction room generalizing low high buf with
  | zero => omega
  | succ room ih =>
    obtain ⟨low', high', divided, rest, lows', highs'⟩ := divide_eq least most lows highs
    rw [writeDigits, divided]
    dsimp only
    generalize 4294967296 * high + low = n at *
    by_cases last : low' = 0 ∧ high' = 0
    · have small : n < base := by
        obtain ⟨rfl, rfl⟩ := last
        exact (Nat.div_eq_zero_iff_lt (by omega)).mp rest.symm
      rw [if_pos last, textOf_small small, Nat.mod_eq_of_lt small, List.singleton_append]
    · have more : n / base ≠ 0 := by omega
      have less : n / base < base ^ room := Nat.div_lt_of_lt_mul (by rw [← pow_succ']; exact fits)
      have left : 0 < room := by
        by_contra none
        have zero : room = 0 := by omega
        rw [zero, pow_zero] at less
        omega
      rw [if_neg last, ih _ lows' highs' left (by rw [rest]; exact less), rest,
        textOf_step least more, List.append_assoc, List.singleton_append]

/-- The characters stand for the digits of the base. -/
def Letters (alphacase base : Nat) : Prop := base ≤ 10 ∨ alphacase = 87 ∨ alphacase = 55

theorem digitChar_lower : ∀ d < 36, isspace (digitChar 87 d) = false ∧ digitChar 87 d ≠ 45 ∧
    digitChar 87 d ≠ 43 ∧ (digitChar 87 d = 48 → d = 0) ∧ digitOf (digitChar 87 d) = d := by
  decide

theorem digitChar_upper : ∀ d < 36, isspace (digitChar 55 d) = false ∧ digitChar 55 d ≠ 45 ∧
    digitChar 55 d ≠ 43 ∧ (digitChar 55 d = 48 → d = 0) ∧ digitOf (digitChar 55 d) = d := by
  decide

theorem digitChar_read (letters : Letters alphacase base) (most : base ≤ 36) {d : Nat}
    (small : d < base) : isspace (digitChar alphacase d) = false ∧ digitChar alphacase d ≠ 45 ∧
      digitChar alphacase d ≠ 43 ∧ (digitChar alphacase d = 48 → d = 0) ∧
      digitOf (digitChar alphacase d) = d := by
  obtain ten | rfl | rfl := letters
  · have same : digitChar alphacase d = digitChar 87 d := by
      rw [digitChar, digitChar, if_pos (by omega), if_pos (by omega)]
    rw [same]
    exact digitChar_lower d (by omega)
  · exact digitChar_lower d (by omega)
  · exact digitChar_upper d (by omega)

structure Spells (alphacase base n : Nat) (d : Nat) (ds : List Nat) : Prop where
  small : ∀ e ∈ d :: ds, e < base
  value : extend base 0 (d :: ds) = n
  leading : d = 0 → n = 0 ∧ ds = []

theorem textOf_spells (alphacase n : Nat) (least : 2 ≤ base) : ∃ d ds,
    textOf alphacase base n = (d :: ds).map (digitChar alphacase) ∧
      Spells alphacase base n d ds := by
  by_cases zero : n = 0
  · refine ⟨0, [], if_pos zero, ?_, ?_, fun _ => ⟨zero, rfl⟩⟩
    · intro e mem
      rw [List.mem_singleton.mp mem]
      omega
    · simp [extend, zero]
  · obtain ⟨d, ds, eq⟩ : ∃ d ds, (Nat.digits base n).reverse = d :: ds := by
      apply List.exists_cons_of_ne_nil
      rw [ne_eq, List.reverse_eq_nil_iff]
      exact Nat.digits_ne_nil_iff_ne_zero.mpr zero
    refine ⟨d, ds, ?_, ?_, ?_, ?_⟩
    · rw [textOf, if_neg zero, ← List.map_reverse, eq]
    · intro e mem
      rw [← eq] at mem
      exact Nat.digits_lt_base (by omega) (List.mem_reverse.mp mem)
    · have value := Nat.ofDigits_digits base n
      rw [Nat.ofDigits_eq_foldr] at value
      rw [← eq, extend, List.foldl_reverse]
      simpa only [Nat.cast_id, Nat.add_comm, Nat.mul_comm] using value
    · rintro rfl
      have last := Nat.getLast_digit_ne_zero base zero
      have whole : Nat.digits base n = ds.reverse ++ [0] := by
        rw [← List.reverse_reverse (Nat.digits base n), eq, List.reverse_cons]
      simp [whole] at last

theorem digitsOf_map (letters : Letters alphacase base) (most : base ≤ 36) {ds : List Nat}
    (small : ∀ e ∈ ds, e < base) :
    digitsOf base (ds.map (digitChar alphacase)) = ds ∧
      afterDigits base (ds.map (digitChar alphacase)) = [] := by
  induction ds with
  | nil => exact ⟨rfl, rfl⟩
  | cons d ds ih =>
    obtain ⟨digits, after⟩ := ih fun e mem => small e (List.mem_cons_of_mem d mem)
    obtain ⟨-, -, -, -, read⟩ := digitChar_read letters most (small d (List.mem_cons_self ..))
    have digit : digitOf (digitChar alphacase d) < base := by
      rw [read]
      exact small d (List.mem_cons_self ..)
    rw [List.map_cons, digitsOf_digit digit, afterDigits_digit digit, digits, read]
    exact ⟨rfl, after⟩

theorem dynamicBase_text (least : 2 ≤ base) (most : base ≤ 36) (letters : Letters alphacase base)
    {d : Nat} {ds : List Nat} (spells : Spells alphacase base n d ds) (fail : Chars) :
    dynamicBase base ((d :: ds).map (digitChar alphacase)) fail =
      if base = 16 ∧ d = 0 then ((16 : Int), [], [])
      else ((base : Int), (d :: ds).map (digitChar alphacase), fail) := by
  obtain ⟨-, -, -, first, -⟩ := digitChar_read letters most (spells.small d (List.mem_cons_self ..))
  by_cases hex : base = 16
  · subst hex
    by_cases zero : d = 0
    · obtain ⟨-, rfl⟩ := spells.leading zero
      subst zero
      have char_zero : digitChar alphacase 0 = 48 := rfl
      rw [if_pos ⟨rfl, rfl⟩, List.map_singleton, char_zero]
      rfl
    · have other : char ((d :: ds).map (digitChar alphacase)) ≠ 48 := fun h => zero (first h)
      rw [if_neg fun h => zero h.2, dynamicBase, if_pos (.inr rfl)]
      simp only [if_neg other]
      rfl
  · have fixed : ¬ ((base : Int) = 0 ∨ (base : Int) = 16) := by omega
    rw [dynamicBase, if_neg fixed, if_neg fun h => hex h.1]

theorem spells_read (least : 2 ≤ base) (most : base ≤ 36) (letters : Letters alphacase base)
    {d : Nat} {ds : List Nat} (spells : Spells alphacase base n d ds) (str : Chars)
    (negative : Bool) (starts : sign (str.dropWhile isspace) =
      (negative, (d :: ds).map (digitChar alphacase))) :
    (front str base).negative = negative ∧
      extend (front str base).base.toNat 0 (numeral str base) = n ∧ endOf str base = [] := by
  have based := dynamicBase_text least most letters spells str
  have eq : front str base = if base = 16 ∧ d = 0 then ⟨negative, 16, [], []⟩
      else ⟨negative, base, (d :: ds).map (digitChar alphacase), str⟩ := by
    rw [front, starts]
    dsimp only
    rw [based]
    split <;> rfl
  obtain ⟨digits, after⟩ := digitsOf_map letters most spells.small
  unfold endOf numeral
  rw [eq]
  split
  next zero =>
    obtain ⟨rfl, -⟩ := spells.leading zero.2
    exact ⟨rfl, rfl, rfl⟩
  next =>
    have legal : (Front.mk negative base ((d :: ds).map (digitChar alphacase)) str).legal = true :=
      decide_eq_true ⟨by simpa using least, by simpa using most⟩
    simp only [legal, if_true, Int.toNat_natCast, digits, after]
    exact ⟨trivial, spells.value, if_neg (List.cons_ne_nil d ds)⟩

theorem spells_starts (most : base ≤ 36) (letters : Letters alphacase base)
    {d : Nat} {ds : List Nat} (spells : Spells alphacase base n d ds) :
    let text := (d :: ds).map (digitChar alphacase)
    sign (text.dropWhile isspace) = (false, text) ∧
      sign ((45 :: text).dropWhile isspace) = (true, text) := by
  obtain ⟨blank, minus, plus, -⟩ :=
    digitChar_read letters most (spells.small d (List.mem_cons_self ..))
  constructor
  · have first : char ((d :: ds).map (digitChar alphacase)) = digitChar alphacase d := rfl
    rw [List.map_cons, List.dropWhile_cons_of_neg (by simp [blank]), ← List.map_cons, sign, first,
      if_neg minus, if_neg plus]
  · rfl

end Text

theorem word_bounds (n : Nat) : word n < 4294967296 := Nat.mod_lt n (by decide)

theorem words_eq {n : Nat} (bound : n ≤ ULONG_MAX) :
    4294967296 * word (n >>> 32) + word n = n := by
  have max_ : ULONG_MAX = 18446744073709551615 := rfl
  simp only [word, Nat.shiftRight_eq_div_pow, Nat.reducePow]
  omega

theorem uintmaxtostr_eq (alphacase : Nat) {b room k v : Nat} (least : 2 ≤ b) (most : b ≤ 36)
    {base : Int} (abs : base.natAbs = b) (digits : ULONG_MAX < b ^ k) (fits : k < room) (bound : v ≤ ULONG_MAX) :
    uintmaxtostr room v base alphacase =
      some (if (magnitude v base).1 then 45 :: textOf alphacase b (magnitude v base).2
        else textOf alphacase b (magnitude v base).2) := by
  have some_ : 0 < k := by
    by_contra none
    have zero : k = 0 := by omega
    rw [zero, pow_zero] at digits
    exact absurd digits (by decide)
  have small : (magnitude v base).2 ≤ ULONG_MAX := by
    unfold magnitude
    split
    · exact Nat.le_of_lt_succ (Nat.mod_lt _ (by decide))
    · exact bound
  unfold uintmaxtostr
  generalize magnitude v base = n at *
  have less : n.2 < b ^ k := Nat.lt_of_le_of_lt small digits
  have larger : b ^ k ≤ b ^ room := Nat.pow_le_pow_right (by omega) (Nat.le_of_lt fits)
  have legal : ¬ (b < 2 ∨ b > 36) := by omega
  have written := writeDigits_eq alphacase least most
    [] (word_bounds n.2) (word_bounds (n.2 >>> 32)) (Nat.zero_lt_of_lt fits)
    (by rw [words_eq small]; exact Nat.lt_of_lt_of_le less larger)
  rw [words_eq small, List.append_nil] at written
  simp only [abs, if_neg legal, written]
  have short := textOf_length alphacase least less some_
  obtain ⟨negative, n⟩ := n
  cases negative with
  | true => exact if_pos (Nat.lt_of_le_of_lt short fits)
  | false => rfl

theorem inet_uintmaxtostr_eq {fuel n : Nat} {buf : Chars} (some_ : 0 < fuel)
    (fits : n < 10 ^ fuel) : Inet.uintmaxtostr fuel n buf = textOf 0 10 n ++ buf := by
  induction fuel generalizing n buf with
  | zero => omega
  | succ fuel ih =>
    have digit : UInt8.ofNat (n % 10 + 48) = digitChar 0 (n % 10) :=
      congrArg UInt8.ofNat (if_pos (Nat.mod_lt n (by decide))).symm
    rw [Inet.uintmaxtostr, digit]
    by_cases last : n / 10 = 0
    · have small : n < 10 := by omega
      rw [if_pos last, textOf_small small, Nat.mod_eq_of_lt small, List.singleton_append]
    · have less : n / 10 < 10 ^ fuel := Nat.div_lt_of_lt_mul (by rw [← pow_succ']; exact fits)
      have left : 0 < fuel := by
        by_contra none
        have zero : fuel = 0 := by omega
        rw [zero, pow_zero] at less
        omega
      rw [if_neg last, ih left less, textOf_step (by decide) last, List.append_assoc,
        List.singleton_append]

theorem inet_decimal_eq {v : Nat} (bound : v ≤ ULONG_MAX) :
    uintmaxtostr 21 v 10 0 = some (Inet.decimal v) := by
  have max_ : ULONG_MAX = 18446744073709551615 := rfl
  have written := uintmaxtostr_eq 0 (b := 10) (k := 20) (by decide) (by decide)
    (show (10 : Int).natAbs = 10 from rfl) (by decide) (show 20 < 21 by decide) bound
  have plain : magnitude v 10 = (false, v) := if_neg (by omega)
  rw [written, plain, Inet.decimal, inet_uintmaxtostr_eq (by decide) (by omega), List.append_nil]
  rfl

theorem strto_text {b alphacase n : Nat} (least : 2 ≤ b) (most : b ≤ 36)
    (letters : Letters alphacase b) (sflag : Bool) :
    let text := textOf alphacase b n
    stdlib_strto_ll_l text b sflag = converted sflag false n [] ∧
      stdlib_strto_ll_l (45 :: text) b sflag = converted sflag true n [] := by
  obtain ⟨d, ds, eq, spells⟩ := textOf_spells alphacase n least
  obtain ⟨plain, minus⟩ := spells_starts most letters spells
  rw [eq]
  constructor
  · obtain ⟨sign, value, ends⟩ := spells_read least most letters spells _ false plain
    exact (strto_eq addBytes_saturating _ b sflag).trans (by rw [sign, value, ends])
  · obtain ⟨sign, value, ends⟩ := spells_read least most letters spells _ true minus
    exact (strto_eq addBytes_saturating _ b sflag).trans (by rw [sign, value, ends])

theorem converted_plain {sflag : Bool} {n : Nat} (bound : n ≤ ULONG_MAX)
    (small : sflag = true → n ≤ LONG_MAX) (endptr : Chars) :
    converted sflag false n endptr = ⟨n, endptr, false⟩ := by
  have kept : (sflag && decide (n > LONG_MAX)) = false := by
    cases sflag with
    | false => rfl
    | true => simpa using small rfl
  simp only [converted, if_pos bound, finish, Bool.false_eq_true, if_false, kept, Bool.or_self]

theorem converted_minus {v : Nat} (large : v > LONG_MAX) (bound : v ≤ ULONG_MAX)
    (endptr : Chars) :
    converted true true (wrap (18446744073709551616 - v)) endptr = ⟨v, endptr, false⟩ := by
  have max_ : ULONG_MAX = 18446744073709551615 := rfl
  have long : LONG_MAX = 9223372036854775807 := rfl
  have small : wrap (18446744073709551616 - v) = 18446744073709551616 - v :=
    wrap_of_le (by omega)
  have kept : decide (18446744073709551616 - v > LONG_MAX + 1) = false :=
    decide_eq_false (by omega)
  have back : wrap (18446744073709551616 - (18446744073709551616 - v)) = v := by
    rw [wrap_of_le (by omega)]
    omega
  simp only [small, converted, if_pos (show 18446744073709551616 - v ≤ ULONG_MAX by omega), finish,
    if_true, Bool.true_and, kept, Bool.false_eq_true, if_false, back, Bool.or_self]

/-- What `_uintmaxtostr` writes in any base is read back by the conversions of `strtoull` and, for
    signed numbers, of `strtoll`: the same bits, the whole text, and no error. -/
theorem strto_uintmaxtostr {b alphacase room k v : Nat} (least : 2 ≤ b) (most : b ≤ 36)
    (letters : Letters alphacase b) (digits : ULONG_MAX < b ^ k) (fits : k < room)
    (bound : v ≤ ULONG_MAX) :
    (∃ text, uintmaxtostr room v b alphacase = some text ∧
      stdlib_strto_ll_l text b false = ⟨v, [], false⟩) ∧
    ∃ text, uintmaxtostr room v (-b) alphacase = some text ∧
      stdlib_strto_ll_l text b true = ⟨v, [], false⟩ := by
  have written (base : Int) (abs : base.natAbs = b) :=
    uintmaxtostr_eq alphacase least most abs digits fits bound
  constructor
  · refine ⟨_, written b (Int.natAbs_natCast b), ?_⟩
    have unsigned : magnitude v b = (false, v) := if_neg (by omega)
    have plain : converted false false v [] = ⟨v, [], false⟩ :=
      converted_plain bound (fun h => absurd h (by decide)) []
    rw [unsigned]
    exact (strto_text least most letters false).1.trans plain
  · refine ⟨_, written (-b) (by omega), ?_⟩
    by_cases large : v > LONG_MAX
    · have minus : magnitude v (-b) = (true, wrap (18446744073709551616 - v)) :=
        if_pos (by omega)
      rw [minus]
      exact (strto_text least most letters true).2.trans (converted_minus large bound [])
    · have plain : magnitude v (-b) = (false, v) := if_neg fun h => large h.2
      rw [plain]
      exact (strto_text least most letters true).1.trans
        (converted_plain bound (fun _ => Nat.not_lt.mp large) [])

theorem strto_uintmaxtostr_hex :
    (∃ text, uintmaxtostr 22 3735928559 (16 : Nat) 87 = some text ∧
      stdlib_strto_ll_l text (16 : Nat) false = ⟨3735928559, [], false⟩) ∧
    ∃ text, uintmaxtostr 22 3735928559 (-(16 : Nat)) 87 = some text ∧
      stdlib_strto_ll_l text (16 : Nat) true = ⟨3735928559, [], false⟩ :=
  strto_uintmaxtostr (k := 16) (by decide) (by decide) (.inr (.inl rfl)) (by decide) (by decide)
    (by decide)

end Stdlib
