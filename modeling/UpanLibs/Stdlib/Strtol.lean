import Mathlib.Data.Nat.Digits.Defs
import UpanLibs.Net.Inet

/-!
`strtol`, `strtoul`, `strtoll` and `strtoull`. Two functions do their work, which differ in how they
see that a number grows too large. Texts are lists of bytes without the final zero; a `long` has 64
bits.
-/
namespace Stdlib

open Inet (isspace digitOf ULONG_MAX LONG_MAX)

abbrev Chars := List UInt8

/-- `*str` -/
def char (str : Chars) : UInt8 := str.headD 0

def sign (str : Chars) : Bool × Chars :=
  if char str = 45 then (true, str.tail)
  else if char str = 43 then (false, str.tail)
  else (false, str)

/-- The base zero is read from a prefix, which the base 16 may have as well. The last component is
    `fail_char`. -/
def dynamicBase (base : Int) (str fail : Chars) : Int × Chars × Chars :=
  if base = 0 ∨ base = 16 then
    let base := base + 10
    let (base, str, fail) :=
      if char str = 48 then
        let str := str.tail
        let base := base - 2
        if 32 ||| char str = 120 then (base + base, str.tail, str) else (base, str, str)
      else (base, str, fail)
    (if 16 < base then 16 else base, str, fail)
  else (base, str, fail)

structure Front where
  negative : Bool
  base : Int
  str : Chars
  fail : Chars
  deriving DecidableEq, Repr

def front (str : Chars) (base : Int) : Front :=
  let (negative, s) := sign (str.dropWhile isspace)
  let (base, s, fail) := dynamicBase base s str
  ⟨negative, base, s, fail⟩

def Front.legal (f : Front) : Bool := 2 ≤ f.base ∧ f.base ≤ 36

structure Scan where
  number : Nat
  negative : Bool
  erange : Bool
  fail : Chars
  deriving DecidableEq, Repr

/-- The number with one more digit, if it does not grow too large. -/
abbrev AddDigit := Nat → Nat → Nat → Option Nat

def readDigits (add : AddDigit) (sflag : Bool) (base : Nat) : Chars → Scan → Scan
  | [], scan => scan
  | c :: str, scan =>
      if digitOf c ≥ base then scan
      else
        match add base scan.number (digitOf c) with
        | some number => readDigits add sflag base str ⟨number, scan.negative, scan.erange, str⟩
        | none => readDigits add sflag base str ⟨ULONG_MAX, scan.negative && sflag, true, str⟩

structure Result where
  value : Nat
  endptr : Chars
  erange : Bool
  deriving DecidableEq, Repr

def wrap (n : Nat) : Nat := n % 18446744073709551616

def finish (sflag : Bool) (scan : Scan) : Result :=
  let tmp := if scan.negative then LONG_MAX + 1 else LONG_MAX
  let large := sflag && decide (scan.number > tmp)
  let number := if large then tmp else scan.number
  ⟨if scan.negative then wrap (18446744073709551616 - number) else number, scan.fail,
    scan.erange || large⟩

def strto (add : AddDigit) (str : Chars) (base : Int) (sflag : Bool) : Result :=
  let f := front str base
  let scan := ⟨0, f.negative, false, f.fail⟩
  finish sflag (if f.legal then readDigits add sflag f.base.toNat f.str scan else scan)

/-- The test of `_stdlib_strto_l_l`, before the digit is added. -/
def addCutoff : AddDigit := fun base number digit =>
  let cutoff_digit := ULONG_MAX % base
  let cutoff := ULONG_MAX / base
  if number > cutoff ∨ (number = cutoff ∧ digit > cutoff_digit) then none
  else some (wrap (number * base + digit))

/-- The test of `_stdlib_strto_ll_l`, which takes the last byte apart. -/
def addBytes : AddDigit := fun base number digit =>
  if number ≤ ULONG_MAX >>> 6 then some (wrap (number * base + digit))
  else
    let n1 := ((number % 256) * base + digit) % 4294967296
    let number := wrap ((number >>> 8) * base)
    if wrap (number + (n1 >>> 8)) ≤ ULONG_MAX >>> 8 then some (wrap (wrap (number <<< 8) + n1))
    else none

def stdlib_strto_l_l : Chars → Int → Bool → Result := strto addCutoff

def stdlib_strto_ll_l : Chars → Int → Bool → Result := strto addBytes

def toLong (bits : Nat) : Int := if bits ≤ LONG_MAX then bits else bits - 18446744073709551616

def strtol (str : Chars) (base : Int) : Int := toLong (stdlib_strto_l_l str base true).value

def strtoul (str : Chars) (base : Int) : Nat := (stdlib_strto_l_l str base false).value

def strtoll (str : Chars) (base : Int) : Int := toLong (stdlib_strto_ll_l str base true).value

def strtoull (str : Chars) (base : Int) : Nat := (stdlib_strto_ll_l str base false).value

def Saturating (add : AddDigit) : Prop :=
  ∀ base number digit, 2 ≤ base → base ≤ 36 → digit < base → number ≤ ULONG_MAX →
    add base number digit =
      if number * base + digit ≤ ULONG_MAX then some (number * base + digit) else none

theorem wrap_of_le {n : Nat} (fits : n ≤ ULONG_MAX) : wrap n = n :=
  Nat.mod_eq_of_lt (Nat.lt_succ_of_le fits)

theorem addCutoff_saturating : Saturating addCutoff := by
  intro base number digit least most small bound
  have parts := Nat.div_add_mod ULONG_MAX base
  have less := Nat.mod_lt ULONG_MAX (show base > 0 by omega)
  have step := Nat.mul_comm number base
  unfold addCutoff
  simp only []
  obtain low | same | high := Nat.lt_trichotomy number (ULONG_MAX / base)
  · have room : base * (number + 1) ≤ base * (ULONG_MAX / base) := Nat.mul_le_mul_left base low
    rw [Nat.mul_succ] at room
    have fits : number * base + digit ≤ ULONG_MAX := by omega
    rw [if_neg (by omega), if_pos fits, wrap_of_le fits]
  · subst same
    by_cases fits : digit ≤ ULONG_MAX % base
    · have fits : ULONG_MAX / base * base + digit ≤ ULONG_MAX := by omega
      rw [if_neg (by omega), if_pos fits, wrap_of_le fits]
    · rw [if_pos (.inr ⟨rfl, by omega⟩), if_neg (by omega)]
  · have room : base * (ULONG_MAX / base + 1) ≤ base * number := Nat.mul_le_mul_left base high
    rw [Nat.mul_succ] at room
    rw [if_pos (.inl high), if_neg (by omega)]

theorem addBytes_saturating : Saturating addBytes := by
  intro base number digit least most small bound
  have split : number * base = 256 * (number / 256 * base) + number % 256 * base := by
    rw [← Nat.mul_assoc, ← Nat.add_mul, Nat.div_add_mod]
  have high : number / 256 * base ≤ number / 256 * 36 := Nat.mul_le_mul_left _ most
  have low : number % 256 * base ≤ 255 * 36 := Nat.mul_le_mul (by omega) most
  have whole : number * base ≤ number * 36 := Nat.mul_le_mul_left _ most
  have max : ULONG_MAX = 18446744073709551615 := rfl
  have byte : ULONG_MAX >>> 8 = 72057594037927935 := rfl
  have bits : ULONG_MAX >>> 6 = 288230376151711743 := rfl
  unfold addBytes
  simp only [bits, byte, Nat.shiftRight_eq_div_pow, Nat.shiftLeft_eq, Nat.reducePow]
  generalize number / 256 * base = upper at *
  generalize number % 256 * base = lower at *
  by_cases short : number ≤ 288230376151711743
  · rw [if_pos short, if_pos (by omega), wrap_of_le (by omega)]
  · have parts : wrap upper = upper ∧ (lower + digit) % 4294967296 = lower + digit ∧
        wrap (upper + (lower + digit) / 256) = upper + (lower + digit) / 256 :=
      ⟨wrap_of_le (by omega), Nat.mod_eq_of_lt (by omega), wrap_of_le (by omega)⟩
    simp only [parts]
    rw [if_neg short]
    by_cases fits : number * base + digit ≤ ULONG_MAX
    · have shifted : wrap (upper * 256) = upper * 256 := wrap_of_le (by omega)
      rw [if_pos fits, if_pos (by omega), shifted, wrap_of_le (by omega)]
      congr 1
      omega
    · rw [if_neg fits, if_neg (by omega)]

def digitsOf (base : Nat) (str : Chars) : List Nat :=
  (str.takeWhile fun c => digitOf c < base).map digitOf

def afterDigits (base : Nat) (str : Chars) : Chars := str.dropWhile fun c => digitOf c < base

def extend (base number : Nat) (digits : List Nat) : Nat :=
  digits.foldl (fun n d => n * base + d) number

theorem le_extend {base : Nat} (least : 2 ≤ base) (number : Nat) (digits : List Nat) :
    number ≤ extend base number digits := by
  induction digits generalizing number with
  | nil => exact Nat.le_refl _
  | cons d digits ih =>
    calc number ≤ number * base := Nat.le_mul_of_pos_right number (by omega)
      _ ≤ number * base + d := Nat.le_add_right _ _
      _ ≤ extend base number (d :: digits) := ih _

def scanned (sflag : Bool) (base : Nat) (str : Chars) (scan : Scan) : Scan :=
  let digits := digitsOf base str
  let number := extend base scan.number digits
  let fail := if digits = [] then scan.fail else afterDigits base str
  if number ≤ ULONG_MAX then ⟨number, scan.negative, scan.erange, fail⟩
  else ⟨ULONG_MAX, scan.negative && sflag, true, fail⟩

section Digits

variable {base : Nat} {c : UInt8} {str : Chars} {sflag : Bool} {scan : Scan}

theorem digitsOf_stop (stops : ¬ digitOf c < base) : digitsOf base (c :: str) = [] := by
  rw [digitsOf, List.takeWhile_cons_of_neg (by simpa using stops), List.map_nil]

theorem digitsOf_digit (digit : digitOf c < base) :
    digitsOf base (c :: str) = digitOf c :: digitsOf base str := by
  rw [digitsOf, List.takeWhile_cons_of_pos (by simpa using digit), List.map_cons, digitsOf]

theorem afterDigits_digit (digit : digitOf c < base) :
    afterDigits base (c :: str) = afterDigits base str :=
  List.dropWhile_cons_of_pos (by simpa using digit)

theorem digitsOf_zero (str : Chars) : digitsOf 0 str = [] := by
  cases str with
  | nil => rfl
  | cons c str => exact digitsOf_stop (Nat.not_lt_zero _)

theorem afterDigits_none (none : digitsOf base str = []) : afterDigits base str = str := by
  cases str with
  | nil => rfl
  | cons c str =>
    by_cases digit : digitOf c < base
    · rw [digitsOf_digit digit] at none
      cases none
    · exact List.dropWhile_cons_of_neg (by simpa using digit)

theorem scanned_stop (none : digitsOf base str = []) (bound : scan.number ≤ ULONG_MAX) :
    scanned sflag base str scan = scan := by
  simp only [scanned, none, extend, List.foldl_nil, if_pos bound, if_true]

theorem scanned_digit (digit : digitOf c < base) :
    scanned sflag base (c :: str) scan =
      if extend base (scan.number * base + digitOf c) (digitsOf base str) ≤ ULONG_MAX then
        ⟨extend base (scan.number * base + digitOf c) (digitsOf base str), scan.negative,
          scan.erange, afterDigits base str⟩
      else ⟨ULONG_MAX, scan.negative && sflag, true, afterDigits base str⟩ := by
  simp only [scanned, digitsOf_digit digit, afterDigits_digit digit, extend, List.foldl_cons,
    if_neg (List.cons_ne_nil _ _)]
  rfl

theorem scanned_after (number : Nat) (negative erange : Bool) :
    scanned sflag base str ⟨number, negative, erange, str⟩ =
      if extend base number (digitsOf base str) ≤ ULONG_MAX then
        ⟨extend base number (digitsOf base str), negative, erange, afterDigits base str⟩
      else ⟨ULONG_MAX, negative && sflag, true, afterDigits base str⟩ := by
  have fail : (if digitsOf base str = [] then str else afterDigits base str) =
      afterDigits base str := by
    split
    next none => exact (afterDigits_none none).symm
    next => rfl
  simp only [scanned, fail]

theorem readDigits_eq {add : AddDigit} (saturating : Saturating add) (least : 2 ≤ base)
    (most : base ≤ 36) (bound : scan.number ≤ ULONG_MAX) :
    readDigits add sflag base str scan = scanned sflag base str scan := by
  induction str generalizing scan with
  | nil => exact (scanned_stop rfl bound).symm
  | cons c str ih =>
    by_cases digit : digitOf c < base
    · have less : ¬ digitOf c ≥ base := Nat.not_le.mpr digit
      simp only [readDigits, if_neg less]
      rw [saturating base scan.number _ least most digit bound, scanned_digit digit]
      by_cases fits : scan.number * base + digitOf c ≤ ULONG_MAX
      · simp only [if_pos fits]
        rw [ih fits, scanned_after]
      · simp only [if_neg fits]
        have rest := le_extend least ULONG_MAX (digitsOf base str)
        have all : ¬ extend base (scan.number * base + digitOf c) (digitsOf base str) ≤ ULONG_MAX :=
          fun h => fits (Nat.le_trans (le_extend least _ _) h)
        rw [ih (Nat.le_refl _), scanned_after, if_neg all, Bool.and_assoc, Bool.and_self]
        split
        next kept => rw [Nat.le_antisymm kept rest]
        next => rfl
    · have stops : digitOf c ≥ base := Nat.not_lt.mp digit
      simp only [readDigits, if_pos stops]
      exact (scanned_stop (digitsOf_stop digit) bound).symm

end Digits

def numeral (str : Chars) (base : Int) : List Nat :=
  let f := front str base
  if f.legal then digitsOf f.base.toNat f.str else []

def endOf (str : Chars) (base : Int) : Chars :=
  let f := front str base
  if numeral str base = [] then f.fail else afterDigits f.base.toNat f.str

/-- The result of `finish` for a number of any size. -/
def converted (sflag : Bool) (negative : Bool) (magnitude : Nat) (endptr : Chars) : Result :=
  if magnitude ≤ ULONG_MAX then finish sflag ⟨magnitude, negative, false, endptr⟩
  else finish sflag ⟨ULONG_MAX, negative && sflag, true, endptr⟩

theorem strto_eq {add : AddDigit} (saturating : Saturating add) (str : Chars) (base : Int)
    (sflag : Bool) :
    strto add str base sflag =
      converted sflag (front str base).negative
        (extend (front str base).base.toNat 0 (numeral str base)) (endOf str base) := by
  unfold strto converted endOf numeral
  generalize eq : front str base = f
  by_cases legal : f.legal = true
  · obtain ⟨least, most⟩ := of_decide_eq_true legal
    simp only [legal, if_true]
    rw [readDigits_eq saturating (by omega) (by omega) (Nat.zero_le _)]
    simp only [scanned, apply_ite (finish sflag)]
  · simp only [legal, Bool.false_eq_true, if_false, extend, List.foldl_nil, if_true,
      if_pos (Nat.zero_le ULONG_MAX)]

section Values

variable (negative : Bool) (magnitude : Nat) (endptr : Chars)

def signed (negative : Bool) (magnitude : Nat) : Int := if negative then -magnitude else magnitude

theorem finish_signed (bound : magnitude ≤ ULONG_MAX) (erange : Bool) :
    toLong (finish true ⟨magnitude, negative, erange, endptr⟩).value =
        max (-9223372036854775808) (min 9223372036854775807 (signed negative magnitude)) ∧
      ((finish true ⟨magnitude, negative, erange, endptr⟩).erange = true ↔ erange = true ∨
        toLong (finish true ⟨magnitude, negative, erange, endptr⟩).value ≠
          signed negative magnitude) := by
  have max_ : ULONG_MAX = 18446744073709551615 := rfl
  have long : LONG_MAX = 9223372036854775807 := rfl
  cases negative with
  | false =>
    by_cases large : magnitude > LONG_MAX
    · simp [finish, signed, toLong, large]
      omega
    · simp [finish, signed, toLong, large]
      omega
  | true =>
    by_cases large : magnitude > LONG_MAX + 1
    · simp [finish, signed, toLong, wrap, large]
      omega
    · simp [finish, signed, toLong, wrap, large]
      omega

theorem converted_signed :
    toLong (converted true negative magnitude endptr).value =
        max (-9223372036854775808) (min 9223372036854775807 (signed negative magnitude)) ∧
      ((converted true negative magnitude endptr).erange = true ↔
        toLong (converted true negative magnitude endptr).value ≠ signed negative magnitude) := by
  by_cases fits : magnitude ≤ ULONG_MAX
  · simp only [converted, if_pos fits]
    have eq := finish_signed negative magnitude endptr fits false
    simp only [Bool.false_eq_true, false_or] at eq
    exact eq
  · simp only [converted, if_neg fits, Bool.and_true]
    -- the clamp does not see where the magnitude was cut off
    obtain ⟨value, erange⟩ := finish_signed negative ULONG_MAX endptr (Nat.le_refl _) true
    have max_ : ULONG_MAX = 18446744073709551615 := rfl
    rw [value]
    cases negative with
    | false =>
      simp only [signed, Bool.false_eq_true, if_false] at erange ⊢
      refine ⟨by omega, ?_⟩
      rw [erange]
      simp only [true_or, true_iff]
      omega
    | true =>
      simp only [signed, if_true] at erange ⊢
      refine ⟨by omega, ?_⟩
      rw [erange]
      simp only [true_or, true_iff]
      omega

theorem converted_unsigned :
    (converted false negative magnitude endptr).value =
        (if magnitude ≤ ULONG_MAX then signed negative magnitude % 18446744073709551616
          else ULONG_MAX) ∧
      ((converted false negative magnitude endptr).erange = true ↔ ULONG_MAX < magnitude) := by
  have max_ : ULONG_MAX = 18446744073709551615 := rfl
  by_cases fits : magnitude ≤ ULONG_MAX
  · simp only [converted, if_pos fits, finish, signed, wrap]
    cases negative
    · simp
      omega
    · simp
      omega
  · simp only [converted, if_neg fits, finish]
    simp
    omega

theorem converted_endptr (sflag : Bool) :
    (converted sflag negative magnitude endptr).endptr = endptr := by
  unfold converted
  split <;> rfl

end Values

/-! The number that a text denotes, and the text behind it. Here a digit is one of the characters
0 to 9, A to Z and a to z. -/

def digitValue (c : UInt8) : Option Nat :=
  if 48 ≤ c ∧ c ≤ 57 then some (c.toNat - 48)
  else if 65 ≤ c ∧ c ≤ 90 then some (c.toNat - 55)
  else if 97 ≤ c ∧ c ≤ 122 then some (c.toNat - 87)
  else none

def numeralAt (radix : Nat) : Chars → List Nat × Chars
  | [] => ([], [])
  | c :: str =>
      match digitValue c with
      | some d =>
          if d < radix then (d :: (numeralAt radix str).1, (numeralAt radix str).2)
          else ([], c :: str)
      | none => ([], c :: str)

/-- A `0x` before a hexadecimal digit. -/
def isHexadecimal : Chars → Bool
  | 48 :: x :: str => (x == 88 || x == 120) && (numeralAt 16 str).1 ≠ []
  | _ => false

/-- The radix that a base stands for, with the text from its first digit on. No radix has no
    digits. -/
def radixOf (base : Int) (str : Chars) : Nat × Chars :=
  if (base = 0 ∨ base = 16) ∧ isHexadecimal str then (16, str.drop 2)
  else if base = 0 then (if str.head? = some 48 then 8 else 10, str)
  else if 2 ≤ base ∧ base ≤ 36 then (base.toNat, str)
  else (0, str)

def signedPart (str : Chars) : Bool × Chars :=
  match str.dropWhile ([9, 10, 11, 12, 13, 32].contains ·) with
  | 45 :: str => (true, str)
  | 43 :: str => (false, str)
  | str => (false, str)

def denoted (str : Chars) (base : Int) : Int :=
  let (negative, s) := signedPart str
  let (radix, s) := radixOf base s
  signed negative (Nat.ofDigits radix (numeralAt radix s).1.reverse)

/-- A text without a number is left as it is. -/
def finalString (str : Chars) (base : Int) : Chars :=
  let (_, s) := signedPart str
  let (radix, s) := radixOf base s
  let (digits, rest) := numeralAt radix s
  if digits = [] then str else rest

theorem extend_zero (radix : Nat) (digits : List Nat) :
    extend radix 0 digits = Nat.ofDigits radix digits.reverse := by
  rw [Nat.ofDigits_eq_foldr, List.foldr_reverse]
  simp only [extend, Nat.cast_id, Nat.mul_comm radix, Nat.add_comm]

theorem isspace_eq : isspace = ([9, 10, 11, 12, 13, 32].contains ·) := by
  have all : ∀ n < 256, isspace (UInt8.ofNat n) = [9, 10, 11, 12, 13, 32].contains (UInt8.ofNat n) :=
    by decide +kernel
  funext c
  have same := all c.toNat c.toNat_lt
  rwa [UInt8.ofNat_toNat] at same

theorem signedPart_eq (str : Chars) : signedPart str = sign (str.dropWhile isspace) := by
  rw [signedPart, ← isspace_eq]
  split
  next s eq => rw [eq]; rfl
  next s eq => rw [eq]; rfl
  next minus plus =>
    generalize str.dropWhile isspace = s at minus plus
    cases s with
    | nil => rfl
    | cons c s =>
      have first : char (c :: s) ≠ 45 := fun h => minus s (by rw [← h]; rfl)
      have second : char (c :: s) ≠ 43 := fun h => plus s (by rw [← h]; rfl)
      rw [sign, if_neg first, if_neg second]

theorem digitOf_eq {c : UInt8} (plain : c ≠ 96) :
    (digitValue c).getD (digitOf c) = digitOf c ∧ (digitValue c = none → 36 ≤ digitOf c) := by
  have all : ∀ n < 256, n = 96 ∨ (digitValue (UInt8.ofNat n)).getD (digitOf (UInt8.ofNat n)) =
      digitOf (UInt8.ofNat n) ∧ (digitValue (UInt8.ofNat n) = none →
        36 ≤ digitOf (UInt8.ofNat n)) := by
    decide +kernel
  have same := all c.toNat c.toNat_lt
  rw [UInt8.ofNat_toNat] at same
  exact same.resolve_left fun h => plain (UInt8.toNat_inj.mp h)

theorem numeralAt_eq {radix : Nat} (most : radix ≤ 36) {str : Chars} (plain : 96 ∉ str) :
    numeralAt radix str = (digitsOf radix str, afterDigits radix str) := by
  induction str with
  | nil => rfl
  | cons c str ih =>
    obtain ⟨other, rest⟩ := not_or.mp (List.mem_cons.not.mp plain)
    obtain ⟨digit, letter⟩ := digitOf_eq (Ne.symm other)
    have stop (stops : ¬ digitOf c < radix) :
        afterDigits radix (c :: str) = c :: str := afterDigits_none (digitsOf_stop stops)
    rw [numeralAt]
    cases value : digitValue c with
    | some d =>
      rw [value, Option.getD_some] at digit
      subst digit
      by_cases small : digitOf c < radix
      · simp only [if_pos small, digitsOf_digit small, afterDigits_digit small, ih rest]
      · simp only [if_neg small, digitsOf_stop small, stop small]
    | none =>
      have large : ¬ digitOf c < radix := Nat.not_lt.mpr (Nat.le_trans most (letter value))
      simp only [digitsOf_stop large, stop large]

theorem isHexadecimal_eq {x : UInt8} {str : Chars} (plain : 96 ∉ str) :
    isHexadecimal (48 :: x :: str) =
      ((x == 88 || x == 120) && decide (digitsOf 16 str ≠ [])) := by
  rw [isHexadecimal, numeralAt_eq (by decide) plain]

theorem hex_letter (x : UInt8) : 32 ||| x = 120 ↔ x = 88 ∨ x = 120 := by
  have all : ∀ n < 256, 32 ||| UInt8.ofNat n = 120 ↔ UInt8.ofNat n = 88 ∨ UInt8.ofNat n = 120 := by
    decide +kernel
  have same := all x.toNat x.toNat_lt
  rwa [UInt8.ofNat_toNat] at same

theorem isHexadecimal_other {s : Chars} (first : char s ≠ 48) : isHexadecimal s = false := by
  unfold isHexadecimal
  split
  · exact absurd rfl first
  · rfl

theorem isHexadecimal_digit {t : Chars} (other : 32 ||| char t ≠ 120) :
    isHexadecimal (48 :: t) = false := by
  cases t with
  | nil => rfl
  | cons x u =>
    have letter : ¬ (x = 88 ∨ x = 120) := fun h => other ((hex_letter x).mpr h)
    rw [isHexadecimal]
    simp [not_or.mp letter]

theorem dynamicBase_eq {s : Chars} (plain : 96 ∉ s) (fail : Chars) {base : Int}
    (dynamic : base = 0 ∨ base = 16) :
    let b := dynamicBase base s fail
    let digits := digitsOf b.1.toNat b.2.1
    let read := numeralAt (radixOf base s).1 (radixOf base s).2
    2 ≤ b.1 ∧ b.1 ≤ 36 ∧
      Nat.ofDigits b.1.toNat digits.reverse = Nat.ofDigits (radixOf base s).1 read.1.reverse ∧
      (if digits = [] then b.2.2 else afterDigits b.1.toNat b.2.1) =
        if read.1 = [] then fail else read.2 := by
  by_cases first : char s = 48
  · obtain ⟨t, rfl⟩ : ∃ t, s = 48 :: t := by
      cases s with
      | nil => cases first
      | cons c t => exact ⟨t, congrArg (· :: t) first⟩
    have plain' : 96 ∉ t := fun member => plain (List.mem_cons_of_mem _ member)
    have octal (radix : Nat) (least : 0 < radix) (most : radix ≤ 36) :
        numeralAt radix (48 :: t) = (0 :: digitsOf radix t, afterDigits radix t) := by
      rw [numeralAt_eq most plain, digitsOf_digit (c := 48) least, afterDigits_digit (c := 48) least]
      rfl
    by_cases letter : 32 ||| char t = 120
    · obtain ⟨x, u, rfl⟩ : ∃ x u, t = x :: u := by
        cases t with
        | nil => cases letter
        | cons x u => exact ⟨x, u, rfl⟩
      have upper : x = 88 ∨ x = 120 := (hex_letter x).mp letter
      have large : 33 ≤ digitOf x := by
        obtain rfl | rfl := upper <;> decide
      have read := isHexadecimal_eq (x := x) fun member => plain' (List.mem_cons_of_mem _ member)
      have stop (radix : Nat) (small : radix ≤ 16) : digitsOf radix (x :: u) = [] :=
        digitsOf_stop (by omega)
      have shown : dynamicBase base (48 :: x :: u) fail = (16, u, x :: u) := by
        obtain rfl | rfl := dynamic <;> simp [dynamicBase, first, letter]
      rw [shown]
      by_cases digits : digitsOf 16 u = []
      · have none : isHexadecimal (48 :: x :: u) = false := by simp [read, digits]
        obtain rfl | rfl := dynamic
        · simp [radixOf, none, octal, stop, afterDigits_none, digits]
        · simp [radixOf, none, octal, stop, afterDigits_none, digits]
      · have some : isHexadecimal (48 :: x :: u) = true := by simp [read, digits, upper]
        have rest : numeralAt 16 u = (digitsOf 16 u, afterDigits 16 u) :=
          numeralAt_eq (by decide) fun member => plain' (List.mem_cons_of_mem _ member)
        simp [radixOf, some, dynamic, rest, digits]
    · have none := isHexadecimal_digit letter
      have after (radix : Nat) : (if digitsOf radix t = [] then t else afterDigits radix t) =
          afterDigits radix t := by
        split
        next none => exact (afterDigits_none none).symm
        next => rfl
      have shown : dynamicBase base (48 :: t) fail = (if base = 0 then 8 else 16, t, t) := by
        obtain rfl | rfl := dynamic <;> simp [dynamicBase, first, letter]
      rw [shown]
      obtain rfl | rfl := dynamic
      · simp [radixOf, none, octal, after]
      · simp [radixOf, none, octal, after]
  · have other := isHexadecimal_other first
    have head : s.head? ≠ some 48 := by
      cases s with
      | nil => exact nofun
      | cons c t => exact fun same => first (Option.some.inj same)
    obtain rfl | rfl := dynamic
    · simp [dynamicBase, first, radixOf, other, head, numeralAt_eq _ plain]
    · simp [dynamicBase, first, radixOf, other, numeralAt_eq _ plain]

theorem number_eq {str : Chars} (plain : 96 ∉ str) (base : Int) :
    signed (front str base).negative
        (extend (front str base).base.toNat 0 (numeral str base)) = denoted str base ∧
      endOf str base = finalString str base := by
  have parts := signedPart_eq str
  have tail : 96 ∉ (sign (str.dropWhile isspace)).2 := by
    have rest : 96 ∉ str.dropWhile isspace := fun member =>
      plain (List.dropWhile_suffix isspace |>.subset member)
    unfold sign
    split
    · exact fun member => rest (List.mem_of_mem_tail member)
    · split
      · exact fun member => rest (List.mem_of_mem_tail member)
      · exact rest
  simp only [extend_zero]
  unfold denoted finalString endOf numeral front Front.legal
  rw [parts]
  generalize sign (str.dropWhile isspace) = part at tail
  obtain ⟨negative, s⟩ := part
  simp only []
  simp only at tail
  by_cases dynamic : base = 0 ∨ base = 16
  · obtain ⟨least, most, value, rest⟩ := dynamicBase_eq tail str dynamic
    simp only [least, most, and_self, decide_true, if_true, value]
    exact ⟨trivial, rest⟩
  · have fixed : dynamicBase base s str = (base, s, str) := by rw [dynamicBase, if_neg dynamic]
    have hex : ¬ ((base = 0 ∨ base = 16) ∧ isHexadecimal s = true) := fun h => dynamic h.1
    have zero : ¬ base = 0 := fun h => dynamic (.inl h)
    have radix : radixOf base s = if 2 ≤ base ∧ base ≤ 36 then (base.toNat, s) else (0, s) := by
      rw [radixOf, if_neg hex, if_neg zero]
    simp only [fixed, radix]
    by_cases legal : 2 ≤ base ∧ base ≤ 36
    · simp only [legal, and_self, decide_true, if_true]
      rw [numeralAt_eq (by omega) tail]
      exact ⟨rfl, rfl⟩
    · have none : numeralAt 0 s = ([], s) := by
        rw [numeralAt_eq (by decide) tail, digitsOf_zero, afterDigits_none (digitsOf_zero s)]
      simp only [legal, decide_false, Bool.false_eq_true, if_false, none, List.reverse_nil,
        Nat.ofDigits_nil, if_true]
      exact ⟨trivial, trivial⟩

/-- Whatever the text, the base and the number of digits: both ways of finding out that a number is
    too large agree. If there is no backquote in the text, the signed conversion gives the nearest
    `long` and sets `errno` exactly if that is not the number; the unsigned one wraps a sign around
    and sets `errno` exactly if there are too many digits; and both end where the number does. -/
theorem strto_clamps (str : Chars) (base : Int) :
    (∀ sflag, stdlib_strto_ll_l str base sflag = stdlib_strto_l_l str base sflag) ∧
    strtoll str base = strtol str base ∧ strtoull str base = strtoul str base ∧
    (96 ∉ str →
      strtol str base =
        max (-9223372036854775808) (min 9223372036854775807 (denoted str base)) ∧
      ((stdlib_strto_l_l str base true).erange = true ↔ strtol str base ≠ denoted str base) ∧
      (strtoul str base = if (denoted str base).natAbs ≤ ULONG_MAX then
        denoted str base % 18446744073709551616 else ULONG_MAX) ∧
      ((stdlib_strto_l_l str base false).erange = true ↔ ULONG_MAX < (denoted str base).natAbs) ∧
      ∀ sflag, (stdlib_strto_l_l str base sflag).endptr = finalString str base) := by
  have work (sflag : Bool) := strto_eq addCutoff_saturating str base sflag
  have same (sflag : Bool) : stdlib_strto_ll_l str base sflag = stdlib_strto_l_l str base sflag :=
    (strto_eq addBytes_saturating str base sflag).trans (work sflag).symm
  refine ⟨same, ?_, ?_, fun plain => ?_⟩
  · rw [strtoll, strtol, same]
  · rw [strtoull, strtoul, same]
  obtain ⟨value, rest⟩ := number_eq plain base
  generalize (front str base).negative = negative at work value
  generalize extend (front str base).base.toNat 0 (numeral str base) = magnitude at work value
  have signs := converted_signed negative magnitude (endOf str base)
  have bits := converted_unsigned negative magnitude (endOf str base)
  have natAbs : magnitude = (denoted str base).natAbs := by
    rw [← value, signed]
    split <;> simp
  rw [← work true, value] at signs
  rw [← work false, value, natAbs] at bits
  refine ⟨signs.1, signs.2, bits.1, bits.2, fun sflag => ?_⟩
  rw [stdlib_strto_l_l, work sflag, converted_endptr, rest]

theorem strto_clamps_hex :
    strtol [32, 45, 48, 120, 49, 102, 103] 0 = -31 ∧
      (stdlib_strto_l_l [32, 45, 48, 120, 49, 102, 103] 0 true).endptr = [103] := by
  obtain ⟨value, -, -, -, rest⟩ := (strto_clamps [32, 45, 48, 120, 49, 102, 103] 0).2.2.2
    (by decide)
  exact ⟨value, rest true⟩

example : strtol [96] 10 = 9 ∧ denoted [96] 10 = 0 := by decide

theorem strtolDigits_eq (str : Chars) (scan : Scan) (bound : scan.number ≤ ULONG_MAX) :
    Inet.strtolDigits scan.number str = (readDigits addCutoff true 10 str scan).number := by
  induction str generalizing scan with
  | nil => rfl
  | cons c str ih =>
    by_cases digit : digitOf c < 10
    · have less : ¬ digitOf c ≥ 10 := Nat.not_le.mpr digit
      simp only [readDigits, Inet.strtolDigits, if_neg less, addCutoff]
      split
      next => exact ih ⟨ULONG_MAX, _, _, _⟩ (Nat.le_refl _)
      next cut =>
        have max_ : ULONG_MAX = 18446744073709551615 := rfl
        have fits : scan.number * 10 + digitOf c ≤ ULONG_MAX := by omega
        simp only [wrap_of_le fits]
        exact ih ⟨_, _, _, _⟩ fits
    · have stops : digitOf c ≥ 10 := Nat.not_lt.mp digit
      simp only [readDigits, Inet.strtolDigits, if_pos stops]

theorem readDigits_signed (base : Nat) (str : Chars) (scan : Scan)
    (bound : scan.number ≤ ULONG_MAX) :
    (readDigits addCutoff true base str scan).negative = scan.negative ∧
      (readDigits addCutoff true base str scan).number ≤ ULONG_MAX := by
  induction str generalizing scan with
  | nil => exact ⟨rfl, bound⟩
  | cons c str ih =>
    rw [readDigits]
    split
    next => exact ⟨rfl, bound⟩
    next =>
      split
      next number kept =>
        apply ih
        dsimp only [addCutoff] at kept
        split at kept
        · cases kept
        · cases kept
          exact Nat.le_of_lt_succ (Nat.mod_lt _ (by decide))
      next =>
        have rest := ih ⟨ULONG_MAX, scan.negative, true, str⟩ (Nat.le_refl _)
        simpa only [Bool.and_true] using rest

theorem strtol_ten (str : Chars) :
    strtol str 10 = max (-9223372036854775808) (min 9223372036854775807
      (signed (sign (str.dropWhile isspace)).1
        (Inet.strtolDigits 0 (sign (str.dropWhile isspace)).2))) := by
  generalize eq : sign (str.dropWhile isspace) = s
  have work : strtol str 10 = toLong (finish true (readDigits addCutoff true 10 s.2
      ⟨0, s.1, false, str⟩)).value := by
    rw [← eq]
    rfl
  have number := strtolDigits_eq s.2 ⟨0, s.1, false, str⟩ (Nat.zero_le _)
  obtain ⟨sign, bound⟩ := readDigits_signed 10 s.2 ⟨0, s.1, false, str⟩ (Nat.zero_le _)
  rw [work, number]
  generalize readDigits addCutoff true 10 s.2 ⟨0, s.1, false, str⟩ = scan at sign bound
  dsimp only at sign
  rw [← sign]
  exact (finish_signed scan.negative scan.number scan.fail bound scan.erange).1

theorem inet_strtol_eq (str : Chars) : Inet.strtol str = strtol str 10 := by
  have long : LONG_MAX = 9223372036854775807 := rfl
  rw [strtol_ten, Inet.strtol]
  generalize str.dropWhile isspace = s
  split
  next s =>
    simp only [sign, char, List.headD_cons, List.tail_cons, if_true, signed]
    omega
  next s =>
    have plus : sign (43 :: s) = (false, s) := rfl
    simp only [plus, signed, Bool.false_eq_true, if_false]
    omega
  next minus plus =>
    have none : sign s = (false, s) := by
      cases s with
      | nil => rfl
      | cons c s =>
        have first : char (c :: s) ≠ 45 := fun h => minus s (by rw [← h]; rfl)
        have second : char (c :: s) ≠ 43 := fun h => plus s (by rw [← h]; rfl)
        rw [sign, if_neg first, if_neg second]
    simp only [none, signed, Bool.false_eq_true, if_false]
    omega

end Stdlib
