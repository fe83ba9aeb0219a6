import Mathlib.Algebra.Order.Ring.Int
import Mathlib.Data.List.Basic
import Mathlib.Tactic.Common

/-!
The textual form of internet addresses: `inet_ntoa` and `inet_aton`, over the integer
conversions of the C library. Texts are lists of bytes without the final zero.
-/
namespace Inet

def dot : UInt8 := 46
def ULONG_MAX : Nat := 18446744073709551615
def LONG_MAX : Nat := 9223372036854775807
def INET_ADDRSTRLEN : Nat := 16

def isdigit (ch : UInt8) : Bool := (ch - 48).toNat ≤ 9
def isspace (ch : UInt8) : Bool := ch = 32 ∨ (ch - 9).toNat ≤ 13 - 9

/-- The digit that `strtol` reads, 40 for what is none; a `char` is signed. -/
def digitOf (ch : UInt8) : Nat :=
  if isdigit ch then (ch - 48).toNat
  else if 65 ≤ ch.toNat ∧ ch.toNat < 128 then ((32 ||| ch) - 97 + 10).toNat
  else 40

/-- The loop of `_stdlib_strto_l_l` for the base ten. -/
def strtolDigits (number : Nat) : List UInt8 → Nat
  | [] => number
  | ch :: str =>
      if digitOf ch ≥ 10 then number
      else if number > ULONG_MAX / 10 ∨
          (number = ULONG_MAX / 10 ∧ digitOf ch > ULONG_MAX % 10) then
        strtolDigits ULONG_MAX str
      else strtolDigits (number * 10 + digitOf ch) str

def strtol (str : List UInt8) : Int :=
  match str.dropWhile isspace with
  | 45 :: str => -(min (strtolDigits 0 str) (LONG_MAX + 1) : Nat)
  | 43 :: str => (min (strtolDigits 0 str) LONG_MAX : Nat)
  | str => (min (strtolDigits 0 str) LONG_MAX : Nat)

/-- `atoi`, read as the `uint32_t` that its caller makes of it. -/
def atoi (str : List UInt8) : Nat := (strtol str % 2 ^ 32).toNat

/-- The loop of `_uintmaxtostr`; 64 bits have no more than twenty digits. -/
def uintmaxtostr : Nat → Nat → List UInt8 → List UInt8
  | 0, _, buf => buf
  | fuel + 1, uval, buf =>
      let buf := UInt8.ofNat (uval % 10 + 48) :: buf
      if uval / 10 = 0 then buf else uintmaxtostr fuel (uval / 10) buf

def decimal (uval : Nat) : List UInt8 := uintmaxtostr 20 uval []

structure InAddr where
  s_addr : UInt32
  deriving DecidableEq, Repr

def InAddr.octets (a : InAddr) : List UInt8 :=
  [UInt8.ofNat a.s_addr.toNat, UInt8.ofNat (a.s_addr.toNat / 256),
    UInt8.ofNat (a.s_addr.toNat / 65536), UInt8.ofNat (a.s_addr.toNat / 16777216)]

def InAddr.ofOctets (res : List UInt8) : InAddr :=
  ⟨UInt32.ofNat (res.foldr (fun b n => b.toNat + 256 * n) 0)⟩

/-- `snprintf` writes the four numbers; a text that is too long is not returned. -/
def inet_ntoa (a : InAddr) : Option (List UInt8) :=
  let text := [dot].intercalate (a.octets.map fun octet => decimal octet.toNat)
  if text.length ≥ INET_ADDRSTRLEN then none else some text

/-- The loop of `inet_aton`: the characters of the current number and the octets that
    are complete, as many as there were dots. -/
def inetLoop : List UInt8 → List UInt8 → List UInt8 → Option (List UInt8 × List UInt8)
  | [], c, res => some (c, res)
  | ch :: p, c, res =>
      if ch = dot then
        if res.length = 3 then none
        else
          let v := atoi c
          if v > 0xFF then none else inetLoop p [] (res ++ [UInt8.ofNat v])
      else if c.length = 3 then none
      else if ¬ isdigit ch then none
      else inetLoop p (c ++ [ch]) res

/-- The result, and the address `inp` points to afterwards. -/
def inet_aton (ip : Option (List UInt8)) (inp : Option InAddr) : Nat × Option InAddr :=
  match ip, inp with
  | some ip, some _ =>
      if ip.length ≥ INET_ADDRSTRLEN then (0, inp)
      else
        match inetLoop ip [] [] with
        | none => (0, inp)
        | some (c, res) =>
            if res.length ≠ 3 then (0, inp)
            else
              let v := atoi c
              if v > 0xFF then (0, inp)
              else (1, some (.ofOctets (res ++ [UInt8.ofNat v])))
  | _, _ => (0, inp)

end Inet
