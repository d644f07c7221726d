/-!
# The range of double-precision numbers

A decimal number is read as a double by rounding its digits and its power of ten
to 53 significant bits each, and multiplying. It is **too large** for a double
if the product is so large that rounding takes it beyond the largest of them.
All of this is exact arithmetic of natural numbers.
-/

namespace Phrasebook

/-- A natural number rounded to 53 significant bits, a tie going to the even
neighbour. -/
def roundBits (n : Nat) : Nat :=
  if n < Nat.pow 2 53 then n
  else
    let unit := Nat.pow 2 (n.log2 - 52)
    let low := n / unit
    let rest := n % unit
    if unit < 2 * rest || (2 * rest = unit && low % 2 = 1) then (low + 1) * unit else low * unit

/-- The least product that is rounded beyond the largest double: halfway from
that to the next power of two. -/
def overflowBound : Nat :=
  Nat.pow 2 1024 - Nat.pow 2 970

/-- **Whether `significand` times ten to the `exponent` is too large for a
double.** -/
def isTooLarge (significand : Nat) (exponent : Int) : Bool :=
  significand ≠ 0 && 0 ≤ exponent &&
    (308 < exponent ||
      overflowBound ≤ roundBits significand * roundBits (Nat.pow 10 exponent.toNat))

/-- Appends digits to a number while it fits into 64 bits; gives the number and
the digits that no longer fit. -/
def appendDigits (n : Nat) : List Char → Nat × List Char
  | [] => (n, [])
  | d :: ds =>
    let n' := 10 * n + (d.toNat - '0'.toNat)
    if n' < Nat.pow 2 64 then appendDigits n' ds else (n, d :: ds)

/-- The natural number that digits denote. -/
def digitsValue (ds : List Char) : Nat :=
  ds.foldl (fun n d => 10 * n + (d.toNat - '0'.toNat)) 0

/-- Whether a number is too large for a double, from its whole digits, the digits
of its fraction and its exponent. Of its digits those count that fit into 64
bits; a whole digit that does not multiplies by ten, and one of the fraction is
dropped. -/
def decimalTooLarge (whole fraction : List Char) (exponent : Int) : Bool :=
  let (n, left) := appendDigits 0 whole
  let (n, left') := appendDigits n fraction
  isTooLarge n (exponent + left.length - (fraction.length - left'.length))

end Phrasebook
