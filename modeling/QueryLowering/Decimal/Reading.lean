import QueryLowering.Text.Scanner

/-!
# Numbers in a data text

A number is a sequence of digits with an optional fraction and an optional exponent. Its digits are
collected in one 64-bit significand; digits that no longer fit only move the exponent, or are dropped
in the fraction. The float is then one product or quotient of the significand with a power of ten,
so a long number may differ from the nearest float in its last bits.
-/

namespace QueryLowering

/-- Digits collected so far, `value · 10 ^ exponent`. -/
structure Significand where
  value : Nat
  exponent : Int
  /-- Whether a digit has been met that did not fit. -/
  full : Bool
deriving DecidableEq, Repr

namespace Significand

/-- No digits yet. -/
def empty : Significand := ⟨0, 0, false⟩

/-- Whether one more digit fits into 64 bits. -/
def fits (s : Significand) (digit : Nat) : Bool := s.value * 10 + digit ≤ 0xffffffffffffffff

/-- Adds a digit before the point. From the first digit that does not fit on, digits only raise the
exponent. -/
def pushWhole (s : Significand) (digit : Nat) : Significand :=
  if !s.full && s.fits digit then { s with value := s.value * 10 + digit }
  else { s with exponent := s.exponent + 1, full := true }

/-- Adds a digit after the point. From the first digit that does not fit on, digits are dropped. -/
def pushFraction (s : Significand) (digit : Nat) : Significand :=
  if !s.full && s.fits digit then ⟨s.value * 10 + digit, s.exponent - 1, false⟩
  else { s with full := true }

/-- The significand of the digits before the point. -/
def ofWhole (digits : List Char) : Significand :=
  digits.foldl (fun s c => s.pushWhole ((digitValue? c).getD 0)) empty

/-- Adds the digits after the point, which have room of their own to fit. -/
def withFraction (s : Significand) (digits : List Char) : Significand :=
  digits.foldl (fun s c => s.pushFraction ((digitValue? c).getD 0)) { s with full := false }

/-- A power of ten up to `10 ^ 308`. -/
def powerOfTen (n : Nat) : Float := Float.ofScientific 1 false n

/-- `x · 10 ^ e`, reached in steps of at most `10 ^ 308`; none if it is too large. -/
def scale : Nat → Float → Int → Option Float
  | 0, x, _ => some x
  | fuel + 1, x, e =>
    if e.natAbs ≤ 308 then
      if 0 ≤ e then
        let y := x * powerOfTen e.natAbs
        if y.isInf then none else some y
      else some (x / powerOfTen e.natAbs)
    else if x == 0 then some x
    else if 0 ≤ e then none
    else scale fuel (x / powerOfTen 308) (e + 308)

/-- The float of a significand; none if its magnitude is too large. The quotient of a 64-bit number
by `10 ^ 308` twice is zero, so three steps suffice. -/
def toFloat? (s : Significand) : Option Float := scale 3 s.value.toUInt64.toFloat s.exponent

end Significand

/-- The digits of a run of digits, at least one. -/
def Scanner.digits : Scanner (List Char) := Scanner.takeWhile1 Char.isDigit

/-- An exponent with its optional sign. -/
def Scanner.exponent : Scanner (Bool × List Char) := do
  let negative ←
    if ← Scanner.accepts (Scanner.char '-') then pure true
    else do
      discard (Scanner.accepts (Scanner.char '+'))
      pure false
  return (negative, ← Scanner.digits)

/-- Adds an exponent. One that does not fit into 32 bits is an error if it is positive and the
digits are not all zero, and gives zero otherwise. -/
def Significand.withExponent (s : Significand) (negative : Bool) (digits : List Char) :
    Option Significand :=
  let e := digitsValue 10 digits
  if 0x7fffffff < e then if s.value != 0 && !negative then none else some empty
  else some { s with exponent := if negative then s.exponent - e else s.exponent + e }

end QueryLowering
