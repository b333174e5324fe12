import QueryLowering.Decimal.Shortest

/-!
# The text of a float

A float is written with the fewest digits that read back. A layout says which magnitudes are written
positionally, how an exponent is written, and what stands for the values that are no numbers.
-/

namespace QueryLowering

/-- The decisions that a textual form of floats makes. -/
structure FloatLayout where
  /-- The least exponent of the leading digit that is written positionally. -/
  lowest : Int
  /-- The greatest exponent of the leading digit that is written positionally. -/
  highest : Int
  /-- Whether a positive exponent carries a sign. -/
  signedExponent : Bool
  /-- Which of two equally near decimals is taken. -/
  tie : Tie
  infinity : String
  negativeInfinity : String
  notANumber : String
deriving DecidableEq, Repr

namespace FloatLayout

/-- The form of a float literal in a query text: positional with at least one fraction digit from
`0.0001` below `1e16`, else scientific. -/
def query : FloatLayout :=
  { lowest := -4, highest := 15, signedExponent := false, tie := .up,
    infinity := "inf", negativeInfinity := "-inf", notANumber := "NaN" }

/-- The form of a float in a data text: positional from `0.00001` below `1e16`, else scientific with
a signed exponent. A float that is no finite number is null. -/
def data : FloatLayout :=
  { lowest := -5, highest := 15, signedExponent := true, tie := .toEven,
    infinity := "null", negativeInfinity := "null", notANumber := "null" }

/-- Digits with a point after the first one, if there are more. -/
def pointed : List Char → String
  | [] => ""
  | [c] => String.ofList [c]
  | c :: cs => String.ofList (c :: '.' :: cs)

/-- A decimal without an exponent, with at least one fraction digit. -/
def positional (digits : List Char) (leading : Int) : String :=
  if leading < 0 then
    "0." ++ String.ofList (List.replicate ((-leading).toNat - 1) '0' ++ digits)
  else
    let whole := leading.toNat + 1
    let digits := digits ++ List.replicate (whole - digits.length) '0'
    let fraction := digits.drop whole
    String.ofList (digits.take whole) ++ "."
      ++ (if fraction.isEmpty then "0" else String.ofList fraction)

/-- A decimal with an exponent. -/
def scientific (l : FloatLayout) (digits : List Char) (leading : Int) : String :=
  let sign := if leading < 0 then "-" else if l.signedExponent then "+" else ""
  pointed digits ++ "e" ++ sign ++ toString leading.natAbs

/-- The text of a positive decimal. -/
def writeDecimal (l : FloatLayout) (c : Decimal) : String :=
  let digits := Nat.toDigits 10 c.digits
  let leading := c.exponent + (digits.length : Int) - 1
  if l.lowest ≤ leading ∧ leading ≤ l.highest then positional digits leading
  else l.scientific digits leading

/-- The text of a float. -/
def write (l : FloatLayout) (x : Float) : String :=
  let bits := x.toBits.toNat
  let magnitude := bits % 0x8000000000000000
  let negative := magnitude != bits
  if 2047 * Dyadic.implicitBit < magnitude then l.notANumber
  else if magnitude = 2047 * Dyadic.implicitBit then if negative then l.negativeInfinity else l.infinity
  else
    let text :=
      if magnitude = 0 then "0.0"
      else l.writeDecimal ((Dyadic.ofBits magnitude).shortest l.tie)
    if negative then "-" ++ text else text

end FloatLayout

end QueryLowering
