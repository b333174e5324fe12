/-!
# Shortest decimals

A finite 64-bit float is a dyadic number `m · 2 ^ q`. Every real of an interval around it rounds to
it, and the shortest decimal is the one with the fewest digits in that interval. Among decimals of
that length the nearest to the float is taken, and a tie goes as the caller says.
-/

namespace QueryLowering

/-- A positive number `mantissa · 2 ^ exponent`. -/
structure Dyadic where
  mantissa : Nat
  exponent : Int
  /-- Whether the next smaller float is only half as far away as the next larger one. -/
  atBoundary : Bool
deriving DecidableEq, Repr

/-- The number `digits · 10 ^ exponent`. -/
structure Decimal where
  digits : Nat
  exponent : Int
deriving DecidableEq, Repr

/-- Which of two equally near decimals is taken. -/
inductive Tie where
  | up
  | toEven
deriving DecidableEq, Repr

namespace Dyadic

/-- The leading bit of a mantissa, `2 ^ 52`, which the bits of a float leave out. -/
def implicitBit : Nat := 0x10000000000000

/-- The dyadic number behind the bits of a positive finite float. -/
def ofBits (bits : Nat) : Dyadic :=
  let fraction : Nat := bits % implicitBit
  let biased : Nat := bits / implicitBit % 2048
  if biased = 0 then ⟨fraction, -1074, false⟩
  else ⟨implicitBit + fraction, (biased : Int) - 1075, decide (fraction = 0 ∧ 1 < biased)⟩

/-- `a · 2 ^ q` compared with `b · 10 ^ e`: both sides over a common denominator. -/
def scaled (a : Nat) (q : Int) (b : Nat) (e : Int) : Nat × Nat :=
  (a * Nat.pow 2 q.toNat * Nat.pow 10 (-e).toNat, b * Nat.pow 10 e.toNat * Nat.pow 2 (-q).toNat)

/-- Whether `a · 2 ^ q ≤ b · 10 ^ e`. -/
def leDecimal (a : Nat) (q : Int) (b : Nat) (e : Int) : Bool :=
  let (x, y) := scaled a q b e
  decide (x ≤ y)

/-- Whether `b · 10 ^ e ≤ a · 2 ^ q`. -/
def geDecimal (a : Nat) (q : Int) (b : Nat) (e : Int) : Bool :=
  let (x, y) := scaled a q b e
  decide (y ≤ x)

/-- The exponent `k` with `10 ^ k ≤ d < 10 ^ (k + 1)`. -/
def leadingExponent (d : Dyadic) : Int :=
  let guess := (d.exponent + (Nat.log2 d.mantissa : Int)) * 30103 / 100000
  let reached (k : Int) : Bool := geDecimal d.mantissa d.exponent 1 k
  if reached (guess + 1) then guess + 1 else if reached guess then guess else guess - 1

/-- Whether a decimal lies in the interval of reals that round to a dyadic number. The ends belong
to the interval exactly if the mantissa is even. -/
def covers (d : Dyadic) (c : Decimal) : Bool :=
  let low := 4 * d.mantissa - (if d.atBoundary then 1 else 2)
  let high := 4 * d.mantissa + 2
  let q := d.exponent - 2
  let closed := d.mantissa % 2 == 0
  let aboveLow := leDecimal low q c.digits c.exponent
    && (closed || !geDecimal low q c.digits c.exponent)
  let belowHigh := geDecimal high q c.digits c.exponent
    && (closed || !leDecimal high q c.digits c.exponent)
  aboveLow && belowHigh

/-- Of the two neighbours of a dyadic number on a grid of decimals, the one to take, if any rounds to
the number. -/
def nearestOnGrid (tie : Tie) (d : Dyadic) (e : Int) : Option Decimal :=
  let (num, den) := scaled d.mantissa d.exponent 1 e
  let below : Decimal := ⟨num / den, e⟩
  let above : Decimal := ⟨num / den + 1, e⟩
  let twice := 2 * (num % den)
  match d.covers below, d.covers above with
  | true, true =>
    if twice < den then some below
    else if den < twice then some above
    else
      match tie with
      | .up => some above
      | .toEven => if below.digits % 2 == 0 then some below else some above
  | true, false => some below
  | false, true => some above
  | false, false => none

/-- Drops zeros at the end of the digits; the number stays the same. -/
def trimmed : Nat → Decimal → Decimal
  | 0, c => c
  | n + 1, c =>
    if c.digits % 10 == 0 && c.digits != 0 then trimmed n ⟨c.digits / 10, c.exponent + 1⟩ else c

/-- The shortest decimal that rounds to a positive dyadic number. Seventeen digits always suffice. -/
def shortest (tie : Tie) (d : Dyadic) : Decimal :=
  let k := d.leadingExponent
  let grids := (List.range 17).map fun (n : Nat) => k - (n : Int)
  match grids.findSome? (nearestOnGrid tie d) with
  | some c => trimmed 17 c
  | none => ⟨0, 0⟩

end Dyadic

end QueryLowering
