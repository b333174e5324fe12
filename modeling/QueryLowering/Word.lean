/-!
# Integers of 64 bits

Integers are unbounded within the library. Where a query or a data text holds one, it has to fit into
64 bits with a sign.
-/

namespace QueryLowering

/-- Whether an integer fits into 64 bits with a sign. -/
def isWord (n : Int) : Bool :=
  decide (-0x8000000000000000 ≤ n ∧ n ≤ 0x7fffffffffffffff)

/-- The integers that fit are those from `-2 ^ 63` up to `2 ^ 63 - 1`. -/
@[simp]
theorem isWord_iff (n : Int) :
    isWord n ↔ -9223372036854775808 ≤ n ∧ n ≤ 9223372036854775807 := by
  simp [isWord]

end QueryLowering
