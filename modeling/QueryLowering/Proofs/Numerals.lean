import Mathlib.Data.Nat.Digits.Defs
import QueryLowering.Decimal.Layout

/-!
# The texts of numbers

A number is written with digits, a point and an exponent. A minus sign stands at the front of a negative
number and in front of a negative exponent, and nowhere else.

## Main results

* `toList_toString_int`: an integer is a numeral, behind a sign if it is negative.
* `FloatLayout.write_query`: a float is a numeral, behind a sign only if it carries one.
-/

namespace QueryLowering

open List String

variable {c : Char}

/-- A character of a number other than a sign: a digit, the point, the mark of an exponent, or a letter of
what is not a finite number. -/
def isNumeral (c : Char) : Bool := c.isDigit || ['.', 'e', 'N', 'a', 'i', 'n', 'f'].contains c

/-- The text of a number without its sign: one run of characters, or two with the sign of an exponent
between them. -/
inductive Numeral : List Char → Prop
  | plain {a : List Char} : a ≠ [] → (∀ c ∈ a, isNumeral c = true) → Numeral a
  | exponent {a b : List Char} : a ≠ [] → (∀ c ∈ a, isNumeral c = true) → b ≠ [] →
      (∀ c ∈ b, isNumeral c = true) → Numeral (a ++ '-' :: b)

theorem isNumeral_of_isDigit (h : c.isDigit = true) : isNumeral c = true := by
  simp [isNumeral, h]

/-- A numeral starts with no sign. -/
theorem Numeral.head_ne {a : List Char} (h : Numeral a) : ∃ c a', a = c :: a' ∧ c ≠ '-' := by
  have hfirst : ∀ {a : List Char}, a ≠ [] → (∀ c ∈ a, isNumeral c = true) → ∃ c a', a = c :: a' ∧ c ≠ '-' := by
    intro a ha h
    obtain ⟨c, a', rfl⟩ := exists_cons_of_ne_nil ha
    refine ⟨c, a', rfl, ?_⟩
    rintro rfl
    exact absurd (h '-' mem_cons_self) (by decide)
  cases h with
  | plain hne h => exact hfirst hne h
  | @exponent a b ha h _ _ =>
    obtain ⟨c, a', rfl, hc⟩ := hfirst ha h
    exact ⟨c, a' ++ '-' :: b, rfl, hc⟩

/-! ## Whole numbers -/

theorem isNumeral_of_mem_toDigits {n : Nat} (h : c ∈ Nat.toDigits 10 n) : isNumeral c = true :=
  isNumeral_of_isDigit (Nat.isDigit_of_mem_toDigits (by decide) (by decide) h)

theorem toList_toString_nat (n : Nat) : (toString n).toList = Nat.toDigits 10 n := by
  rw [Nat.toString_eq_repr, Nat.repr, toList_ofList]

theorem isNumeral_of_mem_toString {n : Nat} (h : c ∈ (toString n).toList) : isNumeral c = true := by
  rw [toList_toString_nat] at h
  exact isNumeral_of_mem_toDigits h

theorem numeral_toDigits (n : Nat) : Numeral (Nat.toDigits 10 n) :=
  .plain Nat.toDigits_ne_nil fun _ => isNumeral_of_mem_toDigits

/-- An integer is written with digits, behind a sign if it is negative. -/
theorem toList_toString_int (n : Int) : (toString n).toList =
    if 0 ≤ n then Nat.toDigits 10 n.toNat else '-' :: Nat.toDigits 10 (-n).toNat := by
  rw [Int.toString_eq_repr, Int.repr_eq_if]
  split
  · rw [Nat.repr, toList_ofList]
  · rw [toList_append, Nat.repr, toList_ofList]
    simp

/-! ## Floats -/

namespace FloatLayout

variable {digits : List Char}

theorem isNumeral_pointed (h : ∀ c ∈ digits, isNumeral c = true) :
    ∀ c ∈ (pointed digits).toList, isNumeral c = true := by
  unfold pointed
  split
  · simp
  · simpa using h
  · next x rest =>
    rw [toList_ofList]
    rw [forall_mem_cons] at h
    simp only [forall_mem_cons]
    exact ⟨h.1, by decide, h.2⟩

theorem numeral_positional (h : ∀ c ∈ digits, isNumeral c = true) (leading : Int) :
    Numeral (positional digits leading).toList := by
  have hzeros : ∀ k, ∀ c ∈ List.replicate k '0', isNumeral c = true := by
    intro k c hc
    rw [eq_of_mem_replicate hc]
    decide
  have hword : ∀ cs : List Char, cs.all isNumeral = true → ∀ c ∈ cs, isNumeral c = true :=
    fun _ h => all_eq_true.1 h
  unfold positional
  split
  · simp only [toList_append, toList_ofList]
    refine .plain (by simp) fun c hc => ?_
    simp only [mem_append] at hc
    rcases hc with hc | hc | hc
    · exact hword _ (by decide) c hc
    · exact hzeros _ c hc
    · exact h c hc
  · have hpadded : ∀ k, ∀ c ∈ digits ++ List.replicate k '0', isNumeral c = true :=
      fun k => forall_mem_append.2 ⟨h, hzeros k⟩
    simp only [toList_append, toList_ofList]
    refine .plain (by simp) fun c hc => ?_
    simp only [mem_append] at hc
    rcases hc with (hc | hc) | hc
    · exact hpadded _ c (mem_of_mem_take hc)
    · exact hword _ (by decide) c hc
    · split at hc
      · exact hword _ (by decide) c hc
      · rw [toList_ofList] at hc
        exact hpadded _ c (mem_of_mem_drop hc)

theorem numeral_scientific (h : ∀ c ∈ digits, isNumeral c = true) (leading : Int) :
    Numeral (query.scientific digits leading).toList := by
  have hfront : ∀ c ∈ (pointed digits).toList ++ ['e'], isNumeral c = true :=
    forall_mem_append.2 ⟨isNumeral_pointed h, forall_mem_singleton.2 (by decide)⟩
  have hback : ∀ c ∈ Nat.toDigits 10 leading.natAbs, isNumeral c = true := fun _ => isNumeral_of_mem_toDigits
  by_cases hneg : leading < 0
  · have htext : (query.scientific digits leading).toList =
        ((pointed digits).toList ++ ['e']) ++ '-' :: Nat.toDigits 10 leading.natAbs := by
      simp [scientific, hneg, toList_append]
    rw [htext]
    exact .exponent (by simp) hfront Nat.toDigits_ne_nil hback
  · have htext : (query.scientific digits leading).toList =
        (pointed digits).toList ++ ['e'] ++ Nat.toDigits 10 leading.natAbs := by
      simp [scientific, hneg, query, toList_append]
    rw [htext]
    exact .plain (by simp) (forall_mem_append.2 ⟨hfront, hback⟩)

theorem numeral_writeDecimal (x : Decimal) : Numeral (query.writeDecimal x).toList := by
  have h : ∀ c ∈ Nat.toDigits 10 x.digits, isNumeral c = true := fun _ => isNumeral_of_mem_toDigits
  unfold writeDecimal
  dsimp only
  split
  · exact numeral_positional h _
  · exact numeral_scientific h _

/-- Whether the sign of a float is set. -/
def isSigned (x : Float) : Bool := x.toBits.toNat % 0x8000000000000000 != x.toBits.toNat

/-- A float is written as a numeral, behind a sign only if it has one. -/
theorem write_query (x : Float) : ∃ cs, Numeral cs ∧
    ((query.write x).toList = cs ∨ isSigned x = true ∧ (query.write x).toList = '-' :: cs) := by
  have hword : ∀ cs : List Char, cs ≠ [] → cs.all isNumeral = true → Numeral cs :=
    fun cs hne h => .plain hne (all_eq_true.1 h)
  have hunsigned : ∀ text : String, Numeral text.toList → ∃ cs, Numeral cs ∧
      ((if isSigned x then "-" ++ text else text).toList = cs ∨
        isSigned x = true ∧ (if isSigned x then "-" ++ text else text).toList = '-' :: cs) := by
    intro text htext
    refine ⟨text.toList, htext, ?_⟩
    split
    · next hsigned => exact .inr ⟨hsigned, by rw [toList_append]; rfl⟩
    · exact .inl rfl
  unfold write
  dsimp only
  split
  · exact ⟨_, hword "NaN".toList (by decide) (by decide), .inl rfl⟩
  · split
    · -- The text of an infinity is that of a word behind the sign.
      exact hunsigned "inf" (hword _ (by decide) (by decide))
    · refine hunsigned _ ?_
      split
      · exact hword _ (by decide) (by decide)
      · exact numeral_writeDecimal _

end FloatLayout

end QueryLowering
