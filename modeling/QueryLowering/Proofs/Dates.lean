import QueryLowering.Calendar.DateTime
import QueryLowering.Proofs.Scanners

/-!
# Dates are read back

The written form of a date with a time of day has a fixed number of digits in every part but a year behind
a sign and the fraction, and what follows a part is never a digit.

## Main results

* `DateTime.parse?_iso`: the written form of a date that exists is read as that date.
-/

namespace QueryLowering

namespace DateTime

open Scanner

variable {c : Char} {rest : List Char}

theorem run_blanks (hrest : Ends isBlank rest) : blanks.run rest = some ((), rest) := run_skip hrest

theorem isBlank_of_isDigit (hc : c.isDigit = true) : isBlank c = false := by
  have hrange : 48 ≤ c.toNat ∧ c.toNat ≤ 57 := by
    simpa [Char.isDigit, UInt32.le_iff_toNat_le] using hc
  simp only [isBlank, Bool.or_eq_false_iff, Bool.and_eq_false_iff, decide_eq_false_iff_not, beq_eq_false_iff_ne]
  omega

theorem ends_isBlank_padded (width n : Nat) (rest : List Char) : Ends isBlank ((padded width n).toList ++ rest) := by
  obtain ⟨d, ds, hds⟩ := List.exists_cons_of_ne_nil (padded_ne_nil width n)
  rw [hds]
  exact .cons (isBlank_of_isDigit (isDigit_of_mem_padded width n d (hds ▸ List.mem_cons_self)))

/-- A number of a fixed width in front of what is no digit. -/
theorem run_number {width n : Nat} (hwidth : 0 < width) (hn : n < 10 ^ width) (hrest : Ends Char.isDigit rest) :
    (number width).run ((padded width n).toList ++ rest) = some (n, rest) := by
  rw [number, run_bind_of (run_blanks (ends_isBlank_padded width n rest)),
    run_bind_of (run_takeUpTo (isDigit_of_mem_padded width n) (Nat.le_of_eq (length_padded hwidth hn)) (hrest.take _))]
  have hvalue := digitsValue_padded width n
  cases hds : (padded width n).toList with
  | nil => exact absurd hds (padded_ne_nil width n)
  | cons d ds =>
    rw [hds] at hvalue
    simp [hvalue]

theorem run_separator (hc : isBlank c = false) : (separator c).run (c :: rest) = some ((), rest) := by
  rw [separator, run_bind_of (run_blanks (.cons hc)), run_char]

theorem head_padded (width n : Nat) (rest : List Char) :
    ∃ d, d.isDigit = true ∧ ((padded width n).toList ++ rest).head? = some d := by
  obtain ⟨d, ds, hds⟩ := List.exists_cons_of_ne_nil (padded_ne_nil width n)
  exact ⟨d, isDigit_of_mem_padded width n d (hds ▸ List.mem_cons_self), by rw [hds]; rfl⟩

/-- A number behind a sign. -/
theorem run_signed (n : Nat) (hrest : Ends Char.isDigit rest) :
    (takeWhile1 Char.isDigit).run ((padded 4 n).toList ++ rest) = some ((padded 4 n).toList, rest) :=
  run_takeWhile1 (padded_ne_nil 4 n) (isDigit_of_mem_padded 4 n) hrest

/-- A year is read back in front of what is no digit. -/
theorem run_yearNumber (year : Int) (hrest : Ends Char.isDigit rest) :
    yearNumber.run ((yearText year).toList ++ rest) = some (year, rest) := by
  rw [yearText]
  split
  · next h =>
    obtain ⟨d, hd, hhead⟩ := head_padded 4 year.toNat rest
    have hyear : ((year.toNat : Nat) : Int) = year := Int.toNat_of_nonneg h.1
    rw [yearNumber, run_bind_of (run_blanks (ends_isBlank_padded _ _ _)), run_bind_of (run_peek _), hhead]
    split
    · next hd' => exact absurd (Option.some.inj hd' ▸ hd) (by decide)
    · next hd' => exact absurd (Option.some.inj hd' ▸ hd) (by decide)
    · rw [run_bind_of (run_number (by decide) (by omega) hrest), hyear]
      rfl
  · next h =>
    by_cases hneg : year < 0
    · have hyear : -((year.natAbs : Nat) : Int) = year := by omega
      rw [if_pos hneg, String.toList_append, show "-".toList = ['-'] from rfl, List.append_assoc,
        List.singleton_append, yearNumber, run_bind_of (run_blanks (Ends.cons (by decide))),
        run_bind_of (run_peek _)]
      simp only [List.head?_cons]
      rw [run_bind_of (run_char _ _), run_bind_of (run_signed _ hrest), digitsValue_padded, hyear]
      rfl
    · have hyear : ((year.natAbs : Nat) : Int) = year := by omega
      rw [if_neg hneg, String.toList_append, show "+".toList = ['+'] from rfl, List.append_assoc,
        List.singleton_append, yearNumber, run_bind_of (run_blanks (Ends.cons (by decide))),
        run_bind_of (run_peek _)]
      simp only [List.head?_cons]
      rw [run_bind_of (run_char _ _), run_bind_of (run_signed _ hrest), digitsValue_padded, hyear]
      rfl

/-- The fraction of a point and digits up to the end. -/
theorem run_fraction_point {width n : Nat} (hwidth : 0 < width) (hle : width ≤ 9) (hn : n < 10 ^ width) :
    fraction.run ('.' :: (padded width n).toList) = some (n * 10 ^ (9 - width), []) := by
  have hdigits : (takeWhile1 Char.isDigit).run (padded width n).toList = some ((padded width n).toList, []) := by
    have h := run_takeWhile1 (padded_ne_nil width n) (isDigit_of_mem_padded width n) .nil
    rwa [List.append_nil] at h
  have hlength := length_padded hwidth hn
  rw [fraction, run_bind_of (run_accepts_char _ _)]
  simp only [↓reduceIte]
  rw [run_bind_of hdigits]
  rw [List.take_of_length_le (by omega), digitsValue_padded, hlength]
  rfl

theorem run_fraction (d : DateTime) (hnano : d.nanosecond < 1000000000) :
    fraction.run d.fractionText.toList = some (d.nanosecond, []) := by
  have hpoint : ∀ {width n : Nat}, 0 < width → width ≤ 9 → n < 10 ^ width →
      fraction.run ("." ++ padded width n).toList = some (n * 10 ^ (9 - width), []) := by
    intro width n hwidth hle hn
    rw [String.toList_append]
    exact run_fraction_point hwidth hle hn
  simp only [fractionText, beq_iff_eq]
  split
  · next h =>
    rw [h]
    rfl
  · split
    · next h =>
      rw [hpoint (by decide) (by decide) (by omega)]
      congr 2
      omega
    · split
      · next h =>
        rw [hpoint (by decide) (by decide) (by omega)]
        congr 2
        omega
      · rw [hpoint (by decide) (by decide) (by omega), Nat.sub_self, Nat.pow_zero, Nat.mul_one]

theorem ends_fractionText (d : DateTime) : Ends Char.isDigit d.fractionText.toList := by
  have hpoint : ∀ text : String, Ends Char.isDigit ("." ++ text).toList := by
    intro text
    rw [String.toList_append]
    exact Ends.cons (by decide)
  simp only [fractionText]
  split
  · exact .nil
  · split
    · exact hpoint _
    · split
      · exact hpoint _
      · exact hpoint _

/-- The written form of a date that exists is read back. -/
theorem parse?_iso (d : DateTime) (hvalid : d.isValid = true) (hnano : d.nanosecond < 1000000000) :
    parse? d.iso = some d := by
  have hday : daysIn d.year d.month ≤ 31 := by
    simp only [daysIn]
    split_ifs <;> decide
  have hparts : d.month < 10 ^ 2 ∧ d.day < 10 ^ 2 ∧ d.hour < 10 ^ 2 ∧ d.minute < 10 ^ 2 ∧ d.second < 10 ^ 2 := by
    simp only [isValid, Bool.and_eq_true, decide_eq_true_eq] at hvalid
    omega
  obtain ⟨hmonth, hday, hhour, hminute, hsecond⟩ := hparts
  have htext : d.iso.toList = (yearText d.year).toList ++ '-' :: ((padded 2 d.month).toList ++ '-' ::
      ((padded 2 d.day).toList ++ 'T' :: ((padded 2 d.hour).toList ++ ':' :: ((padded 2 d.minute).toList ++ ':' ::
        ((padded 2 d.second).toList ++ d.fractionText.toList))))) := by
    simp [iso, dateText, clockText]
  have hrun : scan.run d.iso.toList = some (d, []) := by
    rw [htext, scan, run_bind_of (run_yearNumber d.year (Ends.cons (by decide))),
      run_bind_of (run_separator (by decide)), run_bind_of (run_number (by decide) hmonth (Ends.cons (by decide))),
      run_bind_of (run_separator (by decide)), run_bind_of (run_number (by decide) hday (Ends.cons (by decide))),
      run_bind_of (run_separator (by decide)), run_bind_of (run_number (by decide) hhour (Ends.cons (by decide))),
      run_bind_of (run_separator (by decide)), run_bind_of (run_number (by decide) hminute (Ends.cons (by decide))),
      run_bind_of (run_separator (by decide)), run_bind_of (run_number (by decide) hsecond d.ends_fractionText),
      run_bind_of (d.run_fraction hnano), run_bind_of (run_blanks .nil), run_bind_of (run_require hvalid)]
    rfl
  rw [parse?, Scanner.parse?, hrun]

end DateTime

end QueryLowering
