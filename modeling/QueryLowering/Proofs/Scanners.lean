import Mathlib.Data.Nat.Digits.Defs
import QueryLowering.Text.Scanner

/-!
# What scanners read

A written form is read back if every part of it is taken off the front of the text by the scanner of that
part, and what is left starts with the next part. A run of characters ends where one follows that does
not belong to it.

## Main results

* `Scanner.run_bind_of`: a scanner after another one.
* `Scanner.run_takeWhile1`, `Scanner.run_takeUpTo`: runs of characters.
* `digitsValue_padded`: a number of a fixed width.
-/

namespace QueryLowering

variable {cs rest ds : List Char} {c : Char} {p : Char → Bool}

namespace Scanner

section

variable {α β : Type} {s : Scanner α} {f : α → Scanner β} {a : α}

theorem run_bind_of (h : s.run cs = some (a, rest)) : (s >>= f).run cs = (f a).run rest := by
  rw [StateT.run_bind, h]
  rfl

theorem run_peek (cs : List Char) : peek.run cs = some (cs.head?, cs) := rfl

theorem run_takeWhile (p : Char → Bool) (cs : List Char) :
    (takeWhile p).run cs = some (cs.takeWhile p, cs.dropWhile p) := rfl

theorem run_discard (h : s.run cs = some (a, rest)) : (discard s : Scanner Unit).run cs = some ((), rest) := by
  rw [Functor.discard, map_const]
  simp [h]

theorem run_satisfy (h : p c = true) : (satisfy p).run (c :: rest) = some (c, rest) := by
  simp [satisfy, h]

theorem run_char (c : Char) (rest : List Char) : (char c).run (c :: rest) = some ((), rest) :=
  run_discard (run_satisfy (beq_self_eq_true c))

theorem run_require {b : Bool} (h : b = true) : (require b).run rest = some ((), rest) := by
  rw [h]
  rfl

theorem run_optional_none (h : s.run rest = none) : (optional s).run rest = some (none, rest) := by
  simp [optional, h]

theorem run_accepts_none (h : s.run rest = none) : (accepts s).run rest = some (false, rest) := by
  rw [accepts, run_bind_of (run_optional_none h)]
  rfl

theorem run_accepts_char (c : Char) (rest : List Char) : (accepts (char c)).run (c :: rest) = some (true, rest) := by
  have hoptional : (optional (char c)).run (c :: rest) = some (some (), rest) := by
    simp [optional, run_char]
  rw [accepts, run_bind_of hoptional]
  rfl

end

/-! ## Runs of characters -/

/-- The characters that are left start with none that satisfies a condition. -/
def Ends (p : Char → Bool) (cs : List Char) : Prop := ∀ c ∈ cs.head?, p c = false

theorem Ends.nil : Ends p [] := fun _ h => by cases h

theorem Ends.cons (hc : p c = false) : Ends p (c :: rest) := fun d hd => by
  obtain rfl : c = d := by simpa using hd
  exact hc

theorem Ends.take (h : Ends p rest) (n : Nat) : Ends p (rest.take n) := by
  cases n with
  | zero => exact .nil
  | succ n =>
    cases rest with
    | nil => exact .nil
    | cons c rest => exact h

theorem takeWhile_append_ends (hds : ∀ c ∈ ds, p c = true) (hrest : Ends p rest) :
    (ds ++ rest).takeWhile p = ds ∧ (ds ++ rest).dropWhile p = rest := by
  induction ds with
  | nil =>
    cases rest with
    | nil => exact ⟨rfl, rfl⟩
    | cons c rest =>
      have hc := hrest c rfl
      simp [hc]
  | cons d ds ih =>
    rw [List.forall_mem_cons] at hds
    simpa [hds.1] using ih hds.2

/-- Where no character of a run stands there is nothing to skip. -/
theorem run_skip (hrest : Ends p rest) : (discard (takeWhile p) : Scanner Unit).run rest = some ((), rest) := by
  obtain ⟨htake, hdrop⟩ := takeWhile_append_ends (List.forall_mem_nil _) hrest
  refine run_discard (a := []) ?_
  rw [run_takeWhile, ← List.nil_append rest, htake, hdrop]
  rfl

theorem run_takeWhile1 (hne : ds ≠ []) (hds : ∀ c ∈ ds, p c = true) (hrest : Ends p rest) :
    (takeWhile1 p).run (ds ++ rest) = some (ds, rest) := by
  obtain ⟨htake, hdrop⟩ := takeWhile_append_ends hds hrest
  rw [takeWhile1, run_bind_of (run_takeWhile p _), htake, hdrop]
  cases ds with
  | nil => exact absurd rfl hne
  | cons d ds => rfl

/-- A run of characters up to a limit that others follow, or that is as long as the limit. -/
theorem run_takeUpTo {limit : Nat} (hds : ∀ c ∈ ds, p c = true) (hlength : ds.length ≤ limit)
    (hrest : Ends p (rest.take (limit - ds.length))) : (takeUpTo limit p).run (ds ++ rest) = some (ds, rest) := by
  have htaken : ((ds ++ rest).take limit).takeWhile p = ds := by
    rw [List.take_append, List.take_of_length_le hlength]
    exact (takeWhile_append_ends hds hrest).1
  simp [takeUpTo, htaken]

theorem run_char_none (h : Ends (· == c) rest) : (char c).run rest = none := by
  cases rest with
  | nil => rfl
  | cons d rest =>
    have hne : d ≠ c := by simpa using h d rfl
    have hsatisfy : (satisfy (· == c)).run (d :: rest) = none := by
      simp [satisfy, hne]
    rw [char, Functor.discard, map_const]
    simp [hsatisfy]

end Scanner

/-! ## Digits -/

theorem digitValue_of_isDigit (hc : c.isDigit = true) : (digitValue? c).getD 0 = c.toNat - '0'.toNat := by
  have hrange : '0' ≤ c ∧ c ≤ '9' := by
    simpa [Char.isDigit, Char.le_def] using hc
  rw [digitValue?, if_pos hrange]
  rfl

theorem digitsValue_eq (hds : ∀ c ∈ ds, c.isDigit = true) :
    digitsValue 10 ds = Nat.ofDigitChars 10 ds 0 := by
  have hfold : ∀ n, ds.foldl (fun n c => n * 10 + (digitValue? c).getD 0) n = Nat.ofDigitChars 10 ds n := by
    induction ds with
    | nil => intro n; simp
    | cons d ds ih =>
      rw [List.forall_mem_cons] at hds
      intro n
      rw [List.foldl_cons, ih hds.2, Nat.ofDigitChars_cons, digitValue_of_isDigit hds.1, Nat.mul_comm]
  exact hfold 0

section

variable (width n : Nat)

theorem toList_padded : (padded width n).toList =
    List.replicate (width - (Nat.toDigits 10 n).length) '0' ++ Nat.toDigits 10 n := by
  rw [padded, String.toList_ofList]

theorem isDigit_of_mem_padded : ∀ c ∈ (padded width n).toList, c.isDigit = true := by
  rw [toList_padded, List.forall_mem_append]
  refine ⟨fun c hc => ?_, fun c hc => Nat.isDigit_of_mem_toDigits (by decide) (by decide) hc⟩
  rw [List.eq_of_mem_replicate hc]
  decide

theorem digitsValue_padded : digitsValue 10 (padded width n).toList = n := by
  rw [digitsValue_eq (isDigit_of_mem_padded width n), toList_padded, Nat.ofDigitChars_append,
    Nat.ofDigitChars_replicate_zero, Nat.mul_zero, Nat.ofDigitChars_ten_toDigits]

theorem padded_ne_nil : (padded width n).toList ≠ [] := by
  rw [toList_padded]
  simp [Nat.toDigits_ne_nil]

variable {width n}

theorem length_padded (hwidth : 0 < width) (hn : n < 10 ^ width) : (padded width n).toList.length = width := by
  have := Nat.toDigits_length 10 n width hwidth hn
  rw [toList_padded, List.length_append, List.length_replicate]
  omega

end

end QueryLowering
