import QueryLowering.Proofs.Numerals
import QueryLowering.Text.Quoted

/-!
# Comments in SQL text

A reader of SQL text goes over it character by character. Inside a string or a quoted name only the
closing character counts, and two of them stand for one. Outside, two minus signs, or a slash and a star,
open a comment.

A statement is put together from pieces, and pieces can fuse where they meet: two minus signs become a
comment, two quotes become one inside a string. A piece that leaves a reader outside of quotes is one that
text may follow, and a piece that brings the reader back to where it started, whatever came before it,
separates what stands on its two sides.

## Main results

* `Scan.run_quoted`: a quoted text is read as a whole, whatever stands in it.
* `Scan.run_of_calm`, `Scan.lands_numeral`: words separate, and text may follow numbers.
-/

namespace QueryLowering

/-- What a reader of SQL text knows about the characters that it has read. -/
inductive Scan where
  /-- Nothing that matters to the next character. -/
  | plain
  /-- The last character was a minus sign. -/
  | minus
  /-- The last character was a slash. -/
  | slash
  /-- Inside a string or a quoted name that a character closes. -/
  | quoted (closing : Char)
  /-- Behind a closing character, which the same character once more would make a part of the text. -/
  | closed (closing : Char)
  | comment
deriving DecidableEq

namespace Scan

/-- The character that closes what another one opens. -/
def closing? (c : Char) : Option Char :=
  if c = Quoted.stringQuote then some Quoted.stringQuote
  else if c = '[' then some ']'
  else if c = '"' then some '"'
  else none

/-- The reader after a character outside of quotes that makes no comment. -/
def outside (c : Char) : Scan :=
  if c = '-' then minus
  else if c = '/' then slash
  else (closing? c).elim plain quoted

/-- The reader after one more character. -/
def step : Scan → Char → Scan
  | plain, c => outside c
  | minus, c => if c = '-' then comment else outside c
  | slash, c => if c = '*' then comment else outside c
  | quoted q, c => if c = q then closed q else quoted q
  | closed q, c => if c = q then quoted q else outside c
  | comment, _ => comment

/-- The reader after some more characters. -/
def run (s : Scan) (text : List Char) : Scan := text.foldl step s

/-- A text that opens a comment outside of strings and quoted names. -/
def OpensComment (text : String) : Prop := run plain text.toList = comment

instance (text : String) : Decidable (OpensComment text) := inferInstanceAs (Decidable (_ = _))

variable {s : Scan} {c q : Char} {a b : List Char} {text : String}

@[simp]
theorem run_nil (s : Scan) : run s [] = s := rfl

@[simp]
theorem run_cons (s : Scan) (c : Char) (a : List Char) : run s (c :: a) = run (step s c) a := rfl

@[simp]
theorem run_append (s : Scan) (a b : List Char) : run s (a ++ b) = run (run s a) b := List.foldl_append

@[simp]
theorem run_comment (a : List Char) : run comment a = comment := by
  induction a with
  | nil => rfl
  | cons c a ih => exact ih

/-! ## Where pieces end -/

/-- The reader at the end of a piece that other text may follow. -/
def ends : List Scan := [plain, minus, slash, closed Quoted.stringQuote, closed ']', closed '"']

/-- A piece of text that other text may follow. -/
def Lands (text : String) : Prop := run plain text.toList ∈ ends

instance (text : String) : Decidable (Lands text) := inferInstanceAs (Decidable (_ ∈ _))

/-- A piece of text that separates what stands on its two sides. -/
def Resets (text : String) : Prop := ∀ s ∈ ends, run s text.toList = plain

instance (text : String) : Decidable (Resets text) := inferInstanceAs (Decidable (∀ s ∈ ends, _ = _))

theorem Resets.lands (h : Resets text) : Lands text := by
  rw [Lands, h plain (by decide)]
  decide

/-- A piece that separates has a first character, which is no minus sign. -/
theorem Resets.toList_eq (h : Resets text) : ∃ c a, text.toList = c :: a ∧ c ≠ '-' := by
  have hminus : run minus text.toList = plain := h minus (by decide)
  cases htext : text.toList with
  | nil =>
    rw [htext] at hminus
    cases hminus
  | cons c a =>
    refine ⟨c, a, rfl, ?_⟩
    rintro rfl
    rw [htext, run_cons] at hminus
    simp [step] at hminus

/-! ## Words and numbers -/

/-- A character that neither starts a comment nor touches a quote. -/
def isCalm (c : Char) : Bool :=
  c != '-' && c != '/' && c != '*' && c != Quoted.stringQuote && c != '[' && c != ']' && c != '"'

theorem step_of_isCalm (hs : s ∈ ends) (hc : isCalm c = true) : step s c = plain := by
  simp only [isCalm, Bool.and_eq_true, bne_iff_ne, ne_eq] at hc
  obtain ⟨⟨⟨⟨⟨⟨hminus, hslash⟩, hstar⟩, hstring⟩, hopen⟩, hclose⟩, hname⟩ := hc
  have houtside : outside c = plain := by
    simp [outside, closing?, hminus, hslash, hstring, hopen, hname]
  simp only [ends, List.mem_cons, List.not_mem_nil, or_false] at hs
  rcases hs with rfl | rfl | rfl | rfl | rfl | rfl
  · exact houtside
  · simp only [step, if_neg hminus, houtside]
  · simp only [step, if_neg hstar, houtside]
  · simp only [step, if_neg hstring, houtside]
  · simp only [step, if_neg hclose, houtside]
  · simp only [step, if_neg hname, houtside]

theorem run_plain_of_calm (h : ∀ c ∈ a, isCalm c = true) : run plain a = plain := by
  induction a with
  | nil => rfl
  | cons c a ih =>
    rw [List.forall_mem_cons] at h
    rw [run_cons, step_of_isCalm (by decide) h.1]
    exact ih h.2

theorem run_of_calm (hs : s ∈ ends) (ha : a ≠ []) (h : ∀ c ∈ a, isCalm c = true) : run s a = plain := by
  obtain ⟨c, a, rfl⟩ := List.exists_cons_of_ne_nil ha
  rw [List.forall_mem_cons] at h
  rw [run_cons, step_of_isCalm hs h.1]
  exact run_plain_of_calm h.2

theorem lands_of_calm (h : ∀ c ∈ text.toList, isCalm c = true) : Lands text := by
  rw [Lands, run_plain_of_calm h]
  decide

theorem isCalm_of_isNumeral (h : isNumeral c = true) : isCalm c = true := by
  have hne : ∀ x : Char, isNumeral x = false → c ≠ x := by
    rintro x hx rfl
    rw [hx] at h
    cases h
  simp only [isCalm, Bool.and_eq_true, bne_iff_ne]
  exact ⟨⟨⟨⟨⟨⟨hne _ (by decide), hne _ (by decide)⟩, hne _ (by decide)⟩, hne _ (by decide)⟩, hne _ (by decide)⟩,
    hne _ (by decide)⟩, hne _ (by decide)⟩

/-- The sign of an exponent opens no comment. -/
theorem run_numeral (hs : s ∈ ends) (h : Numeral a) : run s a = plain := by
  cases h with
  | plain hne h => exact run_of_calm hs hne fun c hc => isCalm_of_isNumeral (h c hc)
  | @exponent a b ha hcalm hb hcalm' =>
    rw [run_append, run_of_calm hs ha fun c hc => isCalm_of_isNumeral (hcalm c hc), run_cons]
    exact run_of_calm (by decide) hb fun c hc => isCalm_of_isNumeral (hcalm' c hc)

/-- Text may follow a number, with or without a sign. -/
theorem lands_of_numeral (h : Numeral a) (htext : text.toList = a ∨ text.toList = '-' :: a) : Lands text := by
  rw [Lands]
  rcases htext with htext | htext
  · rw [htext, run_numeral (by decide) h]
    decide
  · rw [htext, run_cons, run_numeral (by decide) h]
    decide

theorem lands_int (n : Int) : Lands (toString n) := by
  have htext := toList_toString_int n
  split at htext
  · exact lands_of_numeral (numeral_toDigits _) (.inl htext)
  · exact lands_of_numeral (numeral_toDigits _) (.inr htext)

theorem lands_float (x : Float) : Lands (FloatLayout.query.write x) := by
  obtain ⟨cs, hcs, htext⟩ := FloatLayout.write_query x
  exact lands_of_numeral hcs (htext.imp_right And.right)

/-! ## Quoted text -/

theorem run_double (q : Char) (a : List Char) : run (quoted q) (Quoted.double q a) = quoted q := by
  induction a with
  | nil => rfl
  | cons c a ih =>
    rw [Quoted.double]
    split
    · next hc => simp [step, hc, ih]
    · next hc => simp [step, hc, ih]

/-- A quoted text is read as a whole, whatever stands in it. -/
theorem run_quoted {opening : Char} (hs : step s opening = quoted q) (text : String) :
    run s (Quoted.write opening q text).toList = closed q := by
  rw [Quoted.write, String.toList_ofList, run_cons, hs, run_append, run_double]
  simp [step]

theorem run_string (text : String) : run plain (Quoted.string text).toList = closed Quoted.stringQuote :=
  run_quoted (by decide) text

end Scan

end QueryLowering
