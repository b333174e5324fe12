import QueryLowering.Dialect.Rules

/-!
# Reading quoted text back

A reader of quoted text takes two closing characters for one character of the text, and it stops at the first closing
character that stands alone. It needs to see one character beyond that, so a quoted text is told from what follows it
unless the closing character follows.

## Main results

* `Quoted.readRest_double`: a text whose closing characters are doubled is read back, whatever stands in it.
* `quoted_text_read_back`: strings, and names in both dialects.
-/

namespace QueryLowering

namespace Quoted

/-- Reads a text behind its opening character: the text, and what follows its closing character. -/
def readRest (closing : Char) : List Char → Option (List Char × List Char)
  | [] => none
  | c :: rest =>
    if c = closing then
      match rest with
      | [] => some ([], [])
      | next :: after =>
        if next = closing then (readRest closing after).map fun (text, after) => (c :: text, after)
        else some ([], rest)
    else (readRest closing rest).map fun (text, after) => (c :: text, after)

/-- Reads a text between an opening and a closing character off the front of a longer one. -/
def read (opening closing : Char) (text : String) : Option (String × String) :=
  match text.toList with
  | [] => none
  | c :: rest =>
    if c = opening then
      (readRest closing rest).map fun (text, after) => (String.ofList text, String.ofList after)
    else none

variable {opening closing : Char} {after : List Char}

/-- Induction over the text: a closing character in it meets its double, so the reader looks beyond the end only at
the closing character that was written last. -/
theorem readRest_double (hafter : after.head? ≠ some closing) (text : List Char) :
    readRest closing (double closing text ++ closing :: after) = some (text, after) := by
  induction text with
  | nil =>
    cases after with
    | nil => simp [double, readRest]
    | cons next rest =>
      have hnext : next ≠ closing := by simpa using hafter
      simp [double, readRest, hnext]
  | cons c text ih =>
    by_cases hc : c = closing
    · subst hc
      simp [double, readRest, ih]
    · rw [double, if_neg hc, List.cons_append, readRest.eq_def]
      simp [hc, ih]

theorem read_write {t : String} (ht : t.toList.head? ≠ some closing) (s : String) :
    read opening closing (write opening closing s ++ t) = some (s, t) := by
  have htext : (write opening closing s ++ t).toList =
      opening :: (double closing s.toList ++ closing :: t.toList) := by
    simp [write]
  simp [read, htext, readRest_double ht]

end Quoted

/-- The characters around a name. -/
def Dialect.quotes : Dialect → Char × Char
  | sqlServer => ('[', ']')
  | postgres => ('"', '"')

/-- Whatever stands in a string or in a name, a reader of quoted text takes exactly the string or the name off the
front of a text, unless what follows starts with the closing character. -/
theorem quoted_text_read_back (s t : String) : (t.toList.head? ≠ some Quoted.stringQuote →
      Quoted.read Quoted.stringQuote Quoted.stringQuote (Quoted.string s ++ t) = some (s, t)) ∧
    ∀ d : Dialect, t.toList.head? ≠ some d.quotes.2 →
      Quoted.read d.quotes.1 d.quotes.2 (d.quote s ++ t) = some (s, t) := by
  refine ⟨fun ht => Quoted.read_write ht s, fun d ht => ?_⟩
  cases d with
  | sqlServer => exact Quoted.read_write ht s
  | postgres => exact Quoted.read_write ht s

/-- A name of closing characters only, and a comparison behind it. -/
theorem Sample.closing_characters_read :
    Quoted.read '[' ']' (Dialect.quote .sqlServer "]]]" ++ " = 1") = some ("]]]", " = 1") :=
  (quoted_text_read_back "]]]" " = 1").2 .sqlServer (by decide)

end QueryLowering
