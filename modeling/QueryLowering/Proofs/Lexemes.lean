import QueryLowering.Proofs.Writer

/-!
# Words and signs of SQL text

A reader of an expression sees words, signs, names, strings and placeholders. Names, strings and
placeholders are tokens of their own. The rest of a text is cut into words: blanks stand between words,
parentheses and commas are words by themselves, and so is a minus sign that no other character precedes.
What stands between quotes is one word.

Some words are keywords. Among them are the signs of binary operators, which come with a rank: the higher
the rank, the more tightly an operator binds.

## Main results

* `lex_numeral`, `lex_alias`, `lex_name`, `lex_string`: texts that are one word.
-/

namespace QueryLowering

open List
open Quoted (stringQuote)

variable {c : Char} {cs word : List Char} {text : String}

/-- A word or a sign that shapes an expression. -/
inductive Keyword where
  | opening
  | closing
  | comma
  /-- The sign of a binary operator, and how tightly it binds. -/
  | sign (text : String) (rank : Nat)
  | notWord
  | isWord
  | inWord
  | nullWord
  | caseWord
  | whenWord
  | thenWord
  | elseWord
  | endWord
  | asWord
deriving DecidableEq

/-- The signs of binary operators, from those that bind most loosely. Negations of conditions have rank 3,
tests for null and for membership rank 4, and negations of numbers rank 7. -/
def signs : List (String × Nat) :=
  [("OR", 1), ("AND", 2), ("=", 4), ("<>", 4), ("<", 4), ("<=", 4), (">", 4), (">=", 4), ("LIKE", 4),
    ("+", 5), ("-", 5), ("||", 5), ("*", 6), ("/", 6), ("%", 6)]

/-- The keywords. -/
def keywords : List (String × Keyword) :=
  [("(", .opening), (")", .closing), (",", .comma), ("NOT", .notWord), ("IS", .isWord), ("IN", .inWord),
    ("NULL", .nullWord), ("CASE", .caseWord), ("WHEN", .whenWord), ("THEN", .thenWord), ("ELSE", .elseWord),
    ("END", .endWord), ("AS", .asWord)] ++ signs.map fun s => (s.1, .sign s.1 s.2)

/-- The keyword that a word is. -/
def keyword? (text : String) : Option Keyword := keywords.lookup text

/-- A piece of an expression that is no keyword. -/
inductive Atom where
  | word (text : String)
  | identifier (name : String)
  | string (text : String)
  | parameter (name : String)
deriving DecidableEq

/-- What a reader of an expression sees. -/
inductive Lexeme where
  | keyword (k : Keyword)
  | atom (a : Atom)
deriving DecidableEq

/-- A word as a reader sees it. -/
def Lexeme.ofWord (text : String) : Lexeme := (keyword? text).elim (.atom (.word text)) .keyword

/-- The word whose characters are given in reverse, if there are any. -/
def endWord (word : List Char) : List Lexeme :=
  if word.isEmpty then [] else [.ofWord (String.ofList word.reverse)]

/-- A character that is a word by itself. -/
def isPunctuation (c : Char) : Bool := c == '(' || c == ')' || c == ','

/-- Cuts characters into words, behind a part of a word in reverse, inside of quotes or not. -/
def cut : Bool → List Char → List Char → List Lexeme
  | _, word, [] => endWord word
  | true, word, c :: rest => cut (c != stringQuote) (c :: word) rest
  | false, word, c :: rest =>
    if c = ' ' then endWord word ++ cut false [] rest
    else if isPunctuation c || (c == '-' && word.isEmpty) then
      endWord word ++ .ofWord (String.ofList [c]) :: cut false [] rest
    else cut (c == stringQuote) (c :: word) rest

/-- The words of a text. -/
def lex (text : String) : List Lexeme := cut false [] text.toList

/-- What a reader sees of a token. -/
def Token.lexemes : Token → List Lexeme
  | raw text => lex text
  | identifier name => [.atom (.identifier name)]
  | string text => [.atom (.string text)]
  | parameter name _ => [.atom (.parameter name)]

/-- What a reader sees of a fragment. -/
def Fragment.lexemes (f : Fragment) : List Lexeme := f.tokens.flatMap Token.lexemes

namespace Fragment

@[simp]
theorem lexemes_append (f g : Fragment) : (f ++ g).lexemes = f.lexemes ++ g.lexemes := flatMap_append

@[simp]
theorem lexemes_raw (text : String) : (Fragment.raw text).lexemes = lex text := flatMap_singleton ..

@[simp]
theorem lexemes_identifier (name : String) : (Fragment.identifier name).lexemes = [.atom (.identifier name)] := rfl

end Fragment

/-! ## Texts that are one word -/

/-- A character that neither ends a word nor opens a quoted text. -/
def isWordChar (c : Char) : Bool := c != ' ' && !isPunctuation c && c != stringQuote

theorem endWord_of_ne_nil (h : word ≠ []) : endWord word = [.ofWord (String.ofList word.reverse)] := by
  rw [endWord, if_neg (by simpa using h)]

/-- One more character of a word. -/
theorem cut_wordChar {rest : List Char} (hc : isWordChar c = true) (hword : word ≠ [] ∨ c ≠ '-') :
    cut false word (c :: rest) = cut false (c :: word) rest := by
  simp only [isWordChar, Bool.and_eq_true, bne_iff_ne, Bool.not_eq_true'] at hc
  obtain ⟨⟨hblank, hpunctuation⟩, hquote⟩ := hc
  have hminus : (c == '-' && word.isEmpty) = false := by
    rcases hword with hword | hc
    · simp [hword]
    · simp [hc]
  rw [cut, if_neg hblank, hpunctuation, hminus, beq_false_of_ne hquote]
  rfl

theorem cut_wordChars (hcs : ∀ c ∈ cs, isWordChar c = true)
    (hword : word ≠ []) : cut false word cs = [.ofWord (String.ofList (word.reverse ++ cs))] := by
  induction cs generalizing word with
  | nil => rw [cut, endWord_of_ne_nil hword, append_nil]
  | cons c cs ih =>
    rw [forall_mem_cons] at hcs
    rw [cut_wordChar hcs.1 (.inl hword), ih hcs.2 (cons_ne_nil _ _)]
    simp

/-- A text without blanks, punctuation and quotes is one word. -/
theorem lex_word (htext : text.toList = c :: cs) (hminus : c ≠ '-')
    (h : ∀ x ∈ c :: cs, isWordChar x = true) : lex text = [.ofWord text] := by
  rw [forall_mem_cons] at h
  rw [lex, htext, cut_wordChar h.1 (.inr hminus), cut_wordChars h.2 (cons_ne_nil _ _), reverse_singleton,
    singleton_append, ← htext, String.ofList_toList]

theorem Lexeme.ofWord_of_none (h : keyword? text = none) : ofWord text = .atom (.word text) := by
  rw [ofWord, h]
  rfl

/-- A minus sign at the front of a text is a word by itself. -/
theorem lex_minus {text' : String} (h : text.toList = '-' :: text'.toList) :
    lex text = .keyword (.sign "-" 5) :: lex text' := by
  rw [lex, h]
  rfl

/-- A text that a condition on its characters tells from all keywords. -/
theorem keyword?_eq_none {p : List Char → Bool} (hkeywords : keywords.all (fun k => !p k.1.toList) = true)
    (htext : p text.toList = true) : keyword? text = none := by
  rw [keyword?, lookup_eq_none_iff]
  rintro ⟨word, k⟩ hk
  have hword := all_eq_true.1 hkeywords _ hk
  rw [bne_iff_ne]
  rintro rfl
  simp [htext] at hword

/-! ### Numbers and aliases -/

/-- The characters of numbers, with the first one no sign. -/
def isNumeralText : List Char → Bool
  | [] => false
  | c :: cs => isNumeral c && cs.all fun x => isNumeral x || x == '-'

theorem isWordChar_of_isNumeral (h : isNumeral c = true) : isWordChar c = true := by
  have hne : ∀ x : Char, isNumeral x = false → c ≠ x := by
    rintro x hx rfl
    rw [hx] at h
    cases h
  simp [isWordChar, isPunctuation, hne ' ' (by decide), hne '(' (by decide), hne ')' (by decide), hne ',' (by decide),
    hne stringQuote (by decide)]

theorem lex_numeralText (h : isNumeralText text.toList = true) : lex text = [.atom (.word text)] := by
  have hkeyword : keyword? text = none := keyword?_eq_none (by decide) h
  obtain ⟨c, cs, htext⟩ : ∃ c cs, text.toList = c :: cs := by
    cases htext : text.toList with
    | nil => simp [htext, isNumeralText] at h
    | cons c cs => exact ⟨c, cs, rfl⟩
  rw [htext, isNumeralText, Bool.and_eq_true, all_eq_true] at h
  have hminus : c ≠ '-' := by
    rintro rfl
    exact absurd h.1 (by decide)
  have hchars : ∀ x ∈ c :: cs, isWordChar x = true := by
    refine forall_mem_cons.2 ⟨isWordChar_of_isNumeral h.1, fun x hx => ?_⟩
    rcases Bool.or_eq_true_iff.1 (h.2 x hx) with hx | hx
    · exact isWordChar_of_isNumeral hx
    · rw [beq_iff_eq] at hx
      subst hx
      decide
  rw [lex_word htext hminus hchars, Lexeme.ofWord_of_none hkeyword]

theorem Numeral.isNumeralText (h : Numeral cs) : isNumeralText cs = true := by
  cases h with
  | plain hne hcs =>
    obtain ⟨c, cs, rfl⟩ := exists_cons_of_ne_nil hne
    rw [forall_mem_cons] at hcs
    simp only [QueryLowering.isNumeralText, hcs.1, Bool.true_and, all_eq_true]
    exact fun x hx => by simp [hcs.2 x hx]
  | @exponent a b hne ha _ hb =>
    obtain ⟨c, a, rfl⟩ := exists_cons_of_ne_nil hne
    rw [forall_mem_cons] at ha
    simp only [cons_append, QueryLowering.isNumeralText, ha.1, Bool.true_and, all_eq_true]
    intro x hx
    rcases mem_append.1 hx with hx | hx
    · simp [ha.2 x hx]
    · rcases mem_cons.1 hx with rfl | hx
      · decide
      · simp [hb x hx]

/-- A number without a sign is one word. -/
theorem lex_numeral (h : Numeral text.toList) : lex text = [.atom (.word text)] := lex_numeralText h.isNumeralText

theorem lex_alias (a : Alias) : lex a.text = [.atom (.word a.text)] := by
  refine lex_numeralText ?_
  rw [Alias.text, String.toList_append]
  change (isNumeral 'a' && List.all _ _) = true
  rw [Bool.and_eq_true, all_eq_true]
  exact ⟨by decide, fun c hc => by simp [isNumeral_of_mem_toString hc]⟩

/-! ### Names and strings -/

/-- A name that can be called: letters, digits and underscores, and no keyword. -/
def isName (name : String) : Bool :=
  !name.toList.isEmpty && name.toList.all (fun c => c.isAlphanum || c == '_') && (keyword? name).isNone

theorem lex_name {name : String} (h : isName name = true) : lex name = [.atom (.word name)] := by
  simp only [isName, Bool.and_eq_true, Option.isNone_iff_eq_none] at h
  obtain ⟨⟨hne, hchars⟩, hkeyword⟩ := h
  have hword : ∀ x : Char, (x.isAlphanum || x == '_') = true → x ≠ '-' ∧ isWordChar x = true := by
    intro x hx
    have hother : ∀ y : Char, (y.isAlphanum || y == '_') = false → x ≠ y := by
      rintro y hy rfl
      rw [hy] at hx
      cases hx
    refine ⟨hother '-' (by decide), ?_⟩
    simp [isWordChar, isPunctuation, hother ' ' (by decide), hother '(' (by decide), hother ')' (by decide),
      hother ',' (by decide), hother stringQuote (by decide)]
  obtain ⟨c, cs, hname⟩ : ∃ c cs, name.toList = c :: cs := by
    cases hname : name.toList with
    | nil => simp [hname] at hne
    | cons c cs => exact ⟨c, cs, rfl⟩
  rw [hname, all_eq_true] at hchars
  rw [lex_word hname (hword c (hchars c mem_cons_self)).1 fun x hx => (hword x (hchars x hx)).2,
    Lexeme.ofWord_of_none hkeyword]

theorem cut_double (a : List Char) (hword : word ≠ []) :
    cut true word (Quoted.double stringQuote a ++ [stringQuote]) =
      [.ofWord (String.ofList (word.reverse ++ (Quoted.double stringQuote a ++ [stringQuote])))] := by
  induction a generalizing word with
  | nil =>
    rw [Quoted.double, nil_append, cut, bne_self_eq_false, cut, endWord_of_ne_nil (cons_ne_nil _ _)]
    simp
  | cons c a ih =>
    by_cases hc : c = stringQuote
    · -- Behind the first of two quotes the word goes on, because a quote is no word by itself.
      subst hc
      have hreopen : ∀ rest, cut false (stringQuote :: word) (stringQuote :: rest) =
          cut true (stringQuote :: stringQuote :: word) rest := fun rest => by
        rw [cut, if_neg (by decide), if_neg (by simp [isPunctuation, stringQuote])]
        rfl
      rw [Quoted.double, if_pos rfl, cons_append, cons_append, cut, bne_self_eq_false, hreopen,
        ih (cons_ne_nil _ _)]
      simp
    · rw [Quoted.double, if_neg hc, cons_append, cut, bne_iff_ne.2 hc, ih (cons_ne_nil _ _)]
      simp

/-- A quoted text is one word. -/
theorem lex_string (text : String) : lex (Quoted.string text) = [.atom (.word (Quoted.string text))] := by
  have hkeyword : keyword? (Quoted.string text) = none :=
    keyword?_eq_none (p := fun cs => cs.head? == some stringQuote) (by decide)
      (by simp [Quoted.string, Quoted.write])
  have hcut : lex (Quoted.string text) = [.ofWord (Quoted.string text)] := by
    have hopen : ∀ rest, cut false [] (stringQuote :: rest) = cut true [stringQuote] rest := by
      intro rest
      rw [cut, if_neg (by decide), if_neg (by simp [isPunctuation, stringQuote])]
      rfl
    rw [lex, Quoted.string, Quoted.write, String.toList_ofList, hopen, cut_double _ (cons_ne_nil _ _)]
    rfl
  rw [hcut, Lexeme.ofWord_of_none hkeyword]

end QueryLowering
