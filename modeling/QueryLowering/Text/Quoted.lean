/-!
# Quoted text

Text between an opening and a closing character. A closing character inside the text is written
twice, so that the first one that stands alone ends the text.
-/

namespace QueryLowering

namespace Quoted

/-- Doubles every occurrence of a character. -/
def double (c : Char) : List Char → List Char
  | [] => []
  | x :: rest => if x = c then x :: x :: double c rest else x :: double c rest

/-- A text between an opening and a closing character. -/
def write (opening closing : Char) (s : String) : String :=
  String.ofList (opening :: (double closing s.toList ++ [closing]))

/-- The character that stands on both sides of a string. -/
def stringQuote : Char := '\x27'

/-- A text as a string of SQL. -/
def string (s : String) : String := write stringQuote stringQuote s

end Quoted

end QueryLowering
