/-!
# Lines of a text

A line ends with a line feed, before which a carriage return may stand. The last line need not end.
-/

namespace QueryLowering

namespace Text

/-- A line without the carriage return at its end. -/
def withoutReturn (line : List Char) : List Char :=
  if line.getLast? = some '\r' then line.dropLast else line

/-- The lines of a run of characters; `line` holds what is read of the current line, the last
character first. -/
def linesFrom (line : List Char) : List Char → List (List Char)
  | [] => if line.isEmpty then [] else [line.reverse]
  | '\n' :: rest => withoutReturn line.reverse :: linesFrom [] rest
  | c :: rest => linesFrom (c :: line) rest

/-- The lines of a text, without their ends. -/
def lines (text : String) : List String := (linesFrom [] text.toList).map String.ofList

end Text

end QueryLowering
