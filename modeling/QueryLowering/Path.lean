/-!
# Member paths

A path is the chain of member names from the root of a composite value down to one of its leaves. It
carries no alias, so a path that was found before a query is wrapped finds the same column after it.
-/

namespace QueryLowering

/-- The member names from the root of a composite value to a leaf. -/
abbrev Path : Type := List String

namespace Path

/-- The path whose segments stand between the dots of a text; the empty text gives the empty path. -/
def ofDotted (text : String) : Path := if text.isEmpty then [] else text.splitOn "."

/-- The segments with dots between them. -/
def text (p : Path) : String := ".".intercalate p

/-- The output name that a path suggests: its segments with underscores between them. -/
def columnName (p : Path) : String := "_".intercalate p

/-- What is left of a path below a path that it properly extends. -/
def after? : Path → Path → Option Path
  | p, [] => if p.isEmpty then none else some p
  | s :: p, t :: q => if s == t then after? p q else none
  | [], _ :: _ => none

/-- The order of paths, segment by segment; a path stands before its extensions. -/
def less : Path → Path → Bool
  | _, [] => false
  | [], _ :: _ => true
  | s :: p, t :: q => if s == t then less p q else decide (s < t)

end Path

end QueryLowering
