/-!
# Aliases

An alias names a data source within a statement. Aliases are handed out in order, so they are
numbered.
-/

namespace QueryLowering

/-- The name of a data source in a statement. -/
structure Alias where
  index : Nat
deriving DecidableEq, Repr, Inhabited

namespace Alias

/-- The written form of an alias, such as `a3`. -/
def text (a : Alias) : String := "a" ++ toString a.index

/-- The alias that is handed out after this one. -/
def next (a : Alias) : Alias := ⟨a.index + 1⟩

end Alias

end QueryLowering
