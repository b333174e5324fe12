import QueryLowering.Expr.Value

/-!
# Fragments of SQL text

A statement is put together from tokens. Most are text as it stands; names, strings and parameters
are kept apart, because each dialect writes them in its own way and because parameters are numbered
only when the statement is complete.

A fragment also remembers the parameters in the order in which they were met, which decides their
numbers. It differs from their order in the text where a dialect turns operands around.
-/

namespace QueryLowering

/-- A piece of a statement. -/
inductive Token where
  /-- Text as it stands. -/
  | raw (text : String)
  /-- The name of a table or a column. -/
  | identifier (name : String)
  | string (text : String)
  | parameter (name : String) (value : Value)

/-- Some tokens and the parameters met, in the order in which they were met. -/
structure Fragment where
  tokens : List Token
  parameters : List (String × Value)

namespace Fragment

/-- A text as it stands. -/
def raw (text : String) : Fragment := ⟨[.raw text], []⟩

/-- The name of a table or a column. -/
def identifier (name : String) : Fragment := ⟨[.identifier name], []⟩

/-- A string. -/
def string (text : String) : Fragment := ⟨[.string text], []⟩

/-- A parameter. -/
def parameter (name : String) (value : Value) : Fragment := ⟨[.parameter name value], [(name, value)]⟩

/-- Two fragments, one after the other. -/
def append (f g : Fragment) : Fragment := ⟨f.tokens ++ g.tokens, f.parameters ++ g.parameters⟩

instance : Append Fragment := ⟨append⟩

instance : Coe String Fragment := ⟨raw⟩

instance : Inhabited Fragment := ⟨⟨[], []⟩⟩

/-- The fragment whose parameters were met in the order of other fragments. -/
def metLike (f : Fragment) (order : List Fragment) : Fragment :=
  { f with parameters := order.flatMap (·.parameters) }

/-- Fragments with a text between each two. -/
def join (separator : String) : List Fragment → Fragment
  | [] => ⟨[], []⟩
  | [f] => f
  | f :: g :: rest => f ++ separator ++ join separator (g :: rest)

/-- A fragment in parentheses. -/
def parens (f : Fragment) : Fragment := "(" ++ f ++ ")"

end Fragment

end QueryLowering
