import QueryLowering.Expr.Value

/-!
# Operators, functions and literals of SQL

The parts of SQL expressions that have no parts of their own.
-/

namespace QueryLowering

namespace Sql

/-- A binary operator. -/
inductive BinaryOperator where
  | eq
  | notEq
  | lt
  | ltEq
  | gt
  | gtEq
  | and
  | or
  | plus
  | minus
  | multiply
  | divide
  | modulo
  /-- The concatenation of texts. -/
  | concat
  | like
deriving DecidableEq, Repr

/-- Whether an operator gives a truth value. -/
def BinaryOperator.isPredicate : BinaryOperator → Bool
  | eq | notEq | lt | ltEq | gt | gtEq | and | or | like => true
  | plus | minus | multiply | divide | modulo | concat => false

/-- A unary operator. -/
inductive UnaryOperator where
  | not
  | minus
deriving DecidableEq, Repr

/-- A function of all rows of a group. -/
inductive AggregateFunction where
  | count
  | countBig
  | sum
  | min
  | max
  | avg
deriving DecidableEq, Repr

/-- A type of columns. -/
inductive DataType where
  | boolean
  | integer
  | bigInt
  | decimal
  | float
  | text
  | dateTime
  | uuid
deriving DecidableEq, Repr

/-- The column type of a static type, if it has one. -/
def DataType.ofTy? (t : Ty) : Option DataType :=
  match t.underlying with
  | .bool => some boolean
  | .int => some integer
  | .long => some bigInt
  | .decimal => some decimal
  | .double => some float
  | .string => some text
  | .dateTime => some dateTime
  | .guid => some uuid
  | _ => none

/-- A unit of date and time. -/
inductive DatePart where
  | year
  | month
  | day
  | hour
  | minute
  | second
  | millisecond
deriving DecidableEq, Repr

/-- The name of a unit. -/
def DatePart.name : DatePart → String
  | year => "year"
  | month => "month"
  | day => "day"
  | hour => "hour"
  | minute => "minute"
  | second => "second"
  | millisecond => "millisecond"

/-- How two data sources are joined. -/
inductive JoinKind where
  | inner
  | left
  | right
  | fullOuter
  | cross
  /-- The joined rows may depend on the row that they are joined to. -/
  | crossApply
  | outerApply
deriving DecidableEq, Repr

/-- Whether a join may add rows of nulls. -/
def JoinKind.isOuter : JoinKind → Bool
  | left | right | fullOuter | outerApply => true
  | inner | cross | crossApply => false

/-- The name of a kind of join in messages. -/
def JoinKind.text : JoinKind → String
  | inner => "Inner"
  | left => "Left"
  | right => "Right"
  | fullOuter => "FullOuter"
  | cross => "Cross"
  | crossApply => "CrossApply"
  | outerApply => "OuterApply"

/-- Whether a union keeps duplicates. -/
inductive UnionKind where
  | union
  | unionAll
deriving DecidableEq, Repr

/-- A literal. -/
inductive Literal where
  | null
  | bool (b : Bool)
  | int (n : Int)
  | float (x : Float)
  | string (s : String)
  | dateTime (d : DateTime)

/-- Whether two literals are equal; floats are compared as numbers. -/
def Literal.beq : Literal → Literal → Bool
  | null, null => true
  | bool a, bool b => a == b
  | int a, int b => a == b
  | float a, float b => a == b
  | string a, string b => a == b
  | dateTime a, dateTime b => a == b
  | _, _ => false

instance : BEq Literal := ⟨Literal.beq⟩

end Sql

end QueryLowering
