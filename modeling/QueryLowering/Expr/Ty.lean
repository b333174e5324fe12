/-!
# Static types

The types that the nodes of a query expression carry.
-/

namespace QueryLowering

/-- A static type. -/
inductive Ty where
  | unknown
  | bool
  | int
  | long
  | decimal
  | double
  | string
  | dateTime
  | guid
  | entity (name : String)
  /-- The type of an object that is made on the spot. -/
  | anonymous
  /-- Any other named type. -/
  | object (name : String)
  | queryable (element : Ty)
  | enumerable (element : Ty)
  | grouping (key element : Ty)
  | nullable (inner : Ty)
  | array (element : Ty)
deriving DecidableEq, Repr, Inhabited

namespace Ty

/-- The type below one level of optionality. -/
def underlying : Ty → Ty
  | nullable t => t
  | t => t

/-- The element type of a sequence type. -/
def element? : Ty → Option Ty
  | queryable e | enumerable e | array e | grouping _ e => some e
  | _ => none

/-- Whether a type is a sequence type. -/
def isSequence (t : Ty) : Bool := t.element?.isSome

/-- Whether a type is the type of a group of rows. -/
def isGrouping : Ty → Bool
  | grouping _ _ => true
  | _ => false

/-- Whether a type is that of a query. -/
def isQueryable : Ty → Bool
  | queryable _ => true
  | _ => false

/-- Whether a value of the type, if there is one, is a single column. -/
def isScalar (t : Ty) : Bool :=
  match t.underlying with
  | bool | int | long | decimal | double | string | dateTime | guid => true
  | _ => false

/-- The name of an entity type. -/
def entity? : Ty → Option String
  | entity name => some name
  | _ => none

/-- The written form of a type. -/
def text : Ty → String
  | unknown => "?"
  | bool => "bool"
  | int => "int"
  | long => "long"
  | decimal => "decimal"
  | double => "double"
  | string => "string"
  | dateTime => "DateTime"
  | guid => "Guid"
  | entity name | object name => name
  | anonymous => "<anonymous>"
  | queryable e => "IQueryable<" ++ e.text ++ ">"
  | enumerable e => "IEnumerable<" ++ e.text ++ ">"
  | grouping k e => "IGrouping<" ++ k.text ++ ", " ++ e.text ++ ">"
  | nullable e => e.text ++ "?"
  | array e => e.text ++ "[]"

end Ty

end QueryLowering
