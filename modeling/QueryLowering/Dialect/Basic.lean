/-!
# SQL dialects
-/

namespace QueryLowering

/-- A dialect of SQL. -/
inductive Dialect where
  | sqlServer
  | postgres
deriving DecidableEq, Repr

namespace Dialect

/-- The name of a dialect. -/
def name : Dialect → String
  | sqlServer => "sqlserver"
  | postgres => "postgres"

/-- The dialects. -/
def every : List Dialect := [sqlServer, postgres]

/-- A text in lower case, as far as its letters are ASCII letters. -/
def lowercase (text : String) : String := String.ofList (text.toList.map Char.toLower)

/-- The dialect of a name in common use, whatever its case. -/
def ofName? (text : String) : Option Dialect :=
  let name := lowercase text
  if ["sqlserver", "mssql", "tsql"].contains name then some sqlServer
  else if ["postgres", "postgresql", "pg"].contains name then some postgres
  else none

/-- What is said of a name that no dialect has. -/
def unknownName (text : String) : String :=
  "unknown dialect '" ++ lowercase text ++ "' (expected sqlserver or postgres)"

end Dialect

end QueryLowering
