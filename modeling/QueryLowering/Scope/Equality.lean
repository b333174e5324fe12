import QueryLowering.Scope.Basic

/-!
# Equality of rows

Two values are equal if their columns are equal one by one. Rows of an entity are equal if their
primary keys are.
-/

namespace QueryLowering

open Sql

namespace Scope

/-- The columns of the primary key of a row, if its entity is known and has one. -/
def rowKey? (schema : Schema) (sc : Scope) : Node → Result (Option (List Node))
  | .source a => do
    match (← sc.shape a).entity? with
    | none => return none
    | some entity =>
      match ← schema.primaryKeys entity with
      | [] => return none
      | keys => return some (← keys.mapM fun k => sc.resolvePath schema a [k])
  | _ => pure none

/-- The columns by which a value is compared: the primary key of a row, else all columns. -/
def keyLeaves (schema : Schema) (sc : Scope) (n : Node) : Result (List Node) := do
  match ← sc.rowKey? schema n with
  | some key => return key
  | none => if n.isMultiColumn then return (← sc.flatten schema [] n).map (·.2) else return [n]

/-- The condition that two values are equal, column by column in their order. -/
def equality (schema : Schema) (sc : Scope) (left right : Node) : Result Node := do
  let left ← sc.keyLeaves schema left
  let right ← sc.keyLeaves schema right
  if left.length = right.length then
    orThrow (.invalidState .emptyKey)
      (conjunction (List.zipWith (fun l r => Node.operation .eq l.asScalar r.asScalar) left right))
  else throw (.arity "key equality" left.length right.length)

end Scope

end QueryLowering
