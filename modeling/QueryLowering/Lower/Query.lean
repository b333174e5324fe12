import QueryLowering.Lower.Scalar

/-!
# Queries as values

A query occurs open, as a select that takes further operators, or closed, as a relation with fixed
columns. These steps turn one form into the other and bind the parameters of lambdas to rows.
-/

namespace QueryLowering

open Sql

namespace Lower

/-- A select that reads a relation. -/
def selectFrom (r : Relation) : Lower Select := update (Select.ofRelation r)

/-- The closed form of a select. -/
def closeSelect (s : Select) : Lower Derived := attempt fun schema sc => s.close schema sc

/-- The value of an expression as a select that takes further operators. The rows of a query are
opened again, so that operators go on inside it. -/
def openQuery (e : Expr) : Node → Lower Select
  | .select s => pure s
  | .rows d => pure d.select
  | .table t => selectFrom (.table t)
  | .derived d => selectFrom (.derived d)
  | .union items => selectFrom (.union items)
  | other => throw (.shape "query" other.kindName ("chained argument " ++ e.text))

/-- An open select or a table as a closed select; any other value stays as it is. -/
def closeQuery : Node → Lower Node
  | .select s => do return .derived (← closeSelect s)
  | .table t => do return .derived (← closeSelect (← selectFrom (.table t)))
  | n => pure n

/-- A value as a relation that can be joined. -/
def relation (context : String) (n : Node) : Lower Relation := do
  match n with
  | .table t => return .table t
  | n =>
    match ← closeQuery n with
    | .derived d => return .derived d
    | .rows d => return .derived d
    | .union items => return .union items
    | other => throw (.shape "query" other.kindName context)

/-! ## What parameters stand for -/

/-- The parameters of the lambda that an argument is. -/
def lambdaParams (arg : Expr) : List Param := ((arg.asLambda?).map (·.1)).getD []

/-- The parameters of a lambda, bound to values in their order. -/
def bindInOrder (arg : Expr) (values : List Node) : List (String × Node) :=
  ((lambdaParams arg).map (·.name)).zip values

/-- The value of a row of a lent select. -/
def rowOf (t : Ticket) : Lower Node := do return (← lentQuery t).currentShape (← scope)

/-- The first parameter of a lambda, bound to a row of a lent select, or to a group of it if the
parameter is typed as one. -/
def bindFirst (arg : Expr) (t : Ticket) : Lower (List (String × Node)) := do
  match lambdaParams arg with
  | [] => return []
  | p :: _ =>
    let s ← lentQuery t
    let sc ← scope
    if p.ty.isGrouping && s.isGrouped then return [(p.name, ← ofResult (s.groupingShape sc))]
    else return [(p.name, s.currentShape sc)]

end Lower

end QueryLowering
