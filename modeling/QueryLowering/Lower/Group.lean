import QueryLowering.Lower.Step

/-!
# Groups

Operators on a group of rows: aggregates over its elements, and other elements for the same group.
-/

namespace QueryLowering

open Sql

/-- The SQL function of an aggregate. -/
def aggregateFunction? : Operator → Option AggregateFunction
  | .count => some .count
  | .longCount => some .countBig
  | .sum => some .sum
  | .min => some .min
  | .max => some .max
  | .average => some .avg
  | _ => none

/-- Whether an aggregate counts rows. -/
def isCount (f : AggregateFunction) : Bool := f = .count ∨ f = .countBig

/-- The number of elements of a group that satisfy a condition: the sum of one for each of them. -/
def countWhere (condition : Node) : Node :=
  .aggregate .sum (some (.choose condition.asScalar (.literal (.int 1)) (.literal (.int 0))))

namespace Lower

/-- What an aggregate over a group is computed from: the value of its lambda, or else the element of
the group if that is one column. -/
def aggregated (method : Operator) (element : Node) : Option Node → Result Node
  | some n => pure n.asScalar
  | none =>
    if element.isMultiColumn then
      throw (.unsupported (method.name ++ " over whole rows of a group"))
    else pure element

/-- The value of an operator on a group, whose lambda has a value if there is one. -/
def groupValue (method : Operator) (key element : Node) (lambda : Option Node) : Result Node :=
  match aggregateFunction? method with
  | some f =>
    if isCount f then
      match lambda with
      | some condition => pure (countWhere condition)
      | none => pure (.aggregate f none)
    else do return .aggregate f (some (← aggregated method element lambda))
  | none =>
    if method = .select then
      match lambda with
      | some element => pure (.grouping key element)
      | none => throw (.arity "Select over a group" 2 1)
    else throw (.unsupported (method.name ++ " over a group"))

end Lower

end QueryLowering
