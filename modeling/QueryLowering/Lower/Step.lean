import QueryLowering.Expr.Operator
import QueryLowering.Lower.Query

/-!
# Steps of a query

A query operator takes a select as its first argument and changes it. While its other arguments are
lowered the select is lent to the context.
-/

namespace QueryLowering

open Sql

/-- What an operator does to a select. -/
inductive Step where
  | filter
  | select
  | order (descending append : Bool)
  | take
  | skip
  /-- Takes the rows of one page, counted from one. -/
  | paging
  | distinct
  | defaultIfEmpty
  /-- Reads one row, of those that satisfy a condition if there is one. -/
  | first (method : Operator) (conditional : Bool)
  | aggregate (method : Operator)
  /-- Whether some row satisfies the condition, or all rows do. -/
  | quantify (universal conditional : Bool)
  | contains
  | groupBy
  | join
  | groupJoin
  /-- A join whose condition is a lambda over the joined rows. -/
  | explicitJoin (method : Operator) (kind : JoinKind)
  | apply (method : Operator) (kind : JoinKind)
  | selectMany
  /-- A join with a child query; the condition and the result are arguments at the given places. -/
  | childJoin (kind : JoinKind) (condition result : Option Nat)
  | modify (delete : Bool)
deriving DecidableEq, Repr

namespace Step

/-- The step of an operator that is called with a number of arguments. Operators that do not change
a select have none. -/
def ofOperator? (method : Operator) (args : Nat) : Option Step :=
  match method with
  | .filter => some filter
  | .select => some select
  | .orderBy => some (order false false)
  | .orderByDescending => some (order true false)
  | .thenBy => some (order false true)
  | .thenByDescending => some (order true true)
  | .take => some take
  | .skip => some skip
  | .paging => some paging
  | .distinct => some distinct
  | .defaultIfEmpty => some defaultIfEmpty
  | .first | .firstOrDefault | .single | .singleOrDefault => some (first method (1 < args))
  | .count | .longCount | .sum | .min | .max | .average => some (aggregate method)
  | .any => some (quantify false (1 < args))
  | .all => some (quantify true (1 < args))
  | .contains => some contains
  | .groupBy => some groupBy
  | .join => some join
  | .groupJoin => some groupJoin
  | .innerJoin => some (explicitJoin method .inner)
  | .leftJoin => some (explicitJoin method .left)
  | .rightJoin => some (explicitJoin method .right)
  | .fullOuterJoin => some (explicitJoin method .fullOuter)
  | .crossJoin => some (explicitJoin method .cross)
  | .crossApply => some (apply method .crossApply)
  | .outerApply => some (apply method .outerApply)
  | .selectMany => some selectMany
  | .update => some (modify false)
  | .delete => some (modify true)
  | .dataSet | .union | .unionAll | .recursiveUnion => none

/-- The step of a join with a child query. A join without a condition pairs all rows. -/
def ofChildJoin (join : ChildJoin) (condition result : Option Expr) : Step :=
  let kind := if join = .inner ∧ condition.isSome then JoinKind.inner else .cross
  childJoin kind (condition.map fun _ => 2) (result.map fun _ => if condition.isSome then 3 else 2)

/-- The name of a step in messages. -/
def name : Step → String
  | filter => "Where"
  | select => "Select"
  | order false false => "OrderBy"
  | order true false => "OrderByDescending"
  | order false true => "ThenBy"
  | order true true => "ThenByDescending"
  | take => "Take"
  | skip => "Skip"
  | paging => "Paging"
  | distinct => "Distinct"
  | defaultIfEmpty => "DefaultIfEmpty"
  | first method _ => method.name
  | aggregate method => method.name
  | quantify universal _ => if universal then "All" else "Any"
  | contains => "Contains"
  | groupBy => "GroupBy"
  | join => "Join"
  | groupJoin => "GroupJoin"
  | explicitJoin method _ => method.name
  | apply method _ => method.name
  | selectMany => "SelectMany"
  | childJoin .. => "ChildJoin"
  | modify delete => if delete then "Delete" else "Update"

/-- The kind of change that a step makes to its select. -/
def operation : Step → Operation
  | filter | contains => .filter
  | select | groupJoin => .projection
  | order _ append => if append then .thenBy else .orderBy
  | take => .take
  | skip | paging => .skip
  | distinct => .distinct
  | defaultIfEmpty => .inspect
  | first _ conditional => if conditional then .filter else .take
  | aggregate _ => .aggregate
  | quantify _ conditional => if conditional then .filter else .inspect
  | groupBy => .groupBy
  | join | explicitJoin .. | apply .. | selectMany | childJoin .. => .join
  | modify _ => .modify

/-- Whether the result is a query again. -/
def producesQuery : Step → Bool
  | quantify .. | contains | modify _ => false
  | _ => true

end Step

/-- What a node has learned from the parts lowered so far. -/
structure Progress where
  /-- The select that the operator changes, while it is lent. -/
  source : Option Ticket := none
  /-- The data source that the operator has joined. -/
  joined : Option Alias := none
  /-- The key of the outer rows. -/
  outerKey : Option Node := none
  /-- The value that later lambdas see for a row. -/
  shape : Option Node := none
  /-- The select whose rows are matched by key. -/
  inner : Option Select := none
  /-- The rows that match by key. -/
  items : Option Node := none
  /-- The rows that a recursion starts from. -/
  anchor : Option Derived := none
  /-- The key and the element of a group. -/
  group : Option (Node × Node) := none

end QueryLowering
