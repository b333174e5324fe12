import QueryLowering.Expr.Basic

/-!
# Query operators

The methods that the lowering knows as operators on queries: static methods of three declaring types,
told apart by their names.
-/

namespace QueryLowering

/-- A query operator. -/
inductive Operator where
  | dataSet
  | filter
  | select
  | selectMany
  | join
  | groupJoin
  | innerJoin
  | leftJoin
  | rightJoin
  | fullOuterJoin
  | crossJoin
  | crossApply
  | outerApply
  | groupBy
  | orderBy
  | orderByDescending
  | thenBy
  | thenByDescending
  | take
  | skip
  | paging
  | distinct
  | defaultIfEmpty
  | first
  | firstOrDefault
  | single
  | singleOrDefault
  | count
  | longCount
  | sum
  | min
  | max
  | average
  | any
  | all
  | contains
  | union
  | unionAll
  | recursiveUnion
  | update
  | delete
deriving DecidableEq, Repr

namespace Operator

/-- The method name of an operator. -/
def name : Operator → String
  | dataSet => "DataSet"
  | filter => "Where"
  | select => "Select"
  | selectMany => "SelectMany"
  | join => "Join"
  | groupJoin => "GroupJoin"
  | innerJoin => "InnerJoin"
  | leftJoin => "LeftJoin"
  | rightJoin => "RightJoin"
  | fullOuterJoin => "FullOuterJoin"
  | crossJoin => "CrossJoin"
  | crossApply => "CrossApply"
  | outerApply => "OuterApply"
  | groupBy => "GroupBy"
  | orderBy => "OrderBy"
  | orderByDescending => "OrderByDescending"
  | thenBy => "ThenBy"
  | thenByDescending => "ThenByDescending"
  | take => "Take"
  | skip => "Skip"
  | paging => "Paging"
  | distinct => "Distinct"
  | defaultIfEmpty => "DefaultIfEmpty"
  | first => "First"
  | firstOrDefault => "FirstOrDefault"
  | single => "Single"
  | singleOrDefault => "SingleOrDefault"
  | count => "Count"
  | longCount => "LongCount"
  | sum => "Sum"
  | min => "Min"
  | max => "Max"
  | average => "Average"
  | any => "Any"
  | all => "All"
  | contains => "Contains"
  | union => "Union"
  | unionAll => "UnionAll"
  | recursiveUnion => "RecursiveUnion"
  | update => "Update"
  | delete => "Delete"

/-- All operators. -/
def every : List Operator :=
  [dataSet, filter, select, selectMany, join, groupJoin, innerJoin, leftJoin, rightJoin,
    fullOuterJoin, crossJoin, crossApply, outerApply, groupBy, orderBy, orderByDescending, thenBy,
    thenByDescending, take, skip, paging, distinct, defaultIfEmpty, first, firstOrDefault, single,
    singleOrDefault, count, longCount, sum, min, max, average, any, all, contains, union, unionAll,
    recursiveUnion, update, delete]

/-- The operator of a method name; the union that keeps duplicates has a second name. -/
def ofName? (name : String) : Option Operator :=
  if name == "Concat" then some unionAll else every.find? (·.name == name)

/-- The declaring type of the standard operators on queries. -/
def queryable : String := "Queryable"

/-- The declaring type of the operators on sequences. -/
def enumerable : String := "Enumerable"

/-- The declaring type of joins, paging, recursion and modification. -/
def extensions : String := "QueryExtensions"

/-- The operator of a static method, if its declaring type is one that declares operators. -/
def ofMethod? (m : Method) : Option Operator :=
  if [queryable, enumerable, extensions].contains m.declaringType then ofName? m.name else none

/-- The operator that a node invokes. A call with a receiver invokes none. -/
def ofCall? : Expr → Option Operator
  | .call m none _ _ => ofMethod? m
  | _ => none

theorem receiver_eq_none {m : Method} {receiver : Option Expr} {args : List Expr} {ty : Ty} {op : Operator}
    (h : ofCall? (.call m receiver args ty) = some op) : receiver = none := by
  cases receiver with
  | none => rfl
  | some r => cases h

/-- Whether an operator computes one value from all rows. -/
def isAggregate : Operator → Bool
  | count | longCount | sum | min | max | average => true
  | _ => false

end Operator

end QueryLowering
