import QueryLowering.Lower.Query
import QueryLowering.Sql.Substitute

/-!
# Unions

A union is a list of queries. A union on the left side of another one goes on with its queries; one
on the right side does so only if it combines all its queries in the same way, because
`a UNION (b UNION ALL c)` and `a UNION b UNION ALL c` have different rows.

In a recursive union the second query reads the rows found so far. It becomes a common table
expression that reads itself.
-/

namespace QueryLowering

open Sql

/-- Whether all queries of a union after the first one are combined in a given way. -/
def combinesOnlyBy (kind : UnionKind) (items : List UnionItem) : Bool :=
  items.tail.all (·.kind = kind)

/-- The queries with the first one combined in a given way. -/
def combineFirst (kind : UnionKind) : List UnionItem → List UnionItem
  | [] => []
  | i :: rest => { i with kind := kind } :: rest

/-- Refuses queries with another number of columns than the first one. -/
def checkColumns (items : List UnionItem) : Result Unit :=
  match items with
  | [] => pure ()
  | first :: rest =>
    let expected := first.query.columns.length
    match rest.find? (·.query.columns.length != expected) with
    | some i => throw (.arity "columns of a union member" expected i.query.columns.length)
    | none => pure ()

namespace Lower

/-- The queries of one side of a union. -/
def unionItems (kind : UnionKind) (side : String) (n : Node) : Lower (List UnionItem) := do
  match ← closeQuery n with
  | .union items => return items
  | .derived d => return [⟨d, kind⟩]
  | other => throw (.shape "query" other.kindName (side ++ " side of a union"))

/-- The right side of a union, as one query if it is a union that combines in another way. -/
def rightSide (kind : UnionKind) : Node → Lower Node
  | .union items => do
    if combinesOnlyBy kind items then return .union items
    else return .derived (← closeSelect (← selectFrom (.union items)))
  | n => pure n

/-- The union of two values. -/
def union (kind : UnionKind) (left right : Node) : Lower Node := do
  let first ← unionItems kind "left" left
  let second ← unionItems kind "right" (← rightSide kind right)
  let items := first ++ combineFirst kind second
  ofResult (checkColumns items)
  return .union items

/-- The second query of a recursive union. -/
def recursiveMember (n : Node) : Lower Derived := do
  match ← closeQuery n with
  | .derived d => return d
  | other =>
    throw (.shape "derived table" other.kindName "recursive member of a recursive union")

/-- A select of the rows of a recursive union. The uses of the anchor in the second query become uses
of the common table expression. -/
def recursiveUnion (anchor : Derived) (n : Node) : Lower Node := do
  let member ← recursiveMember n
  if member.columns.length ≠ anchor.columns.length then
    throw (.arity "columns of the recursive member" anchor.columns.length member.columns.length)
  let a ← update Scope.fresh
  let reference : Relation := .cte a anchor.columnPaths
  if member.countUses anchor.id = 0 then
    throw (.unsupported "recursive member that never reads the rows produced so far")
  let s ← selectFrom reference
  return .select (s.addCte ⟨a, anchor, some (member.substitute anchor.id reference)⟩)

end Lower

end QueryLowering
