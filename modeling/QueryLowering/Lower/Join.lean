import QueryLowering.Lower.Step

/-!
# Joins

Operators of two queries add a data source to the lent select while their arguments are lowered, so
that the lambdas among later arguments see the joined rows.
-/

namespace QueryLowering

open Sql

namespace Lower

/-- Joins a value to a lent select. -/
def joinValue (t : Ticket) (kind : JoinKind) (context : String) (n : Node) : Lower Alias := do
  joinLent t (← relation context n) kind none none

/-- A row of the data source that an operator has joined. -/
def joinedRow (operator : String) (p : Progress) : Lower Node := do
  return (← scope).sourceValue (← known (.argumentBeforeJoin operator) p.joined)

/-- The parameters of an argument, bound to a row of the select and a joined row. -/
def bindRows (operator : String) (p : Progress) (t : Ticket) (arg : Expr) :
    Lower (List (String × Node)) := do
  return bindInOrder arg [← rowOf t, ← joinedRow operator p]

/-- Gives the join of an operator its condition. -/
def setJoinedCondition (operator : String) (p : Progress) (t : Ticket) (condition : Node) :
    Lower Unit := do
  setLentCondition t (← known (.argumentBeforeJoin operator) p.joined) condition

/-- The rows of an inner select that match an outer row by key. -/
def matching (p : Progress) (innerKey : Node) : Lower Node := do
  let outerKey ← known (.innerKeyBeforeOuter "GroupJoin") p.outerKey
  let condition ← look fun schema sc => sc.equality schema outerKey innerKey
  let inner ← known .keyBeforeInner p.inner
  return .rows (← closeSelect (inner.addFilter condition))

/-- Whether a data source of a lent select was added for a navigation. -/
def isNavigation (t : Ticket) (a : Alias) : Lower Bool := do
  match (← lentQuery t).dataSource? a with
  | some d => return d.navigation.isSome
  | none => return false

/-- How the rows of a closed select are applied to each row before them. -/
def applyKind (d : Derived) : JoinKind :=
  if d.select.defaultIfEmpty then .outerApply else .crossApply

/-- Joins the collection of a `SelectMany`. A navigation has been joined already; rows that depend on
the row before them are applied to it, and a table is joined with every row. -/
def joinCollection (t : Ticket) (arg : Expr) (n : Node) : Lower Alias := do
  let context := "SelectMany collection"
  let noQuery : Error := .shape "query" n.kindName ("collection of " ++ arg.text)
  match n with
  | .source a => if ← isNavigation t a then return a else throw noQuery
  | .derived d => joinValue t (applyKind d) context n
  | .rows d => joinValue t (applyKind d) context n
  | .table _ => joinValue t .cross context n
  | _ => throw noQuery

end Lower

namespace Step

open Lower

/-- What the parameters of the argument at a place stand for while it is lowered. -/
def bindings (s : Step) (p : Progress) (t : Ticket) (index : Nat) (arg : Expr) :
    Lower (List (String × Node)) := do
  match s, index with
  | join, 1 | groupJoin, 1 | explicitJoin .., 1 | childJoin .., 1 => return []
  | join, 2 | groupJoin, 2 => bindFirst arg t
  | join, 3 => return bindInOrder arg [← joinedRow s.name p]
  | join, _ => bindRows s.name p t arg
  | groupJoin, 3 =>
    return bindInOrder arg [(← known .keyBeforeInner p.inner).currentShape (← scope)]
  | groupJoin, _ => return bindInOrder arg [← rowOf t, ← known .resultBeforeKeys p.items]
  | explicitJoin .., 2 => bindRows s.name p t arg
  | explicitJoin .., _ => return bindInOrder arg [← known .conditionBeforeShape p.shape]
  | apply .., 1 => bindFirst arg t
  | apply .., _ => bindRows s.name p t arg
  | selectMany, 1 => bindFirst arg t
  | selectMany, _ =>
    return bindInOrder arg [← known .resultBeforeCollection p.shape, ← joinedRow s.name p]
  | childJoin .., _ => bindRows s.name p t arg
  | _, _ => bindFirst arg t

/-- The row that the result of a `SelectMany` sees: the one that its collection was lowered for. -/
def outerRow (t : Ticket) (bound : List (String × Node)) : Lower Node :=
  match bound with
  | (_, n) :: _ => pure n
  | [] => rowOf t

/-- What is known before the argument at a place is lowered. -/
def anticipate (s : Step) (p : Progress) (t : Ticket) (index : Nat)
    (bound : List (String × Node)) : Lower Progress := do
  match s, index with
  | selectMany, 1 => return { p with shape := some (← outerRow t bound) }
  | _, _ => return p

/-- What a step does once the argument at a place is lowered. -/
def receive (s : Step) (p : Progress) (t : Ticket) (index : Nat) (arg : Expr) (n : Node) :
    Lower Progress := do
  match s, index with
  | join, 1 => return { p with joined := some (← joinValue t .inner "Join inner query" n) }
  | join, 2 | groupJoin, 2 => return { p with outerKey := some n }
  | join, 3 =>
    let outerKey ← known (.innerKeyBeforeOuter s.name) p.outerKey
    let condition ← look fun schema sc => sc.equality schema outerKey n
    setJoinedCondition s.name p t condition
    return p
  | groupJoin, 1 =>
    let inner ← openQuery arg n
    let inner ← attempt fun schema sc => inner.prepare schema .filter sc
    return { p with inner := some inner }
  | groupJoin, 3 => return { p with items := some (← matching p n) }
  | explicitJoin _ kind, 1 => return { p with joined := some (← joinValue t kind "joined query" n) }
  | explicitJoin .., 2 => return { p with shape := some n }
  | explicitJoin .., 3 =>
    setJoinedCondition s.name p t n.asScalar.condition
    return p
  | apply _ kind, 1 => return { p with joined := some (← joinValue t kind "applied query" n) }
  | selectMany, 1 => return { p with joined := some (← joinCollection t arg n) }
  | childJoin kind _ _, 1 => return { p with joined := some (← joinValue t kind "child query" n) }
  | childJoin _ condition _, index =>
    if condition = some index then setJoinedCondition s.name p t n.asScalar.condition
    return p
  | _, _ => return p

end Step

end QueryLowering
