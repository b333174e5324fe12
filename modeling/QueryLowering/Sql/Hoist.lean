import QueryLowering.Sql.Traverse

/-!
# Hoisting common table expressions

All common table expressions of a statement move to its front. One that is declared inside another
one comes before it, and copies of one are kept once.
-/

namespace QueryLowering

namespace Sql

/-- Takes the common table expressions out of every select. -/
def withoutCtes : Change := { select := fun s => { s with ctes := [] } }

/-- Collects the common table expressions of every select, those of its parts before its own. -/
def declaredCtes : Harvest Cte := { select := (·.ctes) }

/-- A common table expression whose queries declare none. -/
def Cte.bare (c : Cte) : Cte :=
  { c with anchor := c.anchor.change withoutCtes, recursive := changeRecursive withoutCtes c.recursive }

/-- The items that are the first of their alias and not among the aliases seen before. -/
def firstOfEach : List Alias → List Cte → List Cte
  | _, [] => []
  | seen, c :: rest =>
    if seen.contains c.name then firstOfEach seen rest else c :: firstOfEach (c.name :: seen) rest

/-- What a statement does, without common table expressions inside. -/
def Body.bare : Body → Body
  | query d => query (d.change withoutCtes)
  | update u => update (u.change withoutCtes)
  | delete d => delete (d.change withoutCtes)

/-- The common table expressions that are declared inside a statement. -/
def Body.declared : Body → List Cte
  | query d => d.harvest declaredCtes
  | update u => u.harvest declaredCtes
  | delete d => d.harvest declaredCtes

/-- The statement with all common table expressions at its front. -/
def Statement.hoist (s : Statement) : Statement :=
  { ctes := s.ctes ++ (firstOfEach (s.ctes.map (·.name)) s.body.declared).map Cte.bare
    body := s.body.bare }

end Sql

end QueryLowering
