import QueryLowering.Lower.Step
import QueryLowering.Sql.Substitute

/-!
# Updates and deletions

A statement that modifies rows names a table. If the rows to modify are read from a closed select,
the statement is traced back to the select inside, as long as that only filters its rows: conditions,
target and assigned values then read the columns of the inner select.
-/

namespace QueryLowering

open Sql

/-- A modification of the rows of a select. -/
structure Modification where
  /-- The name of the statement in messages. -/
  statement : String
  select : Select
  /-- The rows to modify, as a value of the select. -/
  target : Node
  /-- The values to assign. -/
  values : List (Path × Node)

namespace Modification

/-- The data source that a value comes from. -/
def leafSource : Node → Option Alias
  | .source a => some a
  | .column a _ => some a
  | _ => none

/-- The data source that all leaves come from. -/
def commonSource : List (Option Alias) → Option Alias
  | some a :: rest => if rest.all (· == some a) then some a else none
  | _ => none

/-- The data source that a target names. -/
def targetAlias (statement : String) : Node → Result Alias
  | .source a => pure a
  | .column a _ => pure a
  | .composite entries =>
    orThrow (.unsupported (statement ++ " target spanning several data sources"))
      (commonSource (entries.map fun entry => leafSource entry.2))
  | other => throw (.shape "data source reference" other.kindName (statement ++ " target"))

/-- The error of a target that is no table in the end. -/
def notTraceable (statement : String) : Error := .unsupported (statement ++ " of a derived table")

/-- Whether a target is a whole row of a data source. -/
def isRowOf (a : Alias) : Node → Bool
  | .source b => a == b
  | _ => false

/-- The names of columns that conditions, target and values read from a closed select that does not
have them. -/
def missing (m : Modification) (a : Alias) (d : Derived) : List String :=
  let read := m.select.filter.toList ++ (if isRowOf a m.target then [] else [m.target])
    ++ m.values.map (·.2)
  read.flatMap (Node.harvest (missingColumns a d))

/-- The modification of the select inside a closed select. -/
def inner (m : Modification) (a : Alias) (d : Derived) (sc : Scope) : Modification :=
  let filtered := match m.select.filter with
    | some f => d.select.addFilter (f.inline a d)
    | none => d.select
  { m with
    select := { filtered with ctes := filtered.ctes ++ m.select.ctes }
    target := if isRowOf a m.target then filtered.currentShape sc else m.target.inline a d
    values := m.values.map fun (p, n) => (p, n.inline a d) }

/-- The modification of the select inside a closed select, which must not page, group or drop
duplicates. -/
def unwrap (m : Modification) (a : Alias) (d : Derived) (sc : Scope) : Result Modification :=
  if d.select.isPaged || d.select.isGrouped || d.select.distinct then
    throw (notTraceable m.statement)
  else
    match (m.missing a d).getLast? with
    | some column => throw (.missingBinding column (m.statement ++ " target"))
    | none => pure (m.inner a d sc)

/-- The modification of the table that a target names among some data sources. -/
def ofTable (m : Modification) (sources : List DataSource) (a : Alias) :
    Result (Modification × Alias × String) :=
  match sources.find? (·.name == a) with
  | some { relation := .table t, .. } => pure (m, a, t.entity)
  | some _ => throw (notTraceable m.statement)
  | none => breach (.targetNotInQuery m.statement a)

mutual

/-- Traces a modification whose select has given data sources back to a table. -/
def traceFrom (sc : Scope) (sources : List DataSource) (m : Modification) :
    Result (Modification × Alias × String) :=
  match sources with
  | [] => do m.ofTable [] (← targetAlias m.statement m.target)
  | [{ name, relation, .. }] => do
    let a ← targetAlias m.statement m.target
    if name = a then traceRelation sc relation m a
    else breach (.targetNotInQuery m.statement a)
  | first :: second :: rest => do
    m.ofTable (first :: second :: rest) (← targetAlias m.statement m.target)
termination_by structural sources

/-- Traces a modification of the rows of a relation, which nothing else is joined to, back to a
table. -/
def traceRelation (sc : Scope) (relation : Relation) (m : Modification) (a : Alias) :
    Result (Modification × Alias × String) :=
  match relation with
  | .table t => pure (m, a, t.entity)
  | .derived q => traceDerived sc q m a
  | .union _ | .cte .. => throw (notTraceable m.statement)
termination_by structural relation

/-- Traces a modification of the rows of a closed select back to a table. -/
def traceDerived (sc : Scope) (q : Derived) (m : Modification) (a : Alias) :
    Result (Modification × Alias × String) :=
  match q with
  | { id, select, columns } => do
    traceSelect sc select (← m.unwrap a { id, select, columns } sc)
termination_by structural q

/-- Traces a modification of the rows of a select back to a table. -/
def traceSelect (sc : Scope) (s : Select) (m : Modification) :
    Result (Modification × Alias × String) :=
  match s with
  | { sources, .. } => traceFrom sc sources m
termination_by structural s

end

/-- The modification of a table, with the data source that reads it and its entity. -/
def trace (m : Modification) (sc : Scope) : Result (Modification × Alias × String) :=
  traceFrom sc m.select.sources m

/-- The select of a modification: only its data sources, conditions and common table expressions
count. -/
def rows (m : Modification) : Select := { m.select with projection := none, orderBy := [] }

/-- The assignments of an update to columns of an entity. -/
def assignments (schema : Schema) (entity : String) :
    List (Path × Node) → Result (List (String × Node))
  | [] => pure []
  | ([member], n) :: rest => do
    let column ← schema.columnName entity member
    return (column, n.asScalar) :: (← assignments schema entity rest)
  | (path, _) :: _ => throw (.unsupported ("assignment to nested member '" ++ path.text ++ "'"))

/-- The deletion of the rows. -/
def toDelete (m : Modification) (sc : Scope) : Result Node := do
  let (m, a, _) ← m.trace sc
  return .delete ⟨a, m.rows⟩

/-- The update of the rows. -/
def toUpdate (m : Modification) (schema : Schema) (sc : Scope) : Result Node := do
  let (m, a, entity) ← m.trace sc
  return .update ⟨a, m.rows, ← assignments schema entity m.values⟩

end Modification

namespace Lower

/-- The rows that a modification names, or else all rows of its select. -/
def modificationTarget (s : Select) (args : List Node) : Lower Node := do
  if args.length ≤ 1 then return s.currentShape (← scope) else part args 1 "modification target"

/-- The values that an update assigns. -/
def assignedValues (args : List Node) : Lower (List (Path × Node)) := do
  match ← part args 2 "UPDATE assignments" with
  | .composite entries => return entries
  | other => throw (.shape "member assignments" other.kindName "UPDATE assignments")

/-- Modifies the rows of a select. -/
def modify (delete : Bool) (s : Select) (args : List Node) : Lower Node := do
  let target ← modificationTarget s args
  if delete then look fun _ sc => Modification.toDelete ⟨"DELETE", s, target, []⟩ sc
  else
    let values ← assignedValues args
    look fun schema sc => Modification.toUpdate ⟨"UPDATE", s, target, values⟩ schema sc

end Lower

end QueryLowering
