import QueryLowering.Render.Node

/-!
# Written statements
-/

namespace QueryLowering

open Sql

/-- A statement as text with the values of its parameters. -/
structure Rendered where
  sql : String
  /-- The parameters by name, in the order of their numbers. -/
  parameters : List (String × Value)

/-! ## Modifications -/

/-- A modification taken apart: the table that it modifies, the other data sources, and the
conditions. -/
structure SplitTarget where
  target : Option Fragment
  others : List Fragment
  conditions : List Fragment
  /-- All parts in the order in which they were met. -/
  met : List Fragment

namespace SplitTarget

variable (d : Dialect) (statement : String)

/-- The condition of a join that a modification can do without: it moves to the conditions on rows. -/
def joinCondition (s : SourceForm) : Result (List Fragment) := do
  match s.join with
  | none => return []
  | some (kind, condition) =>
    if kind ≠ .inner ∧ kind ≠ .cross then
      throw (.unsupported (statement ++ " over a " ++ kind.text ++ " join in " ++ d.name))
    match condition with
    | some c => return [← c.conditionOperand d .and]
    | none => return []

/-- Takes one data source apart. -/
def add (target : Alias) (split : SplitTarget) (s : SourceForm) : Result SplitTarget := do
  let condition ← joinCondition d statement s
  let split := { split with
    conditions := split.conditions ++ condition, met := split.met ++ condition }
  if s.name = target then
    match s.table with
    | some t => return { split with target := some (t.text ++ (" AS " ++ s.name.text)) }
    | none => throw (.unsupported (statement ++ " of a derived table"))
  else
    let other ← s.named
    return { split with others := split.others ++ [other], met := split.met ++ [other] }

/-- Takes a modification apart. Returns the table, and the rest of the parts. -/
def ofSelect (target : Alias) (s : SelectForm) : Result (Fragment × SplitTarget) := do
  let split ← s.sources.foldlM (add d statement target) ⟨none, [], [], []⟩
  let table ← orThrow (.invalidState (.targetNotInSources statement target)) split.target
  match s.filter with
  | some f =>
    let condition ← f.conditionOperand d .and
    return (table, { split with
      conditions := split.conditions ++ [condition], met := split.met ++ [condition] })
  | none => return (table, split)

/-- The clauses of the other data sources and of the conditions. -/
def clauses (split : SplitTarget) (keyword : String) : List Fragment :=
  (if split.others.isEmpty then [] else [keyword ++ Fragment.join ", " split.others])
    ++ (if split.conditions.isEmpty then [] else ["WHERE " ++ Fragment.join " AND " split.conditions])

end SplitTarget

namespace Sql

variable (d : Dialect)

/-- Columns and the values assigned to them. -/
def assignmentForms : List (String × Node) → List (String × Form)
  | [] => []
  | (name, n) :: rest => (name, n.form d) :: assignmentForms rest

/-- The assignments of an update. -/
def assignmentList (assignments : List (String × Node)) : Result Fragment := do
  let items ← (assignmentForms d assignments).mapM fun (name, f) => do
    return Fragment.identifier name ++ " = " ++ (← f.asValue d)
  return "SET " ++ .join ", " items

/-- The data sources, with their joins, and the conditions of a modification. -/
def joinedClauses (s : SelectForm) : Result (List Fragment) := do
  let sources ← s.sources.mapM (·.text d)
  return sources ++ (← SelectForm.conditionClause d "WHERE " s.filter)

/-- An update. -/
def Update.text (u : Update) : Result Fragment := do
  let s := u.select.form d
  let declarations ← CteForm.clause d s.ctes
  if d.modifiesThroughJoins then
    let assignments ← assignmentList d u.assignments
    let rest ← joinedClauses d s
    return .join " " (declarations ++ [.raw ("UPDATE " ++ u.target.text), assignments] ++ rest)
  else
    let (table, split) ← SplitTarget.ofSelect d "UPDATE" u.target s
    let assignments ← assignmentList d u.assignments
    let text := Fragment.join " "
      (declarations ++ ["UPDATE " ++ table, assignments] ++ split.clauses "FROM ")
    return text.metLike (declarations ++ split.met ++ [assignments])

/-- A deletion. -/
def Delete.text (q : Delete) : Result Fragment := do
  let s := q.select.form d
  let declarations ← CteForm.clause d s.ctes
  if d.modifiesThroughJoins then
    let rest ← joinedClauses d s
    return .join " " (declarations ++ [.raw ("DELETE " ++ q.target.text)] ++ rest)
  else
    let (table, split) ← SplitTarget.ofSelect d "DELETE" q.target s
    let text := Fragment.join " "
      (declarations ++ ["DELETE FROM " ++ table] ++ split.clauses "USING ")
    return text.metLike (declarations ++ split.met)

/-! ## Statements -/

/-- What a statement does. -/
def Body.text : Body → Result Fragment
  | .query q => q.text d false
  | .update u => u.text d
  | .delete q => q.text d

/-- A statement as tokens. -/
def Statement.fragment (s : Statement) : Result Fragment := do
  let declarations ← CteForm.clause d (cteForms d s.ctes)
  return .join " " (declarations ++ [← s.body.text d])

end Sql

/-! ## Numbering parameters -/

/-- The first of each name among some parameters. -/
def firstOfName : List (String × Value) → List (String × Value)
  | [] => []
  | p :: rest => p :: (firstOfName rest).filter (·.1 != p.1)

/-- The number of a parameter: its place in the list, from one. -/
def parameterNumber (parameters : List (String × Value)) (name : String) : Nat :=
  parameters.findIdx (·.1 == name) + 1

/-- The text of a token in a statement with given parameters. -/
def Token.text (d : Dialect) (parameters : List (String × Value)) : Token → String
  | raw text => text
  | identifier name => d.quote name
  | string text => Quoted.string text
  | parameter name _ => d.placeholder name (parameterNumber parameters name)

/-- The text of a fragment in a statement with given parameters. -/
def Fragment.text (d : Dialect) (parameters : List (String × Value)) (f : Fragment) : String :=
  String.join (f.tokens.map (Token.text d parameters))

/-- The text of a statement and the values of its parameters. -/
def Sql.Statement.render (d : Dialect) (s : Statement) : Result Rendered := do
  let f ← s.fragment d
  let parameters := firstOfName f.parameters
  return ⟨f.text d parameters, parameters⟩

end QueryLowering
