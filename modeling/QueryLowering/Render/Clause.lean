import QueryLowering.Render.Form

/-!
# Clauses

How the clauses of a select are put together once their expressions are written. The clauses stand
on one line, with a blank between each two.
-/

namespace QueryLowering

open Sql

/-- The name of a common table expression. -/
def cteName (a : Alias) : String := "cte" ++ toString a.index

/-- The name of a table. -/
def TableName.text (t : TableName) : Fragment :=
  match t.schema with
  | some schema => .identifier schema ++ "." ++ .identifier t.name
  | none => .identifier t.name

/-- A common table expression with written parts. -/
structure CteForm where
  name : Alias
  columns : List String
  anchor : Result Fragment
  recursive : Option (Result Fragment)

namespace CteForm

/-- The query of a common table expression. -/
def body (c : CteForm) : Result Fragment := do
  let anchor ← c.anchor
  match c.recursive with
  | some recursive => return anchor ++ " UNION ALL " ++ (← recursive)
  | none => return anchor

/-- The declaration of a common table expression. -/
def text (c : CteForm) : Result Fragment := do
  let columns := Fragment.join ", " (c.columns.map .identifier)
  return cteName c.name ++ " (" ++ columns ++ ") AS (" ++ (← c.body) ++ ")"

/-- The clause that declares common table expressions, if there are any. -/
def clause (d : Dialect) (cs : List CteForm) : Result (List Fragment) := do
  if cs.isEmpty then return []
  else
    let keyword := if cs.any (·.recursive.isSome) then d.recursiveKeyword else ""
    return [("WITH " ++ keyword) ++ .join ", " (← cs.mapM text)]

end CteForm

/-- A data source with written parts. -/
structure SourceForm where
  name : Alias
  /-- The table that it reads, if it reads one. -/
  table : Option TableName
  relation : Result Fragment
  join : Option (JoinKind × Option Form)

namespace SourceForm

/-- What is read, and the alias that it is read under. -/
def named (s : SourceForm) : Result Fragment := do return (← s.relation) ++ (" AS " ++ s.name.text)

/-- A joined relation with its condition. Some joins ask for a condition and some take none. -/
def joinText (d : Dialect) (kind : JoinKind) (condition : Option Form) (relation : Fragment) :
    Result Fragment := do
  let (keyword, takesCondition) := d.joinKeyword kind
  match condition, takesCondition with
  | some c, true => return (keyword ++ " ") ++ relation ++ " ON " ++ (← c.asCondition d)
  | none, true => return (keyword ++ " ") ++ relation ++ (" ON " ++ d.alwaysTrue)
  | none, false => return (keyword ++ " ") ++ relation
  | some _, false => breach (.conditionOnBareJoin keyword)

/-- The clause of a data source. -/
def text (d : Dialect) (s : SourceForm) : Result Fragment := do
  let relation ← s.named
  match s.join with
  | none => return "FROM " ++ relation
  | some (kind, condition) => joinText d kind condition relation

end SourceForm

/-- A select with written parts. -/
structure SelectForm where
  ctes : List CteForm
  sources : List SourceForm
  filter : Option Form
  groupBy : Option Form
  having : Option Form
  orderBy : List (Form × Bool)
  top : Option Form
  skip : Option Form
  distinct : Bool

namespace SelectForm

variable (d : Dialect)

/-- A clause made of a keyword and a condition, if there is one. -/
def conditionClause (keyword : String) : Option Form → Result (List Fragment)
  | some f => do return [keyword ++ (← f.asCondition d)]
  | none => pure []

/-- The output columns. A select without any has a constant. -/
def columnList (columns : List (Form × String)) : Result Fragment := do
  let items ← columns.mapM fun (f, name) => do
    return (← f.asValue d) ++ " AS " ++ Fragment.identifier name
  return if items.isEmpty then "1" else .join ", " items

/-- The clause of the group key. -/
def groupClause : Option Form → Result (List Fragment)
  | some f => do return ["GROUP BY " ++ .join ", " (← f.asLeaves d)]
  | none => pure []

/-- The columns that one key orders by. -/
def orderKey (key : Form × Bool) : Result (List Fragment) := do
  return (← key.1.asLeaves d).map fun f => if key.2 then f ++ " DESC" else f

/-- The clause of the ordering. -/
def orderClause (keys : List (Form × Bool)) : Result Fragment := do
  return "ORDER BY " ++ .join ", " (← keys.mapM (orderKey d)).flatten

/-- The value of an expression, if there is one. -/
def optionalValue : Option Form → Result (Option Fragment)
  | some f => do return some (← f.asValue d)
  | none => pure none

/-- Whether the row limit stands at the head. -/
def topInHead (s : SelectForm) : Bool := d.usesTop && s.skip.isNone

/-- Whether the ordering is written. Inside another query it may count only together with paging. -/
def isOrdered (s : SelectForm) (nested : Bool) : Bool :=
  !s.orderBy.isEmpty && (!nested || s.top.isSome || s.skip.isSome || d.ordersUnpagedSubqueries)

/-- The row limit at the head. -/
def headClause (s : SelectForm) : Result (List Fragment) := do
  if s.topInHead d then
    match ← optionalValue d s.top with
    | some top => return ["TOP " ++ top.parens]
    | none => return []
  else return []

/-- The clauses that order and page the rows. -/
def tailClauses (s : SelectForm) (nested : Bool) : Result (List Fragment) := do
  let ordered := s.isOrdered d nested
  let order ← if ordered then pure [← orderClause d s.orderBy] else pure []
  let top ← optionalValue d (if s.topInHead d then none else s.top)
  let skip ← optionalValue d s.skip
  return order ++ (d.paging top skip ordered).toList

/-- A select of some output columns. -/
def text (s : SelectForm) (nested : Bool) (columns : List (Form × String)) : Result Fragment := do
  let declarations ← CteForm.clause d s.ctes
  let head ← s.headClause d
  let items ← columnList d columns
  let sources ← s.sources.mapM (·.text d)
  let filter ← conditionClause d "WHERE " s.filter
  let group ← groupClause d s.groupBy
  let having ← conditionClause d "HAVING " s.having
  let tail ← s.tailClauses d nested
  let distinct : List Fragment := if s.distinct then ["DISTINCT"] else []
  return .join " " (declarations ++ [.raw "SELECT"] ++ distinct ++ head ++ [items] ++ sources ++ filter
    ++ group ++ having ++ tail)

end SelectForm

end QueryLowering
