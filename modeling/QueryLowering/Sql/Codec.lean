import QueryLowering.Expr.Codec
import QueryLowering.Sql.Select

/-!
# SQL trees as plain data

Trees are written as plain data, so that other programs can look at them. A node is a list of its
name and its parts. Of a select only the clauses that are there are written, and the value of each
row of a group is left out.
-/

namespace QueryLowering

namespace Sql

/-! ## Names -/

/-- The written name of a binary operator. -/
def BinaryOperator.code : BinaryOperator → String
  | eq => "Eq"
  | notEq => "NotEq"
  | lt => "Lt"
  | ltEq => "LtEq"
  | gt => "Gt"
  | gtEq => "GtEq"
  | and => "And"
  | or => "Or"
  | plus => "Plus"
  | minus => "Minus"
  | multiply => "Multiply"
  | divide => "Divide"
  | modulo => "Modulo"
  | concat => "Concat"
  | like => "Like"

/-- All binary operators. -/
def BinaryOperator.every : List BinaryOperator :=
  [eq, notEq, lt, ltEq, gt, gtEq, and, or, plus, minus, multiply, divide, modulo, concat, like]

/-- The written name of a unary operator. -/
def UnaryOperator.code : UnaryOperator → String
  | not => "Not"
  | minus => "Minus"

/-- All unary operators. -/
def UnaryOperator.every : List UnaryOperator := [not, minus]

/-- The written name of an aggregate function. -/
def AggregateFunction.code : AggregateFunction → String
  | count => "Count"
  | countBig => "CountBig"
  | sum => "Sum"
  | min => "Min"
  | max => "Max"
  | avg => "Avg"

/-- All aggregate functions. -/
def AggregateFunction.every : List AggregateFunction := [count, countBig, sum, min, max, avg]

/-- The written name of a column type. -/
def DataType.code : DataType → String
  | boolean => "Boolean"
  | integer => "Integer"
  | bigInt => "BigInt"
  | decimal => "Decimal"
  | float => "Float"
  | text => "Text"
  | dateTime => "DateTime"
  | uuid => "Uuid"

/-- All column types. -/
def DataType.every : List DataType :=
  [boolean, integer, bigInt, decimal, float, text, dateTime, uuid]

/-- The written name of a unit of date and time. -/
def DatePart.code : DatePart → String
  | year => "Year"
  | month => "Month"
  | day => "Day"
  | hour => "Hour"
  | minute => "Minute"
  | second => "Second"
  | millisecond => "Millisecond"

/-- All units of date and time. -/
def DatePart.every : List DatePart := [year, month, day, hour, minute, second, millisecond]

/-- All kinds of joins. -/
def JoinKind.every : List JoinKind := [inner, left, right, fullOuter, cross, crossApply, outerApply]

/-- The name of an operation on a select. -/
def Operation.code : Operation → String
  | filter => "Filter"
  | projection => "Projection"
  | join => "Join"
  | groupBy => "GroupBy"
  | orderBy => "OrderBy"
  | thenBy => "ThenBy"
  | take => "Take"
  | skip => "Skip"
  | distinct => "Distinct"
  | aggregate => "Aggregate"
  | modify => "Modify"
  | inspect => "Inspect"

/-- Every operation on a select. -/
def Operation.every : List Operation :=
  [filter, projection, join, groupBy, orderBy, thenBy, take, skip, distinct, aggregate, modify, inspect]

/-- The written name of a kind of union. -/
def UnionKind.code : UnionKind → String
  | union => "Union"
  | unionAll => "UnionAll"

/-- All kinds of unions. -/
def UnionKind.every : List UnionKind := [union, unionAll]

/-! ## Parts without parts of their own -/

/-- The written form of an alias: its number. -/
def aliasDatum (a : Alias) : Datum := .int a.index

/-- The written form of a path. -/
def pathDatum (p : Path) : Datum := .list (p.map .string)

/-- The written form of an optional part. -/
def optionDatum {α : Type} (f : α → Datum) : Option α → Datum
  | some a => f a
  | none => .null

/-- The value of a literal. -/
def Literal.value : Literal → Value
  | null => .null
  | bool b => .bool b
  | int n => .int n
  | float x => .float x
  | string s => .string s
  | dateTime t => .dateTime t

/-- The written form of a table. -/
def Table.toDatum (t : Table) : Datum :=
  .record [("entity", .string t.entity), ("schema", optionDatum .string t.name.schema),
    ("name", .string t.name.name)]

/-- The written form of named columns at their paths. -/
def columnPathsDatum (columns : List (Path × String)) : Datum :=
  .list (columns.map fun (p, name) => .list [pathDatum p, .string name])

/-- The written form of a navigation tag. -/
def navigationDatum : Option NavigationTag → List (String × Datum)
  | some t => [("navigation", .list [aliasDatum t.parent, .string t.name])]
  | none => []

/-- A list, unless it is empty. -/
def givenList (name : String) : List Datum → List (String × Datum)
  | [] => []
  | items => [(name, .list items)]

/-- A mark that something holds. -/
def givenMark (name : String) (holds : Bool) : List (String × Datum) :=
  if holds then [(name, .bool true)] else []

/-! ## Trees -/

mutual

/-- The written form of a node. -/
def Node.toDatum : Node → Datum
  | .placeholder => .list [.string "placeholder"]
  | .table t => .list [.string "table", t.toDatum]
  | .select s => .list [.string "select", s.toDatum]
  | .derived d => .list [.string "derived", d.toDatum]
  | .rows d => .list [.string "queryable", d.toDatum]
  | .existence d => .list [.string "exists", d.toDatum]
  | .subquery d => .list [.string "subquery", d.toDatum]
  | .union items => .list [.string "union", .list (itemData items)]
  | .source a => .list [.string "source", aliasDatum a]
  | .column a name => .list [.string "column", aliasDatum a, .string name]
  | .composite entries => .list [.string "composite", .list (entryData entries)]
  | .grouping key element => .list [.string "grouping", key.toDatum, element.toDatum]
  | .literal l => .list [.string "literal", l.value.toDatum]
  | .parameter name v => .list [.string "parameter", .string name, v.toDatum]
  | .list items => .list [.string "list", .list (nodeData items)]
  | .binary op l r => .list [.string "binary", .string op.code, l.toDatum, r.toDatum]
  | .unary op e => .list [.string "unary", .string op.code, e.toDatum]
  | .isNull e negated => .list [.string "is_null", e.toDatum, .bool negated]
  | .choice t a b => .list [.string "case", t.toDatum, a.toDatum, b.toDatum]
  | .function name args => .list [.string "function", .string name, .list (nodeData args)]
  | .aggregate f arg => .list [.string "aggregate", .string f.code, argumentDatum arg]
  | .cast e t => .list [.string "cast", e.toDatum, .string t.code]
  | .datePart p e => .list [.string "date_part", .string p.code, e.toDatum]
  | .dateAdd p a e => .list [.string "date_add", .string p.code, a.toDatum, e.toDatum]
  | .dateDiff p a b => .list [.string "date_diff", .string p.code, a.toDatum, b.toDatum]
  | .inValues e vs negated => .list [.string "in_values", e.toDatum, .list (nodeData vs), .bool negated]
  | .update u => .list [.string "update", u.toDatum]
  | .delete d => .list [.string "delete", d.toDatum]

/-- The written form of each node. -/
def nodeData : List Node → List Datum
  | [] => []
  | n :: rest => n.toDatum :: nodeData rest

/-- The written form of a node, or null. -/
def argumentDatum : Option Node → Datum
  | none => .null
  | some n => n.toDatum

/-- A clause, if it is there. -/
def clauseData (name : String) : Option Node → List (String × Datum)
  | none => []
  | some n => [(name, n.toDatum)]

/-- The written form of each node at its path. -/
def entryData : List (Path × Node) → List Datum
  | [] => []
  | (p, n) :: rest => .list [pathDatum p, n.toDatum] :: entryData rest

/-- The written form of each assignment. -/
def assignmentData : List (String × Node) → List Datum
  | [] => []
  | (name, n) :: rest => .list [.string name, n.toDatum] :: assignmentData rest

/-- The written form of a select. -/
def Select.toDatum : Select → Datum
  | { sources, projection, filter, groupBy, having, orderBy, top, skip, distinct, defaultIfEmpty,
      ctes, .. } =>
    .record ([("sources", .list (sourceData sources))] ++ clauseData "projection" projection
      ++ clauseData "filter" filter ++ clauseData "group_by" groupBy ++ clauseData "having" having
      ++ clauseData "top" top ++ clauseData "skip" skip ++ givenList "order_by" (orderData orderBy)
      ++ givenMark "distinct" distinct ++ givenMark "default_if_empty" defaultIfEmpty
      ++ givenList "ctes" (cteData ctes))

/-- The written form of a closed select. -/
def Derived.toDatum : Derived → Datum
  | { id, select, columns } =>
    .record [("id", aliasDatum id), ("select", select.toDatum), ("columns", .list (columnData columns))]

/-- The written form of each output column. -/
def columnData : List OutputColumn → List Datum
  | [] => []
  | { path, name, expr } :: rest =>
    .record [("path", pathDatum path), ("alias", .string name), ("expr", expr.toDatum)]
      :: columnData rest

/-- The written form of each query of a union. -/
def itemData : List UnionItem → List Datum
  | [] => []
  | { query, kind } :: rest =>
    .record [("kind", .string kind.code), ("query", query.toDatum)] :: itemData rest

/-- The written form of each common table expression. -/
def cteData : List Cte → List Datum
  | [] => []
  | { name, anchor, recursive } :: rest =>
    .record [("alias", aliasDatum name), ("anchor", anchor.toDatum),
      ("recursive", recursiveDatum recursive)] :: cteData rest

/-- The written form of a closed select, or null. -/
def recursiveDatum : Option Derived → Datum
  | none => .null
  | some d => d.toDatum

/-- The written form of a relation. -/
def Relation.toDatum : Relation → Datum
  | .table t => .record [("table", t.toDatum)]
  | .derived d => .record [("derived", d.toDatum)]
  | .union items => .record [("union", .list (itemData items))]
  | .cte a columns => .record [("cte", aliasDatum a), ("columns", columnPathsDatum columns)]

/-- The written form of each data source. -/
def sourceData : List DataSource → List Datum
  | [] => []
  | { name, relation, join, navigation } :: rest =>
    .record ([("alias", aliasDatum name), ("source", relation.toDatum)] ++ joinData join
      ++ navigationDatum navigation) :: sourceData rest

/-- The written form of a join, if there is one. -/
def joinData : Option Join → List (String × Datum)
  | none => []
  | some { kind, condition } =>
    [("join", .record [("kind", .string kind.text), ("condition", argumentDatum condition)])]

/-- The written form of each key of an ordering. -/
def orderData : List OrderItem → List Datum
  | [] => []
  | { expr, descending } :: rest =>
    .list [expr.toDatum, .string (if descending then "desc" else "asc")] :: orderData rest

/-- The written form of an update. -/
def Update.toDatum : Update → Datum
  | { target, select, assignments } =>
    .record [("target", aliasDatum target), ("select", select.toDatum),
      ("assignments", .list (assignmentData assignments))]

/-- The written form of a deletion. -/
def Delete.toDatum : Delete → Datum
  | { target, select } => .record [("target", aliasDatum target), ("select", select.toDatum)]

end

/-- The written form of what a statement does. -/
def Body.toDatum : Body → Datum
  | query d => .record [("query", d.toDatum)]
  | update u => .record [("update", u.toDatum)]
  | delete d => .record [("delete", d.toDatum)]

/-- The written form of a statement. -/
def Statement.toDatum (s : Statement) : Datum :=
  .record [("ctes", .list (cteData s.ctes)), ("body", s.body.toDatum)]

end Sql

end QueryLowering
