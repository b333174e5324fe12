import QueryLowering.Path
import QueryLowering.Schema.Basic
import QueryLowering.Sql.Operator

/-!
# SQL trees

What a query is lowered to. Columns name their data source by its alias, never by a table name. The
nodes cover what stands in a finished statement and also the values that occur on the way: selects
that are still open, whole rows, and values of several columns.
-/

namespace QueryLowering

namespace Sql

/-- The table of an entity. -/
structure Table where
  entity : String
  name : TableName
deriving DecidableEq, Repr, Inhabited

/-- Which navigation a join stands for: that of a name, from the rows of a data source. -/
structure NavigationTag where
  parent : Alias
  name : String
deriving DecidableEq, Repr

mutual

/-- A node of a SQL tree. -/
inductive Node where
  /-- Stands for a value that is used elsewhere. -/
  | placeholder
  /-- A table that no select reads yet. -/
  | table (t : Table)
  /-- A select that still takes further operators. -/
  | select (s : Select)
  | derived (d : Derived)
  | union (items : List UnionItem)
  /-- A whole row of a data source. -/
  | source (a : Alias)
  | column (source : Alias) (name : String)
  /-- A value of several columns, each at its path. -/
  | composite (entries : List (Path × Node))
  /-- A group of rows: its key, and the value of each of its rows. -/
  | grouping (key element : Node)
  /-- The rows of a query as a value. -/
  | rows (d : Derived)
  | literal (l : Literal)
  | parameter (name : String) (value : Value)
  | list (items : List Node)
  | binary (op : BinaryOperator) (left right : Node)
  | unary (op : UnaryOperator) (operand : Node)
  | isNull (operand : Node) (negated : Bool)
  /-- One of two values, as a condition says. -/
  | choice (test ifTrue ifFalse : Node)
  | function (name : String) (args : List Node)
  | aggregate (function : AggregateFunction) (arg : Option Node)
  | cast (operand : Node) (type : DataType)
  | datePart (part : DatePart) (operand : Node)
  | dateAdd (part : DatePart) (amount operand : Node)
  /-- The number of units from one time to another. -/
  | dateDiff (part : DatePart) (start stop : Node)
  | inValues (operand : Node) (values : List Node) (negated : Bool)
  /-- Whether a query has rows. -/
  | existence (d : Derived)
  /-- The value of a query of one column and one row. -/
  | subquery (d : Derived)
  | update (u : Update)
  | delete (d : Delete)

/-- A select with its clauses. -/
structure Select where
  sources : List DataSource
  projection : Option Node
  filter : Option Node
  groupBy : Option Node
  /-- The value of each row of a group. -/
  groupElement : Option Node
  having : Option Node
  orderBy : List OrderItem
  top : Option Node
  skip : Option Node
  distinct : Bool
  defaultIfEmpty : Bool
  ctes : List Cte

/-- A closed select. The alias tells closed selects apart even when they are copied. -/
structure Derived where
  id : Alias
  select : Select
  columns : List OutputColumn

/-- An output column: where it stands in the value of a row, its name, and what it computes. -/
structure OutputColumn where
  path : Path
  name : String
  expr : Node

/-- A query of a union, and how it is combined with those before it. That of the first does not
count. -/
structure UnionItem where
  query : Derived
  kind : UnionKind

/-- A common table expression; the rows of the recursive part are added over and over. -/
structure Cte where
  name : Alias
  anchor : Derived
  recursive : Option Derived

/-- What a data source reads. -/
inductive Relation where
  | table (t : Table)
  | derived (d : Derived)
  | union (items : List UnionItem)
  /-- A common table expression, by its alias. -/
  | cte (name : Alias) (columns : List (Path × String))

/-- How a data source is joined to those before it. -/
structure Join where
  kind : JoinKind
  condition : Option Node

/-- A data source of a select. The first one has no join. -/
structure DataSource where
  name : Alias
  relation : Relation
  join : Option Join
  navigation : Option NavigationTag

/-- A key of an ordering. -/
structure OrderItem where
  expr : Node
  descending : Bool

/-- Assigns values to columns of the table of one data source. -/
structure Update where
  target : Alias
  select : Select
  assignments : List (String × Node)

/-- Deletes the rows of the table of one data source. -/
structure Delete where
  target : Alias
  select : Select

end

/-- What a statement does. -/
inductive Body where
  | query (d : Derived)
  | update (u : Update)
  | delete (d : Delete)

/-- A complete statement. -/
structure Statement where
  /-- The common table expressions in front of it, each before those that read it. -/
  ctes : List Cte
  body : Body

/-- A select with no clauses. -/
def Select.empty : Select :=
  { sources := [], projection := none, filter := none, groupBy := none, groupElement := none,
    having := none, orderBy := [], top := none, skip := none, distinct := false,
    defaultIfEmpty := false, ctes := [] }

instance : Inhabited Node := ⟨.placeholder⟩

instance : Inhabited Select := ⟨.empty⟩

instance : Inhabited Derived := ⟨⟨⟨0⟩, .empty, []⟩⟩

namespace Node

/-- The name of the kind of a node. -/
def kindName : Node → String
  | placeholder => "placeholder"
  | table _ => "table"
  | select _ => "select"
  | derived _ => "derived table"
  | union _ => "union"
  | source _ => "data source reference"
  | column .. => "column"
  | composite _ => "composite"
  | grouping .. => "grouping"
  | rows _ => "queryable"
  | literal _ => "literal"
  | parameter .. => "parameter"
  | list _ => "list"
  | binary .. => "binary"
  | unary .. => "unary"
  | isNull .. => "is null"
  | choice .. => "case"
  | function .. => "function"
  | aggregate .. => "aggregate"
  | cast .. => "cast"
  | datePart .. => "date part"
  | dateAdd .. => "date add"
  | dateDiff .. => "date diff"
  | inValues .. => "in values"
  | existence _ => "exists"
  | subquery _ => "subquery"
  | update _ => "update"
  | delete _ => "delete"

/-- A closed query in the place of a value is a subquery; all else stays as it is. -/
def asScalar : Node → Node
  | derived d => subquery d
  | n => n

/-- Whether a node is a condition. -/
def isPredicate : Node → Bool
  | binary op _ _ => op.isPredicate
  | unary .not _ => true
  | isNull .. | inValues .. | existence _ => true
  | _ => false

mutual

/-- Whether a node is a whole row, or is made of whole rows only. Such a value only gives rows other
names. -/
def isReference : Node → Bool
  | source _ => true
  | composite [] => false
  | composite (entry :: rest) => entriesAreReferences (entry :: rest)
  | _ => false

/-- Whether all entries are whole rows or made of whole rows. -/
def entriesAreReferences : List (Path × Node) → Bool
  | [] => true
  | (_, n) :: rest => isReference n && entriesAreReferences rest

end

/-- Whether a node may stand for several columns: a whole row, or a value made of members. Such
values are compared column by column. -/
def isMultiColumn : Node → Bool
  | composite _ | source _ => true
  | _ => false

/-! ## Values of several columns -/

/-- The entries that a member adds to a value: those of a nested value, below the member. -/
def memberEntries (member : String) : Node → List (Path × Node)
  | composite entries => entries.map fun (p, n) => (member :: p, n)
  | n => [([member], n)]

/-- A value made of named members. -/
def ofMembers (members : List (String × Node)) : Node :=
  composite (members.flatMap fun (name, n) => memberEntries name n)

/-- A member of a value of several columns: the entry of that name, or all entries below it. -/
def memberOf? (entries : List (Path × Node)) (member : String) : Option Node :=
  match entries.find? (·.1 == [member]) with
  | some (_, n) => some n
  | none =>
    match entries.filterMap fun (p, n) => (p.after? [member]).map (·, n) with
    | [] => none
    | nested => some (composite nested)

end Node

/-! ## Queries that return the rows of an entity -/

/-- The entity that all of some queries agree on. -/
def agreed : List (Option String) → Option String
  | some e :: rest => if rest.all (· == some e) then some e else none
  | _ => none

mutual

/-- The entity whose whole rows a select returns, if there is one. -/
def Select.rowEntity (s : Select) : Option String :=
  match s with
  | { sources, projection, groupBy, .. } =>
    if groupBy.isSome then none
    else
      match projection with
      | none => firstEntity sources
      | some (.source a) => entityOf a sources
      | some _ => none

/-- The entity of the rows of the first data source. -/
def firstEntity : List DataSource → Option String
  | [] => none
  | s :: _ => s.rowEntity

/-- The entity of the rows of a data source. -/
def entityOf (a : Alias) : List DataSource → Option String
  | [] => none
  | s :: rest => if s.name = a then s.rowEntity else entityOf a rest

/-- The entity of the rows of a data source. -/
def DataSource.rowEntity : DataSource → Option String
  | { relation, .. } => relation.rowEntity

/-- The entity whose whole rows a relation holds, if there is one. -/
def Relation.rowEntity : Relation → Option String
  | .table t => some t.entity
  | .derived d => d.rowEntity
  | .union items => agreed (itemEntities items)
  | .cte .. => none

/-- The entity whose whole rows a closed select returns, if there is one. -/
def Derived.rowEntity : Derived → Option String
  | { select, .. } => select.rowEntity

/-- The entity of each query of a union. -/
def itemEntities : List UnionItem → List (Option String)
  | [] => []
  | { query, .. } :: rest => query.rowEntity :: itemEntities rest

end

/-- The paths and names of the output columns. -/
def Derived.columnPaths (d : Derived) : List (Path × String) := d.columns.map fun c => (c.path, c.name)

/-- The paths and names of the columns of a union: those of its first query. -/
def unionColumnPaths (items : List UnionItem) : List (Path × String) :=
  match items with
  | [] => []
  | i :: _ => i.query.columnPaths

end Sql

end QueryLowering
