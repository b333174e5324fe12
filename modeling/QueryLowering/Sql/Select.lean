import QueryLowering.Sql.Make

/-!
# Selects that grow

A query operator changes the clauses of a select. Some changes cannot be made to the clauses that are
there: a filter after paging, for one, has to see the rows that paging leaves. Then the select is
closed first and read by a new one.
-/

namespace QueryLowering

namespace Sql

/-- The kinds of changes that operators make to a select. -/
inductive Operation where
  | filter
  | projection
  | join
  | groupBy
  | orderBy
  | thenBy
  | take
  | skip
  | distinct
  | aggregate
  /-- The select becomes an update or a deletion. It is never closed for that. -/
  | modify
  /-- The select is only read. -/
  | inspect
deriving DecidableEq, Repr

namespace Select

/-- The data source of an alias. -/
def dataSource? (s : Select) (a : Alias) : Option DataSource := s.sources.find? (·.name == a)

/-- The alias of the first data source. -/
def initial? (s : Select) : Option Alias := s.sources.head?.map (·.name)

/-- The aliases of the data sources. -/
def aliases (s : Select) : List Alias := s.sources.map (·.name)

/-- Whether an alias is that of a data source. -/
def owns (s : Select) (a : Alias) : Bool := s.sources.any (·.name == a)

/-- Whether the number of rows is limited or rows are left out. -/
def isPaged (s : Select) : Bool := s.top.isSome || s.skip.isSome

/-- Whether rows are grouped. -/
def isGrouped (s : Select) : Bool := s.groupBy.isSome

/-- Whether the value of a row is more than other names for whole rows. -/
def changesShape (s : Select) : Bool :=
  match s.projection with
  | some p => !p.isReference
  | none => false

/-- Whether a change needs the select closed first. -/
def needsWrap (s : Select) : Operation → Bool
  | .filter =>
    s.isPaged || s.distinct || (s.isGrouped && s.projection.isSome)
      || (!s.isGrouped && s.changesShape)
  | .projection => s.distinct
  | .join => s.isPaged || s.distinct || s.isGrouped
  | .groupBy => s.isPaged || s.distinct || s.isGrouped || s.changesShape
  | .orderBy => s.isPaged || s.distinct
  | .take => s.top.isSome
  | .skip => s.isPaged
  | .distinct => s.isPaged
  | .aggregate => s.isPaged || s.distinct || s.isGrouped
  | .thenBy | .modify | .inspect => false

/-! ## Changes -/

/-- A select without data sources that computes one value. -/
def scalar (value : Node) : Select := { empty with projection := some value }

/-- A further condition beside those that are there. -/
def conjoined (existing : Option Node) (predicate : Node) : Option Node :=
  match existing with
  | some e => some (.binary .and e predicate)
  | none => some predicate

/-- Adds a condition on the rows, or on the groups as long as they have no other value. -/
def addFilter (s : Select) (predicate : Node) : Select :=
  if s.isGrouped && s.projection.isNone then { s with having := conjoined s.having predicate }
  else { s with filter := conjoined s.filter predicate }

/-- Whether a node is a group of rows. -/
def isGroupingNode : Node → Bool
  | .grouping .. => true
  | _ => false

/-- Gives the rows another value. A group stays a group. -/
def project (s : Select) (value : Node) : Select :=
  if isGroupingNode value && s.isGrouped then s else { s with projection := some value.asScalar }

/-- Groups the rows by a key. -/
def group (s : Select) (key element : Node) : Select :=
  { s with groupBy := some key.asScalar, groupElement := some element }

/-- Orders the rows, by further keys or anew. -/
def order (s : Select) (items : List OrderItem) (append : Bool) : Select :=
  { s with orderBy := if append then s.orderBy ++ items else items }

/-- Adds a data source. -/
def addSource (s : Select) (d : DataSource) : Select := { s with sources := s.sources ++ [d] }

/-- Adds a common table expression. -/
def addCte (s : Select) (c : Cte) : Select := { s with ctes := s.ctes ++ [c] }

/-- The data source that was added for a navigation. -/
def findNavigation? (s : Select) (tag : NavigationTag) : Option Alias :=
  (s.sources.find? (·.navigation == some tag)).map (·.name)

/-- How a data source is joined. -/
def joinKind? (s : Select) (a : Alias) : Option JoinKind :=
  ((s.dataSource? a).bind (·.join)).map (·.kind)

/-- Gives the join of the first data source of an alias a condition. -/
def setConditionIn (a : Alias) (condition : Node) : List DataSource → Result (List DataSource)
  | [] => breach (.sourceNotFound a)
  | d :: rest =>
    if d.name == a then
      match d.join with
      | none => breach (.sourceNotJoined a)
      | some j => pure ({ d with join := some { j with condition := some condition } } :: rest)
    else do return d :: (← setConditionIn a condition rest)

/-- Gives the join of a data source a condition. -/
def setCondition (s : Select) (a : Alias) (condition : Node) : Result Select := do
  return { s with sources := ← setConditionIn a condition s.sources }

end Select

/-! ## Output columns -/

/-- The name that an output column asks for: that of its path, of the column itself, or `Value`. -/
def baseName (path : Path) (expr : Node) : String :=
  if path.isEmpty then
    match expr with
    | .column _ name => name
    | _ => "Value"
  else path.columnName

/-- The first of `base n`, `base (n + 1)`, … that is not in use. Among more names than are in use one
is free, so the number of names in use bounds the search. -/
def numberedName (used : List String) (base : String) : Nat → Nat → String
  | 0, n => base ++ toString n
  | fuel + 1, n =>
    let name := base ++ toString n
    if used.contains name then numberedName used base fuel (n + 1) else name

/-- A name that is not in use: the one asked for, or that with a number from two on. -/
def freshName (used : List String) (base : String) : String :=
  if used.contains base then numberedName used base used.length 2 else base

/-- Output columns for values at paths, with names that differ from those in use and from each
other. -/
def nameColumnsFrom (used : List String) : List (Path × Node) → List OutputColumn
  | [] => []
  | (path, expr) :: rest =>
    let name := freshName used (baseName path expr)
    ⟨path, name, expr⟩ :: nameColumnsFrom (name :: used) rest

/-- Output columns for values at paths, with names that differ from each other. -/
def nameColumns (leaves : List (Path × Node)) : List OutputColumn := nameColumnsFrom [] leaves

end Sql

end QueryLowering
