import QueryLowering.Sql.Select

/-!
# Scopes

What is known about names while a query is lowered: the values that lambda parameters stand for, and
the columns that each data source has.
-/

namespace QueryLowering

open Sql

/-- The columns of a data source. -/
inductive SourceShape where
  /-- The table of an entity; its columns are in the schema. -/
  | entity (name : String)
  /-- Named columns at their paths. If every row is a whole row of an entity, that entity is known. -/
  | columns (columns : List (Path × String)) (rowEntity : Option String)
deriving DecidableEq, Repr

namespace SourceShape

/-- The columns of a relation. -/
def ofRelation : Relation → SourceShape
  | .table t => entity t.entity
  | .derived d => columns d.columnPaths d.rowEntity
  | .union items => columns (unionColumnPaths items) (agreed (itemEntities items))
  | .cte _ cs => columns cs none

/-- The entity of the rows, if they are whole rows of one. -/
def entity? : SourceShape → Option String
  | entity name => some name
  | columns _ rowEntity => rowEntity

/-- The name of the only column, if there is one column and it has no path. -/
def single? : SourceShape → Option String
  | columns [([], name)] _ => some name
  | _ => none

end SourceShape

/-- What is known about names. -/
structure Scope where
  /-- The parameters that are bound, from the outermost to the innermost. -/
  params : List (String × Node)
  /-- The columns of the known data sources; of two entries the first one counts. -/
  shapes : List (Alias × SourceShape)
  /-- The alias that was handed out last. -/
  lastAlias : Alias
deriving Inhabited

namespace Scope

/-- Nothing is known. -/
def empty : Scope := ⟨[], [], ⟨0⟩⟩

/-- Hands out an alias. -/
def fresh (sc : Scope) : Alias × Scope := (sc.lastAlias.next, { sc with lastAlias := sc.lastAlias.next })

/-- Makes the columns of a data source known. -/
def register (sc : Scope) (a : Alias) (shape : SourceShape) : Scope :=
  { sc with shapes := (a, shape) :: sc.shapes }

/-- The columns of a data source, if they are known. -/
def shape? (sc : Scope) (a : Alias) : Option SourceShape := sc.shapes.lookup a

/-- The columns of a data source. -/
def shape (sc : Scope) (a : Alias) : Result SourceShape :=
  orThrow (.invalidState (.sourceNotRegistered a)) (sc.shape? a)

/-- The value of the innermost parameter of a name. -/
def lookup? (sc : Scope) (name : String) : Option Node := sc.params.reverse.lookup name

/-- Binds further parameters inside those that are bound. -/
def bind (sc : Scope) (params : List (String × Node)) : Scope := { sc with params := sc.params ++ params }

/-- Unbinds the innermost parameters so that a number of them is left. -/
def unbindTo (sc : Scope) (depth : Nat) : Scope := { sc with params := sc.params.take depth }

/-- The value of a row of a data source: the row itself, or its column if it has only one and that
has no path. -/
def sourceValue (sc : Scope) (a : Alias) : Node :=
  match (sc.shape? a).bind SourceShape.single? with
  | some name => .column a name
  | none => .source a

/-! ## Members and paths -/

/-- What a path finds among named columns: the column at the path, or all columns below it. -/
def resolveColumns (a : Alias) (columns : List (Path × String)) (path : Path) : Option Node :=
  match columns.find? (·.1 == path) with
  | some (_, name) => some (.column a name)
  | none =>
    match columns.filterMap fun (p, name) => (p.after? path).map (·, Node.column a name) with
    | [] => none
    | nested => some (.composite nested)

/-- What a path below a data source leads to. -/
def resolvePath (schema : Schema) (sc : Scope) (a : Alias) (path : Path) : Result Node := do
  let missing : Error := .missingBinding (Path.text path) ("data source " ++ a.text)
  match ← sc.shape a with
  | .entity entity =>
    match path with
    | [member] => return .column a (← schema.columnName entity member)
    | _ => throw missing
  | .columns columns _ => orThrow missing (resolveColumns a columns path)

/-- A member of a value: of a row, of a value of several columns, or the key of a group. -/
def resolveMember (schema : Schema) (sc : Scope) (target : Node) (member : String) : Result Node :=
  match target with
  | .source a => sc.resolvePath schema a [member]
  | .composite entries =>
    orThrow (.missingBinding member "composite value") (Node.memberOf? entries member)
  | .grouping key _ =>
    if member == "Key" then pure key else throw (.missingBinding member "grouping")
  | other =>
    throw (.shape "data source or composite" other.kindName ("target of member '" ++ member ++ "'"))

/-! ## The columns of a value -/

/-- The columns of a data source, each at its path. -/
def sourceLeaves (schema : Schema) (sc : Scope) (a : Alias) : Result (List (Path × Node)) := do
  match ← sc.shape a with
  | .entity entity =>
    return (← schema.columns entity).map fun c => ([c.member], .column a c.column)
  | .columns columns _ => return columns.map fun (p, name) => (p, .column a name)

mutual

/-- The single columns of a value, each at its path below a given one. A whole row has the columns of
its data source, a group those of its key, and a closed query is one value. -/
def flatten (schema : Schema) (sc : Scope) (base : Path) : Node → Result (List (Path × Node))
  | .composite entries => flattenEntries schema sc base entries
  | .source a => do return (← sc.sourceLeaves schema a).map fun (p, n) => (base ++ p, n)
  | .grouping key _ => flatten schema sc base key
  | .derived d => pure [(base, .subquery d)]
  | .select s => notProjectable base (.select s)
  | .placeholder => notProjectable base .placeholder
  | .table t => notProjectable base (.table t)
  | .union items => notProjectable base (.union items)
  | .update u => notProjectable base (.update u)
  | .delete d => notProjectable base (.delete d)
  | leaf => pure [(base, leaf)]
where
  notProjectable (base : Path) (n : Node) : Result (List (Path × Node)) :=
    throw (.shape "projectable value" n.kindName ("projection member '" ++ base.text ++ "'"))

/-- The single columns of the entries of a value. -/
def flattenEntries (schema : Schema) (sc : Scope) (base : Path) :
    List (Path × Node) → Result (List (Path × Node))
  | [] => pure []
  | (p, n) :: rest => do
    return (← flatten schema sc (base ++ p) n) ++ (← flattenEntries schema sc base rest)

end

end Scope

end QueryLowering
