import QueryLowering.Sql.Basic

/-!
# Walking over SQL trees

Two traversals reach every part of a tree: one changes it, one collects from it. Both can stop at a
relation or a node, which they then do not enter. Both visit the parts of a select in one order: its
common table expressions, its data sources with their join conditions, its projection, filter, group
key, group element, group condition, row limit, row offset and ordering.
-/

namespace QueryLowering

namespace Sql

/-! ## Changing a tree -/

/-- A change of a tree. -/
structure Change where
  /-- What takes the place of a relation; none to change its parts. -/
  relation : Relation → Option Relation := fun _ => none
  /-- What takes the place of a node; none to change its parts. -/
  node : Node → Option Node := fun _ => none
  /-- What becomes of a select whose parts are changed. -/
  select : Select → Select := id

section

variable (c : Change)

mutual

/-- The changed node. -/
def Node.change (n : Node) : Node :=
  match c.node n with
  | some n => n
  | none =>
    match n with
    | .placeholder => .placeholder
    | .table t => .table t
    | .select s => .select s.change
    | .derived d => .derived d.change
    | .union items => .union (changeItems items)
    | .source a => .source a
    | .column a name => .column a name
    | .composite entries => .composite (changeEntries entries)
    | .grouping key element => .grouping key.change element.change
    | .rows d => .rows d.change
    | .literal l => .literal l
    | .parameter name v => .parameter name v
    | .list items => .list (changeNodes items)
    | .binary op l r => .binary op l.change r.change
    | .unary op e => .unary op e.change
    | .isNull e negated => .isNull e.change negated
    | .choice t a b => .choice t.change a.change b.change
    | .function name args => .function name (changeNodes args)
    | .aggregate f arg => .aggregate f (changeOption arg)
    | .cast e t => .cast e.change t
    | .datePart p e => .datePart p e.change
    | .dateAdd p a e => .dateAdd p a.change e.change
    | .dateDiff p a b => .dateDiff p a.change b.change
    | .inValues e vs negated => .inValues e.change (changeNodes vs) negated
    | .existence d => .existence d.change
    | .subquery d => .subquery d.change
    | .update u => .update u.change
    | .delete d => .delete d.change

/-- The changed nodes. -/
def changeNodes : List Node → List Node
  | [] => []
  | n :: rest => n.change :: changeNodes rest

/-- The changed node, if there is one. -/
def changeOption : Option Node → Option Node
  | none => none
  | some n => some n.change

/-- The changed nodes at their paths. -/
def changeEntries : List (Path × Node) → List (Path × Node)
  | [] => []
  | (p, n) :: rest => (p, n.change) :: changeEntries rest

/-- The changed assignments. -/
def changeAssignments : List (String × Node) → List (String × Node)
  | [] => []
  | (name, n) :: rest => (name, n.change) :: changeAssignments rest

/-- The changed select. -/
def Select.change : Select → Select
  | { sources, projection, filter, groupBy, groupElement, having, orderBy, top, skip, distinct,
      defaultIfEmpty, ctes } =>
    c.select {
      sources := changeSources sources
      projection := changeOption projection
      filter := changeOption filter
      groupBy := changeOption groupBy
      groupElement := changeOption groupElement
      having := changeOption having
      orderBy := changeOrder orderBy
      top := changeOption top
      skip := changeOption skip
      distinct
      defaultIfEmpty
      ctes := changeCtes ctes }

/-- The changed closed select. -/
def Derived.change : Derived → Derived
  | { id, select, columns } => { id, select := select.change, columns := changeColumns columns }

/-- The changed output columns. -/
def changeColumns : List OutputColumn → List OutputColumn
  | [] => []
  | { path, name, expr } :: rest => { path, name, expr := expr.change } :: changeColumns rest

/-- The changed queries of a union. -/
def changeItems : List UnionItem → List UnionItem
  | [] => []
  | { query, kind } :: rest => { query := query.change, kind } :: changeItems rest

/-- The changed common table expressions. -/
def changeCtes : List Cte → List Cte
  | [] => []
  | { name, anchor, recursive } :: rest =>
    { name, anchor := anchor.change, recursive := changeRecursive recursive } :: changeCtes rest

/-- The changed closed select, if there is one. -/
def changeRecursive : Option Derived → Option Derived
  | none => none
  | some d => some d.change

/-- The changed relation. -/
def Relation.change (r : Relation) : Relation :=
  match c.relation r with
  | some r => r
  | none =>
    match r with
    | .table t => .table t
    | .derived d => .derived d.change
    | .union items => .union (changeItems items)
    | .cte a columns => .cte a columns

/-- The changed data sources. -/
def changeSources : List DataSource → List DataSource
  | [] => []
  | { name, relation, join, navigation } :: rest =>
    { name, relation := relation.change, join := changeJoin join, navigation } :: changeSources rest

/-- The changed join, if there is one. -/
def changeJoin : Option Join → Option Join
  | none => none
  | some { kind, condition } => some { kind, condition := changeOption condition }

/-- The changed ordering. -/
def changeOrder : List OrderItem → List OrderItem
  | [] => []
  | { expr, descending } :: rest => { expr := expr.change, descending } :: changeOrder rest

/-- The changed update. -/
def Update.change : Update → Update
  | { target, select, assignments } =>
    { target, select := select.change, assignments := changeAssignments assignments }

/-- The changed deletion. -/
def Delete.change : Delete → Delete
  | { target, select } => { target, select := select.change }

end

end

/-! ## Collecting from a tree -/

/-- A collection from a tree. -/
structure Harvest (α : Type) where
  /-- What a relation gives as a whole; none to collect from its parts. -/
  relation : Relation → Option (List α) := fun _ => none
  /-- What a node gives as a whole; none to collect from its parts. -/
  node : Node → Option (List α) := fun _ => none
  /-- What a select gives after its parts. -/
  select : Select → List α := fun _ => []

section

variable {α : Type} (h : Harvest α)

mutual

/-- What a node gives. -/
def Node.harvest (n : Node) : List α :=
  match h.node n with
  | some as => as
  | none =>
    match n with
    | .placeholder | .table _ | .source _ | .column .. | .literal _ | .parameter .. => []
    | .select s => s.harvest
    | .derived d => d.harvest
    | .union items => harvestItems items
    | .composite entries => harvestEntries entries
    | .grouping key element => key.harvest ++ element.harvest
    | .rows d => d.harvest
    | .list items => harvestNodes items
    | .binary _ l r => l.harvest ++ r.harvest
    | .unary _ e => e.harvest
    | .isNull e _ => e.harvest
    | .choice t a b => t.harvest ++ a.harvest ++ b.harvest
    | .function _ args => harvestNodes args
    | .aggregate _ arg => harvestOption arg
    | .cast e _ => e.harvest
    | .datePart _ e => e.harvest
    | .dateAdd _ a e => a.harvest ++ e.harvest
    | .dateDiff _ a b => a.harvest ++ b.harvest
    | .inValues e vs _ => e.harvest ++ harvestNodes vs
    | .existence d => d.harvest
    | .subquery d => d.harvest
    | .update u => u.harvest
    | .delete d => d.harvest

/-- What some nodes give. -/
def harvestNodes : List Node → List α
  | [] => []
  | n :: rest => n.harvest ++ harvestNodes rest

/-- What a node gives, if there is one. -/
def harvestOption : Option Node → List α
  | none => []
  | some n => n.harvest

/-- What the nodes at some paths give. -/
def harvestEntries : List (Path × Node) → List α
  | [] => []
  | (_, n) :: rest => n.harvest ++ harvestEntries rest

/-- What some assignments give. -/
def harvestAssignments : List (String × Node) → List α
  | [] => []
  | (_, n) :: rest => n.harvest ++ harvestAssignments rest

/-- What a select gives. -/
def Select.harvest : Select → List α
  | s@{ sources, projection, filter, groupBy, groupElement, having, orderBy, top, skip, ctes, .. } =>
    harvestCtes ctes ++ harvestSources sources ++ harvestOption projection ++ harvestOption filter
      ++ harvestOption groupBy ++ harvestOption groupElement ++ harvestOption having
      ++ harvestOption top ++ harvestOption skip ++ harvestOrder orderBy ++ h.select s

/-- What a closed select gives. -/
def Derived.harvest : Derived → List α
  | { select, columns, .. } => select.harvest ++ harvestColumns columns

/-- What some output columns give. -/
def harvestColumns : List OutputColumn → List α
  | [] => []
  | { expr, .. } :: rest => expr.harvest ++ harvestColumns rest

/-- What the queries of a union give. -/
def harvestItems : List UnionItem → List α
  | [] => []
  | { query, .. } :: rest => query.harvest ++ harvestItems rest

/-- What some common table expressions give. -/
def harvestCtes : List Cte → List α
  | [] => []
  | { anchor, recursive, .. } :: rest =>
    anchor.harvest ++ harvestRecursive recursive ++ harvestCtes rest

/-- What a closed select gives, if there is one. -/
def harvestRecursive : Option Derived → List α
  | none => []
  | some d => d.harvest

/-- What a relation gives. -/
def Relation.harvest (r : Relation) : List α :=
  match h.relation r with
  | some as => as
  | none =>
    match r with
    | .table _ | .cte .. => []
    | .derived d => d.harvest
    | .union items => harvestItems items

/-- What some data sources give. -/
def harvestSources : List DataSource → List α
  | [] => []
  | { relation, join, .. } :: rest => relation.harvest ++ harvestJoin join ++ harvestSources rest

/-- What a join gives, if there is one. -/
def harvestJoin : Option Join → List α
  | none => []
  | some { condition, .. } => harvestOption condition

/-- What an ordering gives. -/
def harvestOrder : List OrderItem → List α
  | [] => []
  | { expr, .. } :: rest => expr.harvest ++ harvestOrder rest

/-- What an update gives. -/
def Update.harvest : Update → List α
  | { select, assignments, .. } => select.harvest ++ harvestAssignments assignments

/-- What a deletion gives. -/
def Delete.harvest : Delete → List α
  | { select, .. } => select.harvest

end

end

end Sql

end QueryLowering
