import QueryLowering.Scope.Basic
import QueryLowering.Sql.Equality

/-!
# Closing and wrapping selects

A select is closed when its output columns are fixed. A closed select can be read by a new select in
its place; then parameters that stand for values of the old select are bound to the columns of the
new one.
-/

namespace QueryLowering

open Sql

namespace Sql

namespace Select

/-- A select that reads a relation under a new alias. -/
def ofRelation (r : Relation) (sc : Scope) : Select × Scope :=
  let (a, sc) := sc.fresh
  ({ empty with sources := [⟨a, r, none, none⟩] }, sc.register a (.ofRelation r))

/-- Joins a relation under a new alias. -/
def addJoin (s : Select) (r : Relation) (kind : JoinKind) (condition : Option Node)
    (navigation : Option NavigationTag) (sc : Scope) : Alias × Select × Scope :=
  let (a, sc) := sc.fresh
  (a, s.addSource ⟨a, r, some ⟨kind, condition⟩, navigation⟩, sc.register a (.ofRelation r))

/-- The value of each row of a group. -/
def elementShape (s : Select) (sc : Scope) : Node :=
  match s.groupElement, s.initial? with
  | some element, _ => element
  | none, some a => sc.sourceValue a
  | none, none => .placeholder

/-- The value of a row: its projection, a group, or a row of the first data source. -/
def currentShape (s : Select) (sc : Scope) : Node :=
  match s.projection, s.groupBy, s.initial? with
  | some p, _, _ => p
  | none, some key, _ => .grouping key (s.elementShape sc)
  | none, none, some a => sc.sourceValue a
  | none, none, none => .placeholder

/-- The group that a row of a grouped select stands for. -/
def groupingShape (s : Select) (sc : Scope) : Result Node :=
  match s.groupBy with
  | some key => pure (.grouping key (s.elementShape sc))
  | none => breach .notGrouped

/-- A grouped select without another value shows its keys. -/
def withKeyProjection (s : Select) : Select :=
  if s.projection.isNone then { s with projection := s.groupBy } else s

/-- The closed select. -/
def close (schema : Schema) (s : Select) (sc : Scope) : Result (Derived × Scope) := do
  let s := s.withKeyProjection
  let leaves ← sc.flatten schema [] (s.currentShape sc)
  let (id, sc) := sc.fresh
  return (⟨id, s, nameColumns leaves⟩, sc)

/-! ## Wrapping -/

/-- A select that has just been wrapped, with what is needed to bind parameters to its columns. -/
structure Wrapped where
  select : Select
  /-- The alias under which it reads the closed select. -/
  name : Alias
  closed : Derived
  /-- The value of a row of the select before it was closed. -/
  oldShape : Node
  /-- The data sources of the select before it was closed. -/
  oldAliases : List Alias

/-- A new select that reads the closed select. -/
def enclose (schema : Schema) (s : Select) (sc : Scope) : Result (Wrapped × Scope) := do
  let (closed, after) ← s.close schema sc
  let (outer, after) := ofRelation (.derived closed) after
  return (⟨outer, outer.initial?.getD closed.id, closed, s.currentShape sc, s.aliases⟩, after)

/-- The values that take the place of whole rows of the old select. Of a value of several columns
those rows count that the old select owns; of a row that occurs twice the first place counts. -/
def Wrapped.expansions (schema : Schema) (w : Wrapped) (sc : Scope) :
    Result (List (Alias × Node)) :=
  match w.oldShape with
  | .source old => pure [(old, sc.sourceValue w.name)]
  | .composite entries =>
    entries.foldlM (fun found entry =>
      match entry with
      | (path, .source old) =>
        if w.oldAliases.contains old then do
          let value ← sc.resolvePath schema w.name path
          return found ++ [(old, value)]
        else pure found
      | _ => pure found) []
  | _ => pure []

/-- The columns of the new select that take the place of output expressions of the old one. -/
def Wrapped.replacements (w : Wrapped) : List (Node × Node) :=
  w.closed.columns.map fun c => (c.expr, .column w.name c.name)

section

variable (replacements : List (Node × Node)) (expansions : List (Alias × Node))

mutual

/-- A value of the old select as a value of the new one. -/
def remap (n : Node) : Node :=
  match replacements.find? (·.1 == n) with
  | some (_, column) => column
  | none =>
    match n with
    | .source a => (expansions.lookup a).getD (.source a)
    | .composite entries => .composite (remapEntries entries)
    | .grouping key element => .grouping (remap key) (remap element)
    | n => n

/-- The entries of a value of the old select as entries of a value of the new one. -/
def remapEntries : List (Path × Node) → List (Path × Node)
  | [] => []
  | (p, n) :: rest => (p, remap n) :: remapEntries rest

end

end

/-- Binds parameters that stand for values of the old select to columns of the new one. -/
def Wrapped.rebind (schema : Schema) (w : Wrapped) (sc : Scope) : Result Scope := do
  let expansions ← w.expansions schema sc
  return { sc with params := sc.params.map fun (name, n) => (name, remap w.replacements expansions n) }

/-- The select that reads the closed select, with parameters bound to its columns. -/
def wrap (schema : Schema) (s : Select) (sc : Scope) : Result (Select × Scope) := do
  let (w, sc) ← s.enclose schema sc
  return (w.select, ← w.rebind schema sc)

/-- Refuses an update or a deletion of rows that are paged, grouped or without duplicates. -/
def checkModifiable (s : Select) (op : Operation) : Result Unit :=
  if op == .modify && (s.isPaged || s.isGrouped || s.distinct) then
    throw (.unsupported "UPDATE or DELETE over a paged, grouped or distinct query")
  else pure ()

/-- The select in which a change can be made, wrapped if need be. -/
def prepare (schema : Schema) (s : Select) (op : Operation) (sc : Scope) :
    Result (Select × Scope) := do
  s.checkModifiable op
  if s.needsWrap op then s.wrap schema sc else return (s, sc)

end Select

end Sql

end QueryLowering
