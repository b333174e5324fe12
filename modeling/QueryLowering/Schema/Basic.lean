import QueryLowering.Error

/-!
# Schemas

A schema says how entities are stored: the table of each entity, its columns, and the navigations
that lead from its rows to related rows. Whatever a statement names comes from here.
-/

namespace QueryLowering

/-- The name of a table, with the name of its database schema if there is one. -/
structure TableName where
  schema : Option String
  name : String
deriving DecidableEq, Repr, Inhabited

/-- A member of an entity and the column that stores it. -/
structure Column where
  member : String
  column : String
  primaryKey : Bool
deriving DecidableEq, Repr

/-- How many rows a navigation leads to. -/
inductive Cardinality where
  /-- Exactly one row. -/
  | toOneRequired
  /-- One row or none. -/
  | toOneOptional
  | toMany
deriving DecidableEq, Repr

/-- A navigation from the rows of an entity to the related rows of another one. -/
structure Navigation where
  name : String
  target : String
  cardinality : Cardinality
  /-- Pairs of a member of the entity and the member of the target that equals it. -/
  keys : List (String × String)
deriving DecidableEq, Repr

/-- Whether a navigation leads to any number of rows. -/
def Navigation.isToMany (n : Navigation) : Bool := n.cardinality == .toMany

/-- An entity with its table. -/
structure Entity where
  name : String
  table : TableName
  columns : List Column
  navigations : List Navigation
deriving DecidableEq, Repr

/-- The entities that queries are about. -/
structure Schema where
  entities : List Entity
deriving DecidableEq, Repr, Inhabited

namespace Schema

/-- The entity of a name. -/
def find? (s : Schema) (name : String) : Option Entity := s.entities.find? (·.name == name)

/-- The entity of a name, or an error. -/
def entity (s : Schema) (name : String) : Result Entity := orThrow (.unknownEntity name) (s.find? name)

/-- The table of an entity. -/
def table (s : Schema) (name : String) : Result TableName := do return (← s.entity name).table

/-- The columns of an entity. -/
def columns (s : Schema) (name : String) : Result (List Column) := do return (← s.entity name).columns

/-- The members of an entity. -/
def members (s : Schema) (name : String) : Result (List String) := do
  return (← s.columns name).map (·.member)

/-- The members of an entity that make up its primary key. -/
def primaryKeys (s : Schema) (name : String) : Result (List String) := do
  return ((← s.columns name).filter (·.primaryKey)).map (·.member)

/-- The column that stores a member. -/
def columnName (s : Schema) (entity member : String) : Result String := do
  let column := (← s.columns entity).find? (·.member == member)
  return (← orThrow (.unknownMember entity member) column).column

/-- A navigation of an entity. -/
def navigation (s : Schema) (entity name : String) : Result Navigation := do
  let navigation := (← s.entity entity).navigations.find? (·.name == name)
  orThrow (.unknownNavigation entity name) navigation

/-- The names of all entities in their order. -/
def names (s : Schema) : List String :=
  (s.entities.map (·.name)).mergeSort fun a b => a < b || a == b

/-! ## Consistency -/

/-- What is wrong with one key of a navigation. -/
def keyFault? (e target : Entity) (n : Navigation) (key : String × String) : Option SchemaFault :=
  if e.columns.any (·.member == key.1) && target.columns.any (·.member == key.2) then none
  else some (.notAColumnPair e.name n.name key.1 key.2)

/-- What is wrong with a navigation: its target must exist, and its keys must pair columns. -/
def navigationFault? (s : Schema) (e : Entity) (n : Navigation) : Option SchemaFault :=
  match s.find? n.target with
  | none => some (.unknownTarget e.name n.name n.target)
  | some target =>
    if n.keys.isEmpty then some (.noKeys e.name n.name)
    else n.keys.findSome? (keyFault? e target n)

/-- What is wrong with an entity. -/
def entityFault? (s : Schema) (e : Entity) : Option SchemaFault :=
  if e.columns.isEmpty then some (.noColumns e.name)
  else e.navigations.findSome? (s.navigationFault? e)

/-- The first name that occurs again later on. -/
def repeated? : List String → List String → Option String
  | _, [] => none
  | seen, n :: rest => if seen.contains n then some n else repeated? (n :: seen) rest

/-- What is inconsistent in a schema. -/
def fault? (s : Schema) : Option SchemaFault :=
  match repeated? [] (s.entities.map (·.name)) with
  | some name => some (.declaredTwice name)
  | none => s.entities.findSome? s.entityFault?

/-- A schema that is consistent. -/
def validated (s : Schema) : Result Schema :=
  match s.fault? with
  | some f => throw (.schema f)
  | none => pure s

end Schema

end QueryLowering
