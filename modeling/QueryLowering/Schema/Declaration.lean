import QueryLowering.Datum.Toml
import QueryLowering.Dialect.Basic
import QueryLowering.Schema.Basic

/-!
# Declared schemas

A declaration is what a data text says about a schema, together with the options of the lowering.
What it leaves out has a default: a table is named like its entity, a column like its member.
-/

namespace QueryLowering

/-- The options of the lowering. -/
structure Options where
  /-- The dialect that statements are written in. -/
  dialect : Dialect := .sqlServer
  /-- Whether expressions are simplified first. -/
  preprocess : Bool := true
  /-- Whether common table expressions move to the front of the statement. -/
  hoistCtes : Bool := true
deriving DecidableEq, Repr, Inhabited

/-- A declared column. -/
structure ColumnDeclaration where
  member : String
  column : Option String
  primaryKey : Bool
deriving DecidableEq, Repr

/-- A declared entity. -/
structure EntityDeclaration where
  name : String
  table : Option String
  schema : Option String
  columns : List ColumnDeclaration
  navigations : List Navigation
deriving DecidableEq, Repr

/-- A declared schema with the options of the lowering. -/
structure Declaration where
  options : Options := {}
  entities : List EntityDeclaration := []
deriving DecidableEq, Repr, Inhabited

/-- The column that a declaration stands for. -/
def ColumnDeclaration.toColumn (c : ColumnDeclaration) : Column :=
  ⟨c.member, c.column.getD c.member, c.primaryKey⟩

/-- The entity that a declaration stands for. -/
def EntityDeclaration.toEntity (e : EntityDeclaration) : Entity :=
  ⟨e.name, ⟨e.schema, e.table.getD e.name⟩, e.columns.map ColumnDeclaration.toColumn, e.navigations⟩

/-- The schema that a declaration stands for, if it is consistent. -/
def Declaration.schema (d : Declaration) : Result Schema :=
  (Schema.mk (d.entities.map EntityDeclaration.toEntity)).validated

/-! ## Reading -/

/-- The options that plain data write. -/
def Options.ofDatum? (m : Manner) (d : Datum) : Option Options := do
  match ← d.fields? m ["dialect", "preprocess", "hoist_ctes"] with
  | [dialect, preprocess, hoistCtes] =>
    return ⟨← withDefault .sqlServer (Datum.oneOf? m Dialect.every Dialect.name) dialect,
      ← withDefault true Datum.bool? preprocess, ← withDefault true Datum.bool? hoistCtes⟩
  | _ => none

/-- The written name of a cardinality. -/
def Cardinality.code : Cardinality → String
  | toOneRequired => "to_one_required"
  | toOneOptional => "to_one_optional"
  | toMany => "to_many"

/-- The cardinalities. -/
def Cardinality.every : List Cardinality := [toOneRequired, toOneOptional, toMany]

/-- The column that plain data declare. -/
def ColumnDeclaration.ofDatum? (m : Manner) (d : Datum) : Option ColumnDeclaration := do
  match ← d.fields? m ["member", "column", "primary_key"] with
  | [member, column, primaryKey] =>
    return ⟨← required Datum.string? member, ← nullable Datum.string? column,
      ← withDefault false Datum.bool? primaryKey⟩
  | _ => none

/-- The pair of members that plain data write. -/
def Navigation.keyOfDatum? (m : Manner) (d : Datum) : Option (String × String) := do
  match ← d.fields? m ["parent", "child"] with
  | [parent, child] => return (← required Datum.string? parent, ← required Datum.string? child)
  | _ => none

/-- The navigation that plain data declare. -/
def Navigation.ofDatum? (m : Manner) (d : Datum) : Option Navigation := do
  match ← d.fields? m ["name", "target", "cardinality", "keys"] with
  | [name, target, cardinality, keys] =>
    return ⟨← required Datum.string? name, ← required Datum.string? target,
      ← required (Datum.oneOf? m Cardinality.every Cardinality.code) cardinality,
      ← required (Datum.listOf? (keyOfDatum? m)) keys⟩
  | _ => none

/-- The entity that plain data declare. -/
def EntityDeclaration.ofDatum? (m : Manner) (d : Datum) : Option EntityDeclaration := do
  match ← d.fields? m ["name", "table", "schema", "column", "navigation"] with
  | [name, table, schema, columns, navigations] =>
    return ⟨← required Datum.string? name, ← nullable Datum.string? table,
      ← nullable Datum.string? schema,
      ← withDefault [] (Datum.listOf? (ColumnDeclaration.ofDatum? m)) columns,
      ← withDefault [] (Datum.listOf? (Navigation.ofDatum? m)) navigations⟩
  | _ => none

/-- The schema that plain data declare. -/
def Declaration.ofDatum? (m : Manner) (d : Datum) : Option Declaration := do
  match ← d.fields? m ["options", "entity"] with
  | [options, entities] =>
    return ⟨← withDefault {} (Options.ofDatum? m) options,
      ← withDefault [] (Datum.listOf? (EntityDeclaration.ofDatum? m)) entities⟩
  | _ => none

/-- The schema that a TOML text declares. -/
def Declaration.ofToml? (text : String) : Option Declaration :=
  (Toml.parse? text).bind (ofDatum? Toml.manner)

/-! ## Writing -/

/-- A field that is left out if there is no value. -/
def givenField (name : String) : Option String → List (String × Datum)
  | some s => [(name, .string s)]
  | none => []

/-- The written form of options. -/
def Options.toDatum (o : Options) : Datum :=
  .record [("dialect", .string o.dialect.name), ("preprocess", .bool o.preprocess),
    ("hoist_ctes", .bool o.hoistCtes)]

/-- The written form of a declared column. -/
def ColumnDeclaration.toDatum (c : ColumnDeclaration) : Datum :=
  .record ([("member", .string c.member)] ++ givenField "column" c.column
    ++ [("primary_key", .bool c.primaryKey)])

/-- The written form of a navigation. -/
def Navigation.toDatum (n : Navigation) : Datum :=
  .record [("name", .string n.name), ("target", .string n.target),
    ("cardinality", .string n.cardinality.code),
    ("keys", .list (n.keys.map fun (parent, child) =>
      .record [("parent", .string parent), ("child", .string child)]))]

/-- The written form of a declared entity. -/
def EntityDeclaration.toDatum (e : EntityDeclaration) : Datum :=
  .record ([("name", .string e.name)] ++ givenField "table" e.table ++ givenField "schema" e.schema
    ++ [("column", .list (e.columns.map ColumnDeclaration.toDatum)),
      ("navigation", .list (e.navigations.map Navigation.toDatum))])

/-- The written form of a declared schema. -/
def Declaration.toDatum (d : Declaration) : Datum :=
  .record [("options", d.options.toDatum), ("entity", .list (d.entities.map EntityDeclaration.toDatum))]

end QueryLowering
