import QueryLowering.Lower.Query

/-!
# Navigations

A navigation to one row is a join in the select that reads the row it starts from; the same
navigation from the same row has one join. A navigation to many rows is joined where a `SelectMany`
asks for it, and is a query of its own elsewhere.
-/

namespace QueryLowering

open Sql

/-- The condition that one key of a navigation is equal on both sides. -/
def Scope.keyCondition (schema : Schema) (sc : Scope) (target : String) (parent child : Alias)
    (key : String × String) : Result Node := do
  let left ← sc.resolvePath schema parent [key.1]
  let column ← schema.columnName target key.2
  return .operation .eq left (.column child column)

/-- Which rows a navigation leads to: those whose keys equal the keys of the row it starts from. -/
def Scope.navigationCondition (schema : Schema) (sc : Scope) (nav : Navigation)
    (parent child : Alias) : Result Node := do
  let conditions ← nav.keys.mapM (sc.keyCondition schema nav.target parent child)
  orThrow (.schema (.noJoinKeys nav.name)) (conjunction conditions)

/-- Whether the node below some frames is the collection of a `SelectMany`, possibly below a lambda
and quotes. -/
def collectionOf (below : Frame) : List Frame → Bool
  | [] => false
  | f :: rest =>
    if f.rule = "SelectMany" then below.index == some 1
    else if f.rule = "Lambda" ∨ f.rule = "Quote" then collectionOf f rest
    else false

/-- Whether the innermost node is the collection of a `SelectMany`. -/
def inCollection : List Frame → Bool
  | [] => false
  | f :: rest => collectionOf f rest

/-- How the one row of a navigation is joined. A row may be missing if the navigation says so, or if
the row it starts from may be missing. -/
def toOneKind (s : Select) (parent : Alias) (nav : Navigation) : JoinKind :=
  if nav.cardinality = .toOneOptional ∨ (s.joinKind? parent).any JoinKind.isOuter then .left
  else .inner

namespace Lower

/-- Adds the join of a navigation to a lent select. -/
def joinNavigation (t : Ticket) (parent : Alias) (nav : Navigation) (target : Table)
    (kind : JoinKind) : Lower Alias := do
  let a ← joinLent t (.table target) kind (some (.literal (.bool true))) (some ⟨parent, nav.name⟩)
  let condition ← look fun schema sc => sc.navigationCondition schema nav parent a
  setLentCondition t a condition
  return a

/-- The lent select that reads the row a navigation starts from. -/
def navigationOwner (parent : Alias) (nav : Navigation) : Lower (Ticket × Select) := do
  orThrow (.invalidState (.navigationWithoutOwner nav.name parent)) ((← get).owner? parent)

/-- The row that a navigation to one row leads to. -/
def navigateToOne (parent : Alias) (nav : Navigation) (target : Table) : Lower Node := do
  let (t, s) ← navigationOwner parent nav
  match s.findNavigation? ⟨parent, nav.name⟩ with
  | some a => return .source a
  | none => return .source (← joinNavigation t parent nav target (toOneKind s parent nav))

/-- The rows that a navigation to many rows leads to, joined to the row it starts from. -/
def joinCollectionOf (parent : Alias) (nav : Navigation) (target : Table) : Lower Node := do
  let (t, _) ← navigationOwner parent nav
  return .source (← joinNavigation t parent nav target .inner)

/-- The rows that a navigation to many rows leads to, as a query of its own. -/
def correlatedRows (parent : Alias) (nav : Navigation) (target : Table) : Lower Node := do
  let (child, s) ← update fun sc =>
    let (s, after) := Select.ofRelation (.table target) sc
    ((after.lastAlias, s), after)
  let condition ← look fun schema sc => sc.navigationCondition schema nav parent child
  return .rows (← closeSelect (s.addFilter condition))

/-- The data source and the entity that a navigation starts from. -/
def navigationStart (name : String) (n : Node) : Lower (Alias × String) := do
  let context := "source of navigation '" ++ name ++ "'"
  match n with
  | .source a =>
    match (← look fun _ sc => sc.shape a).entity? with
    | some entity => return (a, entity)
    | none => throw (.shape "entity data source" "derived table" context)
  | other => throw (.shape "data source reference" other.kindName context)

/-- The value of a navigation from a value. -/
def navigate (name : String) (n : Node) : Lower Node := do
  let (parent, entity) ← navigationStart name n
  let nav ← look fun schema _ => schema.navigation entity name
  let target : Table := ⟨nav.target, ← look fun schema _ => schema.table nav.target⟩
  if !nav.isToMany then navigateToOne parent nav target
  else if inCollection (← get).frames then joinCollectionOf parent nav target
  else correlatedRows parent nav target

end Lower

end QueryLowering
