import QueryLowering.Sql.Traverse

/-!
# Substitution in SQL trees
-/

namespace QueryLowering

namespace Sql

/-! ## Relations -/

/-- Whether a relation is the closed select of a given alias. -/
def Relation.isDerived (id : Alias) : Relation → Bool
  | .derived d => d.id == id
  | _ => false

/-- Puts a relation in the place of every data source that reads the closed select of an alias. -/
def substitution (id : Alias) (replacement : Relation) : Change :=
  { relation := fun r => if r.isDerived id then some replacement else none }

/-- Collects one item for every data source that reads the closed select of an alias. -/
def uses (id : Alias) : Harvest Unit :=
  { relation := fun r => if r.isDerived id then some [()] else none }

/-- A closed select in which a relation stands in the place of every use of another one. -/
def Derived.substitute (d : Derived) (id : Alias) (replacement : Relation) : Derived :=
  d.change (substitution id replacement)

/-- How many data sources of a closed select read another one. -/
def Derived.countUses (d : Derived) (id : Alias) : Nat := (d.harvest (uses id)).length

/-! ## Columns -/

/-- The expression of the last output column of a name. -/
def Derived.output? (d : Derived) (name : String) : Option Node :=
  (d.columns.reverse.find? (·.name == name)).map (·.expr)

/-- Puts output expressions of a closed select in the place of the columns read from it. -/
def inlining (source : Alias) (d : Derived) : Change :=
  { node := fun
      | .column a name =>
        if a == source then some ((d.output? name).getD (.column a name)) else some (.column a name)
      | _ => none }

/-- Collects the names of columns read from a closed select that it does not have. -/
def missingColumns (source : Alias) (d : Derived) : Harvest String :=
  { node := fun
      | .column a name => if a == source && (d.output? name).isNone then some [name] else some []
      | _ => none }

/-- A node in which the output expressions of a closed select stand in the place of its columns. -/
def Node.inline (n : Node) (source : Alias) (d : Derived) : Node := n.change (inlining source d)

/-- The last column read from a closed select that it does not have. -/
def Node.missing? (n : Node) (source : Alias) (d : Derived) : Option String :=
  (n.harvest (missingColumns source d)).getLast?

end Sql

end QueryLowering
