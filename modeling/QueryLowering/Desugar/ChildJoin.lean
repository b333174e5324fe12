import QueryLowering.Expr.Build
import QueryLowering.Expr.Traverse

/-!
# Child joins

A `SelectMany` over a query that does not mention the outer row is a cross join. One over a filtered
query in which the outer row occurs only in equalities between a value of the outer row and a value
of the inner row is an inner join on those equalities. Any other `SelectMany` stays as it is.
-/

namespace QueryLowering

namespace Desugar

/-- The parts of the join that a `SelectMany` stands for. -/
structure JoinPlan where
  source : Expr
  child : Expr
  condition : Option Expr
  result : Option Expr
  join : ChildJoin

/-- Whether an expression is a query by its form: all rows of an entity, or an operator call. -/
def isQuery : Expr → Bool
  | .constant (.table _) _ => true
  | e => (Operator.ofCall? e).isSome

/-- The parts of a conjunction, from left to right. -/
def conjuncts : Expr → List Expr
  | .binary .andAlso left right _ => conjuncts left ++ conjuncts right
  | e => [e]

/-- The conjunction of some conditions. -/
def conjunction : List Expr → Option Expr
  | [] => none
  | e :: rest => some (rest.foldl (Expr.binaryOf .andAlso) e)

/-- Whether an expression mentions one parameter and not another one. -/
def mentionsOnly (own other : String) (e : Expr) : Bool := e.mentions own && !e.mentions other

/-- Whether a condition equates a value of the outer row with a value of the inner row. -/
def isKeyEquality (outer inner : String) : Expr → Bool
  | .binary .equal left right _ =>
    (mentionsOnly outer inner left && mentionsOnly inner outer right)
      || (mentionsOnly inner outer left && mentionsOnly outer inner right)
  | _ => false

/-- The inner join of a source with a filtered query, if the outer row occurs in the condition of the
query only in key equalities. The rest of the condition stays with the query. -/
def classifyFiltered (source : Expr) (result : Option Expr) (outer : Param) (body : Expr) :
    Option JoinPlan :=
  match Operator.ofCall? body, body with
  | some .filter, .call method receiver [filtered, condition] ty => do
    if filtered.mentions outer.name || !isQuery filtered then none
    match ← condition.asLambda? with
    | ([inner], predicate) =>
      if inner.name == outer.name then none
      let parts := conjuncts predicate
      let correlated := parts.filter (·.mentions outer.name)
      let own := parts.filter fun p => !p.mentions outer.name
      if correlated.isEmpty || !correlated.all (isKeyEquality outer.name inner.name) then none
      let child :=
        match conjunction own with
        | some c => .call method receiver [filtered, (Expr.lambda [inner] c).quoted] ty
        | none => filtered
      return {
        source, child, result
        condition := (conjunction correlated).map fun c => (Expr.lambda [outer, inner] c).quoted
        join := .inner }
    | _ => none
  | _, _ => none

/-- The join that a `SelectMany` stands for, if it stands for one. -/
def classify (e : Expr) : Option JoinPlan :=
  match Operator.ofCall? e, e with
  | some .selectMany, .call _ _ (source :: collection :: rest) _ => do
    if 1 < rest.length then none
    match ← collection.asLambda? with
    | ([outer], body) =>
      if body.mentions outer.name then classifyFiltered source rest.head? outer body
      else if isQuery body then
        return { source, child := body, condition := none, result := rest.head?, join := .cross }
      else none
    | _ => none
  | _, _ => none

/-- A `SelectMany` that stands for a join becomes that join. -/
def childJoinNode (e : Expr) : Expr :=
  match classify e with
  | some plan => .childJoin plan.source plan.child plan.condition plan.result plan.join e.ty
  | none => e

/-- Replaces every `SelectMany` that stands for a join. -/
def childJoin : Expr → Expr := Expr.mapUp childJoinNode

end Desugar

end QueryLowering
