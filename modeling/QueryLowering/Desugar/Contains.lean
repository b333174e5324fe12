import QueryLowering.Expr.Operator
import QueryLowering.Expr.Traverse

/-!
# Membership tests

That a collection of values contains an item is a membership test. A collection that is a query stays
a query.
-/

namespace QueryLowering

namespace Desugar

/-- Whether an expression is a collection of values known before the query runs. -/
def isValueCollection : Expr → Bool
  | .array .. | .captured .. => true
  | .constant (.list _) _ => true
  | _ => false

/-- A two-argument `Contains` over a collection of values becomes a membership test. -/
def containsNode (e : Expr) : Expr :=
  match Operator.ofCall? e, e with
  | some .contains, .call _ _ [values, item] _ =>
    if isValueCollection values then .inValues item values false else e
  | _, e => e

/-- Replaces every membership test of an expression. -/
def contains : Expr → Expr := Expr.mapUp containsNode

end Desugar

end QueryLowering
