import QueryLowering.Expr.Build
import QueryLowering.Expr.Traverse

/-!
# Universal tests

That all rows satisfy a condition is said as: not any row fails it.
-/

namespace QueryLowering

namespace Desugar

/-- A two-argument `All` with a lambda as its condition becomes the negation of an `Any`. -/
def allNode (e : Expr) : Expr :=
  match Operator.ofCall? e, e with
  | some .all, .call method receiver [source, condition] ty =>
    match condition.stripQuotes with
    | .lambda params body =>
      let negated := (Expr.lambda params body.notOf).quoted
      .unary .not (.call { method with name := "Any" } receiver [source, negated] ty) ty
    | other => .call method receiver [source, other] ty
  | _, e => e

/-- Replaces every universal test of an expression. -/
def all : Expr → Expr := Expr.mapUp allNode

end Desugar

end QueryLowering
