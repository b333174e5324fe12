import QueryLowering.Desugar.All
import QueryLowering.Desugar.ChildJoin
import QueryLowering.Desugar.Contains
import QueryLowering.Error

/-!
# The simplification of expressions

Passes that turn an expression into one of the same meaning that is easier to lower. They run one
after the other.
-/

namespace QueryLowering

namespace Desugar

/-- Why a pass fails: with an error of the lowering, or for a reason of its own. -/
inductive PassFailure where
  | error (e : Error)
  | reason (text : String)

/-- A named pass over expressions. -/
structure Pass where
  name : String
  transform : Expr → Except PassFailure Expr

/-- A pass that cannot fail. -/
def Pass.ofMap (name : String) (f : Expr → Expr) : Pass := ⟨name, fun e => pure (f e)⟩

/-- The passes that run by default. -/
def standard : List Pass :=
  [.ofMap "all_to_not_any" all, .ofMap "contains_to_in_values" contains,
    .ofMap "child_join_rewrite" childJoin]

/-- The error that a failed pass ends with. -/
def PassFailure.toError (pass : String) : PassFailure → Error
  | .error e => e
  | .reason text => .invalidState (.passFailed pass text)

/-- Runs one pass. -/
def Pass.run (p : Pass) (e : Expr) : Result Expr :=
  match p.transform e with
  | .ok e => pure e
  | .error f => throw (f.toError p.name)

/-- Runs passes one after the other. -/
def run (passes : List Pass) (e : Expr) : Result Expr := passes.foldlM (fun e p => p.run e) e

end Desugar

end QueryLowering
