import QueryLowering.Desugar.Pipeline
import QueryLowering.Lower.Convert
import QueryLowering.Render.Statement
import QueryLowering.Schema.Declaration
import QueryLowering.Sql.Hoist

/-!
# From a query expression to SQL

The expression is simplified, lowered to a SQL tree, completed to a statement, and written.
-/

namespace QueryLowering

open Sql

/-- What expressions are compiled against and how. -/
structure Compiler where
  schema : Schema
  options : Options
  passes : List Desugar.Pass := Desugar.standard
  recognizers : List Recognizer := Recognizer.standard

namespace Lower

/-- The statement that a value at the root stands for. A value that is no query is selected without
any data source. -/
def statementBody : Node → Lower Body
  | .derived q => pure (.query q)
  | .subquery q => pure (.query q)
  | .rows q => pure (.query q)
  | .select s => do return .query (← closeSelect s)
  | .table t => do return .query (← closeSelect (← selectFrom (.table t)))
  | .union items => do return .query (← closeSelect (← selectFrom (.union items)))
  | .update u => pure (.update u)
  | .delete q => pure (.delete q)
  | n => do return .query (← closeSelect (.scalar n))

end Lower

namespace Compiler

/-- Runs the passes over an expression. -/
def simplify (c : Compiler) (e : Expr) : Result Expr := Desugar.run c.passes e

/-- Lowers an expression to what its statement does. -/
def body (c : Compiler) (e : Expr) : Result Body :=
  ((e.lower c.recognizers >>= Lower.statementBody).exec c.schema .empty).1

/-- The statement of an expression. -/
def statement (c : Compiler) (e : Expr) : Result Statement := do
  let e ← if c.options.preprocess then c.simplify e else pure e
  let s : Statement := ⟨[], ← c.body e⟩
  return if c.options.hoistCtes then s.hoist else s

/-- The text of an expression in the dialect of the options. -/
def compile (c : Compiler) (e : Expr) : Result Rendered := do
  (← c.statement e).render c.options.dialect

end Compiler

end QueryLowering
