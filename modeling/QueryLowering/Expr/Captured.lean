import QueryLowering.Error
import QueryLowering.Expr.Traverse

/-!
# Captured values

Some expressions have a value before the query runs: constants, captured variables, members of them,
and arrays of such expressions.
-/

namespace QueryLowering

namespace Expr

/-- Whether an expression is a captured variable or a chain of members of one. -/
def isCaptured : Expr → Bool :=
  fold fun e parts =>
    match e with
    | captured .. => true
    | member (some _) _ _ => parts.all id
    | _ => false

/-- A member of a value outside the query: a field of a record, or the length of a string or list. -/
def memberOfValue (name : String) : Value → Result Value
  | .record fields =>
    match fields.lookup name with
    | some v => pure v
    | none => throw (.missingBinding name "captured value")
  | .string s =>
    if name == "Length" then pure (.int s.length)
    else throw (.unsupported ("evaluating member '" ++ name ++ "' of a captured value"))
  | .list items =>
    if name == "Count" || name == "Length" then pure (.int items.length)
    else throw (.unsupported ("evaluating member '" ++ name ++ "' of a captured value"))
  | _ => throw (.unsupported ("evaluating member '" ++ name ++ "' of a captured value"))

/-- The value of an expression outside the query. -/
def evaluate : Expr → Result Value :=
  fold fun e parts =>
    match e, parts with
    | captured _ v _, _ => pure v
    | constant v _, _ => pure v
    | member (some _) name _, [target] => target >>= memberOfValue name
    | array .., items => do return .list (← sequence items)
    | e, _ => throw (.unsupported ("evaluating " ++ e.kindName ++ " outside the query"))

end Expr

end QueryLowering
