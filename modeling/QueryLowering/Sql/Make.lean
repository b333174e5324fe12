import QueryLowering.Sql.Basic

/-!
# Making SQL nodes

The rules by which nodes are put together: what becomes of null in a comparison, of a truth value in
the place of a condition, and of a membership test without values.
-/

namespace QueryLowering

namespace Sql

namespace Node

mutual

/-- The literal of a value; a list is a list of literals. Records and tables have none. -/
def ofValue : Value → Result Node
  | .null => pure (literal .null)
  | .bool b => pure (literal (.bool b))
  | .int n => pure (literal (.int n))
  | .float x => pure (literal (.float x))
  | .string s => pure (literal (.string s))
  | .dateTime d => pure (literal (.dateTime d))
  | .list items => do return list (← ofValues items)
  | .record _ => throw (.unsupported "an object constant as a SQL value")
  | .table entity => throw (.unsupported ("query over '" ++ entity ++ "' in a scalar position"))

/-- The literal of each value. -/
def ofValues : List Value → Result (List Node)
  | [] => pure []
  | v :: rest => do return (← ofValue v) :: (← ofValues rest)

end

mutual

/-- The parameter of a captured value; a list becomes one parameter for each of its items. -/
def ofCaptured (name : String) : Value → Node
  | .list items => list (ofCapturedItems name 0 items)
  | v => parameter name v

/-- The parameters of the items of a captured list, numbered from a given number on. -/
def ofCapturedItems (name : String) (n : Nat) : List Value → List Node
  | [] => []
  | v :: rest => ofCaptured (name ++ "_" ++ toString n) v :: ofCapturedItems name (n + 1) rest

end

/-- Whether a node is the null literal. -/
def isNullLiteral : Node → Bool
  | literal .null => true
  | _ => false

/-- The operators whose meaning changes at null. -/
def isEquality : BinaryOperator → Bool
  | .eq | .notEq => true
  | _ => false

/-- A binary operation. An equality or inequality with the null literal is a null test of the other
side. -/
def operation (op : BinaryOperator) (left right : Node) : Node :=
  if isEquality op && right.isNullLiteral then isNull left (op == .notEq)
  else if isEquality op && left.isNullLiteral then isNull right (op == .notEq)
  else binary op left right

/-- A value in the place of a condition: a value that is none is compared with true. -/
def condition (n : Node) : Node :=
  if n.isPredicate then n else binary .eq n (literal (.bool true))

theorem isPredicate_condition (n : Node) : n.condition.isPredicate = true := by
  unfold condition
  split
  · assumption
  · rfl

/-- The negation of a condition: tests that have a negated form take it, and two negations cancel. -/
def negation : Node → Node
  | isNull e negated => isNull e !negated
  | inValues e vs negated => inValues e vs !negated
  | unary .not e => e
  | n => unary .not n.condition

/-- One of two values, as a condition says. -/
def choose (test ifTrue ifFalse : Node) : Node := choice test.condition ifTrue ifFalse

/-- A value as one of another type, if that type is one of columns. -/
def castTo? (n : Node) (t : Ty) : Option Node := (DataType.ofTy? t).map (cast n)

/-- Whether a value is among some values. No value is among none. -/
def membership (e : Node) (values : List Node) (negated : Bool) : Node :=
  if values.isEmpty then binary .eq (literal (.int 1)) (literal (.int (if negated then 1 else 0)))
  else inValues e values negated

end Node

/-- The conjunction of conditions, from left to right; none if there are no conditions. -/
def conjunction : List Node → Option Node
  | [] => none
  | n :: rest => some (rest.foldl (Node.operation .and) n)

end Sql

end QueryLowering
