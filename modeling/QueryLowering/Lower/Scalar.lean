import QueryLowering.Expr.Captured
import QueryLowering.Lower.Context
import QueryLowering.Lower.Function
import QueryLowering.Scope.Equality

/-!
# Scalar nodes

The values of constants, captured variables, parameters, members, operators and objects, from the
values of their parts.
-/

namespace QueryLowering

open Sql

namespace Lower

/-- The table of an entity. -/
def table (entity : String) : Lower Node :=
  look fun schema _ => do return .table ⟨entity, ← schema.table entity⟩

/-- A part of a node by its place, or an error that names what is missing. -/
def part (parts : List Node) (index : Nat) (context : String) : Lower Node :=
  orThrow (.arity context (index + 1) parts.length) (parts[index]?)

/-! ## Leaves -/

/-- The name of the parameter for a captured value: the variable and the members below it. -/
def capturedName : Expr → String :=
  Expr.fold fun e parts =>
    match e, parts with
    | .captured name _ _, _ => name
    | .member (some _) name _, [target] => target ++ "_" ++ name
    | _, _ => "p"

/-- The parameter of a captured value; all rows of an entity are its table. -/
def captured (e : Expr) : Lower Node := do
  match ← ofResult e.evaluate with
  | .table entity => table entity
  | v => return .ofCaptured (capturedName e) v

/-- The literal of a constant; all rows of an entity are its table. -/
def constant : Value → Lower Node
  | .table entity => table entity
  | v => ofResult (Node.ofValue v)

/-- The value that a parameter is bound to. -/
def parameter (name : String) : Lower Node := do
  orThrow (.unboundParameter name) ((← scope).lookup? name)

/-! ## Members -/

/-- The name of a static member without the type of dates in front of it. -/
def bareMember (name : String) : String := ((name.dropPrefix? "DateTime.").map (·.toString)).getD name

/-- The SQL function of a static member. -/
def staticFunction? (name : String) : Option String :=
  match bareMember name with
  | "Now" => some "CURRENT_TIMESTAMP"
  | "UtcNow" => some "CURRENT_UTC_TIMESTAMP"
  | "Today" => some "CURRENT_DATE"
  | _ => none

/-- The value of a static member. -/
def staticMember (name : String) : Result Node :=
  match staticFunction? name with
  | some f => pure (.function f [])
  | none => throw (.unsupported ("static member '" ++ name ++ "'"))

/-- The unit that a member of a date reads. -/
def datePart? : String → Option DatePart
  | "Year" => some .year
  | "Month" => some .month
  | "Day" => some .day
  | "Hour" => some .hour
  | "Minute" => some .minute
  | "Second" => some .second
  | "Millisecond" => some .millisecond
  | _ => none

/-- The unit in which a member of a time span counts. -/
def intervalPart? : String → Option DatePart
  | "Days" | "TotalDays" => some .day
  | "Hours" | "TotalHours" => some .hour
  | "Minutes" | "TotalMinutes" => some .minute
  | "Seconds" | "TotalSeconds" => some .second
  | "Milliseconds" | "TotalMilliseconds" => some .millisecond
  | _ => none

/-- The members that the static type of the target gives a meaning. -/
def typedMember? (ty : Ty) (target : Node) (name : String) : Option Node :=
  match ty, name with
  | .string, "Length" => some (textLength target.asScalar)
  | .nullable _, "Value" => some target
  | .nullable _, "HasValue" =>
    some (Node.operation .eq target.asScalar (.literal .null)).negation
  | ty, name =>
    if ty.underlying = .dateTime then (datePart? name).map (Node.datePart · target.asScalar)
    else none

/-- The members of the difference of two dates: the same difference in another unit. -/
def intervalMember? (target : Node) (name : String) : Option Node :=
  match target with
  | .dateDiff _ start stop => (intervalPart? name).map (Node.dateDiff · start stop)
  | _ => none

/-- A member of a value. -/
def member (ty : Ty) (target : Node) (name : String) : Lower Node :=
  match typedMember? ty target name <|> intervalMember? target name with
  | some n => pure n
  | none => look fun schema sc => sc.resolveMember schema target name

/-! ## Operators -/

/-- The SQL operator of an operator whose meaning does not hang on types. -/
def plainOperator? : BinaryOp → Option BinaryOperator
  | .equal => some .eq
  | .notEqual => some .notEq
  | .lessThan => some .lt
  | .lessThanOrEqual => some .ltEq
  | .greaterThan => some .gt
  | .greaterThanOrEqual => some .gtEq
  | .andAlso => some .and
  | .orElse => some .or
  | .multiply => some .multiply
  | .divide => some .divide
  | .modulo => some .modulo
  | _ => none

/-- The SQL operator of an operator between operands of given types. Bitwise operators have none
unless the result is a truth value. -/
def sqlOperator? (op : BinaryOp) (ty left right : Ty) : Option BinaryOperator :=
  match op with
  | .and => if ty.underlying = .bool then some .and else none
  | .or => if ty.underlying = .bool then some .or else none
  | .add =>
    if left.underlying = .string ∨ right.underlying = .string then some .concat else some .plus
  | .subtract => some .minus
  | op => plainOperator? op

/-- A binary operation, whose operands are conditions if it is a conjunction or a disjunction. -/
def connected (op : BinaryOperator) (left right : Node) : Node :=
  if op = .and ∨ op = .or then .operation op left.condition right.condition
  else .operation op left right

/-- Whether an operator tests for equality. -/
def isEqualityTest : BinaryOp → Bool
  | .equal | .notEqual => true
  | _ => false

/-- The value of a binary operator. Values of several columns are compared column by column, and the
difference of two dates is counted in days. -/
def binary (op : BinaryOp) (ty leftTy rightTy : Ty) (left right : Node) : Lower Node := do
  let left := left.asScalar
  let right := right.asScalar
  if isEqualityTest op && (left.isMultiColumn || right.isMultiColumn) then
    let equal ← look fun schema sc => sc.equality schema left right
    return if op = .equal then equal else equal.negation
  else if op = .coalesce then return .function "COALESCE" [left, right]
  else if op = .subtract ∧ leftTy.underlying = .dateTime ∧ rightTy.underlying = .dateTime then
    return .dateDiff .day right left
  else
    match sqlOperator? op ty leftTy rightTy with
    | some sqlOp => return connected sqlOp left right
    | none => throw (.unsupported ("binary operator '" ++ op.sign ++ "'"))

/-- A value converted to another type. Conversions that keep the type, or that give no column, keep
the value. -/
def converted (operandTy ty : Ty) (operand : Node) : Node :=
  if operandTy.underlying = ty.underlying ∨ !ty.isScalar then operand
  else (operand.asScalar.castTo? ty).getD operand.asScalar

/-- The value of a unary operator. -/
def unary (op : UnaryOp) (operandTy ty : Ty) (operand : Node) : Node :=
  match op with
  | .not => operand.asScalar.negation
  | .negate => .unary .minus operand.asScalar
  | .convert => converted operandTy ty operand
  | .quote => operand

/-! ## Objects and value lists -/

/-- The value of a member of an object. A sequence is a query, kept as the rows of it. -/
def memberValue (name : String) (ty : Ty) (value : Node) : Result Node :=
  if ty.isSequence then
    match value with
    | .derived d => pure (.rows d)
    | .rows d => pure (.rows d)
    | other => throw (.shape "derived table" other.kindName ("sequence member '" ++ name ++ "'"))
  else pure value.asScalar

/-- The values of the members of an object. -/
def memberValues : List (String × Expr) → List Node → Result (List (String × Node))
  | (name, e) :: rest, n :: parts => do
    let value ← memberValue name e.ty n
    return (name, value) :: (← memberValues rest parts)
  | _, _ => pure []

/-- An object made of members. -/
def construct (members : List (String × Expr)) (parts : List Node) : Result Node := do
  return .ofMembers (← memberValues members parts)

/-- The values that a membership test compares with. -/
def candidateValues : Node → Result (List Node)
  | .list items => pure items
  | .derived d => pure [.subquery d]
  | .parameter name v => pure [.parameter name v]
  | .literal l => pure [.literal l]
  | other => throw (.shape "value list" other.kindName "values of an IN test")

/-- A membership test. -/
def membership (item values : Node) (negated : Bool) : Result Node := do
  return .membership item.asScalar (← candidateValues values) negated

end Lower

end QueryLowering
