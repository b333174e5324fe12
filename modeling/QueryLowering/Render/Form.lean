import QueryLowering.Decimal.Layout
import QueryLowering.Dialect.Rules
import QueryLowering.Sql.Basic

/-!
# Written expressions

An expression is written as a condition or as a value, and the same node can be asked for in either
place: a truth value in a condition, and a comparison in the place of a value, need another form.
Parentheses keep the grouping of a tree.
-/

namespace QueryLowering

open Sql

/-- How strongly an expression holds together. -/
inductive Precedence where
  | or
  | and
  | not
  | comparison
  | additive
  | multiplicative
  | unary
  /-- Needs no parentheses anywhere. -/
  | atom
deriving DecidableEq, Repr

namespace Precedence

/-- The place of a precedence in their order, from the weakest. -/
def rank : Precedence → Nat
  | or => 1
  | and => 2
  | not => 3
  | comparison => 4
  | additive => 5
  | multiplicative => 6
  | unary => 7
  | atom => 8

/-- The precedence of a binary operator. -/
def ofOperator : BinaryOperator → Precedence
  | .or => or
  | .and => and
  | .eq | .notEq | .lt | .ltEq | .gt | .gtEq | .like => comparison
  | .plus | .minus | .concat => additive
  | .multiply | .divide | .modulo => multiplicative

end Precedence

/-- A written expression. -/
inductive Form where
  /-- A condition. -/
  | condition (level : Precedence) (text : Result Fragment)
  /-- A known truth value. -/
  | boolean (b : Bool)
  | value (level : Precedence) (text : Result Fragment)
  /-- The columns of a value of several columns. -/
  | leaves (texts : Result (List Fragment))

namespace Form

variable (d : Dialect)

/-- The error of a node that is no value. -/
def notAValue (kind : String) : Error := .unsupported (kind ++ " in a value position")

/-- The expression in the place of a value. -/
def asValue : Form → Result Fragment
  | condition _ text => do return d.predicateValue (← text)
  | boolean b => pure (d.boolean b)
  | value _ text => text
  | leaves _ => throw (notAValue "composite")

/-- The expression in the place of a condition. -/
def asCondition : Form → Result Fragment
  | condition _ text => text
  | boolean b => pure (d.booleanCondition b)
  | value _ text => do return d.truthy (← text)
  | leaves _ => throw (notAValue "composite")

/-- The columns of an expression as values. -/
def asLeaves : Form → Result (List Fragment)
  | leaves texts => texts
  | f => do return [← f.asValue d]

/-- How strongly an expression holds together in the place of a value. -/
def valueLevel : Form → Precedence
  | value level _ => level
  | _ => .atom

/-- How strongly an expression holds together in the place of a condition. -/
def conditionLevel : Form → Precedence
  | condition level _ => level
  | _ => .comparison

/-- The expression as a value below an operator. On the right side of an operator of the same
precedence it needs parentheses, because operators associate to the left. -/
def operand (parent : Precedence) (right : Bool) (f : Form) : Result Fragment := do
  let text ← f.asValue d
  let own := f.valueLevel.rank
  return if own < parent.rank || (right && own == parent.rank) then text.parens else text

/-- The expression as a condition below an operator. -/
def conditionOperand (parent : Precedence) (f : Form) : Result Fragment := do
  let text ← f.asCondition d
  return if f.conditionLevel.rank < parent.rank then text.parens else text

/-- The values of several expressions with commas between them. -/
def valueList (fs : List Form) : Result Fragment := do
  return .join ", " (← fs.mapM (·.asValue d))

/-! ## The forms of nodes -/

/-- The sign of a binary operator. -/
def sign : BinaryOperator → String
  | .eq => "="
  | .notEq => "<>"
  | .lt => "<"
  | .ltEq => "<="
  | .gt => ">"
  | .gtEq => ">="
  | .and => "AND"
  | .or => "OR"
  | .plus => "+"
  | .minus => "-"
  | .multiply => "*"
  | .divide => "/"
  | .modulo => "%"
  | .concat => d.concatOperator
  | .like => "LIKE"

/-- Whether an operator connects conditions. -/
def connects (op : BinaryOperator) : Bool := op = .and ∨ op = .or

/-- The operands of a binary operator with its sign between them. -/
def binaryText (op : BinaryOperator) (left right : Form) : Result Fragment := do
  let level := Precedence.ofOperator op
  let first ← if connects op then left.conditionOperand d level else left.operand d level false
  let second ← if connects op then right.conditionOperand d level else right.operand d level true
  return first ++ (" " ++ sign d op ++ " ") ++ second

/-- A binary operation. -/
def binary (op : BinaryOperator) (left right : Form) : Form :=
  let level := Precedence.ofOperator op
  if op.isPredicate then condition level (binaryText d op left right)
  else value level (binaryText d op left right)

/-- A unary operation. -/
def unary (op : UnaryOperator) (f : Form) : Form :=
  match op with
  | .not => condition .not do return "NOT " ++ (← f.conditionOperand d .not)
  | .minus => value .unary do return "-" ++ (← f.operand d .unary false)

/-- A value that holds together by itself. -/
def atom (text : Result Fragment) : Form := value .atom text

/-- A test that holds together like a comparison. -/
def test (text : Result Fragment) : Form := condition .comparison text

/-- A null test. -/
def nullTest (f : Form) (negated : Bool) : Form :=
  test do return (← f.operand d .additive false) ++ (if negated then " IS NOT NULL" else " IS NULL")

/-- A membership test. -/
def membership (f : Form) (values : List Form) (negated : Bool) : Form :=
  if values.isEmpty then test (pure (d.booleanCondition negated))
  else
    test do
      let item ← f.operand d .additive false
      return item ++ (if negated then " NOT IN (" else " IN (") ++ (← valueList d values) ++ ")"

/-- One of two values. -/
def choice (test ifTrue ifFalse : Form) : Form :=
  atom do
    let test ← test.asCondition d
    let ifTrue ← ifTrue.asValue d
    return "CASE WHEN " ++ test ++ " THEN " ++ ifTrue ++ " ELSE " ++ (← ifFalse.asValue d) ++ " END"

/-- A function of some values. -/
def function (name : String) (args : List Form) : Form :=
  match args, d.niladic? name with
  | [], some text => atom (pure text)
  | args, _ => atom do return d.functionName name ++ (← valueList d args).parens

/-- The name of an aggregate function. -/
def aggregateName : AggregateFunction → String
  | .count => "COUNT"
  | .countBig => d.countBig
  | .sum => "SUM"
  | .min => "MIN"
  | .max => "MAX"
  | .avg => "AVG"

/-- What an aggregate is computed from; only a count can do without. -/
def aggregateArgument (f : AggregateFunction) : Option Form → Result Fragment
  | some arg => arg.asValue d
  | none =>
    if f = .count ∨ f = .countBig then pure "*"
    else throw (.unsupported (aggregateName d f ++ " without an argument"))

/-- An aggregate. -/
def aggregate (f : AggregateFunction) (arg : Option Form) : Form :=
  atom do return aggregateName d f ++ (← aggregateArgument d f arg).parens

/-- A value as one of another type. -/
def cast (f : Form) (type : DataType) : Form :=
  atom do return "CAST(" ++ (← f.asValue d) ++ " AS " ++ d.dataType type ++ ")"

/-- A field of a date. -/
def datePart (part : DatePart) (f : Form) : Form :=
  atom do return d.datePart part (← f.operand d .atom false)

/-- A date some units later. -/
def dateAdd (part : DatePart) (amount f : Form) : Form :=
  atom do
    let amount ← amount.operand d .atom false
    return d.dateAdd part amount (← f.operand d .atom false)

/-- The number of units between two dates. -/
def dateDiff (part : DatePart) (start stop : Form) : Form :=
  atom do
    let start ← start.operand d .atom false
    return d.dateDiff part start (← stop.operand d .atom false)

/-- The written form of a float, if it is a number. -/
def floatText (x : Float) : Result Fragment :=
  if x.isFinite then pure (FloatLayout.query.write x)
  else throw (.unsupported ("float literal " ++ FloatLayout.query.write x))

/-- A literal. -/
def literal : Literal → Form
  | .null => atom (pure "NULL")
  | .bool b => boolean b
  | .int n => atom (pure (toString n))
  | .float x => atom (floatText x)
  | .string s => atom (pure (.string s))
  | .dateTime t => atom (pure (d.dateTime t))

/-- The columns of the entries of a value of several columns. -/
def composite (entries : List Form) : Form :=
  leaves do return (← entries.mapM (·.asLeaves d)).flatten

end Form

end QueryLowering
