import QueryLowering.Expr.Basic
import QueryLowering.Sql.Make

/-!
# Methods of scalar values

The methods of strings, dates and numbers that have a counterpart in SQL.
-/

namespace QueryLowering

open Sql

/-- Where a pattern lets other text stand around a value. -/
inductive Wildcards where
  | both
  | trailing
  | leading
deriving DecidableEq, Repr

/-- A text with the wildcards around it. -/
def Wildcards.around : Wildcards → String → String
  | both, s => "%" ++ s ++ "%"
  | trailing, s => s ++ "%"
  | leading, s => "%" ++ s

/-- The literal of a wildcard. -/
def percent : Node := .literal (.string "%")

/-- A value with the wildcards around it, concatenated when the query runs. -/
def Wildcards.concatenated : Wildcards → Node → Node
  | both, n => .operation .concat (.operation .concat percent n) percent
  | trailing, n => .operation .concat n percent
  | leading, n => .operation .concat percent n

/-- The pattern of a `LIKE` test. A text that is known takes the wildcards into itself. Wildcards
inside it keep their meaning. -/
def likePattern (w : Wildcards) : Node → Node
  | .literal (.string s) => .literal (.string (w.around s))
  | .parameter name (.string s) => .parameter name (.string (w.around s))
  | n => w.concatenated n

/-- The number of characters of a text. -/
def textLength (n : Node) : Node := .function "LEN" [n]

/-- A place in a text that was counted from zero, counted from one. -/
def oneBased : Node → Result Node
  | .literal (.int i) => do return .literal (.int (← Arithmetic.add.checked (i + 1)))
  | n => pure (.operation .plus n (.literal (.int 1)))

/-- The unit that a method adds to a date. -/
def addedPart? : String → Option DatePart
  | "AddYears" => some .year
  | "AddMonths" => some .month
  | "AddDays" => some .day
  | "AddHours" => some .hour
  | "AddMinutes" => some .minute
  | "AddSeconds" => some .second
  | "AddMilliseconds" => some .millisecond
  | _ => none

/-- The place of the wildcards in the pattern of a string test. -/
def patternTest? : String → Option Wildcards
  | "Contains" => some .both
  | "StartsWith" => some .trailing
  | "EndsWith" => some .leading
  | _ => none

/-- The SQL function of a string method without arguments. -/
def textFunction? : String → Option String
  | "ToUpper" => some "UPPER"
  | "ToLower" => some "LOWER"
  | "Trim" => some "TRIM"
  | "TrimStart" => some "LTRIM"
  | "TrimEnd" => some "RTRIM"
  | _ => none

/-- The SQL function of a mathematical function of one argument. -/
def numberFunction? : String → Option String
  | "Abs" => some "ABS"
  | "Floor" => some "FLOOR"
  | "Ceiling" => some "CEILING"
  | "Sign" => some "SIGN"
  | _ => none

section

variable (m : Method)

/-- The error of a call with another number of operands. -/
def operandCount (expected : Nat) (operands : List Node) : Error :=
  .arity ("arguments of " ++ m.text) expected operands.length

/-- A value computed from the only operand. -/
def ofOne (f : Node → Node) : List Node → Result Node
  | [a] => pure (f a)
  | operands => throw (operandCount m 1 operands)

/-- A value computed from the two operands. -/
def ofTwo (f : Node → Node → Node) : List Node → Result Node
  | [a, b] => pure (f a b)
  | operands => throw (operandCount m 2 operands)

/-- A part of a text, up to its end if no length is given. -/
def substring : List Node → Result Node
  | [text, start] => do return .function "SUBSTRING" [text, ← oneBased start, textLength text]
  | [text, start, length] => do return .function "SUBSTRING" [text, ← oneBased start, length]
  | operands => throw (operandCount m 3 operands)

/-- A rounded number; without a number of places it is rounded to an integer. -/
def round : List Node → Result Node
  | [a] => pure (.function "ROUND" [a, .literal (.int 0)])
  | [a, places] => pure (.function "ROUND" [a, places])
  | operands => throw (operandCount m 2 operands)

/-- Several texts as one. -/
def concatAll : List Node → Result Node
  | [] => throw (.unsupported "String.Concat without arguments")
  | a :: rest => pure (rest.foldl (Node.operation .concat) a)

/-- Whether a text is null or empty. -/
def isNullOrEmpty (n : Node) : Node :=
  .operation .or (.operation .eq n (.literal .null)) (.operation .eq n (.literal (.string "")))

/-- The value of a call of a method that any type may have. -/
def lowerCommonMethod (onReceiver : Bool) (operands : List Node) : Result Node :=
  if m.name = "Equals" then ofTwo m (Node.operation .eq) operands
  else if m.name = "ToString" ∧ onReceiver then
    ofOne m (fun a => (a.castTo? .string).getD a) operands
  else throw (.unsupported ("method " ++ m.text))

/-- The value of a call of a string method on a receiver. -/
def lowerStringMethod (operands : List Node) : Result Node :=
  match patternTest? m.name, textFunction? m.name with
  | some w, _ => ofTwo m (fun a p => .operation .like a (likePattern w p)) operands
  | none, some f => ofOne m (fun a => .function f [a]) operands
  | none, none =>
    if m.name = "Substring" then substring m operands else lowerCommonMethod m true operands

/-- The value of a call of a date method on a receiver. -/
def lowerDateMethod (operands : List Node) : Result Node :=
  match addedPart? m.name with
  | some part => ofTwo m (fun date amount => .dateAdd part amount date) operands
  | none =>
    if m.name = "Subtract" then ofTwo m (fun date other => .dateDiff .day other date) operands
    else lowerCommonMethod m true operands

/-- The value of a call of a static string method. -/
def lowerStringFunction (operands : List Node) : Result Node :=
  if m.name = "IsNullOrEmpty" then ofOne m isNullOrEmpty operands
  else if m.name = "Concat" then concatAll operands
  else lowerCommonMethod m false operands

/-- The value of a call of a mathematical function. -/
def lowerMathFunction (operands : List Node) : Result Node :=
  match numberFunction? m.name with
  | some f => ofOne m (fun a => .function f [a]) operands
  | none => if m.name = "Round" then round m operands else lowerCommonMethod m false operands

/-- The value of a method call. The operands are those of the call, the receiver first if there is
one. -/
def lowerMethod (onReceiver : Bool) (operands : List Node) : Result Node :=
  match m.declaringType, onReceiver with
  | "String", true => lowerStringMethod m operands
  | "String", false => lowerStringFunction m operands
  | "DateTime", true => lowerDateMethod m operands
  | "Math", false => lowerMathFunction m operands
  | _, _ => lowerCommonMethod m onReceiver operands

end

end QueryLowering
