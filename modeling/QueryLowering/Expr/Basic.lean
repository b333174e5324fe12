import QueryLowering.Expr.Value

/-!
# Query expressions

A query is a tree: calls of query operators whose arguments are lambdas, member accesses, constants
and captured variables.
-/

namespace QueryLowering

/-- The method that a call invokes. -/
structure Method where
  declaringType : String
  name : String
  genericArgs : List Ty
deriving DecidableEq, Repr

/-- The written form of a method. -/
def Method.text (m : Method) : String := m.declaringType ++ "." ++ m.name

/-- A binary operator of expressions. -/
inductive BinaryOp where
  | equal
  | notEqual
  | lessThan
  | lessThanOrEqual
  | greaterThan
  | greaterThanOrEqual
  | andAlso
  | orElse
  | and
  | or
  | exclusiveOr
  | add
  | subtract
  | multiply
  | divide
  | modulo
  | coalesce
deriving DecidableEq, Repr

/-- The sign of an operator. -/
def BinaryOp.sign : BinaryOp → String
  | equal => "=="
  | notEqual => "!="
  | lessThan => "<"
  | lessThanOrEqual => "<="
  | greaterThan => ">"
  | greaterThanOrEqual => ">="
  | andAlso => "&&"
  | orElse => "||"
  | and => "&"
  | or => "|"
  | exclusiveOr => "^"
  | add => "+"
  | subtract => "-"
  | multiply => "*"
  | divide => "/"
  | modulo => "%"
  | coalesce => "??"

/-- A unary operator of expressions. -/
inductive UnaryOp where
  | not
  | negate
  /-- A conversion to the type of the node. -/
  | convert
  /-- Marks a lambda that is passed as an expression. -/
  | quote
deriving DecidableEq, Repr

/-- The name of an operator in messages. -/
def UnaryOp.text : UnaryOp → String
  | not => "Not"
  | negate => "Negate"
  | convert => "Convert"
  | quote => "Quote"

/-- A parameter of a lambda. A parameter of an inner lambda hides one of the same name outside. -/
structure Param where
  name : String
  ty : Ty
deriving DecidableEq, Repr

/-- How a child query is joined to its source. -/
inductive ChildJoin where
  | inner
  | cross
deriving DecidableEq, Repr

/-- A query expression. -/
inductive Expr where
  /-- A call; calls of static methods have no receiver. -/
  | call (method : Method) (receiver : Option Expr) (args : List Expr) (ty : Ty)
  /-- A member of a value, or a static member. -/
  | member (target : Option Expr) (name : String) (ty : Ty)
  | binary (op : BinaryOp) (left right : Expr) (ty : Ty)
  | unary (op : UnaryOp) (operand : Expr) (ty : Ty)
  | conditional (test ifTrue ifFalse : Expr) (ty : Ty)
  | constant (value : Value) (ty : Ty)
  /-- A variable of the caller with the value that it has there. -/
  | captured (name : String) (value : Value) (ty : Ty)
  | parameter (param : Param)
  | lambda (params : List Param) (body : Expr)
  /-- An object made of named members. -/
  | construct (ty : Ty) (members : List (String × Expr))
  | array (element : Ty) (items : List Expr)
  /-- The related rows that a navigation property leads to. -/
  | navigation (source : Expr) (name : String) (ty : Ty)
  /-- A source joined with a child query that does not depend on it. The condition and the result
  are lambdas over a row of each. -/
  | childJoin (source child : Expr) (condition result : Option Expr) (join : ChildJoin) (ty : Ty)
  /-- Whether an item is, or is not, among some values. -/
  | inValues (item values : Expr) (negated : Bool)

namespace Expr

/-- The null constant. -/
def null : Expr := constant .null .unknown

instance : Inhabited Expr := ⟨null⟩

/-- The name of the kind of a node. -/
def kindName : Expr → String
  | call .. => "method call"
  | member .. => "member access"
  | binary .. => "binary"
  | unary .. => "unary"
  | conditional .. => "conditional"
  | constant .. => "constant"
  | captured .. => "variable"
  | parameter .. => "parameter"
  | lambda .. => "lambda"
  | construct .. => "new"
  | array .. => "new array"
  | navigation .. => "navigation"
  | childJoin .. => "child join"
  | inValues .. => "in values"

/-- The static type of a node. -/
def ty : Expr → Ty
  | call _ _ _ t => t
  | member _ _ t => t
  | binary _ _ _ t => t
  | unary _ _ t => t
  | conditional _ _ _ t => t
  | constant _ t => t
  | captured _ _ t => t
  | parameter p => p.ty
  | lambda .. => .unknown
  | construct t _ => t
  | array .. => .unknown
  | navigation _ _ t => t
  | childJoin _ _ _ _ _ t => t
  | inValues .. => .bool

/-- How a node is named in messages. -/
def text : Expr → String
  | call m .. => m.text ++ "(..)"
  | member _ name _ => "." ++ name
  | binary op .. => "binary '" ++ op.sign ++ "'"
  | unary op .. => "unary " ++ op.text
  | parameter p => "parameter '" ++ p.name ++ "'"
  | captured name .. => "variable '" ++ name ++ "'"
  | navigation _ name _ => "navigation '" ++ name ++ "'"
  | e => e.kindName

/-! ## The parts of a node -/

/-- The direct parts of a node in the order in which they are lowered: a receiver before the
arguments, left before right, and the parts of a child join as far as they are there. -/
def children : Expr → List Expr
  | call _ receiver args _ => receiver.toList ++ args
  | member target _ _ => target.toList
  | binary _ left right _ => [left, right]
  | unary _ operand _ => [operand]
  | conditional test ifTrue ifFalse _ => [test, ifTrue, ifFalse]
  | constant .. | captured .. | parameter .. => []
  | lambda _ body => [body]
  | construct _ members => members.map (·.2)
  | array _ items => items
  | navigation source _ _ => [source]
  | childJoin source child condition result _ _ =>
    source :: child :: (condition.toList ++ result.toList)
  | inValues item values _ => [item, values]

/-- Takes one part for an optional place if the place is filled. -/
def refill (place : Option Expr) (parts : List Expr) : Option Expr × List Expr :=
  match place, parts with
  | some _, p :: rest => (some p, rest)
  | place, parts => (place, parts)

/-- The node with other parts, given in the order of `children`. Parts that are missing stay as they
are. -/
def withChildren (e : Expr) (parts : List Expr) : Expr :=
  match e, parts with
  | call method receiver _ ty, parts =>
    let (receiver, args) := refill receiver parts
    call method receiver args ty
  | member target name ty, parts => member (refill target parts).1 name ty
  | binary op _ _ ty, [left, right] => binary op left right ty
  | unary op _ ty, [operand] => unary op operand ty
  | conditional _ _ _ ty, [test, ifTrue, ifFalse] => conditional test ifTrue ifFalse ty
  | lambda params _, [body] => lambda params body
  | construct ty members, parts => construct ty ((members.map (·.1)).zip parts)
  | array element _, parts => array element parts
  | navigation _ name ty, [source] => navigation source name ty
  | childJoin _ _ condition result join ty, source :: child :: parts =>
    let (condition, parts) := refill condition parts
    let (result, _) := refill result parts
    childJoin source child condition result join ty
  | inValues _ _ negated, [item, values] => inValues item values negated
  | e, _ => e

/-! ## Lambdas and quotes -/

/-- The parameters and the body of the lambda below any number of quotes. -/
def asLambda? : Expr → Option (List Param × Expr)
  | lambda params body => some (params, body)
  | unary .quote operand _ => asLambda? operand
  | _ => none

/-- The expression below any number of quotes. -/
def stripQuotes : Expr → Expr
  | unary .quote operand _ => stripQuotes operand
  | e => e

/-- Whether a node is the null constant. -/
def isNullConstant : Expr → Bool
  | constant .null _ => true
  | _ => false

end Expr

end QueryLowering
