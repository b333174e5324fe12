import QueryLowering.Datum.Json
import QueryLowering.Expr.Traverse

/-!
# Expressions as plain data

Types, values and expressions are written as plain data and read back. A node is a record whose
`kind` names the constructor; optional parts that are absent are left out.
-/

namespace QueryLowering

/-- Within an expression null or an empty record stands for contents that are missing. -/
def Expr.manner : Manner := { emptyRecord := true, emptyList := false, surplus := false }

/-! ## Types -/

namespace Ty

/-- The written form of a type. -/
def toDatum : Ty → Datum
  | unknown => .string "unknown"
  | bool => .string "bool"
  | int => .string "int"
  | long => .string "long"
  | decimal => .string "decimal"
  | double => .string "double"
  | string => .string "string"
  | dateTime => .string "date_time"
  | guid => .string "guid"
  | entity name => .record [("entity", .string name)]
  | anonymous => .string "anonymous"
  | object name => .record [("object", .string name)]
  | queryable e => .record [("queryable", e.toDatum)]
  | enumerable e => .record [("enumerable", e.toDatum)]
  | grouping k e => .record [("grouping", .list [k.toDatum, e.toDatum])]
  | nullable e => .record [("nullable", e.toDatum)]
  | array e => .record [("array", e.toDatum)]

/-- The type of a name that needs no contents. -/
def plain? : String → Option Ty
  | "unknown" => some unknown
  | "bool" => some bool
  | "int" => some int
  | "long" => some long
  | "decimal" => some decimal
  | "double" => some double
  | "string" => some string
  | "date_time" => some dateTime
  | "guid" => some guid
  | "anonymous" => some anonymous
  | _ => none

/-- Reads a type of limited depth. -/
def read (m : Manner) : Nat → Datum → Option Ty
  | 0, _ => none
  | fuel + 1, d => do
    let (name, contents) ← d.choice?
    match name with
    | "entity" => return entity (← contents.string?)
    | "object" => return object (← contents.string?)
    | "queryable" => return queryable (← read m fuel contents)
    | "enumerable" => return enumerable (← read m fuel contents)
    | "grouping" =>
      match contents with
      | .list [k, e] => return grouping (← read m fuel k) (← read m fuel e)
      | _ => none
    | "nullable" => return nullable (← read m fuel contents)
    | "array" => return array (← read m fuel contents)
    | name => if m.isBare contents then plain? name else none

/-- The type that plain data write. -/
def ofDatum? (m : Manner) (d : Datum) : Option Ty := read m d.depth d

end Ty

/-! ## Values -/

namespace Value

mutual

/-- The written form of a value. -/
def toDatum : Value → Datum
  | null => .string "null"
  | bool b => .record [("bool", .bool b)]
  | int n => .record [("int", .int n)]
  | float x => .record [("float", .float x)]
  | string s => .record [("string", .string s)]
  | dateTime d => .record [("date_time", .string d.iso)]
  | list items => .record [("list", .list (itemData items))]
  | record fields => .record [("object", .record (fieldData fields))]
  | table entity => .record [("table", .string entity)]

/-- The written form of each item. -/
def itemData : List Value → List Datum
  | [] => []
  | v :: rest => v.toDatum :: itemData rest

/-- The written form of each field. -/
def fieldData : List (String × Value) → List (String × Datum)
  | [] => []
  | (name, v) :: rest => (name, v.toDatum) :: fieldData rest

end

/-- Reads a value of limited depth. -/
def read (m : Manner) : Nat → Datum → Option Value
  | 0, _ => none
  | fuel + 1, d => do
    let (name, contents) ← d.choice?
    match name with
    | "null" => if m.isBare contents then return null else none
    | "bool" => return bool (← contents.bool?)
    | "int" => return int (← contents.int?)
    | "float" => return float (← contents.float?)
    | "string" => return string (← contents.string?)
    | "date_time" => return dateTime (← DateTime.parse? (← contents.string?))
    | "list" => return list (← (← contents.list?).mapM (read m fuel))
    | "object" =>
      match contents with
      | .record entries =>
        return ofFields (← entries.mapM fun (name, d) => do return (name, ← read m fuel d))
      | _ => none
    | "table" => return table (← contents.string?)
    | _ => none

/-- The value that plain data write. -/
def ofDatum? (m : Manner) (d : Datum) : Option Value := read m d.depth d

end Value

/-! ## Names of operators and kinds -/

/-- The written name of a binary operator. -/
def BinaryOp.code : BinaryOp → String
  | equal => "equal"
  | notEqual => "not_equal"
  | lessThan => "less_than"
  | lessThanOrEqual => "less_than_or_equal"
  | greaterThan => "greater_than"
  | greaterThanOrEqual => "greater_than_or_equal"
  | andAlso => "and_also"
  | orElse => "or_else"
  | and => "and"
  | or => "or"
  | exclusiveOr => "exclusive_or"
  | add => "add"
  | subtract => "subtract"
  | multiply => "multiply"
  | divide => "divide"
  | modulo => "modulo"
  | coalesce => "coalesce"

/-- All binary operators. -/
def BinaryOp.every : List BinaryOp :=
  [equal, notEqual, lessThan, lessThanOrEqual, greaterThan, greaterThanOrEqual, andAlso, orElse, and,
    or, exclusiveOr, add, subtract, multiply, divide, modulo, coalesce]

/-- The written name of a unary operator. -/
def UnaryOp.code : UnaryOp → String
  | not => "not"
  | negate => "negate"
  | convert => "convert"
  | quote => "quote"

/-- All unary operators. -/
def UnaryOp.every : List UnaryOp := [not, negate, convert, quote]

/-- The written name of a kind of child join. -/
def ChildJoin.code : ChildJoin → String
  | inner => "inner"
  | cross => "cross"

/-- The kinds of child joins. -/
def ChildJoin.every : List ChildJoin := [inner, cross]

/-! ## Expressions -/

/-- The written form of a method. -/
def Method.toDatum (m : Method) : Datum :=
  .record ([("declaring_type", .string m.declaringType), ("name", .string m.name)]
    ++ if m.genericArgs.isEmpty then [] else [("generic_args", .list (m.genericArgs.map Ty.toDatum))])

/-- The method that plain data write. -/
def Method.ofDatum? (d : Datum) : Option Method := do
  match ← d.fields? Expr.manner ["declaring_type", "name", "generic_args"] with
  | [declaringType, name, genericArgs] =>
    return ⟨← required Datum.string? declaringType, ← required Datum.string? name,
      ← withDefault [] (Datum.listOf? (Ty.ofDatum? Expr.manner)) genericArgs⟩
  | _ => none

/-- A type with its default. -/
def Ty.field : Option Datum → Option Ty := withDefault .unknown (Ty.ofDatum? Expr.manner)

/-- The written form of a parameter. -/
def Param.toDatum (p : Param) : Datum := .record [("name", .string p.name), ("ty", p.ty.toDatum)]

/-- The parameter that plain data write. -/
def Param.ofDatum? (d : Datum) : Option Param := do
  match ← d.fields? Expr.manner ["name", "ty"] with
  | [name, ty] => return ⟨← required Datum.string? name, ← Ty.field ty⟩
  | _ => none

namespace Expr

/-- The names of the kinds of nodes, in their order. -/
def kinds : List String :=
  ["method_call", "member", "binary", "unary", "conditional", "constant", "variable", "parameter",
    "lambda", "new", "new_array", "navigation", "child_join", "in_values"]

/-- An optional part of a written node, taken off the front of the written parts. -/
def optionalPart (name : String) (place : Option Expr) (parts : List Datum) :
    List (String × Datum) × List Datum :=
  match place, parts with
  | some _, p :: rest => ([(name, p)], rest)
  | _, parts => ([], parts)

/-- Named parts of a written node. -/
def namedParts (names : List String) (parts : List Datum) : List (String × Datum) := names.zip parts

/-- The written form of a node from the written forms of its parts. -/
def nodeDatum (e : Expr) (parts : List Datum) : Datum :=
  match e with
  | call method receiver _ ty =>
    let (receiver, args) := optionalPart "instance" receiver parts
    .record ([("kind", .string "method_call"), ("method", method.toDatum)] ++ receiver
      ++ [("args", .list args), ("ty", ty.toDatum)])
  | member target name ty =>
    .record ([("kind", .string "member")] ++ (optionalPart "target" target parts).1
      ++ [("member", .string name), ("ty", ty.toDatum)])
  | binary op _ _ ty =>
    .record ([("kind", .string "binary"), ("op", .string op.code)]
      ++ namedParts ["left", "right"] parts ++ [("ty", ty.toDatum)])
  | unary op _ ty =>
    .record ([("kind", .string "unary"), ("op", .string op.code)]
      ++ namedParts ["operand"] parts ++ [("ty", ty.toDatum)])
  | conditional _ _ _ ty =>
    .record ([("kind", .string "conditional")]
      ++ namedParts ["test", "if_true", "if_false"] parts ++ [("ty", ty.toDatum)])
  | constant value ty =>
    .record [("kind", .string "constant"), ("value", value.toDatum), ("ty", ty.toDatum)]
  | captured name value ty =>
    .record [("kind", .string "variable"), ("name", .string name), ("value", value.toDatum),
      ("ty", ty.toDatum)]
  | parameter p =>
    .record [("kind", .string "parameter"), ("name", .string p.name), ("ty", p.ty.toDatum)]
  | lambda params _ =>
    .record ([("kind", .string "lambda"), ("params", .list (params.map Param.toDatum))]
      ++ namedParts ["body"] parts)
  | construct ty members =>
    .record [("kind", .string "new"), ("ty", ty.toDatum),
      ("members", .list (((members.map (·.1)).zip parts).map fun (name, p) =>
        .record [("member", .string name), ("value", p)]))]
  | array element _ =>
    .record [("kind", .string "new_array"), ("element", element.toDatum), ("items", .list parts)]
  | navigation _ name ty =>
    .record ([("kind", .string "navigation")] ++ namedParts ["source"] parts
      ++ [("navigation", .string name), ("ty", ty.toDatum)])
  | childJoin _ _ condition result join ty =>
    let (condition, rest) := optionalPart "condition" condition (parts.drop 2)
    .record ([("kind", .string "child_join")] ++ namedParts ["source", "child"] (parts.take 2)
      ++ condition ++ (optionalPart "result" result rest).1
      ++ [("join", .string join.code), ("ty", ty.toDatum)])
  | inValues _ _ negated =>
    .record ([("kind", .string "in_values")] ++ namedParts ["item", "values"] parts
      ++ [("negated", .bool negated)])

/-- The written form of an expression. -/
def toDatum : Expr → Datum := fold nodeDatum

/-- The kind of a node below the root may also be given by its number. -/
def kind? (nested : Bool) : Datum → Option String
  | .string s => if kinds.contains s then some s else none
  | .int n => if nested && 0 ≤ n then kinds[n.toNat]? else none
  | _ => none

/-- The kind of a node and its fields; in a list the kind stands first. -/
def kindAndFields? (nested : Bool) : Datum → Option (String × Datum)
  | .record entries => do
    match entries.filter (·.1 == "kind") with
    | [(_, k)] => return (← kind? nested k, .record (entries.filter (·.1 != "kind")))
    | _ => none
  | .list (k :: items) => do return (← kind? nested k, .list items)
  | _ => none

/-- A named member of an object that is made on the spot. -/
def readMember (part : Datum → Option Expr) (d : Datum) : Option (String × Expr) := do
  match ← d.fields? Expr.manner ["member", "value"] with
  | [name, value] => return (← required Datum.string? name, ← required part value)
  | _ => none

/-- Reads the fields of a node of a given kind, given how its parts are read. -/
def readNode (part : Datum → Option Expr) (kind : String) (d : Datum) : Option Expr :=
  match kind with
  | "method_call" => do
    match ← d.fields? Expr.manner ["method", "instance", "args", "ty"] with
    | [method, receiver, args, ty] =>
      return call (← required Method.ofDatum? method) (← nullable part receiver)
        (← withDefault [] (Datum.listOf? part) args) (← Ty.field ty)
    | _ => none
  | "member" => do
    match ← d.fields? Expr.manner ["target", "member", "ty"] with
    | [target, name, ty] =>
      return member (← nullable part target) (← required Datum.string? name) (← Ty.field ty)
    | _ => none
  | "binary" => do
    match ← d.fields? Expr.manner ["op", "left", "right", "ty"] with
    | [op, left, right, ty] =>
      return binary (← required (Datum.oneOf? Expr.manner BinaryOp.every BinaryOp.code) op)
        (← required part left) (← required part right) (← Ty.field ty)
    | _ => none
  | "unary" => do
    match ← d.fields? Expr.manner ["op", "operand", "ty"] with
    | [op, operand, ty] =>
      return unary (← required (Datum.oneOf? Expr.manner UnaryOp.every UnaryOp.code) op)
        (← required part operand) (← Ty.field ty)
    | _ => none
  | "conditional" => do
    match ← d.fields? Expr.manner ["test", "if_true", "if_false", "ty"] with
    | [test, ifTrue, ifFalse, ty] =>
      return conditional (← required part test) (← required part ifTrue) (← required part ifFalse)
        (← Ty.field ty)
    | _ => none
  | "constant" => do
    match ← d.fields? Expr.manner ["value", "ty"] with
    | [value, ty] => return constant (← required (Value.ofDatum? Expr.manner) value) (← Ty.field ty)
    | _ => none
  | "variable" => do
    match ← d.fields? Expr.manner ["name", "value", "ty"] with
    | [name, value, ty] =>
      return captured (← required Datum.string? name) (← required (Value.ofDatum? Expr.manner) value)
        (← Ty.field ty)
    | _ => none
  | "parameter" => do return parameter (← Param.ofDatum? d)
  | "lambda" => do
    match ← d.fields? Expr.manner ["params", "body"] with
    | [params, body] =>
      return lambda (← required (Datum.listOf? Param.ofDatum?) params) (← required part body)
    | _ => none
  | "new" => do
    match ← d.fields? Expr.manner ["ty", "members"] with
    | [ty, members] =>
      return construct (← required (Ty.ofDatum? Expr.manner) ty)
        (← required (Datum.listOf? (readMember part)) members)
    | _ => none
  | "new_array" => do
    match ← d.fields? Expr.manner ["element", "items"] with
    | [element, items] =>
      return array (← required (Ty.ofDatum? Expr.manner) element)
        (← required (Datum.listOf? part) items)
    | _ => none
  | "navigation" => do
    match ← d.fields? Expr.manner ["source", "navigation", "ty"] with
    | [source, name, ty] =>
      return navigation (← required part source) (← required Datum.string? name) (← Ty.field ty)
    | _ => none
  | "child_join" => do
    match ← d.fields? Expr.manner ["source", "child", "condition", "result", "join", "ty"] with
    | [source, child, condition, result, join, ty] =>
      return childJoin (← required part source) (← required part child) (← nullable part condition)
        (← nullable part result) (← required (Datum.oneOf? Expr.manner ChildJoin.every ChildJoin.code) join)
        (← Ty.field ty)
    | _ => none
  | "in_values" => do
    match ← d.fields? Expr.manner ["item", "values", "negated"] with
    | [item, values, negated] =>
      return inValues (← required part item) (← required part values)
        (← withDefault false Datum.bool? negated)
    | _ => none
  | _ => none

/-- Reads an expression of limited depth. -/
def read : Nat → Bool → Datum → Option Expr
  | 0, _, _ => none
  | fuel + 1, nested, d => do
    let (kind, fields) ← kindAndFields? nested d
    readNode (read fuel true) kind fields

/-- The expression that plain data write. -/
def ofDatum? (d : Datum) : Option Expr := read d.depth false d

/-- The expression that a JSON text writes. -/
def ofJson? (text : String) : Option Expr := (Json.parse? text).bind ofDatum?

end Expr

end QueryLowering
