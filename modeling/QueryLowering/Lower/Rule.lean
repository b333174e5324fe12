import QueryLowering.Lower.Apply
import QueryLowering.Lower.Navigation
import QueryLowering.Lower.Union

/-!
# Rules

A rule lowers one kind of node. The first recognizer of a list that claims a node says by which rule
it is lowered, so their order matters: captured variables come before members, operators on groups
before operators on queries, and membership in a value list before membership in a query.
-/

namespace QueryLowering

open Sql

/-- How a node is lowered. -/
inductive Rule where
  | captured
  | constant
  | parameter
  /-- A lambda or a quote has the value of its body. -/
  | passthrough (name : String)
  /-- An operator on a group of rows. -/
  | groupAggregate (method : Operator)
  /-- A membership test whose item and values are parts at the given places. -/
  | membership (item values : Nat) (negated : Bool)
  | step (s : Step)
  | dataSet
  | union (kind : UnionKind)
  | recursiveUnion
  | navigation
  /-- An object or an array. -/
  | construct
  | function
  | member
  | binary
  | unary
  | conditional
deriving DecidableEq, Repr

namespace Rule

/-- The name of a rule. -/
def name : Rule → String
  | captured => "Variable"
  | constant => "Constant"
  | parameter => "Parameter"
  | passthrough name => name
  | groupAggregate _ => "GroupAggregate"
  | membership .. => "InValues"
  | step s => s.name
  | dataSet => "DataSet"
  | union .union => "Union"
  | union .unionAll => "Concat"
  | recursiveUnion => "RecursiveUnion"
  | navigation => "Navigation"
  | construct => "New"
  | function => "Function"
  | member => "Member"
  | binary => "Binary"
  | unary => "Unary"
  | conditional => "Conditional"

/-- Whether the result is an open select, which is closed unless an operator goes on with it. -/
def producesQuery : Rule → Bool
  | step s => s.producesQuery
  | recursiveUnion => true
  | _ => false

/-- Whether the first part is a query that the node goes on with. -/
def chains : Rule → Bool
  | step _ | recursiveUnion => true
  | _ => false

/-- Whether the parts of a node are lowered at all. -/
def skipsParts : Rule → Bool
  | captured | dataSet => true
  | _ => false

end Rule

/-! ## Which rule a node is lowered by -/

/-- Whether an expression is a collection of values that is known before the query runs. -/
def isValueCollection : Expr → Bool
  | .array .. => true
  | .constant (.table _) _ => false
  | .constant .. => true
  | e => e.isCaptured

/-- The rule of a membership test in a value list. -/
def membershipRule? : Expr → Option Rule
  | .inValues _ _ negated => some (.membership 0 1 negated)
  | .call m none [collection, _] _ =>
    if Operator.ofMethod? m = some .contains ∧ isValueCollection collection then
      some (.membership 1 0 false)
    else none
  | .call m (some collection) [_] _ =>
    if m.name = "Contains" ∧ m.declaringType ≠ "String" ∧ isValueCollection collection then
      some (.membership 1 0 false)
    else none
  | _ => none

/-- The rule of an operator on a group. -/
def groupRule? : Expr → Option Rule
  | .call m none (source :: _) _ =>
    match Operator.ofMethod? m with
    | some op =>
      if (op.isAggregate ∨ op = .select) ∧ source.ty.isGrouping then some (.groupAggregate op)
      else none
    | none => none
  | _ => none

/-- The rule of an operator called with a number of arguments. -/
def operatorRule? (op : Operator) (args : Nat) : Option Rule :=
  match op with
  | .dataSet => some .dataSet
  | .union => some (.union .union)
  | .unionAll => some (.union .unionAll)
  | .recursiveUnion => some .recursiveUnion
  | op => (Step.ofOperator? op args).map .step

/-- The rule of a call of a query operator. -/
def queryRule? : Expr → Option Rule
  | .call m none args _ => (Operator.ofMethod? m).bind fun op => operatorRule? op args.length
  | _ => none

/-- The rule of a lambda or a quote. -/
def lambdaRule? : Expr → Option Rule
  | .lambda .. => some (.passthrough "Lambda")
  | .unary .quote _ _ => some (.passthrough "Quote")
  | _ => none

/-- Claims nodes for rules. -/
structure Recognizer where
  name : String
  rule? : Expr → Option Rule

/-- Claims the nodes that satisfy a condition for one rule. -/
def Recognizer.ofKind (name : String) (rule : Rule) (p : Expr → Bool) : Recognizer :=
  ⟨name, fun e => if p e then some rule else none⟩

/-- The recognizers in their order. -/
def Recognizer.standard : List Recognizer :=
  [ofKind "Variable" .captured Expr.isCaptured,
    ofKind "Constant" .constant fun | .constant .. => true | _ => false,
    ofKind "Parameter" .parameter fun | .parameter _ => true | _ => false,
    ⟨"Lambda", lambdaRule?⟩,
    ⟨"GroupAggregate", groupRule?⟩,
    ⟨"InValues", membershipRule?⟩,
    ⟨"QueryMethod", queryRule?⟩,
    ofKind "Navigation" .navigation fun | .navigation .. => true | _ => false,
    ⟨"ChildJoin", fun
      | .childJoin _ _ condition result join _ => some (.step (.ofChildJoin join condition result))
      | _ => none⟩,
    ofKind "New" .construct fun | .construct .. | .array .. => true | _ => false,
    ofKind "Function" .function fun e =>
      match e with
      | .call .. => (Operator.ofCall? e).isNone
      | _ => false,
    ofKind "Member" .member fun | .member .. => true | _ => false,
    ofKind "Binary" .binary fun | .binary .. => true | _ => false,
    ofKind "Unary" .unary fun | .unary .. => true | _ => false,
    ofKind "Conditional" .conditional fun | .conditional .. => true | _ => false]

/-! ## What a rule does -/

namespace Rule

open Lower

/-- What the parameters of the part at a place stand for while it is lowered. -/
def bindings (r : Rule) (p : Progress) (index : Nat) (part : Expr) :
    Lower (Progress × List (String × Node)) := do
  if index = 0 then return (p, [])
  else
    match r with
    | step s =>
      let t ← known (.argumentBeforeSource s.name) p.source
      let bound ← s.bindings p t index part
      return (← s.anticipate p t index bound, bound)
    | recursiveUnion =>
      return (p, bindInOrder part [.derived (← known .memberBeforeAnchor p.anchor)])
    | groupAggregate _ =>
      return (p, bindInOrder part [(← known .argumentBeforeGroup p.group).2])
    | _ => return (p, [])

/-- What a rule does with the query that it goes on with. -/
def receiveQuery (r : Rule) (p : Progress) (s : Select) : Lower Progress := do
  match r with
  | step op =>
    let s ← attempt fun schema sc => s.prepare schema op.operation sc
    return { p with source := some (← lend s) }
  | recursiveUnion => return { p with anchor := some (← closeSelect s) }
  | _ => return p

/-- What a rule does once the part at a place is lowered. -/
def receive (r : Rule) (p : Progress) (index : Nat) (part : Expr) (n : Node) : Lower Progress := do
  match r, index with
  | step _, 0 => return p
  | step s, index =>
    let t ← known (.argumentBeforeSource s.name) p.source
    s.receive p t index part n
  | groupAggregate _, 0 =>
    match n with
    | .grouping key element => return { p with group := some (key, element) }
    | other => throw (.shape "grouping" other.kindName ("source of " ++ part.text))
  | _, _ => return p

/-- The table that a data set names: that of the first type argument, or of the element type of the
result. -/
def dataSetTable (m : Method) (ty : Ty) : Lower Node := do
  let named := (m.genericArgs.head? <|> ty.element?).bind Ty.entity?
  table (← orThrow (.unsupported (m.text ++ " without an entity type argument")) named)

/-- The value of a node whose parts are lowered. -/
def finish (r : Rule) (e : Expr) (p : Progress) (parts : List Node) : Lower Node := do
  match r, e with
  | captured, e => Lower.captured e
  | constant, .constant v _ => Lower.constant v
  | parameter, .parameter q => Lower.parameter q.name
  | passthrough name, _ => part parts 0 name
  | groupAggregate method, _ =>
    let (key, element) ← known .argumentBeforeGroup p.group
    ofResult (groupValue method key element (parts[1]?))
  | membership item values negated, _ =>
    let item ← part parts item "in values"
    ofResult (Lower.membership item (← part parts values "in values") negated)
  | step s, _ =>
    let select ← reclaim (← known (.argumentBeforeSource s.name) p.source)
    s.finish p select parts
  | dataSet, .call m _ _ ty => dataSetTable m ty
  | union kind, _ =>
    let left ← part parts 0 "left side of a union"
    Lower.union kind left (← part parts 1 "right side of a union")
  | recursiveUnion, _ =>
    let anchor ← known .noAnchor p.anchor
    Lower.recursiveUnion anchor (← part parts 1 "recursive member")
  | navigation, .navigation _ name _ => navigate name (← part parts 0 ("navigation '" ++ name ++ "'"))
  | construct, .construct _ members => ofResult (Lower.construct members parts)
  | construct, .array .. => return .list (parts.map Node.asScalar)
  | function, .call m receiver _ _ =>
    ofResult (lowerMethod m receiver.isSome (parts.map Node.asScalar))
  | member, .member (some target) name _ =>
    Lower.member target.ty (← part parts 0 "member access") name
  | member, .member none name _ => ofResult (staticMember name)
  | binary, .binary op left right ty =>
    let a ← part parts 0 "binary operator"
    Lower.binary op ty left.ty right.ty a (← part parts 1 "binary operator")
  | unary, .unary op operand ty => return Lower.unary op operand.ty ty (← part parts 0 "unary operator")
  | conditional, _ =>
    let test ← part parts 0 "conditional"
    let ifTrue ← part parts 1 "conditional"
    let ifFalse ← part parts 2 "conditional"
    return .choose test.asScalar ifTrue.asScalar ifFalse.asScalar
  | _, e => throw (.unsupported e.text)

end Rule

end QueryLowering
