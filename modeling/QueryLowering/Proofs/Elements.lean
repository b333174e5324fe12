import QueryLowering.Expr.Operator
import QueryLowering.Expr.Traverse
import QueryLowering.Proofs.Reading

/-!
# Chains of query operators

What a chain of query operators means by itself: the operators apply one after the other to a list of
elements, which at first are the rows of a table. An element is a single value, or a record of
members.
-/

namespace QueryLowering

open Sql

/-! ## Elements -/

/-- An element of a list: a single value, or named members in their order. -/
inductive Element where
  | scalar (v : Literal)
  | record (members : List (String × Element))

/-- The shape of an element. -/
inductive Shape where
  | scalar
  | record (members : List (String × Shape))

namespace Element

mutual

/-- The single values of an element, each at its path below a given one. -/
def leaves (base : Path) : Element → List (Path × Literal)
  | scalar v => [(base, v)]
  | record members => memberLeaves base members

/-- The single values of named members. -/
def memberLeaves (base : Path) : List (String × Element) → List (Path × Literal)
  | [] => []
  | (name, e) :: rest => leaves (base ++ [name]) e ++ memberLeaves base rest

end

mutual

/-- The shape of an element. -/
def shape : Element → Shape
  | scalar _ => .scalar
  | record members => .record (memberShapes members)

/-- The shapes of named members. -/
def memberShapes : List (String × Element) → List (String × Shape)
  | [] => []
  | (name, e) :: rest => (name, shape e) :: memberShapes rest

end

/-- The value of a scalar; that of a record does not count. -/
def value : Element → Literal
  | scalar v => v
  | record _ => .null

/-- The member of a record; of two members of a name the first one counts. -/
def member (name : String) : Element → Element
  | record members => (members.lookup name).getD (scalar .null)
  | scalar _ => scalar .null

/-- Whether two elements are duplicates: their single values are, one by one. -/
def alike (m : Scalars) (e f : Element) : Bool := m.allAlike ((e.leaves []).map (·.2)) ((f.leaves []).map (·.2))

/-- A row of the table of an entity as a record of the members of the entity. -/
def ofRow (columns : List Column) (row : String → Literal) : Element :=
  record (columns.map fun c => (c.member, scalar (row c.column)))

/-- The rows of the table of an entity. -/
def ofTable (schema : Schema) (entity : String) (contents : Contents) : List Element :=
  match schema.find? entity with
  | some e => (contents ⟨entity, e.table⟩).map (ofRow e.columns)
  | none => []

end Element

/-- The shape of the rows of the table of an entity. -/
def Shape.ofEntity (schema : Schema) (entity : String) : Shape :=
  .record ((((schema.find? entity).map (·.columns)).getD []).map fun c => (c.member, .scalar))

/-! ## The bodies of lambdas -/

namespace Sql

/-- The literal of a single value. -/
def Literal.ofValue : Value → Literal
  | .bool b => .bool b
  | .int n => .int n
  | .float x => .float x
  | .string s => .string s
  | .dateTime d => .dateTime d
  | .null | .list _ | .record _ | .table _ => .null

/-- Whether a value is null, or whether it is not. -/
def Literal.nullTest (op : BinaryOp) (v : Literal) : Literal := .bool (v.isNull != (op == .notEqual))

/-- The value of a binary operator of expressions. -/
def Scalars.operate (m : Scalars) : BinaryOp → Literal → Literal → Literal
  | .equal, a, b => .compared m.same a b
  | .notEqual, a, b => .compared (fun a b => !m.same a b) a b
  | .lessThan, a, b => .compared m.less a b
  | .lessThanOrEqual, a, b => .compared m.atMost a b
  | .greaterThan, a, b => .compared m.less b a
  | .greaterThanOrEqual, a, b => .compared m.atMost b a
  | .andAlso, a, b | .and, a, b => m.both a b
  | .orElse, a, b | .or, a, b => m.either a b
  | .add, a, b => .strict m.plus a b
  | .subtract, a, b => .strict m.minus a b
  | .multiply, a, b => .strict m.times a b
  | .divide, a, b => .strict m.quotient a b
  | .modulo, a, b => .strict m.remainder a b
  | .exclusiveOr, a, b => .ofTruth (do return (← m.truth a) != (← m.truth b))
  | .coalesce, _, _ => .null

end Sql

namespace BinaryOp

/-- The operators that compare two values. -/
def isComparison : BinaryOp → Bool
  | equal | notEqual | lessThan | lessThanOrEqual | greaterThan | greaterThanOrEqual => true
  | _ => false

/-- The operators between truth values. -/
def isConnective : BinaryOp → Bool
  | andAlso | orElse | and | or | exclusiveOr => true
  | _ => false

/-- The operators between numbers. A sum with a text and a difference of times are none. -/
def isArithmetic (left right : Ty) : BinaryOp → Bool
  | add => left.underlying ≠ .string && right.underlying ≠ .string
  | subtract => left.underlying ≠ .dateTime || right.underlying ≠ .dateTime
  | multiply | divide | modulo => true
  | _ => false

end BinaryOp

/-- Whether the values of a type may be records. The members of texts, times and optional values are
computed and not stored. -/
def Ty.isRecord : Ty → Bool
  | unknown | entity _ | anonymous | object _ => true
  | _ => false

namespace Expr

/-- The value of the body of a lambda whose parameter stands for an element. -/
def meaning (m : Scalars) (row : Element) : Expr → Element := fold fun e parts =>
    match e, parts with
    | parameter _, _ => row
    | member _ name _, [target] => target.member name
    | constant v _, _ => .scalar (.ofValue v)
    | binary op left right _, [a, b] =>
      .scalar (if right.isNullConstant then .nullTest op a.value
        else if left.isNullConstant then .nullTest op b.value
        else m.operate op a.value b.value)
    | unary .not _ _, [a] => .scalar (m.negation a.value)
    | unary .negate _ _, [a] => .scalar (m.negative a.value)
    | construct _ members, parts => .record ((members.map (·.1)).zip parts)
    | _, _ => .scalar .null

/-- The bodies of lambdas over a parameter for elements of a shape, with the shapes of their values:
the parameter, members of records, constants, arithmetic, comparisons and null tests of single values,
truth values, and objects. -/
inductive Admits (x : String) (σ : Shape) : Expr → Shape → Prop
  | parameter (ty : Ty) : Admits x σ (.parameter ⟨x, ty⟩) σ
  | member {target : Expr} {members : List (String × Shape)} {name : String} {τ : Shape} (ty : Ty)
      (htarget : Admits x σ target (.record members)) (hty : target.ty.isRecord = true)
      (hname : members.lookup name = some τ) : Admits x σ (.member (some target) name ty) τ
  | constant {v : Value} (ty : Ty) (hv : (Literal.ofValue v).isNull = false) : Admits x σ (.constant v ty) .scalar
  | operation {op : BinaryOp} {left right : Expr} (ty : Ty)
      (hop : op.isComparison || op.isConnective || op.isArithmetic left.ty right.ty)
      (hleft : Admits x σ left .scalar) (hright : Admits x σ right .scalar) :
      Admits x σ (.binary op left right ty) .scalar
  | nullTest {op : BinaryOp} {left : Expr} (ty nullTy : Ty) (hop : op = .equal ∨ op = .notEqual)
      (hleft : Admits x σ left .scalar) : Admits x σ (.binary op left (.constant .null nullTy) ty) .scalar
  | nullTestOf {op : BinaryOp} {right : Expr} (ty nullTy : Ty) (hop : op = .equal ∨ op = .notEqual)
      (hright : Admits x σ right .scalar) : Admits x σ (.binary op (.constant .null nullTy) right ty) .scalar
  | not {e : Expr} (ty : Ty) (he : Admits x σ e .scalar) : Admits x σ (.unary .not e ty) .scalar
  | negate {e : Expr} (ty : Ty) (he : Admits x σ e .scalar) : Admits x σ (.unary .negate e ty) .scalar
  | construct {members : List (String × Expr)} {shapes : List (String × Shape)} (ty : Ty)
      (hnames : members.map (·.1) = shapes.map (·.1)) (hdistinct : (members.map (·.1)).Nodup)
      (hmembers : ∀ pair ∈ members.zip shapes, Admits x σ pair.1.2 pair.2.2) :
      Admits x σ (.construct ty members) (.record shapes)

/-- The expressions for all rows of an entity: a constant, a variable of the caller, or the question
for a data set. -/
inductive IsTable (entity : String) : Expr → Prop
  | constant (ty : Ty) : IsTable entity (.constant (.table entity) ty)
  | captured (name : String) (ty : Ty) : IsTable entity (.captured name (.table entity) ty)
  | dataSet {method : Method} {args : List Expr} {ty : Ty} (hmethod : Operator.ofMethod? method = some .dataSet)
      (hentity : (method.genericArgs.head? <|> ty.element?).bind Ty.entity? = some entity) :
      IsTable entity (.call method none args ty)

end Expr

/-! ## Chains -/

/-- An operator of a chain. -/
inductive Transform where
  /-- Keeps the elements on which the body of a lambda is true. -/
  | filter (body : Expr)
  | select (body : Expr)
  | take (n : Nat)
  | skip (n : Nat)
  /-- Keeps the first of elements that are duplicates. -/
  | distinct

/-- What an operator makes of a list of elements. -/
def Transform.apply (m : Scalars) : Transform → List Element → List Element
  | filter body, es => es.filter fun e => m.holds (body.meaning m e).value
  | select body, es => es.map fun e => body.meaning m e
  | take n, es => es.take n
  | skip n, es => es.drop n
  | distinct, es => es.eraseDupsBy (Element.alike m)

/-- What operators make of a list of elements one after the other. -/
def Transform.run (m : Scalars) (ts : List Transform) (es : List Element) : List Element :=
  ts.foldl (fun es t => t.apply m es) es

/-- A query is a chain of operators over the table of an entity; its elements have a shape. -/
inductive Chain (schema : Schema) (entity : String) : Expr → List Transform → Shape → Prop
  | table {e : Expr} (he : e.IsTable entity) : Chain schema entity e [] (.ofEntity schema entity)
  | filter {source arg body : Expr} {p : Param} {method : Method} {ts : List Transform} {σ : Shape}
      (ty : Ty) (hsource : Chain schema entity source ts σ) (hmethod : Operator.ofMethod? method = some .filter)
      (harg : arg.asLambda? = some ([p], body)) (hbody : body.Admits p.name σ .scalar) :
      Chain schema entity (.call method none [source, arg] ty) (ts ++ [.filter body]) σ
  | select {source arg body : Expr} {p : Param} {method : Method} {ts : List Transform} {σ τ : Shape}
      (ty : Ty) (hsource : Chain schema entity source ts σ) (hmethod : Operator.ofMethod? method = some .select)
      (harg : arg.asLambda? = some ([p], body)) (hbody : body.Admits p.name σ τ) :
      Chain schema entity (.call method none [source, arg] ty) (ts ++ [.select body]) τ
  | take {source : Expr} {method : Method} {ts : List Transform} {σ : Shape} (ty countTy : Ty) (n : Nat)
      (hsource : Chain schema entity source ts σ) (hmethod : Operator.ofMethod? method = some .take) :
      Chain schema entity (.call method none [source, .constant (.int n) countTy] ty) (ts ++ [.take n]) σ
  | skip {source : Expr} {method : Method} {ts : List Transform} {σ : Shape} (ty countTy : Ty) (n : Nat)
      (hsource : Chain schema entity source ts σ) (hmethod : Operator.ofMethod? method = some .skip) :
      Chain schema entity (.call method none [source, .constant (.int n) countTy] ty) (ts ++ [.skip n]) σ
  | distinct {source : Expr} {method : Method} {ts : List Transform} {σ : Shape} (ty : Ty)
      (hsource : Chain schema entity source ts σ) (hmethod : Operator.ofMethod? method = some .distinct) :
      Chain schema entity (.call method none [source] ty) (ts ++ [.distinct]) σ

end QueryLowering
