import QueryLowering.Expr.Operator

/-!
# Building expressions

Functions that build the nodes of an expression with the types that go with them, and queries put
together operator by operator. A step takes the bodies of its lambdas as functions of their
parameters.
-/

namespace QueryLowering

namespace Expr

/-- A quoted expression. -/
def quoted (e : Expr) : Expr := unary .quote e .unknown

/-- A constant of the type of its value. -/
def constantOf (v : Value) : Expr := constant v v.ty

/-- A captured variable of the type of its value. -/
def capturedOf (name : String) (v : Value) : Expr := captured name v v.ty

/-- All rows of an entity. -/
def tableOf (entity : String) : Expr := constantOf (.table entity)

/-- A member of a value. -/
def memberOf (target : Expr) (name : String) (ty : Ty) : Expr := member (some target) name ty

/-- The type of a binary node: tests are truth values, and the rest is of the type of the left side
or, if that is unknown, of the right side. -/
def binaryTy (op : BinaryOp) (left right : Expr) : Ty :=
  match op with
  | .equal | .notEqual | .lessThan | .lessThanOrEqual | .greaterThan | .greaterThanOrEqual
  | .andAlso | .orElse => .bool
  | _ => if left.ty = .unknown then right.ty else left.ty

/-- A binary node. -/
def binaryOf (op : BinaryOp) (left right : Expr) : Expr :=
  binary op left right (binaryTy op left right)

/-- The negation of a condition. -/
def notOf (e : Expr) : Expr := unary .not e .bool

/-- The negative of a number. -/
def negateOf (e : Expr) : Expr := unary .negate e e.ty

/-- A choice of the type of its first result. -/
def conditionalOf (test ifTrue ifFalse : Expr) : Expr := conditional test ifTrue ifFalse ifTrue.ty

/-- A call of a static method. -/
def staticCall (declaringType name : String) (args : List Expr) (ty : Ty) : Expr :=
  call ⟨declaringType, name, []⟩ none args ty

/-- A call of a method of a value. -/
def instanceCall (declaringType name : String) (receiver : Expr) (args : List Expr) (ty : Ty) :
    Expr :=
  call ⟨declaringType, name, []⟩ (some receiver) args ty

/-- Whether a collection contains an item. -/
def containsOf (collection item : Expr) : Expr :=
  staticCall Operator.enumerable "Contains" [collection, item] .bool

/-- An aggregate over a sequence, with a selector or without. -/
def sequenceCall (name : String) (source : Expr) (selector : Option Expr) (ty : Ty) : Expr :=
  staticCall Operator.enumerable name (source :: selector.toList) ty

end Expr

/-- A query under construction. -/
structure Query where
  expr : Expr
  /-- The type of its rows. -/
  element : Ty

namespace Query

/-- All rows of an entity. -/
def ofEntity (entity : String) : Query := ⟨.tableOf entity, .entity entity⟩

/-- All rows of an entity, asked of a provider that says nothing itself. -/
def dataSet (entity : String) : Query :=
  ⟨.call ⟨Operator.extensions, "DataSet", [.entity entity]⟩ none
    [.constant .null (.object "IQueryProvider")] (.queryable (.entity entity)), .entity entity⟩

/-- The type of a query. -/
def ty (q : Query) : Ty := .queryable q.element

/-- A parameter for the rows of a query. -/
def param (q : Query) (name : String) : Param := ⟨name, q.element⟩

/-- A quoted lambda of one parameter. -/
def lambda1 (p : Param) (body : Expr → Expr) : Expr := (Expr.lambda [p] (body (.parameter p))).quoted

/-- A quoted lambda of two parameters. -/
def lambda2 (p q : Param) (body : Expr → Expr → Expr) : Expr :=
  (Expr.lambda [p, q] (body (.parameter p) (.parameter q))).quoted

/-- A further operator. -/
def chain (q : Query) (declaringType name : String) (args : List Expr) (element : Ty) : Query :=
  ⟨.staticCall declaringType name (q.expr :: args) (.queryable element), element⟩

/-- A further standard operator. -/
def step (q : Query) (name : String) (args : List Expr) (element : Ty) : Query :=
  q.chain Operator.queryable name args element

/-- A further operator of the extensions. -/
def extension (q : Query) (name : String) (args : List Expr) (element : Ty) : Query :=
  q.chain Operator.extensions name args element

/-- A last operator, which gives a value. -/
def result (q : Query) (name : String) (args : List Expr) (ty : Ty) : Expr :=
  .staticCall Operator.queryable name (q.expr :: args) ty

/-! ## Steps -/

/-- The rows that satisfy a condition. -/
def filter (q : Query) (x : String) (body : Expr → Expr) : Query :=
  q.step "Where" [lambda1 (q.param x) body] q.element

/-- A value for each row. -/
def select (q : Query) (x : String) (ty : Ty) (body : Expr → Expr) : Query :=
  q.step "Select" [lambda1 (q.param x) body] ty

/-- The rows of a collection for each row. -/
def selectMany (q : Query) (x : String) (ty : Ty) (collection : Expr → Expr) : Query :=
  q.step "SelectMany" [lambda1 (q.param x) collection] ty

/-- A value for each row and each row of its collection. -/
def selectManyWith (q : Query) (x y : String) (itemTy : Ty) (collection : Expr → Expr) (ty : Ty)
    (body : Expr → Expr → Expr) : Query :=
  q.step "SelectMany" [lambda1 (q.param x) collection, lambda2 (q.param x) ⟨y, itemTy⟩ body] ty

/-- The rows in the order of a key; the name says which of the four orderings it is. -/
def ordering (q : Query) (name x : String) (key : Expr → Expr) : Query :=
  q.step name [lambda1 (q.param x) key] q.element

/-- The first rows. -/
def take (q : Query) (count : Expr) : Query := q.step "Take" [count] q.element

/-- The rows after the first ones. -/
def skip (q : Query) (count : Int) : Query := q.step "Skip" [.constantOf (.int count)] q.element

/-- A page of the rows, counted from one. -/
def paging (q : Query) (page size : Int) : Query :=
  q.extension "Paging" [.constantOf (.int page), .constantOf (.int size)] q.element

/-- The rows without duplicates. -/
def distinct (q : Query) : Query := q.step "Distinct" [] q.element

/-- The rows, or one empty row if there are none. -/
def defaultIfEmpty (q : Query) : Query := q.step "DefaultIfEmpty" [] q.element

/-- Groups of rows of equal key. -/
def groupBy (q : Query) (x : String) (keyTy : Ty) (key : Expr → Expr) : Query :=
  q.step "GroupBy" [lambda1 (q.param x) key] (.grouping keyTy q.element)

/-- Groups of values of the rows of equal key. -/
def groupByElement (q : Query) (x : String) (keyTy : Ty) (key : Expr → Expr) (elementTy : Ty)
    (element : Expr → Expr) : Query :=
  q.step "GroupBy" [lambda1 (q.param x) key, lambda1 (q.param x) element]
    (.grouping keyTy elementTy)

/-- The pairs of rows of equal keys. -/
def join (q inner : Query) (outerKey innerKey : Expr → Expr) (ty : Ty)
    (body : Expr → Expr → Expr) : Query :=
  q.step "Join" [inner.expr, lambda1 (q.param "o") outerKey, lambda1 (inner.param "i") innerKey,
    lambda2 (q.param "o") (inner.param "i") body] ty

/-- Each row with the inner rows of its key. -/
def groupJoin (q inner : Query) (outerKey innerKey : Expr → Expr) (ty : Ty)
    (body : Expr → Expr → Expr) : Query :=
  q.step "GroupJoin" [inner.expr, lambda1 (q.param "o") outerKey, lambda1 (inner.param "i") innerKey,
    lambda2 (q.param "o") ⟨"items", .enumerable inner.element⟩ body] ty

/-- A join whose condition is stated on the pairs that it makes; the name says its kind. -/
def explicitJoin (q : Query) (name : String) (other : Query) (ty : Ty)
    (shape : Expr → Expr → Expr) (condition : Expr → Expr) : Query :=
  q.extension name [other.expr, lambda2 (q.param "a") (other.param "b") shape,
    lambda1 ⟨"n", ty⟩ condition] ty

/-- All pairs of rows. -/
def crossJoin (q other : Query) (ty : Ty) (shape : Expr → Expr → Expr) : Query :=
  q.extension "CrossJoin" [other.expr, lambda2 (q.param "a") (other.param "b") shape] ty

/-- Each row with the rows of a query that depends on it; the name says the kind of application. -/
def apply (q : Query) (name : String) (correlated : Expr → Query) (ty : Ty)
    (shape : Expr → Expr → Expr) : Query :=
  let inner := correlated (.parameter (q.param "a"))
  q.extension name [lambda1 (q.param "a") fun _ => inner.expr,
    lambda2 (q.param "a") (inner.param "b") shape] ty

/-- The rows of two queries without duplicates. -/
def union (q other : Query) : Query := q.step "Union" [other.expr] q.element

/-- The rows of two queries. -/
def unionAll (q other : Query) : Query := q.step "Concat" [other.expr] q.element

/-- The rows of a query together with those that come from them, over and over. -/
def recursiveUnion (q : Query) (name : String) (body : Query → Query) : Query :=
  q.extension "RecursiveUnion"
    [lambda1 ⟨name, q.ty⟩ fun rows => (body ⟨rows, q.element⟩).expr] q.element

/-! ## Last steps -/

/-- The number of rows, of those that satisfy a condition if there is one. -/
def count (q : Query) (condition : Option (String × (Expr → Expr))) : Expr :=
  q.result "Count" (condition.toList.map fun (x, body) => lambda1 (q.param x) body) .int

/-- An aggregate of a value of each row; the name says which one. -/
def aggregate (q : Query) (name x : String) (ty : Ty) (body : Expr → Expr) : Expr :=
  q.result name [lambda1 (q.param x) body] ty

/-- Whether there are rows, or rows that satisfy a condition. -/
def any (q : Query) (condition : Option (String × (Expr → Expr))) : Expr :=
  q.result "Any" (condition.toList.map fun (x, body) => lambda1 (q.param x) body) .bool

/-- Whether all rows satisfy a condition. -/
def all (q : Query) (x : String) (body : Expr → Expr) : Expr :=
  q.result "All" [lambda1 (q.param x) body] .bool

/-- The first row. -/
def first (q : Query) : Expr := q.result "First" [] q.element

/-- The first row that satisfies a condition, if there is one. -/
def firstWhere (q : Query) (x : String) (body : Expr → Expr) : Expr :=
  q.result "FirstOrDefault" [lambda1 (q.param x) body] q.element

/-- Assigns new values to columns of the rows. -/
def update (q : Query) (x : String) (target assignments : Expr → Expr) : Expr :=
  .staticCall Operator.extensions "Update"
    [q.expr, lambda1 (q.param x) target, lambda1 (q.param x) assignments] .int

/-- Deletes the rows, or those of a table that takes part in them. -/
def delete (q : Query) (target : Option (String × (Expr → Expr))) : Expr :=
  .staticCall Operator.extensions "Delete"
    (q.expr :: target.toList.map fun (x, body) => lambda1 (q.param x) body) .int

end Query

end QueryLowering
