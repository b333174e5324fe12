import QueryLowering.Sql.Hoist

/-!
# The rows of closed selects

What a closed select returns, as a list of rows: the rows of its data source, those of them on which
its condition is true, the value of each output column on them, of equal rows the first one if
duplicates are dropped, and of the rest the page that is asked for. A data source that is a closed
select itself is read first.

Only selects from one data source without groups, orderings and common table expressions are read,
and only columns, literals and operators have values. Anything else has no reading.
-/

namespace QueryLowering

namespace Sql

/-! ## Scalars -/

namespace Literal

/-- Whether a literal is null. -/
def isNull : Literal → Bool
  | null => true
  | _ => false

/-- A truth value as a literal; an unknown one is null. -/
def ofTruth : Option Bool → Literal
  | some b => bool b
  | none => null

/-- An operator that gives null as soon as one of its operands is null. -/
def strict (f : Literal → Literal → Literal) (a b : Literal) : Literal :=
  if a.isNull || b.isNull then null else f a b

/-- A comparison, which is unknown at null. -/
def compared (f : Literal → Literal → Bool) : Literal → Literal → Literal := strict fun a b => bool (f a b)

end Literal

/-- The conjunction of truth values that may be unknown. -/
def conjoin : Option Bool → Option Bool → Option Bool
  | some true, b => b
  | some false, _ => some false
  | none, some false => some false
  | none, _ => none

/-- A conjunction is known to be true if both parts are. -/
theorem conjoin_eq_true {a b : Option Bool} : conjoin a b = some true ↔ a = some true ∧ b = some true := by
  rcases a with _ | _ | _ <;> rcases b with _ | _ | _ <;> simp [conjoin]

/-- The disjunction of truth values that may be unknown. -/
def disjoin : Option Bool → Option Bool → Option Bool
  | some false, b => b
  | some true, _ => some true
  | none, some true => some true
  | none, _ => none

/-- What the operators between scalars mean where no operand is null. The equality of a database may
be coarser than that of literals, as it is for texts if case does not count. -/
structure Scalars where
  same : Literal → Literal → Bool
  /-- Whether a value comes before another one. -/
  less : Literal → Literal → Bool
  plus : Literal → Literal → Literal
  minus : Literal → Literal → Literal
  times : Literal → Literal → Literal
  quotient : Literal → Literal → Literal
  remainder : Literal → Literal → Literal
  opposite : Literal → Literal
  same_bool : ∀ a b, same (.bool a) (.bool b) = (a == b)

namespace Scalars

variable (m : Scalars)

/-- Whether a value is true; of null that is unknown. -/
def truth : Literal → Option Bool
  | .null => none
  | v => some (m.same v (.bool true))

/-- Whether a value is known to be true. -/
def holds (v : Literal) : Bool := m.truth v == some true

/-- The conjunction of two values. -/
def both (a b : Literal) : Literal := .ofTruth (conjoin (m.truth a) (m.truth b))

/-- The disjunction of two values. -/
def either (a b : Literal) : Literal := .ofTruth (disjoin (m.truth a) (m.truth b))

/-- The negation of a value. -/
def negation (v : Literal) : Literal := .ofTruth ((m.truth v).map not)

/-- The value with the other sign. -/
def negative (v : Literal) : Literal := if v.isNull then .null else m.opposite v

/-- Whether a value comes before another one or equals it. -/
def atMost (a b : Literal) : Bool := m.less a b || m.same a b

/-- The value of a binary operator. -/
def binary : BinaryOperator → Literal → Literal → Option Literal
  | .eq, a, b => some (.compared m.same a b)
  | .notEq, a, b => some (.compared (fun a b => !m.same a b) a b)
  | .lt, a, b => some (.compared m.less a b)
  | .ltEq, a, b => some (.compared m.atMost a b)
  | .gt, a, b => some (.compared m.less b a)
  | .gtEq, a, b => some (.compared m.atMost b a)
  | .and, a, b => some (m.both a b)
  | .or, a, b => some (m.either a b)
  | .plus, a, b => some (.strict m.plus a b)
  | .minus, a, b => some (.strict m.minus a b)
  | .multiply, a, b => some (.strict m.times a b)
  | .divide, a, b => some (.strict m.quotient a b)
  | .modulo, a, b => some (.strict m.remainder a b)
  | .concat, _, _ | .like, _, _ => none

/-- Whether two values are duplicates: both are null, or neither is and they are equal. -/
def alike (a b : Literal) : Bool :=
  if a.isNull || b.isNull then a.isNull && b.isNull else m.same a b

/-- Whether two lists of values are duplicates of each other, place by place. -/
def allAlike : List Literal → List Literal → Bool
  | [], [] => true
  | a :: as, b :: bs => m.alike a b && allAlike as bs
  | _, _ => false

end Scalars

/-! ## Rows -/

/-- The values of the columns of a row by their names. -/
abbrev Row : Type := String → Option Literal

/-- The rows that each table holds. -/
abbrev Contents : Type := Table → List (String → Literal)

/-- The value of an output column on a row, at its path and under its name. -/
structure Cell where
  path : Path
  name : String
  value : Literal

namespace Cell

/-- An output row as a row of the select that reads it. -/
def row (cells : List Cell) : Row := fun name => (cells.find? (·.name == name)).map (·.value)

/-- The values of an output row, each at its path. -/
def leaves (cells : List Cell) : List (Path × Literal) := cells.map fun c => (c.path, c.value)

/-- Whether two output rows are duplicates. -/
def alike (m : Scalars) (r t : List Cell) : Bool := m.allAlike (r.map (·.value)) (t.map (·.value))

end Cell

section

variable (m : Scalars)

/-- The value of an expression on a row of a data source. -/
def Node.value? (a : Alias) (row : Row) : Node → Option Literal
  | .literal l => some l
  | .column b name => if b = a then row name else none
  | .binary op left right => do m.binary op (← left.value? a row) (← right.value? a row)
  | .unary .not e => (e.value? a row).map m.negation
  | .unary .minus e => (e.value? a row).map m.negative
  | .isNull e negated => (e.value? a row).map fun v => .bool (v.isNull != negated)
  | _ => none

/-- Whether a condition is true on a row. -/
def keeps? (a : Alias) (row : Row) : Option Node → Option Bool
  | none => some true
  | some condition => (condition.value? m a row).map m.holds

/-- The rows on which a condition is true. -/
def kept? (a : Alias) (condition : Option Node) : List Row → Option (List Row)
  | [] => some []
  | row :: rest => do
    let keep ← keeps? m a row condition
    let rest ← kept? a condition rest
    return if keep then row :: rest else rest

/-- The output row for a row of a data source. -/
def outputRow? (a : Alias) (columns : List OutputColumn) (row : Row) : Option (List Cell) :=
  columns.mapM fun c => (c.expr.value? m a row).map (⟨c.path, c.name, ·⟩)

/-- A number of rows. -/
def count? : Option Node → Option (Option Nat)
  | none => some none
  | some (.literal (.int (.ofNat n))) => some (some n)
  | some _ => none

/-- The rows of a page: some rows are left out, and of the rest at most a number is taken. -/
def page {α : Type} (skip top : Option Nat) (rows : List α) : List α :=
  match top with
  | none => rows.drop (skip.getD 0)
  | some n => (rows.drop (skip.getD 0)).take n

/-- Whether a select has no clauses but a condition, a projection and those that page or drop
duplicates. -/
def Select.isPlain (s : Select) : Bool :=
  s.groupBy.isNone && s.groupElement.isNone && s.having.isNone && s.orderBy.isEmpty
    && !s.defaultIfEmpty && s.ctes.isEmpty

/-- The output rows of a select for the rows of its data source. -/
def Select.output? (s : Select) (columns : List OutputColumn) (a : Alias) (rows : List Row) :
    Option (List (List Cell)) := do
  let kept ← kept? m a s.filter rows
  let found ← kept.mapM (outputRow? m a columns)
  let skip ← count? s.skip
  let top ← count? s.top
  return page skip top (if s.distinct then found.eraseDupsBy (Cell.alike m) else found)

variable (contents : Contents)

mutual

/-- The rows of a relation. -/
def Relation.rows? : Relation → Option (List Row)
  | .table t => some ((contents t).map fun row name => some (row name))
  | .derived d => d.read?.map (·.map Cell.row)
  | .union _ | .cte .. => none

/-- The rows of the only data source of a select, with its alias. -/
def sourceRows? : List DataSource → Option (Alias × List Row)
  | [{ name, relation, join := none, .. }] => relation.rows?.map (name, ·)
  | _ => none

/-- The output rows of a select. -/
def Select.read? (columns : List OutputColumn) (s : Select) : Option (List (List Cell)) :=
  match s with
  | { sources, .. } => do
    let (a, rows) ← sourceRows? sources
    if s.isPlain then s.output? m columns a rows else none

/-- The rows of a closed select. -/
def Derived.read? : Derived → Option (List (List Cell))
  | { select, columns, .. } => select.read? columns

end

/-- The rows of a statement that is a query without common table expressions. -/
def Statement.read? : Statement → Option (List (List Cell))
  | { ctes := [], body := .query d } => d.read? m contents
  | _ => none

end

end Sql

end QueryLowering
