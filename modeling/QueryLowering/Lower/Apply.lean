import QueryLowering.Lower.Group
import QueryLowering.Lower.Join
import QueryLowering.Lower.Modify

/-!
# Changes of a select

What each step does to its select once all arguments are lowered.
-/

namespace QueryLowering

open Sql

/-- How many rows stand before a page. The pages are counted from one; those before the first one
start where the first one does. -/
def pageOffset : Node → Node → Result Node
  | .literal (.int page), .literal (.int size) => do
    let before ← Arithmetic.subtract.checked (page - 1)
    return .literal (.int (← Arithmetic.multiply.checked (max before 0 * size)))
  | page, size =>
    pure (.operation .multiply (.operation .minus page (.literal (.int 1))) size)

/-- What an aggregate over the rows of a select is computed from: the value of its lambda, or else
the value of a row if that is one column. -/
def aggregateArgument (method : Operator) (s : Select) (lambda : Option Node) : Result Node := do
  let value ← orThrow (.unsupported (method.name ++ " without a selector over whole rows"))
    (lambda <|> s.projection)
  if value.isMultiColumn then throw (.unsupported (method.name ++ " over a multi-column value"))
  else return value

/-- A select of one aggregate over the rows of a select. The condition of a count filters the rows
first. -/
def aggregateRows (method : Operator) (s : Select) (lambda : Option Node) : Result Select := do
  let f := (aggregateFunction? method).getD .count
  if isCount f then
    let s := match lambda with
      | some condition => s.addFilter condition.condition
      | none => s
    return { s with orderBy := [], projection := some (.aggregate f none) }
  else
    let argument ← aggregateArgument method s lambda
    return { s with orderBy := [], projection := some (.aggregate f (some argument)) }

namespace Lower

/-- Whether a select has rows. The order of its rows counts only if they are paged. -/
def existence (s : Select) : Lower Node := do
  let orderBy := if s.isPaged then s.orderBy else []
  return .existence (← closeSelect { s with orderBy, projection := some (.literal (.int 1)) })

/-- The keys by which an ordering orders; a value of several columns orders by each of them. -/
def orderKeys (n : Node) : Lower (List Node) :=
  if n.isMultiColumn then look fun schema sc => do return (← sc.flatten schema [] n).map (·.2)
  else pure [n.asScalar]

/-- Whether some row, or every row, of a select satisfies a condition. -/
def quantified (universal conditional : Bool) (s : Select) (args : List Node) : Lower Node := do
  if conditional then
    let condition := (← part args 1 "Any predicate").asScalar.condition
    if universal then return (← existence (s.addFilter condition.negation)).negation
    else existence (s.addFilter condition)
  else if universal then throw (.arity "All predicate" 2 args.length)
  else existence s

/-- Whether an item is among the rows of a select. -/
def containsItem (s : Select) (args : List Node) : Lower Node := do
  let item := (← part args 1 "Contains item").asScalar
  let row := s.currentShape (← scope)
  let equal ← look fun schema sc => sc.equality schema row item
  existence (({ s with projection := none }).addFilter equal)

end Lower

namespace Step

open Lower

/-- The value of a step whose select is taken back and whose arguments are lowered. -/
def finish (step : Step) (p : Progress) (s : Select) (args : List Node) : Lower Node := do
  match step with
  | filter =>
    return .select (s.addFilter (← part args 1 "Where predicate").asScalar.condition)
  | select => return .select (s.project (← part args 1 "Select projection"))
  | order descending append =>
    let keys ← orderKeys (← part args 1 "ordering key")
    return .select (s.order (keys.map (⟨·, descending⟩)) append)
  | take => return .select { s with top := some (← part args 1 "Take count").asScalar }
  | skip => return .select { s with skip := some (← part args 1 "Skip count").asScalar }
  | paging =>
    let page := (← part args 1 "Paging page").asScalar
    let size := (← part args 2 "Paging size").asScalar
    return .select { s with skip := some (← ofResult (pageOffset page size)), top := some size }
  | distinct => return .select { s with distinct := true }
  | defaultIfEmpty => return .select { s with defaultIfEmpty := true }
  | first _ conditional =>
    let s ← if conditional then
        pure (s.addFilter (← part args 1 "First predicate").asScalar.condition)
      else pure s
    return .select { s with top := some (.literal (.int 1)) }
  | aggregate method =>
    return .select (← ofResult (aggregateRows method s (args[1]?.map Node.asScalar)))
  | quantify universal conditional => quantified universal conditional s args
  | contains => containsItem s args
  | groupBy =>
    let key ← part args 1 "GroupBy key"
    let element := (args[2]?).getD (s.currentShape (← scope))
    return .select (({ s with projection := none }).group key element)
  | join => return .select (s.project (← part args 4 "Join result"))
  | groupJoin => return .select (s.project (← part args 4 "GroupJoin result"))
  | explicitJoin method kind =>
    if kind ≠ .cross ∧ args.length < 4 then
      throw (.arity (method.name ++ " arguments") 4 args.length)
    return .select (s.project (← part args 2 "join shape"))
  | apply .. => return .select (s.project (← part args 2 "apply shape"))
  | selectMany =>
    match args[2]? with
    | some result => return .select (s.project result)
    | none => return .select (s.project (← joinedRow step.name p))
  | childJoin _ _ result =>
    match result with
    | some index => return .select (s.project (← part args index "child join result"))
    | none => return .select (s.project (← joinedRow step.name p))
  | modify delete => Lower.modify delete s args

end Step

end QueryLowering
