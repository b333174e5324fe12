import QueryLowering.Alias
import QueryLowering.Word

/-!
# Errors

Every error ends the work on the query at hand: it uses something that has no counterpart in SQL, it
does not fit the schema, or a step met a value of a kind that it does not expect.
-/

namespace QueryLowering

/-- The arithmetic operations of 64-bit integers. -/
inductive Arithmetic where
  | add
  | subtract
  | multiply
deriving DecidableEq, Repr

/-- The name of an operation. -/
def Arithmetic.name : Arithmetic → String
  | .add => "add"
  | .subtract => "subtract"
  | .multiply => "multiply"

/-- A step met a state that it does not expect. -/
inductive Breach where
  /-- A key was asked of a query that has no grouping. -/
  | notGrouped
  | sourceNotRegistered (source : Alias)
  | sourceNotFound (source : Alias)
  | sourceNotJoined (source : Alias)
  /-- An argument of an operator was reached before the query that it applies to. -/
  | argumentBeforeSource (operator : String)
  | argumentBeforeJoin (operator : String)
  | innerKeyBeforeOuter (operator : String)
  | keyBeforeInner
  | resultBeforeKeys
  | conditionBeforeShape
  | resultBeforeCollection
  | argumentBeforeGroup
  | memberBeforeAnchor
  | noAnchor
  | navigationWithoutOwner (navigation : String) (parent : Alias)
  | targetNotInQuery (statement : String) (target : Alias)
  | targetNotInSources (statement : String) (target : Alias)
  | emptyKey
  | conditionOnBareJoin (keyword : String)
  /-- A query was taken back that is not the latest one lent. -/
  | reclaimedOutOfOrder
  | noQueryLent
  | ticketNotOutstanding
  | passFailed (pass reason : String)
deriving DecidableEq, Repr

/-- The text of a breach. -/
def Breach.message : Breach → String
  | notGrouped => "grouping requested from an ungrouped select"
  | sourceNotRegistered a => "data source " ++ a.text ++ " is not registered"
  | sourceNotFound a => "no data source " ++ a.text ++ " to attach a join condition to"
  | sourceNotJoined a => "data source " ++ a.text ++ " is not joined"
  | argumentBeforeSource op => op ++ " argument converted before its source"
  | argumentBeforeJoin op => op ++ " argument converted before its joined source"
  | innerKeyBeforeOuter op => op ++ " inner key converted before the outer key"
  | keyBeforeInner => "GroupJoin key converted before its inner query"
  | resultBeforeKeys => "GroupJoin result converted before its keys"
  | conditionBeforeShape => "join condition converted before the join shape"
  | resultBeforeCollection => "SelectMany result converted before its collection"
  | argumentBeforeGroup => "group aggregate argument converted before its group"
  | memberBeforeAnchor => "recursive member converted before its anchor"
  | noAnchor => "recursive union without an anchor"
  | navigationWithoutOwner n a =>
    "navigation '" ++ n ++ "' from " ++ a.text ++ ", which no open query owns"
  | targetNotInQuery s a => s ++ " target " ++ a.text ++ " is not a source of the query"
  | targetNotInSources s a => s ++ " target " ++ a.text ++ " is not a source of its query"
  | emptyKey => "key equality over an empty key"
  | conditionOnBareJoin k => k ++ " carries a join condition"
  | reclaimedOutOfOrder => "query reclaimed out of order"
  | noQueryLent => "no query is lent"
  | ticketNotOutstanding => "query ticket is not outstanding"
  | passFailed p r => "preprocessing pass '" ++ p ++ "' failed: " ++ r

/-- What is inconsistent in a schema. -/
inductive SchemaFault where
  | declaredTwice (entity : String)
  | noColumns (entity : String)
  | unknownTarget (entity navigation target : String)
  | noKeys (entity navigation : String)
  | notAColumnPair (entity navigation parent child : String)
  /-- A navigation without keys was followed. -/
  | noJoinKeys (navigation : String)
deriving DecidableEq, Repr

/-- The text of a schema fault. -/
def SchemaFault.message : SchemaFault → String
  | declaredTwice e => "entity '" ++ e ++ "' is declared twice"
  | noColumns e => "entity '" ++ e ++ "' has no columns"
  | unknownTarget e n t => "navigation '" ++ e ++ "." ++ n ++ "' targets unknown entity '" ++ t ++ "'"
  | noKeys e n => "navigation '" ++ e ++ "." ++ n ++ "' has no key pairs"
  | notAColumnPair e n p c =>
    "navigation '" ++ e ++ "." ++ n ++ "' key " ++ p ++ " -> " ++ c ++ " is not a column pair"
  | noJoinKeys n => "navigation '" ++ n ++ "' has no join keys"

/-- Why a query cannot be lowered. -/
inductive Error where
  /-- Nothing in SQL corresponds to the construct. -/
  | unsupported (construct : String)
  /-- A value is of another kind than the place it stands in expects. -/
  | shape (expected actual context : String)
  | arity (context : String) (expected actual : Nat)
  | missingBinding (member context : String)
  | unboundParameter (name : String)
  | unknownMember (entity member : String)
  | unknownNavigation (entity navigation : String)
  | unknownEntity (name : String)
  | invalidState (breach : Breach)
  | schema (fault : SchemaFault)
  /-- A constant leaves the range of 64-bit integers. -/
  | overflow (operation : Arithmetic)
deriving DecidableEq, Repr

/-- The text of an error. -/
def Error.message : Error → String
  | unsupported c => c ++ " is not supported"
  | shape e a c => "expected " ++ e ++ " but " ++ c ++ " converted to " ++ a
  | arity c e a => c ++ ": expected " ++ toString e ++ " but found " ++ toString a
  | missingBinding m c => "no binding for '" ++ m ++ "' in " ++ c
  | unboundParameter n => "lambda parameter '" ++ n ++ "' is not bound to a data source"
  | unknownMember e m => "entity '" ++ e ++ "' has no column member '" ++ m ++ "'"
  | unknownNavigation e n => "entity '" ++ e ++ "' has no navigation '" ++ n ++ "'"
  | unknownEntity n => "unknown entity type '" ++ n ++ "'"
  | invalidState b => "invalid translator state: " ++ b.message
  | schema f => "model configuration: " ++ f.message
  | overflow o => "attempt to " ++ o.name ++ " with overflow"

/-- The result of a step that can fail. -/
abbrev Result (α : Type) : Type := Except Error α

/-- The result of an operation on 64-bit integers. -/
def Arithmetic.checked (op : Arithmetic) (n : Int) : Result Int :=
  if isWord n then .ok n else .error (.overflow op)

/-- Fails with a breach. -/
def breach {m : Type → Type} [MonadExceptOf Error m] {α : Type} (b : Breach) : m α :=
  throw (.invalidState b)

/-- The value of an optional, or an error. -/
def orThrow {m : Type → Type} [Monad m] [MonadExceptOf Error m] {α : Type} (e : Error) :
    Option α → m α
  | some a => pure a
  | none => throw e

end QueryLowering
