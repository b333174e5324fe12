import QueryLowering.Calendar.DateTime
import QueryLowering.Expr.Ty

/-!
# Values

The values that constants and captured variables of a query expression hold.
-/

namespace QueryLowering

/-- A constant or captured value. -/
inductive Value where
  | null
  | bool (b : Bool)
  | int (n : Int)
  | float (x : Float)
  | string (s : String)
  | dateTime (d : DateTime)
  | list (items : List Value)
  | record (fields : List (String × Value))
  /-- All rows of an entity. -/
  | table (entity : String)

namespace Value

instance : Inhabited Value := ⟨null⟩

/-- The static type of a value; that of a list is taken from its first item. -/
def ty : Value → Ty
  | null => .unknown
  | bool _ => .bool
  | int _ => .int
  | float _ => .double
  | string _ => .string
  | dateTime _ => .dateTime
  | list [] => .array .unknown
  | list (v :: _) => .array v.ty
  | record _ => .anonymous
  | table entity => .queryable (.entity entity)

/-- The integer of an integer value. -/
def int? : Value → Option Int
  | int n => some n
  | _ => none

/-- Whether a value is null. -/
def isNull : Value → Bool
  | null => true
  | _ => false

/-- Gives a field a value and keeps the fields in the order of their names. -/
def insertField (name : String) (v : Value) : List (String × Value) → List (String × Value)
  | [] => [(name, v)]
  | (n, w) :: rest =>
    if n == name then (name, v) :: rest
    else if name < n then (name, v) :: (n, w) :: rest
    else (n, w) :: insertField name v rest

/-- The record of some fields, of which the last of each name counts. -/
def ofFields (fields : List (String × Value)) : Value :=
  record (fields.foldl (fun r (name, v) => insertField name v r) [])

mutual

/-- Whether two values are equal; floats are compared as numbers. -/
def beq : Value → Value → Bool
  | null, null => true
  | bool a, bool b => a == b
  | int a, int b => a == b
  | float a, float b => a == b
  | string a, string b => a == b
  | dateTime a, dateTime b => a == b
  | list a, list b => beqItems a b
  | record a, record b => beqFields a b
  | table a, table b => a == b
  | _, _ => false

/-- Whether two lists of values are equal. -/
def beqItems : List Value → List Value → Bool
  | [], [] => true
  | a :: as, b :: bs => beq a b && beqItems as bs
  | _, _ => false

/-- Whether two lists of fields are equal. -/
def beqFields : List (String × Value) → List (String × Value) → Bool
  | [], [] => true
  | (n, a) :: as, (m, b) :: bs => n == m && beq a b && beqFields as bs
  | _, _ => false

end

instance : BEq Value := ⟨beq⟩

end Value

end QueryLowering
