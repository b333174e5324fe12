import QueryLowering.Word

/-!
# Plain data

The values that a data text holds, whatever its format: numbers, strings, lists and records. A record
keeps its entries as they stand in the text, so what a repeated name means is left to who reads it.
-/

namespace QueryLowering

/-- A plain value. -/
inductive Datum where
  | null
  | bool (b : Bool)
  | int (n : Int)
  | float (x : Float)
  | string (s : String)
  | list (items : List Datum)
  | record (entries : List (String × Datum))

namespace Datum

instance : Inhabited Datum := ⟨null⟩

/-- The entries that are not followed by another one of their name. -/
def lastEntries {α : Type} : List (String × α) → List (String × α)
  | [] => []
  | (name, a) :: rest =>
    if rest.any (·.1 == name) then lastEntries rest else (name, a) :: lastEntries rest

mutual

/-- The value in which only the last of several entries of one name is left, at every depth. -/
def lastWins : Datum → Datum
  | .list items => .list (lastWinsItems items)
  | .record entries => .record (lastEntries (lastWinsEntries entries))
  | d => d

/-- `lastWins` on each item. -/
def lastWinsItems : List Datum → List Datum
  | [] => []
  | d :: rest => lastWins d :: lastWinsItems rest

/-- `lastWins` on the value of each entry. -/
def lastWinsEntries : List (String × Datum) → List (String × Datum)
  | [] => []
  | (name, d) :: rest => (name, lastWins d) :: lastWinsEntries rest

end

/-- The entry of a name in a record. -/
def get? : Datum → String → Option Datum
  | .record entries, name => entries.lookup name
  | _, _ => none

/-- The text of a string. -/
def string? : Datum → Option String
  | .string s => some s
  | _ => none

/-- The value of a truth value. -/
def bool? : Datum → Option Bool
  | .bool b => some b
  | _ => none

/-- The value of an integer of 64 bits. -/
def int? : Datum → Option Int
  | .int n => if isWord n then some n else none
  | _ => none

/-- The value of a number as a float. -/
def float? : Datum → Option Float
  | .float x => some x
  | .int n => some (if n < 0 then -(n.natAbs.toUInt64.toFloat) else n.natAbs.toUInt64.toFloat)
  | _ => none

/-- The items of a list. -/
def list? : Datum → Option (List Datum)
  | .list items => some items
  | _ => none

/-- The strings of a list of strings. -/
def strings? (d : Datum) : Option (List String) := do (← d.list?).mapM string?

end Datum

end QueryLowering
