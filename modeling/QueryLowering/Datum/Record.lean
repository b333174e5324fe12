import QueryLowering.Datum.Basic

/-!
# Reading records

A structure with known fields is written as a record, or as a list of its fields in their order. A
record may hold further entries, which are skipped, but no field twice; a list may leave out fields
at its end that have a default. Whether a list may go on after the last field, and what may stand for
contents that are missing, depends on where the data come from.
-/

namespace QueryLowering

/-- Where data of several origins differ in how structures are written. -/
structure Manner where
  /-- Whether an empty record may stand for the contents of an alternative that has none. -/
  emptyRecord : Bool
  /-- Whether an empty list may stand for them. -/
  emptyList : Bool
  /-- Whether a list may hold more items than there are fields. The surplus is skipped. -/
  surplus : Bool
deriving DecidableEq, Repr

/-- Whether the contents of an alternative are those of one that has none. -/
def Manner.isBare (m : Manner) : Datum → Bool
  | .null => true
  | .record [] => m.emptyRecord
  | .list [] => m.emptyList
  | _ => false

namespace Datum

/-- The value of one field of a record; the outer result is none if the field stands there twice. -/
def fieldOf (entries : List (String × Datum)) (name : String) : Option (Option Datum) :=
  match entries.filter (·.1 == name) with
  | [] => some none
  | [(_, d)] => some (some d)
  | _ => none

/-- The values of known fields, in the order of their names. -/
def fields? (m : Manner) (names : List String) : Datum → Option (List (Option Datum))
  | .record entries => names.mapM (fieldOf entries)
  | .list items =>
    if m.surplus || items.length ≤ names.length then
      some ((items.take names.length).map some
        ++ List.replicate (names.length - items.length) none)
    else none
  | _ => none

/-- One of several alternatives: its name and its contents, which are null if only the name stands
there. -/
def choice? : Datum → Option (String × Datum)
  | .string name => some (name, .null)
  | .record [(name, d)] => some (name, d)
  | _ => none

/-- One of several alternatives without contents, by its name. -/
def oneOf? {α : Type} (m : Manner) (every : List α) (code : α → String) (d : Datum) :
    Option α := do
  let (name, contents) ← d.choice?
  if m.isBare contents then every.find? (code · == name) else none

/-- A list whose items are read alike. -/
def listOf? {α : Type} (read : Datum → Option α) (d : Datum) : Option (List α) := do
  (← d.list?).mapM read

mutual

/-- How deep a value is nested. -/
def depth : Datum → Nat
  | .list items => itemsDepth items + 1
  | .record entries => entriesDepth entries + 1
  | _ => 1

/-- The greatest depth of an item. -/
def itemsDepth : List Datum → Nat
  | [] => 0
  | d :: rest => max (depth d) (itemsDepth rest)

/-- The greatest depth of the value of an entry. -/
def entriesDepth : List (String × Datum) → Nat
  | [] => 0
  | (_, d) :: rest => max (depth d) (entriesDepth rest)

end

end Datum

/-- A field that must be there. -/
def required {α : Type} (read : Datum → Option α) : Option Datum → Option α
  | some d => read d
  | none => none

/-- A field with a default. -/
def withDefault {α : Type} (default : α) (read : Datum → Option α) : Option Datum → Option α
  | some d => read d
  | none => some default

/-- A field that may be absent or null. -/
def nullable {α : Type} (read : Datum → Option α) : Option Datum → Option (Option α)
  | some .null => some none
  | some d => (read d).map some
  | none => some none

end QueryLowering
