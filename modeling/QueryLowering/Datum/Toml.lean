import QueryLowering.Calendar.DateTime
import QueryLowering.Datum.Record

/-!
# TOML text

A document is a sequence of lines. Lines give values to keys of the table that is current; a header
line makes another table current. A table that a header or a value has defined cannot be defined
again, and a table that came about only by a dotted key can be extended only by dotted keys. Arrays
and inline tables are nested less than 80 deep, and a key has less than 80 parts.
-/

namespace QueryLowering

namespace Toml

/-- In a TOML text an empty table or array stands for contents that are missing, and an array may go
on after the last field. -/
def manner : Manner := { emptyRecord := true, emptyList := true, surplus := true }

/-- How deep arrays and inline tables may be nested, and how many parts a key may have. -/
def nestingLimit : Nat := 79

/-! ## Tables -/

mutual

/-- What a key of a table stands for. -/
inductive Item where
  /-- A finished value, which no later line extends. -/
  | value (d : Datum)
  | table (t : Table)
  /-- The elements of an array of tables, in the order of their headers. -/
  | tables (elements : List Table)

/-- A table that may still grow. -/
inductive Table where
  /-- `implied` says that no header or value has defined the table itself, `dotted` that a dotted key
  brought it about. -/
  | mk (implied dotted : Bool) (entries : List (String × Item))

end

namespace Table

/-- A table with no entries. -/
def empty (implied dotted : Bool) : Table := ⟨implied, dotted, []⟩

def implied : Table → Bool
  | ⟨i, _, _⟩ => i

def dotted : Table → Bool
  | ⟨_, d, _⟩ => d

def entries : Table → List (String × Item)
  | ⟨_, _, es⟩ => es

/-- The item of a key. -/
def get? (t : Table) (key : String) : Option Item := t.entries.lookup key

/-- The entries with one key given another item, at its place or at the end. -/
def setEntry (key : String) (item : Item) : List (String × Item) → List (String × Item)
  | [] => [(key, item)]
  | (k, i) :: rest => if k == key then (k, item) :: rest else (k, i) :: setEntry key item rest

/-- The table with one key given another item. -/
def put (t : Table) (key : String) (item : Item) : Table :=
  ⟨t.implied, t.dotted, setEntry key item t.entries⟩

/-- Changes the table at the end of a path. Tables on the way that are missing come about as implied
ones; of an array of tables the last element is entered; a value cannot be entered, nor, by a dotted
key, a table that is defined in its own right. -/
def modifyAt (byDots : Bool) (change : Table → Option Table) : List String → Table → Option Table
  | [], t => change t
  | key :: rest, t => do
    match t.get? key with
    | none => return t.put key (.table (← modifyAt byDots change rest (empty true byDots)))
    | some (.value _) => failure
    | some (.table inner) =>
      if byDots && !inner.implied then failure
      return t.put key (.table (← modifyAt byDots change rest inner))
    | some (.tables elements) =>
      let last ← elements.getLast?
      return t.put key (.tables (elements.dropLast ++ [← modifyAt byDots change rest last]))

/-- Gives a value to a dotted key: its table must be one that only dotted keys made, or the current
one if the key has no dots, and the last part of the key must be new. -/
def define (path : List String) (key : String) (item : Item) : Table → Option Table :=
  modifyAt true (fun t =>
    if t.dotted == path.isEmpty || (t.get? key).isSome then none else some (t.put key item)) path

/-- Gives values to several dotted keys in turn. -/
def defineAll (pairs : List (List String × String × Datum)) (t : Table) : Option Table :=
  pairs.foldlM (fun t (path, key, d) => t.define path key (.value d)) t

/-- Enters a section under a header. A plain header names a table that is new or only implied; a
header of an array of tables adds an element. -/
def openSection (isArray : Bool) (path : List String) (key : String)
    (pairs : List (List String × String × Datum)) : Table → Option Table :=
  modifyAt false (fun t => do
    if isArray then
      match t.get? key with
      | none => return t.put key (.tables [← (empty false false).defineAll pairs])
      | some (.tables elements) =>
        return t.put key (.tables (elements ++ [← (empty false false).defineAll pairs]))
      | _ => failure
    else
      match t.get? key with
      | none => return t.put key (.table (← (empty false false).defineAll pairs))
      | some (.table inner) =>
        if inner.implied && !inner.dotted then
          return t.put key (.table (← (Table.mk false false inner.entries).defineAll pairs))
        else failure
      | _ => failure) path

end Table

mutual

/-- The value that an item has become. -/
def Item.toDatum : Item → Datum
  | .value d => d
  | .table t => t.toDatum
  | .tables elements => .list (tableData elements)

/-- The record that a table has become. -/
def Table.toDatum : Table → Datum
  | ⟨_, _, entries⟩ => .record (entryData entries)

/-- The record of each table. -/
def tableData : List Table → List Datum
  | [] => []
  | t :: rest => t.toDatum :: tableData rest

/-- The value of each entry. -/
def entryData : List (String × Item) → List (String × Datum)
  | [] => []
  | (key, item) :: rest => (key, item.toDatum) :: entryData rest

end

/-! ## Characters and lines -/

/-- White space within a line. -/
def isBlank (c : Char) : Bool := c == ' ' || c == '\t'

/-- Skips white space within a line. -/
def blanks : Scanner Unit := discard (Scanner.takeWhile isBlank)

/-- Whether a character may stand in a comment. -/
def isCommentChar (c : Char) : Bool := c == '\t' || (0x20 ≤ c.toNat && c.toNat != 0x7F)

/-- The end of a line. -/
def newline : Scanner Unit := Scanner.char '\n' <|> Scanner.word "\r\n"

/-- A comment, if there is one. -/
def comment : Scanner Unit := do
  if ← Scanner.accepts (Scanner.char '#') then discard (Scanner.takeWhile isCommentChar)

/-- Skips white space, line ends and comments. -/
def gap : Scanner Unit := do
  blanks
  comment
  discard (Scanner.many do newline; blanks; comment)

/-! ## Strings -/

/-- A character given by a number of hexadecimal digits. -/
def codePoint (digits : Nat) : Scanner Char := do
  let cs ← Scanner.takeUpTo digits fun c => (digitValue? c).isSome
  Scanner.require (cs.length == digits)
  let n := digitsValue 16 cs
  Scanner.require (n < 0xD800 || (0xDFFF < n && n < 0x110000))
  return Char.ofNat n

/-- The character that stands after a backslash. -/
def escape : Scanner Char := do
  match ← Scanner.satisfy fun _ => true with
  | 'b' => return '\x08'
  | 't' => return '\t'
  | 'n' => return '\n'
  | 'f' => return '\x0c'
  | 'r' => return '\r'
  | '"' => return '"'
  | '\\' => return '\\'
  | 'u' => codePoint 4
  | 'U' => codePoint 8
  | _ => failure

/-- The single quote. -/
def tick : Char := Char.ofNat 39

/-- A string in double quotes on one line. -/
def basicString : Scanner String := do
  Scanner.char '"'
  let cs ← Scanner.many do
    let c ← Scanner.satisfy fun c => isCommentChar c && c != '"'
    if c == '\\' then escape else pure c
  Scanner.char '"'
  return String.ofList cs

/-- A string in single quotes on one line. -/
def literalString : Scanner String := do
  Scanner.char tick
  let cs ← Scanner.takeWhile fun c => isCommentChar c && c != tick
  Scanner.char tick
  return String.ofList cs

/-- A line end between two lines of one text, given as one character. -/
def lineEnd : Scanner (List Char) := do
  newline
  return ['\n']

/-- A backslash at the end of a line: it and the white space up to the next text are left out. -/
def lineJoin : Scanner (List Char) := do
  blanks
  newline
  discard (Scanner.many ((discard (Scanner.takeWhile1 isBlank)) <|> newline))
  return []

/-- Whether quotes of one kind stand here in the number that closes a text of several lines. -/
def closing (quote : Char) : Scanner Unit := Scanner.literal [quote, quote, quote]

/-- Up to two quotes that belong to the text because the closing quotes do not start with them. -/
def innerQuotes (quote : Char) : Scanner (List Char) := do
  let cs ← get
  let run := (cs.takeWhile (· == quote)).length
  -- a run of three to five quotes closes the text with its last three
  let kept := if run < 3 then run else if run ≤ 5 then run - 3 else 0
  Scanner.require (0 < kept)
  Scanner.takeUpTo kept (· == quote)

/-- A text of several lines between tripled quotes; a line end right after the opening is left
out. -/
def multiline (quote : Char) (special : Scanner (List Char)) : Scanner String := do
  closing quote
  discard (Scanner.accepts newline)
  let pieces ← Scanner.many <|
    special
      <|> (do return [← Scanner.satisfy fun c => isCommentChar c && c != quote && c != '\\'])
      <|> lineEnd
      <|> innerQuotes quote
  closing quote
  return String.ofList pieces.flatten

/-- What a backslash stands for in a text of several lines in double quotes. -/
def escapeOrJoin : Scanner (List Char) := do
  Scanner.char '\\'
  lineJoin <|> (do return [← escape])

/-- A backslash that stands for itself. -/
def plainBackslash : Scanner (List Char) := do
  Scanner.char '\\'
  return ['\\']

/-- A string of any kind. -/
def string : Scanner String :=
  multiline '"' escapeOrJoin
    <|> (do
      let cs ← get
      Scanner.require (cs.take 3 != ['"', '"', '"'])
      basicString)
    <|> multiline tick plainBackslash
    <|> (do
      let cs ← get
      Scanner.require (cs.take 3 != [tick, tick, tick])
      literalString)

/-! ## Keys -/

/-- Whether a character may stand in a key without quotes. -/
def isBareKeyChar (c : Char) : Bool := c.isAlphanum || c == '_' || c == '-'

/-- One part of a key. -/
def simpleKey : Scanner String :=
  (do return String.ofList (← Scanner.takeWhile1 isBareKeyChar)) <|> basicString <|> literalString

/-- A key: its parts before the last, and the last. -/
def key : Scanner (List String × String) := do
  let parts ← Scanner.sepBy1
    (do blanks; let k ← simpleKey; blanks; return k) (Scanner.char '.')
  Scanner.require (parts.length ≤ nestingLimit)
  return (parts.dropLast, parts.getLastD "")

/-! ## Numbers and dates -/

/-- Digits with single underscores between them. -/
def digitGroups (isDigit : Char → Bool) : Scanner (List Char) := do
  let groups ← Scanner.sepBy1 (Scanner.takeWhile1 isDigit) (Scanner.char '_')
  return groups.flatten

/-- An optional sign: whether it is a minus, and whether there is one. -/
def sign : Scanner (Bool × Bool) := do
  if ← Scanner.accepts (Scanner.char '-') then return (true, true)
  else return (false, ← Scanner.accepts (Scanner.char '+'))

/-- Decimal digits of which a leading zero stands alone. -/
def decimalDigits : Scanner (List Char) := do
  let digits ← digitGroups Char.isDigit
  Scanner.require (digits.length == 1 || digits.head? != some '0')
  return digits

/-- An integer of 64 bits. -/
def inRange (n : Int) : Scanner Datum := do
  Scanner.require (isWord n)
  return .int n

/-- An integer in base sixteen, eight, two or ten. -/
def integer : Scanner Datum :=
  (do
    Scanner.word "0x"
    inRange (digitsValue 16 (← digitGroups fun c => (digitValue? c).isSome)))
  <|> (do
    Scanner.word "0o"
    inRange (digitsValue 8 (← digitGroups fun c => '0' ≤ c && c ≤ '7')))
  <|> (do
    Scanner.word "0b"
    inRange (digitsValue 2 (← digitGroups fun c => c == '0' || c == '1')))
  <|> (do
    let (negative, _) ← sign
    let n : Int := digitsValue 10 (← decimalDigits)
    inRange (if negative then -n else n))

/-- The float nearest to a decimal number; numbers far out of range are cut off first. -/
def nearest (digits : List Char) (exponent : Int) : Float :=
  let n := digitsValue 10 digits
  -- zeros in front do not count
  let magnitude := exponent + (Nat.toDigits 10 n).length
  if n == 0 || magnitude < -400 then 0
  else if 400 < magnitude then 1 / 0
  else Float.ofScientific n (exponent < 0) exponent.natAbs

/-- A float: an integer with a fraction, an exponent or both, or one of the special values. A decimal
that is too large is none, unless it is negative. -/
def float : Scanner Datum :=
  (do
    let (negative, _) ← sign
    let whole ← decimalDigits
    let fraction ← Scanner.optional do
      Scanner.char '.'
      digitGroups Char.isDigit
    let exponent ← Scanner.optional do
      Scanner.char 'e' <|> Scanner.char 'E'
      let (minus, _) ← sign
      let n : Int := digitsValue 10 (← digitGroups Char.isDigit)
      return if minus then -n else n
    Scanner.require (fraction.isSome || exponent.isSome)
    let fraction := fraction.getD []
    let x := nearest (whole ++ fraction) (exponent.getD 0 - fraction.length)
    Scanner.require (negative || !x.isInf)
    return .float (if negative then -x else x))
  <|> (do
    let (negative, _) ← sign
    Scanner.word "inf"
    return .float (if negative then -1 / 0 else 1 / 0))
  <|> (do
    discard sign
    Scanner.word "nan"
    return .float (0 / 0))

/-- A number of exactly `width` digits. -/
def fixed (width : Nat) : Scanner Nat := do
  let digits ← Scanner.takeUpTo width Char.isDigit
  Scanner.require (digits.length == width)
  return digitsValue 10 digits

/-- A calendar date. -/
def date : Scanner Unit := do
  let year ← fixed 4
  Scanner.char '-'
  let month ← fixed 2
  Scanner.char '-'
  let day ← fixed 2
  Scanner.require (1 ≤ month ∧ month ≤ 12)
  Scanner.require (1 ≤ day ∧ day ≤ DateTime.daysIn year month)

/-- A time of day with an optional fraction of the second. -/
def time : Scanner Unit := do
  Scanner.require ((← fixed 2) ≤ 23)
  Scanner.char ':'
  Scanner.require ((← fixed 2) ≤ 59)
  Scanner.char ':'
  Scanner.require ((← fixed 2) ≤ 60)
  if ← Scanner.accepts (Scanner.char '.') then discard (Scanner.takeWhile1 Char.isDigit)

/-- The distance from universal time. -/
def offset : Scanner Unit :=
  Scanner.char 'Z' <|> Scanner.char 'z'
  <|> (do
    Scanner.char '+' <|> Scanner.char '-'
    Scanner.require ((← fixed 2) ≤ 23)
    Scanner.char ':'
    Scanner.require ((← fixed 2) ≤ 59))

/-- A date, a time or both. No setting is of this kind, so the value stands for itself only. -/
def moment : Scanner Datum := do
  let start ← get
  (do
    date
    if ← Scanner.accepts do
        Scanner.char 'T' <|> Scanner.char 't' <|> Scanner.char ' '
        time
    then discard (Scanner.optional offset))
  <|> time
  let taken := start.take (start.length - (← get).length)
  return .record [("moment", .string (String.ofList taken))]

/-! ## Values and documents -/

/-- A key with its value on one line. -/
def pair (value : Scanner Datum) : Scanner (List String × String × Datum) := do
  let (path, last) ← key
  Scanner.char '='
  blanks
  let d ← value
  blanks
  return (path, last, d)

/-- An array; a comma may stand after the last item. -/
def array (item : Scanner Datum) : Scanner Datum := do
  Scanner.char '['
  gap
  if ← Scanner.accepts (Scanner.char ']') then return .list []
  let spaced : Scanner Datum := do let d ← item; gap; return d
  let first ← spaced
  let rest ← Scanner.many do Scanner.char ','; gap; spaced
  if ← Scanner.accepts (Scanner.char ',') then gap
  Scanner.char ']'
  return .list (first :: rest)

/-- A table on one line. -/
def inlineTable (value : Scanner Datum) : Scanner Datum := do
  Scanner.char '\x7b'
  blanks
  if ← Scanner.accepts (Scanner.char '\x7d') then return .record []
  let pairs ← Scanner.sepBy1 (pair value) (Scanner.char ',')
  Scanner.char '\x7d'
  match (Table.empty false false).defineAll pairs with
  | some t => return t.toDatum
  | none => failure

/-- A value that is neither an array nor a table. -/
def scalar : Scanner Datum := do
  match ← Scanner.peek with
  | some 't' =>
    Scanner.word "true"
    return .bool true
  | some 'f' =>
    Scanner.word "false"
    return .bool false
  | some c =>
    if c == '"' || c == tick then return .string (← string)
    else moment <|> float <|> integer
  | none => failure

/-- A value in which arrays and inline tables are nested up to a limit. -/
def value : Nat → Scanner Datum
  | 0 => scalar
  | limit + 1 => do
    match ← Scanner.peek with
    | some '[' => array (value limit)
    | some '\x7b' => inlineTable (value limit)
    | _ => scalar

/-- What one line of a document says. -/
inductive Line where
  | blank
  | pair (path : List String) (key : String) (d : Datum)
  | header (isArray : Bool) (path : List String) (key : String)

/-- A header line. -/
def header : Scanner Line := do
  Scanner.char '['
  let isArray ← Scanner.accepts (Scanner.char '[')
  let (path, last) ← key
  Scanner.char ']'
  if isArray then Scanner.char ']'
  return .header isArray path last

/-- One line with the comment at its end. -/
def line : Scanner Line := do
  blanks
  let l ← header
    <|> (do let (path, last, d) ← pair (value nestingLimit); return .pair path last d)
    <|> pure .blank
  blanks
  comment
  return l

/-- The lines of a document. -/
def lines : Scanner (List Line) := do
  discard (Scanner.accepts (Scanner.char (Char.ofNat 0xFEFF)))
  Scanner.sepBy1 line newline

/-- The pairs up to the next header, and the lines from there on. -/
def body : List Line → List (List String × String × Datum) × List Line
  | [] => ([], [])
  | .blank :: rest => body rest
  | .pair path k d :: rest =>
    let (pairs, after) := body rest
    ((path, k, d) :: pairs, after)
  | l@(.header ..) :: rest => ([], l :: rest)

/-- Enters the headed sections of a document one after the other; the number of lines bounds the
number of sections. -/
def sections : Nat → List Line → Table → Option Table
  | 0, _, t => some t
  | _, [], t => some t
  | n + 1, .header isArray path k :: rest, t => do
    let (pairs, after) := body rest
    sections n after (← t.openSection isArray path k pairs)
  | _, _ :: _, _ => none

/-- The value that a text writes. -/
def parse? (text : String) : Option Datum := do
  let ls ← lines.parse? text.toList
  let (pairs, after) := body ls
  let root ← (Table.empty false false).defineAll pairs
  return (← sections ls.length after root).toDatum

end Toml

end QueryLowering
