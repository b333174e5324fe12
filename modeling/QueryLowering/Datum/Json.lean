import QueryLowering.Datum.Record
import QueryLowering.Decimal.Reading

/-!
# JSON text
-/

namespace QueryLowering

namespace Json

/-- In a JSON text only null stands for contents that are missing. -/
def manner : Manner := { emptyRecord := false, emptyList := false, surplus := false }

/-! ## Reading -/

/-- The characters between tokens. -/
def isBlank (c : Char) : Bool := c == ' ' || c == '\t' || c == '\n' || c == '\r'

/-- Skips the characters between tokens. -/
def blanks : Scanner Unit := discard (Scanner.takeWhile isBlank)

/-- Four hexadecimal digits. -/
def unit16 : Scanner Nat := do
  let digits ← Scanner.takeUpTo 4 fun c => (digitValue? c).isSome
  Scanner.require (digits.length == 4)
  return digitsValue 16 digits

/-- The character of one or two 16-bit units; a surrogate must have its partner. -/
def unicodeEscape : Scanner Char := do
  let first ← unit16
  if 0xD800 ≤ first ∧ first < 0xDC00 then
    Scanner.word "\\u"
    let second ← unit16
    Scanner.require (0xDC00 ≤ second ∧ second < 0xE000)
    return Char.ofNat (0x10000 + (first - 0xD800) * 0x400 + (second - 0xDC00))
  else
    Scanner.require (!(0xDC00 ≤ first ∧ first < 0xE000))
    return Char.ofNat first

/-- The character that stands after a backslash. -/
def escape : Scanner Char := do
  match ← Scanner.satisfy fun _ => true with
  | '"' => return '"'
  | '\\' => return '\\'
  | '/' => return '/'
  | 'b' => return '\x08'
  | 'f' => return '\x0c'
  | 'n' => return '\n'
  | 'r' => return '\r'
  | 't' => return '\t'
  | 'u' => unicodeEscape
  | _ => failure

/-- The rest of a string up to its closing quote, given the characters read so far, the latest
first. Each round takes a character, so the number of characters left bounds the rounds. -/
def stringRest : Nat → List Char → Scanner String
  | 0, _ => failure
  | fuel + 1, read => do
    let c ← Scanner.satisfy fun c => 0x20 ≤ c.toNat
    if c == '"' then return String.ofList read.reverse
    else if c == '\\' then
      let e ← escape
      stringRest fuel (e :: read)
    else stringRest fuel (c :: read)

/-- Digits before the point: a zero stands alone. -/
def whole : Scanner (List Char) := do
  let digits ← Scanner.digits
  Scanner.require (digits.length == 1 || digits.head? != some '0')
  return digits

/-- Gives a float its sign. -/
def signed (negative : Bool) (x : Float) : Float := if negative then -x else x

/-- A number. Without fraction and exponent it is an integer if it fits into 64 bits, and minus zero
is a float. -/
def number : Scanner Datum := do
  let negative ← Scanner.accepts (Scanner.char '-')
  let s := Significand.ofWhole (← whole)
  let fraction ← Scanner.optional (Scanner.char '.')
  let s ←
    if fraction.isSome then do
      let digits ← Scanner.digits
      pure (s.withFraction digits)
    else pure s
  let marked ← Scanner.accepts (Scanner.char 'e' <|> Scanner.char 'E')
  if marked then
    let (minus, digits) ← Scanner.exponent
    let s ← (s.withExponent minus digits : Option Significand)
    return .float (signed negative (← (s.toFloat? : Option Float)))
  else if fraction.isSome || s.full then
    return .float (signed negative (← (s.toFloat? : Option Float)))
  else if !negative then return .int s.value
  else if s.value == 0 || !isWord (-s.value) then return .float (-(s.value.toUInt64.toFloat))
  else return .int (-s.value)

mutual

/-- A value without the blanks around it. -/
def value : Nat → Scanner Datum
  | 0 => failure
  | fuel + 1 => do
    match ← Scanner.peek with
    | some '"' =>
      Scanner.char '"'
      return .string (← stringRest (fuel + 1) [])
    | some '[' =>
      Scanner.char '['
      blanks
      if ← Scanner.accepts (Scanner.char ']') then return .list []
      else return .list (← items fuel)
    | some '\x7b' =>
      Scanner.char '\x7b'
      blanks
      if ← Scanner.accepts (Scanner.char '\x7d') then return .record []
      else return .record (← entries fuel)
    | some 'n' =>
      Scanner.word "null"
      return .null
    | some 't' =>
      Scanner.word "true"
      return .bool true
    | some 'f' =>
      Scanner.word "false"
      return .bool false
    | _ => number

/-- The items of a list, from the first one to the closing bracket. -/
def items : Nat → Scanner (List Datum)
  | 0 => failure
  | fuel + 1 => do
    let d ← value fuel
    blanks
    if ← Scanner.accepts (Scanner.char ',') then
      blanks
      return d :: (← items fuel)
    else
      Scanner.char ']'
      return [d]

/-- The entries of a record, from the first one to the closing brace. -/
def entries : Nat → Scanner (List (String × Datum))
  | 0 => failure
  | fuel + 1 => do
    Scanner.char '"'
    let name ← stringRest (fuel + 1) []
    blanks
    Scanner.char ':'
    blanks
    let d ← value fuel
    blanks
    if ← Scanner.accepts (Scanner.char ',') then
      blanks
      return (name, d) :: (← entries fuel)
    else
      Scanner.char '\x7d'
      return [(name, d)]

end

/-- The value that a text writes, with blanks around it. Each step takes a character, so twice the
number of characters bounds the depth of the steps. -/
def parse? (text : String) : Option Datum :=
  let cs := text.toList
  let whole : Scanner Datum := do
    blanks
    let d ← value (2 * cs.length + 2)
    blanks
    return d
  whole.parse? cs

/-! ## Writing -/

/-- A hexadecimal digit. -/
def hexDigit (n : Nat) : Char := (Nat.toDigits 16 n).headD '0'

/-- The written form of one character of a string. -/
def escaped (c : Char) : List Char :=
  if c == '"' then ['\\', '"']
  else if c == '\\' then ['\\', '\\']
  else if c == '\x08' then ['\\', 'b']
  else if c == '\x0c' then ['\\', 'f']
  else if c == '\n' then ['\\', 'n']
  else if c == '\r' then ['\\', 'r']
  else if c == '\t' then ['\\', 't']
  else if c.toNat < 0x20 then ['\\', 'u', '0', '0', hexDigit (c.toNat / 16), hexDigit (c.toNat % 16)]
  else [c]

/-- A string in quotes. -/
def quoted (s : String) : String := "\"" ++ String.ofList (s.toList.flatMap escaped) ++ "\""

section

/-! The text of floats is a parameter, since formats differ in it. -/

variable (float : Float → String)

mutual

/-- The compact text of a value. -/
def write : Datum → String
  | .null => "null"
  | .bool b => if b then "true" else "false"
  | .int n => toString n
  | .float x => float x
  | .string s => quoted s
  | .list items => "[" ++ ",".intercalate (writeItems items) ++ "]"
  | .record entries => "\x7b" ++ ",".intercalate (writeEntries entries) ++ "\x7d"

/-- The text of each item. -/
def writeItems : List Datum → List String
  | [] => []
  | d :: rest => write d :: writeItems rest

/-- The text of each entry. -/
def writeEntries : List (String × Datum) → List String
  | [] => []
  | (name, d) :: rest => (quoted name ++ ":" ++ write d) :: writeEntries rest

end

end

end Json

end QueryLowering
