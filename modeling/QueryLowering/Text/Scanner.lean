/-!
# Scanners

A scanner reads a value off the front of a list of characters, or fails. Failure gives the
characters back, so alternatives are tried in order with `<|>`. Repetition is bounded by the number
of characters that are left, so every scanner is total.
-/

namespace QueryLowering

/-- A scanner takes the characters that are left and gives a value and the characters after it. -/
abbrev Scanner (α : Type) : Type := StateT (List Char) Option α

namespace Scanner

section

variable {α β : Type}

/-- The value of a scanner that reads the whole of a text. -/
def parse? (s : Scanner α) (text : List Char) : Option α :=
  match s.run text with
  | some (a, []) => some a
  | _ => none

/-- The next character, which stays. -/
def peek : Scanner (Option Char) := do return (← get).head?

/-- Takes the next character if it satisfies a condition. -/
def satisfy (p : Char → Bool) : Scanner Char := do
  match ← get with
  | c :: rest => if p c then set rest; return c else failure
  | [] => failure

/-- Takes one given character. -/
def char (c : Char) : Scanner Unit := discard (satisfy (· == c))

/-- Takes a given run of characters. -/
def literal : List Char → Scanner Unit
  | [] => pure ()
  | c :: cs => do char c; literal cs

/-- Takes the characters of a given word. -/
def word (s : String) : Scanner Unit := literal s.toList

/-- Takes the longest run of characters that satisfy a condition. -/
def takeWhile (p : Char → Bool) : Scanner (List Char) := do
  let cs ← get
  set (cs.dropWhile p)
  return cs.takeWhile p

/-- Takes the longest run of characters that satisfy a condition, which may not be empty. -/
def takeWhile1 (p : Char → Bool) : Scanner (List Char) := do
  match ← takeWhile p with
  | [] => failure
  | cs => return cs

/-- Takes at most a given number of characters that satisfy a condition. -/
def takeUpTo (limit : Nat) (p : Char → Bool) : Scanner (List Char) := do
  let cs ← get
  let taken := (cs.take limit).takeWhile p
  set (cs.drop taken.length)
  return taken

/-- Reads a value if there is one. -/
def optional (s : Scanner α) : Scanner (Option α) := (some <$> s) <|> pure none

/-- Whether a scanner succeeds here; its characters are taken if it does. -/
def accepts (s : Scanner α) : Scanner Bool := do return (← optional s).isSome

/-- Fails unless a condition holds. -/
def require (p : Bool) : Scanner Unit := if p then pure () else failure

/-- At most `n` repetitions of a scanner. -/
def upTo (s : Scanner α) : Nat → Scanner (List α)
  | 0 => pure []
  | n + 1 => do
    match ← optional s with
    | none => return []
    | some a => return a :: (← upTo s n)

/-- Zero or more repetitions of a scanner; one that takes no character is repeated at most once per
character that is left. -/
def many (s : Scanner α) : Scanner (List α) := do upTo s (← get).length

/-- At most `n` further items, each after a separator; once the separator is read the item must
follow. -/
def furtherUpTo (item : Scanner α) (separator : Scanner β) : Nat → Scanner (List α)
  | 0 => pure []
  | n + 1 => do
    if ← accepts separator then
      let a ← item
      return a :: (← furtherUpTo item separator n)
    else
      return []

/-- One or more items with separators between them. -/
def sepBy1 (item : Scanner α) (separator : Scanner β) : Scanner (List α) := do
  let first ← item
  return first :: (← furtherUpTo item separator (← get).length)

end

end Scanner

/-- The value of a digit in base ten or sixteen, either case. -/
def digitValue? (c : Char) : Option Nat :=
  if '0' ≤ c ∧ c ≤ '9' then some (c.toNat - 48)
  else if 'a' ≤ c ∧ c ≤ 'f' then some (c.toNat - 87)
  else if 'A' ≤ c ∧ c ≤ 'F' then some (c.toNat - 55)
  else none

/-- The number that a run of digits writes in a base; characters that are no digits count as zero. -/
def digitsValue (base : Nat) (digits : List Char) : Nat :=
  digits.foldl (fun n c => n * base + (digitValue? c).getD 0) 0

/-- The decimal digits of a number, with zeros in front up to a least width. -/
def padded (width n : Nat) : String :=
  let digits := Nat.toDigits 10 n
  String.ofList (List.replicate (width - digits.length) '0' ++ digits)

end QueryLowering
