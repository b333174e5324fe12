import QueryLowering.Dialect.Basic
import QueryLowering.Render.Fragment
import QueryLowering.Sql.Operator
import QueryLowering.Text.Quoted

/-!
# Rules of the dialects

How each dialect quotes names, numbers parameters, writes truth values, joins, types and dates, and
limits the number of rows. All else is written the same way in both.
-/

namespace QueryLowering

open Sql

namespace Dialect

/-! ## Names, parameters and literals -/

/-- A name between quotes. -/
def quote : Dialect → String → String
  | sqlServer, name => Quoted.write '[' ']' name
  | postgres, name => Quoted.write '"' '"' name

/-- The placeholder of a parameter, which has a name and a number. -/
def placeholder : Dialect → String → Nat → String
  | sqlServer, name, _ => "@" ++ name
  | postgres, _, index => "$" ++ toString index

/-- A truth value. -/
def boolean : Dialect → Bool → String
  | sqlServer, b => if b then "1" else "0"
  | postgres, b => if b then "TRUE" else "FALSE"

/-- A truth value in the place of a condition. -/
def booleanCondition : Dialect → Bool → String
  | sqlServer, b => if b then "1 = 1" else "1 = 0"
  | postgres, b => if b then "TRUE" else "FALSE"

/-- A date and time. -/
def dateTime : Dialect → DateTime → String
  | sqlServer, t => Quoted.string (t.dateText ++ "T" ++ t.clockText ++ t.milliText)
  | postgres, t => "TIMESTAMP " ++ Quoted.string (t.dateText ++ " " ++ t.clockText ++ t.fractionText)

/-! ## Conditions and values -/

/-- A truth value in the place of a condition. -/
def truthy : Dialect → Fragment → Fragment
  | sqlServer, f => f ++ " = 1"
  | postgres, f => f

/-- A condition in the place of a value. -/
def predicateValue : Dialect → Fragment → Fragment
  | sqlServer, f => "CASE WHEN " ++ f ++ " THEN 1 ELSE 0 END"
  | postgres, f => f.parens

/-- The condition that always holds. -/
def alwaysTrue : Dialect → String
  | sqlServer => "1 = 1"
  | postgres => "TRUE"

/-! ## Operators, functions and types -/

/-- The operator that concatenates texts. -/
def concatOperator : Dialect → String
  | sqlServer => "+"
  | postgres => "||"

/-- The name of a function. -/
def functionName : Dialect → String → String
  | postgres, "LEN" => "LENGTH"
  | postgres, "CEILING" => "CEIL"
  | _, name => name

/-- The form of a function without arguments that is not written as a call. -/
def niladic? : Dialect → String → Option String
  | sqlServer, "CURRENT_TIMESTAMP" => some "GETDATE()"
  | sqlServer, "CURRENT_UTC_TIMESTAMP" => some "GETUTCDATE()"
  | sqlServer, "CURRENT_DATE" => some "CAST(GETDATE() AS DATE)"
  | postgres, "CURRENT_TIMESTAMP" => some "CURRENT_TIMESTAMP"
  | postgres, "CURRENT_UTC_TIMESTAMP" =>
    some ("(CURRENT_TIMESTAMP AT TIME ZONE " ++ Quoted.string "UTC" ++ ")")
  | postgres, "CURRENT_DATE" => some "CURRENT_DATE"
  | _, _ => none

/-- The function that counts rows in 64 bits. -/
def countBig : Dialect → String
  | sqlServer => "COUNT_BIG"
  | postgres => "COUNT"

/-- The name of a column type. -/
def dataType : Dialect → DataType → String
  | sqlServer, .boolean => "BIT"
  | sqlServer, .integer => "INT"
  | sqlServer, .bigInt => "BIGINT"
  | sqlServer, .decimal => "DECIMAL(38, 10)"
  | sqlServer, .float => "FLOAT"
  | sqlServer, .text => "NVARCHAR(MAX)"
  | sqlServer, .dateTime => "DATETIME2"
  | sqlServer, .uuid => "UNIQUEIDENTIFIER"
  | postgres, .boolean => "BOOLEAN"
  | postgres, .integer => "INTEGER"
  | postgres, .bigInt => "BIGINT"
  | postgres, .decimal => "NUMERIC"
  | postgres, .float => "DOUBLE PRECISION"
  | postgres, .text => "TEXT"
  | postgres, .dateTime => "TIMESTAMP"
  | postgres, .uuid => "UUID"

/-- The keyword of a join, and whether a condition follows. -/
def joinKeyword : Dialect → JoinKind → String × Bool
  | _, .inner => ("INNER JOIN", true)
  | _, .left => ("LEFT JOIN", true)
  | _, .right => ("RIGHT JOIN", true)
  | _, .fullOuter => ("FULL OUTER JOIN", true)
  | _, .cross => ("CROSS JOIN", false)
  | sqlServer, .crossApply => ("CROSS APPLY", false)
  | sqlServer, .outerApply => ("OUTER APPLY", false)
  | postgres, .crossApply => ("CROSS JOIN LATERAL", false)
  | postgres, .outerApply => ("LEFT JOIN LATERAL", true)

/-! ## Dates -/

/-- The field of a date that a unit reads. -/
def field : DatePart → String
  | .year => "YEAR"
  | .month => "MONTH"
  | .day => "DAY"
  | .hour => "HOUR"
  | .minute => "MINUTE"
  | .second => "SECOND"
  | .millisecond => "MILLISECONDS"

/-- A field of a date. -/
def datePart : Dialect → DatePart → Fragment → Fragment
  | sqlServer, part, f => "DATEPART(" ++ part.name ++ ", " ++ f ++ ")"
  | postgres, part, f => "EXTRACT(" ++ field part ++ " FROM " ++ f ++ ")"

/-- A date some units later. -/
def dateAdd : Dialect → DatePart → Fragment → Fragment → Fragment
  | sqlServer, part, amount, f => "DATEADD(" ++ part.name ++ ", " ++ amount ++ ", " ++ f ++ ")"
  | postgres, part, amount, f =>
    (Fragment.parens (f ++ " + " ++ amount.parens ++ " * INTERVAL "
      ++ Quoted.string ("1 " ++ part.name))).metLike [amount, f]

/-- The number of seconds between two dates. -/
def seconds (start stop : Fragment) : Fragment :=
  "EXTRACT(EPOCH FROM (" ++ stop ++ " - " ++ start ++ "))"

/-- The number of year ends between two dates. -/
def years (start stop : Fragment) : Fragment :=
  "(EXTRACT(YEAR FROM " ++ stop ++ ") - EXTRACT(YEAR FROM " ++ start ++ "))"

/-- The number of units between two dates, from their fields or from the seconds between them. -/
def difference (start stop : Fragment) : DatePart → Fragment
  | .year => years start stop
  | .month =>
    "(" ++ years start stop ++ " * 12 + EXTRACT(MONTH FROM " ++ stop ++ ") - EXTRACT(MONTH FROM "
      ++ start ++ "))"
  | .day => "(CAST(" ++ stop ++ " AS DATE) - CAST(" ++ start ++ " AS DATE))"
  | .hour => "FLOOR(" ++ seconds start stop ++ " / 3600)"
  | .minute => "FLOOR(" ++ seconds start stop ++ " / 60)"
  | .second => "FLOOR(" ++ seconds start stop ++ ")"
  | .millisecond => "FLOOR(" ++ seconds start stop ++ " * 1000)"

/-- The number of units between two dates. -/
def dateDiff : Dialect → DatePart → Fragment → Fragment → Fragment
  | sqlServer, part, start, stop =>
    "DATEDIFF(" ++ part.name ++ ", " ++ start ++ ", " ++ stop ++ ")"
  | postgres, part, start, stop => (difference start stop part).metLike [start, stop]

/-! ## Clauses -/

/-- Whether a row limit without an offset stands at the head of a select. -/
def usesTop : Dialect → Bool
  | sqlServer => true
  | postgres => false

/-- Whether updates and deletions carry joins. -/
def modifiesThroughJoins : Dialect → Bool
  | sqlServer => true
  | postgres => false

/-- Whether a query inside another one may order rows that it does not page. -/
def ordersUnpagedSubqueries : Dialect → Bool
  | sqlServer => false
  | postgres => true

/-- The keyword in front of common table expressions of which one is recursive. -/
def recursiveKeyword : Dialect → String
  | sqlServer => ""
  | postgres => "RECURSIVE "

/-- The row offset of a dialect that asks for an ordering in front of it. -/
def offsetRows (ordered : Bool) (skip : Fragment) : Fragment :=
  (if ordered then "" else "ORDER BY (SELECT NULL) ") ++ "OFFSET " ++ skip ++ " ROWS"

/-- The clause that limits the number of rows. -/
def paging : Dialect → Option Fragment → Option Fragment → Bool → Option Fragment
  | sqlServer, _, none, _ => none
  | sqlServer, none, some skip, ordered => some (offsetRows ordered skip)
  | sqlServer, some top, some skip, ordered =>
    some ((offsetRows ordered skip ++ " FETCH NEXT " ++ top ++ " ROWS ONLY").metLike [top, skip])
  | postgres, none, none, _ => none
  | postgres, some top, none, _ => some ("LIMIT " ++ top)
  | postgres, none, some skip, _ => some ("OFFSET " ++ skip)
  | postgres, some top, some skip, _ => some ("LIMIT " ++ top ++ " OFFSET " ++ skip)

end Dialect

end QueryLowering
