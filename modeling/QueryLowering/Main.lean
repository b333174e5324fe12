import QueryLowering.CommandLine.Run

/-!
# The program

Reads arguments and files, and prints the compiled query.
-/

namespace QueryLowering.CommandLine

/-- The name under which the program finds its files. -/
def programName : String := "query-lowering"

/-- The contents of a file, if it can be read. -/
def contents? (path : String) : IO (Option String) := do
  try
    return some (← IO.FS.readFile path)
  catch _ => return none

/-- The file that declares the schema unless the arguments name another one. -/
def userModel : IO String := do
  let base ← match ← IO.getEnv "XDG_CONFIG_HOME" with
    | some dir => pure dir
    | none => pure ((← IO.getEnv "HOME").getD "." ++ "/.config")
  return base ++ "/" ++ programName ++ "/model.toml"

/-- The text of the query, if it can be read. -/
def queryText (query : String) : IO (Option String) := do
  if query = "-" then
    try
      return some (← (← IO.getStdin).readToEnd)
    catch _ => return none
  else contents? query

/-- Compiles the query in its file. -/
def Invocation.perform (i : Invocation) : IO Outcome := do
  let path ← match i.model with
    | some path => pure path
    | none => userModel
  return i.outcome path (← contents? path) (← queryText i.query)

/-- Does what the arguments ask for. -/
def answer (args : List String) : IO Outcome := do
  match Request.ofArguments? args with
  | some .help => return .success [helpText programName]
  | some .version => return .success [versionText programName]
  | some (.compile i) => i.perform
  | none => return .misuse programName

end QueryLowering.CommandLine

/-- The command line. -/
def main (args : List String) : IO UInt32 := do
  let outcome ← QueryLowering.CommandLine.answer args
  IO.print outcome.output
  IO.eprint outcome.errors
  return outcome.code.toUInt32
