import QueryLowering.CommandLine.Arguments
import QueryLowering.Compile
import QueryLowering.Expr.Codec
import QueryLowering.Text.Lines

/-!
# Running the program

What the program does with the contents of its files. A file that declares no schema leaves the
schema empty, and the options of the command line count more than those of the file.
-/

namespace QueryLowering

namespace CommandLine

/-- Why nothing was compiled. -/
inductive Failure where
  /-- The file that declares the schema cannot be read as a declaration. -/
  | model (path : String)
  /-- The schema is inconsistent. -/
  | schema (e : Error)
  /-- The expression cannot be found. -/
  | missingQuery (source : String)
  /-- The text of the expression is none. -/
  | query
  | compile (e : Error)
deriving DecidableEq, Repr

/-- The text of a failure. -/
def Failure.message : Failure → String
  | model path => "parsing model file " ++ path
  | schema e => "loading model: " ++ e.message
  | missingQuery source =>
    if source = "-" then "reading expression tree from stdin" else "reading expression tree " ++ source
  | query => "parsing expression tree"
  | compile e => "translating query: " ++ e.message

/-- The error that ends the program at once. -/
def Failure.crash? : Failure → Option Error
  | compile (.overflow op) => some (.overflow op)
  | _ => none

/-- The declaration that a file holds; a file that is missing declares nothing. -/
def declaration (path : String) : Option String → Except Failure Declaration
  | none => pure {}
  | some text =>
    match Declaration.ofToml? text with
    | some d => pure d
    | none => throw (.model path)

namespace Invocation

/-- The options of a file as far as the command line does not say otherwise. -/
def options (i : Invocation) (o : Options) : Options :=
  { o with dialect := i.dialect.getD o.dialect, preprocess := o.preprocess && !i.noPreprocess }

/-- The expression that the query holds. -/
def expression (i : Invocation) : Option String → Except Failure Expr
  | none => throw (.missingQuery i.query)
  | some text =>
    match Expr.ofJson? text with
    | some e => pure e
    | none => throw .query

/-- The line for a parameter: its placeholder and its value. -/
def parameterLine (d : Dialect) (index : Nat) (name : String) (v : Value) : String :=
  "-- " ++ d.placeholder name (index + 1) ++ " = " ++ Json.write FloatLayout.data.write v.toDatum

/-- The texts for a compiled query. -/
def texts (d : Dialect) (r : Rendered) : List String :=
  r.sql :: r.parameters.mapIdx fun index (name, v) => parameterLine d index name v

/-- The texts that the program prints, from the contents of the file that declares the schema and of
the query as far as there are such files. -/
def run (i : Invocation) (modelPath : String) (model query : Option String) :
    Except Failure (List String) := do
  let declared ← declaration modelPath model
  let options := i.options declared.options
  let schema ← declared.schema.mapError .schema
  let e ← i.expression query
  let compiler : Compiler := { schema, options }
  return texts options.dialect (← (compiler.compile e).mapError .compile)

end Invocation

/-! ## Outcomes -/

/-- What a run of the program leaves behind. -/
structure Outcome where
  /-- The exit code. -/
  code : Nat
  /-- The text on standard output. -/
  output : String
  /-- The text on standard error. -/
  errors : String
deriving DecidableEq, Repr

/-- Texts that are printed one below the other. -/
def printed (texts : List String) : String := String.join (texts.map (· ++ "\n"))

/-- What stands before the message of a failure. -/
def failureMark : String := "Error: "

namespace Outcome

/-- A run that printed texts. -/
def success (texts : List String) : Outcome := ⟨0, printed texts, ""⟩

/-- A run that failed. Some errors end the program at once. -/
def ofFailure (f : Failure) : Outcome :=
  match f.crash? with
  | some e => ⟨101, "", printed [e.message]⟩
  | none => ⟨1, "", printed [failureMark ++ f.message]⟩

/-- A run whose arguments were not understood. -/
def misuse (program : String) : Outcome := ⟨2, "", printed [usageText program]⟩

/-- The message of a failure, as far as it stands on the first line. -/
def failure? (o : Outcome) : Option String :=
  (Text.lines o.errors).findSome? fun line =>
    (failureMark.toList.isPrefixOf? line.toList).map String.ofList

end Outcome

/-- The outcome of a compilation. -/
def Invocation.outcome (i : Invocation) (modelPath : String) (model query : Option String) :
    Outcome :=
  match i.run modelPath model query with
  | .ok texts => .success texts
  | .error f => .ofFailure f

end CommandLine

end QueryLowering
