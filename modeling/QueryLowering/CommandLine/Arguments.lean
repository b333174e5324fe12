import QueryLowering.Dialect.Basic

/-!
# Command-line arguments

Arguments are read from left to right; the first one that is not understood, or that asks for help,
decides. Options may stand before and after the query, each at most once.
-/

namespace QueryLowering

namespace CommandLine

/-- What the arguments ask to compile. -/
structure Invocation where
  /-- The file that declares the schema. -/
  model : Option String
  dialect : Option Dialect
  noPreprocess : Bool
  verbose : Bool
  /-- The file that holds the expression; a hyphen stands for standard input. -/
  query : String
deriving DecidableEq, Repr

/-- What the arguments ask for. -/
inductive Request where
  | compile (i : Invocation)
  | help
  | version
deriving DecidableEq, Repr

/-- The arguments read so far. -/
structure Arguments where
  model : Option String := none
  dialect : Option Dialect := none
  noPreprocess : Bool := false
  verbose : Bool := false
  query : Option String := none

namespace Arguments

/-- The request that is complete. Without a query there is none. -/
def request? (a : Arguments) : Option Request :=
  a.query.map fun query => .compile ⟨a.model, a.dialect, a.noPreprocess, a.verbose, query⟩

/-- Names the file that declares the schema. -/
def setModel (a : Arguments) (path : String) : Option Arguments :=
  if a.model.isSome || path.isEmpty then none else some { a with model := some path }

/-- Names the dialect. -/
def setDialect (a : Arguments) (name : String) : Option Arguments :=
  if a.dialect.isSome then none
  else (Dialect.ofName? name).map fun d => { a with dialect := some d }

/-- Turns simplification off. -/
def setNoPreprocess (a : Arguments) : Option Arguments :=
  if a.noPreprocess then none else some { a with noPreprocess := true }

/-- Turns messages on. -/
def setVerbose (a : Arguments) : Option Arguments :=
  if a.verbose then none else some { a with verbose := true }

/-- Names the query. -/
def setQuery (a : Arguments) (query : String) : Option Arguments :=
  if a.query.isSome then none else some { a with query := some query }

end Arguments

/-- Whether an argument has the form of an option. A hyphen alone has not. -/
def isOption (arg : String) : Bool :=
  match arg.toList with
  | '-' :: _ :: _ => true
  | _ => false

/-- What follows two hyphens. -/
def longOption? (arg : String) : Option (List Char) :=
  match arg.toList with
  | '-' :: '-' :: rest => some rest
  | _ => none

/-- The letters that follow one hyphen. -/
def shortOptions? (arg : String) : Option (List Char) :=
  match arg.toList with
  | '-' :: c :: rest => some (c :: rest)
  | _ => none

/-- The name of an option and the value after its first equals sign. -/
def splitOption (option : List Char) : String × Option String :=
  match option.span (· ≠ '=') with
  | (name, _ :: value) => (String.ofList name, some (String.ofList value))
  | (name, []) => (String.ofList name, none)

/-- Reads the letters of an argument. The outer result is none if a letter is not understood; a
letter that asks about the program decides. -/
def readLetters : Arguments → List Char → Option (Arguments ⊕ Request)
  | a, [] => some (.inl a)
  | a, 'v' :: rest => a.setVerbose.bind (readLetters · rest)
  | _, 'h' :: _ => some (.inr .help)
  | _, 'V' :: _ => some (.inr .version)
  | _, _ => none

/-- The option that sets a value by name. -/
def valueOption? : String → Option (Arguments → String → Option Arguments)
  | "model" => some Arguments.setModel
  | "dialect" => some Arguments.setDialect
  | _ => none

/-- The option that stands alone, by name. -/
def flagOption? : String → Option (Arguments → Option Arguments)
  | "no-preprocess" => some Arguments.setNoPreprocess
  | "verbose" => some Arguments.setVerbose
  | _ => none

/-- Reads arguments that are no options. -/
def readPlain : Arguments → List String → Option Request
  | a, [] => a.request?
  | a, arg :: rest => (a.setQuery arg).bind (readPlain · rest)

/-- Reads arguments. A value option takes the next argument unless that is an option. -/
def readArguments : Arguments → List String → Option Request
  | a, [] => a.request?
  | a, arg :: rest =>
    if arg = "--" then readPlain a rest
    else
      match longOption? arg, shortOptions? arg with
      | some option, _ =>
        match splitOption option with
        | ("help", none) => some .help
        | ("version", none) => some .version
        | (name, some value) =>
          ((valueOption? name).bind fun set => set a value).bind (readArguments · rest)
        | (name, none) =>
          match valueOption? name, rest with
          | some set, value :: rest =>
            if isOption value then none else (set a value).bind (readArguments · rest)
          | some _, [] => none
          | none, rest => ((flagOption? name).bind fun set => set a).bind (readArguments · rest)
      | none, some letters =>
        match readLetters a letters with
        | some (.inl a) => readArguments a rest
        | some (.inr request) => some request
        | none => none
      | none, none => (a.setQuery arg).bind (readArguments · rest)

/-- The request that arguments make, if they make one. -/
def Request.ofArguments? (args : List String) : Option Request := readArguments {} args

/-! ## Answers about the program -/

/-- What the program does, in one line. -/
def summary : String :=
  "Compiles LINQ-style query expression trees into a SQL expression tree and SQL text"

/-- The text that explains the arguments of a program of a given name. -/
def helpText (program : String) : String :=
  "\n".intercalate
    [summary,
      "",
      "Usage: " ++ program ++ " [OPTIONS] <QUERY>",
      "",
      "Arguments:",
      "  <QUERY>  Expression tree as JSON, or \x60-\x60 to read stdin",
      "",
      "Options:",
      "      --model <MODEL>      Model file (defaults to the user config directory's " ++ program
        ++ "/model.toml)",
      "      --dialect <DIALECT>  Target dialect: sqlserver or postgres. Overrides the model file",
      "      --no-preprocess      Skip the expression rewrites that run before conversion",
      "  -v, --verbose            Log translation decisions to stderr",
      "  -h, --help               Print help",
      "  -V, --version            Print version"]

/-- The text that names the program and its version. -/
def versionText (program : String) : String := program ++ " 0.1.0"

/-- The text that follows arguments that are not understood. -/
def usageText (program : String) : String := "Usage: " ++ program ++ " [OPTIONS] <QUERY>"

end CommandLine

end QueryLowering
