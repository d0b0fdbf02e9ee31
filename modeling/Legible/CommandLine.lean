import Legible.Run

/-!
# The command line

Arguments are read from left to right. An option that takes a value takes it after an equals sign or
from the next argument; given twice, the last value counts. Of the two options for the line ending
the last one counts. Everything that is no option is a path, and so is everything after `--`.
-/

namespace Legible.CommandLine

inductive Request where
  | run (overrides : Overrides) (config : Option String)
  | version
  | help
deriving Repr, DecidableEq

/-- The options read so far. -/
structure Options where
  /-- The paths, the last one first. -/
  paths : List String := []
  lineEnding : Option LineEnding := none
  dump : Bool := false
  dumpMissing : Bool := false
  symbols : Option String := none
  renameLocals : Bool := false
  config : Option String := none
deriving Repr, DecidableEq

/-- What a run does: recording missing names needs the option to record. -/
def Options.mode (o : Options) : RunMode :=
  if o.dump then .dump (if o.dumpMissing then .missing else .valid) else .fix

/-- The request at the end of a command line, which has to name a path. -/
def Options.request? (o : Options) : Option Request :=
  if o.paths.isEmpty then none
  else
    let overrides : Overrides :=
      { paths := o.paths.reverse
        symbols := o.symbols
        lineEnding := o.lineEnding
        renameLocals := o.renameLocals
        mode := o.mode }
    some (.run overrides o.config)

/-- The options with a path added; the empty text is no path. -/
def Options.addPath? (o : Options) (path : String) : Option Options :=
  if path.isEmpty then none else some { o with paths := path :: o.paths }

/-- What is read next: the options go on, or the request is made. -/
inductive Progress where
  | options (o : Options)
  | done (r : Request)
deriving Repr, DecidableEq

/-- An option that takes no value. -/
def flag? (o : Options) : String → Option Progress
  | "cr" => some (.options { o with lineEnding := some .cr })
  | "crlf" => some (.options { o with lineEnding := some .crlf })
  | "dump" => some (.options { o with dump := true })
  | "dump-missing" => some (.options { o with dumpMissing := true })
  | "rename-locals" => some (.options { o with renameLocals := true })
  | "verbose" => some (.options o)
  | "version" => some (.done .version)
  | "help" => some (.done .help)
  | _ => none

def takesValue (name : String) : Bool := name == "symbols" || name == "config"

def setValue? (o : Options) (name value : String) : Option Options :=
  if value.isEmpty then none
  else
    match name with
    | "symbols" => some { o with symbols := some value }
    | "config" => some { o with config := some value }
    | _ => none

/-- Single letters after one dash, each an option. -/
def letters? (o : Options) : List Char → Option Progress
  | [] => some (.options o)
  | 'v' :: rest => letters? o rest
  | 'V' :: _ => some (.done .version)
  | 'h' :: _ => some (.done .help)
  | _ => none

/-- Whether an argument is read as an option where one may stand. -/
def isOption (argument : String) : Bool :=
  argument.toList.head? == some '-' && argument != "-"

/-- The name and, after an equals sign, the value of an option. -/
def splitOption (option : List Char) : String × Option String :=
  match option.dropWhile (· ≠ '=') with
  | [] => (String.ofList option, none)
  | _ :: value => (String.ofList (option.takeWhile (· ≠ '=')), some (String.ofList value))

/-- An argument that is complete in itself. -/
def argument? (o : Options) (argument : String) : Option Progress :=
  match argument.toList with
  | '-' :: '-' :: option =>
    match splitOption option with
    | (name, none) => flag? o name
    | (name, some value) => (setValue? o name value).map .options
  | '-' :: c :: rest => letters? o (c :: rest)
  | _ => (o.addPath? argument).map .options

/-- The name of an option that takes its value from the next argument. -/
def awaited? (argument : String) : Option String :=
  match argument.toList with
  | '-' :: '-' :: name =>
    if takesValue (String.ofList name) then some (String.ofList name) else none
  | _ => none

def readPaths (o : Options) (paths : List String) : Option Request :=
  (paths.foldlM Options.addPath? o).bind Options.request?

/-- Reads arguments; `awaited` is the option whose value comes next. -/
def readFrom (o : Options) (awaited : Option String) : List String → Option Request
  | [] => if awaited.isSome then none else o.request?
  | argument :: rest =>
    match awaited with
    | some name =>
      if isOption argument then none
      else (setValue? o name argument).bind fun o => readFrom o none rest
    | none =>
      if argument == "--" then readPaths o rest
      else
        match awaited? argument with
        | some name => readFrom o (some name) rest
        | none =>
          match argument? o argument with
          | some (.options o) => readFrom o none rest
          | some (.done r) => some r
          | none => none

/-- The request that arguments make; `none` if they make none. -/
def read (arguments : List String) : Option Request := readFrom {} none arguments

def versionLine : String := "javafix 0.1.0\n"

/-- The lines that show how the program is used. -/
def usage : String :=
  "Usage: javafix [OPTIONS] <PATHS>...\n\n" ++
  "Options:\n" ++
  "      --cr             Terminate lines with CR\n" ++
  "      --crlf           Terminate lines with CRLF\n" ++
  "      --dump           Record resolved symbols instead of fixing\n" ++
  "      --dump-missing   With --dump, record only unresolved references\n" ++
  "      --symbols PATH   Symbol dictionary\n" ++
  "      --rename-locals  Name meaningless locals and parameters after their type\n" ++
  "      --config PATH    Settings file\n" ++
  "  -v, --verbose        Say more\n" ++
  "  -h, --help           Print help\n" ++
  "  -V, --version        Print version\n"

/-- What a program leaves behind besides its files. -/
structure Exit where
  status : Nat
  stdout : String := ""
  stderr : String := ""
  summary : Option Summary := none
deriving Repr, DecidableEq

variable {m : Type → Type} [Monad m] [Disk m]

/-- Does a run with its settings file; `symbols` is the default path of the dictionary. -/
def runRequest (parser : FrontEnd) (symbols : String) (overrides : Overrides)
    (config : Option String) : ExceptT Error m Run.Outcome := do
  let file ← loadSettings config
  run parser (Settings.resolve symbols file overrides)

def execute (parser : FrontEnd) (symbols : String) (arguments : List String) : m Exit := do
  match read arguments with
  | none => return { status := 2, stderr := usage }
  | some .version => return { status := 0, stdout := versionLine }
  | some .help => return { status := 0, stdout := usage }
  | some (.run overrides config) =>
    match ← (runRequest parser symbols overrides config).run with
    | .error e => return { status := 1, stderr := "Error: " ++ e.message ++ "\n" }
    | .ok outcome =>
      let status := if outcome.summary.isSuccess then 0 else 1
      return { status, stdout := outcome.printed, summary := some outcome.summary }

end Legible.CommandLine
