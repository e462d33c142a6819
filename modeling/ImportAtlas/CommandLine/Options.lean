import ImportAtlas.CommandLine.Grammar
import ImportAtlas.Drawing

/-!
# Options and commands

What the program can be asked to do. Some options belong to every command and may stand before or
after its name; given at both places, the later one counts. Without the name of a command the words
are those of `entropy`.

* `GlobalOptions`, `Command`: what a command line asks for.
* `withDefaultCommand`: the words with the name of a command.
* `Invocation.parse`: reads a command line.
-/

namespace ImportAtlas

namespace CommandLine

/-- The options of every command. -/
structure GlobalOptions where
  config : Option String := none
  root : Option String := none
  unwrapExports : Bool := false
  exclude : List String := []
  jsTsconfigPaths : Option Bool := none
  jsWorkspaces : Option Bool := none
  pythonExcludeConditionalImports : Bool := false
  noIgnore : Bool := false
  workers : Option Nat := none
  verbose : Bool := false
  quiet : Bool := false
  noColor : Bool := false
deriving DecidableEq, Repr, Inhabited

inductive OutputFormat where
  | text
  | json
deriving DecidableEq, Repr, Inhabited

/-- Where a graph comes from: entry files, or a file that a graph was saved to. -/
structure GraphSource where
  files : List String := []
  graph : Option String := none
deriving DecidableEq, Repr, Inhabited

/-- How a graph is drawn, its weighting left to the settings. -/
structure DrawingOptions where
  clusters : Bool := true
  legend : Bool := true
  theme : Drawing.Theme := .light
  direction : Drawing.Direction := .leftToRight
deriving DecidableEq, Repr, Inhabited

/-- What is to be done. -/
inductive Command where
  /-- Report entropies; `top` is how many modules are listed. -/
  | entropy (source : GraphSource) (weighting : Option Weighting) (top : Nat)
      (format : OutputFormat)
  | cycles (source : GraphSource) (format : OutputFormat)
  | check (files : List String) (format : OutputFormat)
  | tree (files : List String) (overview : Bool) (weighting : Option Weighting)
  | export (source : GraphSource) (json dot : Option String) (drawing : DrawingOptions)
  /-- Show sample settings, or write them to the settings file. -/
  | config (write : Bool)
  | completions (shell : String)
deriving DecidableEq, Repr, Inhabited

/-- What a command line asks for. -/
structure Invocation where
  options : GlobalOptions := {}
  command : Command
deriving DecidableEq, Repr, Inhabited

/-! ### What may stand on a command line -/

def boolWords : List String := ["true", "false"]

def globalParams : List Param :=
  [{ name := "config", role := .value .path, short := some 'c' },
    { name := "root", role := .value .path },
    { name := "unwrap-exports", role := .flag },
    { name := "exclude", role := .value .text, repeats := true },
    { name := "js-tsconfig-paths", role := .value (.oneOf boolWords) },
    { name := "js-workspaces", role := .value (.oneOf boolWords) },
    { name := "python-exclude-conditional-imports", role := .flag },
    { name := "no-ignore", role := .flag },
    { name := "workers", role := .value .natural },
    { name := "verbose", role := .flag, short := some 'v' },
    { name := "quiet", role := .flag, short := some 'q' },
    { name := "no-color", role := .flag },
    { name := "help", role := .help, short := some 'h' }]

def commandNames : List String :=
  ["entropy", "cycles", "check", "tree", "export", "config", "completions", "help"]

def mainLevel : Level :=
  { options := globalParams ++ [{ name := "version", role := .version, short := some 'V' }]
    commands := commandNames }

def filesParam : Param :=
  { name := "files", role := .value .path, repeats := true }

def graphParam : Param :=
  { name := "graph", role := .value .path }

def formatParam : Param :=
  { name := "format", role := .value (.oneOf ["text", "json"]) }

def weightingParam : Param :=
  { name := "weighting", role := .value (.oneOf ["symbols", "edges"]) }

def switchParam (name : String) : Param :=
  { name, role := .value (.oneOf ["on", "off"]) }

/-- The options of a command, beside those of every command, and its operands. -/
def ownParams : String → List Param × Option Param
  | "entropy" =>
    ([graphParam, weightingParam, { name := "top", role := .value .natural }, formatParam],
      some filesParam)
  | "cycles" => ([graphParam, formatParam], some filesParam)
  | "check" => ([formatParam], some filesParam)
  | "tree" => ([{ name := "overview", role := .flag }, weightingParam], some filesParam)
  | "export" =>
    ([graphParam, { name := "json", role := .value .path }, { name := "dot", role := .value .path },
        switchParam "dot-clusters", switchParam "dot-legend",
        { name := "dot-theme", role := .value (.oneOf ["light", "dark"]) },
        { name := "dot-rankdir", role := .value (.oneOf ["lr", "tb"]) }],
      some filesParam)
  | "config" => ([{ name := "write", role := .flag }], none)
  | "completions" =>
    let shells := ["bash", "elvish", "fish", "powershell", "zsh"]
    ([], some { name := "shell", role := .value (.oneOf shells) })
  | _ => ([], none)

def commandLevel (name : String) : Level :=
  { options := globalParams ++ (ownParams name).1, operands := (ownParams name).2 }

/-- Words that keep a command line from being one of the default command. -/
def explicitWords : List String :=
  commandNames ++ ["-h", "--help", "-V", "--version"]

/-- The words with the name of a command: `entropy` in front, unless some word is the name of a
command or asks for help. -/
def withDefaultCommand (words : List String) : List String :=
  if words.isEmpty || words.any explicitWords.contains then words else "entropy" :: words

/-! ### What the words mean -/

/-- A level that was read to its end, with the settings file that the environment names where the
words name none. -/
def Reading.finish (s : Reading) (env : Option String) : Except UsageFault Reading := do
  let s ← s.settle
  match env with
  | none => return s
  | some file =>
    if s.has "config" then return s
    else
      match ValueKind.path.fault? file with
      | some f => throw f
      | none => return s

namespace Reading

/-- The value of an option that has at most one. -/
def value? (s : Reading) (name : String) : Option String :=
  (s.valuesOf name).head?

def choice? {α : Type} (s : Reading) (name : String) (meaning : List (String × α)) : Option α :=
  (s.value? name).bind fun word => meaning.lookup word

def format (s : Reading) : OutputFormat :=
  (s.choice? "format" [("text", .text), ("json", .json)]).getD .text

def weighting? (s : Reading) : Option Weighting :=
  s.choice? "weighting" [("symbols", .symbols), ("edges", .edges)]

/-- Whether something is on, which it is by default. -/
def switch (s : Reading) (name : String) : Bool :=
  (s.choice? name [("on", true), ("off", false)]).getD true

/-- Where the graph comes from. Files and a saved graph exclude each other, and one of them is
needed. -/
def source (s : Reading) : Except UsageFault GraphSource :=
  let files := s.valuesOf "files"
  let graph := s.value? "graph"
  if graph.isSome && !files.isEmpty then .error .conflict
  else if graph.isNone && files.isEmpty then .error .missingArgument
  else .ok { files, graph }

end Reading

/-- The command of a name and what was read after it. -/
def Command.ofReading (name : String) (s : Reading) : Except UsageFault Command :=
  match name with
  | "entropy" => do
    let top := ((s.value? "top").bind natural?).getD 20
    return .entropy (← s.source) s.weighting? top s.format
  | "cycles" => do return .cycles (← s.source) s.format
  | "check" => .ok (.check (s.valuesOf "files") s.format)
  | "tree" =>
    if s.has "files" then .ok (.tree (s.valuesOf "files") (s.has "overview") s.weighting?)
    else .error .missingArgument
  | "export" => do
    let directions := [("lr", Drawing.Direction.leftToRight), ("tb", .topToBottom)]
    return .export (← s.source) (s.value? "json") (s.value? "dot") {
      clusters := s.switch "dot-clusters"
      legend := s.switch "dot-legend"
      theme := (s.choice? "dot-theme" [("light", .light), ("dark", .dark)]).getD .light
      direction := (s.choice? "dot-rankdir" directions).getD .leftToRight }
  | "config" => .ok (.config (s.has "write"))
  | "completions" =>
    match s.value? "shell" with
    | some shell => .ok (.completions shell)
    | none => .error .missingArgument
  | _ => .error .unknownCommand

/-- The options of every command, from what was read before the name of the command and after it. -/
def GlobalOptions.ofReadings (before after : Reading) (env : Option String) : GlobalOptions :=
  let value? (name : String) := (after.value? name).or (before.value? name)
  let flag (name : String) := before.has name || after.has name
  let bool? (name : String) := (value? name).map (· == "true")
  { config := (value? "config").or env
    root := value? "root"
    unwrapExports := flag "unwrap-exports"
    exclude := if after.has "exclude" then after.valuesOf "exclude" else before.valuesOf "exclude"
    jsTsconfigPaths := bool? "js-tsconfig-paths"
    jsWorkspaces := bool? "js-workspaces"
    pythonExcludeConditionalImports := flag "python-exclude-conditional-imports"
    noIgnore := flag "no-ignore"
    workers := (value? "workers").bind natural?
    verbose := flag "verbose"
    quiet := flag "quiet"
    noColor := flag "no-color" }

/-- Why there is only help after the word for it: the words that follow must name one command. -/
def helpFault : List String → UsageFault
  | [] => .help
  | [name] => if commandNames.contains name then .help else .unknownCommand
  | _ => .unknownCommand

/-- Reads the words after the name of the program. `env` is the settings file that the environment
names. -/
def Invocation.parse (env : Option String) (words : List String) :
    Except UsageFault Invocation := do
  match ← mainLevel.scan {} (withDefaultCommand words) with
  | (before, none) =>
    let before ← before.finish env
    throw (if before.given.isEmpty && env.isNone then .nothingGiven else .missingCommand)
  | (_, some ("help", rest)) => throw (helpFault rest)
  | (before, some (name, rest)) =>
    let (after, _) ← (commandLevel name).scan {} rest
    let after ← after.finish env
    let command ← Command.ofReading name after
    let before ← before.finish env
    return { options := GlobalOptions.ofReadings before after env, command }

end CommandLine

end ImportAtlas
