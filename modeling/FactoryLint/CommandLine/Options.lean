namespace FactoryLint.CommandLine

inductive Flag
  | check
  | fix
  | verbose
  | json
  | noConfig
  | listRules
  deriving DecidableEq, Repr

inductive Parameter
  | format
  | config
  | baseClass
  | helper
  | member
  | excludeCall
  deriving DecidableEq, Repr

structure Options where
  flags : List Flag
  values : List (Parameter × String)
  paths : List String
  deriving DecidableEq, Repr

namespace Options

def empty : Options := ⟨[], [], []⟩

def has (o : Options) (f : Flag) : Bool :=
  o.flags.contains f

def value? (o : Options) (p : Parameter) : Option String :=
  o.values.lookup p

def valuesOf (o : Options) (p : Parameter) : List String :=
  (o.values.filter (·.1 == p)).map (·.2)

end Options

inductive Request
  | run (options : Options)
  | showVersion
  | showHelp
  deriving DecidableEq, Repr

inductive UsageError
  | unknown (argument : String)
  | repeated (argument : String)
  | valueMissing (argument : String)
  | valueUnexpected (argument : String)
  | emptyPath
  | contradiction (one other : String)
  | noPaths
  deriving DecidableEq, Repr

namespace UsageError

def message : UsageError → String
  | .unknown argument => "unexpected argument '" ++ argument ++ "' found"
  | .repeated argument => "the argument '" ++ argument ++ "' cannot be used multiple times"
  | .valueMissing argument => "a value is required for '" ++ argument ++ "' but none was supplied"
  | .valueUnexpected argument => "unexpected value for '" ++ argument ++ "' found"
  | .emptyPath => "a value is required for a path but none was supplied"
  | .contradiction one other =>
    "the argument '" ++ one ++ "' cannot be used with '" ++ other ++ "'"
  | .noPaths => "the following required arguments were not provided: <PATHS>..."

end UsageError

inductive Meaning
  | flag (f : Flag)
  | parameter (p : Parameter)
  | request (r : Request)

def longMeaning? : String → Option Meaning
  | "check" => some (.flag .check)
  | "fix" => some (.flag .fix)
  | "verbose" => some (.flag .verbose)
  | "json" => some (.flag .json)
  | "no-config" => some (.flag .noConfig)
  | "list-rules" => some (.flag .listRules)
  | "format" => some (.parameter .format)
  | "config" => some (.parameter .config)
  | "base-class" => some (.parameter .baseClass)
  | "helper" => some (.parameter .helper)
  | "member" => some (.parameter .member)
  | "exclude-call" => some (.parameter .excludeCall)
  | "version" => some (.request .showVersion)
  | "help" => some (.request .showHelp)
  | _ => none

def shortMeaning? : Char → Option Meaning
  | 'v' => some (.flag .verbose)
  | 'V' => some (.request .showVersion)
  | 'h' => some (.request .showHelp)
  | _ => none

namespace Options

def addFlag (o : Options) (argument : String) (f : Flag) : Except UsageError Options :=
  if o.has f then .error (.repeated argument) else .ok { o with flags := o.flags ++ [f] }

def addValue (o : Options) (argument : String) (p : Parameter) (value : String) :
    Except UsageError Options :=
  if p != .excludeCall && (o.value? p).isSome then .error (.repeated argument)
  else if p == .config && value.isEmpty then .error .emptyPath
  else .ok { o with values := o.values ++ [(p, value)] }

def addPath (o : Options) (path : String) : Except UsageError Options :=
  if path.isEmpty then .error .emptyPath else .ok { o with paths := o.paths ++ [path] }

def request (o : Options) : Except UsageError Request :=
  if o.has .check && o.has .fix then .error (.contradiction "--check" "--fix")
  else if o.has .json && (o.value? .format).isSome then
    .error (.contradiction "--json" "--format <FORMAT>")
  else if o.paths.isEmpty && !o.has .listRules then .error .noPaths
  else .ok (.run o)

end Options

/-- Letters after one dash. A letter may end the whole command line with a request of its own. -/
def readLetters (o : Options) : List Char → Except UsageError (Except Request Options)
  | [] => .ok (.ok o)
  | c :: cs =>
    let argument := "-" ++ String.singleton c
    match shortMeaning? c with
    | some (.flag f) => do readLetters (← o.addFlag argument f) cs
    | some (.request r) => .ok (.error r)
    | _ => .error (.unknown argument)

/-- An argument that begins with a dash and stands where a value should is none. -/
def isValue (argument : String) : Bool :=
  argument == "-" || argument.toList.head? != some '-'

/-- The name of an option, and the value after an equals sign. -/
def splitValue (text : List Char) : String × Option String :=
  let name := text.takeWhile (· != '=')
  (.ofList name, (text.drop name.length).tail?.map String.ofList)

/-- Read arguments, after the ones that gave `o`. An option that still needs its value is given
with its name. -/
def readArguments : Option (String × Parameter) → Options → List String →
    Except UsageError Request
  | none, o, [] => o.request
  | some (name, _), _, [] => .error (.valueMissing name)
  | some (name, p), o, value :: arguments =>
    if isValue value then do readArguments none (← o.addValue name p value) arguments
    else .error (.valueMissing name)
  | none, o, argument :: arguments =>
    match argument.toList with
    | ['-', '-'] => do (← arguments.foldlM Options.addPath o).request
    | '-' :: '-' :: text =>
      let (word, value?) := splitValue text
      let name := "--" ++ word
      match longMeaning? word, value? with
      | none, _ => .error (.unknown argument)
      | some (.parameter p), none => readArguments (some (name, p)) o arguments
      | some (.parameter p), some value => do
        readArguments none (← o.addValue name p value) arguments
      | some (.flag f), none => do readArguments none (← o.addFlag name f) arguments
      | some (.request r), none => .ok r
      | some _, some _ => .error (.valueUnexpected name)
    | '-' :: c :: cs => do
      match ← readLetters o (c :: cs) with
      | .ok o => readArguments none o arguments
      | .error r => return r
    | _ => do readArguments none (← o.addPath argument) arguments

def Request.ofArguments (arguments : List String) : Except UsageError Request :=
  readArguments none .empty arguments

end FactoryLint.CommandLine
