import PhpStyle.Path

/-!
# Options of the command line

Arguments are read from left to right. Long options start with two hyphens, short
ones with one; short options may stand together. An option with a value takes it
from the same argument or from the next one, which may not look like an option.
After two hyphens alone everything is a path.
-/

namespace PhpStyle

/-- What the command line asks for. -/
structure Options where
  /-- Files and directories to process. -/
  paths : List Path := []
  /-- Whether files are fixed. -/
  isFixing : Bool := false
  /-- Whether fixes are shown and not written. -/
  showsDifferences : Bool := false
  isVerbose : Bool := false
  /-- The rules to run. -/
  rules : List String := []
  /-- The name of the output format. -/
  format : Option String := none
  /-- The configuration file. -/
  config : Option Path := none
  /-- Whether configuration files are ignored. -/
  ignoresConfig : Bool := false
  logFile : Option Path := none
  /-- Whether the rules are listed and nothing else is done. -/
  listsRules : Bool := false
deriving DecidableEq, Repr, Inhabited

/-- What a command line calls for. -/
inductive Request where
  | run (options : Options)
  | showVersion
  | showHelp
deriving DecidableEq, Repr, Inhabited

/-- Why arguments are refused. -/
inductive ArgumentError where
  | unknown (argument : String)
  | repeated (option : String)
  | missingValue (option : String)
  | unexpectedValue (option : String)
  | missingPath
  /-- An option needs another one. -/
  | needs (option other : String)
  /-- Two options exclude each other. -/
  | conflict (option other : String)
deriving DecidableEq, Repr, Inhabited

/-- The wording of an error. -/
def ArgumentError.message : ArgumentError → String
  | unknown argument => s!"unexpected argument '{argument}' found"
  | repeated option => s!"the argument '{option}' cannot be used multiple times"
  | missingValue option => s!"a value is required for '{option}' but none was supplied"
  | unexpectedValue option => s!"unexpected value for '{option}' found"
  | missingPath => "the following required arguments were not provided: <PATHS>..."
  | needs option other => s!"the argument '{option}' requires '{other}'"
  | conflict option other => s!"the argument '{option}' cannot be used with '{other}'"

namespace CommandLine

/-- An option without a value. -/
inductive Flag where
  | fix
  | diff
  | verbose
  | noConfig
  | listRules
  | version
  | help
deriving DecidableEq, Repr, Inhabited

/-- An option with a value. -/
inductive Setting where
  | rule
  | format
  | config
  | logFile
deriving DecidableEq, Repr, Inhabited

/-- An option. -/
inductive Switch where
  | flag (flag : Flag)
  | setting (setting : Setting)
deriving DecidableEq, Repr, Inhabited

/-- The written form of a flag. -/
def Flag.toName : Flag → String
  | fix => "--fix"
  | diff => "--diff"
  | verbose => "--verbose"
  | noConfig => "--no-config"
  | listRules => "--list-rules"
  | version => "--version"
  | help => "--help"

/-- The written form of a setting. -/
def Setting.toName : Setting → String
  | rule => "--rule"
  | format => "--format"
  | config => "--config"
  | logFile => "--log-file"

/-- The option with a long name. -/
def longSwitch? (name : String) : Option Switch :=
  ([.fix, .diff, .verbose, .noConfig, .listRules, .version, .help].map Switch.flag
    ++ [.rule, .format, .config, .logFile].map Switch.setting).find? fun switch =>
      match switch with
      | .flag flag => flag.toName == name
      | .setting setting => setting.toName == name

/-- The option with a short name. -/
def shortSwitch? : Char → Option Switch
  | 'v' => some (.flag .verbose)
  | 'r' => some (.setting .rule)
  | 'V' => some (.flag .version)
  | 'h' => some (.flag .help)
  | _ => none

/-- Whether a flag was already given. -/
def Flag.isSet (options : Options) : Flag → Bool
  | fix => options.isFixing
  | diff => options.showsDifferences
  | verbose => options.isVerbose
  | noConfig => options.ignoresConfig
  | listRules => options.listsRules
  | version | help => false

/-- Sets a flag. -/
def Flag.set (options : Options) : Flag → Options
  | fix => { options with isFixing := true }
  | diff => { options with showsDifferences := true }
  | verbose => { options with isVerbose := true }
  | noConfig => { options with ignoresConfig := true }
  | listRules => { options with listsRules := true }
  | version | help => options

/-- What reading an argument gives: more options, or a request that needs no further arguments. -/
abbrev Reading := Except ArgumentError (Options ⊕ Request)

/-- Reads a flag. The version and the help are given at once, whatever follows. -/
def readFlag (options : Options) (flag : Flag) : Reading :=
  match flag with
  | .version => .ok (.inr .showVersion)
  | .help => .ok (.inr .showHelp)
  | flag =>
    if flag.isSet options then .error (.repeated flag.toName)
    else .ok (.inl (flag.set options))

/-- A value that is a path. It may not be empty. -/
def pathValue (name value : String) : Except ArgumentError Path :=
  if value = "" then .error (.missingValue name) else .ok ⟨value⟩

/-- Reads the value of a setting. Only rules may be given more than once. -/
def readSetting (options : Options) (setting : Setting) (value : String) :
    Except ArgumentError Options :=
  match setting with
  | .rule => .ok { options with rules := options.rules ++ [value] }
  | .format =>
    if options.format.isSome then .error (.repeated setting.toName)
    else .ok { options with format := some value }
  | .config => do
    if options.config.isSome then throw (.repeated setting.toName)
    return { options with config := some (← pathValue setting.toName value) }
  | .logFile => do
    if options.logFile.isSome then throw (.repeated setting.toName)
    return { options with logFile := some (← pathValue setting.toName value) }

/-- Reads a path. -/
def readPath (options : Options) (argument : String) : Except ArgumentError Options := do
  return { options with paths := options.paths ++ [← pathValue "<PATHS>..." argument] }

/-- Whether an argument looks like an option. -/
def looksLikeOption (argument : String) : Bool :=
  argument.startsWith "-" && argument != "-"

/-- Cuts a long option at its first equals sign. -/
def cutValue (argument : String) : String × Option String :=
  let name := argument.toList.takeWhile (· != '=')
  match argument.toList.drop name.length with
  | _ :: value => (String.ofList name, some (String.ofList value))
  | [] => (argument, none)

/-- What an argument asks to do next. -/
inductive Next where
  /-- Go on with the next argument. -/
  | proceed (options : Options)
  /-- Take the next argument as the value of a setting. -/
  | await (options : Options) (setting : Setting)
  | done (request : Request)

/-- Reads a long option. -/
def readLong (options : Options) (argument : String) : Except ArgumentError Next :=
  let (name, value) := cutValue argument
  match longSwitch? name, value with
  | none, _ => .error (.unknown name)
  | some (.flag flag), some _ => .error (.unexpectedValue flag.toName)
  | some (.flag flag), none => do
    match ← readFlag options flag with
    | .inl options => return .proceed options
    | .inr request => return .done request
  | some (.setting setting), some value => return .proceed (← readSetting options setting value)
  | some (.setting setting), none => return .await options setting

/-- Reads short options that stand together. What follows a setting is its value. -/
def readShort (options : Options) : List Char → Except ArgumentError Next
  | [] => .ok (.proceed options)
  | c :: rest =>
    match shortSwitch? c with
    | none => .error (.unknown (String.ofList ['-', c]))
    | some (.flag flag) => do
      match ← readFlag options flag with
      | .inl options => readShort options rest
      | .inr request => return .done request
    | some (.setting setting) =>
      match rest with
      | [] => .ok (.await options setting)
      | '=' :: value => do
        return .proceed (← readSetting options setting (String.ofList value))
      | value => do return .proceed (← readSetting options setting (String.ofList value))

/-- Reads one argument that is not awaited as a value. -/
def readArgument (options : Options) (argument : String) : Except ArgumentError Next :=
  if !looksLikeOption argument then do return .proceed (← readPath options argument)
  else if argument.startsWith "--" then readLong options argument
  else readShort options (argument.toList.drop 1)

/-- Checks that the options go together. -/
def validate (options : Options) : Except ArgumentError Request :=
  if options.paths.isEmpty && !options.listsRules then .error .missingPath
  else if options.showsDifferences && !options.isFixing then
    .error (.needs Flag.diff.toName Flag.fix.toName)
  else if options.ignoresConfig && options.config.isSome then
    .error (.conflict Flag.noConfig.toName Setting.config.toName)
  else .ok (.run options)

/-- Reads arguments, given the options before them and the setting that awaits its value. -/
def readFrom (options : Options) (awaiting : Option Setting) :
    List String → Except ArgumentError Request
  | [] =>
    match awaiting with
    | some setting => .error (.missingValue setting.toName)
    | none => validate options
  | argument :: rest =>
    match awaiting with
    | some setting =>
      if looksLikeOption argument then .error (.missingValue setting.toName)
      else do readFrom (← readSetting options setting argument) none rest
    | none =>
      if argument = "--" then do validate (← rest.foldlM readPath options)
      else do
        match ← readArgument options argument with
        | .proceed options => readFrom options none rest
        | .await options setting => readFrom options (some setting) rest
        | .done request => return request

end CommandLine

/-- Reads the arguments of a command line. -/
def Request.ofArguments (arguments : List String) : Except ArgumentError Request :=
  CommandLine.readFrom {} none arguments

end PhpStyle
