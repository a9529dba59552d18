import PhpStyle.CommandLine.Options
import PhpStyle.Discovery
import PhpStyle.Inspection
import PhpStyle.Output
import PhpStyle.Patch
import PhpStyle.Standard

/-!
# A run of the program

A run is a function of the files, the options and the time: it gives what is
printed, the exit code and the files as they are afterwards. Everything that can
stop a run before the first file is looked at comes in a fixed order:
configuration, format, log file, rules.
-/

namespace PhpStyle

/-- The time of a run, in the forms in which it is written. -/
structure Timestamp where
  /-- In the document of the output. -/
  document : String
  /-- In front of every message of the log file. -/
  logMessage : String

/-- What a run leaves behind. -/
structure Outcome where
  exitCode : Nat
  printed : Printed
  tree : FileTree

namespace CommandLine

/-- The lines that list the rules. -/
def ruleLines : List String :=
  "Available rules:" :: Standard.rules.flatMap fun rule =>
    ["  " ++ rule.name ++ " - " ++ rule.description, "    " ++ rule.code]

/-- The version of the program. -/
def versionLine : String :=
  "sniffer " ++ JsonOutput.version

/-- The configuration of a run: none if it is not wanted, that of the named file, or that of the
current directory. -/
def loadConfig (tree : FileTree) (options : Options) : Except ConfigError Config :=
  if options.ignoresConfig then .ok {}
  else
    match options.config with
    | some path => Config.load tree path
    | none => do
      match ← Config.search tree ⟨"/".intercalate tree.current⟩ with
      | some (config, _) => return config
      | none => return {}

/-- The name of the output format. -/
def formatName (config : Config) (options : Options) : String :=
  (options.format.or config.format).getD OutputFormat.text.toName

/-- The names of the rules that a run is asked for. -/
def requestedRules (config : Config) (options : Options) : List String :=
  config.effectiveRules Standard.ruleNames options.rules

/-- The rules that run. -/
def ruleset (config : Config) (options : Options) : Ruleset :=
  Standard.ruleset fun name => (requestedRules config options).contains name

/-- The text of messages in the log file. -/
def logText (timestamp : Timestamp) (journal : Journal) : String :=
  Printed.unlines (journal.messages.map (timestamp.logMessage ++ ·))

/-- A log file that is being written. -/
structure LogFile where
  place : Place
  /-- The number of bytes written so far, whatever has become of the file. -/
  written : Nat := 0

/-- How far a run has come. -/
structure Progress where
  timestamp : Timestamp
  bench : Bench
  log : Option LogFile := none
  printed : Printed := {}
  results : List FileResult := []

namespace Progress

/-- Writes events to the log file, if there is one. -/
def note (progress : Progress) (journal : Journal) : Progress :=
  match progress.log with
  | none => progress
  | some log =>
    let text := (logText progress.timestamp journal).toUTF8
    { progress with
      bench := { progress.bench with
        tree := progress.bench.tree.writeAt log.place log.written text }
      log := some { log with written := log.written + text.size } }

/-- Notes what came of a file. -/
def record (progress : Progress) (format : OutputFormat) (options : Options)
    (result : FileResult) : Progress :=
  { progress with
    printed := progress.printed ++ format.printFile options.isVerbose result
    results := progress.results ++ [result] }

/-- What is printed about a file before its result: that its fixes did not settle, and the
differences if they are shown. -/
def remarks (progress : Progress) (format : OutputFormat) (options : Options) (path : Path)
    (inspection : Inspection) : Printed :=
  let passes := toString progress.bench.runner.maxPasses
  let unsettled :=
    if !inspection.isConverged && format == .text then
      .errorLines ["Warning: " ++ path.text ++ " did not settle after " ++ passes ++ " fix passes"]
    else {}
  let differences : Printed :=
    match inspection.newSource with
    | some source =>
      if options.showsDifferences then
        { output := Patch.unified path.text inspection.oldSource source }
      else {}
    | none => {}
  unsettled ++ differences

/-- Processes one more file. -/
def step (format : OutputFormat) (options : Options) (progress : Progress) (path : Path) :
    Progress :=
  match progress.bench.inspect options.isFixing path with
  | (.error error, bench) =>
    { progress with bench }.record format options (.failed path.text (unreadableFile path error))
  | (.ok (place, inspection), bench) =>
    let progress := { progress with bench }.note inspection.journal
    let bench :=
      if options.showsDifferences then progress.bench else progress.bench.write place inspection
    let printed := progress.printed ++ progress.remarks format options path inspection
    { progress with bench, printed }.record format options
      (.processed path.text inspection.report.diagnostics inspection.fixesApplied)

end Progress

/-- Runs the rules on the files. -/
def runRules (timestamp : Timestamp) (options : Options) (config : Config)
    (format : OutputFormat) (log : Option Place) (printed : Printed) (tree : FileTree) : Outcome :=
  let runner := Runner.ofRuleset (ruleset config options)
    (config.maxPasses.getD Runner.defaultMaxPasses)
  let names := runner.ruleset.names
  let mode := if options.isFixing then "fix" else "check"
  let preface : Printed :=
    if options.isVerbose && format == .text then
      .outputLines ["Mode: " ++ mode, "Rules: " ++ ", ".intercalate names, ""]
    else {}
  let found := Discovery.ofPaths tree config options.paths
  let missing := Printed.errorLines <|
    found.missing.map fun path => "Warning: Path does not exist: " ++ path.text
  let start : Progress :=
    { timestamp, bench := ⟨tree, runner⟩
      log := log.map fun place => { place }
      printed := printed ++ preface ++ missing }
  let progress := found.files.foldl (Progress.step format options)
    (start.note [.runStarted found.files.length names])
  let summary := Summary.ofResults progress.results
  let progress := progress.note [.runEnded summary.errors summary.warnings summary.filesFixed]
  { exitCode := if summary.isClean then 0 else 1
    printed := progress.printed ++
      format.printEnd options.isFixing timestamp.document progress.results
    tree := progress.bench.tree }

/-- Goes on with a run once its configuration, its format and its log file are settled. -/
def runWith (timestamp : Timestamp) (options : Options) (config : Config)
    (format : OutputFormat) (log : Option Place) (tree : FileTree) : Outcome :=
  let logNote : Printed :=
    match options.logFile with
    | some path =>
      if options.isVerbose && format == .text then .outputLines ["Logging to: " ++ path.text]
      else {}
    | none => {}
  match options.rules.find? fun rule => !Standard.ruleNames.contains rule with
  | some rule =>
    ⟨1, logNote ++ .errorLines
      [s!"Error: Unknown rule '{rule}'. Use --list-rules to see available rules."], tree⟩
  | none =>
    let warnings := Printed.errorLines <| (config.unknownRules Standard.ruleNames).map fun rule =>
      s!"Warning: Unknown rule '{rule}' in config"
    if (requestedRules config options).isEmpty then
      ⟨1, logNote ++ warnings ++ .errorLines ["Error: No rules enabled"], tree⟩
    else runRules timestamp options config format log (logNote ++ warnings) tree

/-- The outcome of a run that an error stops. -/
def stopped (tree : FileTree) (message : String) : Outcome :=
  ⟨1, .errorLines ["Error: " ++ message], tree⟩

/-- Opens the log file, if there is one. -/
def openLog (tree : FileTree) : Option Path → Except FileError (Option Place × FileTree)
  | none => .ok (none, tree)
  | some path => do
    let (place, tree) ← tree.create path
    return (some place, tree)

/-- Runs the program. -/
def run (timestamp : Timestamp) (tree : FileTree) (options : Options) : Outcome :=
  if options.listsRules then ⟨0, .outputLines ruleLines, tree⟩
  else
    match loadConfig tree options with
    | .error error => stopped tree error.message
    | .ok config =>
      let name := formatName config options
      match OutputFormat.ofName? name with
      | none =>
        stopped tree s!"Invalid output format '{name}'. Valid options: text, json, github"
      | some format =>
        match openLog tree options.logFile with
        | .error error =>
          let path := (options.logFile.map Path.text).getD ""
          stopped tree ("Failed to open log file " ++ path ++ ": " ++ error.message)
        | .ok (log, tree) => runWith timestamp options config format log tree

end CommandLine

/-- Does what a command line calls for. -/
def Request.perform (timestamp : Timestamp) (tree : FileTree) : Request → Outcome
  | run options => CommandLine.run timestamp tree options
  | showVersion => ⟨0, .outputLines [CommandLine.versionLine], tree⟩
  | showHelp =>
    ⟨0, .outputLines
      ["Check PHP sources against the Symfony coding standard", "",
        "Usage: sniffer [OPTIONS] [PATHS]...", "",
        "Arguments:",
        "  [PATHS]...  Files or directories to process", "",
        "Options:",
        "      --fix              Apply fixes to files",
        "      --diff             Print the fixes as a unified diff instead of writing files",
        "  -v, --verbose          Show verbose output",
        "  -r, --rule <RULE>      Rules to run (can be specified multiple times). " ++
          "Overrides config file",
        "      --format <FORMAT>  Output format: text, json, github",
        "      --config <PATH>    Path to config file (default: auto-detect .sniffer.toml)",
        "      --no-config        Ignore config files",
        "      --log-file <PATH>  Write a debug log to this file",
        "      --list-rules       List available rules and exit",
        "  -h, --help             Print help",
        "  -V, --version          Print version"], tree⟩

end PhpStyle
