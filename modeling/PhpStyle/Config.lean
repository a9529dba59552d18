import PhpStyle.Glob
import PhpStyle.Path
import PhpStyle.Toml.Document

/-!
# Configurations

What a configuration file may say: which rules run, which files a search leaves
out, the format of the output and the number of passes of a fix run. A file is a
TOML document with a table for each of these; tables and entries of other names
do not count, and what is not said has a default.
-/

namespace PhpStyle

/-- What a configuration file says. -/
structure Config where
  /-- The rules that run; all of them if nothing is said. -/
  enabled : Option (List String) := none
  /-- Rules that do not run even if they are enabled. -/
  disabled : List String := []
  /-- Patterns of the files that a search leaves out. -/
  exclude : List String := []
  /-- The name of the output format. -/
  format : Option String := none
  /-- The number of passes of a fix run. -/
  maxPasses : Option Nat := none
deriving DecidableEq, Repr, Inhabited

namespace Config

/-- The name of configuration files. -/
def fileName : String := ".sniffer.toml"

/-! ## Reading -/

/-- A value that is a text. -/
def textOf? : Toml.Value → Option String
  | .string content => some content
  | _ => none

/-- A value that is a list of texts. -/
def textsOf? : Toml.Value → Option (List String)
  | .array elements => elements.mapM textOf?
  | _ => none

/-- A value that is a natural number. -/
def naturalOf? : Toml.Value → Option Nat
  | .integer (.ofNat value) => some value
  | _ => none

/-- The field of a section, if the section is written in a way that has fields. A section may also
be written as a list of its fields in their order; a date or a time counts as a section without
known fields. -/
def field? (entries : Toml.Entries) (sectionName : String) (position : Nat) (name : String) :
    Option (Option Toml.Value) :=
  match entries.lookup sectionName with
  | none => some none
  | some (.table _ fields) => some (fields.lookup name)
  | some (.array elements) => some elements[position]?
  | some (.tables elements) => some (elements[position]?.map (.table .header))
  | some (.moment _) => some none
  | some _ => none

/-- Reads a field that may be absent. -/
def optional? {α : Type} (read? : Toml.Value → Option α) :
    Option (Option Toml.Value) → Option (Option α)
  | none => none
  | some none => some none
  | some (some value) => (read? value).map some

/-- Reads a configuration from the entries of a document. -/
def ofEntries? (entries : Toml.Entries) : Option Config := do
  let enabled ← optional? textsOf? (field? entries "rules" 0 "enabled")
  let disabled ← optional? textsOf? (field? entries "rules" 1 "disabled")
  let exclude ← optional? textsOf? (field? entries "paths" 0 "exclude")
  let format ← optional? textOf? (field? entries "output" 0 "format")
  let maxPasses ← optional? naturalOf? (field? entries "fixer" 0 "max_passes")
  some { enabled, disabled := disabled.getD [], exclude := exclude.getD [], format, maxPasses }

/-- Reads a configuration file. -/
def ofText? (text : String) : Option Config := do
  ofEntries? (← Toml.document? text)

/-! ## Rules -/

/-- The names of the rules to run, sorted: those of the command line if there are any, else the
enabled ones without the disabled ones. -/
def effectiveRules (config : Config) (known requested : List String) : List String :=
  let selected :=
    if requested = [] then (config.enabled.getD known).filter (· ∉ config.disabled) else requested
  selected.eraseDups.mergeSort fun left right => left ≤ right

/-- The names in the configuration that no known rule has, as often as they are written. -/
def unknownRules (config : Config) (known : List String) : List String :=
  (config.enabled.getD [] ++ config.disabled).filter (· ∉ known)

/-! ## Excluded files -/

/-- Whether a pattern leaves out a file. A pattern that ends in a slash names a directory at any
depth; any other pattern is tried on the whole path and on the name of the file. Invalid patterns
leave out nothing. -/
def isExcludedBy (path : Path) (pattern : String) : Bool :=
  if pattern.toList.getLast? = some '/' then
    match Glob.readFrom? true pattern.toList.dropLast, path.parentComponents? with
    | some directory, some parents => parents.any fun part => directory.matchesText part.text
    | _, _ => false
  else
    match Glob.ofText? pattern with
    | some glob =>
      glob.matchesText path.text ||
        match path.fileName? with
        | some name => glob.matchesText name
        | none => false
    | none => false

/-- Whether a search leaves out a file. -/
def excludes (config : Config) (path : Path) : Bool :=
  config.exclude.any (isExcludedBy path)

end Config

end PhpStyle
