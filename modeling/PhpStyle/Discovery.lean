import PhpStyle.Config
import PhpStyle.FileTree

/-!
# Finding files

Configuration files are looked for in a directory and in those above it. Source
files are named directly or found below a named directory; the patterns of a
configuration leave out only files that are found.
-/

namespace PhpStyle

/-! ## Configuration files -/

/-- Why a configuration file cannot be used. -/
inductive ConfigError where
  | unreadable (path : Path) (error : FileError)
  | invalid (path : Path)
deriving DecidableEq, Repr, Inhabited

/-- The wording of an error. -/
def ConfigError.message : ConfigError → String
  | unreadable path error => "Failed to read " ++ path.text ++ ": " ++ error.message
  | invalid path => "Failed to parse " ++ path.text

namespace Config

/-- Reads what was read of a configuration file. -/
def ofRead (path : Path) : Except FileError String → Except ConfigError Config
  | .error error => .error (.unreadable path error)
  | .ok text =>
    match ofText? text with
    | some config => .ok config
    | none => .error (.invalid path)

/-- Reads the configuration file to which a path leads. -/
def load (tree : FileTree) (path : Path) : Except ConfigError Config :=
  ofRead path (tree.read path)

/-- The nearest configuration file of a directory. Both paths lead from the root of the tree. -/
def locate? (tree : FileTree) (directory : Path) : Option Path :=
  (directory.ancestors.map (·.join fileName)).find? fun path =>
    match tree.resolveFrom [] path with
    | .ok place => tree.isFileAt place
    | .error _ => false

/-- Reads the nearest configuration file of a directory, if there is one. Both paths lead from the
root of the tree. -/
def search (tree : FileTree) (directory : Path) : Except ConfigError (Option (Config × Path)) :=
  match locate? tree directory with
  | none => .ok none
  | some path => do
    let config ← ofRead (tree.absolute path) (tree.resolveFrom [] path >>= tree.readAt)
    return some (config, path)

end Config

/-! ## Source files -/

/-- The files to process and the paths that lead nowhere. -/
structure Discovery where
  files : List Path := []
  missing : List Path := []
deriving DecidableEq, Repr, Inhabited

namespace Discovery

/-- The source files below a directory, except those that the configuration leaves out. -/
def below (tree : FileTree) (config : Config) (path : Path) (place : Place) : List Path :=
  ((tree.filesBelow place).map fun names => names.foldl Path.join path).filter fun file =>
    file.extension? == some "php" && !config.excludes file

/-- Adds what a path leads to. -/
def add (tree : FileTree) (config : Config) (found : Discovery) (path : Path) : Discovery :=
  if tree.isFile path then { found with files := found.files ++ [path] }
  else
    match tree.directory? path with
    | some place => { found with files := found.files ++ below tree config path place }
    | none => { found with missing := found.missing ++ [path] }

/-- What paths lead to. Files are sorted and each of them is named once; missing paths stay as they
were given. -/
def ofPaths (tree : FileTree) (config : Config) (paths : List Path) : Discovery :=
  let found := paths.foldl (add tree config) {}
  { found with files := Path.sortedDistinct found.files }

end Discovery

end PhpStyle
