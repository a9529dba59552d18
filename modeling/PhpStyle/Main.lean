import PhpStyle.CommandLine.Session
import Std.Time

/-!
# The program

Reads the files that a run can see from the disk, runs, and writes back what has
changed. All decisions are made by `Request.ofArguments` and `Request.perform`.
-/

namespace PhpStyle.Program

/-- The path of a place on the disk. -/
def diskPath (place : Place) : String :=
  "/" ++ "/".intercalate place

/-- Adds what is at a place on the disk. -/
def look (tree : FileTree) (place : Place) : IO FileTree := do
  let path := (← IO.currentDir) / diskPath place
  if ← path.isDir then
    return { tree with directories := tree.directories ++ [place] }
  else if ← path.pathExists then
    return tree.put place (← IO.FS.readBinFile path)
  else
    return tree

/-- Adds what is on the way along a path. -/
def lookAlong (tree : FileTree) (path : Path) : IO FileTree := do
  let mut tree := tree
  let mut place := if path.isAbsolute then [] else tree.current
  for component in path.components do
    match component with
    | .root | .current => pure ()
    | .parent => place := place.dropLast
    | .name text => place := place ++ [text]
    tree ← look tree place
  return tree

/-- Adds the directories and the source files below a directory. -/
partial def lookBelow (tree : FileTree) (place : Place) : IO FileTree := do
  let mut tree := tree
  for entry in ← ((← IO.currentDir) / diskPath place).readDir do
    let inner := place ++ [entry.fileName]
    if ← entry.path.isDir then
      tree ← lookBelow (← look tree inner) inner
    else if entry.fileName.endsWith ".php" then
      tree ← look tree inner
  return tree

/-- The files that a run with the given options can see. -/
def lookFor (options : Options) : IO FileTree := do
  let current := (Path.mk (toString (← IO.currentDir))).components.filterMap fun component =>
    match component with
    | .name text => some text
    | _ => none
  let mut tree ← look { current } current
  for size in List.range (current.length + 1) do
    tree ← look tree (current.take size ++ [Config.fileName])
  for path in options.config.toList ++ options.logFile.toList do
    tree ← lookAlong tree path
  for path in options.paths do
    tree ← lookAlong tree path
    if let some place := tree.directory? path then
      tree ← lookBelow tree place
  return tree

/-- The time now. -/
def now : IO Timestamp := do
  let time ← Std.Time.DateTime.now
  let stamp := time.format "uuuu-MM-dd HH:mm:ss.SSS"
  return { document := time.toISO8601String, logMessage := s!"[{stamp}] " }

/-- Does what a command line calls for. -/
def perform (request : Request) : IO UInt32 := do
  let tree ← match request with
    | .run options => lookFor options
    | .showVersion | .showHelp => pure {}
  let outcome := request.perform (← now) tree
  for (place, content) in outcome.tree.changedSince tree do
    IO.FS.writeBinFile (diskPath place) content
  IO.print outcome.printed.output
  IO.eprint outcome.printed.errors
  return outcome.exitCode.toUInt32

end PhpStyle.Program

def main (arguments : List String) : IO UInt32 := do
  match PhpStyle.Request.ofArguments arguments with
  | .error error =>
    IO.eprintln ("error: " ++ error.message)
    return 2
  | .ok request => PhpStyle.Program.perform request
