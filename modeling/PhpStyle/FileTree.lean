import PhpStyle.Path

/-!
# File trees

The files that a run can see, as a value: reading looks a file up and writing gives
a new tree. Places in a tree are lists of names from its root; a path leads from
the current directory to a place.

A tree may be a part of a larger one. Then there are directories above its root, at
places that start with double points, of which nothing is known but that they are
there.
-/

namespace PhpStyle

/-- Why a file cannot be used. -/
inductive FileError where
  | notFound
  /-- A file stands where the path needs a directory. -/
  | notADirectory
  /-- A directory stands where the path needs a file. -/
  | isADirectory
  /-- The file is not in UTF-8. -/
  | notText
  /-- The path or one of its names is too long. -/
  | nameTooLong
  /-- The path holds a null character. -/
  | invalidPath
deriving DecidableEq, Repr, Inhabited

/-- The wording of an error. -/
def FileError.message : FileError → String
  | notFound => "No such file or directory (os error 2)"
  | notADirectory => "Not a directory (os error 20)"
  | isADirectory => "Is a directory (os error 21)"
  | nameTooLong => "File name too long (os error 36)"
  | notText => "stream did not contain valid UTF-8"
  | invalidPath => "file name contained an unexpected NUL byte"

/-- A place in a tree: the names on the way from the root. -/
abbrev Place := List String

/-- The files that a run can see. -/
structure FileTree where
  /-- The text in front of the places of the tree in absolute paths. It is empty if nothing is above
  the tree. -/
  root : String := ""
  /-- The current directory. -/
  current : Place := []
  files : List (Place × ByteArray) := []
  /-- Directories that may be empty. Those that hold a file need not be listed. -/
  directories : List Place := []

namespace FileTree

/-! ## Places -/

/-- The absolute form of a path that leads from the root of the tree. -/
def absolute (tree : FileTree) (path : Path) : Path :=
  ⟨tree.root ++ "/" ++ path.text⟩

/-- The directory above a directory. -/
def above (tree : FileTree) (place : Place) : Place :=
  match place.getLast? with
  | none => if tree.root = "" then [] else [".."]
  | some ".." => place ++ [".."]
  | some _ => place.dropLast

/-- The content of the file at a place. -/
def contentAt? (tree : FileTree) (place : Place) : Option ByteArray :=
  tree.files.lookup place

/-- Whether there is a file at a place. -/
def isFileAt (tree : FileTree) (place : Place) : Bool :=
  (tree.contentAt? place).isSome

/-- Whether there is a directory at a place. -/
def isDirectoryAt (tree : FileTree) (place : Place) : Bool :=
  place.all (· == "..") || tree.directories.any (place.isPrefixOf ·)
    || tree.files.any fun file => place.isPrefixOf file.1 && place != file.1

/-- The names on the way from a directory to the files below it. -/
def filesBelow (tree : FileTree) (place : Place) : List (List String) :=
  (tree.files.filter fun file => place.isPrefixOf file.1 && place != file.1).map fun file =>
    file.1.drop place.length

/-- Puts a file at a place. -/
def put (tree : FileTree) (place : Place) (content : ByteArray) : FileTree :=
  if tree.isFileAt place then
    { tree with files := tree.files.map fun file =>
        if file.1 = place then (place, content) else file }
  else { tree with files := tree.files ++ [(place, content)] }

/-- Writes into the file at a place from a position on. If the file ends before that position, zero
bytes come between. -/
def writeAt (tree : FileTree) (place : Place) (position : Nat) (written : ByteArray) : FileTree :=
  let content := (tree.contentAt? place).getD .empty
  let gap : ByteArray := ⟨Array.replicate (position - content.size) 0⟩
  let rest := content.extract (position + written.size) content.size
  tree.put place (content.extract 0 position ++ gap ++ written ++ rest)

/-- The files of a tree that are not in another one or have another content there. -/
def changedSince (tree earlier : FileTree) : List (Place × ByteArray) :=
  tree.files.filter fun file => (earlier.contentAt? file.1).all (· != file.2)

/-! ## Paths -/

/-- The number of bytes that a name may have. -/
def maxNameSize : Nat := 255

/-- The number of bytes that a path may have. -/
def maxPathSize : Nat := 4095

/-- Goes one piece of a path further. Every piece, also one that leads nowhere, needs a directory
to start from. -/
def enter (tree : FileTree) (place : Place) (piece : String) : Except FileError Place :=
  if tree.isDirectoryAt place then
    match piece with
    | "" | "." => .ok place
    | ".." => .ok (tree.above place)
    | name =>
      if name.utf8ByteSize > maxNameSize then .error .nameTooLong else .ok (place ++ [name])
  else if tree.isFileAt place then .error .notADirectory
  else .error .notFound

/-- The place to which pieces of a path lead. -/
def follow (tree : FileTree) (start : Place) (pieces : List String) : Except FileError Place :=
  pieces.foldlM tree.enter start

/-- The place to which a path leads from a directory. -/
def resolveFrom (tree : FileTree) (start : Place) (path : Path) : Except FileError Place :=
  if path.text.toList.contains '\x00' then .error .invalidPath
  else if path.text = "" then .error .notFound
  else if path.text.utf8ByteSize > maxPathSize then .error .nameTooLong
  else if path.isAbsolute then
    let head := tree.root ++ "/"
    if path.text.startsWith head then
      tree.follow [] ((String.ofList (path.text.toList.drop head.length)).splitOn "/")
    else .error .notFound
  else tree.follow start path.pieces

/-- The place to which a path leads from the current directory. -/
def resolve (tree : FileTree) (path : Path) : Except FileError Place :=
  tree.resolveFrom tree.current path

/-- Whether a path leads to a file. -/
def isFile (tree : FileTree) (path : Path) : Bool :=
  match tree.resolve path with
  | .ok place => tree.isFileAt place
  | .error _ => false

/-- The directory to which a path leads. -/
def directory? (tree : FileTree) (path : Path) : Option Place :=
  match tree.resolve path with
  | .ok place => if tree.isDirectoryAt place then some place else none
  | .error _ => none

/-- The text of the file at a place. -/
def readAt (tree : FileTree) (place : Place) : Except FileError String :=
  match tree.contentAt? place with
  | some content =>
    match String.fromUTF8? content with
    | some text => .ok text
    | none => .error .notText
  | none => .error (if tree.isDirectoryAt place then .isADirectory else .notFound)

/-- The text of the file to which a path leads. -/
def read (tree : FileTree) (path : Path) : Except FileError String := do
  tree.readAt (← tree.resolve path)

/-- Opens a file for writing: where it is, and the tree in which it is empty. A path that ends in a
slash names no file. -/
def create (tree : FileTree) (path : Path) : Except FileError (Place × FileTree) := do
  let trimmed := String.ofList (path.text.toList.reverse.dropWhile (· == '/')).reverse
  let place ← tree.resolve (if trimmed = "" then path else ⟨trimmed⟩)
  if tree.isDirectoryAt place || path.text.endsWith "/" then throw .isADirectory
  return (place, tree.put place .empty)

end FileTree

end PhpStyle
