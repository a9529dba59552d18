/-!
# Paths

A path is the text that was given for it. What it means is read off its
components: repeated slashes and inner or final points do not count, so two texts
may be the same path. Order and equality of paths go by components, printing goes
by the text.
-/

namespace PhpStyle

/-- A path as it was written. -/
structure Path where
  text : String
deriving DecidableEq, Repr, Inhabited

/-- A part of a path. -/
inductive Path.Component where
  /-- The slash at the start of an absolute path. -/
  | root
  /-- A point at the start of a relative path. -/
  | current
  | parent
  | name (text : String)
deriving DecidableEq, Repr, Inhabited

namespace Path.Component

/-- The written form of a component. -/
def text : Component → String
  | root => "/"
  | current => "."
  | parent => ".."
  | name text => text

/-- The place of a sort of component in the order of components. -/
def rank : Component → Nat
  | root => 0
  | current => 1
  | parent => 2
  | name _ => 3

/-- Components are ordered by their sort, names by their characters. -/
def order (left right : Component) : Ordering :=
  (compare left.rank right.rank).then (compare left.text right.text)

/-- The component for a piece between two slashes, if the piece counts. -/
def ofPiece? : String → Option Component
  | "" => none
  | "." => none
  | ".." => some parent
  | text => some (name text)

end Path.Component

namespace Path

/-- The pieces of the text between slashes. -/
def pieces (path : Path) : List String :=
  path.text.splitOn "/"

/-- The components of a path. -/
def components (path : Path) : List Component :=
  match path.pieces with
  | [] => []
  | "." :: rest => .current :: rest.filterMap Component.ofPiece?
  | "" :: second :: rest => .root :: (second :: rest).filterMap Component.ofPiece?
  | pieces => pieces.filterMap Component.ofPiece?

/-- Whether a path starts at the root of the file system. -/
def isAbsolute (path : Path) : Bool :=
  path.text.startsWith "/"

/-- The components of the directory that holds what the path names. The root and the empty path
are in no directory. -/
def parentComponents? (path : Path) : Option (List Component) :=
  match path.components.getLast? with
  | none | some .root => none
  | some _ => some path.components.dropLast

/-- Drops the pieces at the end of a path that do not count. -/
def trimPieces (pieces : List String) : List String :=
  (pieces.reverse.dropWhile fun piece => piece == "" || piece == ".").reverse

/-- The path with its last component left out, as far as it is written: pieces that do not count
stay where others follow them. The root and the empty path are in no directory. -/
def parent? (path : Path) : Option Path :=
  match path.pieces with
  | "." :: rest =>
    match trimPieces rest with
    | [] => some ⟨""⟩
    | pieces => some ⟨"/".intercalate ("." :: trimPieces pieces.dropLast)⟩
  | "" :: second :: rest =>
    match trimPieces (second :: rest) with
    | [] => none
    | pieces => some ⟨"/" ++ "/".intercalate (trimPieces pieces.dropLast)⟩
  | pieces =>
    match trimPieces pieces with
    | [] => none
    | pieces => some ⟨"/".intercalate (trimPieces pieces.dropLast)⟩

/-- A path and the directories around it, the nearest first, at most as many as the first argument
says. -/
def ancestorsFrom : Nat → Path → List Path
  | 0, path => [path]
  | count + 1, path =>
    match path.parent? with
    | some parent => path :: ancestorsFrom count parent
    | none => [path]

/-- A path and the directories around it, the nearest first. -/
def ancestors (path : Path) : List Path :=
  ancestorsFrom path.components.length path

/-- The name of the file that a path names. -/
def fileName? (path : Path) : Option String :=
  match path.components.getLast? with
  | some (.name text) => some text
  | _ => none

/-- The part of a file name after its last point. A point at the start of a name begins no
extension. -/
def extension? (path : Path) : Option String := do
  let name ← path.fileName?
  match (name.splitOn ".").reverse with
  | last :: stem :: rest => if stem = "" ∧ rest = [] then none else some last
  | _ => none

/-- The path of a name inside the directory that a path names. -/
def join (path : Path) (name : String) : Path :=
  if path.text = "" ∨ path.text.endsWith "/" then ⟨path.text ++ name⟩
  else ⟨path.text ++ "/" ++ name⟩

/-- The order of lists of components, place by place. -/
def orderComponents : List Component → List Component → Ordering
  | [], [] => .eq
  | [], _ :: _ => .lt
  | _ :: _, [] => .gt
  | left :: lefts, right :: rights => (left.order right).then (orderComponents lefts rights)

/-- Whether a path may stand before another one in a sorted list. -/
def precedes (left right : Path) : Bool :=
  orderComponents left.components right.components != .gt

/-- Drops each path that has the components of the one before it. -/
def dropRepeated : List Path → List Path
  | [] => []
  | path :: rest =>
    path :: (dropRepeated rest).dropWhile fun next => next.components == path.components

/-- Sorts paths and keeps each of them once, as it was first written. -/
def sortedDistinct (paths : List Path) : List Path :=
  dropRepeated (paths.mergeSort precedes)

end Path

end PhpStyle
