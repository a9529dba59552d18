/-!
# Glob patterns

A pattern is a list of pieces. Most pieces stand for one character; a star stands
for any run of characters, slashes included, and a double star, which has to be a
whole component of the pattern, for any number of whole directories.

Matching is by recursion on the pieces: the answers of the rest of a pattern at
all places of a text give the answers of the whole pattern there.
-/

namespace PhpStyle

/-- A piece of a glob pattern. -/
inductive Glob.Piece where
  | character (expected : Char)
  /-- Any one character. -/
  | anyOne
  /-- Any run of characters. -/
  | anyRun
  /-- Any number of whole directories, or all that is left. -/
  | anyDirectories
  /-- One character out of some ranges, or out of none of them. -/
  | oneOf (isNegated : Bool) (ranges : List (Char × Char))
deriving DecidableEq, Repr, Inhabited

/-- A glob pattern. -/
abbrev Glob := List Glob.Piece

namespace Glob

/-- The ranges of a character class. -/
def classRanges : List Char → List (Char × Char)
  | first :: '-' :: last :: rest => (first, last) :: classRanges rest
  | single :: rest => (single, single) :: classRanges rest
  | [] => []

/-- Reads a character class after its opening bracket; the rest follows the closing bracket. The
first character belongs to the class even if it is a closing bracket. -/
def readClass? (isNegated : Bool) : List Char → Option (Piece × List Char)
  | [] => none
  | first :: more =>
    match more.dropWhile (· != ']') with
    | [] => none
    | _ :: rest => some (.oneOf isNegated (classRanges (first :: more.takeWhile (· != ']'))), rest)

theorem length_of_readClass? {isNegated : Bool} {text rest : List Char} {piece : Piece}
    (read : readClass? isNegated text = some (piece, rest)) : rest.length < text.length := by
  cases text with
  | nil => simp [readClass?] at read
  | cons first more =>
    simp only [readClass?] at read
    split at read
    · simp at read
    · rename_i head tail found
      have shorter := (List.dropWhile_suffix (l := more) (· != ']')).length_le
      rw [found] at shorter
      simp only [Option.some.injEq, Prod.mk.injEq] at read
      rw [← read.2]
      simp only [List.length_cons] at shorter ⊢
      omega

/-- Reads a pattern. `atStart` says whether a component of the pattern starts here. Three stars in
a row, a double star inside a component and an unclosed class make the pattern invalid. -/
def readFrom? (atStart : Bool) (text : List Char) : Option Glob :=
  match text with
  | [] => some []
  | '*' :: '*' :: '*' :: _ => none
  | '*' :: '*' :: '/' :: rest =>
    if atStart then (readFrom? true rest).map (.anyDirectories :: ·) else none
  | ['*', '*'] => if atStart then some [.anyDirectories] else none
  | '*' :: '*' :: _ => none
  | '*' :: rest => (readFrom? false rest).map (.anyRun :: ·)
  | '?' :: rest => (readFrom? false rest).map (.anyOne :: ·)
  | '[' :: '!' :: body =>
    match _read : readClass? true body with
    | none => none
    | some (piece, rest) => (readFrom? false rest).map (piece :: ·)
  | '[' :: body =>
    match _read : readClass? false body with
    | none => none
    | some (piece, rest) => (readFrom? false rest).map (piece :: ·)
  | c :: rest => (readFrom? (c == '/') rest).map (.character c :: ·)
termination_by text.length
decreasing_by
  all_goals simp only [List.length_cons]
  all_goals first
    | omega
    | exact Nat.lt_of_lt_of_le (length_of_readClass? (by assumption)) (by omega)

/-- Reads a pattern. -/
def ofText? (text : String) : Option Glob :=
  readFrom? true text.toList

/-- Whether a piece that stands for one character accepts a character. -/
def Piece.accepts (piece : Piece) (c : Char) : Bool :=
  match piece with
  | character expected => c == expected
  | anyOne => true
  | oneOf isNegated ranges =>
    (ranges.any fun (first, last) => first ≤ c && c ≤ last) != isNegated
  | anyRun | anyDirectories => false

/-- Whether any answer from each place on is positive. -/
def anyFrom : List Bool → List Bool
  | [] => []
  | answer :: rest =>
    let others := anyFrom rest
    (answer || others.headD false) :: others

/-- Whether the answer after some later slash, or at the end of the text, is positive, at each place
of the text. -/
def afterSlash : List Char → List Bool → List Bool
  | c :: text, _ :: answers =>
    let others := afterSlash text answers
    (c == '/' && answers.headD false || others.headD false) :: others
  | _, answers => answers

/-- Whether one character is accepted and the answer after it is positive, at each place of the
text. -/
def afterOne (accepts : Char → Bool) : List Char → List Bool → List Bool
  | c :: text, _ :: answers => (accepts c && answers.headD false) :: afterOne accepts text answers
  | _, answers => answers.map fun _ => false

/-- Whether a pattern matches what is left of a text, at each place of the text. -/
def matchesEach : Glob → List Char → List Bool
  | [], text => text.foldr (fun _ answers => false :: answers) [true]
  | piece :: pattern, text =>
    let answers := matchesEach pattern text
    match piece with
    | .anyRun => anyFrom answers
    | .anyDirectories => List.zipWith or answers (afterSlash text answers)
    | piece => afterOne piece.accepts text answers

/-- Whether a pattern matches the whole of a text. -/
def matchesText (pattern : Glob) (text : String) : Bool :=
  (pattern.matchesEach text.toList).headD false

end Glob

end PhpStyle
