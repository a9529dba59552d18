import PhpStyle.Patch.Script
import PhpStyle.Text.Line

/-!
# Unified differences

The differences of two texts as hunks: stretches of changed lines with up to three
unchanged lines around them. Changes with at most six unchanged lines between them
share a hunk.

The header of a hunk names the lines that it covers in either text. It is taken
from the first and the last segment of the hunk, and a segment that only deletes
or only inserts is placed in the other text where it was found. Where changes have
passed each other, that is not where it stands, so a header may differ from the
lines below it.
-/

namespace PhpStyle.Patch

/-- A stretch of a comparison. -/
inductive Segment (α : Type) where
  /-- Elements of both sequences. -/
  | same (elements : List α)
  /-- Elements of the first sequence in whose place those of the second one stand. The insertions
  were found at a place of the first sequence and the deletions at one of the second. -/
  | changed (deleted inserted : List α) (oldAt newAt : Nat)
deriving DecidableEq, Repr

section

variable {α : Type}

/-- The elements of the first sequence in a segment. -/
def Segment.old : Segment α → List α
  | same elements => elements
  | changed deleted .. => deleted

/-- The elements of the second sequence in a segment. -/
def Segment.new : Segment α → List α
  | same elements => elements
  | changed _ inserted _ _ => inserted

/-- Whether a segment is a change. -/
def Segment.isChange : Segment α → Bool
  | same _ => false
  | changed .. => true

/-- The segments of a script. Steps of the same sort that follow each other are one segment, and
of several places the first one counts. -/
def segments : Script α → List (Segment α)
  | [] => []
  | .keep element :: rest =>
    match segments rest with
    | .same elements :: others => .same (element :: elements) :: others
    | others => .same [element] :: others
  | .delete elements newAt :: rest =>
    match segments rest with
    | .changed deleted inserted oldAt _ :: others =>
      .changed (elements ++ deleted) inserted oldAt newAt :: others
    | others => .changed elements [] 0 newAt :: others
  | .insert elements oldAt :: rest =>
    match segments rest with
    | .changed deleted inserted _ newAt :: others =>
      .changed deleted (elements ++ inserted) oldAt newAt :: others
    | others => .changed [] elements oldAt 0 :: others

/-- A stretch of a comparison that is shown. -/
structure Hunk (α : Type) where
  /-- The number of elements of the first sequence before the hunk. -/
  oldStart : Nat
  /-- The number of elements of the second sequence before the hunk. -/
  newStart : Nat
  segments : List (Segment α) := []
deriving DecidableEq, Repr

namespace Hunk

/-- The elements of the first sequence in a hunk. -/
def old (hunk : Hunk α) : List α :=
  hunk.segments.flatMap Segment.old

/-- The elements of the second sequence in a hunk. -/
def new (hunk : Hunk α) : List α :=
  hunk.segments.flatMap Segment.new

/-- Adds a segment at the end of a hunk. -/
def push (hunk : Hunk α) (segment : Segment α) : Hunk α :=
  { hunk with segments := hunk.segments ++ [segment] }

/-- The empty hunk that starts a number of elements after the end of a hunk. -/
def next (hunk : Hunk α) (distance : Nat) : Hunk α where
  oldStart := hunk.oldStart + hunk.old.length + distance
  newStart := hunk.newStart + hunk.new.length + distance

/-- Where a hunk is said to start and to end in the first sequence. -/
def oldRange (hunk : Hunk α) : Nat × Nat :=
  (match hunk.segments.head? with
    | some (.changed [] _ oldAt _) => oldAt
    | _ => hunk.oldStart,
  match hunk.segments.getLast? with
    | some (.changed [] _ oldAt _) => oldAt
    | _ => hunk.oldStart + hunk.old.length)

/-- Where a hunk is said to start and to end in the second sequence. -/
def newRange (hunk : Hunk α) : Nat × Nat :=
  (match hunk.segments.head? with
    | some (.changed _ [] _ newAt) => newAt
    | _ => hunk.newStart,
  match hunk.segments.getLast? with
    | some (.changed _ [] _ newAt) => newAt
    | _ => hunk.newStart + hunk.new.length)

end Hunk

/-- The number of unchanged lines that are shown around a change. -/
def contextSize : Nat := 3

/-- The hunks of segments, the first of which go on with a hunk. A long stretch without changes
ends the hunk, and what is shown of its end starts the next one. -/
def hunksFrom (hunk : Hunk α) : List (Segment α) → List (Hunk α)
  | [] => if hunk.segments.any Segment.isChange then [hunk] else []
  | .same elements :: rest =>
    if elements.length > 2 * contextSize then
      let ended := hunk.push (.same (elements.take contextSize))
      let skipped := elements.length - 2 * contextSize
      let context := elements.drop (contextSize + skipped)
      ended :: hunksFrom ((ended.next skipped).push (.same context)) rest
    else hunksFrom (hunk.push (.same elements)) rest
  | change :: rest => hunksFrom (hunk.push change) rest

/-- Shortens the unchanged stretch at the end of the segments to what is shown of it. -/
def trimEnd : List (Segment α) → List (Segment α)
  | [] => []
  | [.same elements] => [.same (elements.take contextSize)]
  | segment :: rest => segment :: trimEnd rest

/-- The hunks of segments. -/
def hunks (segments : List (Segment α)) : List (Hunk α) :=
  match segments with
  | .same elements :: rest =>
    let skipped := elements.length - contextSize
    hunksFrom ⟨skipped, skipped, []⟩ (trimEnd (.same (elements.drop skipped) :: rest))
  | segments => hunksFrom ⟨0, 0, []⟩ (trimEnd segments)

end

/-! ## Text -/

/-- The range of lines in the header of a hunk: its first line and, unless it is one, the number of
lines. An empty range is named by the line before it, and so is a range that ends before it
starts. -/
def rangeText (range : Nat × Nat) : String :=
  let (start, stop) := range
  let length := stop - start
  let first := start + 1
  if length = 1 then toString first
  else if length = 0 then s!"{start},0"
  else s!"{first},{length}"

/-- A line after its sign. A line that lacks the characters at its end is ended by an empty
line. -/
def signedLine (sign : Char) (line : Line) : List Char :=
  sign :: line ++ if line.isEnded then [] else ['\n', '\n']

/-- The text of a segment. -/
def Segment.render : Segment Line → List Char
  | same lines => lines.flatMap (signedLine ' ')
  | changed deleted inserted _ _ =>
    deleted.flatMap (signedLine '-') ++ inserted.flatMap (signedLine '+')

/-- The text of a hunk. -/
def Hunk.render (hunk : Hunk Line) : String :=
  let oldRange := rangeText hunk.oldRange
  let newRange := rangeText hunk.newRange
  let body := String.ofList (hunk.segments.flatMap Segment.render)
  s!"@@ -{oldRange} +{newRange} @@\n{body}"

/-- The hunks of two texts. -/
def textHunks (old new : List Char) : List (Hunk Line) :=
  hunks (segments (script (splitLines old) (splitLines new)))

/-- The differences of the old and the new text of a file. -/
def unified (path : String) (old new : List Char) : String :=
  s!"--- a/{path}\n+++ b/{path}\n" ++ String.join ((textHunks old new).map Hunk.render)

end PhpStyle.Patch
