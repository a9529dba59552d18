/-!
# Where a comparison is cut in two

A shortest list of deletions and insertions that makes one sequence of another is
a shortest path from the start of both to their ends, where a common element is a
free step along a diagonal. Paths are grown from both ends at once, round by round
by one deletion or insertion; on each diagonal only the path that reaches furthest
is kept. Where the two growths meet, the comparison falls into two smaller ones.

The diagonal of a place is the number of elements used of the first sequence less
the number used of the second one.
-/

namespace PhpStyle.Patch

/-- The number of elements that two lists have in common at their starts. -/
def commonPrefix {α : Type} [DecidableEq α] : List α → List α → Nat
  | left :: lefts, right :: rights => if left = right then commonPrefix lefts rights + 1 else 0
  | _, _ => 0

/-- The number of elements that two lists have in common at their ends. -/
def commonSuffix {α : Type} [DecidableEq α] (lefts rights : List α) : Nat :=
  commonPrefix lefts.reverse rights.reverse

/-- What is left of a list after each number of elements. -/
def suffixes {α : Type} : List α → List (List α)
  | [] => [[]]
  | first :: rest => (first :: rest) :: suffixes rest

/-- Two sequences that are walked through from their starts. -/
structure Sides (α : Type) where
  /-- What is left of the first sequence after each number of elements. -/
  old : Array (List α)
  /-- What is left of the second sequence after each number of elements. -/
  new : Array (List α)

namespace Sides

/-- The sides of a comparison. -/
def ofLists {α : Type} (old new : List α) : Sides α :=
  ⟨(suffixes old).toArray, (suffixes new).toArray⟩

/-- The number of free steps from a place. -/
def free {α : Type} [DecidableEq α] (sides : Sides α) (oldUsed newUsed : Nat) : Nat :=
  commonPrefix (sides.old.getD oldUsed []) (sides.new.getD newUsed [])

end Sides

/-- How many elements of the first sequence the furthest path on each diagonal uses. -/
structure Frontier where
  /-- The place of diagonal zero. -/
  offset : Nat
  reached : Array Nat

namespace Frontier

/-- A frontier for a number of rounds, before the first of them. -/
def start (rounds : Nat) : Frontier :=
  ⟨rounds + 1, Array.replicate (2 * rounds + 3) 0⟩

/-- How far the path on a diagonal has come. -/
def get (frontier : Frontier) (diagonal : Int) : Nat :=
  frontier.reached.getD (diagonal + frontier.offset).toNat 0

/-- Sets how far the path on a diagonal has come. -/
def set (frontier : Frontier) (diagonal : Int) (reach : Nat) : Frontier :=
  { frontier with reached :=
      frontier.reached.setIfInBounds (diagonal + frontier.offset).toNat reach }

/-- Where the path on a diagonal starts in a round: one step from the neighbour that is further,
before any free steps. -/
def stepOnto (frontier : Frontier) (round : Nat) (diagonal : Int) : Nat :=
  if diagonal = -round
      ∨ (diagonal ≠ round ∧ frontier.get (diagonal - 1) < frontier.get (diagonal + 1)) then
    frontier.get (diagonal + 1)
  else frontier.get (diagonal - 1) + 1

end Frontier

/-- The diagonals that a round reaches, from the highest to the lowest. -/
def diagonals (round : Nat) : List Int :=
  (List.range (round + 1)).map fun (step : Nat) => (round : Int) - 2 * step

/-- What the two growths of a comparison look at. -/
structure Field (α : Type) where
  oldLength : Nat
  newLength : Nat
  ahead : Sides α
  /-- The reversed sequences. -/
  back : Sides α

namespace Field

/-- The field of a comparison. -/
def ofLists {α : Type} (old new : List α) : Field α :=
  ⟨old.length, new.length, .ofLists old new, .ofLists old.reverse new.reverse⟩

/-- The diagonal of the ends of both sequences. -/
def difference {α : Type} (field : Field α) : Int :=
  (field.oldLength : Int) - field.newLength

end Field

/-- The two growths of a comparison. -/
structure Growth where
  forward : Frontier
  backward : Frontier

section

variable {α : Type} [DecidableEq α]

/-- One step of the forward growth: the new frontier, or the place where its last stretch of free
steps starts if that stretch meets the backward growth. -/
def growForward (field : Field α) (round : Nat) (backward forward : Frontier) (diagonal : Int) :
    Except (Nat × Nat) Frontier :=
  let oldUsed := forward.stepOnto round diagonal
  let newUsed := (oldUsed - diagonal).toNat
  let reach := oldUsed + field.ahead.free oldUsed newUsed
  let facing := field.difference - diagonal
  if field.difference % 2 = 1 ∧ facing.natAbs + 1 ≤ round
      ∧ field.oldLength ≤ reach + backward.get facing then
    .error (oldUsed, newUsed)
  else .ok (forward.set diagonal reach)

/-- One step of the backward growth, which is a forward growth on the reversed sequences: the new
frontier, or the place where its last stretch of free steps ends if that stretch meets the forward
growth. -/
def growBackward (field : Field α) (round : Nat) (forward backward : Frontier) (diagonal : Int) :
    Except (Nat × Nat) Frontier :=
  let oldUsed := backward.stepOnto round diagonal
  let newUsed := (oldUsed - diagonal).toNat
  let free := field.back.free oldUsed newUsed
  let reach := oldUsed + free
  let facing := field.difference - diagonal
  if field.difference % 2 = 0 ∧ facing.natAbs ≤ round
      ∧ field.oldLength ≤ reach + forward.get facing then
    .error (field.oldLength - reach, field.newLength - (newUsed + free))
  else .ok (backward.set diagonal reach)

/-- One round of both growths. -/
def growRound (field : Field α) (growth : Growth) (round : Nat) : Except (Nat × Nat) Growth := do
  let forward ← (diagonals round).foldlM (growForward field round growth.backward) growth.forward
  let backward ← (diagonals round).foldlM (growBackward field round forward) growth.backward
  return ⟨forward, backward⟩

/-- Where the two growths meet: how much of each sequence belongs to the first part. -/
def splitPoint? (old new : List α) : Option (Nat × Nat) :=
  let rounds := (old.length + new.length + 1) / 2 + 1
  let growth : Growth := ⟨.start rounds, .start rounds⟩
  match (List.range rounds).foldlM (growRound (.ofLists old new)) growth with
  | .error place => some place
  | .ok _ => none

end

end PhpStyle.Patch
