import PhpStyle.Patch.Split

/-!
# Edit scripts

An edit script walks through two sequences at once and says of each element
whether it is kept, deleted from the first or inserted from the second. A script
carries the elements, so both sequences can be read off it.

The script of two sequences is found by cutting the comparison in two until one
side is empty. Then the deletions between two kept elements become one, and each
insertion is moved down as far as it goes, past elements that it could as well
stand behind; insertions that meet on the way become one.

A change remembers where it was found in the sequence that it does not touch. An
insertion that is moved past kept elements takes these into account, but changes
that pass each other leave what they remember as it is.
-/

namespace PhpStyle.Patch

/-- A step of an edit script. -/
inductive Step (α : Type) where
  | keep (element : α)
  /-- Elements of the first sequence, found to be missing at a place of the second one. -/
  | delete (elements : List α) (newAt : Nat)
  /-- Elements of the second sequence, found to be new at a place of the first one. -/
  | insert (elements : List α) (oldAt : Nat)
deriving DecidableEq, Repr

/-- An edit script. -/
abbrev Script (α : Type) := List (Step α)

variable {α : Type} [DecidableEq α]

/-- The script that replaces one sequence by another as a whole, both at a place. -/
def replaceAll (oldAt newAt : Nat) (old new : List α) : Script α :=
  (if old.isEmpty then [] else [.delete old newAt])
    ++ if new.isEmpty then [] else [.insert new oldAt]

/-- A shortest script that makes the second sequence of the first one. Both are parts of longer
sequences, in which they start at the given places. -/
def shortest (oldAt newAt : Nat) (old new : List α) : Script α :=
  let head := commonPrefix old new
  let oldRest := old.drop head
  let newRest := new.drop head
  let tail := commonSuffix oldRest newRest
  let oldMiddle := oldRest.take (oldRest.length - tail)
  let newMiddle := newRest.take (newRest.length - tail)
  let oldAt := oldAt + head
  let newAt := newAt + head
  let middle :=
    if oldMiddle.isEmpty ∨ newMiddle.isEmpty then replaceAll oldAt newAt oldMiddle newMiddle
    else
      match splitPoint? oldMiddle newMiddle with
      | none => replaceAll oldAt newAt oldMiddle newMiddle
      | some (oldCut, newCut) =>
        if _smaller : (oldMiddle.take oldCut).length + (newMiddle.take newCut).length
              < old.length + new.length
            ∧ (oldMiddle.drop oldCut).length + (newMiddle.drop newCut).length
              < old.length + new.length then
          shortest oldAt newAt (oldMiddle.take oldCut) (newMiddle.take newCut)
            ++ shortest (oldAt + oldCut) (newAt + newCut)
              (oldMiddle.drop oldCut) (newMiddle.drop newCut)
        else replaceAll oldAt newAt oldMiddle newMiddle
  (old.take head).map .keep ++ middle ++ (oldRest.drop (oldRest.length - tail)).map .keep
termination_by old.length + new.length
decreasing_by
  · exact _smaller.1
  · exact _smaller.2

/-- Makes one deletion of the deletions between two kept elements and puts it behind the
insertions there. The first argument is what has been met of it. -/
def gatherDeletions : Option (List α × Nat) → Script α → Script α
  | pending, [] => settled pending
  | pending, .keep element :: rest => settled pending ++ .keep element :: gatherDeletions none rest
  | pending, .insert elements oldAt :: rest =>
    .insert elements oldAt :: gatherDeletions pending rest
  | none, .delete elements newAt :: rest => gatherDeletions (some (elements, newAt)) rest
  | some (first, newAt), .delete elements _ :: rest =>
    gatherDeletions (some (first ++ elements, newAt)) rest
where
  /-- The deletion that has been met. -/
  settled : Option (List α × Nat) → Script α
    | none => []
    | some (elements, newAt) => [.delete elements newAt]

/-- An insertion that is being moved: the steps before it, the nearest one first, the inserted
elements, the place that it remembers and the steps after it. -/
structure Cursor (α : Type) where
  before : Script α
  block : List α
  oldAt : Nat
  after : Script α

/-- Moves an insertion up as far as it goes. Where it meets another one, that one's place is
remembered. -/
def moveUp : Script α → List α → Nat → Script α → Cursor α
  | [], block, oldAt, after => ⟨[], block, oldAt, after⟩
  | .delete elements newAt :: before, block, oldAt, after =>
    moveUp before block oldAt (.delete elements newAt :: after)
  | .insert elements upperAt :: before, block, _, after =>
    moveUp before (elements ++ block) upperAt after
  | .keep element :: before, block, oldAt, after =>
    if block.getLast? = some element then
      moveUp before (element :: block.dropLast) (oldAt - 1) (.keep element :: after)
    else ⟨.keep element :: before, block, oldAt, after⟩

/-- Moves an insertion down as far as it goes. Where it meets another one, its own place is
remembered. -/
def moveDown (before : Script α) (block : List α) (oldAt : Nat) : Script α → Cursor α
  | [] => ⟨before, block, oldAt, []⟩
  | .delete elements newAt :: after => moveDown (.delete elements newAt :: before) block oldAt after
  | .insert elements _ :: after => moveDown before (block ++ elements) oldAt after
  | .keep element :: after =>
    if block.head? = some element then
      moveDown (.keep element :: before) (block.tail ++ [element]) (oldAt + 1) after
    else ⟨before, block, oldAt, .keep element :: after⟩

/-- Moves the insertions of a script, the first argument bounding the number of steps looked at.
The steps that are done stand in reverse order. -/
def settleFrom : Nat → Script α → Script α → Script α
  | 0, before, after => before.reverse ++ after
  | _, before, [] => before.reverse
  | count + 1, before, .insert elements oldAt :: after =>
    let top := moveUp before elements oldAt after
    let bottom := moveDown top.before top.block top.oldAt top.after
    settleFrom count (.insert bottom.block bottom.oldAt :: bottom.before) bottom.after
  | count + 1, before, step :: after => settleFrom count (step :: before) after

/-- Moves the insertions of a script. An insertion that joins an earlier one may leave steps behind
it that were done before, so each insertion may need a whole walk. -/
def settle (script : Script α) : Script α :=
  settleFrom ((script.length + 1) * (script.length + 1)) [] script

/-- The script by which differences are shown. -/
def script (old new : List α) : Script α :=
  settle (gatherDeletions none (shortest 0 0 old new))

end PhpStyle.Patch
