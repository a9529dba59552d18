import PhpStyle.Patch.Script

/-!
# What edit scripts make

An edit script makes the second sequence of the first one: the kept and the deleted elements are
the first sequence, the kept and the inserted ones are the second. This is kept by whatever is
done to a script after it was found. The places that changes remember play no part in it.
-/

namespace PhpStyle.Patch

open List

variable {α : Type}

/-- The elements of the first sequence in a step. -/
def Step.old : Step α → List α
  | keep element => [element]
  | delete elements _ => elements
  | insert .. => []

/-- The elements of the second sequence in a step. -/
def Step.new : Step α → List α
  | keep element => [element]
  | delete .. => []
  | insert elements _ => elements

/-- A step that changes or keeps something. -/
def Step.IsReal (step : Step α) : Prop :=
  step.old ++ step.new ≠ []

/-- A script of real steps that makes one sequence of another. -/
structure Makes (script : Script α) (old new : List α) : Prop where
  old_eq : script.flatMap Step.old = old
  new_eq : script.flatMap Step.new = new
  real : ∀ step ∈ script, step.IsReal

namespace Makes

variable {left right : Script α} {old new oldRest newRest : List α}

theorem nil : Makes ([] : Script α) [] [] :=
  ⟨rfl, rfl, forall_mem_nil _⟩

theorem append (first : Makes left old new) (second : Makes right oldRest newRest) :
    Makes (left ++ right) (old ++ oldRest) (new ++ newRest) := by
  constructor
  · rw [flatMap_append, first.old_eq, second.old_eq]
  · rw [flatMap_append, first.new_eq, second.new_eq]
  · exact List.forall_mem_append.mpr ⟨first.real, second.real⟩

theorem of_cut {oldCut newCut : Nat} (first : Makes left (old.take oldCut) (new.take newCut))
    (second : Makes right (old.drop oldCut) (new.drop newCut)) : Makes (left ++ right) old new := by
  have whole := first.append second
  rwa [take_append_drop, take_append_drop] at whole

theorem keep (elements : List α) : Makes (elements.map Step.keep) elements elements := by
  constructor
  · simp [flatMap_map, Step.old]
  · simp [flatMap_map, Step.new]
  · intro step listed
    rcases List.mem_map.mp listed with ⟨element, -, rfl⟩
    exact cons_ne_nil _ _

end Makes

/-! ## Shortest scripts -/

/-- Replacing all of one list by all of another makes the other one. -/
theorem makes_replaceAll (oldAt newAt : Nat) (old new : List α) :
    Makes (replaceAll oldAt newAt old new) old new := by
  cases old with
  | nil =>
    cases new with
    | nil => exact .nil
    | cons first rest => constructor <;> simp [replaceAll, Step.old, Step.new, Step.IsReal]
  | cons element others =>
    cases new with
    | nil => constructor <;> simp [replaceAll, Step.old, Step.new, Step.IsReal]
    | cons first rest => constructor <;> simp [replaceAll, Step.old, Step.new, Step.IsReal]

section Shortest

variable [DecidableEq α]

theorem take_commonPrefix (left right : List α) :
    left.take (commonPrefix left right) = right.take (commonPrefix left right) := by
  fun_induction commonPrefix left right with
  | case1 lefts element rights ih => rw [take_succ_cons, take_succ_cons, ih]
  | case2 => rfl
  | case3 => rfl

theorem drop_commonSuffix (left right : List α) :
    left.drop (left.length - commonSuffix left right) =
      right.drop (right.length - commonSuffix left right) := by
  rw [← reverse_inj, ← take_reverse, ← take_reverse]
  exact take_commonPrefix left.reverse right.reverse

theorem Makes.behind_commonPrefix {old new : List α} {script : Script α}
    (makes : Makes script (old.drop (commonPrefix old new)) (new.drop (commonPrefix old new))) :
    Makes ((old.take (commonPrefix old new)).map .keep ++ script) old new := by
  have whole := (Makes.keep (old.take (commonPrefix old new))).append makes
  rwa [take_append_drop, take_commonPrefix old new, take_append_drop,
    ← take_commonPrefix old new] at whole

theorem Makes.before_commonSuffix {old new : List α} {script : Script α}
    (makes : Makes script (old.take (old.length - commonSuffix old new))
      (new.take (new.length - commonSuffix old new))) :
    Makes (script ++ (old.drop (old.length - commonSuffix old new)).map .keep) old new := by
  have whole := makes.append (.keep (old.drop (old.length - commonSuffix old new)))
  rwa [take_append_drop, drop_commonSuffix old new, take_append_drop,
    ← drop_commonSuffix old new] at whole

/-- Where a comparison is cut does not matter for what its script makes. -/
theorem makes_shortest (oldAt newAt : Nat) (old new : List α) :
    Makes (shortest oldAt newAt old new) old new := by
  rw [shortest, List.append_assoc]
  apply Makes.behind_commonPrefix
  apply Makes.before_commonSuffix
  split
  · apply makes_replaceAll
  · split
    · apply makes_replaceAll
    · split
      · exact .of_cut (makes_shortest ..) (makes_shortest ..)
      · apply makes_replaceAll
termination_by old.length + new.length
decreasing_by
  · omega
  · omega

end Shortest

/-! ## Moved changes -/

/-- Steps that can stand in place of others without a change in what a script makes. -/
structure Replaces (right left : Script α) : Prop where
  old_eq : right.flatMap Step.old = left.flatMap Step.old
  new_eq : right.flatMap Step.new = left.flatMap Step.new
  real : (∀ step ∈ left, step.IsReal) → ∀ step ∈ right, step.IsReal

namespace Replaces

variable {left right other : Script α}

theorem refl (script : Script α) : Replaces script script :=
  ⟨rfl, rfl, id⟩

theorem trans (second : Replaces other right) (first : Replaces right left) : Replaces other left :=
  ⟨second.old_eq.trans first.old_eq, second.new_eq.trans first.new_eq, second.real ∘ first.real⟩

theorem behind (replaces : Replaces right left) (front : Script α) :
    Replaces (front ++ right) (front ++ left) := by
  constructor
  · rw [flatMap_append, flatMap_append, replaces.old_eq]
  · rw [flatMap_append, flatMap_append, replaces.new_eq]
  · rw [forall_mem_append, forall_mem_append]
    exact And.imp_right replaces.real

theorem before (replaces : Replaces right left) (back : Script α) :
    Replaces (right ++ back) (left ++ back) := by
  constructor
  · rw [flatMap_append, flatMap_append, replaces.old_eq]
  · rw [flatMap_append, flatMap_append, replaces.new_eq]
  · rw [forall_mem_append, forall_mem_append]
    exact And.imp_left replaces.real

theorem makes {old new : List α} (replaces : Replaces right left) (makes : Makes left old new) :
    Makes right old new :=
  ⟨replaces.old_eq.trans makes.old_eq, replaces.new_eq.trans makes.new_eq, replaces.real makes.real⟩

end Replaces

section Moves

variable (elements others : List α) (oldAt newAt place : Nat)

theorem replaces_rising : Replaces [.insert elements oldAt, .delete others newAt]
    [.delete others newAt, .insert elements oldAt] := by
  constructor <;> simp +contextual [Step.old, Step.new, Step.IsReal]

theorem replaces_sinking : Replaces [.delete others newAt, .insert elements oldAt]
    [.insert elements oldAt, .delete others newAt] := by
  constructor <;> simp +contextual [Step.old, Step.new, Step.IsReal]

theorem replaces_deletions : Replaces [.delete (elements ++ others) newAt]
    [.delete elements newAt, .delete others place] := by
  constructor <;> simp +contextual [Step.old, Step.new, Step.IsReal]

theorem replaces_insertions : Replaces [.insert (elements ++ others) place]
    [.insert elements oldAt, .insert others newAt] := by
  constructor <;> simp +contextual [Step.old, Step.new, Step.IsReal]

/-- An insertion that ends with the kept element above it may begin with that element instead. -/
theorem replaces_of_getLast? {block : List α} {element : α} (last : block.getLast? = some element) :
    Replaces [.insert (element :: block.dropLast) place, .keep element]
      [.keep element, .insert block oldAt] := by
  rcases List.getLast?_eq_some_iff.mp last with ⟨front, rfl⟩
  constructor <;> simp [Step.old, Step.new, Step.IsReal]

/-- An insertion that begins with the kept element below it may end with that element instead. -/
theorem replaces_of_head? {block : List α} {element : α} (head : block.head? = some element) :
    Replaces [.keep element, .insert (block.tail ++ [element]) place]
      [.insert block oldAt, .keep element] := by
  rcases List.head?_eq_some_iff.mp head with ⟨rest, rfl⟩
  constructor <;> simp [Step.old, Step.new, Step.IsReal]

end Moves

theorem replaces_gatherDeletions (pending : Option (List α × Nat)) (script : Script α) :
    Replaces (gatherDeletions pending script) (gatherDeletions.settled pending ++ script) := by
  fun_induction gatherDeletions pending script with
  | case1 pending =>
    rw [append_nil]
    exact .refl _
  | case2 pending element rest ih =>
    exact (ih.behind [.keep element]).behind (gatherDeletions.settled pending)
  | case3 pending elements oldAt rest ih =>
    apply (ih.behind [.insert elements oldAt]).trans
    cases pending with
    | none => exact .refl _
    | some deletion => exact (replaces_rising elements deletion.1 oldAt deletion.2).before rest
  | case4 elements newAt rest ih => exact ih
  | case5 first newAt elements place rest ih =>
    exact ih.trans ((replaces_deletions first elements newAt place).before rest)

/-- A script in which an insertion is being moved. -/
def Cursor.script (cursor : Cursor α) : Script α :=
  cursor.before.reverse ++ .insert cursor.block cursor.oldAt :: cursor.after

theorem Cursor.script_cons (step : Step α) (before : Script α) (block : List α) (oldAt : Nat)
    (after : Script α) : (Cursor.mk (step :: before) block oldAt after).script =
      before.reverse ++ (step :: .insert block oldAt :: after) := by
  rw [Cursor.script, reverse_cons, List.append_assoc, singleton_append]

section Settled

variable [DecidableEq α]

/-- Moving a block of insertions up keeps what a script does. -/
theorem replaces_moveUp (before : Script α) (block : List α) (oldAt : Nat) (after : Script α) :
    Replaces (moveUp before block oldAt after).script
      (Cursor.mk before block oldAt after).script := by
  fun_induction moveUp before block oldAt after with
  | case1 block oldAt after => exact .refl _
  | case2 elements newAt before block oldAt after ih =>
    apply ih.trans
    rw [Cursor.script_cons]
    exact ((replaces_rising block elements oldAt newAt).before after).behind before.reverse
  | case3 elements upperAt before block oldAt after ih =>
    apply ih.trans
    rw [Cursor.script_cons]
    exact ((replaces_insertions elements block upperAt oldAt upperAt).before after).behind
      before.reverse
  | case4 element before block oldAt after last ih =>
    apply ih.trans
    rw [Cursor.script_cons]
    exact ((replaces_of_getLast? oldAt (oldAt - 1) last).before after).behind before.reverse
  | case5 element before block oldAt after last => exact .refl _

/-- Moving a block of insertions down keeps what a script does. -/
theorem replaces_moveDown (before : Script α) (block : List α) (oldAt : Nat) (after : Script α) :
    Replaces (moveDown before block oldAt after).script
      (Cursor.mk before block oldAt after).script := by
  fun_induction moveDown before block oldAt after with
  | case1 before block oldAt => exact .refl _
  | case2 before block oldAt elements newAt after ih =>
    apply ih.trans
    rw [Cursor.script_cons]
    exact ((replaces_sinking block elements oldAt newAt).before after).behind before.reverse
  | case3 before block oldAt elements lowerAt after ih =>
    apply ih.trans
    exact ((replaces_insertions block elements oldAt lowerAt oldAt).before after).behind
      before.reverse
  | case4 before block oldAt element after head ih =>
    apply ih.trans
    rw [Cursor.script_cons]
    exact ((replaces_of_head? oldAt (oldAt + 1) head).before after).behind before.reverse
  | case5 before block oldAt element after head => exact .refl _

/-- Settling the deletions of a script one by one keeps what the script does. -/
theorem replaces_settleFrom (count : Nat) (before after : Script α) :
    Replaces (settleFrom count before after) (before.reverse ++ after) := by
  fun_induction settleFrom count before after with
  | case1 before after => exact .refl _
  | case2 before =>
    rw [append_nil]
    exact .refl _
  | case3 count before elements oldAt after top bottom ih =>
    have moved : Replaces bottom.script (before.reverse ++ .insert elements oldAt :: after) :=
      (replaces_moveDown top.before top.block top.oldAt top.after).trans
        (replaces_moveUp before elements oldAt after)
    rw [reverse_cons, List.append_assoc] at ih
    exact ih.trans moved
  | case4 count before step after _ ih =>
    rw [reverse_cons, List.append_assoc] at ih
    exact ih

/-- The script by which differences are shown makes the new sequence of the old one. -/
theorem makes_script (old new : List α) : Makes (script old new) old new :=
  (replaces_settleFrom _ _ _).makes
    ((replaces_gatherDeletions none _).makes (makes_shortest 0 0 old new))

end Settled

end PhpStyle.Patch
