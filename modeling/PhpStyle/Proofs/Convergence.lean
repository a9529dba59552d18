import Mathlib.Data.List.Perm.Subperm
import PhpStyle.Proofs.Effects

/-!
# Fix runs settle

Every pass of a fix run that goes on has fixed something, and every fix takes out
a doc tag or puts a comma into an array literal. The tags of the file are used up
by the former. For the latter it has to be seen that all passes together put no
more commas than the original file has array literals, though each of them reads
a new text: the code of the final text is the code of the original one with at
most one comma before each closer of an array literal.

So a run makes no more fixes than the file has doc tags and array literals, and
no more passes than fixes and one. It ends before its ceiling if the ceiling is
greater.
-/

namespace PhpStyle

open List

theorem Kind.length_withCommas {α : Type} (comma : α) (items : List (Kind × Bool × α)) :
    (withCommas comma items).length = items.length + items.countP fun item => item.2.1 := by
  induction items with
  | nil => rfl
  | cons item items ih =>
    rcases item with ⟨kind, mark, content⟩
    cases mark with
    | true =>
      rw [withCommas, length_append, length_cons, ih, countP_cons_of_pos rfl]
      simp
      omega
    | false =>
      rw [withCommas, length_append, length_cons, ih, countP_cons_of_neg (by simp)]
      simp
      omega

namespace Stream

/-- The array literals of a stream, by the tokens that begin them. -/
def arrays (stream : Stream) : List Nat :=
  (List.range stream.size).filter fun owner =>
    (stream.kind? owner == some .arrayKw || stream.kind? owner == some .openShortArray) &&
      (stream.scopeOf? owner).isSome

theorem countP_marked (stream : Stream) (chosen : Nat → Bool) :
    ((stream.marked chosen).countP fun item => item.2.1) =
      (List.range stream.size).countP chosen := by
  have places : (stream.tokens.toList.zipIdx.map Prod.snd) = List.range stream.size := by
    rw [zipIdx_map_snd, range_eq_range', size, Array.length_toList]
  rw [marked, mapIdx_eq_zipIdx_map, ← places, countP_map, countP_map]
  rfl

theorem length_codeWithCommas_le (stream : Stream) (chosen : Nat → Bool) :
    (stream.codeWithCommas chosen).length ≤
      stream.code.length + (List.range stream.size).countP chosen := by
  have code_length : (significant (stream.marked chosen)).length = stream.code.length := by
    rw [← map_unmark_significant_marked stream chosen, length_map]
  rw [codeWithCommas, Kind.length_withCommas, code_length, ← countP_marked]
  apply Nat.add_le_add_left
  exact List.filter_sublist.countP_le

/-- There are no more closers of array literals than array literals. -/
theorem countP_le_length_arrays {stream : Stream} {chosen : Nat → Bool}
    (closes : ∀ index, chosen index = true → ∃ owner, stream.ClosesArray owner index) :
    (List.range stream.size).countP chosen ≤ stream.arrays.length := by
  let closerOf (owner : Nat) : Nat := ((stream.scopeOf? owner).map fun scope => scope.closer).getD 0
  have subset : (List.range stream.size).filter chosen ⊆ stream.arrays.map closerOf := by
    intro index inside
    rcases closes index (List.mem_filter.mp inside).2 with ⟨owner, ⟨scope, found, -, rfl⟩, kinds⟩
    apply List.mem_map.mpr
    refine ⟨owner, List.mem_filter.mpr ?_, by simp [closerOf, found]⟩
    rcases kinds with ⟨keyword, -⟩ | ⟨bracket, -⟩
    · exact ⟨List.mem_range.mpr (lt_size_of_kind? keyword), by simp [keyword, found]⟩
    · exact ⟨List.mem_range.mpr (lt_size_of_kind? bracket), by simp [bracket, found]⟩
  have distinct : ((List.range stream.size).filter chosen).Nodup :=
    List.nodup_range.filter chosen
  have bounded := (List.Nodup.subperm distinct subset).length_le
  rw [length_map] at bounded
  rw [countP_eq_length_filter]
  exact bounded

end Stream

namespace Standard

open Runner

variable {ruleset : Ruleset} (builtIn : IsBuiltIn ruleset)

include builtIn

/-- The repairs that are offered in a pass are a plan, and each of them alone is one too. -/
theorem exists_effective_plan (source : List Char) :
    ∃ plan : List Repair, offered ruleset source = plan.map Repair.edits ∧
      Repair.IsPlan (lex source) plan ∧
      ∀ repair ∈ plan, Repair.IsPlan (lex source) [repair] ∧
        ∃ token, Repair.Effect (lex source) repair token := by
  have cuts := cuts_lex source
  rcases exists_plan cuts builtIn with ⟨plan, plan_eq, apart, origins⟩
  refine ⟨plan, plan_eq.symm, isPlan_of_origins cuts apart origins, ?_⟩
  intro repair planned
  rcases origins repair planned with ⟨index, origin⟩
  have alone : ∀ other ∈ [repair], ∃ index, Origin (lex source) index other := by
    simpa using ⟨index, origin⟩
  exact ⟨isPlan_of_origins cuts (pairwise_singleton _ _) alone, origin.exists_effect cuts⟩

/-- The repairs of a pass, each of which removes a tag or adds a comma. -/
theorem changes_of_offered (source : List Char) :
    ∀ changeset ∈ offered ruleset source,
      (Stream.ofSource source).RemovesTag (Stream.afterChangeset source changeset) ∨
        (Stream.ofSource source).AddsComma (Stream.afterChangeset source changeset) := by
  rcases exists_effective_plan builtIn source with ⟨plan, offered_eq, -, effects⟩
  intro changeset inside
  rw [offered_eq] at inside
  rcases List.mem_map.mp inside with ⟨repair, planned, rfl⟩
  rcases effects repair planned with ⟨alone, token, effect⟩
  exact changes_of_effect alone effect

/-- The account of one pass. -/
theorem accounted_repaired (source : List Char) :
    let before := Stream.ofSource source
    let after := Stream.ofSource (repaired ruleset source)
    (offered ruleset source).length + after.tags.length + before.code.length =
      before.tags.length + after.code.length := by
  rcases exists_effective_plan builtIn source with ⟨plan, offered_eq, isPlan, effects⟩
  rw [repaired, offered_eq, length_map]
  exact surplus_contents isPlan fun repair planned => (effects repair planned).2

/-- The account of a run: the fixes are as many as the doc tags that have gone and the tokens that
have come. -/
theorem accounted_fixPasses (path : String) (passes : Nat) (progress : Progress)
    (goesOn : progress.isConverged = false) :
    let ended := (fixPasses path passes ruleset progress).2
    let before := Stream.ofSource progress.source
    let after := Stream.ofSource ended.source
    ended.fixesApplied + after.tags.length + before.code.length =
      progress.fixesApplied + before.tags.length + after.code.length := by
  intro ended before after
  refine (fixPasses_keeps builtIn path
    (fun source fixes => fixes + (Stream.ofSource source).tags.length + before.code.length =
      progress.fixesApplied + before.tags.length + (Stream.ofSource source).code.length)
    passes goesOn rfl fun source fixes _ account => ?_).2.1
  have added := accounted_repaired builtIn source
  simp only at added
  omega

omit builtIn in
/-- Fix runs make progress and settle. Each changeset takes out one doc tag or puts one comma into
an array literal, so the doc tags and array literals of a file bound the fixes and the passes, and a
run whose ceiling is beyond that bound converges. -/
theorem fix_settles (runner : Runner)
    (builtIn : (runner.ruleset.listeners.map Listener.rule).Sublist rules) (path : String)
    (source : List Char) :
    let stream := Stream.ofSource source
    let fixed := (runner.fix path source).1
    let final := Stream.ofSource fixed.source
    fixed.fixesApplied ≤ stream.tags.length + stream.arrays.length ∧
      fixed.passes ≤ fixed.fixesApplied + 1 ∧
      (stream.tags.length + stream.arrays.length < runner.maxPasses →
        fixed.isConverged = true) ∧
      fixed.fixesApplied + final.tags.length + stream.code.length =
        stream.tags.length + final.code.length ∧
      ∀ passes,
        let reached := fixPasses path passes runner.ruleset { source }
        let text := reached.2.source
        let fixer := (reached.1.process path (.ofSource text)
          { fixer := .ofStream (.ofSource text) true }).2.fixer
        ∃ changesets, fixer = (Fixer.ofStream (.ofSource text) true).applyAll changesets ∧
          fixer.fixCount = changesets.length ∧
          ∀ changeset ∈ changesets,
            (Stream.ofSource text).RemovesTag (Stream.afterChangeset text changeset) ∨
              (Stream.ofSource text).AddsComma (Stream.afterChangeset text changeset) := by
  intro stream fixed final
  have account : fixed.fixesApplied + final.tags.length + stream.code.length =
      stream.tags.length + final.code.length := by
    rw [← Nat.zero_add stream.tags.length]
    exact accounted_fixPasses builtIn path runner.maxPasses { source } rfl
  have longer : final.code.length ≤ stream.code.length + stream.arrays.length := by
    rcases exists_code_of_commasAdded (commasAdded_fixPasses builtIn path runner.maxPasses
      { source } rfl) with ⟨chosen, ends, code_eq⟩
    rw [show final.code = stream.codeWithCommas chosen from code_eq]
    apply (stream.length_codeWithCommas_le chosen).trans
    apply Nat.add_le_add_left
    exact Stream.countP_le_length_arrays fun index here => (ends index here).exists_closesArray
  have bounded : fixed.fixesApplied ≤ stream.tags.length + stream.arrays.length := by omega
  have busy : fixed.passes ≤ fixed.fixesApplied + if fixed.isConverged then 1 else 0 :=
    busy_fixPasses (Nat.zero_le _) rfl path runner.maxPasses runner.ruleset
  refine ⟨bounded, ?_, ?_, account, ?_⟩
  · split at busy <;> omega
  · intro ceiling
    by_contra goesOn
    rw [Bool.not_eq_true] at goesOn
    have start : ({ source } : Progress).isConverged = false := rfl
    have passes_eq : fixed.passes = 0 + runner.maxPasses := passes_of_not_converged start goesOn
    rw [goesOn, if_neg Bool.false_ne_true] at busy
    omega
  · intro passes reached text fixer
    have still : IsBuiltIn reached.1 := by
      rw [IsBuiltIn, (fixPasses_keeps builtIn path (fun _ _ => True) passes rfl trivial
        fun _ _ _ _ => trivial).1]
      exact builtIn
    rcases fixingPass_eq still path text with ⟨-, fixer_eq, count⟩
    exact ⟨offered reached.1 text, fixer_eq, count, changes_of_offered still text⟩

omit builtIn in
theorem fix_settles_tags_and_array :
    let runner := Runner.ofRuleset (Standard.ruleset fun _ => true) 4
    let source := "<?php\n/**\n@return a\n@return a\n*/function f()\x7b\x7d;[\n1\n];".toList
    let stream := Stream.ofSource source
    let fixed := (runner.fix "a.php" source).1
    stream.tags.length = 2 ∧ stream.arrays.length = 1 ∧ fixed.fixesApplied = 3 ∧
      fixed.passes ≤ fixed.fixesApplied + 1 ∧ fixed.isConverged = true := by
  intro runner source stream fixed
  rcases fix_settles runner (isBuiltIn_ruleset _) "a.php" source with ⟨-, passes_le, settles, -, -⟩
  have counts : stream.tags.length = 2 ∧ stream.arrays.length = 1 := by decide +kernel
  have below : stream.tags.length + stream.arrays.length < runner.maxPasses := by
    rw [counts.1, counts.2]
    exact Nat.lt_succ_self 3
  exact ⟨counts.1, counts.2, by decide +kernel, passes_le, settles below⟩

end Standard

end PhpStyle
