import PhpStyle.Proofs.Isolation
import PhpStyle.Proofs.Passes

/-!
# Fix runs can be cut and resumed

A fix run that stops at its ceiling returns the text that its last pass left. A
second run begins with that text and with nothing else: it counts its passes and
fixes anew, and its rules have seen other files or none. It still goes on exactly
where the first run stopped. What a pass does depends on the text alone, because
rules forget, and the counts only add up.

A run that has converged ended with a pass that had nothing to fix. The same pass
is the first one of the second run, which therefore ends there.
-/

namespace PhpStyle

namespace Runner

section Rules

variable {rules : List Rule} (forgets : ∀ rule ∈ rules, rule.Forgets)
  (ignores : ∀ rule ∈ rules, rule.IgnoresGeneration)

include forgets

variable {ruleset other : Ruleset} {path : String} {source : List Char}

theorem continues_fixPasses (continues : ruleset.Continues rules) (path : String) (passes : Nat)
    (progress : Progress) : (fixPasses path passes ruleset progress).1.Continues rules :=
  (fixPasses_congr forgets ⟨continues, continues, .inl rfl⟩ path passes progress).2.first_continues

include ignores

/-- After a run that has converged, no ruleset of the same rules finds anything to fix. -/
theorem fixCount_of_isConverged (continues : ruleset.Continues rules) {passes : Nat}
    {progress : Progress} (goesOn : progress.isConverged = false)
    (converged : (fixPasses path passes ruleset progress).2.isConverged = true)
    (other_continues : other.Continues rules) :
    (fixingPass path (fixPasses path passes ruleset progress).2.source other).2.fixer.fixCount =
      0 := by
  induction passes generalizing ruleset progress with
  | zero => simp [fixPasses, goesOn] at converged
  | succ passes ih =>
    rcases fixPasses_cases path passes ruleset goesOn with
      ⟨nothing, -, result⟩ | ⟨-, next_goesOn, result⟩
    · have same := (Ruleset.Alike.process forgets ⟨other_continues, continues, .inr ignores⟩ path
        (Stream.ofSource progress.source)
        { fixer := .ofStream (Stream.ofSource progress.source) true }).1
      rw [result, (progress.afterPass_of_nothing nothing path).1, fixingPass, same]
      exact nothing
    · rw [result] at converged ⊢
      exact ih (continues.process path _ _) next_goesOn converged

/-- A run over the text of a run that has converged ends with its first pass. -/
theorem fixPasses_again (continues : ruleset.Continues rules)
    (other_continues : other.Continues rules) {ceiling more : Nat} (more_pos : 1 ≤ more)
    (converged : (fixPasses path ceiling ruleset { source }).2.isConverged = true) :
    let first := (fixPasses path ceiling ruleset { source }).2
    let second := (fixPasses path more other { source := first.source }).2
    second.source = first.source ∧ second.passes = 1 ∧ second.fixesApplied = 0 ∧
      second.isConverged = true := by
  intro first second
  have nothing := fixCount_of_isConverged forgets ignores continues rfl converged other_continues
  have ended := Progress.afterPass_of_nothing { source := first.source } nothing path
  have second_eq : second = Progress.afterPass { source := first.source } path
      (fixingPass path first.source other).2 := by
    obtain ⟨rest, rfl⟩ := Nat.exists_eq_add_of_le' more_pos
    exact congrArg Prod.snd ((fixPasses_step path rest other _).trans (if_pos ended.2.2.2))
  rw [second_eq]
  exact ended

/-- A run over the text of a run that was cut off goes on as the first one would have gone on. -/
theorem fixPasses_goesOn (continues : ruleset.Continues rules)
    (other_continues : other.Continues rules) {ceiling : Nat} (more : Nat)
    (stopped : (fixPasses path ceiling ruleset { source }).2.isConverged = false) :
    let first := (fixPasses path ceiling ruleset { source }).2
    Progress.Ahead first.passes first.fixesApplied
      (fixPasses path (ceiling + more) ruleset { source }).2
      (fixPasses path more other { source := first.source }).2 := by
  intro first
  have whole_eq := fixPasses_add path ceiling more ruleset { source } rfl
  simp only [stopped, Bool.false_eq_true, if_false] at whole_eq
  have start : Progress.Ahead first.passes first.fixesApplied first { source := first.source } :=
    ⟨rfl, stopped, rfl, rfl⟩
  have same := (fixPasses_congr forgets ⟨other_continues,
    continues_fixPasses forgets continues path ceiling { source }, .inr ignores⟩ path more
    { source := first.source }).1
  rw [whole_eq, same]
  exact (start.fixPasses path more _).2

/-- Runs that end with the same text leave the same diagnostics and metrics. -/
theorem remaining_eq_of_source_eq {first second : Runner}
    (first_continues : first.ruleset.Continues rules)
    (second_continues : second.ruleset.Continues rules) {other : List Char}
    (same : (first.fix path source).1.source = (second.fix path other).1.source) :
    (first.fix path source).1.remaining = (second.fix path other).1.remaining := by
  have checked := (@check_congr rules forgets
    ⟨(fixPasses path first.maxPasses first.ruleset { source }).1, first.maxPasses⟩
    ⟨(fixPasses path second.maxPasses second.ruleset { source := other }).1, second.maxPasses⟩
    ⟨continues_fixPasses forgets first_continues path _ _,
      continues_fixPasses forgets second_continues path _ _, .inr ignores⟩
    path (first.fix path source).1.source).1
  calc (first.fix path source).1.remaining
    _ = _ := congrArg Checked.report checked
    _ = (second.fix path other).1.remaining := by
      rw [same]
      rfl

/-- The same for the outcomes of the runs, with the checks at their ends. -/
theorem fix_resumed {runner next : Runner} (continues : runner.ruleset.Continues rules)
    (next_continues : next.ruleset.Continues rules) (more_pos : 1 ≤ next.maxPasses)
    (path : String) (source : List Char) :
    let first := (runner.fix path source).1
    let second := (next.fix path first.source).1
    let longer : Runner := { runner with maxPasses := runner.maxPasses + next.maxPasses }
    let whole := (longer.fix path source).1
    second.source = whole.source ∧ second.isConverged = whole.isConverged ∧
      second.remaining = whole.remaining ∧
      first.fixesApplied + second.fixesApplied = whole.fixesApplied ∧
      (first.isConverged = false → first.passes + second.passes = whole.passes) ∧
      (first.isConverged = true → whole.passes = first.passes ∧
        second.source = first.source ∧ second.passes = 1 ∧ second.fixesApplied = 0 ∧
        second.isConverged = true ∧ second.remaining = first.remaining) := by
  intro first second longer whole
  have longer_continues : longer.ruleset.Continues rules := continues
  have remaining_whole (same : second.source = whole.source) :
      second.remaining = whole.remaining :=
    remaining_eq_of_source_eq forgets ignores next_continues longer_continues same
  have remaining_first (same : second.source = first.source) :
      second.remaining = first.remaining :=
    remaining_eq_of_source_eq forgets ignores next_continues continues same
  cases ends : first.isConverged with
  | true =>
    have whole_eq := (fixPasses_add path runner.maxPasses next.maxPasses runner.ruleset
      { source } rfl).trans (if_pos ends)
    rcases fixPasses_again forgets ignores continues next_continues more_pos ends with
      ⟨source_eq, passes_eq, fixes_eq, second_converged⟩
    have whole_source : whole.source = first.source := congrArg (·.2.source) whole_eq
    have whole_converged : whole.isConverged = first.isConverged :=
      congrArg (·.2.isConverged) whole_eq
    have whole_fixes : whole.fixesApplied = first.fixesApplied :=
      congrArg (·.2.fixesApplied) whole_eq
    have whole_passes : whole.passes = first.passes := congrArg (·.2.passes) whole_eq
    have second_fixes : second.fixesApplied = 0 := fixes_eq
    have second_source : second.source = whole.source := source_eq.trans whole_source.symm
    refine ⟨second_source, ?_, remaining_whole second_source, ?_, nofun, ?_⟩
    · exact second_converged.trans (whole_converged.trans ends).symm
    · rw [second_fixes, whole_fixes, Nat.add_zero]
    · intro _
      exact ⟨whole_passes, source_eq, passes_eq, second_fixes, second_converged,
        remaining_first source_eq⟩
  | false =>
    have ahead := fixPasses_goesOn forgets ignores continues next_continues next.maxPasses ends
    have second_source : second.source = whole.source := ahead.source_eq.symm
    refine ⟨second_source, ahead.isConverged_eq.symm, remaining_whole second_source,
      ahead.fixes_eq.symm, ?_, nofun⟩
    intro _
    exact ahead.passes_eq.symm

end Rules

/-- Fixing with one ceiling and then with another comes to the same as fixing once with their sum,
whether the second run is made with a fresh runner or with the one at hand. After a run that
has converged there is nothing left to do. -/
theorem fix_resumes (rules : List Rule) (builtIn : ∀ rule ∈ rules, rule ∈ Standard.rules)
    (path : String) (source : List Char) (ceiling more : Nat) (ceiling_pos : 1 ≤ ceiling)
    (more_pos : 1 ≤ more) :
    let ruleset := Ruleset.ofRules rules
    let first := (ofRuleset ruleset ceiling).fix path source
    let whole := ((ofRuleset ruleset (ceiling + more)).fix path source).1
    ∀ next ∈ [ofRuleset ruleset more, { first.2 with maxPasses := more }],
      let second := (next.fix path first.1.source).1
      second.source = whole.source ∧ second.isConverged = whole.isConverged ∧
        second.remaining = whole.remaining ∧
        first.1.fixesApplied + second.fixesApplied = whole.fixesApplied ∧
        (first.1.isConverged = false → first.1.passes + second.passes = whole.passes) ∧
        (first.1.isConverged = true → whole.passes = first.1.passes ∧
          second.source = first.1.source ∧ second.passes = 1 ∧ second.fixesApplied = 0 ∧
          second.isConverged = true ∧ second.remaining = first.1.remaining) := by
  intro ruleset first whole next choice
  have forgets : ∀ rule ∈ rules, rule.Forgets :=
    fun rule inside => Standard.forgets_of_mem (builtIn rule inside)
  have ignores : ∀ rule ∈ rules, rule.IgnoresGeneration :=
    fun rule inside => Standard.ignoresGeneration_of_mem (builtIn rule inside)
  have continues : (ofRuleset ruleset ceiling).ruleset.Continues rules :=
    Ruleset.continues_ofRules rules
  have next_spec : next.ruleset.Continues rules ∧ next.maxPasses = more := by
    rcases List.mem_pair.mp choice with rfl | rfl
    · exact ⟨Ruleset.continues_ofRules rules, Nat.max_eq_left more_pos⟩
    · exact ⟨continues_answer forgets continues (.fix path source), rfl⟩
  have longer : ofRuleset ruleset (ceiling + more) =
      ⟨ruleset, (ofRuleset ruleset ceiling).maxPasses + next.maxPasses⟩ := by
    rw [show (ofRuleset ruleset ceiling).maxPasses = ceiling from Nat.max_eq_left ceiling_pos,
      next_spec.2]
    exact congrArg (Runner.mk ruleset) (Nat.max_eq_left (Nat.le_add_right_of_le ceiling_pos))
  simp only [whole, longer]
  exact fix_resumed forgets ignores continues next_spec.1 (by omega) path source

theorem fix_resumes_return_tags :
    let ruleset := Ruleset.ofRules [Standard.FunctionComment.rule]
    let source := "<?php\n/**\n@return a\n@return a\n*/function f()\x7b\x7d".toList
    let first := (ofRuleset ruleset 1).fix "a.php" source
    let whole := ((ofRuleset ruleset (1 + 2)).fix "a.php" source).1
    first.1.isConverged = false ∧ whole.passes = 3 ∧
      ∀ next ∈ [ofRuleset ruleset 2, { first.2 with maxPasses := 2 }],
        let second := (next.fix "a.php" first.1.source).1
        second.source = whole.source ∧ second.remaining = whole.remaining ∧
          first.1.passes + second.passes = whole.passes := by
  intro ruleset source first whole
  have computed : first.1.isConverged = false ∧ whole.passes = 3 := by decide +kernel
  refine ⟨computed.1, computed.2, fun next chosen => ?_⟩
  have builtIn : ∀ rule ∈ [Standard.FunctionComment.rule], rule ∈ Standard.rules := by
    simp [Standard.rules]
  rcases fix_resumes [Standard.FunctionComment.rule] builtIn "a.php" source 1 2 (Nat.le_refl 1)
    (Nat.le_succ 1) next chosen with ⟨source_eq, -, remaining_eq, -, passes_eq, -⟩
  exact ⟨source_eq, remaining_eq, passes_eq computed.1⟩

end Runner

end PhpStyle
