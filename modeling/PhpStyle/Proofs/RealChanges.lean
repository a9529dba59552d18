import PhpStyle.Inspection
import PhpStyle.Proofs.Convergence

/-!
# Reported fixes are real changes

A fix run says whether it has changed a text by the number of its fixes, not by
comparing the texts. Both come to the same. A run without fixes has left the text
alone. And the fixes of built-in rules cannot cancel out, in one pass or over
many: each of them lowers the number of doc tags less the number of tokens of the
code, and a text that came back would have both numbers back.

So a file that is inspected for fixing gets a new text if and only if that text is
another one.
-/

namespace PhpStyle

/-- A path of one letter leads to the place of that name. Splitting a text is by well-founded
recursion, so its steps are taken one by one. -/
theorem FileTree.resolve_letter {tree : FileTree} (atRoot : tree.current = []) :
    tree.resolve ⟨"a"⟩ = .ok ["a"] := by
  have pieces : (⟨"a"⟩ : Path).pieces = ["a"] := by
    have start : (⟨"a"⟩ : Path).pieces = "a".splitOnAux "/" 0 0 0 [] := rfl
    rw [start, String.splitOnAux, if_neg (by decide +kernel), if_neg (by decide +kernel),
      String.splitOnAux, if_pos (by decide +kernel)]
    decide +kernel
  rw [resolve, resolveFrom, if_neg (by decide +kernel), if_neg (by decide +kernel),
    if_neg (by decide +kernel), if_neg (by decide +kernel), pieces, atRoot]
  rfl

namespace Standard

open Runner

/-- The fixes of built-in rules do not cancel out. -/
theorem source_fixPasses_eq_iff {ruleset : Ruleset} (builtIn : IsBuiltIn ruleset) (path : String)
    (passes : Nat) (progress : Progress) (goesOn : progress.isConverged = false) :
    (fixPasses path passes ruleset progress).2.source = progress.source ↔
      (fixPasses path passes ruleset progress).2.fixesApplied = progress.fixesApplied := by
  constructor
  · intro same
    have account := accounted_fixPasses builtIn path passes progress goesOn
    simp only [same] at account
    omega
  · have kept := (fixPasses_keeps builtIn path
      (fun source fixes => progress.fixesApplied ≤ fixes ∧
        (fixes = progress.fixesApplied → source = progress.source))
      passes goesOn ⟨Nat.le_refl _, fun _ => rfl⟩ (by
        rintro source fixes some_offered ⟨fewer, -⟩
        have := List.length_pos_iff.mpr some_offered
        exact ⟨by omega, by omega⟩)).2.1
    exact kept.2

theorem isChanged_iff {runner : Runner} (builtIn : IsBuiltIn runner.ruleset) (path : String)
    (source : List Char) :
    (runner.fix path source).1.isChanged = true ↔ (runner.fix path source).1.source ≠ source := by
  have unchanged_iff := source_fixPasses_eq_iff builtIn path runner.maxPasses { source } rfl
  rw [Fixed.isChanged, decide_eq_true_eq, gt_iff_lt, Nat.pos_iff_ne_zero]
  exact not_congr unchanged_iff.symm

/-- What comes of a file that is inspected for fixing: its text has been read and fixed, and there
is a new text where the fixed one differs. -/
theorem exists_source_of_inspect {bench : Bench} (builtIn : IsBuiltIn bench.runner.ruleset)
    {path : Path} {place : Place} {inspection : Inspection}
    (inspected : (bench.inspect true path).1 = .ok (place, inspection)) :
    ∃ source, bench.tree.readAt place = .ok source ∧ inspection.oldSource = source.toList ∧
      inspection.newSource =
        let fixed := (bench.runner.fix path.text source.toList).1.source
        if fixed = source.toList then none else some fixed := by
  unfold Bench.inspect at inspected
  cases resolved : bench.tree.resolve path with
  | error error => simp [resolved] at inspected
  | ok found =>
    rw [resolved] at inspected
    cases content : bench.tree.readAt found with
    | error error => simp [content] at inspected
    | ok source =>
      simp only [content, Except.ok.injEq, Prod.mk.injEq] at inspected
      rcases inspected with ⟨rfl, rfl⟩
      refine ⟨source, content, rfl, ?_⟩
      have changed_iff := isChanged_iff builtIn path.text source.toList
      simp only [inspect, if_true, changed_iff, ne_eq, ite_not]

/-- A reported fix is a real change: a run has fixed something if and only if the text that it
returns differs from the source. A file that is inspected for fixing has a new text only if that is
another text, and has none only if fixing leaves its text as it is. -/
theorem reported_fixes_are_changes (bench : Bench)
    (builtIn : (bench.runner.ruleset.listeners.map Listener.rule).Sublist rules) :
    (∀ path source, (bench.runner.fix path source).1.isChanged = true ↔
      (bench.runner.fix path source).1.source ≠ source) ∧
    ∀ path place inspection, (bench.inspect true path).1 = .ok (place, inspection) →
      (∃ source, bench.tree.readAt place = .ok source ∧ inspection.oldSource = source.toList) ∧
      (∀ text, inspection.newSource = some text → text ≠ inspection.oldSource ∧
        text = (bench.runner.fix path.text inspection.oldSource).1.source) ∧
      (inspection.newSource = none →
        (bench.runner.fix path.text inspection.oldSource).1.source = inspection.oldSource) := by
  refine ⟨isChanged_iff builtIn, ?_⟩
  intro path place inspection inspected
  rcases exists_source_of_inspect builtIn inspected with ⟨source, content, old_eq, new_eq⟩
  refine ⟨⟨source, content, old_eq⟩, ?_⟩
  rw [new_eq, old_eq]
  by_cases same : (bench.runner.fix path.text source.toList).1.source = source.toList
  · simp [same]
  · simp only [same, if_false]
    refine ⟨?_, by simp⟩
    rintro _ ⟨⟩
    exact ⟨same, rfl⟩

theorem reported_fixes_are_changes_tag_and_array :
    let text := "<?php\n/**\n@return a\n*/function f()\x7b\x7d;[\n1\n];"
    let fixed := "<?php\n/**\n*/function f()\x7b\x7d;[\n1,\n];".toList
    let bench : Bench :=
      ⟨{ files := [(["a"], text.toUTF8)] }, .ofRuleset (ruleset fun _ => true) 1⟩
    ∃ inspection, (bench.inspect true ⟨"a"⟩).1 = .ok (["a"], inspection) ∧
      inspection.newSource = some fixed ∧ fixed ≠ inspection.oldSource ∧
      (bench.runner.fix "a" text.toList).1.isChanged = true := by
  intro text fixed bench
  have resolved : bench.tree.resolve ⟨"a"⟩ = .ok ["a"] := FileTree.resolve_letter rfl
  have content : bench.tree.readAt ["a"] = .ok text := by decide +kernel
  have new_eq : (bench.runner.inspect true "a" text.toList).1.newSource = some fixed := by
    decide +kernel
  generalize outcome : (bench.runner.inspect true "a" text.toList).1 = inspection at new_eq
  have inspected : (bench.inspect true ⟨"a"⟩).1 = .ok (["a"], inspection) := by
    simp only [Bench.inspect, resolved, content, ← outcome]
  rcases reported_fixes_are_changes bench (isBuiltIn_ruleset _) with ⟨changed_iff, inspections⟩
  rcases inspections _ _ _ inspected with ⟨⟨source, source_content, old_eq⟩, renewed, -⟩
  rcases renewed fixed new_eq with ⟨other, fixed_eq⟩
  refine ⟨inspection, inspected, new_eq, other, (changed_iff "a" text.toList).mpr ?_⟩
  rw [Except.ok.inj (source_content.symm.trans content)] at old_eq
  rw [old_eq] at fixed_eq other
  rwa [← fixed_eq]

end Standard

end PhpStyle
