import PhpStyle.Runner

/-!
# The passes of a fix run

A pass that has nothing to fix ends the run, and any other pass is followed by the
next one, which reads the text that it has left. All that is known about whole
runs is derived from this by induction on the number of passes.

The facts of this file hold for all rules. A run with a higher ceiling goes on
where one with a lower ceiling stops, what a run has counted before does not
change what it does, and a run only makes another pass if it has fixed something.
-/

namespace PhpStyle

namespace Runner

/-- The pass of a fix run over a source. -/
def fixingPass (path : String) (source : List Char) (ruleset : Ruleset) : Ruleset × Pass :=
  let stream := Stream.ofSource source
  ruleset.process path stream { fixer := .ofStream stream true }

namespace Progress

variable {progress : Progress}

theorem afterPass_of_nothing (progress : Progress) {pass : Pass}
    (nothing : pass.fixer.fixCount = 0) (path : String) :
    let next := progress.afterPass path pass
    next.source = progress.source ∧ next.passes = progress.passes + 1 ∧
      next.fixesApplied = progress.fixesApplied ∧ next.isConverged = true := by
  simp [afterPass, nothing]

theorem afterPass_of_fixes (progress : Progress) {pass : Pass}
    (fixes : pass.fixer.fixCount ≠ 0) (path : String) :
    let next := progress.afterPass path pass
    next.source = pass.fixer.contents ∧ next.passes = progress.passes + 1 ∧
      next.fixesApplied = progress.fixesApplied + pass.fixer.fixCount ∧
      next.isConverged = progress.isConverged := by
  simp [afterPass, fixes]

end Progress

variable {path : String} {ruleset : Ruleset} {progress : Progress}

theorem fixPasses_step (path : String) (passes : Nat) (ruleset : Ruleset) (progress : Progress) :
    fixPasses path (passes + 1) ruleset progress =
      let processed := fixingPass path progress.source ruleset
      let next := progress.afterPass path processed.2
      if next.isConverged then (processed.1, next)
      else fixPasses path passes processed.1 next :=
  rfl

/-- What becomes of a run with one more pass: it ends there, or it goes on from there. -/
theorem fixPasses_cases (path : String) (passes : Nat) (ruleset : Ruleset)
    (goesOn : progress.isConverged = false) :
    let processed := fixingPass path progress.source ruleset
    let next := progress.afterPass path processed.2
    (processed.2.fixer.fixCount = 0 ∧ next.isConverged = true ∧
        fixPasses path (passes + 1) ruleset progress = (processed.1, next)) ∨
      (processed.2.fixer.fixCount ≠ 0 ∧ next.isConverged = false ∧
        fixPasses path (passes + 1) ruleset progress =
          fixPasses path passes processed.1 next) := by
  intro processed next
  by_cases nothing : processed.2.fixer.fixCount = 0
  · have ends : next.isConverged = true := (progress.afterPass_of_nothing nothing path).2.2.2
    exact .inl ⟨nothing, ends, (fixPasses_step path passes ruleset progress).trans (if_pos ends)⟩
  · have next_goesOn : next.isConverged = false := by
      rw [(progress.afterPass_of_fixes nothing path).2.2.2, goesOn]
    exact .inr ⟨nothing, next_goesOn, (fixPasses_step path passes ruleset progress).trans
      (if_neg (Bool.not_eq_true _ ▸ next_goesOn))⟩

/-- A run with a higher ceiling goes on where one with a lower ceiling stops. -/
theorem fixPasses_add (path : String) (first more : Nat) (ruleset : Ruleset) (progress : Progress)
    (goesOn : progress.isConverged = false) :
    fixPasses path (first + more) ruleset progress =
      let reached := fixPasses path first ruleset progress
      if reached.2.isConverged then reached else fixPasses path more reached.1 reached.2 := by
  induction first generalizing ruleset progress with
  | zero => simp [fixPasses, goesOn]
  | succ first ih =>
    rw [Nat.succ_add]
    rcases fixPasses_cases path first ruleset goesOn with
      ⟨-, ends, result⟩ | ⟨-, next_goesOn, result⟩
    · rw [result, fixPasses_step]
      simp only [if_pos ends]
    · rw [result, fixPasses_step, if_neg (Bool.not_eq_true _ ▸ next_goesOn)]
      exact ih _ _ next_goesOn

namespace Progress

/-- Where two runs stand that only differ in what went before: one has made some more passes and
fixes than the other. -/
structure Ahead (passes fixes : Nat) (later earlier : Progress) : Prop where
  source_eq : later.source = earlier.source
  isConverged_eq : later.isConverged = earlier.isConverged
  passes_eq : later.passes = passes + earlier.passes
  fixes_eq : later.fixesApplied = fixes + earlier.fixesApplied

theorem Ahead.afterPass {passes fixes : Nat} {later earlier : Progress}
    (ahead : Ahead passes fixes later earlier) (path : String) (pass : Pass) :
    Ahead passes fixes (later.afterPass path pass) (earlier.afterPass path pass) := by
  rcases ahead with ⟨source_eq, isConverged_eq, passes_eq, fixes_eq⟩
  rw [Progress.afterPass, Progress.afterPass]
  by_cases nothing : pass.fixer.fixCount = 0
  · simp only [if_pos nothing]
    exact ⟨source_eq, rfl, by simp only [passes_eq, Nat.add_assoc], fixes_eq⟩
  · simp only [if_neg nothing]
    exact ⟨rfl, isConverged_eq, by simp only [passes_eq, Nat.add_assoc],
      by simp only [fixes_eq, Nat.add_assoc]⟩

/-- A run that is ahead by some passes and fixes stays ahead by them. -/
theorem Ahead.fixPasses {passes fixes : Nat} {later earlier : Progress}
    (ahead : Ahead passes fixes later earlier) (path : String) (ceiling : Nat) (ruleset : Ruleset) :
    (Runner.fixPasses path ceiling ruleset later).1 =
        (Runner.fixPasses path ceiling ruleset earlier).1 ∧
      Ahead passes fixes (Runner.fixPasses path ceiling ruleset later).2
        (Runner.fixPasses path ceiling ruleset earlier).2 := by
  induction ceiling generalizing ruleset later earlier with
  | zero => exact ⟨rfl, ahead⟩
  | succ ceiling ih =>
    rw [fixPasses_step, fixPasses_step, ahead.source_eq]
    have next := ahead.afterPass path (fixingPass path earlier.source ruleset).2
    simp only [next.isConverged_eq]
    split
    · exact ⟨rfl, next⟩
    · exact ih next _

/-- Every pass so far has fixed something, but for the one that has ended the run. -/
def Busy (progress : Progress) : Prop :=
  progress.passes ≤ progress.fixesApplied + if progress.isConverged then 1 else 0

theorem Busy.afterPass (busy : progress.Busy) (goesOn : progress.isConverged = false)
    (path : String) (pass : Pass) : (progress.afterPass path pass).Busy := by
  simp only [Busy, goesOn, Bool.false_eq_true, if_false] at busy
  by_cases nothing : pass.fixer.fixCount = 0
  · rcases progress.afterPass_of_nothing nothing path with ⟨-, passes_eq, fixes_eq, converged⟩
    rw [Busy, passes_eq, fixes_eq, if_pos converged]
    omega
  · rcases progress.afterPass_of_fixes nothing path with ⟨-, passes_eq, fixes_eq, converged⟩
    rw [Busy, passes_eq, fixes_eq]
    omega

end Progress

/-- A run that has fixed something in each pass goes on like that. -/
theorem busy_fixPasses (busy : progress.Busy) (goesOn : progress.isConverged = false)
    (path : String) (passes : Nat) (ruleset : Ruleset) :
    (fixPasses path passes ruleset progress).2.Busy := by
  induction passes generalizing ruleset progress with
  | zero => exact busy
  | succ passes ih =>
    have next := busy.afterPass goesOn path (fixingPass path progress.source ruleset).2
    rcases fixPasses_cases path passes ruleset goesOn with
      ⟨-, -, result⟩ | ⟨-, next_goesOn, result⟩
    · rw [result]
      exact next
    · rw [result]
      exact ih next next_goesOn _

/-- A run that has not converged has used up its passes. -/
theorem passes_of_not_converged {passes : Nat} (goesOn : progress.isConverged = false)
    (stopped : (fixPasses path passes ruleset progress).2.isConverged = false) :
    (fixPasses path passes ruleset progress).2.passes = progress.passes + passes := by
  induction passes generalizing ruleset progress with
  | zero => rfl
  | succ passes ih =>
    rcases fixPasses_cases path passes ruleset goesOn with
      ⟨-, ends, result⟩ | ⟨fixes, next_goesOn, result⟩
    · rw [result, ends] at stopped
      contradiction
    · rw [result] at stopped ⊢
      rw [ih next_goesOn stopped, (progress.afterPass_of_fixes fixes path).2.1]
      omega

end Runner

end PhpStyle
