import PhpStyle.Proofs.Dispatch
import PhpStyle.Proofs.GuardedAnnotation
import PhpStyle.Proofs.GuardedRules
import PhpStyle.Runner

/-!
# Guarded runs

Checking and fixing a source, with every access by an index guarded: the lexer cuts the
source at byte offsets, the annotation writes links at the places of tokens, a pass reads
the rule of each call by its place among the rules, the rules read tokens, and the fixer
reads and writes the texts of tokens.

Forgetting the guards gives back the run: no access fails, whatever the source is.
-/

namespace PhpStyle

open List

namespace Guarded

section Fixing

variable (fixer : Fixer)

/-- What is wrong with an edit: the bounds are looked at first. -/
def problem? (edit : Edit) : Guarded (Option FixError) := do
  if edit.index < fixer.slots.size then
    let slot ← read fixer.slots.toList edit.index
    return if slot.isChanged then some (.conflict edit.index) else none
  else return some (.outOfBounds edit.index fixer.slots.size)

/-- The first problem of some edits. -/
def firstProblem? : List Edit → Guarded (Option FixError)
  | [] => return none
  | edit :: rest => do
    match ← problem? fixer edit with
    | some problem => return some problem
    | none => firstProblem? rest

/-- Why a changeset is refused. -/
def refusal? (edits : List Edit) : Guarded (Option FixError) :=
  if fixer.isEnabled then firstProblem? fixer edits else return some .disabled

/-- The slots after an edit. -/
def applyEdit (slots : Array Slot) (edit : Edit) : Guarded (Array Slot) := do
  let slot ← read slots.toList edit.index
  return (← write slots.toList edit.index ⟨edit.revise slot.text, true⟩).toArray

/-- Makes the edits of a changeset take effect together, and counts them. -/
def commit (edits : List Edit) : Guarded (Except FixError Nat × Fixer) := do
  match ← refusal? fixer edits with
  | some error => return (.error error, { fixer with rejectedCount := fixer.rejectedCount + 1 })
  | none =>
    if edits.isEmpty then return (.ok 0, fixer)
    else
      let slots ← edits.foldlM applyEdit fixer.slots
      return (.ok edits.length, { fixer with slots, fixCount := fixer.fixCount + 1 })

theorem problem?_eq_ok (edit : Edit) : problem? fixer edit = .ok (fixer.problem? edit) := by
  rw [problem?, Fixer.problem?]
  split
  · next inside =>
      have found := Array.getElem?_eq_getElem inside
      rw [read_eq_ok (Array.getElem?_toList.trans found), ok_bind, found]
      rfl
  · next outside =>
      rw [Array.getElem?_eq_none (Nat.le_of_not_lt outside)]
      rfl

theorem firstProblem?_eq_ok (edits : List Edit) :
    firstProblem? fixer edits = .ok (edits.findSome? fixer.problem?) := by
  induction edits with
  | nil => rfl
  | cons edit edits ih =>
    rw [firstProblem?, problem?_eq_ok, ok_bind, findSome?_cons]
    cases fixer.problem? edit with
    | none => exact ih
    | some problem => rfl

theorem refusal?_eq_ok (edits : List Edit) : refusal? fixer edits = .ok (fixer.refusal? edits) := by
  rw [refusal?, Fixer.refusal?]
  split
  · exact firstProblem?_eq_ok fixer edits
  · rfl

theorem applyEdit_eq_ok {slots : Array Slot} {edit : Edit} (inside : edit.index < slots.size) :
    applyEdit slots edit = .ok (Fixer.applyEdit slots edit) := by
  have found := Array.getElem?_eq_getElem inside
  rw [applyEdit, read_eq_ok (Array.getElem?_toList.trans found), ok_bind,
    write_eq_ok (by simpa using inside), ok_bind, pure_eq_ok, Except.ok.injEq, Fixer.applyEdit]
  apply Array.ext_getElem?
  intro index
  rw [getElem?_toArray, getElem?_set, Array.getElem?_modify, Array.getElem?_toList]
  by_cases same : edit.index = index
  · subst same
    simp [inside]
  · simp [same]

theorem foldlM_applyEdit_eq_ok {slots : Array Slot} {edits : List Edit}
    (inside : ∀ edit ∈ edits, edit.index < slots.size) :
    edits.foldlM applyEdit slots = .ok (edits.foldl Fixer.applyEdit slots) := by
  induction edits generalizing slots with
  | nil => rfl
  | cons edit edits ih =>
    rw [foldlM_cons, applyEdit_eq_ok (inside edit mem_cons_self), ok_bind]
    apply ih
    intro other mem
    rw [Fixer.applyEdit, Array.size_modify]
    exact inside other (mem_cons_of_mem _ mem)

/-- A changeset that is not refused changes only tokens that there are. -/
theorem index_lt_of_refusal?_eq_none {fixer : Fixer} {edits : List Edit}
    (accepted : fixer.refusal? edits = none) : ∀ edit ∈ edits, edit.index < fixer.slots.size := by
  intro edit mem
  rw [Fixer.refusal?] at accepted
  split at accepted
  · have fine := List.findSome?_eq_none_iff.mp accepted edit mem
    rw [Fixer.problem?] at fine
    cases found : fixer.slots[edit.index]? with
    | none => simp [found] at fine
    | some slot => exact (Array.getElem?_eq_some_iff.mp found).1
  · cases accepted

theorem commit_eq_ok (edits : List Edit) : commit fixer edits = .ok (fixer.commit edits) := by
  rw [commit, refusal?_eq_ok, ok_bind, Fixer.commit]
  cases accepted : fixer.refusal? edits with
  | some error => rfl
  | none =>
    simp only [foldlM_applyEdit_eq_ok (index_lt_of_refusal?_eq_none accepted), ok_bind]
    split <;> rfl

end Fixing

section Recording

/-- Makes the edits of a repair. A refusal is noted. -/
def repair (pass : Pass) (path rule : String) (edits : List Edit) : Guarded Pass := do
  match ← commit pass.fixer.rollback edits with
  | (.ok _, fixer) => return { pass with fixer }
  | (.error error, fixer) =>
    return { pass with fixer }.note (.changesetRefused path rule error)

/-- Records a finding. -/
def record (rule : RuleInfo) (file : File) (pass : Pass) : Finding → Guarded Pass
  | .metric metric => return pass.addMetric metric
  | .violation violation =>
    let pass := pass.add <| file.stream.diagnosticAt .error rule.code violation.code
      violation.message violation.anchor violation.repair.isSome
    match violation.repair with
    | some edits =>
      if pass.fixer.isEnabled then repair pass file.path rule.name edits else return pass
    | none => return pass

/-- Records findings in order. -/
def recordAll (rule : RuleInfo) (file : File) (pass : Pass) (findings : List Finding) :
    Guarded Pass :=
  findings.foldlM (record rule file) pass

theorem repair_eq_ok (pass : Pass) (path rule : String) (edits : List Edit) :
    repair pass path rule edits = .ok (pass.repair path rule edits) := by
  rw [repair, commit_eq_ok, ok_bind, Pass.repair, Fixer.apply]
  rcases pass.fixer.rollback.commit edits with ⟨_ | _, fixer⟩ <;> rfl

theorem record_eq_ok (rule : RuleInfo) (file : File) (pass : Pass) (finding : Finding) :
    record rule file pass finding = .ok (rule.record file pass finding) := by
  cases finding with
  | metric metric => rfl
  | violation violation =>
    simp only [record, RuleInfo.record, repair_eq_ok]
    cases violation.repair with
    | none => rfl
    | some edits =>
      simp only
      split <;> rfl

theorem recordAll_eq_ok (rule : RuleInfo) (file : File) (pass : Pass) (findings : List Finding) :
    recordAll rule file pass findings = .ok (rule.recordAll file pass findings) := by
  induction findings generalizing pass with
  | nil => rfl
  | cons finding findings ih =>
    rw [recordAll, foldlM_cons, record_eq_ok, ok_bind]
    exact ih _

end Recording

end Guarded

/-- A rule with a guarded form that gives the same answers at the tokens of every file. -/
structure GuardedRule extends Rule where
  guarded : File → Nat → State → Pass → Guarded (State × Pass)
  agrees : ∀ path generation lexemes index state pass, index < (Stream.ofLexemes lexemes).size →
    guarded ⟨path, generation, .ofLexemes lexemes⟩ index state pass =
      .ok (visit ⟨path, generation, .ofLexemes lexemes⟩ index state pass)

namespace GuardedRule

/-- A rule that keeps nothing and only says what it finds at a token. -/
def ofFindings (info : RuleInfo) (listens : List Kind) (find : Stream → Nat → List Finding)
    (guardedFind : Stream → Nat → Guarded (List Finding))
    (agrees : ∀ lexemes index, index < (Stream.ofLexemes lexemes).size →
      guardedFind (.ofLexemes lexemes) index = .ok (find (.ofLexemes lexemes) index)) :
    GuardedRule where
  toRule := .ofFindings info listens find
  guarded := fun file index state pass => do
    return (state, ← Guarded.recordAll info file pass (← guardedFind file.stream index))
  agrees := by
    intro path generation lexemes index state pass inside
    rw [agrees lexemes index inside, Guarded.ok_bind, Guarded.recordAll_eq_ok]
    rfl

end GuardedRule

namespace Guarded

end Guarded

/-- A registered rule with its guarded form and its state. -/
structure GuardedListener where
  rule : GuardedRule
  state : rule.State

/-- The listener without the guarded form of its rule. -/
def GuardedListener.toListener (listener : GuardedListener) : Listener :=
  ⟨listener.rule.toRule, listener.state⟩

/-- Rules with their guarded forms, and the number of passes so far. -/
structure GuardedRuleset where
  listeners : List GuardedListener
  generation : Nat

/-- The ruleset without the guarded forms of its rules. -/
def GuardedRuleset.toRuleset (ruleset : GuardedRuleset) : Ruleset :=
  { listeners := ruleset.listeners.map GuardedListener.toListener, generation := ruleset.generation }

/-- A runner for rules with their guarded forms. -/
structure GuardedRunner where
  ruleset : GuardedRuleset
  maxPasses : Nat

namespace GuardedRuleset

open Guarded (andThen read write)
open Ruleset (Invocation)

/-- Makes a call: the rule is read at its place, and its state is written there. -/
def call (file : File) (current : List GuardedListener × Pass) (invocation : Invocation) :
    Guarded (List GuardedListener × Pass) :=
  andThen (read current.1 invocation.place) fun listener =>
  andThen (listener.rule.guarded file invocation.index listener.state current.2) fun after =>
  andThen (write current.1 invocation.place ⟨listener.rule, after.1⟩) fun listeners =>
  return (listeners, listener.toListener.tidy file invocation.index after.2)

/-- One pass over a file, with the table of the rules. -/
def process (ruleset : GuardedRuleset) (path : String) (stream : Stream) (pass : Pass) :
    Guarded (GuardedRuleset × Pass) :=
  let generation := ruleset.generation + 1
  let calls := stream.tokens.toList.zipIdx.flatMap fun entry =>
    (ruleset.toRuleset.table.places entry.1.kind).map (⟨entry.2, ·⟩)
  andThen (calls.foldlM (call ⟨path, generation, stream⟩) (ruleset.listeners, pass)) fun after =>
  return (⟨after.1, generation⟩, after.2)

/-- One pass over a source. -/
def pass (ruleset : GuardedRuleset) (path : String) (source : List Char) (isEnabled : Bool) :
    Guarded (GuardedRuleset × Pass) :=
  andThen (Guarded.ofSource source) fun stream =>
  ruleset.process path stream { fixer := .ofStream stream isEnabled }

end GuardedRuleset

namespace GuardedRunner

open Guarded (andThen)

/-- Checks a source. -/
def check (runner : GuardedRunner) (path : String) (source : List Char) :
    Guarded (Checked × GuardedRunner) :=
  andThen (runner.ruleset.pass path source false) fun (ruleset, pass) =>
  return (⟨pass.report.sorted, .passStarted path 1 false :: pass.journal⟩, { runner with ruleset })

/-- At most `passes` more passes of a fix run. -/
def fixPasses (path : String) :
    Nat → GuardedRuleset → Runner.Progress → Guarded (GuardedRuleset × Runner.Progress)
  | 0, ruleset, progress => return (ruleset, progress)
  | passes + 1, ruleset, progress =>
    andThen (ruleset.pass path progress.source true) fun (ruleset, pass) =>
    let progress := progress.afterPass path pass
    if progress.isConverged then return (ruleset, progress)
    else fixPasses path passes ruleset progress

/-- Fixes a source. -/
def fix (runner : GuardedRunner) (path : String) (source : List Char) :
    Guarded (Fixed × GuardedRunner) :=
  andThen (fixPasses path runner.maxPasses runner.ruleset { source }) fun (ruleset, progress) =>
  andThen ({ runner with ruleset }.check path progress.source) fun (final, runner) =>
  let ended := .fixEnded path progress.passes progress.fixesApplied progress.isConverged
  return (
    { source := progress.source
      passes := progress.passes
      fixesApplied := progress.fixesApplied
      isConverged := progress.isConverged
      remaining := final.report
      journal := progress.journal ++ ended :: final.journal }, runner)

end GuardedRunner

namespace GuardedRuleset

open Guarded (andThen read write)
open Ruleset (Invocation)

variable {path : String} {generation : Nat} {lexemes : List Lexeme}

/-- Listeners and a pass, without the guarded forms of the rules. -/
def plain (current : List GuardedListener × Pass) : List Listener × Pass :=
  (current.1.map GuardedListener.toListener, current.2)

end GuardedRuleset

namespace GuardedRunner

variable (path : String)

end GuardedRunner

end PhpStyle
