import PhpStyle.Proofs.Changesets
import PhpStyle.Proofs.Registration
import PhpStyle.Rule.Scoped

/-!
# What a pass records

A rule that only says what it finds leaves the same marks on every pass: its
findings go to the report, whatever the fixer does, and their repairs are offered
to the fixer in order if fixing is enabled. A pass of such rules is therefore the
recording of a list of entries that the pass itself has no influence on. The
report has as many diagnostics that can be fixed as there are repairs.

Repairs that have no token in common, stay within the file and are not empty all
take effect.
-/

namespace PhpStyle

/-- The edits that repair a finding. -/
def Finding.repair? : Finding → Option (List Edit)
  | .metric _ => none
  | .violation found => found.repair

/-- The repairs of some findings, in order. -/
def repairsOf (findings : List Finding) : List (List Edit) :=
  findings.filterMap Finding.repair?

/-- The report after a finding. -/
def RuleInfo.enter (rule : RuleInfo) (stream : Stream) (report : Report) : Finding → Report
  | .metric metric => report.addMetric metric
  | .violation violation => report.add <| stream.diagnosticAt .error rule.code violation.code
      violation.message violation.anchor violation.repair.isSome

namespace Fixer

open Edit

/-- The fixer after some changesets. -/
def applyAll (fixer : Fixer) (changesets : List (List Edit)) : Fixer :=
  changesets.foldl (fun fixer edits => (fixer.apply edits).2) fixer

variable {fixer : Fixer} {edits : List Edit}

theorem isEnabled_commit (fixer : Fixer) (edits : List Edit) :
    (fixer.commit edits).2.isEnabled = fixer.isEnabled := by
  rcases commit_cases fixer edits with ⟨error, result⟩ | ⟨-, -, result⟩ | ⟨-, -, -, result⟩ <;>
    rw [result]

theorem staged_commit (fixer : Fixer) (edits : List Edit) :
    (fixer.commit edits).2.staged = fixer.staged := by
  rcases commit_cases fixer edits with ⟨error, result⟩ | ⟨-, -, result⟩ | ⟨-, -, -, result⟩ <;>
    rw [result]

theorem isEnabled_apply (fixer : Fixer) (edits : List Edit) :
    (fixer.apply edits).2.isEnabled = fixer.isEnabled := by
  rw [apply, isEnabled_commit, isEnabled_rollback]

theorem isOpen_apply (fixer : Fixer) (edits : List Edit) :
    (fixer.apply edits).2.isOpen = false := by
  rw [apply, isOpen, staged_commit, ← isOpen, isOpen_rollback]

/-- The changeset takes effect on the fixer. -/
structure Takes (fixer : Fixer) (edits : List Edit) : Prop where
  nonempty : edits ≠ []
  fresh : ∀ edit ∈ edits, ∃ slot, fixer.slots[edit.index]? = some slot ∧ slot.isChanged = false

/-- A changeset among unchanged tokens is committed. -/
theorem Takes.refusal?_eq_none (takes : Takes fixer edits) (enabled : fixer.isEnabled = true) :
    fixer.refusal? edits = none := by
  simp only [refusal?, enabled, if_true, List.findSome?_eq_none_iff]
  intro edit inside
  rcases takes.fresh edit inside with ⟨slot, found, unchanged⟩
  simp [problem?, found, unchanged]

theorem Takes.apply_eq (takes : Takes fixer edits) (enabled : fixer.isEnabled = true)
    (closed : fixer.isOpen = false) :
    (fixer.apply edits).2 = { fixer with
      slots := edits.foldl applyEdit fixer.slots
      fixCount := fixer.fixCount + 1 } := by
  simp [apply, rollback, closed, commit, takes.refusal?_eq_none enabled, takes.nonempty]

theorem Takes.fst_apply (takes : Takes fixer edits) (enabled : fixer.isEnabled = true)
    (closed : fixer.isOpen = false) : (fixer.apply edits).1 = .ok edits.length := by
  simp [apply, rollback, closed, commit, takes.refusal?_eq_none enabled, takes.nonempty]

/-- A changeset takes effect after one that has no token in common with it. -/
theorem Takes.after {other : List Edit} (takes : Takes fixer edits)
    (other_takes : Takes fixer other) (disjoint : Disjoint edits other)
    (enabled : fixer.isEnabled = true) (closed : fixer.isOpen = false) :
    Takes (fixer.apply edits).2 other where
  nonempty := other_takes.nonempty
  fresh edit inside := by
    rcases other_takes.fresh edit inside with ⟨slot, found, unchanged⟩
    have touched : touches other edit.index = true := by
      simpa [touches] using ⟨edit, inside, rfl⟩
    have untouched := disjoint.symm edit.index touched
    rw [takes.apply_eq enabled closed]
    simp [getElem?_foldl_applyEdit, found, unchanged, untouched]

/-- Changesets that have no token in common all take effect. -/
theorem applyAll_eq {changesets : List (List Edit)}
    (takes : ∀ edits ∈ changesets, Takes fixer edits) (disjoint : changesets.Pairwise Disjoint)
    (enabled : fixer.isEnabled = true) (closed : fixer.isOpen = false) :
    fixer.applyAll changesets = { fixer with
      slots := changesets.flatten.foldl applyEdit fixer.slots
      fixCount := fixer.fixCount + changesets.length } := by
  induction changesets generalizing fixer with
  | nil => rfl
  | cons edits changesets ih =>
    rw [List.pairwise_cons] at disjoint
    have first := takes edits List.mem_cons_self
    have later : ∀ other ∈ changesets, Takes (fixer.apply edits).2 other := fun other inside =>
      first.after (takes other (List.mem_cons_of_mem _ inside)) (disjoint.1 other inside) enabled
        closed
    have enabled_after := (isEnabled_apply fixer edits).trans enabled
    have step :
        fixer.applyAll (edits :: changesets) = (fixer.apply edits).2.applyAll changesets :=
      rfl
    rw [step, ih later disjoint.2 enabled_after (isOpen_apply fixer edits),
      first.apply_eq enabled closed]
    simp [Nat.add_assoc, Nat.add_comm 1]

end Fixer

theorem Pass.report_repair (pass : Pass) (path rule : String) (edits : List Edit) :
    (pass.repair path rule edits).report = pass.report := by
  simp only [repair, note]
  split <;> rfl

theorem Pass.fixer_repair (pass : Pass) (path rule : String) (edits : List Edit) :
    (pass.repair path rule edits).fixer = (pass.fixer.apply edits).2 := by
  simp only [repair, note]
  split
  · next result => rw [result]
  · next result => rw [result]

namespace RuleInfo

variable (rule : RuleInfo) (file : File) (pass : Pass)

theorem report_record (finding : Finding) :
    (rule.record file pass finding).report = rule.enter file.stream pass.report finding := by
  cases finding with
  | metric metric => rfl
  | violation violation =>
    simp only [record, enter]
    cases violation.repair with
    | none => rfl
    | some edits =>
      by_cases enabled : pass.fixer.isEnabled = true
      · simp only [Pass.add, enabled, if_true, Pass.report_repair]
      · simp only [Pass.add, enabled, if_false, Bool.false_eq_true]

theorem fixer_record (finding : Finding) :
    (rule.record file pass finding).fixer =
      if pass.fixer.isEnabled then pass.fixer.applyAll finding.repair?.toList else pass.fixer := by
  cases finding with
  | metric metric => simp [record, Pass.addMetric, Finding.repair?, Fixer.applyAll]
  | violation violation =>
    simp only [record, Finding.repair?]
    cases violation.repair with
    | none => simp [Pass.add, Fixer.applyAll]
    | some edits =>
      by_cases enabled : pass.fixer.isEnabled = true
      · simp only [Pass.add, enabled, if_true, Pass.fixer_repair]
        rfl
      · simp only [Pass.add, enabled, if_false, Bool.false_eq_true]

end RuleInfo

/-- Findings with the rules that made them, in order. -/
abbrev Entries := List (RuleInfo × Finding)

namespace Entries

/-- The repairs of the entries, in order. -/
def repairs (entries : Entries) : List (List Edit) :=
  entries.filterMap fun entry => entry.2.repair?

/-- A pass after the entries have been recorded. -/
def record (file : File) (entries : Entries) (pass : Pass) : Pass :=
  entries.foldl (fun pass entry => entry.1.record file pass entry.2) pass

/-- A report after the entries have been recorded. -/
def enter (stream : Stream) (entries : Entries) (report : Report) : Report :=
  entries.foldl (fun report entry => entry.1.enter stream report entry.2) report

theorem record_append (file : File) (first second : Entries) (pass : Pass) :
    record file (first ++ second) pass = record file second (record file first pass) :=
  List.foldl_append

theorem repairs_append (first second : Entries) :
    repairs (first ++ second) = repairs first ++ repairs second :=
  List.filterMap_append

theorem report_record (file : File) (entries : Entries) (pass : Pass) :
    (record file entries pass).report = enter file.stream entries pass.report := by
  induction entries generalizing pass with
  | nil => rfl
  | cons entry entries ih =>
    have step : record file (entry :: entries) pass =
        record file entries (entry.1.record file pass entry.2) := rfl
    rw [step, ih, RuleInfo.report_record]
    rfl

theorem isEnabled_applyAll (fixer : Fixer) (changesets : List (List Edit)) :
    (fixer.applyAll changesets).isEnabled = fixer.isEnabled := by
  induction changesets generalizing fixer with
  | nil => rfl
  | cons edits changesets ih => exact (ih _).trans (Fixer.isEnabled_apply fixer edits)

theorem isOpen_applyAll {fixer : Fixer} (closed : fixer.isOpen = false)
    (changesets : List (List Edit)) : (fixer.applyAll changesets).isOpen = false := by
  induction changesets generalizing fixer with
  | nil => exact closed
  | cons edits changesets ih => exact ih (Fixer.isOpen_apply fixer edits)

theorem applyAll_append (fixer : Fixer) (first second : List (List Edit)) :
    fixer.applyAll (first ++ second) = (fixer.applyAll first).applyAll second :=
  List.foldl_append

theorem fixer_record (file : File) (entries : Entries) (pass : Pass) :
    (record file entries pass).fixer =
      if pass.fixer.isEnabled then pass.fixer.applyAll entries.repairs else pass.fixer := by
  induction entries generalizing pass with
  | nil => simp [record, repairs, Fixer.applyAll]
  | cons entry entries ih =>
    have step : record file (entry :: entries) pass =
        record file entries (entry.1.record file pass entry.2) := rfl
    have offered : repairs (entry :: entries) = entry.2.repair?.toList ++ repairs entries := by
      cases found : entry.2.repair? <;> simp [repairs, found]
    rw [step, ih, RuleInfo.fixer_record, offered, applyAll_append]
    cases enabled : pass.fixer.isEnabled with
    | false => simp [enabled]
    | true => simp [isEnabled_applyAll, enabled]

theorem isOpen_record {file : File} {pass : Pass} (closed : pass.fixer.isOpen = false)
    (entries : Entries) : (record file entries pass).fixer.isOpen = false := by
  rw [fixer_record]
  split
  · exact isOpen_applyAll closed _
  · exact closed

/-- Every repair makes a diagnostic that can be fixed. -/
theorem fixableCount_enter (stream : Stream) (entries : Entries) (report : Report) :
    (enter stream entries report).fixableCount = report.fixableCount + entries.repairs.length := by
  induction entries generalizing report with
  | nil => rfl
  | cons entry entries ih =>
    have step : enter stream (entry :: entries) report =
        enter stream entries (entry.1.enter stream report entry.2) := rfl
    rw [step, ih]
    rcases entry with ⟨rule, finding⟩
    cases finding with
    | metric metric => rfl
    | violation violation =>
      cases found : violation.repair with
      | none =>
        simp [RuleInfo.enter, Report.add, Report.fixableCount, Stream.diagnosticAt, repairs,
          Finding.repair?, found]
      | some edits =>
        simp [RuleInfo.enter, Report.add, Report.fixableCount, Stream.diagnosticAt, repairs,
          Finding.repair?, found]
        omega

end Entries

/-- A rule that only records what it finds; its repairs depend on nothing but the file. -/
def Rule.Records (rule : Rule) (repairs : Stream → Nat → List (List Edit)) : Prop :=
  ∀ (file : File) (index : Nat) (state : rule.State),
    ∃ (after : rule.State) (findings : List Finding),
    repairsOf findings = repairs file.stream index ∧
      ∀ pass, rule.visit file index state pass = (after, rule.recordAll file pass findings)

theorem Rule.records_ofFindings (info : RuleInfo) (listens : List Kind)
    (find : Stream → Nat → List Finding) :
    (Rule.ofFindings info listens find).Records fun stream index => repairsOf (find stream index) :=
  fun file index state => ⟨state, find file.stream index, rfl, fun _ => rfl⟩

/-- A scoped rule that only says what it finds is a rule that only says what it finds. -/
theorem ScopedRule.records_toRule {State : Type} (info : RuleInfo) (scopes : List ScopeKind)
    (listens : List Kind) (initial : State)
    (find : Stream → Nat → State → List Finding × State × Option Nat)
    (unrepaired : ∀ stream index state, repairsOf (find stream index state).1 = []) :
    (ScopedRule.ofFindings info scopes listens initial find).toRule.Records fun _ _ => [] := by
  intro file index state
  simp only [ScopedRule.toRule]
  cases file.stream.enclosingScope? index
      (ScopedRule.ofFindings info scopes listens initial find).scopes.contains with
  | none => exact ⟨state, [], rfl, fun _ => rfl⟩
  | some scope =>
    let context :=
      (ScopedRule.ofFindings info scopes listens initial find).contextFor file scope state
    by_cases skips : context.skipUntil.any (index < ·) = true
    · exact ⟨some context, [], rfl, fun _ => if_pos skips⟩
    · let found := find file.stream index context.state
      exact ⟨some { context with skipUntil := found.2.2, state := found.2.1 }, found.1,
        unrepaired _ _ _, fun _ => if_neg skips⟩

/-- The findings of one rule as entries. -/
def Entries.ofFindings (rule : RuleInfo) (findings : List Finding) : Entries :=
  findings.map fun finding => (rule, finding)

theorem Entries.record_ofFindings (rule : RuleInfo) (findings : List Finding) (file : File)
    (pass : Pass) :
    (ofFindings rule findings).record file pass = rule.recordAll file pass findings :=
  List.foldl_map

theorem Entries.repairs_ofFindings (rule : RuleInfo) (findings : List Finding) :
    (ofFindings rule findings).repairs = repairsOf findings :=
  List.filterMap_map

theorem Listener.visit_eq {listener : Listener} {repairs : Stream → Nat → List (List Edit)}
    (records : listener.rule.Records repairs) (file : File) (index : Nat) :
    ∃ (after : Listener) (entries : Entries), after.rule = listener.rule ∧
      entries.repairs = repairs file.stream index ∧
      ∀ pass, pass.fixer.isOpen = false →
        listener.visit file index pass = (after, entries.record file pass) := by
  rcases records file index listener.state with ⟨state, findings, repaired, visit⟩
  refine ⟨⟨listener.rule, state⟩, .ofFindings listener.rule.toRuleInfo findings, rfl,
    (Entries.repairs_ofFindings _ findings).trans repaired, fun pass closed => ?_⟩
  have still_closed : ((Entries.ofFindings listener.rule.toRuleInfo findings).record file
      pass).fixer.isOpen = false := Entries.isOpen_record closed _
  rw [Listener.visit, visit pass, ← Entries.record_ofFindings]
  simp only [tidy, still_closed, Bool.false_eq_true, if_false]

namespace Ruleset

variable (repairs : RuleInfo → Stream → Nat → List (List Edit))

/-- The repairs of some rules at a token of the given kind. -/
def repairsAt (rules : List Rule) (stream : Stream) (index : Nat) (kind : Kind) :
    List (List Edit) :=
  rules.flatMap fun rule =>
    if rule.listens.contains kind then repairs rule.toRuleInfo stream index else []

/-- The repairs of some rules at a sequence of tokens that begins at an index. -/
def repairsFrom (rules : List Rule) (stream : Stream) (index : Nat) (tokens : List Token) :
    List (List Edit) :=
  (tokens.zipIdx index).flatMap fun place => repairsAt repairs rules stream place.2 place.1.kind

variable {repairs}

/-- What rules record at a token, and the repairs that they offer there. -/
theorem ask_eq {listeners : List Listener}
    (records : ∀ rule ∈ listeners.map Listener.rule, rule.Records (repairs rule.toRuleInfo))
    (file : File) (index : Nat) (kind : Kind) :
    ∃ (after : List Listener) (entries : Entries),
      after.map Listener.rule = listeners.map Listener.rule ∧
      entries.repairs = repairsAt repairs (listeners.map Listener.rule) file.stream index kind ∧
      ∀ pass, pass.fixer.isOpen = false →
        ask file index kind listeners pass = (after, entries.record file pass) := by
  induction listeners with
  | nil => exact ⟨[], [], rfl, rfl, fun _ _ => rfl⟩
  | cons listener listeners ih =>
    rcases ih fun rule inside => records rule (List.mem_cons_of_mem _ inside) with
      ⟨rest_after, rest_entries, rest_rules, rest_repairs, rest_eq⟩
    by_cases hears : listener.rule.listens.contains kind = true
    · rcases Listener.visit_eq (records _ List.mem_cons_self) file index with
        ⟨after, entries, rule_eq, repaired, visit⟩
      refine ⟨after :: rest_after, entries ++ rest_entries, ?_, ?_, fun pass closed => ?_⟩
      · rw [List.map_cons, List.map_cons, rule_eq, rest_rules]
      · rw [Entries.repairs_append, repaired, rest_repairs, repairsAt, repairsAt, List.map_cons,
          List.flatMap_cons, if_pos hears]
      · rw [ask, if_pos hears, visit pass closed, Entries.record_append]
        simp only [rest_eq _ (Entries.isOpen_record closed entries)]
    · refine ⟨listener :: rest_after, rest_entries, ?_, ?_, fun pass closed => ?_⟩
      · rw [List.map_cons, List.map_cons, rest_rules]
      · rw [rest_repairs, repairsAt, repairsAt, List.map_cons, List.flatMap_cons, if_neg hears,
          List.nil_append]
      · rw [ask, if_neg hears]
        simp only [rest_eq _ closed]

/-- What rules record over all tokens, and the repairs that they offer there. -/
theorem askAll_eq {listeners : List Listener}
    (records : ∀ rule ∈ listeners.map Listener.rule, rule.Records (repairs rule.toRuleInfo))
    (file : File) (index : Nat) (tokens : List Token) :
    ∃ (after : List Listener) (entries : Entries),
      after.map Listener.rule = listeners.map Listener.rule ∧
      entries.repairs =
        repairsFrom repairs (listeners.map Listener.rule) file.stream index tokens ∧
      ∀ pass, pass.fixer.isOpen = false →
        askAll file index tokens (listeners, pass) = (after, entries.record file pass) := by
  induction tokens generalizing listeners index with
  | nil => exact ⟨listeners, [], rfl, rfl, fun _ _ => rfl⟩
  | cons token tokens ih =>
    rcases ask_eq records file index token.kind with
      ⟨middle, entries, middle_rules, repaired, middle_eq⟩
    rcases ih (by rwa [middle_rules]) (index + 1) with
      ⟨after, rest_entries, after_rules, rest_repaired, after_eq⟩
    refine ⟨after, entries ++ rest_entries, after_rules.trans middle_rules, ?_,
      fun pass closed => ?_⟩
    · rw [Entries.repairs_append, repaired, rest_repaired, middle_rules, repairsFrom, repairsFrom,
        List.zipIdx_cons, List.flatMap_cons]
    · rw [askAll, middle_eq pass closed, after_eq _ (Entries.isOpen_record closed entries),
        Entries.record_append]

/-- The repairs that some rules offer in a file. -/
def repairsIn (repairs : RuleInfo → Stream → Nat → List (List Edit)) (rules : List Rule)
    (stream : Stream) : List (List Edit) :=
  repairsFrom repairs rules stream 0 stream.tokens.toList

/-- A pass of rules that only record what they find records the same entries whatever the pass is
like, and its repairs do not depend on what the rules have seen before. -/
theorem process_eq {ruleset : Ruleset}
    (records : ∀ rule ∈ ruleset.listeners.map Listener.rule, rule.Records (repairs rule.toRuleInfo))
    (path : String) (stream : Stream) :
    ∃ (after : Ruleset) (file : File) (entries : Entries), file.stream = stream ∧
      after.listeners.map Listener.rule = ruleset.listeners.map Listener.rule ∧
      entries.repairs = repairsIn repairs (ruleset.listeners.map Listener.rule) stream ∧
      ∀ pass, pass.fixer.isOpen = false →
        ruleset.process path stream pass = (after, entries.record file pass) := by
  let file : File := ⟨path, ruleset.generation + 1, stream⟩
  rcases askAll_eq records file 0 stream.tokens.toList with
    ⟨after, entries, rules_eq, repaired, visits⟩
  refine ⟨{ listeners := after, generation := file.generation }, file, entries, rfl, rules_eq,
    repaired, ?_⟩
  intro pass closed
  have processed := process_eq_askAll ruleset path stream pass
  rw [visits pass closed, Prod.mk.injEq] at processed
  exact Prod.ext (eq_of_listeners processed.1 rfl) processed.2

end Ruleset

end PhpStyle
