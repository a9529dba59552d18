import PhpStyle.CommandLine.Session
import PhpStyle.Proofs.RealChanges

/-!
# Which rules run

A run stops if no rule is asked for. What it asks is a list of names, though, and the rules that
run are the rules of the standard with a name in the list. Names on the command line are compared
with the standard beforehand. Names in a configuration are not: of an unknown one there is a
warning, and it still counts as a name.

So a run goes on without a rule exactly if the command line names none and the configuration
enables only names that are disabled again or that no rule has. Every file that can be read then
passes, whatever it holds.
-/

namespace PhpStyle

open List

/-! ## Passes without rules -/

namespace Ruleset

variable {ruleset : Ruleset}

theorem askAll_nil (file : File) (index : Nat) (tokens : List Token) (pass : Pass) :
    askAll file index tokens ([], pass) = ([], pass) := by
  induction tokens generalizing index with
  | nil => rfl
  | cons token rest ih => exact ih (index + 1)

theorem process_of_nil (empty : ruleset.listeners = []) (path : String) (stream : Stream)
    (pass : Pass) :
    ruleset.process path stream pass = ({ generation := ruleset.generation + 1 }, pass) := by
  have processed := process_eq_askAll ruleset path stream pass
  rw [empty, askAll_nil, Prod.mk.injEq] at processed
  exact Prod.ext (eq_of_listeners processed.1 rfl) processed.2

end Ruleset

namespace Runner

variable {runner : Runner}

theorem check_of_nil (empty : runner.ruleset.listeners = []) (path : String) (source : List Char) :
    (runner.check path source).1.report = {} ∧
      (runner.check path source).2.ruleset.listeners = [] := by
  rw [check, Ruleset.process_of_nil empty]
  refine ⟨?_, rfl⟩
  simp [Report.sorted]

theorem fixPasses_of_nil (path : String) (passes : Nat) {ruleset : Ruleset}
    (empty : ruleset.listeners = []) (progress : Progress) :
    (fixPasses path passes ruleset progress).1.listeners = [] ∧
      (fixPasses path passes ruleset progress).2.source = progress.source ∧
      (fixPasses path passes ruleset progress).2.fixesApplied = progress.fixesApplied := by
  cases passes with
  | zero => exact ⟨empty, rfl, rfl⟩
  | succ passes =>
    simp only [fixPasses, Ruleset.process_of_nil empty]
    exact ⟨rfl, rfl, rfl⟩

/-- A source that is inspected without rules stays as it is, and nothing is said about it. -/
theorem inspect_of_nil (empty : runner.ruleset.listeners = []) (isFixing : Bool) (path : String)
    (source : List Char) :
    (runner.inspect isFixing path source).1.report = {} ∧
      (runner.inspect isFixing path source).1.newSource = none ∧
      (runner.inspect isFixing path source).1.fixesApplied = 0 ∧
      (runner.inspect isFixing path source).2.ruleset.listeners = [] := by
  cases isFixing with
  | false =>
    rcases check_of_nil empty path source with ⟨silent, remains⟩
    exact ⟨silent, rfl, rfl, remains⟩
  | true =>
    rcases fixPasses_of_nil path runner.maxPasses empty { source } with ⟨remains, -, unfixed⟩
    have reached : ({ runner with ruleset := (fixPasses path runner.maxPasses runner.ruleset
        { source }).1 } : Runner).ruleset.listeners = [] := remains
    rcases check_of_nil reached path _ with ⟨silent, remains⟩
    refine ⟨silent, ?_, unfixed, remains⟩
    apply if_neg
    rw [Fixed.isChanged, decide_eq_true_eq]
    exact Nat.not_lt.mpr (Nat.le_of_eq unfixed)

end Runner

namespace CommandLine

variable {config : Config} {options : Options}

/-! ## Runs without rules -/

variable {tree : FileTree} {progress : Progress}

theorem exists_place_of_read {path : Path} {text : String} (read : tree.read path = .ok text) :
    ∃ place, tree.resolve path = .ok place ∧ tree.readAt place = .ok text := by
  rw [FileTree.read] at read
  cases resolved : tree.resolve path with
  | error error =>
    rw [resolved] at read
    cases read
  | ok place =>
    rw [resolved] at read
    exact ⟨place, rfl, read⟩

/-- How far a run without rules and without a log has come: the files are as they were, and each
file so far has passed. -/
structure Idle (tree : FileTree) (progress : Progress) : Prop where
  rules : progress.bench.runner.ruleset.listeners = []
  log : progress.log = none
  tree : progress.bench.tree = tree
  passed : ∀ result ∈ progress.results, ∃ path, result = .processed path [] 0

theorem Idle.note (idle : Idle tree progress) (journal : Journal) :
    progress.note journal = progress := by
  rw [Progress.note, idle.log]

theorem Idle.step (idle : Idle tree progress) (format : OutputFormat) {path : Path}
    (readable : ∃ text, tree.read path = .ok text) :
    Idle tree (progress.step format options path) := by
  rcases readable with ⟨source, read⟩
  rcases exists_place_of_read read with ⟨place, resolved, read⟩
  rcases Runner.inspect_of_nil idle.rules options.isFixing path.text source.toList with
    ⟨silent, unchanged, unfixed, remains⟩
  have inspected : progress.bench.inspect options.isFixing path =
      (.ok (place, (progress.bench.runner.inspect options.isFixing path.text source.toList).1),
        ⟨tree, (progress.bench.runner.inspect options.isFixing path.text source.toList).2⟩) := by
    simp only [Bench.inspect, idle.tree, resolved, read]
  rw [Progress.step, inspected]
  generalize progress.bench.runner.inspect options.isFixing path.text source.toList = inspection
    at silent unchanged unfixed remains
  have unwritten (bench : Bench) : bench.write place inspection.1 = bench := by
    rw [Bench.write, unchanged]
  simp only [Progress.note, idle.log, unwritten, ite_self, Progress.record]
  refine ⟨remains, rfl, rfl, ?_⟩
  intro result listed
  rcases List.mem_append.mp listed with earlier | last
  · exact idle.passed result earlier
  · rcases List.mem_singleton.mp last with rfl
    rw [silent, unfixed]
    exact ⟨path.text, rfl⟩

/-- A run without rules over readable files stays idle. -/
theorem Idle.foldl (idle : Idle tree progress) (format : OutputFormat) {paths : List Path}
    (readable : ∀ path ∈ paths, ∃ text, tree.read path = .ok text) :
    Idle tree (paths.foldl (Progress.step format options) progress) := by
  induction paths generalizing progress with
  | nil => exact idle
  | cons path rest ih =>
    rw [forall_mem_cons] at readable
    exact ih (idle.step format readable.1) readable.2

/-- Files without diagnostics leave a summary clean. -/
theorem isClean_foldl {summary : Summary} (clean : summary.isClean = true)
    {results : List FileResult} (passed : ∀ result ∈ results, ∃ path, result = .processed path [] 0) :
    (results.foldl Summary.add summary).isClean = true := by
  induction results generalizing summary with
  | nil => exact clean
  | cons result rest ih =>
    rw [forall_mem_cons] at passed
    rcases passed.1 with ⟨path, rfl⟩
    exact ih clean passed.2

/-- A run without rules and without a log ends well and leaves the files as they are, if all of
them can be read. -/
theorem runRules_of_nil (empty : (ruleset config options).listeners = []) (timestamp : Timestamp)
    (format : OutputFormat) (printed : Printed) (tree : FileTree)
    (readable : ∀ path ∈ (Discovery.ofPaths tree config options.paths).files,
      ∃ text, tree.read path = .ok text) :
    (runRules timestamp options config format none printed tree).exitCode = 0 ∧
      (runRules timestamp options config format none printed tree).tree = tree := by
  obtain ⟨progress, journal, idle, code_eq, tree_eq⟩ : ∃ progress journal, Idle tree progress ∧
      (runRules timestamp options config format none printed tree).exitCode =
        (if (Summary.ofResults progress.results).isClean then 0 else 1) ∧
      (runRules timestamp options config format none printed tree).tree =
        (progress.note journal).bench.tree := by
    refine ⟨_, _, ?_, rfl, rfl⟩
    apply Idle.foldl _ format readable
    exact ⟨empty, rfl, rfl, forall_mem_nil _⟩
  rw [code_eq, tree_eq, idle.note]
  exact ⟨if_pos (isClean_foldl rfl idle.passed), idle.tree⟩

/-! ## Names -/

theorem mem_requestedRules_iff {name : String} :
    name ∈ requestedRules config options ↔
      if options.rules = [] then
        name ∈ config.enabled.getD Standard.ruleNames ∧ name ∉ config.disabled
      else name ∈ options.rules := by
  rw [requestedRules, Config.effectiveRules, mem_mergeSort, mem_eraseDups]
  split
  · rw [mem_filter, decide_eq_true_eq]
  · rfl

theorem names_ofRules (rules : List Rule) :
    (Ruleset.ofRules rules).names = rules.map fun rule => rule.name := by
  rw [Ruleset.names, Ruleset.infos, Ruleset.listeners_ofRules, map_map, map_map]
  rfl

/-- The rules that run are those of the standard whose names are asked for. -/
theorem mem_names_ruleset_iff {name : String} :
    name ∈ (ruleset config options).names ↔
      name ∈ Standard.ruleNames ∧ name ∈ requestedRules config options := by
  rw [ruleset, Standard.ruleset, names_ofRules, Standard.ruleNames]
  simp only [mem_map, mem_filter, contains_iff_mem]
  constructor
  · rintro ⟨rule, ⟨listed, requested⟩, rfl⟩
    exact ⟨⟨rule, listed, rfl⟩, requested⟩
  · rintro ⟨⟨rule, listed, rfl⟩, requested⟩
    exact ⟨rule, ⟨listed, requested⟩, rfl⟩

theorem listeners_eq_nil_iff {ruleset : Ruleset} : ruleset.listeners = [] ↔ ruleset.names = [] := by
  rw [Ruleset.names, Ruleset.infos, map_eq_nil_iff, map_eq_nil_iff]

/-- A run that is asked for a rule goes on without one exactly if the names come from a
configuration and no rule has one of those that are left. -/
theorem names_ruleset_eq_nil_iff (known : ∀ rule ∈ options.rules, rule ∈ Standard.ruleNames)
    (requested : requestedRules config options ≠ []) :
    (ruleset config options).names = [] ↔
      options.rules = [] ∧ ∃ enabled, config.enabled = some enabled ∧
        ∀ name ∈ enabled, name ∈ config.disabled ∨ name ∉ Standard.ruleNames := by
  rcases exists_mem_of_ne_nil _ requested with ⟨name, asked⟩
  rw [eq_nil_iff_forall_not_mem]
  simp only [mem_names_ruleset_iff, mem_requestedRules_iff] at asked ⊢
  split at asked
  · next unnamed =>
      simp only [unnamed, if_true, true_and, not_and, Decidable.not_not]
      cases enabling : config.enabled with
      | none =>
        rw [enabling] at asked
        simp only [Option.getD_none, reduceCtorEq, false_and, exists_false, iff_false]
        intro without
        exact asked.2 (without name asked.1 asked.1)
      | some enabled =>
        simp only [Option.getD_some, Option.some.injEq, exists_eq_left']
        constructor
        · intro without name listed
          by_cases exists_rule : name ∈ Standard.ruleNames
          · exact .inl (without name exists_rule listed)
          · exact .inr exists_rule
        · intro left name exists_rule listed
          exact (left name listed).resolve_right (not_not_intro exists_rule)
  · next named =>
      simp only [named, if_false, false_and, iff_false]
      intro without
      exact without name ⟨known name asked, asked⟩

/-- A run whose rules are known and that is asked for a rule works on the files. It does so without
any rule exactly if the names come from a configuration and each of them is disabled or unknown.
Every readable file then passes, and the exit code is zero. -/
theorem runs_without_rules_iff (config : Config) (options : Options)
    (known : ∀ rule ∈ options.rules, rule ∈ Standard.ruleNames)
    (requested : requestedRules config options ≠ []) :
    (∀ timestamp format log tree, ∃ printed,
      runWith timestamp options config format log tree =
        runRules timestamp options config format log printed tree) ∧
    ((ruleset config options).names = [] ↔
      options.rules = [] ∧ ∃ enabled, config.enabled = some enabled ∧
        ∀ name ∈ enabled, name ∈ config.disabled ∨ name ∉ Standard.ruleNames) ∧
    ((ruleset config options).names = [] → ∀ timestamp format printed tree,
      (∀ path ∈ (Discovery.ofPaths tree config options.paths).files,
        ∃ text, tree.read path = .ok text) →
      (runRules timestamp options config format none printed tree).exitCode = 0 ∧
        (runRules timestamp options config format none printed tree).tree = tree) := by
  refine ⟨?_, names_ruleset_eq_nil_iff known requested, ?_⟩
  · intro timestamp format log tree
    have checked : options.rules.find? (fun rule => !Standard.ruleNames.contains rule) = none := by
      rw [find?_eq_none]
      intro rule listed
      simp [known rule listed]
    rw [runWith, checked]
    exact ⟨_, if_neg (by simpa using requested)⟩
  · intro empty timestamp format printed tree readable
    exact runRules_of_nil (listeners_eq_nil_iff.mpr empty) timestamp format printed tree readable

/-- One name is misspelt and the other one is disabled, so a class without a comment passes. -/
theorem runs_without_rules_misspelt_and_disabled :
    let config : Config :=
      { enabled := some ["class_coment", "function_comment"], disabled := ["function_comment"] }
    let options : Options := { paths := [⟨"a"⟩] }
    let tree : FileTree := { files := [(["a"], "<?php class A \x7b\x7d".toUTF8)] }
    let timestamp : Timestamp := ⟨"", ""⟩
    requestedRules config options = ["class_coment"] ∧ (ruleset config options).names = [] ∧
      (Discovery.ofPaths tree config options.paths).files = [⟨"a"⟩] ∧
      (runRules timestamp options config .text none {} tree).exitCode = 0 := by
  intro config options tree timestamp
  have asked : requestedRules config options = ["class_coment"] := by decide +kernel
  have resolved : tree.resolve ⟨"a"⟩ = .ok ["a"] := FileTree.resolve_letter rfl
  have found : (Discovery.ofPaths tree config options.paths).files = [⟨"a"⟩] := by
    have isFile : tree.isFile ⟨"a"⟩ = true := by
      rw [FileTree.isFile, resolved]
      decide +kernel
    simp [Discovery.ofPaths, Discovery.add, options, isFile, Path.sortedDistinct, Path.dropRepeated]
  rcases runs_without_rules_iff config options (by simp [options]) (by simp [asked]) with
    ⟨-, without_iff, passes⟩
  have without := without_iff.mpr ⟨rfl, _, rfl, by decide +kernel⟩
  refine ⟨asked, without, found, (passes without timestamp .text {} tree ?_).1⟩
  rw [found]
  intro path listed
  rcases List.mem_singleton.mp listed with rfl
  refine ⟨"<?php class A \x7b\x7d", ?_⟩
  rw [FileTree.read, resolved]
  rfl

/-- A misspelt name in a configuration counts as a rule that is enabled. -/
theorem misspelt_rule_passes_test :
    let config : Config := { enabled := some ["class_coment"] }
    let options : Options := { paths := [⟨"a"⟩] }
    (∀ rule ∈ options.rules, rule ∈ Standard.ruleNames) ∧
      (requestedRules config options).isEmpty = false ∧ (ruleset config options).names = [] := by
  decide +kernel

end CommandLine

end PhpStyle
