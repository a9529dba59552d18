import PhpStyle.Proofs.MissingCommas

/-!
# Trailing commas

The rule about trailing commas reports the tokens behind which a comma is missing,
each of them once, and its repairs put the commas. The text that a pass of the
rule leaves misses no comma, so a fix run ends with the pass after the first one.
-/

namespace PhpStyle

open PhpStyle.Stream List

namespace Standard.ArrayComma

/-- What the rule says about a token behind which a comma is missing. -/
def missingAt (last : Nat) : Violation where
  message := "Comma missing after last array item"
  anchor := last
  code := "CommaMissing"
  repair := some [.append last [',']]

theorem find_eq (stream : Stream) (index : Nat) :
    find stream index =
      (stream.anchor? index).toList.map fun last => .violation (missingAt last) := by
  rw [find, anchor?]
  cases lastToken? stream index with
  | none => rfl
  | some last =>
    by_cases comma : stream.kind? last = some .comma
    · simp [Option.filter, comma]
    · simp [Option.filter, comma, missingAt]

end Standard.ArrayComma

/-- What a rule finds among tokens, the first of which has the given index. -/
def findingsFrom (listens : List Kind) (find : Stream → Nat → List Finding) (stream : Stream)
    (index : Nat) (tokens : List Token) : List Finding :=
  (tokens.zipIdx index).flatMap fun place =>
    if listens.contains place.1.kind then find stream place.2 else []

theorem Listener.visit_ofFindings {info : RuleInfo} {listens : List Kind}
    {find : Stream → Nat → List Finding} (file : File) (index : Nat) (state : Unit) {pass : Pass}
    (closed : pass.fixer.isOpen = false) :
    let listener : Listener := ⟨.ofFindings info listens find, state⟩
    listener.visit file index pass =
      (listener, (Entries.ofFindings info (find file.stream index)).record file pass) := by
  intro listener
  let recorded := (Entries.ofFindings info (find file.stream index)).record file pass
  have still_closed : recorded.fixer.isOpen = false := Entries.isOpen_record closed _
  have quiet : listener.tidy file index recorded = recorded :=
    if_neg (by rw [still_closed]; exact Bool.false_ne_true)
  have visited : listener.rule.visit file index listener.state pass = (state, recorded) :=
    congrArg (Prod.mk state) (Entries.record_ofFindings info _ file pass).symm
  rw [Listener.visit, visited]
  exact congrArg (Prod.mk listener) quiet

/-- A rule without a state records over all tokens what it finds at each one. -/
theorem Ruleset.askAll_ofFindings {info : RuleInfo} {listens : List Kind}
    {find : Stream → Nat → List Finding} (file : File) (index : Nat) (tokens : List Token)
    (state : Unit) {pass : Pass} (closed : pass.fixer.isOpen = false) :
    let listener : Listener := ⟨.ofFindings info listens find, state⟩
    askAll file index tokens ([listener], pass) =
      ([listener], (Entries.ofFindings info
        (findingsFrom listens find file.stream index tokens)).record file pass) := by
  intro listener
  induction tokens generalizing index pass with
  | nil => rfl
  | cons token tokens ih =>
    let found := Entries.ofFindings info
      (if listens.contains token.kind then find file.stream index else [])
    have still_closed : (found.record file pass).fixer.isOpen = false :=
      Entries.isOpen_record closed found
    have visited : ask file index token.kind [listener] pass =
        ([listener], found.record file pass) := by
      rw [ask]
      by_cases hears : listens.contains token.kind = true
      · have here : listener.rule.listens.contains token.kind = true := hears
        have found_eq : found = Entries.ofFindings info (find file.stream index) :=
          congrArg (Entries.ofFindings info) (if_pos hears)
        rw [if_pos here, Listener.visit_ofFindings file index state closed, found_eq]
        rfl
      · have nowhere : ¬listener.rule.listens.contains token.kind = true := hears
        have found_eq : found = [] := congrArg (Entries.ofFindings info) (if_neg hears)
        rw [if_neg nowhere, found_eq]
        rfl
    have split : Entries.ofFindings info
        (findingsFrom listens find file.stream index (token :: tokens)) =
          found ++ Entries.ofFindings info
            (findingsFrom listens find file.stream (index + 1) tokens) := by
      rw [findingsFrom, zipIdx_cons, flatMap_cons, Entries.ofFindings, map_append]
      rfl
    rw [askAll, visited, ih (index + 1) still_closed, split, Entries.record_append]

theorem Entries.diagnostics_enter (info : RuleInfo) (stream : Stream) (found : List Violation)
    (report : Report) :
    ((ofFindings info (found.map .violation)).enter stream report).diagnostics =
      report.diagnostics ++ found.map fun violation => stream.diagnosticAt .error info.code
        violation.code violation.message violation.anchor violation.repair.isSome := by
  induction found generalizing report with
  | nil => exact (append_nil _).symm
  | cons violation found ih =>
    have step : (ofFindings info ((violation :: found).map .violation)).enter stream report =
        (ofFindings info (found.map .violation)).enter stream
          (info.enter stream report (.violation violation)) := rfl
    rw [step, ih, map_cons, append_cons]
    rfl

theorem Runner.fix_of_fixPasses {runner : Runner} {path : String} {source : List Char}
    {after : Ruleset} {reached : Progress}
    (result : fixPasses path runner.maxPasses runner.ruleset { source } = (after, reached)) :
    let fixed := (runner.fix path source).1
    fixed.source = reached.source ∧ fixed.passes = reached.passes ∧
      fixed.fixesApplied = reached.fixesApplied ∧ fixed.isConverged = reached.isConverged ∧
      fixed.remaining =
        ({ runner with ruleset := after }.check path reached.source).1.report := by
  simp [fix, result]

namespace Standard.ArrayComma

open Runner

theorem findingsFrom_eq (stream : Stream) :
    findingsFrom rule.listens find stream 0 stream.tokens.toList =
      (stream.anchors.map missingAt).map .violation := by
  rw [findingsFrom, Stream.anchors, map_map, map_flatMap]
  congr 1
  funext place
  split
  · exact find_eq stream place.2
  · rfl

section Passes

variable {ruleset : Ruleset} (only : ruleset.listeners.map Listener.rule = [rule])

include only

theorem isBuiltIn : IsBuiltIn ruleset := by
  rw [IsBuiltIn, only, singleton_sublist]
  simp [rules]

/-- The rule reports the tokens behind which a comma is missing. -/
theorem anchors_process (path : String) (source : List Char) :
    (ruleset.process path (.ofSource source) (firstPass source false)).2.report.diagnostics.map
      Diagnostic.anchor = (ofSource source).anchors := by
  rcases List.map_eq_singleton_iff.mp only with ⟨⟨_, state⟩, listeners_eq, rfl⟩
  let stream := ofSource source
  let file : File := ⟨path, ruleset.generation + 1, stream⟩
  have visited : Ruleset.askAll file 0 stream.tokens.toList
      ([⟨rule, state⟩], firstPass source false) =
        ([⟨rule, state⟩], (Entries.ofFindings info
          (findingsFrom rule.listens find stream 0 stream.tokens.toList)).record file
            (firstPass source false)) :=
    Ruleset.askAll_ofFindings file 0 stream.tokens.toList state rfl
  have processed : (ruleset.process path stream (firstPass source false)).2 =
      (Entries.ofFindings info (findingsFrom rule.listens find stream 0
        stream.tokens.toList)).record file (firstPass source false) := by
    have processed := ruleset.process_eq_askAll path stream (firstPass source false)
    rw [listeners_eq, visited] at processed
    exact congrArg Prod.snd processed
  rw [processed, findingsFrom_eq, Entries.report_record, Entries.diagnostics_enter, map_append,
    map_map, map_map]
  exact map_id _

theorem offered_eq (source : List Char) : offered ruleset source =
    ((ofSource source).anchors.map Repair.comma).map Repair.edits := by
  have at_place (place : Token × Nat) :
      Ruleset.repairsAt repairs [rule] (ofSource source) place.2 place.1.kind =
        (if rule.listens.contains place.1.kind then
          ((ofSource source).anchor? place.2).toList else []).map
            (Repair.edits ∘ Repair.comma) := by
    have offers : repairs rule.toRuleInfo (ofSource source) place.2 =
        repairsOf (find (ofSource source) place.2) :=
      congrFun (congrFun repairs_arrayComma _) _
    rw [Ruleset.repairsAt, flatMap_singleton, offers, find_eq]
    split
    · cases (ofSource source).anchor? place.2 <;> rfl
    · rfl
  rw [offered, only, Ruleset.repairsIn, Ruleset.repairsFrom, Stream.anchors, map_map, map_flatMap]
  congr 1
  funext place
  exact at_place place

theorem fixCount_fixingPass (path : String) (source : List Char) :
    (fixingPass path source ruleset).2.fixer.fixCount =
      (ofSource source).anchors.length := by
  rw [(fixingPass_eq (isBuiltIn only) path source).2.2, offered_eq only, length_map, length_map]

theorem contents_fixingPass (path : String) (source : List Char) :
    (fixingPass path source ruleset).2.fixer.contents = withCommas source := by
  rw [(fixingPass_eq (isBuiltIn only) path source).2.1, offered_eq only]
  exact contents_anchors source

/-- Where no comma is missing, one pass ends a fix run. -/
theorem fixPasses_of_anchors_eq_nil (path : String) (passes : Nat) {progress : Progress}
    (goesOn : progress.isConverged = false) (nothing : (ofSource progress.source).anchors = []) :
    ∃ after reached, fixPasses path (passes + 1) ruleset progress = (after, reached) ∧
      after.listeners.map Listener.rule = [rule] ∧ reached.isConverged = true ∧
      reached.source = progress.source ∧ reached.fixesApplied = progress.fixesApplied ∧
      reached.passes = progress.passes + 1 := by
  have count := fixCount_fixingPass only path progress.source
  rw [nothing, length_nil] at count
  have rules_eq := (fixingPass_eq (isBuiltIn only) path progress.source).1.trans only
  rcases progress.afterPass_of_nothing count path with ⟨source_eq, passes_eq, fixes_eq, ends⟩
  rcases fixPasses_cases path passes ruleset goesOn with ⟨-, -, result⟩ | ⟨fixes, -, -⟩
  · exact ⟨_, _, result, rules_eq, ends, source_eq, fixes_eq, passes_eq⟩
  · exact absurd count fixes

/-- A fix run puts the missing commas in its first pass and has nothing to do in the next one. -/
theorem fixPasses_eq (path : String) (source : List Char) (passes : Nat) :
    ∃ after reached, fixPasses path (passes + 2) ruleset { source } = (after, reached) ∧
      after.listeners.map Listener.rule = [rule] ∧ reached.isConverged = true ∧
      reached.source = withCommas source ∧
      reached.fixesApplied = (ofSource source).anchors.length ∧
      reached.passes = if (ofSource source).anchors = [] then 1 else 2 := by
  have starts : ({ source } : Progress).isConverged = false := rfl
  by_cases nothing : (ofSource source).anchors = []
  · rcases fixPasses_of_anchors_eq_nil only path (passes + 1) starts nothing with
      ⟨after, reached, result, rules_eq, ends, source_eq, fixes_eq, passes_eq⟩
    refine ⟨after, reached, result, rules_eq, ends, ?_, ?_, ?_⟩
    · rw [source_eq, withCommas, nothing, textWithCommas_nil]
    · rw [fixes_eq, nothing, length_nil]
    · rw [passes_eq, if_pos nothing]
  · have count := fixCount_fixingPass only path source
    have fixes : (fixingPass path source ruleset).2.fixer.fixCount ≠ 0 := by
      rw [count]
      exact mt List.length_eq_zero_iff.mp nothing
    rcases fixPasses_cases path (passes + 1) ruleset starts with
      ⟨none, -⟩ | ⟨-, goesOn, result⟩
    · exact absurd none fixes
    · have rules_eq := (fixingPass_eq (isBuiltIn only) path source).1.trans only
      rcases Progress.afterPass_of_fixes { source } fixes path with
        ⟨source_eq, passes_eq, fixes_eq, -⟩
      rw [contents_fixingPass only] at source_eq
      rw [count] at fixes_eq
      have settled := anchors_withCommas source
      rw [← source_eq] at settled
      rcases fixPasses_of_anchors_eq_nil rules_eq path passes goesOn settled with
        ⟨after, reached, final, after_eq, ends, final_source, final_fixes, final_passes⟩
      refine ⟨after, reached, result.trans final, after_eq, ends, ?_, ?_, ?_⟩
      · exact final_source.trans source_eq
      · rw [final_fixes, fixes_eq]
        exact Nat.zero_add _
      · rw [final_passes, passes_eq, if_neg nothing]

end Passes

/-- A check reports each missing comma once. -/
theorem perm_anchors_check {runner : Runner}
    (only : runner.ruleset.listeners.map Listener.rule = [rule]) (path : String)
    (source : List Char) :
    ((runner.check path source).1.report.diagnostics.map Diagnostic.anchor).Perm
      (ofSource source).anchors := by
  rw [← anchors_process only path source]
  exact (mergeSort_perm _ _).map _

/-- The fix of trailing commas is exact and settles in one pass that fixes: it puts one comma behind
each token that a check reports, changes nothing else and leaves nothing to report. -/
theorem fix_puts_missing_commas (runner : Runner)
    (only : runner.ruleset.listeners.map Listener.rule = [rule]) (ceiling : 2 ≤ runner.maxPasses)
    (path : String) (source : List Char) :
    let found := (runner.check path source).1.report.diagnostics
    let fixed := (runner.fix path source).1
    (found.map Diagnostic.anchor).Nodup ∧
      (∀ diagnostic ∈ found, diagnostic.anchor < (Stream.ofSource source).size) ∧
      fixed.isConverged = true ∧
      fixed.fixesApplied = found.length ∧
      fixed.passes = (if found = [] then 1 else 2) ∧
      fixed.remaining.diagnostics = [] ∧
      fixed.source = (Stream.ofSource source).textWithCommas (found.map Diagnostic.anchor) := by
  intro found fixed
  have lexed := isContextual_of_mem (cuts_lex source)
  have reported := perm_anchors_check only path source
  have count : found.length = (Stream.ofSource source).anchors.length := by
    rw [← reported.length_eq, length_map]
  have empty_iff : found = [] ↔ (Stream.ofSource source).anchors = [] := by
    rw [← length_eq_zero_iff, count, length_eq_zero_iff]
  rcases fixPasses_eq only path source (runner.maxPasses - 2) with
    ⟨after, reached, result, after_eq, ends, source_eq, fixes_eq, passes_eq⟩
  rw [Nat.sub_add_cancel ceiling] at result
  rcases fix_of_fixPasses result with
    ⟨fixed_source, fixed_passes, fixed_fixes, fixed_ends, fixed_remaining⟩
  let final : Runner := { runner with ruleset := after }
  have final_only : final.ruleset.listeners.map Listener.rule = [rule] := after_eq
  have left_over := perm_anchors_check final_only path reached.source
  rw [source_eq, Stream.anchors_withCommas, perm_nil, map_eq_nil_iff] at left_over
  refine ⟨reported.nodup_iff.mpr (Stream.nodup_anchors lexed), ?_, fixed_ends.trans ends, ?_, ?_,
    ?_, ?_⟩
  · intro diagnostic inside
    have listed := reported.mem_iff.mp (mem_map_of_mem inside)
    exact Stream.lt_size_of_mem_anchors lexed listed
  · rw [fixed_fixes, fixes_eq, count]
  · simp only [empty_iff]
    exact fixed_passes.trans passes_eq
  · rw [fixed_remaining, source_eq]
    exact left_over
  · rw [fixed_source, source_eq, Stream.withCommas, Stream.textWithCommas_perm reported]

theorem fix_puts_missing_commas_nested_arrays :
    let runner := Runner.ofRuleset (.ofRules [rule]) 2
    let source := "<?php\narray(\n[\n1\n]\n);".toList
    let found := (runner.check "a.php" source).1.report.diagnostics
    let fixed := (runner.fix "a.php" source).1
    (found.map Diagnostic.anchor).Perm [9, 7] ∧ fixed.isConverged = true ∧
      fixed.fixesApplied = 2 ∧ fixed.passes = 2 ∧ fixed.remaining.diagnostics = [] ∧
      fixed.source = "<?php\narray(\n[\n1,\n],\n);".toList := by
  intro runner source found fixed
  have anchors : (Stream.ofSource source).anchors = [9, 7] := by decide +kernel
  have reported : (found.map Diagnostic.anchor).Perm [9, 7] :=
    anchors ▸ perm_anchors_check rfl "a.php" source
  have count : found.length = 2 := by
    rw [← length_map Diagnostic.anchor, reported.length_eq]
    rfl
  have some_found : found ≠ [] := by
    intro nothing
    simp [nothing] at count
  rcases fix_puts_missing_commas runner rfl (by decide) "a.php" source with
    ⟨-, -, ends, fixes, passes, left_over, text⟩
  refine ⟨reported, ends, fixes.trans count, passes.trans (if_neg some_found), left_over, ?_⟩
  rw [text, Stream.textWithCommas_perm reported]
  decide +kernel

end Standard.ArrayComma

end PhpStyle
