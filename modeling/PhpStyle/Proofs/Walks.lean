import Mathlib.Data.List.Sort
import PhpStyle.Proofs.Independence

/-!
# The walk of one rule

A rule that says what it finds and how it goes on walks over the tokens that it
listens to, from its initial state. The part of such a rule in the report of a check
is what it finds on its walk, whatever other rules are called in between.

The part can be looked at token by token. If only one call of the walk can bring
forth diagnostics of some kind, those of the report are the ones of that call.
Metrics carry no code: they are told apart by what the other rules do not count.
-/

namespace PhpStyle

open List

/-- The metric of a finding that is one. -/
def Finding.metric? : Finding → Option Metric
  | .metric counted => some counted
  | .violation _ => none

namespace RuleInfo

variable (rule : RuleInfo) (stream : Stream)

/-- The diagnostics of findings, in order. -/
def diagnostics (findings : List Finding) : List Diagnostic :=
  findings.filterMap fun finding =>
    match finding with
    | .metric _ => none
    | .violation violation => some (stream.diagnosticAt .error rule.code violation.code
        violation.message violation.anchor violation.repair.isSome)

theorem diagnostics_foldl_enter (findings : List Finding) :
    (findings.foldl (rule.enter stream) {}).diagnostics = rule.diagnostics stream findings := by
  induction findings with
  | nil => rfl
  | cons finding findings ih =>
    rw [foldl_cons, foldl_enter, Report.diagnostics_append, ih]
    cases finding with
    | metric metric => rfl
    | violation violation => rfl

theorem metrics_foldl_enter (findings : List Finding) :
    (findings.foldl (rule.enter stream) {}).metrics = findings.filterMap Finding.metric? := by
  induction findings with
  | nil => rfl
  | cons finding findings ih =>
    rw [foldl_cons, foldl_enter, Report.metrics_append, ih]
    cases finding with
    | metric metric => rfl
    | violation violation => rfl

end RuleInfo

/-- What the rule finds in a call, and the state in which the call leaves it, are those of the
step. -/
def Rule.Finds (rule : Rule)
    (step : File → rule.State → Nat → rule.State × List Finding) : Prop :=
  ∀ (file : File) (index : Nat) (state : rule.State) (pass : Pass),
    rule.visit file index state pass =
      ((step file state index).1, rule.recordAll file pass (step file state index).2)

theorem Rule.finds_ofFindings (info : RuleInfo) (listens : List Kind)
    (find : Stream → Nat → List Finding) :
    (Rule.ofFindings info listens find).Finds fun file state index =>
      (state, find file.stream index) := by
  intro file index state pass
  rfl

section Walk

variable {State : Type} (step : State → Nat → State × List Finding)

/-- The calls at some tokens, each with what is found in it. -/
def walk : State → List Nat → List (Nat × List Finding)
  | _, [] => []
  | state, index :: rest => (index, (step state index).2) :: walk (step state index).1 rest

/-- The state after the calls at some tokens. -/
def stateAfter (state : State) (indices : List Nat) : State :=
  indices.foldl (fun state index => (step state index).1) state

theorem walk_append (state : State) (first second : List Nat) :
    walk step state (first ++ second) =
      walk step state first ++ walk step (stateAfter step state first) second := by
  induction first generalizing state with
  | nil => rfl
  | cons index first ih => exact congrArg (_ :: ·) (ih _)

theorem map_fst_walk (state : State) (indices : List Nat) :
    (walk step state indices).map Prod.fst = indices := by
  induction indices generalizing state with
  | nil => rfl
  | cons index rest ih => exact congrArg (index :: ·) (ih _)

theorem exists_mem_walk (state : State) {indices : List Nat} {index : Nat}
    (listed : index ∈ indices) : ∃ findings, (index, findings) ∈ walk step state indices := by
  rw [← map_fst_walk step state indices] at listed
  rcases List.mem_map.mp listed with ⟨⟨place, findings⟩, called, rfl⟩
  exact ⟨findings, called⟩

/-- A call of a walk is the one at its token after the calls before it. -/
theorem exists_of_mem_walk {state : State} {indices : List Nat} {entry : Nat × List Finding}
    (called : entry ∈ walk step state indices) :
    ∃ before after, indices = before ++ entry.1 :: after ∧
      entry.2 = (step (stateAfter step state before) entry.1).2 := by
  induction indices generalizing state with
  | nil => cases called
  | cons index rest ih =>
    rcases List.mem_cons.mp called with rfl | later
    · exact ⟨[], rest, rfl, rfl⟩
    · rcases ih later with ⟨before, after, split, found⟩
      refine ⟨index :: before, after, ?_, found⟩
      rw [cons_append, ← split]

/-- Of a walk over different tokens one call is left if the others bring nothing. -/
theorem flatMap_walk_of_only {β : Type} {state : State} {before after : List Nat} {index : Nat}
    {part : Nat × List Finding → List β}
    (others : ∀ entry ∈ walk step state (before ++ index :: after), entry.1 ≠ index →
      part entry = []) (different : (before ++ index :: after).Nodup) :
    (walk step state (before ++ index :: after)).flatMap part =
      part (index, (step (stateAfter step state before) index).2) := by
  have split : walk step state (before ++ index :: after) =
      walk step state before ++ (index, (step (stateAfter step state before) index).2) ::
        walk step (step (stateAfter step state before) index).1 after := walk_append _ _ _ _
  rcases List.nodup_append.mp different with ⟨-, later, apart⟩
  have before_empty : (walk step state before).flatMap part = [] := by
    rw [flatMap_eq_nil_iff]
    intro entry member
    have listed : entry.1 ∈ before := by
      rw [← map_fst_walk step state before]
      exact mem_map_of_mem member
    apply others entry
    · rw [split]
      exact mem_append_left _ member
    · exact apart entry.1 listed index mem_cons_self
  have after_empty :
      (walk step (step (stateAfter step state before) index).1 after).flatMap part = [] := by
    rw [flatMap_eq_nil_iff]
    intro entry member
    have listed : entry.1 ∈ after := by
      rw [← map_fst_walk step _ after]
      exact mem_map_of_mem member
    apply others entry
    · rw [split]
      exact mem_append_right _ (mem_cons_of_mem _ member)
    · rintro rfl
      exact (List.nodup_cons.mp later).1 listed
  rw [split, flatMap_append, flatMap_cons, before_empty, after_empty, nil_append, append_nil]

end Walk

/-- The tokens of some kinds, in order. -/
def Stream.places (stream : Stream) (kinds : List Kind) : List Nat :=
  (List.range stream.size).filter fun index => stream.hasKind kinds.contains index

namespace Stream

theorem mem_places_iff {stream : Stream} {kinds : List Kind} {index : Nat} :
    index ∈ stream.places kinds ↔ ∃ kind ∈ kinds, stream.kind? index = some kind := by
  rw [places, mem_filter, mem_range, hasKind_iff]
  constructor
  · rintro ⟨-, kind, found, listed⟩
    exact ⟨kind, List.contains_iff_mem.mp listed, found⟩
  · rintro ⟨kind, listed, found⟩
    exact ⟨lt_size_of_kind? found, kind, found, List.contains_iff_mem.mpr listed⟩

theorem sorted_places (stream : Stream) (kinds : List Kind) :
    (stream.places kinds).Pairwise (· < ·) :=
  List.pairwise_lt_range.sublist filter_sublist

theorem nodup_places (stream : Stream) (kinds : List Kind) : (stream.places kinds).Nodup :=
  (sorted_places stream kinds).imp Nat.ne_of_lt

end Stream

namespace Ruleset

instance : Std.Asymm Invocation.Before where
  asymm first second := by
    simp only [Invocation.Before]
    omega

theorem invocations_singleton (rule : Rule) (stream : Stream) :
    invocations [rule] stream = (stream.places rule.listens).map fun index => ⟨index, 0⟩ := by
  apply List.Pairwise.eq_of_mem_iff (r := Invocation.Before)
  · exact pairwise_invocations [rule] stream
  · apply List.pairwise_map.mpr
    exact (stream.sorted_places rule.listens).imp Or.inl
  · intro invocation
    rw [mem_invocations_iff, mem_map]
    constructor
    · rintro ⟨kind, found, at_index, at_place, hears⟩
      rcases List.getElem?_eq_some_iff.mp at_place with ⟨bound, rfl⟩
      have first : invocation.place = 0 := by simpa using bound
      refine ⟨invocation.index, Stream.mem_places_iff.mpr ⟨kind, ?_, at_index⟩, ?_⟩
      · simpa [first] using hears
      · rw [← first]
    · rintro ⟨index, listed, rfl⟩
      rcases Stream.mem_places_iff.mp listed with ⟨kind, hears, at_index⟩
      exact ⟨kind, rule, at_index, rfl, hears⟩

/-- A transcript of a rule that only finds is its walk. -/
theorem transcript_of_finds {rule : Rule}
    {step : File → rule.State → Nat → rule.State × List Finding} (finds : rule.Finds step)
    (file : File) (state : rule.State) (pass : Pass) (indices : List Nat) {Item : Type}
    (part : Report → List Item) :
    ((transcript file ([⟨rule, state⟩], pass) (indices.map fun index => ⟨index, 0⟩)).flatMap
        fun entry => part entry.2) =
      (walk (step file) state indices).flatMap fun entry =>
        part (entry.2.foldl (rule.enter file.stream) {}) := by
  induction indices generalizing state pass with
  | nil => rfl
  | cons index rest ih =>
    let listener : Listener := ⟨rule, state⟩
    let found := (step file state index).2
    have visited (pass : Pass) :
        (listener.visit file index pass).1 = ⟨rule, (step file state index).1⟩ ∧
          (listener.visit file index pass).2.report =
            pass.report ++ found.foldl (rule.enter file.stream) {} := by
      have called : listener.rule.visit file index listener.state pass =
          ((step file state index).1, rule.recordAll file pass found) := finds file index state pass
      rw [Listener.visit, called]
      refine ⟨rfl, ?_⟩
      have recorded : (rule.recordAll file pass found).report =
          pass.report ++ found.foldl (rule.enter file.stream) {} := by
        rw [← RuleInfo.foldl_enter, ← Entries.record_ofFindings, Entries.report_record]
        exact foldl_map
      rw [← recorded]
      simp only [Listener.tidy]
      split <;> rfl
    have registered : ([listener], pass).1[(Invocation.mk index 0).place]? = some listener := rfl
    rcases transcript_cons registered visited (rest.map fun index => ⟨index, 0⟩) with
      ⟨later, split⟩
    rw [map_cons, split, flatMap_cons]
    have tail := ih (step file state index).1 later
    rw [walk, flatMap_cons, ← tail]
    rfl

end Ruleset

namespace Standard

variable {rule : Rule} {step : File → rule.State → Nat → rule.State × List Finding}
  (finds : rule.Finds step) {selected : List Rule} (builtIn : selected.Subperm rules)
  (chosen : rule ∈ selected) (maxPasses : Nat) (path : String) (source : List Char)

include finds builtIn chosen

/-- What a check says under the code of a rule is what the rule finds on its walk. -/
theorem filter_check_eq {keep : Diagnostic → Bool}
    (own : ∀ diagnostic, keep diagnostic = true → diagnostic.isUnder rule.code = true) :
    let stream := Stream.ofSource source
    ((Runner.ofRuleset (.ofRules selected) maxPasses).check path source).1.report.diagnostics.filter
        keep =
      (((walk (step ⟨path, 1, stream⟩) rule.initial (stream.places rule.listens)).flatMap
        fun entry => rule.diagnostics stream entry.2).filter keep).mergeSort
          Diagnostic.precedes := by
  intro stream
  have speaks : ∀ rule ∈ selected, rule.Speaks := by
    intro rule member
    exact speaks_of_mem (builtIn.subset member)
  rcases getElem?_of_mem chosen with ⟨place, found⟩
  have under : ∀ diagnostics : List Diagnostic, diagnostics.filter keep =
      (diagnostics.filter (Diagnostic.isUnder rule.code)).filter keep := by
    intro diagnostics
    rw [filter_filter]
    apply filter_congr
    intro diagnostic _
    cases kept : keep diagnostic with
    | false => rfl
    | true => rw [own diagnostic kept, Bool.and_self]
  have walked := Ruleset.transcript_of_finds finds ⟨path, 1, stream⟩ rule.initial
    { fixer := .ofStream stream false } (stream.places rule.listens) Report.diagnostics
  simp only [← Ruleset.invocations_singleton, RuleInfo.diagnostics_foldl_enter] at walked
  rw [Runner.report_check speaks path source maxPasses, Report.sorted,
    Diagnostic.filter_mergeSort, under,
    Runner.filter_isUnder speaks path source (pairwise_apart_of_subperm builtIn) found]
  exact congrArg (fun diagnostics => List.mergeSort (List.filter keep diagnostics) _) walked

/-- Where only the call at one token brings forth wanted diagnostics, a check says what it finds in
that call. -/
theorem filter_check_eq_of_only {keep : Diagnostic → Bool}
    (own : ∀ diagnostic, keep diagnostic = true → diagnostic.isUnder rule.code = true)
    {before after : List Nat} {index : Nat}
    (split : (Stream.ofSource source).places rule.listens = before ++ index :: after)
    (others : ∀ entry ∈ walk (step ⟨path, 1, .ofSource source⟩) rule.initial
        (before ++ index :: after), entry.1 ≠ index →
      (rule.diagnostics (.ofSource source) entry.2).filter keep = []) :
    ((Runner.ofRuleset (.ofRules selected) maxPasses).check path source).1.report.diagnostics.filter
        keep =
      ((rule.diagnostics (.ofSource source) (step ⟨path, 1, .ofSource source⟩
        (stateAfter (step ⟨path, 1, .ofSource source⟩) rule.initial before) index).2).filter
          keep).mergeSort Diagnostic.precedes := by
  have different := (Stream.ofSource source).nodup_places rule.listens
  rw [split] at different
  rw [filter_check_eq finds builtIn chosen maxPasses path source own, split, filter_flatMap,
    flatMap_walk_of_only _ others different]

omit builtIn chosen in
/-- The metrics of a check by one rule are those of its walk. -/
theorem metrics_checkTranscript :
    let stream := Stream.ofSource source
    ((Runner.checkTranscript [rule] path source).flatMap fun entry => entry.2.metrics) =
      (walk (step ⟨path, 1, stream⟩) rule.initial (stream.places rule.listens)).flatMap
        fun entry => entry.2.filterMap Finding.metric? := by
  intro stream
  have walked := Ruleset.transcript_of_finds finds ⟨path, 1, stream⟩ rule.initial
    { fixer := .ofStream stream false } (stream.places rule.listens) Report.metrics
  simp only [← Ruleset.invocations_singleton, RuleInfo.metrics_foldl_enter] at walked
  exact walked

omit builtIn chosen in
theorem filter_metrics_eq_nil {keep : Metric → Bool}
    (silent : ∀ state index, (((step ⟨path, 1, .ofSource source⟩ state index).2).filterMap
      Finding.metric?).filter keep = []) :
    ((Runner.checkTranscript [rule] path source).flatMap fun entry =>
      entry.2.metrics).filter keep = [] := by
  rw [metrics_checkTranscript finds path source, filter_flatMap, flatMap_eq_nil_iff]
  intro entry called
  rcases exists_of_mem_walk _ called with ⟨before, -, -, found⟩
  rw [found]
  exact silent _ entry.1

/-- What a check counts is what the rule counts on its walk, if no other rule counts such things. -/
theorem perm_metrics_check {keep : Metric → Bool}
    (silent : ∀ other ∈ rules, other.name ≠ rule.name →
      ((Runner.checkTranscript [other] path source).flatMap fun entry =>
        entry.2.metrics).filter keep = []) :
    let stream := Stream.ofSource source
    (((Runner.ofRuleset (.ofRules selected) maxPasses).check path source).1.report.metrics.filter
        keep).Perm
      (((walk (step ⟨path, 1, stream⟩) rule.initial (stream.places rule.listens)).flatMap
        fun entry => entry.2.filterMap Finding.metric?).filter keep) := by
  intro stream
  have speaks : ∀ rule ∈ selected, rule.Speaks := by
    intro rule member
    exact speaks_of_mem (builtIn.subset member)
  rcases append_of_mem chosen with ⟨before, after, split⟩
  have names : (selected.map fun rule => rule.name).Nodup := by
    rcases builtIn with ⟨ordered, perm, sublist⟩
    have all : (rules.map fun rule => rule.name).Nodup := by decide
    exact (perm.map _).nodup_iff.mp (all.sublist (sublist.map _))
  rw [split, map_append, map_cons, nodup_append] at names
  rcases names with ⟨-, later, apart⟩
  have nothing (others : List Rule) (inside : ∀ other ∈ others, other ∈ selected)
      (different : ∀ other ∈ others, other.name ≠ rule.name) :
      (others.flatMap fun other => (Runner.checkTranscript [other] path source).flatMap
        fun entry => entry.2.metrics).filter keep = [] := by
    rw [filter_flatMap, flatMap_eq_nil_iff]
    intro other member
    exact silent other (builtIn.subset (inside other member)) (different other member)
  have before_empty := nothing before (by rw [split]; simp +contextual) (by
    intro other member
    exact apart other.name (mem_map_of_mem member) rule.name mem_cons_self)
  have after_empty := nothing after (by rw [split]; simp +contextual) (by
    intro other member same
    apply (List.nodup_cons.mp later).1
    rw [← same]
    exact mem_map_of_mem member)
  have joined := (Runner.flatMap_perm_alone speaks path source Report.metrics).filter keep
  rw [split, flatMap_append, flatMap_cons, filter_append, filter_append,
    before_empty, after_empty, nil_append, append_nil,
    metrics_checkTranscript finds path source, ← split] at joined
  rw [Runner.report_check speaks path source maxPasses]
  exact joined

end Standard

end PhpStyle
