import Mathlib.Data.List.Perm.Basic
import Mathlib.Data.List.Perm.Subperm
import PhpStyle.Proofs.Dispatch
import PhpStyle.Proofs.Repairs

/-!
# Rules are independent

The rules of a pass share one report. A rule speaks for itself if what it adds to
the report depends on the file and on its own state, and not on the pass: all that
other rules have recorded is lost on it. Then its part of a pass is what it adds in
a pass by itself. This is proved along the `transcript` of a pass, which lists the
calls in order with what each of them adds.

A check sorts the diagnostics by their places at the end. Sorting commutes with
selecting, since it keeps the order of diagnostics at the same place.
-/

namespace PhpStyle

open List

namespace Diagnostic

/-- Whether the code of a diagnostic is the given code, a point and more. -/
def isUnder (code : String) (diagnostic : Diagnostic) : Bool :=
  (code.toList ++ ['.']).isPrefixOf diagnostic.code.toList

theorem precedes_trans (first second third : Diagnostic) (before : first.precedes second = true)
    (after : second.precedes third = true) : first.precedes third = true := by
  simp only [precedes, Bool.or_eq_true, Bool.and_eq_true, decide_eq_true_eq, beq_iff_eq] at *
  omega

theorem precedes_total (first second : Diagnostic) :
    (first.precedes second || second.precedes first) = true := by
  simp only [precedes, Bool.or_eq_true, Bool.and_eq_true, decide_eq_true_eq, beq_iff_eq]
  omega

theorem filter_precedes_append {first : Diagnostic} {before after : List Diagnostic}
    (earlier : ∀ other ∈ before, first.precedes other = false)
    (later : ∀ other ∈ after, first.precedes other = true) :
    (before ++ after).filter (fun other => !first.precedes other) = before ∧
      (before ++ after).filter first.precedes = after := by
  rw [filter_append, filter_append]
  constructor
  · have kept : before.filter (fun other => !first.precedes other) = before :=
      List.filter_eq_self.mpr (by simpa using earlier)
    have dropped : after.filter (fun other => !first.precedes other) = [] :=
      List.filter_eq_nil_iff.mpr (by simpa using later)
    rw [kept, dropped, append_nil]
  · have dropped : before.filter first.precedes = [] :=
      List.filter_eq_nil_iff.mpr (by simpa using earlier)
    rw [dropped, List.filter_eq_self.mpr later, nil_append]

/-- Sorting puts a diagnostic before those at its place or behind it that came later. -/
theorem mergeSort_cons (first : Diagnostic) (rest : List Diagnostic) :
    ∃ before after, (first :: rest).mergeSort precedes = before ++ first :: after ∧
      rest.mergeSort precedes = before ++ after ∧
      (∀ other ∈ before, first.precedes other = false) ∧
      ∀ other ∈ after, first.precedes other = true := by
  rcases List.mergeSort_cons precedes_trans precedes_total first rest with
    ⟨before, after, sorted_eq, rest_eq, earlier⟩
  have sorted := pairwise_mergeSort precedes_trans precedes_total (first :: rest)
  rw [sorted_eq, pairwise_append, pairwise_cons] at sorted
  exact ⟨before, after, sorted_eq, rest_eq, by simpa using earlier, sorted.2.1.1⟩

/-- Sorting commutes with selecting. -/
theorem filter_mergeSort (keep : Diagnostic → Bool) (diagnostics : List Diagnostic) :
    (diagnostics.mergeSort precedes).filter keep =
      (diagnostics.filter keep).mergeSort precedes := by
  induction diagnostics with
  | nil => simp
  | cons first rest ih =>
    rcases mergeSort_cons first rest with ⟨before, after, sorted_eq, rest_eq, earlier, later⟩
    rw [rest_eq, filter_append] at ih
    rw [sorted_eq, filter_append]
    by_cases kept : keep first = true
    · rcases mergeSort_cons first (rest.filter keep) with
        ⟨low, high, kept_eq, kept_rest, kept_earlier, kept_later⟩
      have low_before : ∀ other ∈ before.filter keep, first.precedes other = false :=
        fun other inside => earlier other (mem_of_mem_filter inside)
      have high_after : ∀ other ∈ after.filter keep, first.precedes other = true :=
        fun other inside => later other (mem_of_mem_filter inside)
      have cut := filter_precedes_append low_before high_after
      have kept_cut := filter_precedes_append kept_earlier kept_later
      rw [← kept_rest, ← ih, cut.1, cut.2] at kept_cut
      rw [filter_cons_of_pos kept, filter_cons_of_pos kept, kept_eq, kept_cut.1, kept_cut.2]
    · rw [filter_cons_of_neg kept, filter_cons_of_neg kept, ih]

/-- Diagnostics at the same place keep their order. -/
theorem filter_place_mergeSort (line column : Nat) (diagnostics : List Diagnostic) :
    (diagnostics.mergeSort precedes).filter
        (fun found => found.line == line && found.column == column) =
      diagnostics.filter fun found => found.line == line && found.column == column := by
  rw [filter_mergeSort]
  apply mergeSort_of_pairwise
  apply pairwise_of_forall_mem_list
  intro first first_mem second second_mem
  simp only [mem_filter, Bool.and_eq_true, beq_iff_eq] at first_mem second_mem
  simp only [precedes, Bool.or_eq_true, Bool.and_eq_true, decide_eq_true_eq, beq_iff_eq]
  omega

end Diagnostic

namespace Report

instance : Append Report where
  append first second :=
    ⟨first.diagnostics ++ second.diagnostics, first.metrics ++ second.metrics⟩

@[simp]
theorem diagnostics_append (first second : Report) :
    (first ++ second).diagnostics = first.diagnostics ++ second.diagnostics :=
  rfl

@[simp]
theorem metrics_append (first second : Report) :
    (first ++ second).metrics = first.metrics ++ second.metrics :=
  rfl

theorem append_assoc (first second third : Report) :
    first ++ second ++ third = first ++ (second ++ third) :=
  congrArg₂ Report.mk (List.append_assoc _ _ _) (List.append_assoc _ _ _)

theorem append_empty (report : Report) : report ++ {} = report :=
  congrArg₂ Report.mk (append_nil _) (append_nil _)

/-- What a report has in addition to an earlier one. -/
def since (report earlier : Report) : Report :=
  ⟨report.diagnostics.drop earlier.diagnostics.length, report.metrics.drop earlier.metrics.length⟩

@[simp]
theorem since_append (earlier said : Report) : (earlier ++ said).since earlier = said := by
  simp [since]

end Report

namespace RuleInfo

variable (rule : RuleInfo) (stream : Stream)

theorem enter_eq (report : Report) (finding : Finding) :
    rule.enter stream report finding = report ++ rule.enter stream {} finding := by
  cases finding with
  | metric metric => exact congrArg (Report.mk · _) (append_nil _).symm
  | violation violation => exact congrArg (Report.mk _) (append_nil _).symm

theorem foldl_enter (report : Report) (findings : List Finding) :
    findings.foldl (rule.enter stream) report =
      report ++ findings.foldl (rule.enter stream) {} := by
  induction findings generalizing report with
  | nil => exact (Report.append_empty report).symm
  | cons finding findings ih =>
    rw [foldl_cons, foldl_cons, ih, ih (rule.enter stream {} finding), enter_eq,
      Report.append_assoc]

theorem isUnder_diagnosticAt (severity : Severity) (ruleCode code message : String) (anchor : Nat)
    (isFixable : Bool) :
    (stream.diagnosticAt severity ruleCode code message anchor isFixable).isUnder ruleCode =
      true := by
  rw [Diagnostic.isUnder, isPrefixOf_iff_prefix]
  refine ⟨code.toList, ?_⟩
  simp [Stream.diagnosticAt, ToString.toString]

theorem isUnder_of_mem_enter {diagnostic : Diagnostic} {findings : List Finding}
    (found : diagnostic ∈ (findings.foldl (rule.enter stream) {}).diagnostics) :
    diagnostic.isUnder rule.code = true := by
  induction findings with
  | nil => simp at found
  | cons finding findings ih =>
    rw [foldl_cons, foldl_enter, Report.diagnostics_append, mem_append] at found
    rcases found with here | later
    · cases finding with
      | metric metric => simp [enter, Report.addMetric] at here
      | violation violation =>
        simp only [enter, Report.add, nil_append, mem_singleton] at here
        rw [here]
        apply isUnder_diagnosticAt
    · exact ih later

end RuleInfo

/-- A rule that speaks for itself: what it adds to a report, and how it goes on, depends on the file
and its state and not on the pass. All its diagnostics are under its code. -/
def Rule.Speaks (rule : Rule) : Prop :=
  ∀ (file : File) (index : Nat) (state : rule.State), ∃ (after : rule.State) (said : Report),
    (∀ diagnostic ∈ said.diagnostics, diagnostic.isUnder rule.code = true) ∧
      ∀ pass, (rule.visit file index state pass).1 = after ∧
        (rule.visit file index state pass).2.report = pass.report ++ said

theorem Rule.speaks_of_records {rule : Rule} {repairs : Stream → Nat → List (List Edit)}
    (records : rule.Records repairs) : rule.Speaks := by
  intro file index state
  rcases records file index state with ⟨after, findings, -, visit⟩
  refine ⟨after, findings.foldl (rule.enter file.stream) {}, ?_, ?_⟩
  · intro diagnostic found
    exact rule.isUnder_of_mem_enter file.stream found
  · intro pass
    rw [visit pass, ← RuleInfo.foldl_enter, ← Entries.record_ofFindings, Entries.report_record]
    exact ⟨rfl, foldl_map⟩

theorem Listener.visit_of_speaks {listener : Listener} (speaks : listener.rule.Speaks) (file : File)
    (index : Nat) :
    ∃ (after : listener.rule.State) (said : Report),
      (∀ diagnostic ∈ said.diagnostics, diagnostic.isUnder listener.rule.code = true) ∧
        ∀ pass, (listener.visit file index pass).1 = ⟨listener.rule, after⟩ ∧
          (listener.visit file index pass).2.report = pass.report ++ said := by
  rcases speaks file index listener.state with ⟨after, said, under, visit⟩
  refine ⟨after, said, under, ?_⟩
  intro pass
  constructor
  · exact congrArg (Listener.mk listener.rule) (visit pass).1
  · rw [← (visit pass).2]
    simp only [Listener.visit, tidy]
    split <;> rfl

namespace Ruleset

/-- The calls, each with what it adds to the report. -/
def transcript (file : File) :
    List Listener × Pass → List Invocation → List (Invocation × Report)
  | _, [] => []
  | current, invocation :: calls =>
    (invocation, (call file current invocation).2.report.since current.2.report) ::
      transcript file (call file current invocation) calls

variable {place : Nat}

theorem map_fst_transcript (file : File) (current : List Listener × Pass)
    (calls : List Invocation) :
    (transcript file current calls).map (fun entry => entry.1) = calls := by
  induction calls generalizing current with
  | nil => rfl
  | cons invocation calls ih => exact congrArg (invocation :: ·) (ih _)

section Transcript

variable {file : File} {current : List Listener × Pass}

section

variable (speaks : ∀ rule ∈ current.1.map Listener.rule, rule.Speaks)

include speaks

theorem report_call (invocation : Invocation) :
    ∃ said, (call file current invocation).2.report = current.2.report ++ said ∧
      ∀ diagnostic ∈ said.diagnostics,
        ∃ rule, (current.1.map Listener.rule)[invocation.place]? = some rule ∧
          diagnostic.isUnder rule.code = true := by
  cases found : current.1[invocation.place]? with
  | none =>
    refine ⟨{}, ?_, ?_⟩
    · rw [call_of_none found, Report.append_empty]
    · intro diagnostic inside
      simp at inside
  | some listener =>
    have speaks_here := speaks listener.rule (mem_map_of_mem (mem_of_getElem? found))
    rcases Listener.visit_of_speaks speaks_here file invocation.index with
      ⟨after, said, under, visit⟩
    refine ⟨said, ?_, ?_⟩
    · rw [call_of_getElem? found]
      exact (visit current.2).2
    · intro diagnostic inside
      refine ⟨listener.rule, ?_, under diagnostic inside⟩
      rw [getElem?_map, found, Option.map_some]

/-- The report of a run, in the order of its calls. -/
theorem report_callAll (calls : List Invocation) :
    (callAll file current calls).2.report = current.2.report ++
      ⟨(transcript file current calls).flatMap fun entry => entry.2.diagnostics,
        (transcript file current calls).flatMap fun entry => entry.2.metrics⟩ := by
  induction calls generalizing current with
  | nil => exact (Report.append_empty _).symm
  | cons invocation calls ih =>
    rcases report_call speaks invocation with ⟨said, added, -⟩
    have still : ∀ rule ∈ (call file current invocation).1.map Listener.rule, rule.Speaks := by
      rwa [rules_call file current invocation]
    rw [callAll_cons, ih still, added, Report.append_assoc, transcript, added, Report.since_append]
    rfl

/-- Every diagnostic of a run is under the code of the rule whose call added it. -/
theorem isUnder_of_mem_transcript {calls : List Invocation} {entry : Invocation × Report}
    (inside : entry ∈ transcript file current calls) :
    ∀ diagnostic ∈ entry.2.diagnostics,
      ∃ rule, (current.1.map Listener.rule)[entry.1.place]? = some rule ∧
        diagnostic.isUnder rule.code = true := by
  induction calls generalizing current with
  | nil => simp [transcript] at inside
  | cons invocation calls ih =>
    rcases report_call speaks invocation with ⟨said, added, under⟩
    have same_rules := rules_call file current invocation
    rw [transcript, added, Report.since_append] at inside
    rcases List.mem_cons.mp inside with rfl | later
    · exact under
    · rw [← same_rules]
      exact ih (by rwa [same_rules]) later

end

end Transcript

/-!
## The part of one rule
-/

/-- The calls of the rule at a place, as calls of the only rule. -/
def soloCalls (place : Nat) (calls : List Invocation) : List Invocation :=
  (calls.filter fun invocation => invocation.place == place).map fun invocation =>
    ⟨invocation.index, 0⟩

theorem soloCalls_cons_of_eq {invocation : Invocation} (here : invocation.place = place)
    (calls : List Invocation) :
    soloCalls place (invocation :: calls) = ⟨invocation.index, 0⟩ :: soloCalls place calls := by
  simp [soloCalls, here]

theorem soloCalls_cons_of_ne {invocation : Invocation} (elsewhere : invocation.place ≠ place)
    (calls : List Invocation) : soloCalls place (invocation :: calls) = soloCalls place calls := by
  simp [soloCalls, elsewhere]

theorem soloCalls_append (place : Nat) (first second : List Invocation) :
    soloCalls place (first ++ second) = soloCalls place first ++ soloCalls place second := by
  simp [soloCalls]

theorem soloCalls_of_lt {first : Nat} (before : place < first) (rules : List Rule) (index : Nat)
    (kind : Kind) : soloCalls place (invocationsAt rules first index kind) = [] := by
  induction rules generalizing first with
  | nil => rfl
  | cons rule rules ih =>
    rw [invocationsAt_cons, soloCalls_append, ih (by omega), append_nil]
    have elsewhere : first ≠ place := by omega
    split
    · exact soloCalls_cons_of_ne elsewhere []
    · rfl

/-- At a token a rule is called with other rules as it is called alone. -/
theorem soloCalls_invocationsAt {rules : List Rule} {rule : Rule}
    (found : rules[place]? = some rule) (first index : Nat) (kind : Kind) :
    soloCalls (first + place) (invocationsAt rules first index kind) =
      invocationsAt [rule] 0 index kind := by
  induction rules generalizing place first with
  | nil => simp at found
  | cons other rules ih =>
    rw [invocationsAt_cons, soloCalls_append]
    cases place with
    | zero =>
      obtain rfl : other = rule := by simpa using found
      rw [Nat.add_zero, soloCalls_of_lt (Nat.lt_succ_self first), invocationsAt_cons]
      split
      · exact congrArg (· ++ []) (soloCalls_cons_of_eq rfl [])
      · rfl
    | succ place =>
      have rest := ih found (first + 1)
      rw [Nat.add_right_comm, Nat.add_assoc] at rest
      rw [rest]
      have elsewhere : first ≠ first + (place + 1) := by omega
      split
      · rw [soloCalls_cons_of_ne elsewhere]
        rfl
      · rfl

/-- A rule is called at the same tokens with and without other rules. -/
theorem soloCalls_invocations {rules : List Rule} {rule : Rule} (found : rules[place]? = some rule)
    (stream : Stream) : soloCalls place (invocations rules stream) = invocations [rule] stream := by
  have at_token (index : Nat) (kind : Kind) := soloCalls_invocationsAt found 0 index kind
  simp only [Nat.zero_add, soloCalls] at at_token
  simp only [soloCalls, invocations, invocationsFrom, filter_flatMap, map_flatMap, at_token]

section Solo

variable {file : File} {current : List Listener × Pass} {listener : Listener}
  {invocation : Invocation}

theorem transcript_cons {after : listener.rule.State} {said : Report}
    (found : current.1[invocation.place]? = some listener)
    (visit : ∀ pass, (listener.visit file invocation.index pass).1 = ⟨listener.rule, after⟩ ∧
      (listener.visit file invocation.index pass).2.report = pass.report ++ said)
    (calls : List Invocation) :
    ∃ pass, transcript file current (invocation :: calls) = (invocation, said) ::
      transcript file (current.1.set invocation.place ⟨listener.rule, after⟩, pass) calls := by
  refine ⟨(listener.visit file invocation.index current.2).2, ?_⟩
  rw [transcript, call_of_getElem? found, (visit current.2).1, (visit current.2).2,
    Report.since_append]

theorem getElem?_call_of_ne (elsewhere : invocation.place ≠ place) :
    (call file current invocation).1[place]? = current.1[place]? := by
  cases found : current.1[invocation.place]? with
  | none => rw [call_of_none found]
  | some listener => rw [call_of_getElem? found, getElem?_set_ne elsewhere]

/-- What a rule adds that speaks for itself is what it adds when it is the only rule: both runs make
its calls, and it adds the same to both passes. -/
theorem transcript_solo {listeners : List Listener} (found : listeners[place]? = some listener)
    (speaks : listener.rule.Speaks) (file : File) (pass other : Pass) (calls : List Invocation) :
    ((transcript file (listeners, pass) calls).filter fun entry => entry.1.place == place).map
        (fun entry => entry.2) =
      (transcript file ([listener], other) (soloCalls place calls)).map fun entry => entry.2 := by
  induction calls generalizing listeners listener pass other with
  | nil => rfl
  | cons invocation calls ih =>
    by_cases here : invocation.place = place
    · subst here
      rcases Listener.visit_of_speaks speaks file invocation.index with ⟨after, said, -, visit⟩
      have joint_found : (listeners, pass).1[invocation.place]? = some listener := found
      have solo_found : ([listener], other).1[(⟨invocation.index, 0⟩ : Invocation).place]? =
          some listener := rfl
      have inside := List.getElem?_eq_some_iff.mp found |>.1
      rcases transcript_cons joint_found visit calls with ⟨next, transcript_eq⟩
      rcases transcript_cons solo_found visit (soloCalls invocation.place calls) with
        ⟨solo_next, solo_eq⟩
      rw [soloCalls_cons_of_eq rfl, transcript_eq, solo_eq,
        filter_cons_of_pos (by simp), map_cons, map_cons]
      let visited : Listener := ⟨listener.rule, after⟩
      have next_found : (listeners.set invocation.place visited)[invocation.place]? =
          some visited := getElem?_set_self inside
      exact congrArg (said :: ·) (ih next_found speaks next solo_next)
    · rw [soloCalls_cons_of_ne here, transcript, filter_cons_of_neg (by simpa using here)]
      exact ih ((getElem?_call_of_ne here).trans found) speaks _ other

end Solo

/-- Entries can be put in the order of the places of their rules. -/
theorem flatMap_perm_places {Item : Type} {entries : List (Invocation × Report)} {count : Nat}
    (inside : ∀ entry ∈ entries, entry.1.place < count) (part : Report → List Item) :
    (entries.flatMap fun entry => part entry.2).Perm ((List.range count).flatMap fun place =>
      (entries.filter fun entry => entry.1.place == place).flatMap fun entry => part entry.2) := by
  induction count generalizing entries with
  | zero =>
    have empty : entries = [] := List.eq_nil_iff_forall_not_mem.mpr fun entry member =>
      Nat.not_lt_zero _ (inside entry member)
    simp [empty]
  | succ count ih =>
    let last := entries.filter fun entry => entry.1.place == count
    let before := entries.filter fun entry => !(entry.1.place == count)
    have before_inside : ∀ entry ∈ before, entry.1.place < count := by
      intro entry member
      simp only [before, mem_filter, Bool.not_eq_true', beq_eq_false_iff_ne] at member
      have := inside entry member.1
      omega
    have parted : entries.Perm (before ++ last) :=
      (List.perm_append_comm.trans (filter_append_perm _ entries)).symm
    have same : ∀ place ∈ List.range count,
        ((before.filter fun entry => entry.1.place == place).flatMap fun entry => part entry.2) =
          (entries.filter fun entry => entry.1.place == place).flatMap fun entry =>
            part entry.2 := by
      intro place member
      rw [filter_filter]
      apply congrArg (List.flatMap _)
      apply filter_congr
      intro entry _
      have := List.mem_range.mp member
      by_cases here : entry.1.place = place
      · have : place ≠ count := by omega
        simp [here, this]
      · simp [here]
    rw [range_succ, flatMap_append, flatMap_singleton, ← flatMap_congr same]
    apply (parted.flatMap_right _).trans
    rw [flatMap_append]
    exact (ih before_inside).append_right _

/-- Selecting by code is selecting by place, if the codes tell the places. -/
theorem filter_flatMap_diagnostics {entries : List (Invocation × Report)} {keep : Diagnostic → Bool}
    (tells : ∀ entry ∈ entries, ∀ diagnostic ∈ entry.2.diagnostics,
      keep diagnostic = (entry.1.place == place)) :
    (entries.flatMap fun entry => entry.2.diagnostics).filter keep =
      (entries.filter fun entry => entry.1.place == place).flatMap fun entry =>
        entry.2.diagnostics := by
  induction entries with
  | nil => rfl
  | cons entry entries ih =>
    have rest := ih fun other member => tells other (mem_cons_of_mem _ member)
    have first := tells entry mem_cons_self
    rw [flatMap_cons, filter_append, rest]
    by_cases here : (entry.1.place == place) = true
    · rw [filter_cons_of_pos (by exact here), flatMap_cons, List.filter_eq_self.mpr]
      intro diagnostic member
      rw [first diagnostic member, here]
    · rw [filter_cons_of_neg (by exact here), List.filter_eq_nil_iff.mpr, nil_append]
      intro diagnostic member
      rwa [first diagnostic member]

end Ruleset

/-- No code is under those of both rules. -/
def Rule.Apart (first second : Rule) : Prop :=
  ∀ diagnostic : Diagnostic, diagnostic.isUnder first.code = true →
    diagnostic.isUnder second.code = false

theorem Rule.Apart.symm {first second : Rule} (apart : first.Apart second) :
    second.Apart first := by
  intro diagnostic under
  by_contra also
  have := apart diagnostic (by simpa using also)
  simp [this] at under

theorem Rule.apart_of_codes {first second : Rule}
    (unrelated : ¬first.code.toList ++ ['.'] <+: second.code.toList ++ ['.'] ∧
      ¬second.code.toList ++ ['.'] <+: first.code.toList ++ ['.']) : first.Apart second := by
  intro diagnostic under
  by_contra also
  have also_under : diagnostic.isUnder second.code = true := by simpa using also
  rw [Diagnostic.isUnder, isPrefixOf_iff_prefix] at under also_under
  rcases prefix_or_prefix_of_prefix under also_under with before | before
  · exact unrelated.1 before
  · exact unrelated.2 before

theorem Rule.apart_of_getElem? {rules : List Rule} (apart : rules.Pairwise Rule.Apart)
    {place other_place : Nat} {rule other : Rule} (found : rules[place]? = some rule)
    (other_found : rules[other_place]? = some other) (distinct : place ≠ other_place) :
    rule.Apart other := by
  rw [pairwise_iff_getElem] at apart
  rcases List.getElem?_eq_some_iff.mp found with ⟨inside, rfl⟩
  rcases List.getElem?_eq_some_iff.mp other_found with ⟨other_inside, rfl⟩
  rcases Nat.lt_or_gt_of_ne distinct with before | after
  · exact apart place other_place inside other_inside before
  · exact (apart other_place place other_inside inside after).symm

namespace Runner

/-- The calls of a check by rules that have not been called before, each with what it adds. -/
def checkTranscript (rules : List Rule) (path : String) (source : List Char) :
    List (Ruleset.Invocation × Report) :=
  let stream := Stream.ofSource source
  Ruleset.transcript ⟨path, 1, stream⟩
    ((Ruleset.ofRules rules).listeners, { fixer := .ofStream stream false })
    (Ruleset.invocations rules stream)

section Check

variable {rules : List Rule} (speaks : ∀ rule ∈ rules, rule.Speaks) (path : String)
  (source : List Char)

theorem place_lt_of_mem_checkTranscript {entry : Ruleset.Invocation × Report}
    (member : entry ∈ checkTranscript rules path source) : entry.1.place < rules.length := by
  have planned : entry.1 ∈ Ruleset.invocations rules (Stream.ofSource source) := by
    have listed : entry.1 ∈ (checkTranscript rules path source).map fun entry => entry.1 :=
      mem_map_of_mem member
    rwa [checkTranscript, Ruleset.map_fst_transcript] at listed
  rcases Ruleset.mem_invocations_iff.mp planned with ⟨kind, rule, -, found, -⟩
  exact (List.getElem?_eq_some_iff.mp found).1

include speaks

theorem speaks_ofRules :
    ∀ rule ∈ (Ruleset.ofRules rules).listeners.map Listener.rule, rule.Speaks := by
  rwa [Ruleset.rules_ofRules]

theorem report_check (maxPasses : Nat) :
    ((ofRuleset (.ofRules rules) maxPasses).check path source).1.report =
      Report.sorted
        ⟨(checkTranscript rules path source).flatMap fun entry => entry.2.diagnostics,
          (checkTranscript rules path source).flatMap fun entry => entry.2.metrics⟩ := by
  have first : (Ruleset.ofRules rules).generation = 0 := by rw [Ruleset.ofRules_eq]
  simp only [check, ofRuleset, Ruleset.pass_process, Ruleset.rules_ofRules, first]
  exact congrArg Report.sorted (Ruleset.report_callAll (speaks_ofRules speaks) _)

/-- The part of a rule in a check by several rules is its check by itself. -/
theorem flatMap_place {Item : Type} (part : Report → List Item) {place : Nat} {rule : Rule}
    (found : rules[place]? = some rule) :
    ((checkTranscript rules path source).filter fun entry => entry.1.place == place).flatMap
        (fun entry => part entry.2) =
      (checkTranscript [rule] path source).flatMap fun entry => part entry.2 := by
  have registered : (Ruleset.ofRules rules).listeners[place]? = some (Listener.ofRule rule) := by
    rw [Ruleset.listeners_ofRules, getElem?_map, found, Option.map_some]
  have rule_speaks := speaks rule (mem_of_getElem? found)
  let stream := Stream.ofSource source
  have solo := Ruleset.transcript_solo registered rule_speaks ⟨path, 1, stream⟩
    { fixer := .ofStream stream false } { fixer := .ofStream stream false }
    (Ruleset.invocations rules stream)
  rw [Ruleset.soloCalls_invocations found] at solo
  have parts := congrArg (List.flatMap part) solo
  rwa [flatMap_map, flatMap_map] at parts

/-- A check by several rules adds what the checks by single rules add, in another order. -/
theorem flatMap_perm_alone {Item : Type} (part : Report → List Item) :
    ((checkTranscript rules path source).flatMap fun entry => part entry.2).Perm
      (rules.flatMap fun rule =>
        (checkTranscript [rule] path source).flatMap fun entry => part entry.2) := by
  apply (Ruleset.flatMap_perm_places
    (fun entry member => place_lt_of_mem_checkTranscript path source member) part).trans
  apply List.Perm.of_eq
  rw [range_eq_range', ← zipIdx_map_snd 0 rules, flatMap_map]
  conv_rhs => rw [← zipIdx_map_fst 0 rules, flatMap_map]
  apply flatMap_congr
  rintro ⟨rule, place⟩ member
  exact flatMap_place speaks path source part (List.mk_mem_zipIdx_iff_getElem?.mp member)

theorem filter_isUnder (apart : rules.Pairwise Rule.Apart) {place : Nat} {rule : Rule}
    (found : rules[place]? = some rule) :
    ((checkTranscript rules path source).flatMap fun entry => entry.2.diagnostics).filter
        (Diagnostic.isUnder rule.code) =
      (checkTranscript [rule] path source).flatMap fun entry => entry.2.diagnostics := by
  rw [← flatMap_place speaks path source Report.diagnostics found]
  apply Ruleset.filter_flatMap_diagnostics
  intro entry member diagnostic inside
  rcases Ruleset.isUnder_of_mem_transcript (speaks_ofRules speaks) member diagnostic inside with
    ⟨other, other_found, under⟩
  rw [Ruleset.rules_ofRules] at other_found
  by_cases here : entry.1.place = place
  · rw [here, found] at other_found
    rw [Option.some.inj other_found, under]
    simpa using here
  · rw [Rule.apart_of_getElem? apart other_found found here diagnostic under]
    simpa using here

end Check

end Runner

namespace Standard

theorem speaks_of_mem {rule : Rule} (builtIn : rule ∈ rules) : rule.Speaks :=
  Rule.speaks_of_records (records_of_mem builtIn)

theorem pairwise_apart : rules.Pairwise Rule.Apart := by
  have codes : (rules.map fun rule => rule.code.toList ++ ['.']).Pairwise fun first second =>
      ¬first <+: second ∧ ¬second <+: first := by decide +kernel
  exact (List.pairwise_map.mp codes).imp Rule.apart_of_codes

theorem pairwise_apart_of_subperm {selected : List Rule} (builtIn : selected.Subperm rules) :
    selected.Pairwise Rule.Apart := by
  rcases builtIn with ⟨ordered, perm, sublist⟩
  exact (perm.pairwise_iff fun apart => apart.symm).mp (pairwise_apart.sublist sublist)

/-- In a check by some of the built-in rules, registered in any order, each rule reports what it
reports in a check by itself. The joint report is made of these parts: diagnostics are ordered by
their places, and at the same place by the calls that added them. -/
theorem checks_are_independent (selected : List Rule) (builtIn : selected.Subperm rules)
    (maxPasses : Nat) (path : String) (source : List Char) :
    let report (chosen : List Rule) :=
      ((Runner.ofRuleset (.ofRules chosen) maxPasses).check path source).1.report
    let calls := Runner.checkTranscript selected path source
    (∀ place rule, selected[place]? = some rule →
      (report selected).diagnostics.filter (Diagnostic.isUnder rule.code) =
          (report [rule]).diagnostics ∧
        (calls.filter fun entry => entry.1.place == place).flatMap (fun entry => entry.2.metrics) =
          (report [rule]).metrics) ∧
      (report selected).diagnostics.Perm
        (selected.flatMap fun rule => (report [rule]).diagnostics) ∧
      (report selected).metrics.Perm (selected.flatMap fun rule => (report [rule]).metrics) ∧
      (report selected).diagnostics.Pairwise (fun first second => first.precedes second = true) ∧
      calls.map (fun entry => entry.1) =
        Ruleset.invocations selected (Stream.ofSource source) ∧
      (∀ line column,
        (report selected).diagnostics.filter
            (fun found => found.line == line && found.column == column) =
          (calls.flatMap fun entry => entry.2.diagnostics).filter fun found =>
            found.line == line && found.column == column) ∧
      (report selected).metrics = calls.flatMap fun entry => entry.2.metrics := by
  intro report calls
  have speaks : ∀ rule ∈ selected, rule.Speaks := fun rule member =>
    speaks_of_mem (builtIn.subset member)
  have joint : report selected = _ := Runner.report_check speaks path source maxPasses
  have alone : ∀ rule ∈ selected, report [rule] = _ := fun rule member =>
    Runner.report_check (List.forall_mem_singleton.mpr (speaks rule member)) path source maxPasses
  rw [joint]
  refine ⟨?_, ?_, ?_, ?_, ?_, ?_, rfl⟩
  · intro place rule found
    rw [alone rule (mem_of_getElem? found)]
    constructor
    · rw [Report.sorted, Diagnostic.filter_mergeSort,
        Runner.filter_isUnder speaks path source (pairwise_apart_of_subperm builtIn) found]
      rfl
    · exact Runner.flatMap_place speaks path source Report.metrics found
  · apply (mergeSort_perm _ _).trans
    apply (Runner.flatMap_perm_alone speaks path source Report.diagnostics).trans
    apply List.Perm.flatMap_left
    intro rule member
    rw [alone rule member]
    exact (mergeSort_perm _ _).symm
  · rw [flatMap_congr fun rule member => congrArg Report.metrics (alone rule member)]
    exact Runner.flatMap_perm_alone speaks path source Report.metrics
  · exact pairwise_mergeSort Diagnostic.precedes_trans Diagnostic.precedes_total _
  · exact Ruleset.map_fst_transcript _ _ _
  · intro line column
    exact Diagnostic.filter_place_mergeSort line column _

/-- Two rules report at the second method, in the order of their registration. -/
theorem checks_are_independent_methods :
    let selected := [MethodOrder.rule, FunctionComment.rule, ClassComment.rule]
    let source :=
      "<?php class A \x7b private function f() \x7b\x7d public function g() \x7b\x7d \x7d".toList
    let report (chosen : List Rule) :=
      ((Runner.ofRuleset (.ofRules chosen) 1).check "a.php" source).1.report
    selected.Subperm rules ∧
      (report selected).diagnostics.filter (Diagnostic.isUnder FunctionComment.rule.code) =
        (report [FunctionComment.rule]).diagnostics ∧
      ((report selected).diagnostics.filter fun found =>
          found.line == 1 && found.column == 48).map Diagnostic.code =
        ["Symfony.Formatting.MethodVisibilityOrder.OrderMethodsByVisibility",
          "Symfony.Commenting.FunctionComment.Missing"] := by
  intro selected source report
  have builtIn : selected.Subperm rules :=
    ⟨[ClassComment.rule, FunctionComment.rule, MethodOrder.rule], reverse_perm selected,
      sublist_append_left _ [PropertyOrder.rule, ArrayComma.rule]⟩
  rcases checks_are_independent selected builtIn 1 "a.php" source with
    ⟨parts, -, -, -, -, ties, -⟩
  refine ⟨builtIn, (parts 1 FunctionComment.rule rfl).1, ?_⟩
  rw [ties 1 48]
  decide +kernel

end Standard

end PhpStyle
