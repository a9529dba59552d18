import PhpStyle.Proofs.Changesets
import PhpStyle.Proofs.Isolation
import PhpStyle.Proofs.Pairing

/-!
# Dispatch

A pass is a sequence of calls of rules at tokens. Which calls there are can be said
beforehand: one for each token and each rule that listens to its kind, ordered by
tokens and then by rules. This is what the table of the rules makes of a file. What
the rules do in their calls cannot change it, and it does not matter how often a
rule names a kind that it listens to.

Rules share one fixer, and nothing is asked of what they do to it. A changeset that
a rule leaves open is dropped before the next call and counted as rejected. So its
edits are lost: a pass ends as if the rule had put any other edits there.
-/

namespace PhpStyle

open List

namespace Ruleset

/-- A call: the token, and the place of the rule among the rules. -/
structure Invocation where
  index : Nat
  place : Nat
deriving DecidableEq, Repr

/-- The order by tokens and then by rules. -/
def Invocation.Before (first second : Invocation) : Prop :=
  first.index < second.index ∨ first.index = second.index ∧ first.place < second.place

/-- The calls at a token of some rules, the first of which has the given place. -/
def invocationsAt (rules : List Rule) (place index : Nat) (kind : Kind) : List Invocation :=
  (DispatchTable.listening rules place kind).map (⟨index, ·⟩)

/-- The calls at a sequence of tokens that begins at an index. -/
def invocationsFrom (rules : List Rule) (index : Nat) (tokens : List Token) : List Invocation :=
  (tokens.zipIdx index).flatMap fun entry => invocationsAt rules 0 entry.2 entry.1.kind

/-- The calls of a pass. -/
def invocations (rules : List Rule) (stream : Stream) : List Invocation :=
  invocationsFrom rules 0 stream.tokens.toList

/-- Makes a call. -/
def call (file : File) (current : List Listener × Pass) (invocation : Invocation) :
    List Listener × Pass :=
  callAt file invocation.index current invocation.place

/-- Makes calls in order. -/
def callAll (file : File) (current : List Listener × Pass) (calls : List Invocation) :
    List Listener × Pass :=
  calls.foldl (call file) current

section Order

variable {rules : List Rule} {place index : Nat} {kind : Kind} {invocation : Invocation}

theorem invocationsAt_cons (rule : Rule) (rules : List Rule) (place index : Nat) (kind : Kind) :
    invocationsAt (rule :: rules) place index kind =
      (if rule.listens.contains kind then [⟨index, place⟩] else []) ++
        invocationsAt rules (place + 1) index kind := by
  rw [invocationsAt, DispatchTable.listening_cons, map_append]
  split <;> rfl

theorem mem_invocationsAt_iff :
    invocation ∈ invocationsAt rules 0 index kind ↔ invocation.index = index ∧
      ∃ rule, rules[invocation.place]? = some rule ∧ kind ∈ rule.listens := by
  rcases invocation with ⟨token, place⟩
  simp only [invocationsAt, mem_map, DispatchTable.mem_listening_iff, Invocation.mk.injEq]
  constructor
  · rintro ⟨_, listens, rfl, rfl⟩
    exact ⟨rfl, listens⟩
  · rintro ⟨rfl, listens⟩
    exact ⟨place, listens, rfl, rfl⟩

theorem mem_invocations_iff {stream : Stream} :
    invocation ∈ invocations rules stream ↔ ∃ kind rule,
      stream.kind? invocation.index = some kind ∧ rules[invocation.place]? = some rule ∧
        kind ∈ rule.listens := by
  simp only [invocations, invocationsFrom, mem_flatMap, Prod.exists, mem_invocationsAt_iff,
    mk_mem_zipIdx_iff_getElem?, Stream.kind?, Stream.get?, Option.map_eq_some_iff]
  constructor
  · rintro ⟨token, index, found, rfl, rule, rule_found, listens⟩
    exact ⟨token.kind, rule, ⟨token, by simpa using found, rfl⟩, rule_found, listens⟩
  · rintro ⟨kind, rule, ⟨token, found, rfl⟩, rule_found, listens⟩
    exact ⟨token, invocation.index, by simpa using found, rfl, rule, rule_found, listens⟩

/-- The places in an entry of the table rise, so none of them is there twice. -/
theorem pairwise_listening (rules : List Rule) (place : Nat) (kind : Kind) :
    (DispatchTable.listening rules place kind).Pairwise (· < ·) :=
  List.pairwise_map.mpr ((pairwise_snd_zipIdx rules place).sublist filter_sublist)

theorem pairwise_invocationsAt (rules : List Rule) (place index : Nat) (kind : Kind) :
    (invocationsAt rules place index kind).Pairwise Invocation.Before := by
  apply List.pairwise_map.mpr
  apply (pairwise_listening rules place kind).imp
  intro first second ordered
  exact .inr ⟨rfl, ordered⟩

theorem pairwise_invocations (rules : List Rule) (stream : Stream) :
    (invocations rules stream).Pairwise Invocation.Before := by
  apply List.pairwise_flatMap.mpr
  constructor
  · intro entry _
    exact pairwise_invocationsAt rules 0 entry.2 entry.1.kind
  · apply (pairwise_snd_zipIdx stream.tokens.toList 0).imp
    intro first second ordered earlier earlier_mem later later_mem
    left
    rw [(mem_invocationsAt_iff.mp earlier_mem).1, (mem_invocationsAt_iff.mp later_mem).1]
    exact ordered

theorem nodup_invocations (rules : List Rule) (stream : Stream) :
    (invocations rules stream).Nodup := by
  apply (pairwise_invocations rules stream).imp
  rintro first _ before rfl
  simp [Invocation.Before] at before

end Order

section Calls

variable {file : File} {current : List Listener × Pass} {listener : Listener}
  {invocation : Invocation}

theorem call_of_getElem? (found : current.1[invocation.place]? = some listener) :
    call file current invocation =
      (current.1.set invocation.place (listener.visit file invocation.index current.2).1,
        (listener.visit file invocation.index current.2).2) :=
  callAt_of_getElem? found invocation.index

theorem call_of_none (nobody : current.1[invocation.place]? = none) :
    call file current invocation = current := by
  simp only [call, callAt, nobody]

@[simp]
theorem callAll_cons (file : File) (current : List Listener × Pass) (invocation : Invocation)
    (calls : List Invocation) :
    callAll file current (invocation :: calls) =
      callAll file (call file current invocation) calls :=
  rfl

theorem callAll_append (file : File) (current : List Listener × Pass)
    (first second : List Invocation) :
    callAll file current (first ++ second) = callAll file (callAll file current first) second :=
  foldl_append

theorem rules_call (file : File) (current : List Listener × Pass) (invocation : Invocation) :
    (call file current invocation).1.map Listener.rule = current.1.map Listener.rule :=
  rules_callAt file invocation.index current invocation.place

/-- Calls do not change the rules. -/
theorem rules_callAll (file : File) (current : List Listener × Pass) (calls : List Invocation) :
    (callAll file current calls).1.map Listener.rule = current.1.map Listener.rule := by
  induction calls generalizing current with
  | nil => rfl
  | cons invocation calls ih => exact (ih _).trans (rules_call file current invocation)

theorem callAll_invocationsAt (rules : List Rule) (file : File) (index : Nat) (kind : Kind)
    (current : List Listener × Pass) :
    callAll file current (invocationsAt rules 0 index kind) =
      ((DispatchTable.ofRules rules).places kind).foldl (callAt file index) current := by
  rw [callAll, invocationsAt, foldl_map, DispatchTable.places_ofRules]
  rfl

/-- The calls that the table of some rules leads to are the planned ones. -/
theorem callAll_invocationsFrom (rules : List Rule) (file : File) (index : Nat)
    (tokens : List Token) (current : List Listener × Pass) :
    callAll file current (invocationsFrom rules index tokens) =
      visitTokens (.ofRules rules) file index tokens current := by
  induction tokens generalizing index current with
  | nil => rfl
  | cons token tokens ih =>
    rw [invocationsFrom, zipIdx_cons, flatMap_cons, callAll_append,
      callAll_invocationsAt, visitTokens]
    exact ih (index + 1) _

/-- A pass makes the calls that could be told beforehand. -/
theorem process_eq_callAll (ruleset : Ruleset) (path : String) (stream : Stream) (pass : Pass) :
    ((ruleset.process path stream pass).1.listeners, (ruleset.process path stream pass).2) =
      callAll ⟨path, ruleset.generation + 1, stream⟩ (ruleset.listeners, pass)
        (invocations (ruleset.listeners.map Listener.rule) stream) := by
  rw [invocations, callAll_invocationsFrom, ← ruleset.table_eq]
  rfl

theorem pass_process (ruleset : Ruleset) (path : String) (stream : Stream) (pass : Pass) :
    (ruleset.process path stream pass).2 =
      (callAll ⟨path, ruleset.generation + 1, stream⟩ (ruleset.listeners, pass)
        (invocations (ruleset.listeners.map Listener.rule) stream)).2 :=
  congrArg Prod.snd (process_eq_callAll ruleset path stream pass)

/-- What a call does: the rule is called with the pass as it stands. Of what the rule hands back, a
changeset that is still open is dropped and counted, and all else is kept. -/
structure Called (file : File) (invocation : Invocation) (listener : Listener)
    (before after : List Listener × Pass) : Prop where
  found : before.1[invocation.place]? = some listener
  listeners_eq : after.1 = before.1.set invocation.place
    ⟨listener.rule, (listener.rule.visit file invocation.index listener.state before.2).1⟩
  report_eq : after.2.report =
    (listener.rule.visit file invocation.index listener.state before.2).2.report
  fixer_eq : after.2.fixer =
    let left := (listener.rule.visit file invocation.index listener.state before.2).2.fixer
    if left.isOpen then { left with staged := none, rejectedCount := left.rejectedCount + 1 }
    else left

theorem called_call (file : File) (found : current.1[invocation.place]? = some listener) :
    Called file invocation listener current (call file current invocation) := by
  rw [call_of_getElem? found]
  refine ⟨found, rfl, ?_, ?_⟩
  · simp only [Listener.visit, Listener.tidy]
    split <;> rfl
  · simp only [Listener.visit, Listener.tidy]
    split
    · exact if_pos ‹_›
    · rfl

theorem Called.isOpen_eq_false {next : List Listener × Pass}
    (called : Called file invocation listener current next) : next.2.fixer.isOpen = false := by
  rw [called.fixer_eq]
  exact Fixer.isOpen_rollback _

/-- A call of a pass finds its rule, whatever has been called before. -/
theorem exists_called {listeners : List Listener} {stream : Stream}
    (planned : invocation ∈ invocations (listeners.map Listener.rule) stream)
    (file : File) (pass : Pass) (earlier : List Invocation) :
    ∃ listener, (listeners.map Listener.rule)[invocation.place]? = some listener.rule ∧
      Called file invocation listener (callAll file (listeners, pass) earlier)
        (callAll file (listeners, pass) (earlier ++ [invocation])) := by
  rcases mem_invocations_iff.mp planned with ⟨kind, rule, -, rule_found, -⟩
  have same_rules := rules_callAll file (listeners, pass) earlier
  rw [← same_rules, getElem?_map, Option.map_eq_some_iff] at rule_found
  rcases rule_found with ⟨listener, found, rfl⟩
  refine ⟨listener, ?_, ?_⟩
  · rw [← same_rules, getElem?_map, found, Option.map_some]
  · rw [callAll_append]
    exact called_call file found

/-- Once a call has been made, no changeset is open. -/
theorem isOpen_callAll {listeners : List Listener} {stream : Stream} {earlier : List Invocation}
    (planned : ∀ invocation ∈ earlier,
      invocation ∈ invocations (listeners.map Listener.rule) stream) (file : File) (pass : Pass) :
    (callAll file (listeners, pass) earlier).2.fixer.isOpen =
      (earlier.isEmpty && pass.fixer.isOpen) := by
  rcases eq_nil_or_concat' earlier with rfl | ⟨before, last, rfl⟩
  · rfl
  · rcases exists_called (planned last (by simp)) file pass before with ⟨listener, -, called⟩
    rw [called.isOpen_eq_false]
    simp

end Calls

end Ruleset

/-!
## Changesets that are left open
-/

section Leaving

variable (edits : List Edit → List Edit)

/-- The pass with other edits in the changeset that is open, if there is one. -/
def Pass.restaged (pass : Pass) : Pass :=
  { pass with fixer.staged := pass.fixer.staged.map edits }

/-- The rule that behaves the same but puts other edits in a changeset that it leaves open. -/
def Rule.leaving (rule : Rule) : Rule :=
  { rule with
    visit := fun file index state pass =>
      let (state, pass) := rule.visit file index state pass
      (state, pass.restaged edits) }

def Listener.leaving (listener : Listener) : Listener :=
  ⟨listener.rule.leaving edits, listener.state⟩

def Ruleset.leaving (ruleset : Ruleset) : Ruleset :=
  { listeners := ruleset.listeners.map (Listener.leaving edits), generation := ruleset.generation }

theorem Listener.tidy_restaged (listener : Listener) (file : File) (index : Nat) (pass : Pass) :
    (listener.leaving edits).tidy file index (pass.restaged edits) =
      listener.tidy file index pass := by
  rcases pass with ⟨report, ⟨isEnabled, slots, staged, fixCount, rejectedCount⟩, journal⟩
  cases staged <;> rfl

theorem Listener.visit_leaving (listener : Listener) (file : File) (index : Nat) (pass : Pass) :
    (listener.leaving edits).visit file index pass =
      ((listener.visit file index pass).1.leaving edits, (listener.visit file index pass).2) :=
  congrArg (Prod.mk _) (listener.tidy_restaged edits file index _)

namespace Ruleset

theorem call_leaving (file : File) (current : List Listener × Pass) (invocation : Invocation) :
    call file (current.1.map (Listener.leaving edits), current.2) invocation =
      ((call file current invocation).1.map (Listener.leaving edits),
        (call file current invocation).2) := by
  cases found : current.1[invocation.place]? with
  | none =>
    rw [call_of_none found, call_of_none]
    rw [getElem?_map, found, Option.map_none]
  | some listener =>
    simp only [call, callAt, getElem?_map, found, Option.map_some, Listener.visit_leaving, map_set]

/-- What rules stage in a changeset that they leave open does not matter to later calls. -/
theorem callAll_leaving (file : File) (current : List Listener × Pass) (calls : List Invocation) :
    callAll file (current.1.map (Listener.leaving edits), current.2) calls =
      ((callAll file current calls).1.map (Listener.leaving edits),
        (callAll file current calls).2) := by
  induction calls generalizing current with
  | nil => rfl
  | cons invocation calls ih =>
    rw [callAll_cons, callAll_cons, call_leaving]
    exact ih (call file current invocation)

theorem invocationsAt_leaving (rules : List Rule) (place index : Nat) (kind : Kind) :
    invocationsAt (rules.map (Rule.leaving edits)) place index kind =
      invocationsAt rules place index kind := by
  have listening_eq : DispatchTable.listening (rules.map (Rule.leaving edits)) place kind =
      DispatchTable.listening rules place kind := by
    induction rules generalizing place with
    | nil => rfl
    | cons rule rules ih =>
      rw [map_cons, DispatchTable.listening_cons, DispatchTable.listening_cons, ih]
      rfl
  rw [invocationsAt, listening_eq, invocationsAt]

theorem invocations_leaving (listeners : List Listener) (stream : Stream) :
    invocations ((listeners.map (Listener.leaving edits)).map Listener.rule) stream =
      invocations (listeners.map Listener.rule) stream := by
  have rules_eq : (listeners.map (Listener.leaving edits)).map Listener.rule =
      (listeners.map Listener.rule).map (Rule.leaving edits) := by
    rw [map_map, map_map]
    rfl
  simp only [rules_eq, invocations, invocationsFrom, invocationsAt_leaving]

theorem pass_process_leaving (ruleset : Ruleset) (path : String) (stream : Stream) (pass : Pass) :
    ((ruleset.leaving edits).process path stream pass).2 =
      (ruleset.process path stream pass).2 := by
  have same := callAll_leaving edits ⟨path, ruleset.generation + 1, stream⟩
    (ruleset.listeners, pass) (invocations (ruleset.listeners.map Listener.rule) stream)
  rw [pass_process, pass_process]
  simp only [leaving, invocations_leaving, same]

end Ruleset

end Leaving

namespace Ruleset

/-- Registration enters each rule once, and in order, for every kind that it listens to. A pass
calls each rule at each token of a kind that it listens to, and no rule twice at a token, in the
order of the tokens and then of the rules. No call but the first can meet an open changeset, and
the first one only if the pass began with it. What a rule leaves in an open changeset is counted as
one rejection and has no other effect. -/
theorem dispatch_is_complete_ordered_and_clean (ruleset : Ruleset) (path : String)
    (stream : Stream) (pass : Pass) :
    let rules := ruleset.listeners.map Listener.rule
    let calls := invocations rules stream
    let after := callAll ⟨path, ruleset.generation + 1, stream⟩ (ruleset.listeners, pass)
    let final := ruleset.process path stream pass
    (∀ kind, (ruleset.table.places kind).Pairwise (· < ·) ∧
      ∀ place, place ∈ ruleset.table.places kind ↔
        ∃ rule, rules[place]? = some rule ∧ kind ∈ rule.listens) ∧
      (∀ invocation, invocation ∈ calls ↔ ∃ kind rule,
        stream.kind? invocation.index = some kind ∧ rules[invocation.place]? = some rule ∧
          kind ∈ rule.listens) ∧
      calls.Nodup ∧ calls.Pairwise Invocation.Before ∧
      (final.1.listeners, final.2) = after calls ∧
      (∀ earlier invocation later, calls = earlier ++ invocation :: later →
        (after earlier).2.fixer.isOpen = (earlier.isEmpty && pass.fixer.isOpen) ∧
          ∃ listener, rules[invocation.place]? = some listener.rule ∧
            Called ⟨path, ruleset.generation + 1, stream⟩ invocation listener (after earlier)
              (after (earlier ++ [invocation]))) ∧
      ∀ edits, ((ruleset.leaving edits).process path stream pass).2 = final.2 := by
  intro rules calls after final
  refine ⟨?_, fun invocation => mem_invocations_iff, nodup_invocations rules stream,
    pairwise_invocations rules stream, process_eq_callAll ruleset path stream pass, ?_, ?_⟩
  · intro kind
    rw [ruleset.table_eq, DispatchTable.places_ofRules]
    exact ⟨pairwise_listening rules 0 kind, fun place => DispatchTable.mem_listening_iff⟩
  · intro earlier invocation later split
    have planned : ∀ other ∈ earlier ++ [invocation], other ∈ calls := by
      intro other inside
      rw [split, append_cons]
      exact mem_append_left later inside
    constructor
    · apply isOpen_callAll
      intro other inside
      exact planned other (mem_append_left _ inside)
    · exact exists_called (planned invocation (by simp)) _ pass earlier
  · intro edits
    exact pass_process_leaving edits ruleset path stream pass

/-- The first rule names a kind twice and leaves a changeset open, the second one edits tokens. -/
theorem dispatch_is_complete_ordered_and_clean_left_open :
    let leaver : Rule :=
      { name := "leaver", code := "Test.Leaver", description := "leaves a changeset open"
        listens := [.variableName, .variableName]
        State := Unit
        initial := ()
        visit := fun _ index state pass =>
          (state, { pass with fixer := (pass.fixer.start.stage (.replace index ['x'])).2 }) }
    let editor : Rule :=
      { name := "editor", code := "Test.Editor", description := "adds a blank"
        listens := [.semicolon, .variableName]
        State := Unit
        initial := ()
        visit := fun _ index state pass =>
          (state, { pass with fixer := (pass.fixer.stage (.append index [' '])).2 }) }
    let stream := Stream.ofSource "<?php $a;".toList
    let pass : Pass := { fixer := .ofStream stream true }
    let outcome := ((Ruleset.ofRules [leaver, editor]).process "a.php" stream pass).2
    (Ruleset.ofRules [leaver, editor]).table.places .variableName = [0, 1] ∧
      invocations [leaver, editor] stream = [⟨2, 0⟩, ⟨2, 1⟩, ⟨3, 1⟩] ∧
      outcome.fixer.contents = "<?php $a ; ".toList ∧ outcome.fixer.rejectedCount = 1 ∧
      ∀ edits, (((Ruleset.ofRules [leaver, editor]).leaving edits).process "a.php" stream
        pass).2.fixer.contents = "<?php $a ; ".toList := by
  intro leaver editor stream pass outcome
  have contents : outcome.fixer.contents = "<?php $a ; ".toList := by decide +kernel
  refine ⟨by decide +kernel, by decide +kernel, contents, by decide +kernel, ?_⟩
  intro edits
  have clean := dispatch_is_complete_ordered_and_clean (.ofRules [leaver, editor]) "a.php" stream
    pass
  rw [clean.2.2.2.2.2.2 edits]
  exact contents

end Ruleset

end PhpStyle
