import Mathlib.Data.List.Forall2
import PhpStyle.Proofs.Registration
import PhpStyle.Runner
import PhpStyle.Standard

/-!
# Runs do not influence one another

A runner is used for many files, and its rules keep their states from one pass to
the next. A scoped rule does not clear its context when a file ends: it drops the
context only when it is called in another scope or with another generation. Paths,
texts and owners may all come again, so it is the generation that keeps passes
apart. A context is never newer than the pass that made it, and the next pass has
a greater generation.

What a rule does in a pass is seen in the passes that its calls return. A rule
forgets if these do not depend on the state that earlier passes have left. Rules
that forget can be run side by side, one with a history and one without: they go
in step from call to call, from pass to pass and from run to run.
-/

namespace PhpStyle

open List

namespace Rule

variable {rule : Rule}

/-- The states that calls in passes up to a generation can leave. -/
inductive Reached (rule : Rule) (bound : Nat) : rule.State → Prop where
  | initial : Reached rule bound rule.initial
  | visit {state : rule.State} {file : File} (earlier : Reached rule bound state)
      (old : file.generation ≤ bound) (index : Nat) (pass : Pass) :
      Reached rule bound (rule.visit file index state pass).1

theorem Reached.mono {bound later : Nat} {state : rule.State} (reached : rule.Reached bound state)
    (ordered : bound ≤ later) : rule.Reached later state := by
  induction reached with
  | initial => exact .initial
  | visit _ old index pass ih => exact .visit ih (Nat.le_trans old ordered) index pass

/-- What a rule makes of the passes that it is called with, call after call. -/
def answers (rule : Rule) (file : File) : rule.State → List (Nat × Pass) → List Pass
  | _, [] => []
  | state, (index, pass) :: calls =>
    let called := rule.visit file index state pass
    called.2 :: answers rule file called.1 calls

/-- States that agree before every call, and after it again, give the same answers. -/
theorem answers_eq_of_agree (rule : Rule) {file other : File}
    (Agree : rule.State → rule.State → Prop) (step : ∀ index pass state same, Agree state same →
      (rule.visit file index state pass).2 = (rule.visit other index same pass).2 ∧
        Agree (rule.visit file index state pass).1 (rule.visit other index same pass).1)
    {state same : rule.State} (agree : Agree state same) (calls : List (Nat × Pass)) :
    rule.answers file state calls = rule.answers other same calls := by
  induction calls generalizing state same with
  | nil => rfl
  | cons call calls ih =>
    rcases call with ⟨index, pass⟩
    rcases step index pass state same agree with ⟨answer_eq, after⟩
    simp only [answers, answer_eq, ih after]

/-- What a rule does in a pass does not depend on earlier passes. -/
def Forgets (rule : Rule) : Prop :=
  ∀ (file : File) (bound : Nat) (state : rule.State), rule.Reached bound state →
    bound < file.generation → ∀ calls, rule.answers file state calls =
      rule.answers file rule.initial calls

/-- What a rule does in its first pass does not depend on the number that the pass has. -/
def IgnoresGeneration (rule : Rule) : Prop :=
  ∀ (file : File) (generation : Nat) (calls : List (Nat × Pass)),
    rule.answers { file with generation } rule.initial calls = rule.answers file rule.initial calls

theorem forgets_ofFindings (info : RuleInfo) (listens : List Kind)
    (find : Stream → Nat → List Finding) : (Rule.ofFindings info listens find).Forgets :=
  fun _ _ _ _ _ _ => rfl

theorem ignoresGeneration_ofFindings (info : RuleInfo) (listens : List Kind)
    (find : Stream → Nat → List Finding) :
    (Rule.ofFindings info listens find).IgnoresGeneration := by
  intro file generation calls
  refine answers_eq_of_agree _ Eq ?_ rfl calls
  rintro index pass state _ rfl
  exact ⟨rfl, rfl⟩

end Rule

namespace ScopedRule

variable {rule : ScopedRule} {file : File} {bound : Nat}

/-- A call within a scope, given the context of the scope. -/
def callIn (rule : ScopedRule) (file : File) (index : Nat) (scope : Scope)
    (context : Context rule.State) (pass : Pass) : Context rule.State × Pass :=
  if context.skipUntil.any (index < ·) then (context, pass)
  else
    let (skipUntil, state, pass) := rule.visit file index scope context.state pass
    ({ context with skipUntil, state }, pass)

/-- A call by the dispatcher, given the context at hand. -/
def callAt (rule : ScopedRule) :
    File → Nat → Option (Context rule.State) → Pass → Option (Context rule.State) × Pass :=
  rule.toRule.visit

variable {current : Option (Context rule.State)}

theorem callAt_outside {index : Nat}
    (outside : file.stream.enclosingScope? index rule.scopes.contains = none)
    (current : Option (Context rule.State)) (pass : Pass) :
    rule.callAt file index current pass = (current, pass) := by
  simp only [callAt, toRule, outside]

theorem callAt_inside {index : Nat} {scope : Scope}
    (inside : file.stream.enclosingScope? index rule.scopes.contains = some scope)
    (current : Option (Context rule.State)) (pass : Pass) :
    rule.callAt file index current pass =
      (rule.callIn file index scope (rule.contextFor file scope current) pass).map some id := by
  simp only [callAt, toRule, inside, callIn]
  split <;> rfl

/-- A context that is handed out belongs to the pass. -/
theorem generation_contextFor (rule : ScopedRule) (file : File) (scope : Scope)
    (current : Option (Context rule.State)) :
    (rule.contextFor file scope current).generation = file.generation := by
  rw [contextFor]
  cases found : current.filter fun context => context.isFor file scope with
  | none => rfl
  | some context =>
    have belongs := (Option.filter_eq_some_iff.mp found).2
    simp only [Context.isFor, Bool.and_eq_true, beq_iff_eq] at belongs
    exact belongs.1.2

theorem generation_callIn (rule : ScopedRule) (file : File) (index : Nat) (scope : Scope)
    (current : Option (Context rule.State)) (pass : Pass) :
    (rule.callIn file index scope (rule.contextFor file scope current) pass).1.generation =
      file.generation := by
  rw [callIn, ← generation_contextFor rule file scope current]
  split <;> rfl

/-- A call leaves no context behind but one that was there or one of its own pass. -/
theorem generation_callAt {P : Nat → Prop} (before : ∀ context ∈ current, P context.generation)
    (this : P file.generation) (index : Nat) (pass : Pass) :
    ∀ context ∈ (rule.callAt file index current pass).1, P context.generation := by
  intro context left
  cases found : file.stream.enclosingScope? index rule.scopes.contains with
  | none =>
    rw [callAt_outside found] at left
    exact before context left
  | some scope =>
    rw [callAt_inside found] at left
    have context_eq : (rule.callIn file index scope (rule.contextFor file scope current) pass).1 =
        context := Option.some.inj left
    rw [← context_eq, generation_callIn]
    exact this

/-- No context is newer than the passes that have been. -/
theorem generation_le_of_reached {state : rule.toRule.State}
    (reached : rule.toRule.Reached bound state) :
    ∀ context : Context rule.State, state = some context → context.generation ≤ bound := by
  induction reached with
  | initial => exact fun _ absurd => nomatch absurd
  | visit _ old index pass ih => exact generation_callAt (P := (· ≤ bound)) ih old index pass

/-- A context of another pass is dropped. -/
theorem contextFor_of_stale (stale : ∀ context ∈ current, context.generation ≠ file.generation)
    (scope : Scope) : rule.contextFor file scope current = rule.contextFor file scope none := by
  cases current with
  | none => rfl
  | some context =>
    have other : context.isFor file scope = false := by
      simp [Context.isFor, stale context rfl]
    simp [contextFor, Option.filter_some, other]

/-- Contexts of earlier passes count as none. -/
theorem callAt_of_stale (stale : ∀ context ∈ current, context.generation ≠ file.generation)
    (index : Nat) (pass : Pass) :
    rule.callAt file index current pass = rule.callAt file index none pass ∨
      rule.callAt file index current pass = (current, pass) ∧
        rule.callAt file index none pass = (none, pass) := by
  cases found : file.stream.enclosingScope? index rule.scopes.contains with
  | none => exact .inr ⟨callAt_outside found current pass, callAt_outside found none pass⟩
  | some scope =>
    rw [callAt_inside found, callAt_inside found, contextFor_of_stale stale]
    exact .inl rfl

theorem forgets_toRule (rule : ScopedRule) : rule.toRule.Forgets := by
  intro file bound state reached later calls
  let Agree (current other : Option (Context rule.State)) : Prop :=
    current = other ∨ (∀ context ∈ current, context.generation ≠ file.generation) ∧ other = none
  have step (index : Nat) (pass : Pass) (current other : Option (Context rule.State))
      (agree : Agree current other) :
      (rule.callAt file index current pass).2 = (rule.callAt file index other pass).2 ∧
        Agree (rule.callAt file index current pass).1 (rule.callAt file index other pass).1 := by
    rcases agree with rfl | ⟨stale, rfl⟩
    · exact ⟨rfl, .inl rfl⟩
    · rcases callAt_of_stale stale index pass with same | ⟨left, also_left⟩
      · rw [same]
        exact ⟨rfl, .inl rfl⟩
      · rw [left, also_left]
        exact ⟨rfl, .inr ⟨stale, rfl⟩⟩
  refine Rule.answers_eq_of_agree rule.toRule Agree step (.inr ⟨?_, rfl⟩) calls
  intro context inside
  have := generation_le_of_reached reached context inside
  omega

/-- A rule that does not look at the number of the pass. -/
def IgnoresGeneration (rule : ScopedRule) : Prop :=
  ∀ (file : File) (generation index : Nat) (scope : Scope) (state : rule.State) (pass : Pass),
    rule.visit { file with generation } index scope state pass =
      rule.visit file index scope state pass

theorem ignoresGeneration_ofFindings {State : Type} (info : RuleInfo) (scopes : List ScopeKind)
    (listens : List Kind) (initial : State)
    (find : Stream → Nat → State → List Finding × State × Option Nat) :
    (ofFindings info scopes listens initial find).IgnoresGeneration := by
  intro file generation index scope state pass
  rfl

/-- A context with another number. -/
def Context.renumber {State : Type} (generation : Nat) (context : Context State) : Context State :=
  { context with generation }

theorem contextFor_renumber (fresh : ∀ context ∈ current, context.generation = file.generation)
    (generation : Nat) (scope : Scope) :
    rule.contextFor { file with generation } scope (current.map (Context.renumber generation)) =
      (rule.contextFor file scope current).renumber generation := by
  cases current with
  | none => rfl
  | some context =>
    have same : (context.renumber generation).isFor { file with generation } scope =
        context.isFor file scope := by
      simp [Context.isFor, Context.renumber, fresh context rfl]
    simp only [contextFor, Option.map_some, Option.filter_some, same]
    split <;> rfl

theorem callIn_renumber (ignores : rule.IgnoresGeneration) (generation index : Nat) (scope : Scope)
    (context : Context rule.State) (pass : Pass) :
    rule.callIn { file with generation } index scope (context.renumber generation) pass =
      (rule.callIn file index scope context pass).map (Context.renumber generation) id := by
  have skips : (context.renumber generation).skipUntil = context.skipUntil := rfl
  have state : (context.renumber generation).state = context.state := rfl
  rw [callIn, callIn, skips, state, ignores]
  split <;> rfl

theorem callAt_renumber (ignores : rule.IgnoresGeneration)
    (fresh : ∀ context ∈ current, context.generation = file.generation) (generation index : Nat)
    (pass : Pass) :
    rule.callAt { file with generation } index (current.map (Context.renumber generation)) pass =
      (rule.callAt file index current pass).map (Option.map (Context.renumber generation)) id := by
  let other : File := { file with generation }
  cases found : file.stream.enclosingScope? index rule.scopes.contains with
  | none =>
    have outside : other.stream.enclosingScope? index rule.scopes.contains = none := found
    rw [callAt_outside found, callAt_outside outside]
    rfl
  | some scope =>
    have inside : other.stream.enclosingScope? index rule.scopes.contains = some scope := found
    rw [callAt_inside found, callAt_inside inside, contextFor_renumber fresh,
      callIn_renumber ignores]
    rfl

theorem ignoresGeneration_toRule (ignores : rule.IgnoresGeneration) :
    rule.toRule.IgnoresGeneration := by
  intro file generation calls
  let Agree (current other : Option (Context rule.State)) : Prop :=
    current = other.map (Context.renumber generation) ∧
      ∀ context ∈ other, context.generation = file.generation
  have step (index : Nat) (pass : Pass) (current other : Option (Context rule.State))
      (agree : Agree current other) :
      (rule.callAt { file with generation } index current pass).2 =
          (rule.callAt file index other pass).2 ∧
        Agree (rule.callAt { file with generation } index current pass).1
          (rule.callAt file index other pass).1 := by
    rcases agree with ⟨rfl, fresh⟩
    rw [callAt_renumber ignores fresh]
    exact ⟨rfl, rfl, generation_callAt (P := (· = file.generation)) fresh rfl index pass⟩
  have start : Agree none none := ⟨rfl, fun _ absurd => nomatch absurd⟩
  exact Rule.answers_eq_of_agree rule.toRule Agree step start calls

end ScopedRule

namespace Listener

/-- What the rule of a listener makes of calls. -/
def answers (listener : Listener) (file : File) (calls : List (Nat × Pass)) : List Pass :=
  listener.rule.answers file listener.state calls

/-- The state of a listener comes from passes up to a generation. -/
def IsReached (listener : Listener) (bound : Nat) : Prop :=
  listener.rule.Reached bound listener.state

/-- Two listeners of one rule that give the same answers in the rest of a pass. -/
structure InStep (file other : File) (first second : Listener) : Prop where
  rule_eq : first.rule = second.rule
  same : ∀ calls, first.answers file calls = second.answers other calls

theorem InStep.visit {file other : File} {first second : Listener}
    (inStep : InStep file other first second) (path_eq : file.path = other.path) (index : Nat)
    (pass : Pass) :
    (first.visit file index pass).2 = (second.visit other index pass).2 ∧
      InStep file other (first.visit file index pass).1 (second.visit other index pass).1 := by
  have both (calls : List (Nat × Pass)) :
      (first.rule.visit file index first.state pass).2 :: (first.visit file index pass).1.answers
          file calls =
        (second.rule.visit other index second.state pass).2 ::
          (second.visit other index pass).1.answers other calls :=
    inStep.same ((index, pass) :: calls)
  refine ⟨?_, inStep.rule_eq, fun calls => (List.cons.inj (both calls)).2⟩
  have called := (List.cons.inj (both [])).1
  simp only [Listener.visit, tidy, called, inStep.rule_eq, path_eq]

end Listener

namespace Ruleset

/-- A ruleset with the given rules, each of them in a state that the passes so far can leave. -/
structure Continues (ruleset : Ruleset) (rules : List Rule) : Prop where
  rules_eq : ruleset.listeners.map Listener.rule = rules
  reached : ∀ listener ∈ ruleset.listeners, listener.IsReached ruleset.generation

/-- Rules that have not been called yet can be in no other states. -/
theorem continues_of_listeners {ruleset : Ruleset} {rules : List Rule}
    (fresh : ruleset.listeners = rules.map Listener.ofRule) : ruleset.Continues rules where
  rules_eq := by
    rw [fresh, map_map]
    exact map_id rules
  reached := by
    intro listener inside
    rw [fresh] at inside
    rcases List.mem_map.mp inside with ⟨rule, -, rfl⟩
    exact .initial

theorem continues_ofRules (rules : List Rule) : (ofRules rules).Continues rules :=
  continues_of_listeners (listeners_ofRules rules)

section Visits

variable {file : File} {listeners : List Listener}

/-- A token leaves the rules, and no context that is newer than the pass. -/
theorem ask_keeps (reached : ∀ listener ∈ listeners, listener.IsReached file.generation)
    (index : Nat) (kind : Kind) (pass : Pass) :
    (ask file index kind listeners pass).1.map Listener.rule =
        listeners.map Listener.rule ∧
      ∀ listener ∈ (ask file index kind listeners pass).1,
        listener.IsReached file.generation := by
  induction listeners generalizing pass with
  | nil => exact ⟨rfl, reached⟩
  | cons listener listeners ih =>
    have first := reached listener mem_cons_self
    have rest := ih fun other inside => reached other (mem_cons_of_mem _ inside)
    rw [ask]
    by_cases hears : listener.rule.listens.contains kind = true
    · simp only [if_pos hears]
      refine ⟨congrArg₂ List.cons rfl (rest _).1, ?_⟩
      exact List.forall_mem_cons.mpr ⟨.visit first (Nat.le_refl _) index pass, (rest _).2⟩
    · simp only [if_neg hears]
      exact ⟨congrArg₂ List.cons rfl (rest _).1, List.forall_mem_cons.mpr ⟨first, (rest _).2⟩⟩

/-- A pass over tokens leaves the rules, and no context that is newer than the pass. -/
theorem askAll_keeps (reached : ∀ listener ∈ listeners, listener.IsReached file.generation)
    (index : Nat) (tokens : List Token) (pass : Pass) :
    (askAll file index tokens (listeners, pass)).1.map Listener.rule =
        listeners.map Listener.rule ∧
      ∀ listener ∈ (askAll file index tokens (listeners, pass)).1,
        listener.IsReached file.generation := by
  induction tokens generalizing listeners index pass with
  | nil => exact ⟨rfl, reached⟩
  | cons token tokens ih =>
    rcases ask_keeps reached index token.kind pass with ⟨rules_eq, still⟩
    rcases ih still (index + 1) _ with ⟨later_eq, later⟩
    exact ⟨later_eq.trans rules_eq, later⟩

variable {other : File} {others : List Listener}

/-- At a token rules in step answer alike and stay in step. -/
theorem ask_inStep (inStep : List.Forall₂ (Listener.InStep file other) listeners others)
    (path_eq : file.path = other.path) (index : Nat) (kind : Kind) (pass : Pass) :
    (ask file index kind listeners pass).2 = (ask other index kind others pass).2 ∧
      List.Forall₂ (Listener.InStep file other) (ask file index kind listeners pass).1
        (ask other index kind others pass).1 := by
  induction inStep generalizing pass with
  | nil => exact ⟨rfl, .nil⟩
  | @cons first second listeners others together rest ih =>
    rw [ask, ask, ← together.rule_eq]
    by_cases hears : first.rule.listens.contains kind = true
    · rcases together.visit path_eq index pass with ⟨same, after⟩
      simp only [if_pos hears, same]
      exact ⟨(ih _).1, .cons after (ih _).2⟩
    · simp only [if_neg hears]
      exact ⟨(ih _).1, .cons together (ih _).2⟩

/-- Over all tokens rules in step answer alike. -/
theorem askAll_inStep (inStep : List.Forall₂ (Listener.InStep file other) listeners others)
    (path_eq : file.path = other.path) (index : Nat) (tokens : List Token) (pass : Pass) :
    (askAll file index tokens (listeners, pass)).2 =
      (askAll other index tokens (others, pass)).2 := by
  induction tokens generalizing listeners others index pass with
  | nil => rfl
  | cons token tokens ih =>
    rcases ask_inStep inStep path_eq index token.kind pass with ⟨same, after⟩
    have rest := ih after (index + 1) (ask file index token.kind listeners pass).2
    rw [askAll, askAll]
    exact rest.trans (by rw [same])

end Visits

theorem Continues.process {ruleset : Ruleset} {rules : List Rule}
    (continues : ruleset.Continues rules) (path : String) (stream : Stream) (pass : Pass) :
    (ruleset.process path stream pass).1.Continues rules := by
  let file : File := ⟨path, ruleset.generation + 1, stream⟩
  have reached : ∀ listener ∈ ruleset.listeners, listener.IsReached file.generation :=
    fun listener inside => (continues.reached listener inside).mono (Nat.le_succ _)
  rcases askAll_keeps reached 0 stream.tokens.toList pass with ⟨rules_eq, still⟩
  rw [← process_eq_askAll] at rules_eq still
  exact ⟨rules_eq.trans continues.rules_eq, still⟩

/-- Two rulesets with the same rules, which may have seen different files. -/
structure Alike (rules : List Rule) (first second : Ruleset) : Prop where
  first_continues : first.Continues rules
  second_continues : second.Continues rules
  numbered : first.generation = second.generation ∨ ∀ rule ∈ rules, rule.IgnoresGeneration

section Alike

variable {rules : List Rule} {first second : Ruleset}
  (forgets : ∀ rule ∈ rules, rule.Forgets) (alike : Alike rules first second)

include forgets alike

/-- The rules of both are in step: each gives the answers of its initial state, under its own
number. -/
theorem Alike.inStep (path : String) (stream : Stream) :
    List.Forall₂
      (Listener.InStep ⟨path, first.generation + 1, stream⟩ ⟨path, second.generation + 1, stream⟩)
      first.listeners second.listeners := by
  have paired : List.Forall₂ (fun listener other : Listener => listener.rule = other.rule)
      first.listeners second.listeners := by
    have rules_eq := alike.first_continues.rules_eq.trans alike.second_continues.rules_eq.symm
    rw [← forall₂_eq_eq_eq] at rules_eq
    simpa only [forall₂_map_left_iff, forall₂_map_right_iff] using rules_eq
  rw [forall₂_iff_zip] at paired ⊢
  refine ⟨paired.1, fun {listener other} inside => ?_⟩
  have rule_eq := paired.2 inside
  have first_inside := of_mem_zip inside |>.1
  have rule_inside : listener.rule ∈ rules :=
    alike.first_continues.rules_eq ▸ mem_map_of_mem first_inside
  have first_reached := alike.first_continues.reached listener first_inside
  have second_reached := alike.second_continues.reached other (of_mem_zip inside).2
  refine ⟨rule_eq, fun calls => ?_⟩
  rcases listener with ⟨rule, state⟩
  rcases other with ⟨same, other_state⟩
  obtain rfl : rule = same := rule_eq
  have first_eq := forgets rule rule_inside ⟨path, first.generation + 1, stream⟩ _ state
    first_reached (Nat.lt_succ_self _) calls
  have second_eq := forgets rule rule_inside ⟨path, second.generation + 1, stream⟩ _ other_state
    second_reached (Nat.lt_succ_self _) calls
  rw [Listener.answers, Listener.answers, first_eq, second_eq]
  rcases alike.numbered with same | ignores
  · rw [same]
  · exact ignores rule rule_inside ⟨path, second.generation + 1, stream⟩ (first.generation + 1)
      calls

/-- A pass of one ruleset brings forth what a pass of the other brings forth. -/
theorem Alike.process (path : String) (stream : Stream) (pass : Pass) :
    (first.process path stream pass).2 = (second.process path stream pass).2 ∧
      Alike rules (first.process path stream pass).1 (second.process path stream pass).1 := by
  have same := askAll_inStep (alike.inStep forgets path stream) rfl 0 stream.tokens.toList pass
  rw [← process_eq_askAll, ← process_eq_askAll] at same
  refine ⟨same, ?_⟩
  exact {
    first_continues := alike.first_continues.process path stream pass
    second_continues := alike.second_continues.process path stream pass
    numbered := alike.numbered.imp_left (congrArg (· + 1)) }

end Alike

end Ruleset

namespace Runner

section Alike

variable {rules : List Rule} (forgets : ∀ rule ∈ rules, rule.Forgets)

include forgets

/-- Rulesets that are alike fix alike and stay alike over all passes. -/
theorem fixPasses_congr {first second : Ruleset} (alike : Ruleset.Alike rules first second)
    (path : String) (passes : Nat) (progress : Progress) :
    (fixPasses path passes first progress).2 = (fixPasses path passes second progress).2 ∧
      Ruleset.Alike rules (fixPasses path passes first progress).1
        (fixPasses path passes second progress).1 := by
  induction passes generalizing first second progress with
  | zero => exact ⟨rfl, alike⟩
  | succ passes ih =>
    let stream := Stream.ofSource progress.source
    rcases alike.process forgets path stream { fixer := .ofStream stream true } with
      ⟨same, after⟩
    simp only [fixPasses, stream, same] at same after ⊢
    split
    · exact ⟨rfl, after⟩
    · exact ih after _

variable {first second : Runner} (alike : Ruleset.Alike rules first.ruleset second.ruleset)

include alike

theorem check_congr (path : String) (source : List Char) :
    (first.check path source).1 = (second.check path source).1 ∧
      Ruleset.Alike rules (first.check path source).2.ruleset
        (second.check path source).2.ruleset := by
  let stream := Stream.ofSource source
  rcases alike.process forgets path stream { fixer := .ofStream stream false } with ⟨same, after⟩
  refine ⟨?_, after⟩
  simp only [check, stream, same] at same ⊢

theorem fix_congr (ceiling_eq : first.maxPasses = second.maxPasses) (path : String)
    (source : List Char) :
    (first.fix path source).1 = (second.fix path source).1 ∧
      Ruleset.Alike rules (first.fix path source).2.ruleset
        (second.fix path source).2.ruleset := by
  rcases fixPasses_congr forgets alike path first.maxPasses { source } with ⟨same, after⟩
  rw [ceiling_eq] at same after
  have checked := @check_congr rules forgets
    ⟨(fixPasses path second.maxPasses first.ruleset { source }).1, second.maxPasses⟩
    ⟨(fixPasses path second.maxPasses second.ruleset { source }).1, second.maxPasses⟩
    after path (fixPasses path second.maxPasses second.ruleset { source }).2.source
  simp only [fix, ceiling_eq, same, checked.1]
  exact ⟨trivial, checked.2⟩

end Alike

/-- A call of a runner. -/
inductive Request where
  | check (path : String) (source : List Char)
  | fix (path : String) (source : List Char)

/-- What a call of a runner returns. -/
inductive Response where
  | checked (outcome : Checked)
  | fixed (outcome : Fixed)

/-- Carries out a call. -/
def answer (runner : Runner) : Request → Response × Runner
  | .check path source => (runner.check path source).map Response.checked id
  | .fix path source => (runner.fix path source).map Response.fixed id

/-- The runner after a history of calls. -/
def afterAll (runner : Runner) (history : List Request) : Runner :=
  history.foldl (fun runner request => (runner.answer request).2) runner

/-- The runner with all rules in their initial states. Its passes are numbered on. -/
def renewed (runner : Runner) : Runner :=
  { runner with
    ruleset :=
      { Ruleset.ofRules (runner.ruleset.listeners.map Listener.rule) with
        generation := runner.ruleset.generation } }

theorem maxPasses_answer (runner : Runner) (request : Request) :
    (runner.answer request).2.maxPasses = runner.maxPasses := by
  cases request <;> rfl

section History

variable {rules : List Rule} (forgets : ∀ rule ∈ rules, rule.Forgets)

include forgets

theorem answer_congr {first second : Runner}
    (alike : Ruleset.Alike rules first.ruleset second.ruleset)
    (ceiling_eq : first.maxPasses = second.maxPasses) (request : Request) :
    (first.answer request).1 = (second.answer request).1 ∧
      Ruleset.Alike rules (first.answer request).2.ruleset (second.answer request).2.ruleset := by
  cases request with
  | check path source =>
    rcases check_congr forgets alike path source with ⟨same, after⟩
    exact ⟨congrArg Response.checked same, after⟩
  | fix path source =>
    rcases fix_congr forgets alike ceiling_eq path source with ⟨same, after⟩
    exact ⟨congrArg Response.fixed same, after⟩

theorem continues_answer {runner : Runner} (continues : runner.ruleset.Continues rules)
    (request : Request) : (runner.answer request).2.ruleset.Continues rules :=
  (answer_congr forgets ⟨continues, continues, .inl rfl⟩ rfl request).2.first_continues

/-- A history of requests leaves a ruleset that goes on with the same rules. -/
theorem continues_afterAll {runner : Runner} (continues : runner.ruleset.Continues rules)
    (history : List Request) :
    (runner.afterAll history).ruleset.Continues rules ∧
      (runner.afterAll history).maxPasses = runner.maxPasses := by
  induction history generalizing runner with
  | nil => exact ⟨continues, rfl⟩
  | cons request history ih =>
    rcases ih (continues_answer forgets continues request) with ⟨still, ceiling_eq⟩
    exact ⟨still, ceiling_eq.trans (maxPasses_answer runner request)⟩

end History

end Runner

namespace Standard

theorem forgets_of_mem {rule : Rule} (builtIn : rule ∈ rules) : rule.Forgets := by
  simp only [rules, mem_cons, not_mem_nil, or_false] at builtIn
  rcases builtIn with rfl | rfl | rfl | rfl | rfl
  · exact Rule.forgets_ofFindings _ _ _
  · exact Rule.forgets_ofFindings _ _ _
  · exact ScopedRule.forgets_toRule _
  · exact ScopedRule.forgets_toRule _
  · exact Rule.forgets_ofFindings _ _ _

theorem ignoresGeneration_of_mem {rule : Rule} (builtIn : rule ∈ rules) :
    rule.IgnoresGeneration := by
  simp only [rules, mem_cons, not_mem_nil, or_false] at builtIn
  rcases builtIn with rfl | rfl | rfl | rfl | rfl
  · exact Rule.ignoresGeneration_ofFindings _ _ _
  · exact Rule.ignoresGeneration_ofFindings _ _ _
  · exact ScopedRule.ignoresGeneration_toRule (ScopedRule.ignoresGeneration_ofFindings _ _ _ _ _)
  · exact ScopedRule.ignoresGeneration_toRule (ScopedRule.ignoresGeneration_ofFindings _ _ _ _ _)
  · exact Rule.ignoresGeneration_ofFindings _ _ _

end Standard

namespace Runner

/-- What a runner answers does not depend on the calls before. Scoped rules of any kind
begin anew, as if their states had been reset. Nothing but the number of the pass
could tell a used runner from a fresh one, and built-in rules do not look at it. -/
theorem history_leaves_no_trace (rules : List Rule)
    (admitted : ∀ rule ∈ rules, rule ∈ Standard.rules ∨
      ∃ inner : ScopedRule, rule = inner.toRule)
    (maxPasses : Nat) (history : List Request) (request : Request) :
    let fresh := Runner.ofRuleset (.ofRules rules) maxPasses
    let used := fresh.afterAll history
    (used.answer request).1 = (used.renewed.answer request).1 ∧
      ((∀ rule ∈ rules, rule ∈ Standard.rules ∨
          ∃ inner : ScopedRule, rule = inner.toRule ∧ inner.IgnoresGeneration) →
        (used.answer request).1 = (fresh.answer request).1) := by
  intro fresh used
  have forgets : ∀ rule ∈ rules, rule.Forgets := by
    intro rule inside
    rcases admitted rule inside with builtIn | ⟨inner, rfl⟩
    · exact Standard.forgets_of_mem builtIn
    · exact inner.forgets_toRule
  have fresh_continues : fresh.ruleset.Continues rules := Ruleset.continues_ofRules rules
  rcases continues_afterAll forgets fresh_continues history with ⟨used_continues, ceiling_eq⟩
  have renewed_continues : used.renewed.ruleset.Continues rules := by
    rw [renewed, used_continues.rules_eq]
    exact Ruleset.continues_of_listeners (Ruleset.listeners_ofRules rules)
  constructor
  · exact (answer_congr forgets ⟨used_continues, renewed_continues, .inl rfl⟩ rfl request).1
  · intro blind
    have ignores : ∀ rule ∈ rules, rule.IgnoresGeneration := by
      intro rule inside
      rcases blind rule inside with builtIn | ⟨inner, rfl, ignores⟩
      · exact Standard.ignoresGeneration_of_mem builtIn
      · exact ScopedRule.ignoresGeneration_toRule ignores
    exact (answer_congr forgets ⟨used_continues, fresh_continues, .inr ignores⟩ ceiling_eq
      request).1

theorem history_leaves_no_trace_methods :
    let source := "<?php class A \x7b public function f(); private function g(); \x7d".toList
    let counts : ScopedRule := .ofFindings ⟨"count", "Test.Count", "Counts methods"⟩ [.classBody]
      [.functionKw] 0 fun _ index count =>
        ([.metric ⟨index, "count", toString count⟩], count + 1, none)
    let fresh := Runner.ofRuleset (.ofRules [Standard.MethodOrder.rule, counts.toRule]) 5
    let used := fresh.afterAll [.check "a.php" source, .fix "a.php" source]
    used.ruleset.generation = 3 ∧
      (used.answer (.check "a.php" source)).1 = (fresh.answer (.check "a.php" source)).1 := by
  intro source counts fresh used
  refine ⟨by decide +kernel, ?_⟩
  refine (history_leaves_no_trace [Standard.MethodOrder.rule, counts.toRule] ?_ 5 _ _).2 ?_
  · intro rule inside
    rcases List.mem_pair.mp inside with rfl | rfl
    · exact .inl (by simp [Standard.rules])
    · exact .inr ⟨counts, rfl⟩
  · intro rule inside
    rcases List.mem_pair.mp inside with rfl | rfl
    · exact .inl (by simp [Standard.rules])
    · exact .inr ⟨counts, rfl, ScopedRule.ignoresGeneration_ofFindings _ _ _ _ _⟩

/-- A scoped rule that reports the number of the pass tells a used runner from a fresh one, also
over the same file. -/
theorem reported_generation_leaves_trace :
    let source := "<?php class A \x7b function f(); \x7d".toList
    let teller : ScopedRule :=
      { name := "teller", code := "Test.Teller", description := "Tells the number of the pass"
        scopes := [.classBody]
        listens := [.functionKw]
        State := Unit
        initial := ()
        visit := fun file index _ state pass =>
          (none, state, pass.addMetric ⟨index, "generation", toString file.generation⟩) }
    let fresh := Runner.ofRuleset (.ofRules [teller.toRule])
    let used := fresh.afterAll [.check "a.php" source]
    (used.answer (.check "a.php" source)).1 ≠ (fresh.answer (.check "a.php" source)).1 := by
  intro source teller fresh used same
  have told : (used.check "a.php" source).1.report.metrics =
      (fresh.check "a.php" source).1.report.metrics :=
    congrArg (fun outcome => outcome.report.metrics) (Response.checked.inj same)
  revert told
  decide +kernel

end Runner

end PhpStyle
