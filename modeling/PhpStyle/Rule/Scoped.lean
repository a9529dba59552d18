import PhpStyle.Rule
import PhpStyle.Stream.Scope

/-!
# Scoped rules

A scoped rule is called only inside scopes of some kinds, and keeps one state per
scope: the state begins anew with every file and with every scope. A call may
name a token up to which the rest of the scope is passed over, so that a rule on
the members of a class is not called for what is inside a member.
-/

namespace PhpStyle

/-- A rule that is applied inside scopes. -/
structure ScopedRule extends RuleInfo where
  /-- The kinds of the scopes. -/
  scopes : List ScopeKind
  /-- The kinds of the tokens that the rule is called for. -/
  listens : List Kind
  /-- What the rule keeps within one scope. -/
  State : Type
  initial : State
  /-- A call at a token of a scope. The index in the answer is the next token of interest. -/
  visit : File → Nat → Scope → State → Pass → Option Nat × State × Pass

namespace ScopedRule

/-- The scope that a rule is in, and its state there. -/
structure Context (State : Type) where
  path : String
  generation : Nat
  owner : Nat
  skipUntil : Option Nat
  state : State

/-- Whether a context belongs to a scope of a file. -/
def Context.isFor {State : Type} (context : Context State) (file : File) (scope : Scope) : Bool :=
  context.path == file.path && context.generation == file.generation && context.owner == scope.owner

/-- The context for a scope: the one at hand if it belongs to the scope, or else a new one. -/
def contextFor (rule : ScopedRule) (file : File) (scope : Scope)
    (current : Option (Context rule.State)) : Context rule.State :=
  (current.filter fun context => context.isFor file scope).getD
    ⟨file.path, file.generation, scope.owner, none, rule.initial⟩

/-- The rule for the dispatcher. -/
def toRule (rule : ScopedRule) : Rule where
  toRuleInfo := rule.toRuleInfo
  listens := rule.listens
  State := Option (Context rule.State)
  initial := none
  visit := fun file index current pass =>
    match file.stream.enclosingScope? index rule.scopes.contains with
    | none => (current, pass)
    | some scope =>
      let context := rule.contextFor file scope current
      if context.skipUntil.any (index < ·) then (some context, pass)
      else
        let (skipUntil, state, pass) := rule.visit file index scope context.state pass
        (some { context with skipUntil, state }, pass)

/-- A scoped rule that only says what it finds at a token. -/
def ofFindings {State : Type} (info : RuleInfo) (scopes : List ScopeKind) (listens : List Kind)
    (initial : State) (find : Stream → Nat → State → List Finding × State × Option Nat) :
    ScopedRule where
  toRuleInfo := info
  scopes
  listens
  State
  initial
  visit := fun file index _ state pass =>
    let (findings, state, skipUntil) := find file.stream index state
    (skipUntil, state, info.recordAll file pass findings)

end ScopedRule

end PhpStyle
