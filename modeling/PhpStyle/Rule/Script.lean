import PhpStyle.Rule.Scoped
import PhpStyle.Stream.Declaration

/-!
# Scripted rules

Rules given as data: a list of actions that is carried out at every token that
the rule listens to. Scripts report, measure and edit like any other rule, with
indices relative to the token, and may also leave a changeset open. Each call
leaves an event with the replies of the fixer in the journal.
-/

namespace PhpStyle.Script

/-- A command to the fixer, with indices relative to the token. -/
inductive Move where
  | start
  | finish
  | rollback
  | replace (offset : Int) (text : String)
  | append (offset : Int) (text : String)
  | deleteLine (offset : Int)
  | deleteRange (first last : Int)
  | read (offset : Int)
deriving Repr, Inhabited

/-- When an action is carried out. -/
structure Guard where
  /-- Only at tokens with this text. -/
  text : Option String := none
  /-- Not before a token of this kind. -/
  notBefore : Option Kind := none
deriving Repr, Inhabited

/-- Where an action reports, and the code it reports under. -/
structure Target where
  offset : Int := 0
  code : String := "Code"
deriving Repr, Inhabited

/-- An action of a script. -/
inductive Action where
  | edit (guard : Guard) (move : Move)
  | report (guard : Guard) (target : Target) (severity : Severity) (message : String)
  | measure (guard : Guard) (target : Target) (name value : String)
  /-- A report whose repair is a list of actions. -/
  | offer (guard : Guard) (target : Target) (message : String) (repair : List Action)
deriving Repr, Inhabited

/-- What a call of a script knows. -/
structure Call where
  rule : RuleInfo
  file : File
  index : Nat
  /-- The number of the call in its scope. -/
  visit : Nat

namespace Call

/-- The index at an offset from the token, and no less than zero. -/
def indexAt (call : Call) (offset : Int) : Nat :=
  ((call.index : Int) + offset).toNat

/-- The text of the token. -/
def text (call : Call) : String :=
  String.ofList (((call.file.stream.get? call.index).map fun token => token.text).getD [])

/-- Fills in the text of the token and the number of the call. -/
def fill (call : Call) (template : String) : String :=
  (template.replace "\x7btext\x7d" call.text).replace "\x7bn\x7d" (toString call.visit)

/-- Whether an action is carried out. -/
def passes (call : Call) (guard : Guard) : Bool :=
  guard.text.all (· == call.text) &&
    guard.notBefore.all fun kind => call.file.stream.kind? (call.index + 1) != some kind

/-- The command of a move. -/
def command (call : Call) : Move → Fixer.Command
  | .start => .start
  | .finish => .finish
  | .rollback => .rollback
  | .replace offset text => .stage (.replace (call.indexAt offset) (call.fill text).toList)
  | .append offset text => .stage (.append (call.indexAt offset) (call.fill text).toList)
  | .deleteLine offset => .deleteLine (call.indexAt offset)
  | .deleteRange first last => .deleteRange (call.indexAt first) (call.indexAt last)
  | .read offset => .read (call.indexAt offset)

/-- The diagnostic of an action. -/
def diagnostic (call : Call) (target : Target) (severity : Severity) (message : String)
    (isFixable : Bool) : Diagnostic :=
  call.file.stream.diagnosticAt severity call.rule.code target.code (call.fill message)
    (call.indexAt target.offset) isFixable

mutual

/-- Carries out an action, and adds the replies of the fixer to those so far. -/
def perform (call : Call) (state : List Fixer.Reply × Pass) : Action → List Fixer.Reply × Pass
  | .edit guard move =>
    if call.passes guard then
      let (reply, fixer) := state.2.fixer.perform call.file.stream (call.command move)
      (state.1 ++ [reply], { state.2 with fixer })
    else state
  | .report guard target severity message =>
    if call.passes guard then
      (state.1, state.2.add (call.diagnostic target severity message false))
    else state
  | .measure guard target name value =>
    if call.passes guard then
      (state.1, state.2.addMetric ⟨call.indexAt target.offset, call.fill name, call.fill value⟩)
    else state
  | .offer guard target message repair =>
    if call.passes guard then
      let state := (state.1, state.2.add (call.diagnostic target .error message true))
      if state.2.fixer.isEnabled then performAll call state repair else state
    else state

/-- Carries out actions in order. -/
def performAll (call : Call) (state : List Fixer.Reply × Pass) :
    List Action → List Fixer.Reply × Pass
  | [] => state
  | action :: rest => performAll call (perform call state action) rest

end

/-- Carries out a script, and notes the call. -/
def run (call : Call) (actions : List Action) (pass : Pass) : Pass :=
  let (replies, pass) := call.performAll ([], pass) actions
  pass.note (.scriptVisited call.rule.name call.index call.visit replies)

end Call

/-- Up to where the rest of a scope is passed over after a call. -/
inductive Skip where
  | nothing
  | tokens (count : Nat)
  | declaration
deriving Repr, Inhabited

/-- The token up to which the rest of a scope is passed over. -/
def Skip.until (stream : Stream) (index : Nat) : Skip → Option Nat
  | .nothing => none
  | .tokens count => some (index + count)
  | .declaration =>
    if stream.kind? index = some .functionKw then stream.declarationEnd? index else none

/-- A rule that carries out a script at every token. -/
def rule (info : RuleInfo) (listens : List Kind) (actions : List Action) : Rule where
  toRuleInfo := info
  listens
  State := Unit
  initial := ()
  visit := fun file index state pass => (state, Call.run ⟨info, file, index, 0⟩ actions pass)

/-- A rule that carries out a script at every token of a scope and counts its calls. -/
def scopedRule (info : RuleInfo) (scopes : List ScopeKind) (listens : List Kind)
    (actions : List Action) (skip : Skip) : Rule :=
  ScopedRule.toRule
    { info with
      scopes
      listens
      State := Nat
      initial := 0
      visit := fun file index _ visits pass =>
        (skip.until file.stream index, visits + 1,
          Call.run ⟨info, file, index, visits + 1⟩ actions pass) }

end PhpStyle.Script
