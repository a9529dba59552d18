import PhpStyle.Rule

/-!
# Rulesets

A ruleset holds rules in the order of their registration, each with its state,
and a table with the places of the rules to call at tokens of each kind. A rule
enters the table when it is registered, for every kind that it listens to. A pass
walks over the tokens of a file and calls, at each token, the rules that the table
has for its kind, in order. A changeset that a rule leaves open is dropped before
the next call, so every call begins without one.
-/

namespace PhpStyle

/-- A registered rule and its state. -/
structure Listener where
  rule : Rule
  state : rule.State

namespace Listener

/-- A rule that has not been called yet. -/
def ofRule (rule : Rule) : Listener :=
  ⟨rule, rule.initial⟩

/-- Drops a changeset that a rule has left open, and notes it. -/
def tidy (listener : Listener) (file : File) (index : Nat) (pass : Pass) : Pass :=
  if pass.fixer.isOpen then
    { pass with fixer := pass.fixer.rollback }.note
      (.changesetLeftOpen file.path listener.rule.name index)
  else pass

/-- Calls the rule at a token. -/
def visit (listener : Listener) (file : File) (index : Nat) (pass : Pass) : Listener × Pass :=
  let (state, pass) := listener.rule.visit file index listener.state pass
  (⟨listener.rule, state⟩, listener.tidy file index pass)

end Listener

/-- The places of the rules to call at tokens of each kind. -/
abbrev DispatchTable :=
  List (Kind × List Nat)

namespace DispatchTable

/-- The places for a kind. -/
def places (table : DispatchTable) (kind : Kind) : List Nat :=
  (table.lookup kind).getD []

/-- Adds a place to the entry of a kind, unless it is there already. -/
def enter (place : Nat) : DispatchTable → Kind → DispatchTable
  | [], kind => [(kind, [place])]
  | (other, places) :: rest, kind =>
    if other = kind then (other, if places.contains place then places else places ++ [place]) :: rest
    else (other, places) :: enter place rest kind

/-- Adds the place of a rule to the entries of the kinds that it listens to. -/
def add (table : DispatchTable) (rule : Rule) (place : Nat) : DispatchTable :=
  rule.listens.foldl (enter place) table

/-- The table of rules that are added in order. -/
def ofRules (rules : List Rule) : DispatchTable :=
  rules.zipIdx.foldl (fun table (rule, place) => table.add rule place) []

theorem ofRules_concat (rules : List Rule) (rule : Rule) :
    ofRules (rules ++ [rule]) = (ofRules rules).add rule rules.length := by
  rw [ofRules, List.zipIdx_append, List.foldl_append]
  simp [ofRules]

end DispatchTable

/-- Rules in the order in which they are called, their table, and the number of passes so far. -/
structure Ruleset where
  listeners : List Listener := []
  table : DispatchTable := .ofRules (listeners.map Listener.rule)
  generation : Nat := 0
  /-- The rules have entered the table in their order. -/
  table_eq : table = .ofRules (listeners.map Listener.rule) := by rfl

namespace Ruleset

/-- Registers a rule, to be called after all the others. -/
def register (ruleset : Ruleset) (rule : Rule) : Ruleset where
  listeners := ruleset.listeners ++ [Listener.ofRule rule]
  table := ruleset.table.add rule ruleset.listeners.length
  generation := ruleset.generation
  table_eq := by
    rw [ruleset.table_eq, List.map_append, List.map_singleton, DispatchTable.ofRules_concat,
      List.length_map]
    rfl

/-- The ruleset of some rules, registered in order. -/
def ofRules (rules : List Rule) : Ruleset :=
  rules.foldl register {}

/-- The rules, in order. -/
def infos (ruleset : Ruleset) : List RuleInfo :=
  ruleset.listeners.map fun listener => listener.rule.toRuleInfo

/-- The names of the rules, in order. -/
def names (ruleset : Ruleset) : List String :=
  ruleset.infos.map RuleInfo.name

/-- Calls the rule at a place for a token. -/
def callAt (file : File) (index : Nat) (current : List Listener × Pass) (place : Nat) :
    List Listener × Pass :=
  match current.1[place]? with
  | none => current
  | some listener =>
    let (listener, pass) := listener.visit file index current.2
    (current.1.set place listener, pass)

/-- Calls the rules of a table for a sequence of tokens that begins at an index. -/
def visitTokens (table : DispatchTable) (file : File) (index : Nat) :
    List Token → List Listener × Pass → List Listener × Pass
  | [], current => current
  | token :: rest, current =>
    visitTokens table file (index + 1) rest
      ((table.places token.kind).foldl (callAt file index) current)

theorem rules_callAt (file : File) (index : Nat) (current : List Listener × Pass) (place : Nat) :
    (callAt file index current place).1.map Listener.rule = current.1.map Listener.rule := by
  rw [callAt]
  split
  · rfl
  · next listener found =>
      rcases List.getElem?_eq_some_iff.mp found with ⟨inside, rfl⟩
      apply List.ext_getElem
      · simp
      · intro other _ _
        by_cases same : place = other
        · subst same
          simp [Listener.visit]
        · simp [same]

theorem rules_foldl_callAt (file : File) (index : Nat) (places : List Nat)
    (current : List Listener × Pass) :
    (places.foldl (callAt file index) current).1.map Listener.rule =
      current.1.map Listener.rule := by
  induction places generalizing current with
  | nil => rfl
  | cons place places ih => exact (ih _).trans (rules_callAt file index current place)

/-- Calls change the states of rules, and never the rules. -/
theorem rules_visitTokens (table : DispatchTable) (file : File) (index : Nat)
    (tokens : List Token) (current : List Listener × Pass) :
    (visitTokens table file index tokens current).1.map Listener.rule =
      current.1.map Listener.rule := by
  induction tokens generalizing index current with
  | nil => rfl
  | cons token tokens ih => exact (ih _ _).trans (rules_foldl_callAt file index _ current)

/-- One pass over a file. -/
def process (ruleset : Ruleset) (path : String) (stream : Stream) (pass : Pass) : Ruleset × Pass :=
  let file : File := ⟨path, ruleset.generation + 1, stream⟩
  let after := visitTokens ruleset.table file 0 stream.tokens.toList (ruleset.listeners, pass)
  ({ listeners := after.1
     table := ruleset.table
     generation := file.generation
     table_eq := by rw [rules_visitTokens, ruleset.table_eq] }, after.2)

end Ruleset

end PhpStyle
