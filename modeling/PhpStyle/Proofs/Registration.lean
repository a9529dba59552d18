import PhpStyle.Ruleset

/-!
# Registered rules

A rule that is registered enters its place into the table, for every kind that it listens to. The
entry of a kind has then the places of the rules that listen to it, in their order and each of
them once, however often a rule names the kind.

So it does not matter for a pass that it reads a table. It calls the same rules as one that asks
every rule, at every token, whether it listens to the kind of the token.
-/

namespace PhpStyle

open List

namespace DispatchTable

variable {kind wanted : Kind} {place : Nat}

/-- The places of the rules that listen to a kind. The first rule has the given place. -/
def listening (rules : List Rule) (place : Nat) (kind : Kind) : List Nat :=
  ((rules.zipIdx place).filter fun entry => entry.1.listens.contains kind).map Prod.snd

theorem listening_cons (rule : Rule) (rules : List Rule) (place : Nat) (kind : Kind) :
    listening (rule :: rules) place kind =
      (if rule.listens.contains kind then [place] else []) ++ listening rules (place + 1) kind := by
  rw [listening, zipIdx_cons, filter_cons]
  split <;> rfl

theorem mem_listening_iff {rules : List Rule} :
    place ∈ listening rules 0 kind ↔ ∃ rule, rules[place]? = some rule ∧ kind ∈ rule.listens := by
  simp only [listening, mem_map, mem_filter, contains_iff_mem, Prod.exists,
    mk_mem_zipIdx_iff_getElem?, exists_eq_right]

theorem places_cons (other : Kind) (listed : List Nat) (rest : DispatchTable) (wanted : Kind) :
    places ((other, listed) :: rest) wanted =
      if wanted = other then listed else rest.places wanted := by
  rw [places, lookup_cons]
  by_cases same : wanted = other
  · simp [same]
  · rw [beq_eq_false_iff_ne.mpr same, if_neg same, places]

/-- A place is entered for one kind, and only if it is not there yet. -/
theorem places_enter (table : DispatchTable) (place : Nat) (kind wanted : Kind) :
    (table.enter place kind).places wanted = table.places wanted ++
      if kind = wanted ∧ place ∉ table.places wanted then [place] else [] := by
  induction table with
  | nil =>
    rw [enter, places_cons]
    by_cases same : kind = wanted <;> simp [places, same, eq_comm]
  | cons entry rest ih =>
    rcases entry with ⟨other, listed⟩
    rw [enter]
    by_cases here : other = kind
    · rw [if_pos here, places_cons, places_cons]
      by_cases same : wanted = other
      · by_cases present : place ∈ listed <;> simp [same, here, present]
      · have elsewhere : kind ≠ wanted := fun equal => same (equal.symm.trans here.symm)
        simp [same, elsewhere]
    · rw [if_neg here, places_cons, places_cons]
      by_cases same : wanted = other
      · simp [same, Ne.symm here]
      · simpa [same] using ih

/-- A rule that names a kind, once or more often, enters its entry once. -/
theorem places_add (table : DispatchTable) (rule : Rule) (fresh : place ∉ table.places wanted) :
    (table.add rule place).places wanted = table.places wanted ++
      if rule.listens.contains wanted then [place] else [] := by
  have entered (kinds : List Kind) (table : DispatchTable) (present : place ∈ table.places wanted) :
      (kinds.foldl (enter place) table).places wanted = table.places wanted := by
    induction kinds generalizing table with
    | nil => rfl
    | cons kind kinds ih =>
      have same := places_enter table place kind wanted
      rw [if_neg (fun absent => absent.2 present), append_nil] at same
      rw [foldl_cons, ih _ (same ▸ present), same]
  rw [add]
  induction rule.listens generalizing table with
  | nil => simp
  | cons kind kinds ih =>
    have first := places_enter table place kind wanted
    rw [foldl_cons]
    by_cases here : kind = wanted
    · rw [if_pos ⟨here, fresh⟩] at first
      rw [entered kinds _ (by simp [first]), first]
      simp [here]
    · rw [if_neg (fun both => here both.1), append_nil] at first
      rw [ih _ (first ▸ fresh), first]
      simp [Ne.symm here]

/-- The entry of a kind lists the rules that listen to it. -/
theorem places_ofRules (rules : List Rule) (kind : Kind) :
    (ofRules rules).places kind = listening rules 0 kind := by
  have added (rules : List Rule) (place : Nat) (table : DispatchTable)
      (earlier : ∀ other ∈ table.places kind, other < place) :
      ((rules.zipIdx place).foldl (fun table entry => table.add entry.1 entry.2) table).places kind =
        table.places kind ++ listening rules place kind := by
    induction rules generalizing place table with
    | nil => exact (append_nil _).symm
    | cons rule rules ih =>
      have first := places_add table rule fun present => Nat.lt_irrefl place (earlier _ present)
      rw [zipIdx_cons, foldl_cons, ih, first, listening_cons, List.append_assoc]
      intro other listed
      rw [first, mem_append] at listed
      rcases listed with before | last
      · exact Nat.lt_succ_of_lt (earlier other before)
      · split at last
        · rw [List.mem_singleton.mp last]
          exact Nat.lt_succ_self place
        · cases last
  exact added rules 0 [] (forall_mem_nil _)

end DispatchTable

namespace Ruleset

open DispatchTable (listening)

/-- A ruleset is what its rules are, their states and the number of passes: the table follows. -/
theorem eq_of_listeners {first second : Ruleset} (listeners_eq : first.listeners = second.listeners)
    (generation_eq : first.generation = second.generation) : first = second := by
  rcases first with ⟨listeners, table, generation, table_eq⟩
  rcases second with ⟨others, other_table, other_generation, other_eq⟩
  cases listeners_eq
  cases generation_eq
  cases table_eq
  cases other_eq
  rfl

/-- Registered rules have not been called, and no pass has been made. -/
theorem ofRules_eq (rules : List Rule) :
    ofRules rules = { listeners := rules.map Listener.ofRule } := by
  have registered (rules : List Rule) (ruleset : Ruleset) :
      rules.foldl register ruleset =
        { listeners := ruleset.listeners ++ rules.map Listener.ofRule
          generation := ruleset.generation } := by
    induction rules generalizing ruleset with
    | nil => exact eq_of_listeners (append_nil _).symm rfl
    | cons rule rules ih =>
      rw [foldl_cons, ih]
      exact eq_of_listeners (List.append_assoc _ _ _) rfl
  exact registered rules {}

theorem listeners_ofRules (rules : List Rule) :
    (ofRules rules).listeners = rules.map Listener.ofRule :=
  congrArg listeners (ofRules_eq rules)

theorem rules_ofRules (rules : List Rule) :
    (ofRules rules).listeners.map Listener.rule = rules := by
  rw [listeners_ofRules, map_map]
  exact map_id rules

/-- Asks some rules whether they listen to a token, and calls those that do. -/
def ask (file : File) (index : Nat) (kind : Kind) :
    List Listener → Pass → List Listener × Pass
  | [], pass => ([], pass)
  | listener :: rest, pass =>
    let called := if listener.rule.listens.contains kind then listener.visit file index pass
      else (listener, pass)
    let after := ask file index kind rest called.2
    (called.1 :: after.1, after.2)

/-- Asks at a sequence of tokens that begins at an index. -/
def askAll (file : File) (index : Nat) :
    List Token → List Listener × Pass → List Listener × Pass
  | [], current => current
  | token :: rest, (listeners, pass) =>
    askAll file (index + 1) rest (ask file index token.kind listeners pass)

theorem callAt_of_getElem? {file : File} {current : List Listener × Pass} {listener : Listener}
    {place : Nat} (found : current.1[place]? = some listener) (index : Nat) :
    callAt file index current place =
      (current.1.set place (listener.visit file index current.2).1,
        (listener.visit file index current.2).2) := by
  simp only [callAt, found]

/-- The rules that listen to a token are called in order. Those before `rest` have had their
turn, and the first rule joins them for the calls of the others. -/
theorem foldl_callAt_listening (file : File) (index : Nat) (kind : Kind)
    (before rest : List Listener) (pass : Pass) :
    (listening (rest.map Listener.rule) before.length kind).foldl (callAt file index)
        (before ++ rest, pass) =
      (before ++ (ask file index kind rest pass).1, (ask file index kind rest pass).2) := by
  induction rest generalizing before pass with
  | nil => rfl
  | cons listener rest ih =>
    rw [map_cons, DispatchTable.listening_cons, foldl_append, ask]
    by_cases hears : listener.rule.listens.contains kind = true
    · have found : (before ++ listener :: rest)[before.length]? = some listener := by simp
      have next := ih (before ++ [(listener.visit file index pass).1])
        (listener.visit file index pass).2
      rw [length_append, length_singleton, List.append_assoc, singleton_append] at next
      have called := @callAt_of_getElem? file (before ++ listener :: rest, pass) _ _ found index
      rw [set_append_right _ _ (Nat.le_refl _), Nat.sub_self, set_cons_zero] at called
      simp only [if_pos hears, foldl_cons, foldl_nil, called, next, List.append_assoc,
        singleton_append]
    · have next := ih (before ++ [listener]) pass
      rw [length_append, length_singleton, List.append_assoc, singleton_append] at next
      simp only [if_neg hears, foldl_nil, next, List.append_assoc, singleton_append]

/-- With the table of the rules, the same rules are called as by asking all of them. -/
theorem visitTokens_eq_askAll (file : File) (index : Nat) (tokens : List Token)
    (listeners : List Listener) (pass : Pass) :
    visitTokens (.ofRules (listeners.map Listener.rule)) file index tokens (listeners, pass) =
      askAll file index tokens (listeners, pass) := by
  induction tokens generalizing index listeners pass with
  | nil => rfl
  | cons token tokens ih =>
    have first := foldl_callAt_listening file index token.kind [] listeners pass
    have same_rules := rules_foldl_callAt file index
      (listening (listeners.map Listener.rule) 0 token.kind) (listeners, pass)
    rw [nil_append, nil_append, length_nil] at first
    rw [visitTokens, DispatchTable.places_ofRules, askAll, ← ih, first]
    rw [first] at same_rules
    rw [same_rules]

theorem process_eq_askAll (ruleset : Ruleset) (path : String) (stream : Stream) (pass : Pass) :
    ((ruleset.process path stream pass).1.listeners, (ruleset.process path stream pass).2) =
      askAll ⟨path, ruleset.generation + 1, stream⟩ 0 stream.tokens.toList
        (ruleset.listeners, pass) := by
  rw [← visitTokens_eq_askAll, ← ruleset.table_eq]
  rfl

end Ruleset

end PhpStyle
