import PhpStyle.Proofs.Isolation
import PhpStyle.Proofs.Scopes
import PhpStyle.Proofs.Walks

/-!
# The walk of a scoped rule

A scoped rule carries the context of one scope over all the tokens that it listens to.
Over the tokens of a scope of classes that has no scope of classes inside, it goes as a
machine that knows nothing of scopes: it begins anew at the first of them, passes over
those that come before the token which the last call named, and is called at the others.

What a check says at a token of such a scope is therefore what this machine finds there.
-/

namespace PhpStyle

open PhpStyle.Stream List

section Steps

variable {State : Type} (info : RuleInfo) (scopes : List ScopeKind) (listens : List Kind)
  (initial : State) (find : Stream → Nat → State → List Finding × State × Option Nat)

/-- A call inside of a scope: what is kept is the next token of interest and the state. -/
def memberStep (stream : Stream) (current : Option Nat × State) (index : Nat) :
    (Option Nat × State) × List Finding :=
  if current.1.any (index < ·) then (current, [])
  else
    let found := find stream index current.2
    ((found.2.2, found.2.1), found.1)

variable {find}

theorem memberStep_of_passed {stream : Stream} {current : Option Nat × State} {index : Nat}
    (passed : current.1.any (index < ·) = true) :
    memberStep find stream current index = (current, []) := by
  rw [memberStep, if_pos passed]

theorem memberStep_of_called {stream : Stream} {current : Option Nat × State} {index : Nat}
    (called : current.1.any (index < ·) = false) :
    memberStep find stream current index =
      (((find stream index current.2).2.2, (find stream index current.2).2.1),
        (find stream index current.2).1) := by
  rw [memberStep, if_neg (Bool.not_eq_true _ ▸ called)]

variable (find)

namespace ScopedRule

/-- The context of a scope, given what is kept in it. -/
def Context.of (file : File) (scope : Scope) (current : Option Nat × State) : Context State :=
  ⟨file.path, file.generation, scope.owner, current.1, current.2⟩

/-- The context at a token of a scope: the one at hand if it belongs to the scope. -/
def contextIn (file : File) (scope : Scope) (current : Option (Context State)) : Context State :=
  (current.filter fun context => context.isFor file scope).getD (.of file scope (none, initial))

/-- A call at any token: the scope around it decides what is kept. -/
def step (file : File) (current : Option (Context State)) (index : Nat) :
    Option (Context State) × List Finding :=
  match file.stream.enclosingScope? index scopes.contains with
  | none => (current, [])
  | some scope =>
    let context := contextIn initial file scope current
    let called := memberStep find file.stream (context.skipUntil, context.state) index
    (some { context with skipUntil := called.1.1, state := called.1.2 }, called.2)

section Call

variable (file : File) (index : Nat) (current : Option (Context State)) (pass : Pass)

theorem step_outside (outside : file.stream.enclosingScope? index scopes.contains = none) :
    step scopes initial find file current index = (current, []) := by
  rw [step, outside]

theorem callIn_ofFindings (scope : Scope) (context : Context State) :
    (ofFindings info scopes listens initial find).callIn file index scope context pass =
      let called := memberStep find file.stream (context.skipUntil, context.state) index
      ({ context with skipUntil := called.1.1, state := called.1.2 },
        info.recordAll file pass called.2) := by
  let found := find file.stream index context.state
  change (if context.skipUntil.any (index < ·) then (context, pass)
    else ({ context with skipUntil := found.2.2, state := found.2.1 },
      info.recordAll file pass found.1)) = _
  cases passed : context.skipUntil.any (index < ·) with
  | true =>
    have stays : memberStep find file.stream (context.skipUntil, context.state) index =
        ((context.skipUntil, context.state), []) := memberStep_of_passed passed
    rw [stays]
    rfl
  | false =>
    have goes : memberStep find file.stream (context.skipUntil, context.state) index =
        ((found.2.2, found.2.1), found.1) := memberStep_of_called passed
    rw [goes]
    rfl

theorem callAt_ofFindings :
    (ofFindings info scopes listens initial find).callAt file index current pass =
      ((step scopes initial find file current index).1,
        info.recordAll file pass (step scopes initial find file current index).2) := by
  cases around : file.stream.enclosingScope? index scopes.contains with
  | none =>
    have called : (ofFindings info scopes listens initial find).callAt file index current pass =
        (current, pass) := by
      apply callAt_outside
      exact around
    rw [step_outside scopes initial find file index current around]
    exact called
  | some scope =>
    have called : (ofFindings info scopes listens initial find).callAt file index current pass =
        ((ofFindings info scopes listens initial find).callIn file index scope
          (contextIn initial file scope current) pass).map some id := by
      apply callAt_inside
      exact around
    rw [step, around]
    apply called.trans
    exact congrArg (Prod.map some id) (callIn_ofFindings info scopes listens initial find ..)

theorem finds_toRule : (ofFindings info scopes listens initial find).toRule.Finds
    (step scopes initial find) :=
  callAt_ofFindings info scopes listens initial find

end Call

section Scope

variable {file : File} {scope : Scope} {current : Option Nat × State}

variable {context : Option (Context State)} {index : Nat} {indices : List Nat}

theorem contextIn_of :
    contextIn initial file scope (some (.of file scope current)) = .of file scope current := by
  simp [contextIn, Context.isFor, Context.of, Option.filter]

/-- At a token of another scope, and at the beginning, the context is a new one. -/
theorem contextIn_of_ne (other : ∀ found ∈ context, found.owner ≠ scope.owner) :
    contextIn initial file scope context = .of file scope (none, initial) := by
  have dropped : (context.filter fun found => found.isFor file scope) = none := by
    rw [Option.filter_eq_none_iff]
    intro found present
    simp [Context.isFor, other found present]
  rw [contextIn, dropped, Option.getD_none]

theorem owner_contextIn (context : Option (Context State)) :
    (contextIn initial file scope context).owner = scope.owner := by
  cases found : context.filter fun found => found.isFor file scope with
  | none =>
    rw [contextIn, found]
    rfl
  | some other =>
    rw [contextIn, found]
    have fits := (Option.filter_eq_some_iff.mp found).2
    simp only [Context.isFor, Bool.and_eq_true, beq_iff_eq] at fits
    exact fits.2

theorem step_of (inside : file.stream.enclosingScope? index scopes.contains = some scope) :
    step scopes initial find file (some (.of file scope current)) index =
      (some (.of file scope (memberStep find file.stream current index).1),
        (memberStep find file.stream current index).2) := by
  rw [step, inside]
  simp only [contextIn_of]
  rfl

/-- The first call in a scope is made in a new context. -/
theorem step_of_ne (inside : file.stream.enclosingScope? index scopes.contains = some scope)
    (other : ∀ found ∈ context, found.owner ≠ scope.owner) :
    step scopes initial find file context index =
      step scopes initial find file (some (.of file scope (none, initial))) index := by
  rw [step, step, inside]
  simp only [contextIn_of, contextIn_of_ne initial other]

/-- Within one scope the context follows the walk over the members. -/
theorem stateAfter_step_of
    (inside : ∀ index ∈ indices, file.stream.enclosingScope? index scopes.contains = some scope) :
    stateAfter (step scopes initial find file) (some (.of file scope current)) indices =
      some (.of file scope (stateAfter (memberStep find file.stream) current indices)) := by
  induction indices generalizing current with
  | nil => rfl
  | cons index rest ih =>
    have here : step scopes initial find file (some (.of file scope current)) index = _ :=
      step_of scopes initial find (inside index mem_cons_self)
    have after : stateAfter (step scopes initial find file) (some (.of file scope current))
        (index :: rest) =
      stateAfter (step scopes initial find file)
        (some (.of file scope (memberStep find file.stream current index).1)) rest := by
      rw [stateAfter, foldl_cons, here]
      rfl
    rw [after]
    exact ih fun later listed => inside later (mem_cons_of_mem _ listed)

/-- Among tokens of one scope the context of another scope is forgotten at the first of them. -/
theorem step_stateAfter_of_ne (other : ∀ found ∈ context, found.owner ≠ scope.owner)
    (before : ∀ place ∈ indices, file.stream.enclosingScope? place scopes.contains = some scope)
    (inside : file.stream.enclosingScope? index scopes.contains = some scope) :
    (step scopes initial find file
        (stateAfter (step scopes initial find file) context indices) index).2 =
      (memberStep find file.stream
        (stateAfter (memberStep find file.stream) (none, initial) indices) index).2 := by
  have fresh : step scopes initial find file
        (stateAfter (step scopes initial find file) context indices) index =
      step scopes initial find file (stateAfter (step scopes initial find file)
        (some (.of file scope (none, initial))) indices) index := by
    cases indices with
    | nil => exact step_of_ne scopes initial find inside other
    | cons first rest =>
      have begins := step_of_ne scopes initial find (before first mem_cons_self) other
      simp only [stateAfter, foldl_cons, begins]
  rw [fresh, stateAfter_step_of scopes initial find before, step_of scopes initial find inside]

/-- What is kept comes from the scope of an earlier token. -/
theorem exists_of_stateAfter_step {context : Context State}
    (kept : stateAfter (step scopes initial find file) none indices = some context) :
    ∃ index ∈ indices, ∃ other : Scope,
      file.stream.enclosingScope? index scopes.contains = some other ∧
        context.owner = other.owner := by
  induction indices using List.reverseRecOn generalizing context with
  | nil => cases kept
  | append_singleton earlier index ih =>
    have last : stateAfter (step scopes initial find file) none (earlier ++ [index]) =
        (step scopes initial find file
          (stateAfter (step scopes initial find file) none earlier) index).1 := by
      rw [stateAfter, foldl_append]
      rfl
    rw [last, step] at kept
    cases around : file.stream.enclosingScope? index scopes.contains with
    | none =>
      rw [around] at kept
      rcases ih kept with ⟨place, listed, found⟩
      exact ⟨place, mem_append_left _ listed, found⟩
    | some other =>
      rw [around] at kept
      rcases Option.some.inj kept with rfl
      refine ⟨index, mem_append_right _ (mem_singleton_self _), other, around, ?_⟩
      exact owner_contextIn initial _

end Scope

end ScopedRule

end Steps

namespace Stream

/-- The tokens of some kinds for which a scope is the innermost one of a class, in order. -/
def members (stream : Stream) (kinds : List Kind) (scope : Scope) : List Nat :=
  (stream.places kinds).filter fun index =>
    stream.enclosingScope? index [ScopeKind.classBody].contains == some scope

/-- A closed scope of a class with no scope of a class inside. -/
structure IsInnerClass (stream : Stream) (scope : Scope) : Prop where
  opened : stream.scopeOf? scope.owner = some scope
  isClass : scope.kind = .classBody
  single : ∀ other : Scope, stream.scopeOf? other.owner = some other → other.kind = .classBody →
    scope.contains other.opener = false

instance (stream : Stream) (scope : Scope) : Decidable (stream.IsInnerClass scope) :=
  decidable_of_iff (stream.scopeOf? scope.owner = some scope ∧ scope.kind = .classBody ∧
    ∀ owner < stream.size, (stream.scopeOf? owner).all fun other =>
      other.kind != .classBody || !scope.contains other.opener) <| by
    constructor
    · rintro ⟨opened, isClass, single⟩
      refine ⟨opened, isClass, ?_⟩
      intro other other_opened other_class
      rcases scopeOf?_eq_some_iff.mp other_opened with ⟨-, token, found, -⟩
      simpa [other_opened, other_class] using single other.owner (lt_size_of_get? found)
    · rintro ⟨opened, isClass, single⟩
      refine ⟨opened, isClass, ?_⟩
      intro owner inside
      cases found : stream.scopeOf? owner with
      | none => rfl
      | some other =>
        rcases scopeOf?_eq_some_iff.mp found with ⟨rfl, -⟩
        by_cases other_class : other.kind = .classBody
        · simp [other_class, single other found other_class]
        · simp [other_class]

section Members

variable {lexemes : List Lexeme} {scope : Scope} {index : Nat} {kinds : List Kind}

theorem contains_classBody :
    [ScopeKind.classBody].contains = fun kind => kind == ScopeKind.classBody := by
  funext kind
  cases kind <;> rfl

theorem isBraced_of_classBody :
    ∀ kind, [ScopeKind.classBody].contains kind = true → kind.isBraced = true := by
  intro kind listed
  rcases List.mem_singleton.mp (List.contains_iff_mem.mp listed) with rfl
  rfl

theorem mem_members_iff :
    index ∈ (ofLexemes lexemes).members kinds scope ↔
      (∃ kind ∈ kinds, (ofLexemes lexemes).kind? index = some kind) ∧
        (ofLexemes lexemes).Innermost [ScopeKind.classBody].contains index scope := by
  rw [members, mem_filter, mem_places_iff, beq_iff_eq,
    enclosingScope?_eq_some_iff isBraced_of_classBody]

/-- Inside of a class without classes inside, the class is the innermost one around a token. -/
theorem IsInnerClass.enclosingScope?_eq_iff (inner : (ofLexemes lexemes).IsInnerClass scope) :
    (ofLexemes lexemes).enclosingScope? index [ScopeKind.classBody].contains = some scope ↔
      scope.contains index = true := by
  rw [enclosingScope?_eq_some_iff isBraced_of_classBody]
  constructor
  · intro innermost
    exact innermost.around
  · intro around
    refine ⟨inner.opened, by simp [inner.isClass], around, ?_⟩
    intro other other_opened other_wanted other_around
    by_contra later
    have isClass : other.kind = .classBody := by simpa using other_wanted
    have outside := inner.single other other_opened isClass
    simp only [Span.contains, Bool.and_eq_true, decide_eq_true_eq] at around other_around
    simp only [Span.contains, Bool.and_eq_false_iff, decide_eq_false_iff_not] at outside
    omega

/-- A token of the class is in no other class. -/
theorem IsInnerClass.eq_of_innermost (inner : (ofLexemes lexemes).IsInnerClass scope)
    (inside : scope.contains index = true) (other : Scope)
    (innermost : (ofLexemes lexemes).Innermost [ScopeKind.classBody].contains index other) :
    other = scope := by
  have around := (enclosingScope?_eq_some_iff isBraced_of_classBody).mpr innermost
  exact Option.some.inj (around.symm.trans (inner.enclosingScope?_eq_iff.mpr inside))

end Members

end Stream

theorem exists_append_of_sorted {indices : List Nat} (sorted : indices.Pairwise (· < ·))
    (span : Span) :
    ∃ before after, indices = before ++ (indices.filter span.contains ++ after) ∧
      ∀ index ∈ before, index ≤ span.opener := by
  let up_to := indices.filter fun index => decide (index ≤ span.opener)
  let behind := indices.filter fun index => decide (span.opener < index ∧ span.closer ≤ index)
  have before_le : ∀ index ∈ up_to, index ≤ span.opener := by
    intro index listed
    simpa using (List.mem_filter.mp listed).2
  have inside : ∀ index ∈ indices.filter span.contains,
      span.opener < index ∧ index < span.closer := by
    intro index listed
    simpa [Span.contains] using (List.mem_filter.mp listed).2
  have after_le : ∀ index ∈ behind, span.opener < index ∧ span.closer ≤ index := by
    intro index listed
    simpa using (List.mem_filter.mp listed).2
  refine ⟨up_to, behind, ?_, before_le⟩
  apply List.Pairwise.eq_of_mem_iff (r := (· < ·)) sorted
  · apply List.pairwise_append.mpr
    refine ⟨sorted.filter _, List.pairwise_append.mpr ⟨sorted.filter _, sorted.filter _, ?_⟩, ?_⟩
    · intro first first_in second second_in
      have := inside first first_in
      have := after_le second second_in
      omega
    · intro first first_in second second_in
      have := before_le first first_in
      rcases List.mem_append.mp second_in with second_in | second_in
      · have := inside second second_in
        omega
      · have := after_le second second_in
        omega
  · intro index
    simp only [up_to, behind, mem_append, mem_filter, Span.contains, Bool.and_eq_true,
      decide_eq_true_eq]
    constructor
    · intro listed
      by_cases lower : index ≤ span.opener
      · exact .inl ⟨listed, lower⟩
      by_cases upper : index < span.closer
      · exact .inr (.inl ⟨listed, by omega, upper⟩)
      · exact .inr (.inr ⟨listed, by omega, by omega⟩)
    · rintro (⟨listed, -⟩ | ⟨listed, -⟩ | ⟨listed, -⟩) <;> exact listed

/-- The members of a class are a stretch of the tokens of their kinds. -/
theorem Stream.IsInnerClass.exists_places_eq {lexemes : List Lexeme} {scope : Scope}
    (inner : (Stream.ofLexemes lexemes).IsInnerClass scope) (kinds : List Kind) :
    ∃ front back, (Stream.ofLexemes lexemes).places kinds =
        front ++ ((Stream.ofLexemes lexemes).members kinds scope ++ back) ∧
      ∀ index ∈ front, scope.contains index = false := by
  have members_eq : (Stream.ofLexemes lexemes).members kinds scope =
      ((Stream.ofLexemes lexemes).places kinds).filter scope.contains := by
    apply filter_congr
    intro index _
    rw [Bool.eq_iff_iff, beq_iff_eq, inner.enclosingScope?_eq_iff]
  rcases exists_append_of_sorted ((Stream.ofLexemes lexemes).sorted_places kinds) scope.toSpan with
    ⟨front, back, places_eq, front_le⟩
  refine ⟨front, back, ?_, ?_⟩
  · rw [members_eq]
    exact places_eq
  · intro index listed
    have := front_le index listed
    simp only [Span.contains, Bool.and_eq_false_iff, decide_eq_false_iff_not]
    omega

/-- Whether a diagnostic is under a code and at a token. -/
def Diagnostic.isAt (code : String) (index : Nat) (diagnostic : Diagnostic) : Bool :=
  diagnostic.isUnder code && diagnostic.anchor == index

theorem Diagnostic.isUnder_of_isAt {code : String} {index : Nat} (diagnostic : Diagnostic)
    (found : diagnostic.isAt code index = true) : diagnostic.isUnder code = true :=
  (Bool.and_eq_true_iff.mp found).1

/-- The rule says one thing at most at a token that it is called for, and says it there. -/
def SpeaksThere {State : Type} (find : Stream → Nat → State → List Finding × State × Option Nat) :
    Prop :=
  ∀ stream index state, (find stream index state).1 = [] ∨ ∃ violation : Violation,
    (find stream index state).1 = [.violation violation] ∧ violation.anchor = index

namespace Standard

variable {State : Type} {info : RuleInfo} {listens : List Kind} {initial : State}
  {find : Stream → Nat → State → List Finding × State × Option Nat} (there : SpeaksThere find)
  {selected : List Rule} (builtIn : selected.Subperm rules)
  (chosen : (ScopedRule.ofFindings info [.classBody] listens initial find).toRule ∈ selected)
  (maxPasses : Nat) (path : String) {source : List Char}

include there

variable {index : Nat}

theorem memberStep_cases (stream : Stream) (current : Option Nat × State) (index : Nat) :
    (memberStep find stream current index).2 = [] ∨ ∃ violation : Violation,
      (memberStep find stream current index).2 = [.violation violation] ∧
        violation.anchor = index := by
  cases passed : current.1.any (index < ·) with
  | true =>
    rw [memberStep_of_passed passed]
    exact .inl rfl
  | false =>
    rw [memberStep_of_called passed]
    exact there stream index current.2

theorem step_cases (file : File) (current : Option (ScopedRule.Context State)) (index : Nat) :
    (ScopedRule.step [.classBody] initial find file current index).2 = [] ∨
      ∃ violation : Violation,
        (ScopedRule.step [.classBody] initial find file current index).2 = [.violation violation] ∧
          violation.anchor = index := by
  rw [ScopedRule.step]
  split
  · exact .inl rfl
  · exact memberStep_cases there file.stream _ index

theorem filter_step_of_ne (file : File) (current : Option (ScopedRule.Context State)) {other : Nat}
    (different : index ≠ other) :
    (info.diagnostics file.stream (ScopedRule.step [.classBody] initial find file current
      index).2).filter (Diagnostic.isAt info.code other) = [] := by
  rcases step_cases there file current index with none_said | ⟨violation, said, there⟩
  · rw [none_said]
    rfl
  · rw [said]
    apply List.filter_eq_nil_iff.mpr
    intro diagnostic listed
    rcases List.mem_singleton.mp listed with rfl
    simp [Diagnostic.isAt, diagnosticAt, there, different]

theorem filter_step (file : File) (current : Option (ScopedRule.Context State)) (index : Nat) :
    ((info.diagnostics file.stream (ScopedRule.step [.classBody] initial find file current
        index).2).filter (Diagnostic.isAt info.code index)).mergeSort Diagnostic.precedes =
      info.diagnostics file.stream
        (ScopedRule.step [.classBody] initial find file current index).2 := by
  rcases step_cases there file current index with none_said | ⟨violation, said, there⟩
  · rw [none_said]
    exact mergeSort_nil
  · have kept (message : String) (isFixable : Bool) :
        (file.stream.diagnosticAt .error info.code violation.code message violation.anchor
          isFixable).isAt info.code index = true := by
      rw [Diagnostic.isAt, RuleInfo.isUnder_diagnosticAt]
      simp [diagnosticAt, there]
    rw [said]
    change List.mergeSort (List.filter _ [_]) _ = [_]
    rw [filter_cons_of_pos (kept _ _)]
    exact mergeSort_singleton _

/-- Such a rule counts nothing. -/
theorem filter_metrics_of_speaksThere (keep : Metric → Bool) :
    ((Runner.checkTranscript [(ScopedRule.ofFindings info [.classBody] listens initial find).toRule]
      path source).flatMap fun entry => entry.2.metrics).filter keep = [] := by
  apply filter_metrics_eq_nil (ScopedRule.finds_toRule info [.classBody] listens initial find)
  intro current index
  have quiet : (ScopedRule.step [.classBody] initial find ⟨path, 1, .ofSource source⟩ current
      index).2.filterMap Finding.metric? = [] := by
    rcases step_cases there ⟨path, 1, .ofSource source⟩ current index with
      none_said | ⟨violation, said, -⟩
    · rw [none_said]
      rfl
    · rw [said]
      rfl
  exact congrArg (List.filter keep) quiet

include builtIn chosen

/-- At a token that it listens to a check says what the call there finds. -/
theorem filter_check_at {before after : List Nat}
    (split : (ofSource source).places listens = before ++ index :: after) :
    ((Runner.ofRuleset (.ofRules selected) maxPasses).check path source).1.report.diagnostics.filter
        (Diagnostic.isAt info.code index) =
      info.diagnostics (ofSource source)
        (ScopedRule.step [.classBody] initial find ⟨path, 1, .ofSource source⟩
          (stateAfter (ScopedRule.step [.classBody] initial find ⟨path, 1, .ofSource source⟩) none
            before) index).2 := by
  let file : File := ⟨path, 1, .ofSource source⟩
  have others : ∀ entry ∈ walk (ScopedRule.step [.classBody] initial find file) none
      (before ++ index :: after), entry.1 ≠ index →
      (info.diagnostics (ofSource source) entry.2).filter
        (Diagnostic.isAt info.code index) = [] := by
    intro entry called different
    rcases exists_of_mem_walk _ called with ⟨earlier, _, _, found⟩
    rw [found]
    exact filter_step_of_ne there file _ different
  apply (filter_check_eq_of_only (ScopedRule.finds_toRule info [.classBody] listens initial find)
    builtIn chosen maxPasses path source Diagnostic.isUnder_of_isAt split others).trans
  exact filter_step there file _ index

theorem filter_check_of_not_mem (unheard : index ∉ (ofSource source).places listens) :
    ((Runner.ofRuleset (.ofRules selected) maxPasses).check path source).1.report.diagnostics.filter
        (Diagnostic.isAt info.code index) = [] := by
  let file : File := ⟨path, 1, .ofSource source⟩
  have none_said : ((walk (ScopedRule.step [.classBody] initial find file) none
      ((ofSource source).places listens)).flatMap fun entry =>
        info.diagnostics (ofSource source) entry.2).filter
          (Diagnostic.isAt info.code index) = [] := by
    rw [filter_flatMap, flatMap_eq_nil_iff]
    intro entry called
    rcases exists_of_mem_walk _ called with ⟨earlier, later, split, found⟩
    rw [found]
    apply filter_step_of_ne there file
    rintro rfl
    apply unheard
    rw [split]
    exact mem_append_right _ mem_cons_self
  apply (filter_check_eq (ScopedRule.finds_toRule info [.classBody] listens initial find) builtIn
    chosen maxPasses path source Diagnostic.isUnder_of_isAt).trans
  apply (congrArg (List.mergeSort · _) none_said).trans
  exact mergeSort_nil

variable {scope : Scope} (inner : (ofSource source).IsInnerClass scope)

include inner

/-- At a member of a class a check says what is found there in a walk over the members. -/
theorem filter_check_of_member {entry : Nat × List Finding}
    (called : entry ∈ walk (memberStep find (ofSource source)) (none, initial)
      ((ofSource source).members listens scope)) :
    ((Runner.ofRuleset (.ofRules selected) maxPasses).check path source).1.report.diagnostics.filter
        (Diagnostic.isAt info.code entry.1) =
      info.diagnostics (ofSource source) entry.2 := by
  rcases entry with ⟨index, findings⟩
  rcases exists_of_mem_walk _ called with ⟨before, after, split, found⟩
  simp only at split found
  let file : File := ⟨path, 1, .ofSource source⟩
  have inside : ∀ place ∈ before ++ index :: after,
      file.stream.enclosingScope? place [ScopeKind.classBody].contains = some scope := by
    intro place listed
    rw [← split, Stream.members, mem_filter, beq_iff_eq] at listed
    exact listed.2
  rcases inner.exists_places_eq listens with ⟨front, back, places_eq, outside⟩
  have places_split : (ofSource source).places listens =
      (front ++ before) ++ index :: (after ++ back) := by
    apply places_eq.trans
    change front ++ ((ofSource source).members listens scope ++ back) = _
    rw [split]
    simp
  have other : ∀ found ∈ stateAfter (ScopedRule.step [.classBody] initial find file) none front,
      found.owner ≠ scope.owner := by
    intro found kept same
    rcases ScopedRule.exists_of_stateAfter_step _ _ _ kept with
      ⟨place, listed, around, place_in, owner⟩
    have innermost := (enclosingScope?_eq_some_iff Stream.isBraced_of_classBody).mp place_in
    have opened := innermost.opened
    rw [← owner, same] at opened
    rcases Option.some.inj (opened.symm.trans inner.opened) with rfl
    exact absurd innermost.around (by rw [outside place listed]; simp)
  apply (filter_check_at there builtIn chosen maxPasses path places_split).trans
  rw [stateAfter, foldl_append, found]
  apply congrArg
  apply ScopedRule.step_stateAfter_of_ne [.classBody] initial find other
  · intro place listed
    exact inside place (mem_append_left _ listed)
  · exact inside index (mem_append_right _ mem_cons_self)

omit inner in
/-- At a token in no class but one, and that is no member of it, a check says nothing. -/
theorem filter_check_of_not_member
    (only : ∀ other, (ofSource source).Innermost [ScopeKind.classBody].contains index other →
      other = scope) (no_member : index ∉ (ofSource source).members listens scope) :
    ((Runner.ofRuleset (.ofRules selected) maxPasses).check path source).1.report.diagnostics.filter
        (Diagnostic.isAt info.code index) = [] := by
  by_cases heard : index ∈ (ofSource source).places listens
  · rcases append_of_mem heard with ⟨before, after, split⟩
    have outside : (ofSource source).enclosingScope? index
        [ScopeKind.classBody].contains = none := by
      rw [Option.eq_none_iff_forall_ne_some]
      intro other around
      rcases only other ((enclosingScope?_eq_some_iff Stream.isBraced_of_classBody).mp
        around) with rfl
      apply no_member
      exact List.mem_filter.mpr ⟨heard, beq_iff_eq.mpr around⟩
    rw [filter_check_at there builtIn chosen maxPasses path split]
    rw [ScopedRule.step_outside [.classBody] initial find _ index _ outside]
    rfl
  · exact filter_check_of_not_mem there builtIn chosen maxPasses path heard

end Standard

end PhpStyle
