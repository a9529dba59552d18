import PhpStyle.Proofs.ScopedWalks

/-!
# The order of the members of a class

Two rules look at the members of a class in order. Both pass over what is inside of a
method: the members that count are those that do not come before the end of the last
method that counts.

Methods are flagged if a method before them has a lower visibility, properties if a
method comes before them. Nothing is flagged inside of a method.
-/

namespace PhpStyle

open PhpStyle.Stream List

namespace Stream

/-- The members that count: each one that comes before the end of the last method that counts is
dropped. -/
def kept (stream : Stream) (skip : Option Nat) : List Nat → List Nat
  | [] => []
  | index :: rest =>
    if skip.any (index < ·) then stream.kept skip rest
    else
      index :: stream.kept
        (if stream.kind? index = some .functionKw then stream.declarationEnd? index else skip) rest

section Kept

variable {stream : Stream} {skip : Option Nat} {index : Nat} {rest : List Nat}

variable {indices : List Nat}

theorem kept_cons_of_passed (passed : skip.any (index < ·) = true) :
    stream.kept skip (index :: rest) = stream.kept skip rest := by
  rw [kept, if_pos passed]

theorem kept_cons_of_called (called : skip.any (index < ·) = false) :
    stream.kept skip (index :: rest) = index :: stream.kept
      (if stream.kind? index = some .functionKw then stream.declarationEnd? index else skip)
      rest := by
  rw [kept, if_neg (Bool.not_eq_true _ ▸ called)]

theorem kept_sublist (stream : Stream) (skip : Option Nat) (indices : List Nat) :
    (stream.kept skip indices).Sublist indices := by
  induction indices generalizing skip with
  | nil => exact List.Sublist.refl _
  | cons index rest ih =>
    cases passed : skip.any (index < ·) with
    | true =>
      rw [kept_cons_of_passed passed]
      exact (ih skip).cons index
    | false =>
      rw [kept_cons_of_called passed]
      exact (ih _).cons_cons index

/-- What counts behind a method comes at its end or later. -/
theorem le_of_mem_kept (sorted : indices.Pairwise (· < ·)) {last : Nat}
    (counts : index ∈ stream.kept (some last) indices) : last ≤ index := by
  induction indices with
  | nil => cases counts
  | cons first rest ih =>
    rcases List.pairwise_cons.mp sorted with ⟨first_lt, rest_sorted⟩
    cases passed : (some last).any (first < ·) with
    | true =>
      rw [kept_cons_of_passed passed] at counts
      exact ih rest_sorted counts
    | false =>
      have first_le : last ≤ first := by simpa using passed
      rw [kept_cons_of_called passed] at counts
      rcases List.mem_cons.mp counts with rfl | later
      · exact first_le
      · have := first_lt index ((kept_sublist _ _ _).mem later)
        omega

/-- What counts after a method that counts does not come before its end. -/
theorem pairwise_kept (sorted : indices.Pairwise (· < ·)) :
    (stream.kept skip indices).Pairwise fun first second =>
      stream.kind? first = some .functionKw →
        ∀ last, stream.declarationEnd? first = some last → last ≤ second := by
  induction indices generalizing skip with
  | nil => exact List.Pairwise.nil
  | cons index rest ih =>
    rcases List.pairwise_cons.mp sorted with ⟨-, rest_sorted⟩
    cases passed : skip.any (index < ·) with
    | true =>
      rw [kept_cons_of_passed passed]
      exact ih rest_sorted
    | false =>
      rw [kept_cons_of_called passed]
      refine List.pairwise_cons.mpr ⟨?_, ih rest_sorted⟩
      intro second later isMethod last ends
      rw [if_pos isMethod, ends] at later
      exact le_of_mem_kept rest_sorted later

theorem le_of_mem_kept_of_lt (sorted : indices.Pairwise (· < ·)) {method last : Nat}
    (method_counts : method ∈ stream.kept skip indices)
    (isMethod : stream.kind? method = some .functionKw)
    (ends : stream.declarationEnd? method = some last) (counts : index ∈ stream.kept skip indices)
    (later : method < index) : last ≤ index := by
  rcases append_of_mem method_counts with ⟨before, after, split⟩
  have ordered := sorted.sublist (kept_sublist stream skip indices)
  have apart : (stream.kept skip indices).Pairwise _ := pairwise_kept sorted
  rw [split] at ordered apart counts
  rcases List.mem_append.mp counts with earlier | behind
  · have := (List.pairwise_append.mp ordered).2.2 index earlier method mem_cons_self
    omega
  · rcases List.mem_cons.mp behind with rfl | behind
    · omega
    · have method_apart := (List.pairwise_append.mp apart).2.1
      exact (List.pairwise_cons.mp method_apart).1 index behind isMethod last ends

end Kept

section Walk

variable {State : Type} {stream : Stream}
  {find : Stream → Nat → State → List Finding × State × Option Nat}

/-- The state after some members that count. -/
def stateBehind (find : Stream → Nat → State → List Finding × State × Option Nat) (stream : Stream)
    (state : State) (members : List Nat) : State :=
  members.foldl (fun state index => (find stream index state).2.1) state

/-- A rule that passes over methods and the members that count agree on what comes next: a place
that was passed over before lies behind. -/
theorem any_lt_of_called {index place : Nat} {passing skip : Option Nat}
    (called : skip.any (index < ·) = false) (later : index < place) (passing_eq : passing =
      if stream.kind? index = some .functionKw then stream.declarationEnd? index else none) :
    passing.any (place < ·) =
      (if stream.kind? index = some .functionKw then stream.declarationEnd? index
        else skip).any (place < ·) := by
  rw [passing_eq]
  split
  · rfl
  · cases skip with
    | none => rfl
    | some last =>
      simp only [Option.any_some, decide_eq_false_iff_not] at called
      simp only [Option.any_none, Option.any_some, Bool.false_eq, decide_eq_false_iff_not]
      omega

/-- A rule that passes over methods finds nothing at members that do not count, and is called at the
others with what it has made of those before them. -/
theorem of_mem_walk_memberStep {indices : List Nat} (sorted : indices.Pairwise (· < ·))
    (skips : ∀ index ∈ indices, ∀ state, (find stream index state).2.2 =
      if stream.kind? index = some .functionKw then stream.declarationEnd? index else none)
    {passing skip : Option Nat}
    (same : ∀ index ∈ indices, passing.any (index < ·) = skip.any (index < ·))
    {state : State} {entry : Nat × List Finding}
    (called : entry ∈ walk (memberStep find stream) (passing, state) indices) :
    (entry.1 ∉ stream.kept skip indices → entry.2 = []) ∧
      ∀ before after, stream.kept skip indices = before ++ entry.1 :: after →
        entry.2 = (find stream entry.1 (stateBehind find stream state before)).1 := by
  induction indices generalizing passing skip state with
  | nil => cases called
  | cons index rest ih =>
    rcases List.pairwise_cons.mp sorted with ⟨index_lt, rest_sorted⟩
    have rest_skips : ∀ later ∈ rest, ∀ state, (find stream later state).2.2 = _ :=
      fun later listed => skips later (mem_cons_of_mem _ listed)
    have absent : index ∉ rest := by
      intro listed
      exact Nat.lt_irrefl _ (index_lt index listed)
    cases passed : skip.any (index < ·) with
    | true =>
      have passes : passing.any (index < ·) = true :=
        (same index mem_cons_self).trans passed
      rw [kept_cons_of_passed passed]
      rw [walk, memberStep_of_passed passes] at called
      rcases List.mem_cons.mp called with rfl | later
      · refine ⟨fun _ => rfl, ?_⟩
        intro before after split
        have listed : index ∈ stream.kept skip rest := by simp [split]
        exact absurd ((kept_sublist _ _ _).mem listed) absent
      · exact ih rest_sorted rest_skips
          (fun later listed => same later (mem_cons_of_mem _ listed)) later
    | false =>
      have calls : passing.any (index < ·) = false :=
        (same index mem_cons_self).trans passed
      rw [kept_cons_of_called passed]
      rw [walk, memberStep_of_called calls] at called
      rcases List.mem_cons.mp called with rfl | later
      · refine ⟨fun dropped => absurd mem_cons_self dropped, ?_⟩
        intro before after split
        cases before with
        | nil => rfl
        | cons first before =>
          rcases List.cons.inj split with ⟨rfl, rest_eq⟩
          have listed : index ∈ stream.kept (if stream.kind? index = some .functionKw
              then stream.declarationEnd? index else skip) rest := by simp [rest_eq]
          exact absurd ((kept_sublist _ _ _).mem listed) absent
      · have entry_later : entry.1 ∈ rest := by
          rw [← map_fst_walk (memberStep find stream) _ rest]
          exact mem_map_of_mem later
        have agrees : ∀ place ∈ rest, (find stream index state).2.2.any (place < ·) =
            (if stream.kind? index = some .functionKw then stream.declarationEnd? index
              else skip).any (place < ·) :=
          fun place listed => any_lt_of_called passed (index_lt place listed)
            (skips index mem_cons_self state)
        rcases ih rest_sorted rest_skips agrees later with ⟨dropped, counted⟩
        constructor
        · intro uncounted
          exact dropped fun listed => uncounted (mem_cons_of_mem _ listed)
        · intro before after split
          cases before with
          | nil =>
            rcases List.cons.inj split with ⟨same_index, -⟩
            exact absurd (same_index ▸ entry_later) absent
          | cons first before =>
            rcases List.cons.inj split with ⟨rfl, rest_eq⟩
            exact counted before after rest_eq

end Walk

end Stream

namespace Standard

section Members

variable {State : Type} {info : RuleInfo} {listens : List Kind} {initial : State}
  {find : Stream → Nat → State → List Finding × State × Option Nat} (there : SpeaksThere find)
  {selected : List Rule} (builtIn : selected.Subperm rules)
  (chosen : (ScopedRule.ofFindings info [.classBody] listens initial find).toRule ∈ selected)
  (maxPasses : Nat) (path : String) {source : List Char} {scope : Scope}
  (inner : (ofSource source).IsInnerClass scope)
  (skips : ∀ index ∈ (ofSource source).members listens scope, ∀ state,
    (find (ofSource source) index state).2.2 =
      if (ofSource source).kind? index = some .functionKw then
        (ofSource source).declarationEnd? index
      else none)

theorem sorted_members (stream : Stream) (kinds : List Kind) (scope : Scope) :
    (stream.members kinds scope).Pairwise (· < ·) :=
  (stream.sorted_places kinds).filter _

include there builtIn chosen inner skips

/-- At a member that counts a check says what the rule finds there, given the members that count
before it. -/
theorem filter_check_of_kept {before after : List Nat} {member : Nat}
    (split : (ofSource source).kept none
      ((ofSource source).members listens scope) = before ++ member :: after) :
    ((Runner.ofRuleset (.ofRules selected) maxPasses).check path source).1.report.diagnostics.filter
        (Diagnostic.isAt info.code member) =
      info.diagnostics (ofSource source) (find (ofSource source) member
        (Stream.stateBehind find (ofSource source) initial before)).1 := by
  have listed : member ∈ (ofSource source).members listens scope := by
    apply (Stream.kept_sublist _ none _).mem
    rw [split]
    exact mem_append_right _ mem_cons_self
  rcases exists_mem_walk (memberStep find (ofSource source)) (none, initial) listed with
    ⟨findings, called⟩
  have found : findings = _ := (Stream.of_mem_walk_memberStep (sorted_members _ listens scope) skips
    (fun _ _ => rfl) called).2 before after split
  rw [← found]
  exact filter_check_of_member there builtIn chosen maxPasses path inner called

/-- At the other tokens that are in no other class it says nothing. -/
theorem filter_check_of_dropped {index : Nat}
    (only : ∀ other, (ofSource source).Innermost [ScopeKind.classBody].contains index other →
      other = scope) (dropped : index ∉ (ofSource source).kept none
      ((ofSource source).members listens scope)) :
    ((Runner.ofRuleset (.ofRules selected) maxPasses).check path source).1.report.diagnostics.filter
        (Diagnostic.isAt info.code index) = [] := by
  by_cases listed : index ∈ (ofSource source).members listens scope
  · rcases exists_mem_walk (memberStep find (ofSource source)) (none, initial) listed with
      ⟨findings, called⟩
    have found : findings = [] := (Stream.of_mem_walk_memberStep (sorted_members _ listens scope)
      skips (fun _ _ => rfl) called).1 dropped
    rw [found] at called
    exact filter_check_of_member there builtIn chosen maxPasses path inner called
  · exact filter_check_of_not_member there builtIn chosen maxPasses path only listed

end Members

end Standard

namespace Standard.MethodOrder

variable {stream : Stream}

/-- The visibility of a method. -/
def visibilityAt (stream : Stream) (index : Nat) : Visibility :=
  ((stream.modifiers? index).map Modifiers.visibility).getD .publicAccess

/-- What is said at a method that comes too late. -/
def misplaced (index : Nat) : Violation where
  message := "Methods must be ordered public, protected, private"
  anchor := index
  code := "OrderMethodsByVisibility"

theorem find_eq (stream : Stream) (index : Nat) (lowest : Option Visibility) :
    find stream index lowest =
      if lowest.any fun current => (visibilityAt stream index).rank < current.rank then
        ([.violation (misplaced index)], lowest, stream.declarationEnd? index)
      else ([], some (visibilityAt stream index), stream.declarationEnd? index) :=
  rfl

theorem speaksThere : SpeaksThere find := by
  intro stream index lowest
  rw [find_eq]
  split
  · exact .inr ⟨misplaced index, rfl, rfl⟩
  · exact .inl rfl

/-- The lowest visibility so far is the one of the greatest rank. -/
theorem any_stateBehind_iff (limit : Nat) (lowest : Option Visibility) (methods : List Nat) :
    (Stream.stateBehind find stream lowest methods).any (fun current => limit < current.rank) =
        true ↔
      lowest.any (fun current => limit < current.rank) = true ∨
        ∃ method ∈ methods, limit < (visibilityAt stream method).rank := by
  induction methods generalizing lowest with
  | nil => simp [Stream.stateBehind]
  | cons method rest ih =>
    have after : Stream.stateBehind find stream lowest (method :: rest) =
        Stream.stateBehind find stream (find stream method lowest).2.1 rest := rfl
    rw [after, ih, find_eq, exists_mem_cons_iff]
    cases lowest with
    | none => simp
    | some current =>
      simp only [Option.any_some, decide_eq_true_eq]
      split
      · next earlier =>
          simp only [Option.any_some, decide_eq_true_eq]
          constructor
          · rintro (low | later)
            · exact .inl low
            · exact .inr (.inr later)
          · rintro (low | lower | later)
            · exact .inl low
            · exact .inl (by omega)
            · exact .inr later
      · next ordered =>
          simp only [Option.any_some, decide_eq_true_eq]
          constructor
          · rintro (lower | later)
            · exact .inr (.inl lower)
            · exact .inr (.inr later)
          · rintro (low | lower | later)
            · exact .inl (by omega)
            · exact .inl lower
            · exact .inr later

/-- Methods are flagged where a method with a lower visibility comes before them. What is inside of
another method does not count as a method of the class, and is not flagged. -/
theorem method_order_flags_inversions (selected : List Rule) (builtIn : selected.Subperm rules)
    (chosen : rule ∈ selected) (maxPasses : Nat) (path : String) (source : List Char)
    {scope : Scope} (inner : (Stream.ofSource source).IsInnerClass scope) :
    let stream := Stream.ofSource source
    let report := ((Runner.ofRuleset (.ofRules selected) maxPasses).check path source).1.report
    let said (index : Nat) := report.diagnostics.filter (Diagnostic.isAt info.code index)
    let rank (index : Nat) := (visibilityAt stream index).rank
    let methods := stream.members [.functionKw] scope
    (∀ index, index ∈ methods ↔ stream.kind? index = some .functionKw ∧
        stream.Innermost (· == .classBody) index scope) ∧
      methods.Pairwise (· < ·) ∧
      (∀ before method after, stream.kept none methods = before ++ method :: after →
        said method =
          if ∃ earlier ∈ before, rank method < rank earlier then
            [stream.diagnosticAt .error info.code "OrderMethodsByVisibility"
              "Methods must be ordered public, protected, private" method false]
          else []) ∧
      ∀ index, scope.contains index = true → index ∉ stream.kept none methods →
        said index = [] := by
  intro stream report said rank methods
  have members_iff : ∀ index, index ∈ methods ↔ stream.kind? index = some .functionKw ∧
      stream.Innermost (· == .classBody) index scope := by
    intro index
    rw [← Stream.contains_classBody]
    apply Stream.mem_members_iff.trans
    simp only [mem_singleton, exists_eq_left]
    rfl
  have skips : ∀ index ∈ methods, ∀ lowest, (find stream index lowest).2.2 =
      if stream.kind? index = some .functionKw then stream.declarationEnd? index else none := by
    intro index listed lowest
    rw [if_pos ((members_iff index).mp listed).1, find_eq]
    split <;> rfl
  refine ⟨members_iff, sorted_members _ _ _, ?_, ?_⟩
  · intro before method after split
    have said_eq : said method = _ :=
      filter_check_of_kept speaksThere builtIn chosen maxPasses path inner skips split
    have flagged_iff : (Stream.stateBehind find stream none before).any
        (fun current => rank method < current.rank) = true ↔ _ :=
      any_stateBehind_iff (rank method) none before
    rw [Option.any_none, Bool.false_eq_true, false_or] at flagged_iff
    rw [said_eq, find_eq]
    by_cases inverted : ∃ earlier ∈ before, rank method < rank earlier
    · rw [if_pos inverted]
      have := flagged_iff.mpr inverted
      rw [if_pos this]
      rfl
    · rw [if_neg inverted]
      have := mt flagged_iff.mp inverted
      rw [if_neg this]
      rfl
  · intro index inside dropped
    exact filter_check_of_dropped speaksThere builtIn chosen maxPasses path inner skips
      (inner.eq_of_innermost inside) dropped

/-- The public method is flagged, the function inside of the private one is not. -/
theorem method_order_flags_inversions_nested :
    let source :=
      "<?php class A \x7b private function f() \x7b function g() \x7b\x7d \x7d function h() \x7b\x7d \x7d".toList
    let scope : Scope := ⟨⟨6, 38⟩, .classBody, 2⟩
    let report := ((Runner.ofRuleset (.ofRules [rule]) 1).check "a.php" source).1.report
    let said (index : Nat) := report.diagnostics.filter (Diagnostic.isAt info.code index)
    (Stream.ofSource source).IsInnerClass scope ∧
      said 29 = [(Stream.ofSource source).diagnosticAt .error info.code "OrderMethodsByVisibility"
        "Methods must be ordered public, protected, private" 29 false] ∧
      said 18 = [] := by
  intro source scope report said
  have facts : (Stream.ofSource source).IsInnerClass scope ∧
      (Stream.ofSource source).kept none
        ((Stream.ofSource source).members [.functionKw] scope) = [10] ++ 29 :: [] ∧
      (visibilityAt (Stream.ofSource source) 29).rank <
        (visibilityAt (Stream.ofSource source) 10).rank := by decide +kernel
  rcases facts with ⟨inner, counts, lower⟩
  have builtIn : [rule].Subperm rules := List.singleton_subperm_iff.mpr (by simp [rules])
  have flags := method_order_flags_inversions [rule] builtIn (by simp) 1 "a.php" source inner
  refine ⟨inner, ?_, ?_⟩
  · apply (flags.2.2.1 [10] 29 [] counts).trans
    rw [if_pos]
    exact ⟨10, mem_singleton_self _, lower⟩
  · apply flags.2.2.2 18 (by decide)
    rw [counts]
    decide

end Standard.MethodOrder

namespace Standard.PropertyOrder

variable {stream : Stream}

/-- What is said at a property that comes after a method. -/
def late (index : Nat) : Violation where
  message := "Class properties must be declared before methods"
  anchor := index
  code := "DeclarePropertiesBeforeMethods"

variable {index : Nat}

theorem find_of_method (isMethod : stream.kind? index = some .functionKw) (methodSeen : Bool) :
    find stream index methodSeen = ([], true, stream.declarationEnd? index) := by
  rw [find, if_pos isMethod]

theorem find_of_property (isProperty : stream.kind? index ≠ some .functionKw) (methodSeen : Bool) :
    find stream index methodSeen =
      (if methodSeen then [.violation (late index)] else [], methodSeen, none) := by
  rw [find, if_neg isProperty]
  cases methodSeen <;> rfl

theorem speaksThere : SpeaksThere find := by
  intro stream index methodSeen
  by_cases isMethod : stream.kind? index = some .functionKw
  · rw [find_of_method isMethod]
    exact .inl rfl
  · rw [find_of_property isMethod]
    cases methodSeen with
    | false => exact .inl rfl
    | true => exact .inr ⟨late index, rfl, rfl⟩

/-- A method has been seen if one is among the members. -/
theorem stateBehind_eq_true_iff (methodSeen : Bool) (members : List Nat) :
    Stream.stateBehind find stream methodSeen members = true ↔
      methodSeen = true ∨ ∃ member ∈ members, stream.kind? member = some .functionKw := by
  induction members generalizing methodSeen with
  | nil => simp [Stream.stateBehind]
  | cons member rest ih =>
    have after : Stream.stateBehind find stream methodSeen (member :: rest) =
        Stream.stateBehind find stream (find stream member methodSeen).2.1 rest := rfl
    rw [after, ih, exists_mem_cons_iff]
    by_cases isMethod : stream.kind? member = some .functionKw
    · rw [find_of_method isMethod]
      simp [isMethod]
    · rw [find_of_property isMethod]
      simp [isMethod]

theorem declarationEnd?_of_scopeOf? {body : Scope}
    (isMethod : stream.kind? index = some .functionKw)
    (opened : stream.scopeOf? index = some body) :
    stream.declarationEnd? index = some body.closer := by
  rcases scopeOf?_eq_some_iff.mp opened with ⟨-, token, found, -, span_eq⟩
  rcases Option.map_eq_some_iff.mp isMethod with ⟨other, other_found, kind⟩
  rcases Option.some.inj (found.symm.trans other_found) with rfl
  have owns : token.kind.ownsBraces = true := by
    rw [kind]
    rfl
  rw [Token.scopeSpan?_of_ownsBraces owns] at span_eq
  simp [declarationEnd?, found, span_eq]

/-- Properties are flagged where a method comes before them, and nothing else is flagged. In
particular nothing is flagged between a method and the end of its body. -/
theorem property_order_flags_late_properties (selected : List Rule)
    (builtIn : selected.Subperm rules) (chosen : rule ∈ selected) (maxPasses : Nat) (path : String)
    (source : List Char) {scope : Scope} (inner : (Stream.ofSource source).IsInnerClass scope) :
    let stream := Stream.ofSource source
    let report := ((Runner.ofRuleset (.ofRules selected) maxPasses).check path source).1.report
    let said (index : Nat) := report.diagnostics.filter (Diagnostic.isAt info.code index)
    let members := stream.members [.functionKw, .variableName] scope
    (∀ index, index ∈ members ↔
        (stream.kind? index = some .functionKw ∨ stream.kind? index = some .variableName) ∧
          stream.Innermost (· == .classBody) index scope) ∧
      members.Pairwise (· < ·) ∧
      (∀ before member after, stream.kept none members = before ++ member :: after →
        said member =
          if stream.kind? member = some .variableName ∧
              ∃ method ∈ before, stream.kind? method = some .functionKw then
            [stream.diagnosticAt .error info.code "DeclarePropertiesBeforeMethods"
              "Class properties must be declared before methods" member false]
          else []) ∧
      (∀ index, scope.contains index = true → index ∉ stream.kept none members →
        said index = []) ∧
      ∀ method ∈ stream.kept none members, stream.kind? method = some .functionKw →
        ∀ body, stream.scopeOf? method = some body → ∀ index, method < index →
          index < body.closer →
          (∀ other, stream.Innermost (· == .classBody) index other → other = scope) →
          said index = [] := by
  intro stream report said members
  have members_iff : ∀ index, index ∈ members ↔
      (stream.kind? index = some .functionKw ∨ stream.kind? index = some .variableName) ∧
        stream.Innermost (· == .classBody) index scope := by
    intro index
    rw [← Stream.contains_classBody]
    apply Stream.mem_members_iff.trans
    simp only [mem_cons, not_mem_nil, or_false, exists_eq_or_imp, exists_eq_left]
    rfl
  have skips : ∀ index ∈ members, ∀ methodSeen, (find stream index methodSeen).2.2 =
      if stream.kind? index = some .functionKw then stream.declarationEnd? index else none := by
    intro index _ methodSeen
    by_cases isMethod : stream.kind? index = some .functionKw
    · rw [if_pos isMethod, find_of_method isMethod]
    · rw [if_neg isMethod, find_of_property isMethod]
  refine ⟨members_iff, sorted_members _ _ _, ?_, ?_, ?_⟩
  · intro before member after split
    have said_eq : said member = _ :=
      filter_check_of_kept speaksThere builtIn chosen maxPasses path inner skips split
    have listed : member ∈ members := by
      apply (Stream.kept_sublist _ none _).mem
      rw [split]
      exact mem_append_right _ mem_cons_self
    rcases ((members_iff member).mp listed).1 with isMethod | isProperty
    · rw [said_eq, find_of_method isMethod, if_neg (by simp [isMethod])]
      rfl
    · have noMethod : stream.kind? member ≠ some .functionKw := by simp [isProperty]
      have seen_iff : Stream.stateBehind find stream false before = true ↔ _ :=
        stateBehind_eq_true_iff false before
      rw [Bool.false_eq_true, false_or] at seen_iff
      rw [said_eq, find_of_property noMethod]
      by_cases seen : ∃ method ∈ before, stream.kind? method = some .functionKw
      · rw [if_pos (seen_iff.mpr seen), if_pos ⟨isProperty, seen⟩]
        rfl
      · rw [if_neg (mt seen_iff.mp seen), if_neg (fun late => seen late.2)]
        rfl
  · intro index inside dropped
    exact filter_check_of_dropped speaksThere builtIn chosen maxPasses path inner skips
      (inner.eq_of_innermost inside) dropped
  · intro method counts isMethod body opened index lower upper only
    rw [← Stream.contains_classBody] at only
    apply filter_check_of_dropped speaksThere builtIn chosen maxPasses path inner skips only
    intro index_counts
    have := Stream.le_of_mem_kept_of_lt (sorted_members _ _ _) counts isMethod
      (declarationEnd?_of_scopeOf? isMethod opened) index_counts lower
    omega

/-- The property is flagged, the parameter and the local variable of the method are not. -/
theorem property_order_flags_late_properties_locals :
    let source := "<?php class A \x7b function f($x) \x7b $y; \x7d public $z; \x7d".toList
    let scope : Scope := ⟨⟨6, 27⟩, .classBody, 2⟩
    let report := ((Runner.ofRuleset (.ofRules [rule]) 1).check "a.php" source).1.report
    let said (index : Nat) := report.diagnostics.filter (Diagnostic.isAt info.code index)
    (Stream.ofSource source).IsInnerClass scope ∧
      said 24 = [(Stream.ofSource source).diagnosticAt .error info.code
        "DeclarePropertiesBeforeMethods" "Class properties must be declared before methods" 24
        false] ∧
      said 12 = [] ∧ said 17 = [] := by
  intro source scope report said
  have facts : (Stream.ofSource source).IsInnerClass scope ∧
      (Stream.ofSource source).kept none
        ((Stream.ofSource source).members [.functionKw, .variableName] scope) = [8] ++ 24 :: [] ∧
      (Stream.ofSource source).kind? 8 = some .functionKw ∧
      (Stream.ofSource source).kind? 24 = some .variableName ∧
      (Stream.ofSource source).scopeOf? 8 = some ⟨⟨15, 20⟩, .functionBody, 8⟩ := by decide +kernel
  rcases facts with ⟨inner, counts, isMethod, isProperty, opened⟩
  have builtIn : [rule].Subperm rules := List.singleton_subperm_iff.mpr (by simp [rules])
  have flags := property_order_flags_late_properties [rule] builtIn (by simp) 1 "a.php" source inner
  have method_counts : 8 ∈ (Stream.ofSource source).kept none
      ((Stream.ofSource source).members [.functionKw, .variableName] scope) := by
    rw [counts]
    decide
  have only (index : Nat) (inside : scope.contains index = true) (other : Scope) :
      (Stream.ofSource source).Innermost (· == .classBody) index other → other = scope := by
    rw [← Stream.contains_classBody]
    exact inner.eq_of_innermost inside other
  have quiet := flags.2.2.2.2 8 method_counts isMethod _ opened
  refine ⟨inner, ?_, ?_, ?_⟩
  · apply (flags.2.2.1 [8] 24 [] counts).trans
    rw [if_pos]
    exact ⟨isProperty, 8, mem_singleton_self _, isMethod⟩
  · exact quiet 12 (by decide) (by decide) (only 12 (by decide))
  · exact quiet 17 (by decide) (by decide) (only 17 (by decide))

end Standard.PropertyOrder

end PhpStyle
