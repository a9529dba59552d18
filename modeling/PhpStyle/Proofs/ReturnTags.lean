import PhpStyle.Proofs.Scopes
import PhpStyle.Proofs.Walks

/-!
# Diagnostics on return tags

The rule on function comments reads the `@return` tags of a comment against the body
of the function. A function returns a value if a `return` of its own, that is one that
is in no other function or closure inside of it, is followed by something other than a
semicolon.

What a check says about the `@return` tags of a comment is one diagnostic at most, and
the function below the comment decides which: a doc comment belongs to one declaration,
so no other function can say anything about its tags.
-/

namespace PhpStyle.Standard.FunctionComment

open PhpStyle.Stream List

section Values

variable {lexemes : List Lexeme} {index : Nat}

/-- The function at an index returns a value: a `return` for which its body is the innermost one of
a function or closure is followed by a significant token other than `;`. -/
def ReturnsValue (lexemes : List Lexeme) (index : Nat) : Prop :=
  ∃ body place next, (ofLexemes lexemes).scopeOf? index = some body ∧
    (ofLexemes lexemes).Innermost ScopeKind.isFunctionLike place body ∧
    (ofLexemes lexemes).kind? place = some .returnKw ∧
    Neighbours (settledKinds lexemes) place next ∧
    (ofLexemes lexemes).kind? next ≠ some .semicolon

/-- Up to a significant token, the search for the next one finds the neighbour. -/
theorem nextSignificant_eq_some_iff {place last next : Nat}
    (significant : SignificantAt (settledKinds lexemes) place)
    (bound : SignificantAt (settledKinds lexemes) last) (before : place < last) :
    (ofLexemes lexemes).nextSignificant (place + 1) (some last) = some next ↔
      Neighbours (settledKinds lexemes) place next := by
  rw [nextSignificant, findNext_eq_some_iff, hasKind_isSignificant_iff]
  constructor
  · rintro ⟨lower, -, next_significant, between⟩
    refine ⟨lower, significant, next_significant, ?_⟩
    intro other other_lower other_upper other_significant
    have none_there := between other other_lower other_upper
    rw [hasKind_isSignificant_iff.mpr other_significant] at none_there
    cases none_there
  · rintro ⟨lower, -, next_significant, between⟩
    refine ⟨lower, ?_, next_significant, ?_⟩
    · by_contra later
      exact between last before (by omega) bound
    · intro other other_lower other_upper
      by_contra other_significant
      rw [Bool.not_eq_false, hasKind_isSignificant_iff] at other_significant
      exact between other other_lower other_upper other_significant

theorem significantAt_closer {body : Scope}
    (opened : (ofLexemes lexemes).scopeOf? body.owner = some body)
    (functionLike : body.kind.isFunctionLike = true) :
    SignificantAt (settledKinds lexemes) body.closer := by
  have braced : body.kind.isBraced = true := by simp [ScopeKind.isBraced, functionLike]
  have paired := ((scopeOf?_iff_of_isBraced braced).mp opened).1
  have closes := (pair_of_mem paired).2.2
  rw [getElem?_map, Option.map_eq_some_iff] at closes
  rcases closes with ⟨kind, found, side⟩
  refine ⟨kind, found, ?_⟩
  revert side
  cases kind <;> decide

theorem returnsValue_eq_true_iff :
    returnsValue (ofLexemes lexemes) index = true ↔ ReturnsValue lexemes index := by
  simp only [returnsValue, Option.any_eq_true, any_eq_true, Bool.and_eq_true, beq_iff_eq,
    mem_range'_1, bne_iff_ne]
  constructor
  · rintro ⟨body, opened, place, -, ⟨returns, owned⟩, kind, behind, other⟩
    rcases scopeOf?_eq_some_iff.mp opened with ⟨rfl, -⟩
    have innermost := (owningFunction?_eq_some_iff opened).mp owned
    have around := innermost.around
    simp only [Span.contains, Bool.and_eq_true, decide_eq_true_eq] at around
    have significant : SignificantAt (settledKinds lexemes) place :=
      ⟨.returnKw, by rw [← kind?_ofLexemes, returns], rfl⟩
    rcases Option.bind_eq_some_iff.mp behind with ⟨next, search, next_kind⟩
    have neighbours := (nextSignificant_eq_some_iff significant
      (significantAt_closer opened innermost.isWanted) around.2).mp search
    refine ⟨body, place, next, opened, innermost, returns, neighbours, ?_⟩
    rw [next_kind]
    exact fun same => other (Option.some.inj same)
  · rintro ⟨body, place, next, opened, innermost, returns, neighbours, other⟩
    rcases scopeOf?_eq_some_iff.mp opened with ⟨rfl, -⟩
    have around := innermost.around
    simp only [Span.contains, Bool.and_eq_true, decide_eq_true_eq] at around
    have search := (nextSignificant_eq_some_iff neighbours.left_significant
      (significantAt_closer opened innermost.isWanted) around.2).mpr neighbours
    rcases neighbours.right_significant with ⟨kind, next_kind, -⟩
    rw [← kind?_ofLexemes] at next_kind
    refine ⟨body, opened, place, ⟨around.1, by omega⟩,
      ⟨returns, (owningFunction?_eq_some_iff opened).mpr innermost⟩, kind, ?_, ?_⟩
    · rw [search, Option.bind_some, next_kind]
    · rintro rfl
      exact other next_kind

end Values

/-- The codes of the diagnostics on return tags. -/
def returnCodes : List String :=
  ["DuplicateReturn", "MissingReturnType", "OmitReturn", "MissingReturn"]

/-- Whether a finding is about return tags. -/
def concernsReturn : Finding → Bool
  | .metric _ => false
  | .violation violation => returnCodes.contains violation.code

/-- Whether a diagnostic of the rule is about return tags. -/
def isReturnDiagnostic (diagnostic : Diagnostic) : Bool :=
  returnCodes.any fun code => diagnostic.code == s!"{info.code}.{code}"

/-- Whether a diagnostic of the rule is about the return tags of a comment. -/
def isReturnDiagnosticIn (comment : Comment) (diagnostic : Diagnostic) : Bool :=
  (decide (comment.opener ≤ diagnostic.anchor) && decide (diagnostic.anchor ≤ comment.closer)) &&
    isReturnDiagnostic diagnostic

variable {comment : Comment} {stream : Stream} {index : Nat}

theorem filter_isReturnDiagnosticIn (comment : Comment) (diagnostics : List Diagnostic) :
    diagnostics.filter (isReturnDiagnosticIn comment) =
      (diagnostics.filter isReturnDiagnostic).filter fun diagnostic =>
        decide (comment.opener ≤ diagnostic.anchor) &&
          decide (diagnostic.anchor ≤ comment.closer) := by
  rw [filter_filter]
  rfl

theorem isUnder_of_isReturnDiagnosticIn {diagnostic : Diagnostic}
    (concerns : isReturnDiagnosticIn comment diagnostic = true) :
    diagnostic.isUnder info.code = true := by
  simp only [isReturnDiagnosticIn, isReturnDiagnostic, Bool.and_eq_true, any_eq_true,
    beq_iff_eq] at concerns
  rcases concerns.2 with ⟨code, -, code_eq⟩
  rw [Diagnostic.isUnder, code_eq, isPrefixOf_iff_prefix]
  exact ⟨code.toList, by simp [toString, String.toList_append]⟩

theorem isReturnDiagnostic_diagnosticAt (stream : Stream) (severity : Severity)
    (code message : String) (anchor : Nat) (isFixable : Bool) :
    isReturnDiagnostic (stream.diagnosticAt severity info.code code message anchor isFixable) =
      returnCodes.contains code := by
  have same_iff (other : String) : s!"{info.code}.{code}" = s!"{info.code}.{other}" ↔
      code = other := by
    constructor
    · intro same
      have lists := congrArg String.toList same
      simp only [toString, String.toList_append, append_cancel_left_eq] at lists
      exact String.toList_injective lists
    · intro same
      rw [same]
  rw [Bool.eq_iff_iff]
  simp only [isReturnDiagnostic, diagnosticAt, any_eq_true, beq_iff_eq, same_iff, contains_iff_mem]
  constructor
  · rintro ⟨other, listed, rfl⟩
    exact listed
  · intro listed
    exact ⟨code, listed, rfl⟩

theorem filter_diagnostics (stream : Stream) (findings : List Finding) :
    (info.diagnostics stream findings).filter isReturnDiagnostic =
      info.diagnostics stream (findings.filter concernsReturn) := by
  induction findings with
  | nil => rfl
  | cons finding findings ih =>
    cases finding with
    | metric metric => exact ih
    | violation violation =>
      change List.filter _ (_ :: info.diagnostics stream findings) = _
      rw [filter_cons, isReturnDiagnostic_diagnosticAt, ih, filter_cons, concernsReturn]
      cases returnCodes.contains violation.code <;> rfl

/-- The codes of violations of a table of tags, told from those on return tags by their last
letter. -/
def IsTabular (code : String) : Prop :=
  ∃ stem last, code.toList = stem ++ [last] ∧ (last = 's' ∨ last = 'g' ∨ last = 'r')

theorem IsTabular.not_mem_returnCodes {code : String} (tabular : IsTabular code) :
    code ∉ returnCodes := by
  rcases tabular with ⟨stem, last, code_eq, ends⟩
  have other : ∀ listed ∈ returnCodes, listed.toList.getLast? = some 'n' ∨
      listed.toList.getLast? = some 'e' := by decide
  intro listed
  have last_eq := other code listed
  rw [code_eq, getLast?_concat] at last_eq
  rcases ends with rfl | rfl | rfl <;> simp at last_eq

theorem isTabular_append {code : String} (stem : String) (tabular : IsTabular code) :
    IsTabular (stem ++ code) := by
  rcases tabular with ⟨front, last, code_eq, ends⟩
  exact ⟨stem.toList ++ front, last, by rw [String.toList_append, code_eq, List.append_assoc], ends⟩

theorem isTabular_tag : IsTabular "Tag" :=
  ⟨['T', 'a'], 'g', by decide, .inr (.inl rfl)⟩

/-- A verdict that is about the table: a tag is taken from it, or it is violated. -/
def IsOnTable : Verdict → Prop
  | .taken _ => True
  | .violation violation => IsTabular violation.code
  | .finished => False

section Table

variable {table : TagTable} {verdict : Verdict}

theorem isOnTable_of_mem_emptySee {tag : Tag} (found : verdict ∈ table.emptySee tag) :
    IsOnTable verdict := by
  unfold TagTable.emptySee at found
  split at found
  · rcases List.mem_singleton.mp found with rfl
    exact ⟨"EmptySee".toList, 's', by simp, .inl rfl⟩
  · cases found

theorem isOnTable_of_mem_duplicate {spec : TagSpec} {tag : Tag} {seen : List String}
    (found : verdict ∈ table.duplicate spec tag seen) : IsOnTable verdict := by
  unfold TagTable.duplicate at found
  split at found
  · rcases List.mem_singleton.mp found with rfl
    exact isTabular_append _ isTabular_tag
  · cases found

theorem isOnTable_misplaced (name : String) (tag : Tag) (furthest : String) :
    IsOnTable (TagTable.misplaced name tag furthest) :=
  isTabular_append _ ⟨"TagOrde".toList, 'r', by decide, .inr (.inr rfl)⟩

theorem isOnTable_of_mem_judge {takes : String → Bool} {tags : List Tag} :
    ∀ {seen : List String} {furthest : Option (Nat × String)},
      verdict ∈ table.judge takes seen furthest tags → IsOnTable verdict := by
  induction tags with
  | nil =>
    intro seen furthest found
    cases found
  | cons tag rest ih =>
    intro seen furthest found
    rw [TagTable.judge] at found
    split at found
    · rcases List.mem_cons.mp found with rfl | later
      · trivial
      · exact ih later
    rcases List.mem_append.mp found with here | behind
    · exact isOnTable_of_mem_emptySee here
    split at behind
    · exact ih behind
    rcases List.mem_append.mp behind with here | later
    · exact isOnTable_of_mem_duplicate here
    split at later
    · split at later
      · rcases List.mem_cons.mp later with rfl | later
        · exact isOnTable_misplaced _ _ _
        · exact ih later
      · exact ih later
    · exact ih later

theorem isOnTable_of_mem_missing (found : verdict ∈ table.missing comment) : IsOnTable verdict := by
  rcases List.mem_map.mp found with ⟨spec, -, rfl⟩
  exact isTabular_append _ isTabular_tag

/-- A rule that handles none of the tags itself says about return tags what it says last. -/
theorem filter_findings_table (takes : String → Bool) (onFinished : List Finding)
    (comment : Comment) :
    (table.findings takes (fun _ => []) onFinished comment).filter concernsReturn =
      onFinished.filter concernsReturn := by
  rw [TagTable.findings, TagTable.validate, flatMap_append, filter_append, flatMap_singleton]
  apply List.append_left_eq_self.mpr
  rw [filter_eq_nil_iff]
  intro finding found
  rcases List.mem_flatMap.mp found with ⟨verdict, listed, said⟩
  have onTable : IsOnTable verdict := by
    rcases List.mem_append.mp listed with judged | missing
    · exact isOnTable_of_mem_judge judged
    · exact isOnTable_of_mem_missing missing
  cases verdict with
  | taken tag => cases said
  | finished => cases onTable
  | violation violation =>
    rcases List.mem_singleton.mp said with rfl
    simpa [concernsReturn] using onTable.not_mem_returnCodes

end Table

/-- The rule reads the doc comment above a function: the comment or declaration before the function
is no comment that inherits its text, the function is public or a doc comment precedes it, and the
comment is what its modifiers and attributes stand below. -/
structure Obtains (stream : Stream) (index : Nat) (comment : Comment) : Prop where
  declares : stream.kind? index = some .functionKw
  wanted : ∃ boundary, boundary? stream index = some boundary ∧
    (isPublic stream index = true ∨ stream.kind? boundary = some .docClose) ∧
    ¬(stream.kind? boundary = some .docClose ∧ inheritsAt stream boundary = true)
  search : stream.commentEnd? index maySeparate = some comment.closer
  closes : stream.kind? comment.closer = some .docClose
  found : stream.commentAt? comment.closer = some comment

instance (stream : Stream) (index : Nat) (comment : Comment) :
    Decidable (Obtains stream index comment) :=
  decidable_of_iff (stream.kind? index = some .functionKw ∧
    (∃ boundary ∈ boundary? stream index,
      (isPublic stream index = true ∨ stream.kind? boundary = some .docClose) ∧
      ¬(stream.kind? boundary = some .docClose ∧ inheritsAt stream boundary = true)) ∧
    stream.commentEnd? index maySeparate = some comment.closer ∧
    stream.kind? comment.closer = some .docClose ∧
    stream.commentAt? comment.closer = some comment)
  ⟨fun ⟨declares, wanted, search, closes, found⟩ => ⟨declares, wanted, search, closes, found⟩,
    fun ⟨declares, wanted, search, closes, found⟩ => ⟨declares, wanted, search, closes, found⟩⟩

/-- The doc comment stands right above the function, its modifiers and attributes apart. -/
structure IsOver (stream : Stream) (comment : Comment) (index : Nat) : Prop where
  declares : stream.kind? index = some .functionKw
  search : stream.commentEnd? index maySeparate = some comment.closer
  closes : stream.kind? comment.closer = some .docClose
  found : stream.commentAt? comment.closer = some comment

/-- What is said about return tags is one violation at most, at a tag or at the closer. -/
theorem onReturn_cases (stream : Stream) (index : Nat) (comment : Comment) :
    onReturn stream index comment = [] ∨ ∃ violation : Violation,
      onReturn stream index comment = [.violation violation] ∧ violation.code ∈ returnCodes ∧
        (violation.anchor = comment.closer ∨ ∃ tag ∈ comment.tags, violation.anchor = tag.token) := by
  have inside {tag : Tag} (named : tag ∈ comment.tagsNamed "@return") : tag ∈ comment.tags :=
    (List.mem_filter.mp named).1
  rw [onReturn]
  split
  · exact .inl rfl
  split
  · next first second rest tags =>
      have named : second ∈ comment.tagsNamed "@return" := by simp [tags]
      exact .inr ⟨_, rfl, by simp [returnCodes], .inr ⟨second, inside named, rfl⟩⟩
  split
  · exact .inl rfl
  split
  · next tag rest tags _ =>
      have named : tag ∈ comment.tagsNamed "@return" := by simp [tags]
      split
      · exact .inr ⟨_, rfl, by simp [returnCodes], .inr ⟨tag, inside named, rfl⟩⟩
      · exact .inl rfl
  · next tag rest tags _ =>
      have named : tag ∈ comment.tagsNamed "@return" := by simp [tags]
      exact .inr ⟨_, rfl, by simp [returnCodes], .inr ⟨tag, inside named, rfl⟩⟩
  · exact .inr ⟨_, rfl, by simp [returnCodes], .inl rfl⟩
  · exact .inl rfl

theorem filter_onReturn (stream : Stream) (index : Nat) (comment : Comment) :
    (onReturn stream index comment).filter concernsReturn = onReturn stream index comment := by
  rcases onReturn_cases stream index comment with none_said | ⟨violation, said, listed, -⟩
  · rw [none_said, filter_nil]
  · have concerns : concernsReturn (.violation violation) = true :=
      List.contains_iff_mem.mpr listed
    rw [said, filter_cons_of_pos concerns, filter_nil]

theorem filter_onComment {closer declaration : Nat}
    (below : stream.nextSignificant (closer + 1) (some index) = some declaration)
    (found : stream.commentAt? closer = some comment) :
    (onComment stream index closer).filter concernsReturn = onReturn stream index comment := by
  have quiet : (spacing stream closer declaration).filter concernsReturn = [] := by
    rw [spacing]
    split <;> rfl
  rw [onComment, below, found]
  change List.filter concernsReturn (documented index "yes" :: (_ ++ _)) = _
  rw [filter_cons_of_neg (by simp [documented, concernsReturn]), filter_append, quiet,
    nil_append, filter_findings_table, filter_onReturn]

theorem exists_comment_of_mem_onComment {closer : Nat} {finding : Finding}
    (said : finding ∈ onComment stream index closer) (concerns : concernsReturn finding = true) :
    ∃ comment, stream.commentAt? closer = some comment := by
  rw [onComment] at said
  rcases List.mem_cons.mp said with rfl | said
  · cases concerns
  split at said
  · cases said
  rcases List.mem_append.mp said with spaced | said
  · rw [spacing] at spaced
    split at spaced
    · cases spaced
    · rcases List.mem_singleton.mp spaced with rfl
      cases concerns
  split at said
  · next comment found => exact ⟨comment, found⟩
  · cases said

/-- What is said about return tags is said about a doc comment, not one of another style or a
missing one. -/
theorem exists_closer_of_mem_onPreceding {isRequired : Bool} {finding : Finding}
    (said : finding ∈ onPreceding stream index isRequired)
    (concerns : concernsReturn finding = true) :
    ∃ closer, stream.commentEnd? index maySeparate = some closer ∧
      stream.kind? closer = some .docClose ∧ finding ∈ onComment stream index closer := by
  rw [onPreceding] at said
  split at said
  · next closes =>
      rcases Option.bind_eq_some_iff.mp closes with ⟨closer, search, closes⟩
      rw [search, Option.map_some, Option.getD_some] at said
      exact ⟨closer, search, closes, said⟩
  · split at said
    · cases said
    split at said
    · rcases List.mem_pair.mp said with rfl | rfl
      · cases concerns
      · simp [concernsReturn, returnCodes] at concerns
    · rcases List.mem_pair.mp said with rfl | rfl
      · simp [concernsReturn, returnCodes] at concerns
      · cases concerns

section Source

variable {lexemes : List Lexeme} {index : Nat} {comment : Comment}

/-- Only where the rule reads a comment it says something about return tags. -/
theorem exists_obtains_of_mem_find {finding : Finding}
    (declares : (ofLexemes lexemes).kind? index = some .functionKw)
    (said : finding ∈ find (ofLexemes lexemes) index) (concerns : concernsReturn finding = true) :
    ∃ comment, Obtains (ofLexemes lexemes) index comment := by
  rw [find] at said
  split at said
  · cases said
  next boundary above =>
    simp only [Bool.and_eq_true, beq_iff_eq, Bool.not_eq_true', beq_eq_false_iff_ne] at said
    split at said
    · cases said
    next fresh =>
      split at said
      · cases said
      next required =>
        rcases exists_closer_of_mem_onPreceding said concerns with ⟨closer, search, closes, said⟩
        rcases exists_comment_of_mem_onComment said concerns with ⟨comment, found⟩
        rcases holds_of_commentAt? found closes with ⟨rfl, -⟩
        refine ⟨comment, declares, ⟨boundary, above, ?_, fresh⟩, search, closes, found⟩
        by_contra neither
        rw [not_or, Bool.not_eq_true] at neither
        exact required neither

theorem Obtains.isOver (obtains : Obtains stream index comment) : IsOver stream comment index :=
  ⟨obtains.declares, obtains.search, obtains.closes, obtains.found⟩

theorem IsOver.holds (isOver : IsOver (ofLexemes lexemes) comment index) :
    Stream.Holds lexemes comment :=
  (holds_of_commentAt? isOver.found isOver.closes).2

theorem Obtains.holds (obtains : Obtains (ofLexemes lexemes) index comment) :
    Stream.Holds lexemes comment :=
  obtains.isOver.holds

/-- What the rule says about the return tags of a comment is said inside of the comment. -/
theorem IsOver.anchor_inside (isOver : IsOver (ofLexemes lexemes) comment index)
    {violation : Violation}
    (said : .violation violation ∈ onReturn (ofLexemes lexemes) index comment) :
    comment.opener < violation.anchor ∧ violation.anchor ≤ comment.closer := by
  have ordered := isOver.holds.enclosed.lt
  rcases onReturn_cases (ofLexemes lexemes) index comment with
    none_said | ⟨other, only, -, anchor⟩
  · rw [none_said] at said
    cases said
  · rw [only] at said
    rcases List.mem_singleton.mp said with ⟨⟩
    rcases anchor with at_closer | ⟨tag, inside, at_tag⟩
    · omega
    · have := isOver.holds.tag_at inside
      omega

section

variable (obtains : Obtains (ofLexemes lexemes) index comment)

include obtains

/-- Where the rule reads a comment, all it finds is about that comment. -/
theorem Obtains.find_eq :
    (∃ declaration, (ofLexemes lexemes).nextSignificant (comment.closer + 1) (some index) =
      some declaration) ∧
    find (ofLexemes lexemes) index =
      onComment (ofLexemes lexemes) index comment.closer := by
  rcases obtains with ⟨declares, ⟨boundary, above, wanted, fresh⟩, search, closes, found⟩
  have before := (passesOver_of_lastUnskipped? search).lt
  have significant : (ofLexemes lexemes).hasKind Kind.isSignificant index = true := by
    rw [hasKind_iff]
    exact ⟨.functionKw, declares, rfl⟩
  refine ⟨exists_findNext before (Nat.le_refl index) significant, ?_⟩
  have inherits : ((ofLexemes lexemes).kind? boundary == some .docClose &&
      inheritsAt (ofLexemes lexemes) boundary) = false := by
    rw [Bool.eq_false_iff, ne_eq, Bool.and_eq_true, beq_iff_eq]
    exact fresh
  have required : (!isPublic (ofLexemes lexemes) index &&
      !(ofLexemes lexemes).kind? boundary == some .docClose) = false := by
    rcases wanted with isPublic | documented
    · simp [isPublic]
    · simp [documented]
  rw [find, above]
  simp only [inherits, required, Bool.false_eq_true, if_false]
  rw [onPreceding, search]
  simp only [Option.bind_some, closes, Option.map_some, Option.getD_some]

theorem filter_find_of_obtains :
    (find (ofLexemes lexemes) index).filter concernsReturn =
      onReturn (ofLexemes lexemes) index comment := by
  rcases obtains.find_eq with ⟨⟨declaration, below⟩, reads⟩
  rw [reads, filter_onComment below obtains.found]

theorem filter_diagnostics_of_obtains :
    (info.diagnostics (ofLexemes lexemes)
        (find (ofLexemes lexemes) index)).filter (isReturnDiagnosticIn comment) =
      info.diagnostics (ofLexemes lexemes)
        (onReturn (ofLexemes lexemes) index comment) := by
  rw [filter_isReturnDiagnosticIn, filter_diagnostics, filter_find_of_obtains obtains,
    filter_eq_self]
  intro diagnostic listed
  rcases List.mem_filterMap.mp listed with ⟨finding, said, entered⟩
  cases finding with
  | metric metric => cases entered
  | violation violation =>
    rcases Option.some.inj entered with rfl
    have inside := obtains.isOver.anchor_inside said
    rw [Bool.and_eq_true, decide_eq_true_eq, decide_eq_true_eq]
    exact ⟨Nat.le_of_lt inside.1, inside.2⟩

end

variable {mode : Lexeme.Mode} {position : Position} {text : List Char}
  (cuts : Lexeme.Cuts mode position text lexemes)

include cuts

/-- The comments above different functions have no token in common: none opens inside of another
one. -/
theorem IsOver.index_eq {other_index place : Nat} {other : Comment}
    (isOver : IsOver (ofLexemes lexemes) comment index)
    (other_isOver : IsOver (ofLexemes lexemes) other other_index) (lower : comment.opener ≤ place)
    (upper : place ≤ comment.closer) (other_lower : other.opener < place)
    (other_upper : place ≤ other.closer) : index = other_index := by
  have other_le := isOver.holds.closer_le other_isOver.holds upper other_lower
  have inside : comment.opener < place := by
    rcases Nat.lt_or_eq_of_le lower with inside | rfl
    · exact inside
    · have opens := isOver.holds.enclosed.opens
      rw [getElem?_map, Option.map_eq_some_iff] at opens
      rcases opens with ⟨lexeme, found, kind⟩
      have inner := other_isOver.holds.isInner cuts found other_lower other_upper
      rw [kind] at inner
      cases inner
  have le_other := other_isOver.holds.closer_le isOver.holds other_upper inside
  have same : comment.closer = other.closer := Nat.le_antisymm le_other other_le
  have search := isOver.search
  rw [same] at search
  exact eq_of_commentEnd?_eq separates separates isOver.declares rfl
    other_isOver.declares rfl search other_isOver.search

/-- About the return tags of a comment only the function below it says something. -/
theorem filter_diagnostics_of_ne {other_index : Nat}
    (obtains : Obtains (ofLexemes lexemes) index comment)
    (declares : (ofLexemes lexemes).kind? other_index = some .functionKw)
    (different : other_index ≠ index) :
    (info.diagnostics (ofLexemes lexemes)
      (find (ofLexemes lexemes) other_index)).filter (isReturnDiagnosticIn comment) = [] := by
  rw [filter_isReturnDiagnosticIn, filter_diagnostics]
  cases concerning : (find (ofLexemes lexemes) other_index).filter concernsReturn with
  | nil => rfl
  | cons finding findings =>
    have said : finding ∈ (find (ofLexemes lexemes) other_index).filter concernsReturn := by
      simp [concerning]
    rcases List.mem_filter.mp said with ⟨said, concerns⟩
    rcases exists_obtains_of_mem_find declares said concerns with ⟨other, other_obtains⟩
    rw [← concerning, filter_find_of_obtains other_obtains]
    rcases onReturn_cases (ofLexemes lexemes) other_index other with
      none_said | ⟨violation, only, -⟩
    · rw [none_said]
      rfl
    · have inside := other_obtains.isOver.anchor_inside (only ▸ mem_singleton_self _)
      rw [only]
      apply List.filter_eq_nil_iff.mpr
      intro diagnostic listed
      rcases List.mem_singleton.mp listed with rfl
      rw [Bool.and_eq_true, decide_eq_true_eq, decide_eq_true_eq]
      rintro ⟨lower, upper⟩
      exact different
        (obtains.isOver.index_eq cuts other_obtains.isOver lower upper inside.1 inside.2).symm

end Source

section Cases

variable {source : List Char} {index : Nat} {comment : Comment}

theorem isEmpty_content_iff {closer : Nat} {tag : Tag}
    (found : (ofSource source).commentAt? closer = some comment) (inside : tag ∈ comment.tags) :
    (tag.content.getD "").isEmpty = true ↔ tag.content = none := by
  simp only [commentAt?, Option.bind_eq_bind, Option.bind_eq_some_iff, Option.pure_def,
    Option.some.injEq] at found
  rcases found with ⟨_, _, block, _, _, _, rfl⟩
  rcases List.mem_mapIdx.mp inside with ⟨position, bound, rfl⟩
  constructor
  · intro empty
    by_contra some_content
    rcases Option.ne_none_iff_exists'.mp some_content with ⟨content, content_eq⟩
    have follows : (ofSource source).tagContent? (block.tags[position]) = some content :=
      content_eq
    rw [content_eq, Option.getD_some] at empty
    simp only [tagContent?, Option.bind_eq_bind, Option.bind_eq_some_iff] at follows
    rcases follows with ⟨_, _, _, _, string, string_found, text_eq⟩
    split at text_eq
    · rcases Option.some.inj text_eq with rfl
      rcases of_get? string_found with ⟨lexeme, _, _, lexeme_found, rfl⟩
      have := (cuts_lex source).text_ne_nil lexeme (mem_of_getElem? lexeme_found)
      simp [Stream.Structure.token, this] at empty
    · cases text_eq
  · intro no_content
    rw [no_content]
    rfl

theorem scopeOf?_eq_none_iff (declares : stream.kind? index = some .functionKw) :
    stream.scopeOf? index = none ↔
      ((stream.get? index).bind fun token => token.braces).isNone = true := by
  rcases Option.map_eq_some_iff.mp declares with ⟨token, found, kind⟩
  cases braces : token.braces <;>
    simp [scopeOf?, found, kind, ScopeKind.ofOwner?, Token.scopeSpan?, braces]

theorem isLifecycle_eq_false (named : stream.declarationName? index ≠ some "__construct".toList ∧
      stream.declarationName? index ≠ some "__destruct".toList) :
    isLifecycle stream index = false := by
  rw [isLifecycle]
  cases name : stream.declarationName? index with
  | none => rfl
  | some word =>
    rw [name, ne_eq, ne_eq, Option.some.injEq, Option.some.injEq] at named
    rw [Option.any_some, beq_eq_false_iff_ne.mpr named.1, beq_eq_false_iff_ne.mpr named.2]
    rfl

end Cases

theorem find_of_mem_walk {entry : Nat × List Finding}
    (called : entry ∈ walk (fun state index => (state, find stream index)) rule.initial
      (stream.places rule.listens)) :
    stream.kind? entry.1 = some .functionKw ∧ entry.2 = find stream entry.1 := by
  rcases exists_of_mem_walk _ called with ⟨before, after, places_eq, found⟩
  have visited : entry.1 ∈ stream.places rule.listens := by
    rw [places_eq]
    simp
  rcases mem_places_iff.mp visited with ⟨kind, heard, declares⟩
  rcases List.mem_singleton.mp heard with rfl
  exact ⟨declares, found⟩

/-- Where the calls at other functions bring forth nothing that is wanted, a check says what is
wanted of what the call at a function finds. -/
theorem filter_check_find {selected : List Rule} (builtIn : selected.Subperm rules)
    (chosen : rule ∈ selected) (maxPasses : Nat) (path : String) {source : List Char}
    (declares : (ofSource source).kind? index = some .functionKw) {keep : Diagnostic → Bool}
    (own : ∀ diagnostic, keep diagnostic = true → diagnostic.isUnder info.code = true)
    (others : ∀ other, (ofSource source).kind? other = some .functionKw → other ≠ index →
      (info.diagnostics (ofSource source) (find (ofSource source) other)).filter keep = []) :
    ((Runner.ofRuleset (.ofRules selected) maxPasses).check path source).1.report.diagnostics.filter
        keep =
      ((info.diagnostics (ofSource source) (find (ofSource source) index)).filter keep).mergeSort
        Diagnostic.precedes := by
  have listed : index ∈ (ofSource source).places rule.listens :=
    mem_places_iff.mpr ⟨.functionKw, mem_singleton_self _, declares⟩
  rcases append_of_mem listed with ⟨before, after, split⟩
  apply filter_check_eq_of_only (Rule.finds_ofFindings info [.functionKw] find) builtIn chosen
    maxPasses path source own split
  intro entry called different
  rw [← split] at called
  rcases find_of_mem_walk called with ⟨other_declares, found⟩
  rw [found]
  exact others entry.1 other_declares different

/-- What a check says about the return tags of a comment is what the rule says on them for the
function below it. -/
theorem filter_check_of_obtains {selected : List Rule} (builtIn : selected.Subperm rules)
    (chosen : rule ∈ selected) (maxPasses : Nat) (path : String) {source : List Char}
    (obtains : Obtains (ofSource source) index comment) :
    ((Runner.ofRuleset (.ofRules selected) maxPasses).check path source).1.report.diagnostics.filter
        (isReturnDiagnosticIn comment) =
      info.diagnostics (ofSource source)
        (onReturn (ofSource source) index comment) := by
  apply (filter_check_find builtIn chosen maxPasses path obtains.declares
    (fun _ => isUnder_of_isReturnDiagnosticIn) fun _ declares different =>
      filter_diagnostics_of_ne (cuts_lex source) obtains declares different).trans
  apply (congrArg (List.mergeSort · _) (filter_diagnostics_of_obtains obtains)).trans
  rcases onReturn_cases (ofSource source) index comment with
    none_said | ⟨violation, only_said, -⟩
  · have none_said : onReturn (ofLexemes (lex source)) index comment = [] := none_said
    rw [ofSource, none_said]
    exact mergeSort_nil
  · have only_said : onReturn (ofLexemes (lex source)) index comment =
        [.violation violation] := only_said
    rw [ofSource, only_said]
    exact mergeSort_singleton _

/-- What a check says about the return tags of a comment. If the tag is repeated, the second one is
superfluous. Otherwise the tag has to be there and to have a type if the function returns a value,
and must not be there if it does not. Of a function without a body nothing more is said. -/
theorem return_tags_follow_table (selected : List Rule) (builtIn : selected.Subperm rules)
    (chosen : rule ∈ selected) (maxPasses : Nat) (path : String) (source : List Char) {index : Nat}
    {comment : Comment} (obtains : Obtains (Stream.ofSource source) index comment)
    (named : (Stream.ofSource source).declarationName? index ≠ some "__construct".toList ∧
      (Stream.ofSource source).declarationName? index ≠ some "__destruct".toList) :
    let stream := Stream.ofSource source
    let report := ((Runner.ofRuleset (.ofRules selected) maxPasses).check path source).1.report
    let said := report.diagnostics.filter (isReturnDiagnosticIn comment)
    let tags := comment.tags.filter fun tag => tag.isNamed "@return"
    let diagnostic (code message : String) (anchor : Nat) (isFixable : Bool) :=
      stream.diagnosticAt .error info.code code message anchor isFixable
    (info.diagnostics stream (find stream index)).filter isReturnDiagnostic = said ∧
      (∀ first second rest, tags = first :: second :: rest →
        said = [diagnostic "DuplicateReturn" "Only 1 @return tag is allowed in a function comment"
          second.token true]) ∧
      (tags.length < 2 → stream.scopeOf? index = none → said = []) ∧
      (∀ body, stream.scopeOf? index = some body →
        (∀ tag, tags = [tag] → ReturnsValue (lex source) index →
          said = if tag.content = none then
            [diagnostic "MissingReturnType" "Return type missing for @return tag in function comment"
              tag.token false]
          else []) ∧
        (∀ tag, tags = [tag] → ¬ReturnsValue (lex source) index →
          said = [diagnostic "OmitReturn" "Omit @return tag if the method does not return anything"
            tag.token true]) ∧
        (tags = [] → ReturnsValue (lex source) index →
          said = [diagnostic "MissingReturn" "Missing @return tag in function comment"
            comment.closer false]) ∧
        (tags = [] → ¬ReturnsValue (lex source) index → said = [])) := by
  intro stream report said tags diagnostic
  have lifecycle : isLifecycle stream index = false := isLifecycle_eq_false named
  have said_eq : said = info.diagnostics stream (onReturn stream index comment) :=
    filter_check_of_obtains builtIn chosen maxPasses path obtains
  have call_eq : (info.diagnostics stream (find stream index)).filter isReturnDiagnostic = said := by
    rw [said_eq, filter_diagnostics]
    exact congrArg _ (filter_find_of_obtains obtains)
  refine ⟨call_eq, ?_, ?_, ?_⟩
  · intro first second rest tags_eq
    have tagsNamed_eq : comment.tagsNamed "@return" = first :: second :: rest := tags_eq
    rw [said_eq, onReturn, lifecycle, tagsNamed_eq]
    rfl
  · intro few no_body
    have braces := (scopeOf?_eq_none_iff obtains.declares).mp no_body
    have tagsNamed_eq : comment.tagsNamed "@return" = tags := rfl
    rw [said_eq, onReturn, lifecycle, braces, tagsNamed_eq]
    rcases tags with _ | ⟨tag, _ | ⟨second, rest⟩⟩
    · rfl
    · rfl
    · simp only [length_cons] at few
      omega
  · intro body has_body
    have braces : ((stream.get? index).bind fun token => token.braces).isNone = false := by
      rw [Bool.eq_false_iff, ne_eq, ← scopeOf?_eq_none_iff obtains.declares, has_body]
      simp
    have returns_iff : returnsValue stream index = true ↔ ReturnsValue (lex source) index :=
      returnsValue_eq_true_iff
    refine ⟨?_, ?_, ?_, ?_⟩
    · intro tag tags_eq returns
      have tagsNamed_eq : comment.tagsNamed "@return" = [tag] := tags_eq
      have tag_named : tag ∈ tags := by
        rw [tags_eq]
        exact mem_singleton_self tag
      have inside : tag ∈ comment.tags := (List.mem_filter.mp tag_named).1
      rw [said_eq, onReturn, lifecycle, tagsNamed_eq, braces, returns_iff.mpr returns]
      by_cases empty : tag.content = none
      · rw [if_pos empty]
        have := (isEmpty_content_iff obtains.found inside).mpr empty
        simp only [this]
        rfl
      · rw [if_neg empty]
        have := mt (isEmpty_content_iff obtains.found inside).mp empty
        simp only [this]
        rfl
    · intro tag tags_eq returns
      have tagsNamed_eq : comment.tagsNamed "@return" = [tag] := tags_eq
      rw [said_eq, onReturn, lifecycle, tagsNamed_eq, braces,
        Bool.eq_false_iff.mpr (mt returns_iff.mp returns)]
      rfl
    · intro tags_eq returns
      have tagsNamed_eq : comment.tagsNamed "@return" = [] := tags_eq
      rw [said_eq, onReturn, lifecycle, tagsNamed_eq, braces, returns_iff.mpr returns]
      rfl
    · intro tags_eq returns
      have tagsNamed_eq : comment.tagsNamed "@return" = [] := tags_eq
      rw [said_eq, onReturn, lifecycle, tagsNamed_eq, braces,
        Bool.eq_false_iff.mpr (mt returns_iff.mp returns)]
      rfl

/-- The value that the closure returns is not a value of the function. -/
theorem return_tags_follow_table_closure :
    let source :=
      "<?php /** @RETURN int */ function f() \x7b $g = function () \x7b return 1; \x7d; return; \x7d".toList
    let comment : Comment := ⟨2, 8, [⟨4, "@RETURN", some "int", 0⟩]⟩
    Obtains (Stream.ofSource source) 10 comment ∧
      ((Runner.ofRuleset (.ofRules [MethodOrder.rule, rule]) 1).check "a.php"
          source).1.report.diagnostics.filter (isReturnDiagnosticIn comment) =
        [(Stream.ofSource source).diagnosticAt .error info.code "OmitReturn"
          "Omit @return tag if the method does not return anything" 4 true] := by
  intro source comment
  have facts : Obtains (Stream.ofSource source) 10 comment ∧
      (Stream.ofSource source).scopeOf? 10 = some ⟨⟨16, 40⟩, .functionBody, 10⟩ ∧
      returnsValue (Stream.ofSource source) 10 = false ∧
      (Stream.ofSource source).declarationName? 10 = some ['f'] := by decide +kernel
  rcases facts with ⟨obtains, opened, no_value, name⟩
  have builtIn : [MethodOrder.rule, rule].Subperm rules :=
    ⟨[rule, MethodOrder.rule], List.Perm.swap _ _ _,
      (sublist_append_left [rule, MethodOrder.rule]
        [PropertyOrder.rule, ArrayComma.rule]).cons ClassComment.rule⟩
  have returns : ¬ReturnsValue (lex source) 10 := by
    rw [← returnsValue_eq_true_iff, Bool.not_eq_true]
    exact no_value
  have outcome := return_tags_follow_table [MethodOrder.rule, rule] builtIn (by simp) 1 "a.php"
    source obtains (by rw [name]; decide)
  exact ⟨obtains, (outcome.2.2.2 _ opened).2.1 ⟨4, "@RETURN", some "int", 0⟩ (by decide +kernel)
    returns⟩

end PhpStyle.Standard.FunctionComment
