import PhpStyle.Proofs.MemberOrder
import PhpStyle.Proofs.RevisedComments
import PhpStyle.Proofs.TagTables

/-!
# Comments that functions must have

A public function has to have a doc comment right above it, modifiers and attributes
apart. The rule looks for the comment twice. One search goes back to the last comment,
declaration or opening tag: if that is a doc comment that inherits its text, nothing is
said about the function, whatever stands in between. The other search goes back to the last
token that is neither skipped nor part of an attribute, and what is said depends on that
token.

Both searches end at the same comment, unless an attribute between holds a comment
or a declaration of its own.

What is recorded for a function is at its keyword or in the comment above it, and no
other function, and no other rule, records anything of the kind there. So the part of a
report that is about a function is what one call of the rule finds.
-/

namespace PhpStyle

open List

namespace Stream

section Above

variable {lexemes : List Lexeme} {skipped : Kind → Bool} {bound above : Nat}

/-- The token may stand between a declaration and what is above it: it is skipped, or it is part of
an attribute that ends before the declaration. -/
def IsBetween (lexemes : List Lexeme) (skipped : Kind → Bool) (bound index : Nat) : Prop :=
  (ofLexemes lexemes).hasKind skipped index = true ∨ ∃ span, IsAttribute lexemes span ∧
    span.opener ≤ index ∧ index ≤ span.closer ∧ span.closer < bound

/-- The last token before a declaration that may not stand between the two. -/
structure StandsAbove (lexemes : List Lexeme) (skipped : Kind → Bool) (bound above : Nat) :
    Prop where
  lt : above < bound
  stays : ¬IsBetween lexemes skipped bound above
  last : ∀ index, above < index → index < bound → IsBetween lexemes skipped bound index

theorem StandsAbove.eq {other : Nat} (stands : StandsAbove lexemes skipped bound above)
    (also : StandsAbove lexemes skipped bound other) : above = other := by
  rcases Nat.lt_trichotomy above other with earlier | same | later
  · exact absurd (stands.last other earlier also.lt) also.stays
  · exact same
  · exact absurd (also.last above later stands.lt) stands.stays

/-- The search ends at a token that is not skipped and ends no attribute. -/
theorem unskipped_of_lastUnskipped?
    (search : (ofLexemes lexemes).lastUnskipped? skipped bound = some above) :
    ∃ kind, (ofLexemes lexemes).kind? above = some kind ∧ skipped kind = false ∧
      kind ≠ .attributeEnd := by
  induction bound using Nat.strong_induction_on with
  | _ bound ih =>
    rw [lastUnskipped?_eq, Option.bind_eq_some_iff] at search
    rcases search with ⟨found, before, search⟩
    split at search
    · rcases Option.bind_eq_some_iff.mp search with ⟨span, -, search⟩
      split at search
      · next lt => exact ih span.opener lt search
      · cases search
    · next other =>
        obtain rfl := Option.some.inj search
        rcases hasKind_iff.mp (findBefore_eq_some_iff.mp before).2.1 with ⟨kind, found, unskipped⟩
        refine ⟨kind, found, by simpa using unskipped, ?_⟩
        rintro rfl
        exact other found

theorem hasKind_of_not {index : Nat} (inside : index < lexemes.length)
    (unskipped : (ofLexemes lexemes).hasKind (!skipped ·) index = false) :
    (ofLexemes lexemes).hasKind skipped index = true := by
  rcases kind?_of_getElem? (getElem?_eq_getElem inside) with ⟨kind, found⟩
  simpa [hasKind, found] using unskipped

/-- The search ends at what stands above: the end of an attribute around it has not been passed
over. -/
theorem standsAbove_of_lastUnskipped? (inside : bound ≤ lexemes.length)
    (ends : skipped .attributeEnd = false)
    (search : (ofLexemes lexemes).lastUnskipped? skipped bound = some above) :
    StandsAbove lexemes skipped bound above := by
  have passes := passesOver_of_lastUnskipped? search
  rcases unskipped_of_lastUnskipped? search with ⟨kind, found, unskipped, not_end⟩
  refine ⟨passes.lt, ?_, ?_⟩
  · rintro (skips | ⟨span, group, lower, upper, closes⟩)
    · rw [hasKind, found, Option.any_some, unskipped] at skips
      cases skips
    have before_closer : above < span.closer := by
      apply upper.lt_of_ne
      rintro rfl
      exact not_end (Option.some.inj (found.symm.trans group.closer))
    rcases passes.between span.closer before_closer closes (closes.trans_le inside) with
      skips | ⟨other, other_group, later, opener_le, le_closer, -⟩
    · simp [hasKind, group.closer, ends] at skips
    · have apart : span.closer ≠ other.opener := by
        intro same
        have := group.closer.symm.trans (same ▸ other_group.opener)
        simp at this
      rcases nested_of_mem group.paired other_group.paired with rfl | nested | nested
      · omega
      · have := nested.2
        omega
      · have := nested.1
        omega
  · intro index lower upper
    apply (passes.between index lower upper (upper.trans_le inside)).imp_right
    rintro ⟨span, group, -, opener_le, le_closer, closes⟩
    exact ⟨span, group, opener_le, le_closer, closes⟩

variable (lexed : ∀ lexeme ∈ lexemes, Lexeme.isContextual lexeme.kind = false)

include lexed

/-- The search fails only if nothing stands above. -/
theorem isBetween_of_lastUnskipped?
    (search : (ofLexemes lexemes).lastUnskipped? skipped bound = none) {index : Nat}
    (inside : index < lexemes.length) (lt : index < bound) : IsBetween lexemes skipped bound index := by
  induction bound using Nat.strong_induction_on with
  | _ bound ih =>
    rw [lastUnskipped?_eq] at search
    cases before : (ofLexemes lexemes).findBefore (!skipped ·) bound with
    | none =>
      have start : (ofLexemes lexemes).runStart (!skipped ·) bound = 0 := by
        rw [runStart, before]
        rfl
      left
      apply hasKind_of_not inside
      exact hasKind_eq_false_of_runStart_le (start ▸ Nat.zero_le index) lt
    | some found =>
      rcases findBefore_eq_some_iff.mp before with ⟨found_lt, -, behind⟩
      rw [before, Option.bind_some] at search
      split at search
      · next ends =>
          have words := not_mem_settledWords lexed (.inr (.inr (Eq.refl Kind.attributeEnd)))
          rw [kind?_ofLexemes] at ends
          obtain ⟨span, paired, rfl⟩ : ∃ span ∈ squares lexemes, span.closer = found :=
            Kind.exists_pair_of_settled drop_zero rfl words (.inr rfl) (Nat.zero_le found) ends
          have pair : pairAt (squares lexemes) span.closer = some span := pairAt_closer paired
          rw [← kind?_ofLexemes] at ends
          have starts := attributeStart_of_pairAt ends pair
          rw [← kind?_ofLexemes] at starts
          have ordered := (pair_of_mem paired).1
          rw [pair, Option.bind_some, if_pos (ordered.trans found_lt)] at search
          rcases Nat.lt_or_ge index span.opener with earlier | later
          · have between := ih span.opener (ordered.trans found_lt) search earlier
            apply between.imp_right
            rintro ⟨other, group, opener_le, le_closer, closes⟩
            exact ⟨other, group, opener_le, le_closer, by omega⟩
          · rcases Nat.lt_or_ge span.closer index with behind_it | part
            · exact .inl (hasKind_of_not inside (behind index behind_it lt))
            · exact .inr ⟨span, ⟨paired, starts, ends⟩, later, part, found_lt⟩
      · cases search

/-- The search finds what stands above. -/
theorem commentEnd?_eq_some_iff (inside : bound ≤ lexemes.length)
    (ends : skipped .attributeEnd = false) :
    (ofLexemes lexemes).commentEnd? bound skipped = some above ↔
      StandsAbove lexemes skipped bound above := by
  constructor
  · exact standsAbove_of_lastUnskipped? inside ends
  · intro stands
    cases search : (ofLexemes lexemes).lastUnskipped? skipped bound with
    | none =>
      have between := isBetween_of_lastUnskipped? lexed search (stands.lt.trans_le inside) stands.lt
      exact absurd between stands.stays
    | some other =>
      have also := standsAbove_of_lastUnskipped? inside ends search
      rw [commentEnd?, search, stands.eq also]

end Above

/-- A file begins outside of PHP or with an opening tag. -/
theorem kind?_zero {source : List Char} {kind : Kind}
    (found : (ofSource source).kind? 0 = some kind) :
    kind = .inlineHtml ∨ kind = .openTag ∨ kind = .openTagWithEcho := by
  have cuts := cuts_lex source
  rw [ofSource] at found
  generalize lex source = lexemes at cuts found
  cases cuts with
  | done => cases found
  | next announced following =>
    have first := Lexeme.kind_of_html announced
    rw [kind?_of_isPlain getElem?_cons_zero] at found
    · rw [← Option.some.inj found]
      exact first
    · rcases first with rfl | rfl | rfl <;> rfl

/-- Something stands above every token of a file but the first one. -/
theorem exists_standsAbove {source : List Char} {skipped : Kind → Bool} {bound : Nat}
    (inside : bound ≤ (lex source).length) (later : 0 < bound)
    (begins : ∀ kind, kind = .inlineHtml ∨ kind = .openTag ∨ kind = .openTagWithEcho →
      skipped kind = false) (ends : skipped .attributeEnd = false) :
    ∃ above, StandsAbove (lex source) skipped bound above := by
  have lexed := Standard.isContextual_of_mem (cuts_lex source)
  cases search : (ofLexemes (lex source)).lastUnskipped? skipped bound with
  | some above => exact ⟨above, standsAbove_of_lastUnskipped? inside ends search⟩
  | none =>
    rcases isBetween_of_lastUnskipped? lexed search (later.trans_le inside) later with
      skips | ⟨span, group, opener_le, -, -⟩
    · rcases hasKind_iff.mp skips with ⟨kind, found, skips⟩
      rw [begins kind (kind?_zero found)] at skips
      cases skips
    · have opener_eq := Nat.le_zero.mp opener_le
      have first := kind?_zero (opener_eq ▸ group.opener)
      simp at first

end Stream

namespace Standard.ClassComment

theorem name_of_mem_metrics {stream : Stream} {index : Nat} {counted : Metric}
    (found : counted ∈ (find stream index).filterMap Finding.metric?) :
    counted.name = "Class has doc comment" := by
  rw [find] at found
  split at found
  · rcases List.mem_filterMap.mp found with ⟨finding, said, entered⟩
    rcases List.mem_cons.mp said with rfl | said
    · rw [← Option.some.inj entered]
    split at said
    · rcases TagTable.mem_findings_cases said with ⟨tag, -, on_tag⟩ | at_end | ⟨violation, rfl, -⟩
      · rcases List.mem_singleton.mp on_tag with rfl
        cases entered
      · cases at_end
      · cases entered
    · cases said
  · rw [List.mem_singleton.mp found]
  · rw [List.mem_singleton.mp found]

end Standard.ClassComment

namespace Standard.ArrayComma

theorem metrics_find (stream : Stream) (index : Nat) :
    (find stream index).filterMap Finding.metric? = [] := by
  rw [find]
  split
  · rfl
  split
  · rfl
  · rfl

end Standard.ArrayComma

namespace Standard.FunctionComment

variable {lexemes : List Lexeme} {index : Nat}

/-- The last token before a function at which the search for a comment stops. -/
structure IsBoundary (stream : Stream) (index boundary : Nat) : Prop where
  lt : boundary < index
  stops : stream.hasKind endsSearch boundary = true
  last : ∀ other, boundary < other → other < index → stream.hasKind endsSearch other = false

theorem boundary?_eq_some_iff {stream : Stream} {boundary : Nat} :
    boundary? stream index = some boundary ↔ IsBoundary stream index boundary := by
  apply Stream.findBefore_eq_some_iff.trans
  constructor
  · rintro ⟨lt, stops, last⟩
    exact ⟨lt, stops, last⟩
  · rintro ⟨lt, stops, last⟩
    exact ⟨lt, stops, last⟩

/-- A doc comment ends at the token, and its text holds the marker in some case. -/
def IsInherited (stream : Stream) (closer : Nat) : Prop :=
  ∃ comment text, stream.commentAt? closer = some comment ∧ comment.closer = closer ∧
    stream.content? comment.opener closer = some text ∧
    inheritMarker <:+: text.map Char.toLower

/-- Every end of a doc comment belongs to a comment. -/
theorem exists_comment_of_docClose {source : List Char}
    (closes : (Stream.ofSource source).kind? index = some .docClose) :
    ∃ comment, (Stream.ofSource source).commentAt? index = some comment ∧
      comment.closer = index := by
  rcases PhpStyle.exists_segments_lex source with ⟨blocks, segments⟩
  rcases Option.map_eq_some_iff.mp closes with ⟨token, found, kind_eq⟩
  rcases Stream.block_of_docClose segments found kind_eq with ⟨block, -, block_eq, closer_eq, -⟩
  have comment_eq : (Stream.ofSource source).commentAt? index =
      some ⟨block.opener, index, block.tags.mapIdx fun position tag =>
        (Stream.ofSource source).tagAt tag position⟩ := by
    rw [Stream.commentAt?, found]
    simp only [Option.bind_eq_bind, Option.bind_some, block_eq, closer_eq, Option.pure_def]
  exact ⟨_, comment_eq, rfl⟩

theorem docClose_of_commentAt? {comment : Comment}
    (found : (Stream.ofLexemes lexemes).commentAt? index = some comment)
    (closes : comment.closer = index) :
    (Stream.ofLexemes lexemes).kind? index = some .docClose := by
  simp only [Stream.commentAt?, Option.bind_eq_bind, Option.bind_eq_some_iff, Option.pure_def,
    Option.some.injEq] at found
  rcases found with ⟨token, at_index, block, block_eq, closer, closer_eq, rfl⟩
  obtain rfl : closer = index := closes
  have listed := Stream.mem_blocks_of_docBlock at_index block_eq
  rw [Stream.kind?_ofLexemes]
  exact (DocBlock.enclosed_of_mem_collect drop_zero (by simp) listed closer_eq).2

theorem isInherited_iff {source : List Char} :
    IsInherited (Stream.ofSource source) index ↔
      (Stream.ofSource source).kind? index = some .docClose ∧
        inheritsAt (Stream.ofSource source) index = true := by
  have block_of {comment : Comment}
      (found : (Stream.ofSource source).commentAt? index = some comment) :
      ∃ block, ((Stream.ofSource source).get? index).bind (fun token => token.docBlock) =
        some block ∧ block.opener = comment.opener := by
    simp only [Stream.commentAt?, Option.bind_eq_bind, Option.bind_eq_some_iff, Option.pure_def,
      Option.some.injEq] at found
    rcases found with ⟨token, at_index, block, block_eq, closer, -, rfl⟩
    exact ⟨block, by rw [at_index, Option.bind_some, block_eq], rfl⟩
  constructor
  · rintro ⟨comment, text, found, closes, content, marked⟩
    refine ⟨docClose_of_commentAt? found closes, ?_⟩
    rcases block_of found with ⟨block, block_eq, opener_eq⟩
    rw [inheritsAt, block_eq, Option.any_some, opener_eq, content, Option.any_some, inherits,
      holdsWord_eq_true_iff]
    exact marked
  · rintro ⟨closes, marked⟩
    rcases exists_comment_of_docClose closes with ⟨comment, found, closer_eq⟩
    rcases block_of found with ⟨block, block_eq, opener_eq⟩
    rw [inheritsAt, block_eq, Option.any_some, opener_eq, Option.any_eq_true] at marked
    rcases marked with ⟨text, content, marked⟩
    rw [inherits, holdsWord_eq_true_iff] at marked
    exact ⟨comment, text, found, closer_eq, content, marked⟩

section Finds

variable {source : List Char} {boundary above : Nat}
  (bounded : IsBoundary (Stream.ofSource source) index boundary)

include bounded

theorem find_of_isInherited (inherited : IsInherited (Stream.ofSource source) boundary) :
    find (Stream.ofSource source) index = [] := by
  rcases isInherited_iff.mp inherited with ⟨closes, marked⟩
  rw [find, boundary?_eq_some_iff.mpr bounded]
  simp only [closes, marked, beq_self_eq_true, Bool.and_self, if_true]

theorem find_of_not_isInherited (visible : isPublic (Stream.ofSource source) index = true)
    (fresh : ¬IsInherited (Stream.ofSource source) boundary) :
    find (Stream.ofSource source) index = onPreceding (Stream.ofSource source) index true := by
  have unmarked : ((Stream.ofSource source).kind? boundary == some .docClose &&
      inheritsAt (Stream.ofSource source) boundary) = false := by
    rw [Bool.eq_false_iff, ne_eq, Bool.and_eq_true, beq_iff_eq, ← isInherited_iff]
    exact fresh
  rw [find, boundary?_eq_some_iff.mpr bounded]
  simp only [unmarked, visible, Bool.not_true, Bool.false_and, Bool.false_eq_true, if_false]

/-- Both searches end at the same token, unless an attribute between holds a comment or a
declaration. An attribute that begins before the token above would have it as a part. -/
theorem boundary_eq (stands : Stream.StandsAbove (lex source) maySeparate index above)
    (stops : (Stream.ofSource source).hasKind endsSearch above = true)
    (plain : ∀ span, Stream.IsAttribute (lex source) span → above < span.opener →
      span.closer < index → ∀ inner, span.opener < inner → inner < span.closer →
        (Stream.ofSource source).hasKind endsSearch inner = false) : boundary = above := by
  rcases Nat.lt_trichotomy boundary above with earlier | same | later
  · have := bounded.last above earlier stands.lt
    rw [stops] at this
    cases this
  · exact same
  · have stops_there := bounded.stops
    rcases stands.last boundary later bounded.lt with
      skips | ⟨span, group, opener_le, le_closer, closes⟩
    · rcases Stream.hasKind_iff.mp skips with ⟨kind, found, skips⟩
      have : maySeparate kind = true → endsSearch kind = false := by
        cases kind <;> decide
      rw [Stream.hasKind, Stream.ofSource, found, Option.any_some, this skips] at stops_there
      cases stops_there
    have opens_later : above < span.opener := by
      by_contra before
      exact stands.stays (.inr ⟨span, group, by omega, by omega, closes⟩)
    rcases opener_le.lt_or_eq with after | rfl
    · rcases le_closer.lt_or_eq with before | rfl
      · rw [plain span group opens_later closes boundary after before] at stops_there
        cases stops_there
      · rw [Stream.hasKind, Stream.ofSource, group.closer] at stops_there
        cases stops_there
    · rw [Stream.hasKind, Stream.ofSource, group.opener] at stops_there
      cases stops_there

end Finds

section Preceding

variable {source : List Char} {above : Nat}

variable {stream : Stream}

theorem commentEnd?_of_standsAbove (inside : index ≤ (lex source).length)
    (stands : Stream.StandsAbove (lex source) maySeparate index above) :
    (Stream.ofSource source).commentEnd? index maySeparate = some above :=
  (Stream.commentEnd?_eq_some_iff (isContextual_of_mem (cuts_lex source)) inside rfl).mpr stands

section

variable (search : stream.commentEnd? index maySeparate = some above)

include search

theorem onPreceding_of_docClose (closes : stream.kind? above = some .docClose) (isRequired : Bool) :
    onPreceding stream index isRequired = onComment stream index above := by
  rw [onPreceding, search]
  simp only [Option.bind_some, closes, Option.map_some, Option.getD_some]

theorem onPreceding_of_comment (plain : stream.kind? above = some .comment) :
    onPreceding stream index true =
      [documented index "yes",
       .violation
        { message := "You must use \"/**\" style comments for a function comment"
          anchor := index
          code := "WrongStyle" }] := by
  rw [onPreceding, search]
  simp only [Option.bind_some, plain, Bool.not_true, Bool.false_eq_true, if_false, if_true]

theorem onPreceding_of_other (not_comment : stream.kind? above ≠ some .comment)
    (not_closer : stream.kind? above ≠ some .docClose) :
    onPreceding stream index true =
      [.violation { message := "Missing function doc comment", anchor := index, code := "Missing" },
       documented index "no"] := by
  rw [onPreceding, search]
  simp only [Option.bind_some, Bool.not_true, Bool.false_eq_true, if_false, if_neg not_comment]

end

end Preceding

section Anchors

variable {source : List Char} {comment : Comment} {finding : Finding}

/-- The findings on the doc comment above a function, given the token that follows the comment. -/
def onBlock (stream : Stream) (index declaration : Nat) (comment : Comment) : List Finding :=
  spacing stream comment.closer declaration ++
    table.findings isReturn (fun _ => []) (onReturn stream index comment) comment

theorem onComment_eq {stream : Stream} {closer declaration : Nat}
    (below : stream.nextSignificant (closer + 1) (some index) = some declaration)
    (found : stream.commentAt? closer = some comment) (closes : comment.closer = closer) :
    onComment stream index closer =
      documented index "yes" :: onBlock stream index declaration comment := by
  rw [onComment, below, found, onBlock, closes]

/-- What is found on a comment are violations inside of it. -/
theorem mem_onBlock_cases (isOver : IsOver (Stream.ofLexemes lexemes) comment index)
    {declaration : Nat}
    (said : finding ∈ onBlock (Stream.ofLexemes lexemes) index declaration comment) :
    ∃ violation : Violation, finding = .violation violation ∧
      comment.opener < violation.anchor ∧ violation.anchor ≤ comment.closer := by
  have ordered := isOver.holds.enclosed.lt
  rcases List.mem_append.mp said with spaced | said
  · rw [spacing] at spaced
    split at spaced
    · cases spaced
    · rcases List.mem_singleton.mp spaced with rfl
      exact ⟨_, rfl, ordered, Nat.le_refl _⟩
  rcases TagTable.mem_findings_cases said with
    ⟨tag, -, on_tag⟩ | on_return | ⟨violation, rfl, at_closer | ⟨tag, inside, at_tag⟩⟩
  · cases on_tag
  · rcases onReturn_cases (Stream.ofLexemes lexemes) index comment with
      none_said | ⟨violation, only, -, -⟩
    · rw [none_said] at on_return
      cases on_return
    · have inside := isOver.anchor_inside (only ▸ mem_singleton_self _)
      rw [only] at on_return
      exact ⟨violation, List.mem_singleton.mp on_return, inside⟩
  · exact ⟨violation, rfl, at_closer ▸ ordered, at_closer.le⟩
  · rcases isOver.holds.tag_at inside with ⟨lower, upper, -⟩
    exact ⟨violation, rfl, at_tag ▸ lower, at_tag ▸ upper.le⟩

/-- All that a call finds is the metric of its function, violations at the function and violations
inside of the comment above it. -/
theorem mem_find_cases (declares : (Stream.ofSource source).kind? index = some .functionKw)
    (said : finding ∈ find (Stream.ofSource source) index) :
    (∃ value, finding = documented index value) ∨ ∃ violation : Violation,
      finding = .violation violation ∧ (violation.anchor = index ∨
        ∃ comment, IsOver (Stream.ofSource source) comment index ∧
          comment.opener < violation.anchor ∧ violation.anchor ≤ comment.closer) := by
  have preceding : ∃ isRequired,
      finding ∈ onPreceding (Stream.ofSource source) index isRequired := by
    rw [find] at said
    split at said
    · cases said
    simp only at said
    split at said
    · cases said
    split at said
    · cases said
    exact ⟨_, said⟩
  rcases preceding with ⟨isRequired, said⟩
  rw [onPreceding] at said
  split at said
  · next closes =>
      rcases Option.bind_eq_some_iff.mp closes with ⟨closer, search, closes⟩
      rw [search, Option.map_some, Option.getD_some] at said
      rcases exists_comment_of_docClose closes with ⟨comment, found, rfl⟩
      have isOver : IsOver (Stream.ofSource source) comment index :=
        ⟨declares, search, closes, found⟩
      cases below : (Stream.ofSource source).nextSignificant (comment.closer + 1) (some index) with
      | none =>
        rw [onComment, below] at said
        exact .inl ⟨_, List.mem_singleton.mp said⟩
      | some declaration =>
        rw [onComment_eq below found rfl] at said
        rcases List.mem_cons.mp said with counted | said
        · exact .inl ⟨_, counted⟩
        · rcases mem_onBlock_cases isOver said with ⟨violation, rfl, inside⟩
          exact .inr ⟨violation, rfl, .inr ⟨comment, isOver, inside⟩⟩
  · split at said
    · cases said
    split at said
    · rcases List.mem_pair.mp said with rfl | rfl
      · exact .inl ⟨_, rfl⟩
      · exact .inr ⟨_, rfl, .inl rfl⟩
    · rcases List.mem_pair.mp said with rfl | rfl
      · exact .inr ⟨_, rfl, .inl rfl⟩
      · exact .inl ⟨_, rfl⟩

theorem eq_of_mem_metrics (declares : (Stream.ofSource source).kind? index = some .functionKw)
    {counted : Metric}
    (found : counted ∈ (find (Stream.ofSource source) index).filterMap Finding.metric?) :
    ∃ value, counted = ⟨index, "Function has doc comment", value⟩ := by
  rcases List.mem_filterMap.mp found with ⟨finding, said, entered⟩
  rcases mem_find_cases declares said with ⟨value, rfl⟩ | ⟨violation, rfl, -⟩
  · exact ⟨value, (Option.some.inj entered).symm⟩
  · cases entered

/-- No function is declared inside of a comment. -/
theorem not_declares_inside (isOver : IsOver (Stream.ofSource source) comment index) {place : Nat}
    (declares : (Stream.ofSource source).kind? place = some .functionKw)
    (lower : comment.opener ≤ place) (upper : place ≤ comment.closer) : False := by
  have holds := isOver.holds
  have inside := upper.trans_lt holds.lt_length
  have found := getElem?_eq_getElem inside
  have hidden : (lex source)[place].kind.isSignificant = false := by
    rcases lower.lt_or_eq with lower | rfl
    · exact Stream.isSignificant_of_isInner (holds.isInner (cuts_lex source) found lower upper)
    · have opens := holds.enclosed.opens
      rw [getElem?_map, found] at opens
      rw [Option.some.inj opens]
      rfl
  have settled := (Stream.getElem?_settledKinds_iff hidden).mpr
    (show ((lex source).map Lexeme.kind)[place]? = some _ by rw [getElem?_map, found]; rfl)
  rw [Stream.ofSource, Stream.kind?_ofLexemes, settled] at declares
  rw [Option.some.inj declares] at hidden
  cases hidden

end Anchors

/-- Whether a diagnostic of the rule is about a function, given what stands above it: it is at the
keyword or in the doc comment that ends there. -/
def concerns (stream : Stream) (index above : Nat) (diagnostic : Diagnostic) : Bool :=
  diagnostic.isUnder info.code && (diagnostic.anchor == index ||
    (stream.commentAt? above).any fun comment => comment.closer == above &&
      decide (comment.opener ≤ diagnostic.anchor) && decide (diagnostic.anchor ≤ comment.closer))

/-- Whether a metric says if the function at an index is documented. -/
def counts (index : Nat) (metric : Metric) : Bool :=
  metric.name == "Function has doc comment" && metric.anchor == index

/-- No other rule counts functions. -/
theorem silent_of_ne (path : String) (source : List Char) (index : Nat) {other : Rule}
    (listed : other ∈ rules) (different : other.name ≠ rule.name) :
    ((Runner.checkTranscript [other] path source).flatMap fun entry =>
      entry.2.metrics).filter (counts index) = [] := by
  rw [rules] at listed
  simp only [mem_cons, not_mem_nil, or_false] at listed
  rcases listed with rfl | rfl | rfl | rfl | rfl
  · apply filter_metrics_eq_nil (Rule.finds_ofFindings _ _ ClassComment.find) path source
    intro _ place
    rw [filter_eq_nil_iff]
    intro counted found
    rw [counts, ClassComment.name_of_mem_metrics found]
    simp
  · exact absurd rfl different
  · exact filter_metrics_of_speaksThere MethodOrder.speaksThere path _
  · exact filter_metrics_of_speaksThere PropertyOrder.speaksThere path _
  · apply filter_metrics_eq_nil (Rule.finds_ofFindings _ _ ArrayComma.find) path source
    intro _ place
    rw [ArrayComma.metrics_find]
    rfl

section Report

variable {source : List Char} {above : Nat}
  (declares : (Stream.ofSource source).kind? index = some .functionKw)
  (search : (Stream.ofSource source).commentEnd? index maySeparate = some above)

include declares search

variable {diagnostic : Diagnostic}

theorem concerns_iff :
    concerns (Stream.ofSource source) index above diagnostic = true ↔
      diagnostic.isUnder info.code = true ∧ (diagnostic.anchor = index ∨
        ∃ comment, IsOver (Stream.ofSource source) comment index ∧
          comment.opener ≤ diagnostic.anchor ∧ diagnostic.anchor ≤ comment.closer) := by
  simp only [concerns, Bool.and_eq_true, Bool.or_eq_true, beq_iff_eq, Option.any_eq_true,
    decide_eq_true_eq, and_assoc]
  apply and_congr_right
  intro _
  apply or_congr_right
  constructor
  · rintro ⟨comment, found, rfl, lower, upper⟩
    exact ⟨comment, ⟨declares, search, docClose_of_commentAt? found rfl, found⟩, lower, upper⟩
  · rintro ⟨comment, isOver, lower, upper⟩
    have closes := Option.some.inj (isOver.search.symm.trans search)
    exact ⟨comment, closes ▸ isOver.found, closes, lower, upper⟩

/-- What is found for a function is about the function. -/
theorem concerns_of_mem (said : diagnostic ∈ info.diagnostics (Stream.ofSource source)
      (find (Stream.ofSource source) index)) :
    concerns (Stream.ofSource source) index above diagnostic = true := by
  rcases List.mem_filterMap.mp said with ⟨finding, found, entered⟩
  rw [concerns_iff declares search]
  rcases mem_find_cases declares found with ⟨value, rfl⟩ | ⟨violation, rfl, anchor⟩
  · cases entered
  · rcases Option.some.inj entered with rfl
    refine ⟨RuleInfo.isUnder_diagnosticAt _ _ _ _ _ _ _, ?_⟩
    apply anchor.imp_right
    rintro ⟨comment, isOver, lower, upper⟩
    exact ⟨comment, isOver, lower.le, upper⟩

/-- What is found for another function is not about the function: no token is in the comments of
both. -/
theorem not_concerns_of_ne {other : Nat}
    (other_declares : (Stream.ofSource source).kind? other = some .functionKw)
    (different : other ≠ index) (said : diagnostic ∈ info.diagnostics (Stream.ofSource source)
      (find (Stream.ofSource source) other)) :
    ¬concerns (Stream.ofSource source) index above diagnostic = true := by
  rcases List.mem_filterMap.mp said with ⟨finding, found, entered⟩
  rw [concerns_iff declares search]
  rcases mem_find_cases other_declares found with ⟨value, rfl⟩ | ⟨violation, rfl, other_anchor⟩
  · cases entered
  rcases Option.some.inj entered with rfl
  rintro ⟨-, anchor⟩
  change violation.anchor = index ∨ ∃ comment : Comment, _ ∧ comment.opener ≤ violation.anchor ∧
    violation.anchor ≤ comment.closer at anchor
  rcases other_anchor with there | ⟨comment, other_isOver, other_lower, other_upper⟩
  · rcases anchor with here | ⟨comment, isOver, lower, upper⟩
    · exact different (there.symm.trans here)
    · rw [there] at lower upper
      exact not_declares_inside isOver other_declares lower upper
  · rcases anchor with here | ⟨comment, isOver, lower, upper⟩
    · rw [here] at other_lower other_upper
      exact not_declares_inside other_isOver declares other_lower.le other_upper
    · exact different
        (isOver.index_eq (cuts_lex source) other_isOver lower upper other_lower other_upper).symm

variable {selected : List Rule} (builtIn : selected.Subperm rules) (chosen : rule ∈ selected)
  (maxPasses : Nat) (path : String)

include builtIn chosen

/-- What a check says about a function is what the rule finds for it. -/
theorem filter_check_concerns :
    ((Runner.ofRuleset (.ofRules selected) maxPasses).check path source).1.report.diagnostics.filter
        (concerns (Stream.ofSource source) index above) =
      (info.diagnostics (Stream.ofSource source) (find (Stream.ofSource source) index)).mergeSort
        Diagnostic.precedes := by
  apply (filter_check_find builtIn chosen maxPasses path declares
    (fun _ kept => ((concerns_iff declares search).mp kept).1) fun other other_declares different =>
      filter_eq_nil_iff.mpr fun _ =>
        not_concerns_of_ne declares search other_declares different).trans
  apply congrArg (List.mergeSort · _)
  apply List.filter_eq_self.mpr
  intro diagnostic said
  exact concerns_of_mem declares search said

omit search in
/-- What a check counts for a function is what the rule counts for it. -/
theorem filter_check_counts :
    (((Runner.ofRuleset (.ofRules selected) maxPasses).check path source).1.report.metrics.filter
        (counts index)).Perm
      ((find (Stream.ofSource source) index).filterMap Finding.metric?) := by
  have listed : index ∈ (Stream.ofSource source).places rule.listens :=
    Stream.mem_places_iff.mpr ⟨.functionKw, mem_singleton_self _, declares⟩
  rcases append_of_mem listed with ⟨before, after, split⟩
  have different := (Stream.ofSource source).nodup_places rule.listens
  rw [split] at different
  have others : ∀ entry ∈ walk (fun state index => (state, find (Stream.ofSource source) index))
      rule.initial (before ++ index :: after), entry.1 ≠ index →
      (entry.2.filterMap Finding.metric?).filter (counts index) = [] := by
    intro entry called apart
    rw [← split] at called
    rcases find_of_mem_walk called with ⟨other_declares, found⟩
    rw [found, filter_eq_nil_iff]
    intro counted listed
    rcases eq_of_mem_metrics other_declares listed with ⟨value, rfl⟩
    simp [counts, apart]
  have perm := perm_metrics_check (Rule.finds_ofFindings info [.functionKw] find) builtIn chosen
    maxPasses path source fun other => silent_of_ne path source index
  apply perm.trans
  have only := flatMap_walk_of_only _ others different
  rw [filter_flatMap]
  have split : (Stream.ofSource source).places
      (Rule.ofFindings info [.functionKw] find).listens = before ++ index :: after := split
  simp only [split]
  apply List.Perm.of_eq
  apply only.trans
  apply List.filter_eq_self.mpr
  intro counted listed
  rcases eq_of_mem_metrics declares listed with ⟨value, rfl⟩
  simp [counts]

end Report

/-- What a check says about a public function that is below a comment, a declaration or an opening
tag. If that is a doc comment that inherits its text, nothing is said. Otherwise what stands right
above the function decides: a doc comment is read, any other comment has the wrong style, and if
there is none it is missing. -/
theorem undocumented_functions_are_reported (selected : List Rule)
    (builtIn : selected.Subperm rules) (chosen : rule ∈ selected) (maxPasses : Nat) (path : String)
    (source : List Char) {index boundary : Nat}
    (declares : (Stream.ofSource source).kind? index = some .functionKw)
    (visible : ((Stream.ofSource source).modifiers? index).map Modifiers.visibility =
      some .publicAccess)
    (bounded : IsBoundary (Stream.ofSource source) index boundary) :
    let stream := Stream.ofSource source
    let report := ((Runner.ofRuleset (.ofRules selected) maxPasses).check path source).1.report
    let metric (value : String) : Metric := ⟨index, "Function has doc comment", value⟩
    let diagnostic (code message : String) :=
      stream.diagnosticAt .error info.code code message index false
    ∃ above, Stream.StandsAbove (lex source) maySeparate index above ∧
      let said := report.diagnostics.filter (concerns stream index above)
      let counted := report.metrics.filter (counts index)
      (IsInherited stream boundary → said = [] ∧ counted = []) ∧
      (¬IsInherited stream boundary → stream.kind? above = some .comment →
        said = [diagnostic "WrongStyle"
          "You must use \"/**\" style comments for a function comment"] ∧
        counted = [metric "yes"]) ∧
      (¬IsInherited stream boundary → stream.kind? above ≠ some .comment →
        stream.kind? above ≠ some .docClose →
        said = [diagnostic "Missing" "Missing function doc comment"] ∧
        counted = [metric "no"]) ∧
      (¬IsInherited stream boundary → stream.kind? above = some .docClose →
        ∃ comment declaration, stream.commentAt? above = some comment ∧ comment.closer = above ∧
          stream.nextSignificant (above + 1) (some index) = some declaration ∧
          said = (info.diagnostics stream (onBlock stream index declaration comment)).mergeSort
            Diagnostic.precedes ∧
          counted = [metric "yes"]) ∧
      (stream.hasKind endsSearch above = true →
        (∀ span, Stream.IsAttribute (lex source) span → above < span.opener →
          span.closer < index → ∀ inner, span.opener < inner → inner < span.closer →
            stream.hasKind endsSearch inner = false) →
        boundary = above) := by
  intro stream report metric diagnostic
  have inside : index < (lex source).length := by
    have := Stream.lt_size_of_kind? declares
    rwa [Stream.ofSource, Stream.size_ofLexemes] at this
  have required : isPublic stream index = true := by
    rcases Option.map_eq_some_iff.mp visible with ⟨modifiers, found, isPublic⟩
    rw [FunctionComment.isPublic, found, Option.any_some, isPublic]
    rfl
  have begins : ∀ kind, kind = .inlineHtml ∨ kind = .openTag ∨ kind = .openTagWithEcho →
      maySeparate kind = false := by
    rintro kind (rfl | rfl | rfl)
    · rfl
    · rfl
    · rfl
  rcases Stream.exists_standsAbove inside.le (Nat.zero_lt_of_lt bounded.lt) begins rfl with
    ⟨above, stands⟩
  have search := commentEnd?_of_standsAbove inside.le stands
  have recorded {findings : List Finding} (found : find stream index = findings) :
      report.diagnostics.filter (concerns stream index above) =
          (info.diagnostics stream findings).mergeSort Diagnostic.precedes ∧
        (report.metrics.filter (counts index)).Perm (findings.filterMap Finding.metric?) := by
    rw [← found]
    exact ⟨filter_check_concerns declares search builtIn chosen maxPasses path,
      filter_check_counts declares builtIn chosen maxPasses path⟩
  refine ⟨above, stands, ?_, ?_, ?_, ?_, boundary_eq bounded stands⟩
  · intro inherited
    rcases recorded (find_of_isInherited bounded inherited) with ⟨said_eq, perm⟩
    exact ⟨said_eq.trans mergeSort_nil, perm.eq_nil⟩
  · intro fresh plain
    have found := (find_of_not_isInherited bounded required fresh).trans
      (onPreceding_of_comment search plain)
    rcases recorded found with ⟨said_eq, perm⟩
    exact ⟨said_eq.trans (mergeSort_singleton _), perm.eq_singleton⟩
  · intro fresh not_comment not_closer
    have found := (find_of_not_isInherited bounded required fresh).trans
      (onPreceding_of_other search not_comment not_closer)
    rcases recorded found with ⟨said_eq, perm⟩
    exact ⟨said_eq.trans (mergeSort_singleton _), perm.eq_singleton⟩
  · intro fresh closes
    rcases exists_comment_of_docClose closes with ⟨comment, at_above, rfl⟩
    have significant : stream.hasKind Kind.isSignificant index = true :=
      Stream.hasKind_iff.mpr ⟨.functionKw, declares, rfl⟩
    rcases Stream.exists_findNext stands.lt (Nat.le_refl index) significant with
      ⟨declaration, below⟩
    have found := ((find_of_not_isInherited bounded required fresh).trans
      (onPreceding_of_docClose search closes true)).trans (onComment_eq below at_above rfl)
    rcases recorded found with ⟨said_eq, perm⟩
    have silent : (onBlock stream index declaration comment).filterMap Finding.metric? = [] := by
      rw [filterMap_eq_nil_iff]
      intro finding said
      rcases mem_onBlock_cases ⟨declares, search, closes, at_above⟩ said with ⟨violation, rfl, -⟩
      rfl
    refine ⟨comment, declaration, at_above, rfl, below, said_eq, ?_⟩
    have counted_eq : (documented index "yes" :: onBlock stream index declaration comment).filterMap
        Finding.metric? = [metric "yes"] := congrArg (metric "yes" :: ·) silent
    rw [counted_eq] at perm
    exact perm.eq_singleton

/-- The attribute does not hide the comment, and the comment has the wrong style. -/
theorem undocumented_functions_are_reported_attribute :
    let source :=
      "<?php class A \x7b\n// c\n#[B(1)] public static function f() \x7b\x7d \x7d".toList
    let stream := Stream.ofSource source
    let report := ((Runner.ofRuleset (.ofRules rules) 1).check "a.php" source).1.report
    stream.kind? 20 = some .functionKw ∧
      (stream.modifiers? 20).map Modifiers.visibility = some .publicAccess ∧
      IsBoundary stream 20 8 ∧ Stream.StandsAbove (lex source) maySeparate 20 8 ∧
      report.diagnostics.filter (concerns stream 20 8) =
        [stream.diagnosticAt .error info.code "WrongStyle"
          "You must use \"/**\" style comments for a function comment" 20 false] ∧
      report.metrics.filter (counts 20) = [⟨20, "Function has doc comment", "yes"⟩] := by
  intro source stream report
  have facts : stream.kind? 20 = some .functionKw ∧
      (stream.modifiers? 20).map Modifiers.visibility = some .publicAccess ∧
      boundary? stream 20 = some 8 ∧ stream.commentEnd? 20 maySeparate = some 8 ∧
      stream.kind? 8 = some .comment ∧ 20 ≤ (lex source).length := by decide +kernel
  rcases facts with ⟨declares, visible, boundary_eq, search, plain, inside⟩
  have bounded := boundary?_eq_some_iff.mp boundary_eq
  have stands : Stream.StandsAbove (lex source) maySeparate 20 8 :=
    (Stream.commentEnd?_eq_some_iff (isContextual_of_mem (cuts_lex source)) inside rfl).mp search
  have fresh : ¬IsInherited stream 8 := by
    rw [isInherited_iff]
    rintro ⟨closes, -⟩
    cases plain.symm.trans closes
  rcases undocumented_functions_are_reported rules (List.Subperm.refl rules)
    (mem_cons_of_mem _ mem_cons_self) 1 "a.php" source declares visible bounded with
    ⟨above, also, -, wrong_style, -⟩
  rcases also.eq stands with rfl
  exact ⟨declares, visible, bounded, stands, wrong_style fresh plain⟩

/-- A doc comment that inherits its text silences the next function, even if it is the comment of a
property. -/
theorem property_comment_silences_function :
    let source := ("<?php class A \x7b /** \x7b@inheritdoc\x7d */ public $a; " ++
      "public function f() \x7b\x7d \x7d").toList
    let stream := Stream.ofSource source
    stream.kind? 21 = some .functionKw ∧
      (stream.modifiers? 21).map Modifiers.visibility = some .publicAccess ∧
      Stream.StandsAbove (lex source) maySeparate 21 17 ∧ stream.kind? 17 = some .semicolon ∧
      ((Runner.ofRuleset (.ofRules [rule]) 1).check "a.php" source).1.report = {} := by
  intro source stream
  have facts : stream.kind? 21 = some .functionKw ∧
      (stream.modifiers? 21).map Modifiers.visibility = some .publicAccess ∧
      stream.commentEnd? 21 maySeparate = some 17 ∧ stream.kind? 17 = some .semicolon ∧
      ((Runner.ofRuleset (.ofRules [rule]) 1).check "a.php" source).1.report = {} ∧
      21 ≤ (lex source).length := by decide +kernel
  rcases facts with ⟨declares, visible, search, semicolon, silent, inside⟩
  exact ⟨declares, visible, (Stream.commentEnd?_eq_some_iff
    (isContextual_of_mem (cuts_lex source)) inside rfl).mp search, semicolon, silent⟩

end Standard.FunctionComment

end PhpStyle
